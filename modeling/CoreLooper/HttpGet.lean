import CoreLooper.ChunkAgreement

/-!
# Downloads

`HttpGet` collects a response in an inbox and passes its body on while it comes in, to a buffer or
to a file. The header tells how the body ends: by its length, by chunks, or with the bytes that came
with the header. In two places a response with chunks counts as complete once the bytes of its end
are seen in the inbox.

A file is what was written to it. It takes a number of bytes. When it is closed it is to get its
name, and nothing asks whether it did. What the caller makes of an answer is left out.
-/
namespace CoreLooper.Http
open CStrings

inductive HttpAckStatus where
  | waitHeader
  | receivingChunkedLength
  | receivingChunkedBody
  | receivingBody
  | done
  deriving DecidableEq, Repr

structure HttpGet where
  mInbox : Bytes := []
  mHttpAckStatus : HttpAckStatus := .waitHeader
  mHttpAckCode : ℤ := 0
  mContentLength : ℕ := 0
  mAckBody : Bytes := []
  mSaveAsFilePath : Bytes := []
  mFile : Option Bytes := none
  mChunked : Bool := false
  mChunkedDoubleCRLF : Bool := false
  mChunkedBytes : ℕ := 0
  mChunkedReceivedBytes : ℕ := 0
  mSignaled : Bool := false
  isDestroyed : Bool := false
  /-- The channel has yet to tell whether it is connected. -/
  mWaitFirstEvent : Bool := true
  /-- How many bytes a file takes. -/
  room : ℕ
  /-- Whether `File::rename` can give the file its name. -/
  renames : Bool
  /-- The file that has got its name. -/
  saved : Option Bytes := none
  /-- The calls of `mCB`. -/
  acks : List (ℤ × Bytes) := []
  received : Bytes := []
  deriving DecidableEq, Repr

namespace HttpGet

/-- The limit of the inbox and of the body, which are both a `ByteBuffer`. -/
abbrev maxSize : ℕ := ByteBuffer.defaultMaxSize

def signal (error : ℤ) (s : HttpGet) : HttpGet :=
  if s.mSignaled then s
  else { s with mSignaled := true, acks := s.acks ++ [(error, s.mAckBody)] }

/-- `Destroy` and the `OnDestroy` in it, which also closes the channel. -/
def destroy (s : HttpGet) : HttpGet :=
  if s.isDestroyed then s else { s with isDestroyed := true }.signal (-1)

def switchStatus (status : HttpAckStatus) (s : HttpGet) : HttpGet :=
  let s := { s with mHttpAckStatus := status }
  if status = .done then
    let s :=
      if s.mFile.isSome then
        { s with
          mFile := none
          saved := if s.renames then s.mFile else none
          mAckBody := s.mSaveAsFilePath }
      else s
    (s.signal 0).destroy
  else s

/-- `mAckBody.Write`. -/
def writeBody (data : Bytes) (s : HttpGet) : HttpGet :=
  { s with mAckBody := s.mAckBody ++ data.take (maxSize - s.mAckBody.length) }

def onRecvHttpAckBody (data : Bytes) (s : HttpGet) : HttpGet :=
  let s := { s with
    mChunkedReceivedBytes := (s.mChunkedReceivedBytes + data.length) % 2 ^ 64 }
  match s.mFile with
  | some file =>
      if s.mHttpAckCode ≠ 200 ∧ s.mHttpAckCode ≠ 206 then s.destroy
      else
        let ret := min data.length (s.room - file.length)
        let file := file ++ data.take ret
        let s := { s with mFile := some file }
        if ret ≠ data.length then s.destroy
        else if s.mChunked = false ∧ file.length = s.mContentLength then s.switchStatus .done
        else s
  | none =>
      let s := s.writeBody data
      if s.mChunked = false ∧ s.mAckBody.length = s.mContentLength then s.switchStatus .done else s

/-- `mInbox.Eat`. -/
def eat (bytes : ℕ) (s : HttpGet) : HttpGet :=
  if bytes > s.mInbox.length then s else { s with mInbox := s.mInbox.drop bytes }

/-- What is left behind the header is of the body. -/
def eatHeader (bytes : ℕ) (s : HttpGet) : HttpGet :=
  let s := s.eat bytes
  if s.mInbox = [] then s else { s.onRecvHttpAckBody s.mInbox with mInbox := [] }

def ackHeaders (header : Bytes) : NameValue :=
  match HttpAcker.parse header true with
  | none => .empty
  | some (_, obj) => obj.mFields

/-- `atoi`, stored in a `DWORD`. -/
def lengthField (fields : NameValue) (name : Bytes) : ℕ :=
  (atoi ((fields name).getD []) % 2 ^ 32).toNat

def lengthOf (fields : NameValue) : ℕ :=
  let length := lengthField fields (ascii "Content-Length")
  if length = 0 then lengthField fields (ascii "Content-length") else length

/-- The search for the announcement of chunks, in all that has come. -/
def findChunked (ps : Bytes) : Bool :=
  match strstr ps (ascii "Transfer-Encoding:") with
  | none => false
  | some encoding => (strstr (ps.drop encoding) (ascii " chunked\r\n")).isSome

/-- `recvFinish`: the end of the chunks is somewhere in the text of the inbox. -/
def seesEnd (text : Bytes) : Bool := (strstr (cstr text) chunksEnd).isSome

/-- A header without a length that does not announce chunks: the text behind it is the body, but for
one server that may still send more. -/
def noLength (ps : Bytes) (pEnd eat : ℕ) (s : HttpGet) : HttpGet :=
  if s.mAckBody = [] then
    let s := s.writeBody (ps.drop eat)
    if (strstr ps (ascii "Demo-Webs\r\n")).isSome ∧ strstr (ps.drop pEnd) [125] = none then
      { s with mInbox := [] }.switchStatus .receivingBody
    else s.switchStatus .done
  else s.switchStatus .done

/-- The header ends at that place of the text `ps`, with that many bytes of line ends. The flag
tells whether the loop goes on. -/
def onHeader (ps : Bytes) (pEnd key : ℕ) (s : HttpGet) : HttpGet × Bool :=
  let s := { s with
    mHttpAckCode := ackCode (ps.take pEnd)
    mContentLength := lengthOf (ackHeaders (ps.take (pEnd + key))) }
  if s.mContentLength > 0 then
    ((s.switchStatus .receivingBody).eatHeader (pEnd + key), true)
  else
    let s := if findChunked ps then { s with mChunked := true } else s
    if s.mChunked then
      let s := s.eat (pEnd + key)
      if seesEnd s.mInbox then ((s.writeBody s.mInbox).switchStatus .done, false)
      else (s.switchStatus .receivingChunkedLength, false)
    else ((s.noLength ps pEnd (pEnd + key)).eatHeader (pEnd + key), true)

def waitHeader (s : HttpGet) : HttpGet × Bool :=
  let ps := cstr s.mInbox
  match strstr ps CRLF2 with
  | some pEnd => s.onHeader ps pEnd 4
  | none =>
      match strstr ps [10, 10] with
      | some pEnd => s.onHeader ps pEnd 2
      | none => (s, true)

/-- The line of a size at the start of the inbox. -/
def sizeLine (s : HttpGet) : HttpGet × Bool :=
  let data := cstr s.mInbox
  match strstr data [13, 10] with
  | none => (s, false)
  | some pos =>
      if s.mInbox.length < 3 then (s, false)
      else
        let bodyBytes := (strtolHex data).1
        if bodyBytes = 0 then ({ s with mInbox := [] }.switchStatus .done, false)
        else
          let s : HttpGet := { s.eat (pos + 2) with
            mChunkedBytes := (bodyBytes % 2 ^ 64).toNat
            mChunkedReceivedBytes := 0 }
          if s.mChunked ∧ seesEnd s.mInbox then
            ((s.writeBody s.mInbox).switchStatus .done, false)
          else (s.switchStatus .receivingChunkedBody, true)

/-- The line end behind the last chunk is eaten together with the next line. -/
def chunkedLength (s : HttpGet) : HttpGet × Bool :=
  if s.mChunkedDoubleCRLF then
    if s.mInbox.length < 5 ∨ strstr (cstr (s.mInbox.drop 2)) [13, 10] = none then (s, false)
    else { s.eat 2 with mChunkedDoubleCRLF := false }.sizeLine
  else s.sizeLine

def chunkedBody (s : HttpGet) : HttpGet :=
  let left := (s.mChunkedBytes + 2 ^ 64 - s.mChunkedReceivedBytes) % 2 ^ 64
  let eatBytes := min s.mInbox.length left
  let s := if eatBytes > 0 then (s.onRecvHttpAckBody (s.mInbox.take eatBytes)).eat eatBytes else s
  if s.mChunkedReceivedBytes = s.mChunkedBytes then
    { s with
      mChunkedBytes := 0
      mChunkedReceivedBytes := 0
      mChunkedDoubleCRLF := true }.switchStatus .receivingChunkedLength
  else s

def turn (s : HttpGet) : HttpGet × Bool :=
  match s.mHttpAckStatus with
  | .waitHeader => s.waitHeader
  | .receivingChunkedLength => s.chunkedLength
  | .receivingChunkedBody => (s.chunkedBody, true)
  | .receivingBody => ({ s.onRecvHttpAckBody s.mInbox with mInbox := [] }, true)
  | .done => (s, true)

/-- The loop of `ParseInbox`, which began with so many bytes. A loop that does not end has no
result. -/
def parseLoop (leftBytes : ℕ) : ℕ → HttpGet → Option HttpGet
  | 0, _ => none
  | fuel + 1, s =>
      let (s, goesOn) := s.turn
      if goesOn = false ∨ s.mInbox.length = leftBytes ∨ s.mInbox = [] then some s
      else parseLoop leftBytes fuel s

def parseInbox (s : HttpGet) : Option HttpGet :=
  s.parseLoop s.mInbox.length (s.mInbox.length + 1)

/-- One turn of the loop of `OnReceive`. From a closed channel nothing comes. -/
def onReceive (buf : Bytes) (s : HttpGet) : Option HttpGet :=
  if s.isDestroyed ∨ buf = [] then some s
  else
    let ret := min buf.length (maxSize - s.mInbox.length)
    let s := { s with mInbox := s.mInbox ++ buf.take ret, received := s.received ++ buf }
    if ret ≠ buf.length then some s.destroy else s.parseInbox

inductive Act where
  /-- The channel is connected, or not. Whether the file could be opened and the request be sent. -/
  | connect (error opened sent : Bool)
  | receive (buf : Bytes)
  /-- `OnClose`, or the timer that closes. -/
  | close

def onConnect (error opened sent : Bool) (s : HttpGet) : HttpGet :=
  let s := { s with mWaitFirstEvent := false }
  if error then s.destroy
  else if s.mSaveAsFilePath ≠ [] ∧ opened = false then s.destroy
  else
    let s := if s.mSaveAsFilePath ≠ [] then { s with mFile := some [] } else s
    if sent then { s with mInbox := [] }
    else
      -- here the answer is given without a look at `mSignaled`
      { s with mSignaled := true, acks := s.acks ++ [(-1, s.mAckBody)] }.destroy

def step (s : HttpGet) : Act → Option HttpGet
  | .connect error opened sent =>
      if s.mWaitFirstEvent ∧ s.isDestroyed = false then some (s.onConnect error opened sent)
      else none
  | .receive buf => if s.mWaitFirstEvent = false ∧ buf.length < 4096 then s.onReceive buf else none
  | .close => some s.destroy

/-- `Execute` has been called. -/
def executed (saveAsFilePath : Bytes) (room : ℕ) (renames : Bool) : HttpGet :=
  { mSaveAsFilePath := saveAsFilePath, room := room, renames := renames }

/-- The request is on its way, and a file can get its name. -/
def sent (saveAsFilePath : Bytes) (room : ℕ) : HttpGet :=
  (executed saveAsFilePath room true).onConnect false true true

end HttpGet
end CoreLooper.Http
