import CoreLooper.HttpPostHandler

/-!
# HttpPost

A form is sent in stages. The header of the request and the text fields go to the outbox at once;
then each file is read piece by piece as the outbox drains. The stages are here for forms and for
a raw body in memory. The calls at the end of a stage's functions are tail calls, so that a stage
says whether `CheckSend` follows. The disk is a function that does not change.
-/
namespace CoreLooper.Http
open CStrings

/-- A `ByteBuffer` to which data is added only when it is empty: then its data is at the start of
the block. -/
structure Outbox where
  box : ByteQueue ByteBuffer.defaultMaxSize := .clear
  cbBuf : ℕ := 16 * 1024
  deriving DecidableEq

namespace Outbox

def bytes (o : Outbox) : Bytes := o.box.bytes

/-- The block for that much data, in steps and up to the limit. -/
def grown (needed : ℕ) (o : Outbox) : ℕ :=
  if needed > o.cbBuf then
    min ((needed + (1024 * 8 - 1)) / (1024 * 8) * (1024 * 8)) ByteBuffer.defaultMaxSize
  else o.cbBuf

def write (data : Bytes) (o : Outbox) : Outbox where
  box := o.box.write data
  cbBuf := o.grown (min (o.bytes.length + data.length) ByteBuffer.defaultMaxSize)

def makeSureEndWithNull (o : Outbox) : Outbox :=
  if o.bytes.getLast? = some 0 then o
  else { o with cbBuf := o.grown (min (o.bytes.length + 1) ByteBuffer.defaultMaxSize) }

def append (src : Bytes) (o : Outbox) : Outbox := (o.write src).makeSureEndWithNull

def eat (n : ℕ) (o : Outbox) : Outbox := { o with box := o.box.eat n }

def getTailFreeSize (o : Outbox) : ℕ := o.cbBuf - o.bytes.length

end Outbox

structure TagItem where
  name : Bytes
  value : Bytes
  fileTitle : Bytes := []
  mBytes : ℕ := 0
  deriving DecidableEq

/-- `File::GetPathFileName`: without a separator there is no file name. -/
def getPathFileName (path : Bytes) : Bytes :=
  if path.any (fun ch => ch = 47 ∨ ch = 92) then
    (path.reverse.takeWhile fun ch => ¬ (ch = 47 ∨ ch = 92)).reverse
  else []

namespace TagItem

def getFileTitle (item : TagItem) : Bytes :=
  if item.fileTitle = [] then getPathFileName (cstr item.value) else item.fileTitle

end TagItem

/-- The table of `GetContentType`. -/
def contentTypes : List (Bytes × Bytes) :=
  [(ascii ".htm", ascii "text/html"),
    (ascii ".html", ascii "text/html"),
    (ascii ".js", ascii "text/javascript"),
    (ascii ".json", ascii "application/json;charset=UTF-8"),
    (ascii ".ico", ascii "image/icon"),
    (ascii ".css", ascii "text/css"),
    (ascii ".png", ascii "image/png"),
    (ascii ".gif", ascii "image/gif"),
    (ascii ".jpg", ascii "image/jpeg"),
    (ascii ".jpeg", ascii "image/jpeg"),
    (ascii ".cfg", ascii "application/custom"),
    (ascii ".avi", ascii "video/mp4"),
    (ascii ".mp4", ascii "video/mp4"),
    (ascii ".xlsx", ascii "application/vnd.openxmlformats-officedocument.spreadsheetml.sheet"),
    (ascii ".xls", ascii "application/vnd.ms-excel"),
    (ascii ".pdf", ascii "application/pdf"),
    (ascii ".doc", ascii "application/msword"),
    (ascii ".docx", ascii
      "application/vnd.openxmlformats-officedocument.wordprocessingml.document"),
    (ascii ".ppt", ascii "application/vnd.ms-powerpoint"),
    (ascii ".pptx", ascii
      "application/vnd.openxmlformats-officedocument.presentationml.presentation")]

def getContentType (ext : Bytes) : Bytes :=
  match contentTypes.find? fun entry => (cstr ext).map toLower = entry.1 with
  | some entry => entry.2
  | none => ascii "application/octet-stream"

inductive ESendStage where
  | SendNone
  | SendHeader
  | SendFileDesc
  | SendFileBody
  | SendFileCRLF
  | SendTail
  | SendBodyRaw
  | SendFinish
  deriving DecidableEq, Repr

/-- `mFile` is what is still to be read from the file that is open. -/
structure HttpPost where
  mHttpMethod : Bytes := ascii "POST"
  mUrl : Bytes := []
  mServer : Bytes := []
  mPort : ℤ := 80
  mHeaders : List (Bytes × Bytes) := []
  mBoundary : Bytes := ascii "--------------------------716657498184592405569245"
  mFields : List TagItem := []
  mFiles : List TagItem := []
  mBodyRawData : Bytes := []
  mOutbox : Outbox := {}
  mStage : ESendStage := .SendNone
  mFile : Option Bytes := none
  mFileIndex : ℤ := -1
  mDestroyed : Bool := false
  deriving DecidableEq

namespace HttpPost

def addField (name value : Bytes) (p : HttpPost) : HttpPost :=
  { p with mFields := p.mFields ++ [{ name, value }] }

/-- `File::GetFileLength` of a path. -/
def getFileLength (files : Bytes → Option Bytes) (pszFile : Bytes) : ℕ :=
  ((files (cstr pszFile)).getD []).length

def addFile (files : Bytes → Option Bytes) (name filePath fileTitle : Bytes) (p : HttpPost) :
    ℤ × HttpPost :=
  match files (cstr filePath) with
  | none => (-1, p)
  | some data =>
      (0, { p with mFiles := p.mFiles ++ [⟨name, filePath, fileTitle, data.length⟩] })

def isPostFileFields (p : HttpPost) : Bool := p.mFiles ≠ [] ∨ p.mFields ≠ []

/-- The text of a field. -/
def fieldText (boundary : Bytes) (item : TagItem) : Bytes :=
  ascii "--" ++ cstr boundary ++ ascii "\r\n" ++
    ascii "Content-Disposition: form-data; name=\"" ++ cstr item.name ++ ascii "\"\r\n" ++
    ascii "\r\n" ++
    cstr item.value ++ ascii "\r\n"

/-- What stands before the data of a file. -/
def fileDesc (boundary : Bytes) (item : TagItem) : Bytes :=
  ascii "--" ++ cstr boundary ++ ascii "\r\n" ++
    ascii "Content-Disposition: form-data; name=\"" ++ cstr item.name ++
      ascii "\"; filename=\"" ++ cstr item.getFileTitle ++ ascii "\"\r\n" ++
    ascii "Content-Type: " ++ cstr (getContentType item.value) ++ ascii "\r\n" ++
    ascii "\r\n"

def tail (boundary : Bytes) : Bytes := ascii "--" ++ cstr boundary ++ ascii "--\r\n"

/-- `mHeaders.find` finds the name. -/
def hasHeader (name : String) (p : HttpPost) : Bool := p.mHeaders.any (·.1 = ascii name)

/-- The request up to the length. -/
def requestHead (p : HttpPost) : Bytes :=
  cstr p.mHttpMethod ++ ascii " " ++ cstr p.mUrl ++ ascii " HTTP/1.1\r\n" ++
    (p.mHeaders.flatMap fun item => cstr item.1 ++ ascii ": " ++ cstr item.2 ++ ascii "\r\n") ++
    (if p.hasHeader "Content-Type" ∨ p.hasHeader "Content-type" then []
      else ascii "Content-Type: multipart/form-data; boundary=" ++ cstr p.mBoundary ++
        ascii "\r\n") ++
    (if p.hasHeader "Host" then []
      else if p.mPort = 80 then ascii "Host: " ++ cstr p.mServer ++ ascii "\r\n"
      else ascii "Host: " ++ cstr p.mServer ++ ascii ":" ++ decimal p.mPort ++ ascii "\r\n") ++
    (if p.hasHeader "cache-control" then [] else ascii "cache-control: no-cache\r\n") ++
    (if p.hasHeader "Connection" then [] else ascii "Connection: keep-alive\r\n")

def isJson (p : HttpPost) : Bool :=
  match p.mHeaders.find? (·.1 = ascii "Content-Type") with
  | none => false
  | some item => (strstr item.2 (ascii "application/json")).isSome

/-- The text fields in their buffer. -/
def fieldsBody (p : HttpPost) : ByteQueue ByteBuffer.defaultMaxSize :=
  if p.isJson ∨ p.mBodyRawData ≠ [] then .clear
  else p.mFields.foldl (fun body item => body.write (fieldText p.mBoundary item)) .clear

/-- What `PrepareData` announces, in an `int`. -/
def contentLength (files : Bytes → Option Bytes) (p : HttpPost) : ℤ :=
  let contentLength : ℤ :=
    if p.isJson ∨ p.mBodyRawData ≠ [] then p.mBodyRawData.length else p.fieldsBody.length
  if p.isPostFileFields then
    let contentLength := p.mFiles.foldl (fun contentLength item =>
      let contentLength := i32 (contentLength + (fileDesc p.mBoundary item).length)
      let contentLength := i32 (contentLength + getFileLength files item.value)
      i32 (contentLength + (ascii "\r\n").length)) contentLength
    i32 (contentLength + (tail p.mBoundary).length)
  else contentLength

/-- `SwitchStage`, with what `PreStage` does for the new stage. -/
def switchTo (preStage : HttpPost → HttpPost × Bool) (stage : ESendStage) (p : HttpPost) :
    HttpPost × Bool :=
  if stage ≠ .SendBodyRaw ∧ p.mStage = stage then (p, false)
  else if stage = .SendFinish then ({ p with mStage := stage }, false)
  else preStage { p with mStage := stage }

def preSendTail (p : HttpPost) : HttpPost × Bool :=
  ({ p with mOutbox := p.mOutbox.write (tail p.mBoundary) }, true)

def preSendFileCRLF (p : HttpPost) : HttpPost × Bool :=
  ({ p with mOutbox := p.mOutbox.write (ascii "\r\n") }, true)

def preSendFileBody (p : HttpPost) : HttpPost × Bool :=
  let bytes := p.mOutbox.getTailFreeSize
  if bytes > 0 then
    let data := p.mFile.getD []
    if (data.take bytes).length > 0 then
      ({ p with mOutbox := p.mOutbox.write (data.take bytes), mFile := some (data.drop bytes) },
        true)
    else switchTo preSendFileCRLF .SendFileCRLF { p with mFile := none }
  else (p, true)

def preSendFileDesc (files : Bytes → Option Bytes) (p : HttpPost) : HttpPost × Bool :=
  let p := { p with mFileIndex := p.mFileIndex + 1 }
  match p.mFiles[p.mFileIndex.toNat]? with
  | some fileInfo =>
      let p := { p with mOutbox := p.mOutbox.write (fileDesc p.mBoundary fileInfo) }
      match files (cstr fileInfo.value) with
      | some data =>
          let p := { p with mFile := some data }
          if fileInfo.mBytes ≠ getFileLength files fileInfo.value then
            ({ p with mDestroyed := true }, false)
          else (p, true)
      | none => ({ p with mDestroyed := true }, false)
  | none => switchTo preSendTail .SendTail p

def preSendBodyRaw (p : HttpPost) : HttpPost × Bool :=
  ({ p with mOutbox := p.mOutbox.append p.mBodyRawData, mBodyRawData := [] }, false)

def preStage (files : Bytes → Option Bytes) : ESendStage → HttpPost → HttpPost × Bool
  | .SendHeader, p => (p, true)
  | .SendFileDesc, p => p.preSendFileDesc files
  | .SendFileBody, p => p.preSendFileBody
  | .SendFileCRLF, p => p.preSendFileCRLF
  | .SendTail, p => p.preSendTail
  | .SendBodyRaw, p => p.preSendBodyRaw
  | _, p => (p, false)

def switchStage (files : Bytes → Option Bytes) (stage : ESendStage) (p : HttpPost) :
    HttpPost × Bool :=
  switchTo (preStage files stage) stage p

def postStage (files : Bytes → Option Bytes) (p : HttpPost) : ESendStage → HttpPost × Bool
  | .SendHeader =>
      if p.isPostFileFields then
        if p.mFiles.length > 0 then p.switchStage files .SendFileDesc
        else p.switchStage files .SendTail
      else p.switchStage files .SendBodyRaw
  | .SendFileDesc => p.switchStage files .SendFileBody
  | .SendFileBody => p.preStage files .SendFileBody
  | .SendFileCRLF =>
      if p.mFileIndex < (p.mFiles.length : ℤ) - 1 then p.switchStage files .SendFileDesc
      else p.switchStage files .SendTail
  | .SendTail => p.switchStage files .SendFinish
  | .SendBodyRaw => p.switchStage files .SendFinish
  | _ => (p, false)

def onOutboxWritable (files : Bytes → Option Bytes) (p : HttpPost) : HttpPost × Bool :=
  if p.mStage ≠ .SendFinish then p.postStage files p.mStage else (p, false)

/-- `CheckSend`: the channel takes as many bytes as the next of the numbers says, and none when
there is no further number. The bytes that go out are returned. -/
def checkSend (files : Bytes → Option Bytes) :
    ℕ → List ℕ → HttpPost → Option (Bytes × HttpPost)
  | 0, _, _ => none
  | fuel + 1, rets, p =>
      if p.mDestroyed then some ([], p)
      else if p.mOutbox.bytes = [] then
        match p.onOutboxWritable files with
        | (p, true) => checkSend files fuel rets p
        | (p, false) => some ([], p)
      else
        match rets with
        | [] => some ([], p)
        | ret :: rets =>
            let frame := p.mOutbox.bytes
            if ret > 0 then
              let p := { p with mOutbox := p.mOutbox.eat ret }
              if ret < frame.length then some (frame.take ret, p)
              else (checkSend files fuel rets p).map fun r => (frame.take ret ++ r.1, r.2)
            else some ([], p)

/-- `OnSend`; between two calls of the channel the outbox is filled at most once. -/
def onSend (files : Bytes → Option Bytes) (rets : List ℕ) (p : HttpPost) :
    Option (Bytes × HttpPost) :=
  p.checkSend files (2 * rets.length + 2) rets

/-- The header and the text fields in the outbox, after which the first stage begins. -/
def prepareData (files : Bytes → Option Bytes) (p : HttpPost) : HttpPost × Bool :=
  let req : ByteQueue ByteBuffer.defaultMaxSize := .clear
  let req := req.write (p.requestHead ++ ascii "Content-Length: " ++
    decimal (p.contentLength files) ++ ascii "\r\n" ++ ascii "\r\n")
  let req := req.write p.fieldsBody.bytes
  { p with mOutbox := p.mOutbox.append req.bytes }.switchStage files .SendHeader

/-- The channel is connected, and then writable again and again. -/
def sends (files : Bytes → Option Bytes) : List (List ℕ) → HttpPost → Option (Bytes × HttpPost)
  | [], p => some ([], p)
  | rets :: events, p => do
      let (sent, p) ← p.onSend files rets
      let (later, p) ← sends files events p
      return (sent ++ later, p)

def post (files : Bytes → Option Bytes) (events : List (List ℕ)) (p : HttpPost) :
    Option (Bytes × HttpPost) :=
  sends files events (p.prepareData files).1

end HttpPost
end CoreLooper.Http
