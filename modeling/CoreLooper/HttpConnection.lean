import CoreLooper.HttpParams
import CoreLooper.HttpPostHandler
import CoreLooper.IniFile
import CoreLooper.TextSeparator
import CoreLooper.Transitions

/-!
# Requests on a connection that is kept alive

`HttpHandler` reads into one inbox. An `HttpRequest` looks there for the end of a header and for a
length, and hands the text of a request to what answers it; the next one begins behind it. The
answer may take its time. Until it is out the handler keeps the request, and reads on. A request
whose answer is done and not yet out goes on with the text behind it as if it were its own.

Posts go to `HttpPostHandler` and web sockets to their own handler: the model ends there. The state
keeps what was received and what was handed out; no step reads it.
-/
namespace CoreLooper.Http
open CStrings Transitions

namespace HttpTool

def getString (request name defaultValue : Bytes) : Bytes :=
  let key := [13, 10] ++ name ++ [58, 32]
  match strstr request key with
  | none => defaultValue
  | some pos =>
      let psz := request.drop (pos + key.length)
      match strstr psz [13, 10] with
      | none => psz
      | some len => psz.take len

def getInt (request name : Bytes) (defaultValue : ℤ) : ℤ :=
  let value := getString request name []
  if value = [] then defaultValue else atoi value

end HttpTool

/-- A line with a colon. A name that is there already gets a 2. -/
def addBundleLine (mBundle : NameValue) (line : Bytes) : NameValue :=
  match cutAt 58 line with
  | (_, none) => mBundle
  | (name, some item) =>
      let name := if (mBundle name).isSome then name ++ [50] else name
      Function.update mBundle name (some (Ini.trim item 32))

/-- `TextParser::Parse`, as far as it goes for the lines behind the first one. -/
def parseBundle (input : Bytes) : NameValue :=
  let text :=
    match strstr input CRLF2 with
    | none => input
    | some pos => if pos + 4 = input.length then input else input.take pos
  (TextSeparator.items (cstr text) [13, 10]).tail.foldl addBundleLine .empty

structure HttpRequest where
  m_headerLength : ℤ := 0
  m_contentLength : ℤ := 0
  m_httpMethod : Bytes := []
  m_uri : Bytes := []
  mIsWebSocket : Bool := false
  m_handler : Bool := false
  /-- The status is `eHttpRequestStatus_Done`. -/
  done : Bool := false
  deriving DecidableEq

namespace HttpRequest

/-- The header has a key for a web socket. -/
def checkWebSocket (header : Bytes) : Bool :=
  let mBundle := parseBundle header
  (mBundle (ascii "Sec-WebSocket-Key")).getD [] ≠ [] ∨
    (mBundle (ascii "sec-websocket-key")).getD [] ≠ []

def onHeaderReady (junk : Bytes → UInt8) (request : Bytes) (r : HttpRequest) : HttpRequest :=
  match parseHeader junk request with
  | none => r
  | some info =>
      { r with
        m_httpMethod := info.m_httpMethod
        m_uri := info.m_uri
        mIsWebSocket := checkWebSocket (request.take r.m_headerLength.toNat) }

/-- `CheckProcessPostRequest` has to do with it. -/
def IsPost (r : HttpRequest) : Prop :=
  r.m_httpMethod = ascii "POST" ∧ strstr r.m_uri (ascii "onvif/") = none

instance : DecidablePred IsPost := fun r => by
  unfold IsPost
  infer_instance

/-- Another method than `GET` and `POST` is answered at once, and the request goes on. A redirect to
the login counts as a handler that is done at once. -/
def onHeaderContentReady (request : Bytes) (r : HttpRequest) : HttpRequest :=
  if strcasestr request (ascii "OPTIONS") = some 0 ∨ strcasestr request (ascii "DESCRIBE") = some 0
  then { r with done := true }
  else if isSupportHttpMethod r.m_httpMethod then { r with m_handler := true }
  else r

/-- What `Input` leaves in the inbox, makes of the request, and hands out. -/
structure Fed where
  inbox : Bytes
  request : HttpRequest
  given : List Bytes := []
  passedOn : Bool := false

/-- The text goes out if it is there as a whole, or what the numbers take for the whole. -/
def handOut (inbox : Bytes) (r : HttpRequest) : Fed :=
  let len := i32 (r.m_headerLength + r.m_contentLength)
  if 0 < len ∧ len ≤ inbox.length then
    let text := inbox.take len.toNat
    { inbox := inbox.drop len.toNat
      request := onHeaderContentReady (cstr text) r
      given := [text] }
  else ⟨inbox, r, [], false⟩

def parse (junk : Bytes → UInt8) (inbox : Bytes) (r : HttpRequest) : Fed :=
  let szReqBuf := cstr inbox
  if r.m_headerLength ≠ 0 then
    if r.IsPost then { inbox := inbox, request := r, passedOn := true } else handOut inbox r
  else
    match strstr szReqBuf CRLF2 with
    | none => ⟨inbox, r, [], false⟩
    | some pos =>
        let r := onHeaderReady junk szReqBuf { r with
          m_headerLength := (pos : ℤ) + 4
          m_contentLength := HttpTool.getInt szReqBuf (ascii "Content-Length") 0 }
        if r.mIsWebSocket ∨ r.IsPost then { inbox := inbox, request := r, passedOn := true }
        else handOut inbox r

/-- A line break at the start is eaten first. -/
def input (junk : Bytes → UInt8) (inbox : Bytes) (r : HttpRequest) : Fed :=
  if r.m_handler then ⟨inbox, r, [], false⟩
  else if inbox.length ≤ 4 then ⟨inbox, r, [], false⟩
  else
    let inbox := if [13, 10] <+: inbox then inbox.drop 2 else inbox
    if inbox.length ≤ 4 then ⟨inbox, r, [], false⟩ else parse junk inbox r

end HttpRequest

structure HttpHandler where
  mInbox : Bytes := []
  mHttpRequest : Option HttpRequest := none
  passedOn : Bool := false
  received : Bytes := []
  given : List Bytes := []
  deriving DecidableEq

namespace HttpHandler

/-- How far the answer to a request is by the end of a call of `CheckSend`. -/
inductive Answer where
  | processing
  /-- The handler is done, and some of the answer is still in `m_outboxPending`. -/
  | pending
  | out
  deriving DecidableEq, Repr

inductive Act where
  /-- Bytes come in. `answers` tells how far the answer to a request is, by its number. -/
  | receive (buf : Bytes) (answers : ℕ → Answer)
  /-- `OnSend`. -/
  | send (answer : Answer)

/-- `CheckSend` lets go of a handler that is done, and gives up a request whose answer is out. -/
def checkSend (answer : Answer) (r : HttpRequest) : Option HttpRequest :=
  if r.m_handler ∨ r.done then
    match answer with
    | .processing => some r
    | .pending => some { r with m_handler := false, done := true }
    | .out => none
  else some r

/-- The loop of `ParseInbox`. -/
def parseInbox (junk : Bytes → UInt8) (answers : ℕ → Answer) : ℕ → HttpHandler → HttpHandler
  | 0, h => h
  | fuel + 1, h =>
      if h.mInbox = [] then h
      else
        let fed := HttpRequest.input junk h.mInbox (h.mHttpRequest.getD {})
        let given := h.given ++ fed.given
        let h' : HttpHandler := { h with
          mInbox := fed.inbox
          mHttpRequest := checkSend (answers given.length) fed.request
          given := given
          passedOn := fed.passedOn }
        if fed.passedOn ∨ fed.inbox.length = h.mInbox.length then h'
        else parseInbox junk answers fuel h'

/-- The size of the inbox. What is read fits it, so that it never grows. -/
abbrev maxSize : ℕ := 8 * 1024

/-- `OnReceive` takes no more than its buffer and the inbox have room for, with a null. -/
def step (junk : Bytes → UInt8) (h : HttpHandler) : Act → Option HttpHandler
  | .receive buf answers =>
      let freeSize := maxSize - h.mInbox.length
      if h.passedOn = false ∧ 2 ≤ freeSize ∧ 0 < buf.length ∧
          buf.length ≤ min 4095 (freeSize - 1) then
        let mInbox := h.mInbox ++ buf
        some (parseInbox junk answers (mInbox.length + 1)
          { h with mInbox := mInbox, received := h.received ++ buf })
      else none
  | .send answer =>
      match h.mHttpRequest with
      | some r =>
          if r.m_handler ∨ r.done then some { h with mHttpRequest := checkSend answer r } else none
      | none => none

end HttpHandler
end CoreLooper.Http
