import CoreLooper.HttpTool

/-!
# HttpRequestHandler_File

`HttpRequest::ParseHeader` reads a range from the request, and the handler sends that part of a
file piece by piece, as the outbox has room. Sizes are of type `size_t`; the numbers of a range are
read with `%u` and have 32 bits. The file was found and opened: the ways to it are left out.
-/
namespace CoreLooper.Http
open CStrings

/-- The value of digits with a sign, as `strtoul` converts it. -/
def strtoul (negative : Bool) (n : ℕ) : ℕ :=
  if 2 ^ 64 ≤ n then 2 ^ 64 - 1 else if negative then (2 ^ 64 - n) % 2 ^ 64 else n

/-- `%u` of `sscanf`: the number and what follows it. -/
def scanUnsigned (text : Bytes) : Option (ℕ × Bytes) :=
  let s := text.dropWhile isspace
  let digits := if s.head? = some 45 ∨ s.head? = some 43 then s.tail else s
  if digits.takeWhile isdigit = [] then none
  else some (strtoul (decide (s.head? = some 45)) (digitsValue digits) % 2 ^ 32,
    digits.dropWhile isdigit)

/-- `sscanf(psz, "%u-%u", &range, &rangeEnd)` with both numbers 0 before. -/
def scanRange (psz : Bytes) : ℕ × ℕ :=
  match scanUnsigned psz with
  | none => (0, 0)
  | some (range, 45 :: rest) => (range, ((scanUnsigned rest).map Prod.fst).getD 0)
  | some (range, _) => (range, 0)

theorem scanRange_dash {psz rest : Bytes} {range : ℕ}
    (h : scanUnsigned psz = some (range, 45 :: rest)) :
    scanRange psz = (range, ((scanUnsigned rest).map Prod.fst).getD 0) := by
  simp only [scanRange, h]

structure RangeInfo where
  m_range : ℕ
  m_rangeEnd : ℕ
  deriving DecidableEq, Repr

def parseRange (request : Bytes) (info : RangeInfo) : RangeInfo :=
  if (strstr request (ascii "\r\nRange:")).isSome then
    -- the search begins anew at the start of the request
    match strstr request (ascii "bytes=") with
    | none => info
    | some p =>
        let (range, rangeEnd) := scanRange (request.drop (p + (ascii "bytes=").length))
        ⟨range, if rangeEnd < range then range else rangeEnd⟩
  else info

inductive HandlerStatus where
  | Idle | Processing | Done
  deriving DecidableEq, Repr

/-- The fields are an unordered map, so that the text has no fixed order. -/
structure HttpAckHeader where
  m_statusCode : Bytes
  m_contentType : Bytes
  m_connection : Bytes
  m_fields : NameValue

namespace HttpAckHeader

def setField (header : HttpAckHeader) (name value : Bytes) : HttpAckHeader :=
  { header with m_fields := header.m_fields.set name value }

def setContentLength (header : HttpAckHeader) (len : ℕ) : HttpAckHeader :=
  header.setField (ascii "Content-Length") (decimal len)

theorem setField_other (header : HttpAckHeader) {k name : Bytes} (hne : k ≠ name) (value : Bytes) :
    (header.setField name value).m_fields k = header.m_fields k := by
  show header.m_fields.set name value k = header.m_fields k
  unfold NameValue.set
  split_ifs
  · rfl
  · exact Function.update_of_ne hne _ _

theorem setContentLength_same (header : HttpAckHeader) (len : ℕ) :
    (header.setContentLength len).m_fields (ascii "Content-Length") = some (decimal len) := by
  have hname : ascii "Content-Length" ≠ [] := by decide +kernel
  show header.m_fields.set (ascii "Content-Length") (decimal len) (ascii "Content-Length") = _
  rw [NameValue.set, if_neg hname]
  exact Function.update_self _ _ _

/-- What all answers with a file have in common. -/
def make (statusCode contentType : Bytes) : HttpAckHeader :=
  ⟨statusCode, contentType, ascii "Keep-Alive", .empty⟩

end HttpAckHeader

/-- What is written to the outbox. -/
inductive Output where
  | ack (header : HttpAckHeader)
  | data (bytes : Bytes)

/-- The file bytes of an output. -/
def Output.bytes : Output → Bytes
  | .ack _ => []
  | .data bytes => bytes

/-- The file as it was opened, and whether a copy the client has is still good. -/
structure WebFile where
  data : Bytes
  ext : Bytes
  contentType : Bytes
  szLastModifiedTime : Bytes
  canUseCache : Bool

structure FileHandler where
  m_headerInfo : RangeInfo
  m_hFile : Option Bytes
  position : ℕ
  m_fileSize : ℕ
  m_fileOffset : ℕ
  m_status : HandlerStatus
  m_outbox : List Output

namespace FileHandler

def output (item : Output) (h : FileHandler) : FileHandler :=
  { h with m_outbox := h.m_outbox ++ [item] }

/-- The offset at which the handler is done. -/
def fileRange (h : FileHandler) : ℕ :=
  if 0 < h.m_headerInfo.m_rangeEnd then h.m_headerInfo.m_rangeEnd + 1 else h.m_fileSize

/-- Up to `maxRead` bytes of the file from where it stands; at its end nothing happens. -/
def sendPiece (maxRead : ℕ) (h : FileHandler) : FileHandler :=
  let data := ((h.m_hFile.getD []).drop h.position).take maxRead
  if data = [] then h
  else output (.data data)
    { h with
      position := h.position + data.length
      m_fileOffset := h.m_fileOffset + data.length }

/-- `Process`, with `free` bytes of room in the outbox. -/
def process (free : ℕ) (h : FileHandler) : FileHandler :=
  let maxRead := min 4096 (h.fileRange - h.m_fileOffset)
  let h' := if h.m_fileOffset < h.fileRange ∧ maxRead ≤ free then h.sendPiece maxRead else h
  if h.fileRange ≤ h'.m_fileOffset then { h' with m_status := .Done } else h'

/-- A file that was just opened. -/
def opened (info : RangeInfo) (file : WebFile) : FileHandler :=
  ⟨info, some file.data, 0, file.data.length, 0, .Processing, []⟩

/-- The copy of the client is good. -/
def notModified (file : WebFile) (h : FileHandler) : FileHandler :=
  let header := ((HttpAckHeader.make (ascii "304 Not Modified") file.contentType).setField
    (ascii "Cache-Control") (ascii "max-age=60")).setField
      (ascii "Access-Control-Allow-Origin") (ascii "*")
  { h.output (.ack header) with m_hFile := none, m_fileSize := 0, m_status := .Done }

def partialContent (file : WebFile) (h : FileHandler) : FileHandler :=
  let header := (((HttpAckHeader.make (ascii "206 Partial Content")
    file.contentType).setContentLength
    (h.m_headerInfo.m_rangeEnd - h.m_headerInfo.m_range + 1)).setField
      (ascii "Access-Control-Allow-Origin") (ascii "*")).setField (ascii "Content-Range")
        (ascii "bytes " ++ decimal h.m_headerInfo.m_range ++ 45 ::
          decimal h.m_headerInfo.m_rangeEnd ++ 47 :: decimal h.m_fileSize)
  { h.output (.ack header) with
    m_fileOffset := h.m_headerInfo.m_range
    position := h.m_headerInfo.m_range }

def notSatisfiable (file : WebFile) (h : FileHandler) : FileHandler :=
  let header := ((HttpAckHeader.make (ascii "416 Requested Range Not Satisfiable")
    file.contentType).setContentLength h.m_fileSize).setField
      (ascii "Access-Control-Allow-Origin") (ascii "*")
  { h.output (.ack header) with m_hFile := none, m_fileSize := 0 }

def wholeFile (file : WebFile) (h : FileHandler) : FileHandler :=
  let header := HttpAckHeader.make (ascii "200 OK") file.contentType
  let header :=
    if file.ext = ascii ".avi" ∨ file.ext = ascii ".mp4" then
      header.setField (ascii "Content-Disposition") (ascii "attachment")
    else header
  h.output (.ack (((header.setContentLength h.m_fileSize).setField (ascii "Last-Modified")
    file.szLastModifiedTime).setField (ascii "Access-Control-Allow-Origin") (ascii "*")))

def isPartialContent (h : FileHandler) : Bool := h.m_headerInfo.m_range ≠ 0

/-- The end of the range, which is the end of the file if none was given; an empty file has the end
`0 - 1`. -/
def chooseEnd (h : FileHandler) : FileHandler :=
  if h.m_headerInfo.m_rangeEnd = 0 then
    { h with m_headerInfo := ⟨h.m_headerInfo.m_range, (h.m_fileSize + (2 ^ 64 - 1)) % 2 ^ 64⟩ }
  else h

/-- `Start` sends the header and the first piece. -/
def start (info : RangeInfo) (file : WebFile) (free : ℕ) : FileHandler :=
  let h := opened info file
  if file.canUseCache then h.notModified file
  else if h.isPartialContent then
    let h := h.chooseEnd
    if h.m_headerInfo.m_range ≤ h.m_headerInfo.m_rangeEnd then (h.partialContent file).process free
    else (h.notSatisfiable file).process free
  else (h.wholeFile file).process free

/-- The request calls `Process` until the handler is done. -/
def round (h : FileHandler) (free : ℕ) : FileHandler :=
  if h.m_status = .Processing then h.process free else h

/-- The handler after `Start` and some calls of `Process`, with the room there was at each. -/
def serve (info : RangeInfo) (file : WebFile) (free : ℕ) (frees : List ℕ) : FileHandler :=
  frees.foldl round (start info file free)

/-- The bytes of the file that were sent. -/
def sent (h : FileHandler) : Bytes := h.m_outbox.flatMap Output.bytes

end FileHandler
end CoreLooper.Http
