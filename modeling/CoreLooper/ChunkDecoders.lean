import CoreLooper.ByteBufferLines
import CoreLooper.HttpResponse
import CoreLooper.IniFile

/-!
# The decoders of chunked responses

Three classes take the body out of a response that has been received as a whole: `HttpChunkParser`,
`HttpAckParser` and `HttpAcker` with its `HttpChunker`. A string is its bytes with a null behind
them; a decoder that reads past that null has no result.
-/
namespace CoreLooper.Http
open CStrings

/-- The digits at the start of a text, with `0x` before them or without. -/
def hexText (s : Bytes) : Bytes × ℕ :=
  match s with
  | 48 :: x :: c :: t =>
      if (x = 120 ∨ x = 88) ∧ (hexValue c).isSome then
        ((c :: t).takeWhile fun c => (hexValue c).isSome, 2)
      else (s.takeWhile fun c => (hexValue c).isSome, 0)
  | _ => (s.takeWhile fun c => (hexValue c).isSome, 0)

/-- `strtol` with base 16, and where `end` points. -/
def strtolHex (s : Bytes) : ℤ × ℕ :=
  let skipped := s.dropWhile isspace
  let sign := skipped.head?.filter fun c => c = 43 ∨ c = 45
  let rest := skipped.drop sign.toList.length
  let (digits, before) := hexText rest
  if digits = [] then (0, 0)
  else
    (if sign = some 45 then max (-(hexNumber digits : ℤ)) (-2 ^ 63)
      else min (hexNumber digits : ℤ) (2 ^ 63 - 1),
      s.length - rest.length + before + digits.length)

/-- The text read at that place of a string, up to the next null. -/
def readAt (s : Bytes) (pos : ℕ) : Bytes := cstr (s.drop pos)

/-- `string(p, n)` at that place of a string. -/
def copyAt (s : Bytes) (pos n : ℕ) : Option Bytes :=
  if pos + n ≤ s.length + 1 then some (((s ++ [0]).drop pos).take n) else none

/-- The place of the chunks in a response that says it has some, if the key is not behind it. -/
def chunkedStart (text : Bytes) : Option (ℕ × Bool) :=
  (strstr text CRLF2).map fun pos =>
    (pos + CRLF2.length, match strstr text (ascii "Transfer-Encoding: chunked") with
      | none => false
      | some posChunked => posChunked ≤ pos)

def HttpChunkParser.parse (junk : ℕ → UInt8) (httpAck : Bytes) (box : ByteBuffer) :
    Option (ℤ × ByteBuffer) := do
  let (_, box) ← box.makeSureEndWithNull junk
  match chunkedStart httpAck with
  | none => return (-1, box)
  | some (_, false) => return (-1, box)
  | some (pos, true) =>
      let (bytes, end_) := strtolHex (readAt httpAck pos)
      if bytes ≤ 0 then return (-1, box)
      else
        let body := (httpAck ++ [0]).drop (pos + end_ + 2)
        let (_, box) ← box.write junk (some body) (i32 bytes)
        let (_, box) ← box.makeSureEndWithNull junk
        return (0, box)

structure TagHttpAckInfo where
  mAckCode : ℤ := 0
  mBody : Bytes := []
  deriving DecidableEq, Repr

/-- The first of the two spellings of the key that is found anywhere, and where its number is. -/
def lengthAt (ack : Bytes) : Option ℕ :=
  match strstr ack (ascii "Content-Length: ") with
  | some pos => some (pos + (ascii "Content-Length: ").length)
  | none => (strstr ack (ascii "Content-Length:")).map (· + (ascii "Content-Length:").length)

/-- `(char*)box.data()`. -/
def ByteBuffer.text (box : ByteBuffer) : Option Bytes :=
  let memory := box.block.drop box.m_nDataOff.toNat
  if 0 ∈ memory then some (cstr memory) else none

/-- A space that is not found counts as one before the text. -/
def ackCode (sz : Bytes) : ℤ :=
  match strstr sz [32] with
  | none => atoi (readAt sz 0)
  | some 0 => 0
  | some pos => atoi (readAt sz (pos + 1))

def HttpAckParser.parse (junk : ℕ → UInt8) (sz : Bytes) : Option TagHttpAckInfo :=
  let code := ackCode sz
  match lengthAt sz with
  | none =>
      match chunkedStart sz with
      | none => some ⟨code, []⟩
      | some (pos, false) => some ⟨code, readAt sz pos⟩
      | some (pos, true) =>
          let (bytes, end_) := strtolHex (readAt sz pos)
          if bytes ≤ 0 then some ⟨code, []⟩
          else (copyAt sz (pos + end_ + 2) bytes.toNat).map (⟨code, ·⟩)
  | some pos =>
      let bytes := atoi (readAt sz pos)
      if bytes ≤ 0 then some ⟨code, []⟩
      else
        match strstr sz CRLF2 with
        | none => some ⟨code, []⟩
        | some pos => do
            let (_, box) ← ({} : ByteBuffer).write junk (some ((sz ++ [0]).drop (pos + 4))) bytes
            let (_, box) ← box.makeSureEndWithNull junk
            let body ← ByteBuffer.text box
            return ⟨code, body⟩

/-- The loop of `HttpChunker::Input`, at the place `sz` of the text. -/
def chunkerLoop (text : Bytes) : ℕ → ℕ → Bytes → Option Bytes
  | 0, _, _ => none
  | fuel + 1, sz, ack =>
      if sz > text.length then none
      else
        match strstr (readAt text sz) [13, 10] with
        | none => some ack
        | some pos =>
            let lineEnd := sz + pos + 2
            let bytes := (strtolHex (readAt text sz)).1
            if bytes ≤ 0 then some ack
            else if lineEnd + bytes.toNat > text.length then some ack
            else
              chunkerLoop text fuel (lineEnd + bytes.toNat + 2)
                (ack ++ (text.drop lineEnd).take bytes.toNat)

/-- Every turn goes two places on at least. -/
def HttpChunker.input (text : Bytes) : Option Bytes := chunkerLoop text (text.length + 1) 0 []

structure HttpAcker where
  mHttpVersion : Bytes := []
  mHttpAckCode : ℤ := 0
  mFields : NameValue := .empty
  mBody : Bytes := []

namespace HttpAcker

/-- A line with a colon. Names and values lose the spaces around them. -/
def addField (fields : NameValue) (line : Bytes) : NameValue :=
  match cutAt 58 line with
  | (name, some value) =>
      Function.update fields (Ini.trim name 32) (some (Ini.trim value 32))
  | (_, none) => fields

/-- The loop over the lines of the header, from the place `off` to the empty line. -/
def fieldsLoop (ack : Bytes) (headerTail : ℕ) : ℕ → ℕ → NameValue → NameValue
  | 0, _, fields => fields
  | fuel + 1, off, fields =>
      if off < headerTail then
        match strstr (ack.drop off) [13, 10] with
        | none => fields
        | some len =>
            if off + len > headerTail then fields
            else
              fieldsLoop ack headerTail fuel (off + len + 2)
                (addField fields ((ack.drop off).take len))
      else fields

/-- Whether the fields announce chunks. -/
def announcesChunks (fields : NameValue) : Bool :=
  match fields (ascii "Transfer-Encoding") <|> fields (ascii "transfer-encoding") with
  | none => false
  | some value => (strstr value (ascii "chunked")).isSome

/-- The part of `Parse` behind the header. -/
def parseBody (ack : Bytes) (headerTail : ℕ) (obj : HttpAcker) : Option (ℤ × HttpAcker) :=
  let start := headerTail + 4
  let bytes := ((obj.mFields (ascii "Content-Length")).map fun v => strtol (cstr v)).getD 0
  if bytes > 0 ∧ ack.length < start + bytes then some (-1, obj)
  else
    let obj := if bytes > 0 then { obj with mBody := (ack.drop start).take bytes.toNat } else obj
    if announcesChunks obj.mFields then
      (HttpChunker.input (readAt ack start)).map fun body => (0, { obj with mBody := body })
    else some (0, obj)

/-- Without an empty line there are no fields, and so no body. -/
def parse (ack : Bytes) (onlyHeader : Bool) : Option (ℤ × HttpAcker) :=
  match strstr ack [13, 10] with
  | none => some (-1, {})
  | some posFirstLine =>
      match strstr ack [32] with
      | none => some (-1, {})
      | some pos =>
          if pos < posFirstLine then
            let obj : HttpAcker :=
              { mHttpVersion := ack.take pos, mHttpAckCode := atoi (readAt ack (pos + 1)) }
            match strstr (ack.drop (posFirstLine + 2)) CRLF2 with
            | none => some (0, obj)
            | some off =>
                let headerTail := posFirstLine + 2 + off
                let obj := { obj with
                  mFields := fieldsLoop ack headerTail ack.length (posFirstLine + 2) .empty }
                if onlyHeader then some (0, obj) else parseBody ack headerTail obj
          else some (-1, {})

end HttpAcker
end CoreLooper.Http
