import CoreLooper.ByteBuffer
import CoreLooper.ByteQueue

/-!
# HttpPostHandler

A form arrives in parts between delimiters. The handler looks for the header of a part, then a
field takes the bytes up to the next delimiter, of which it leaves as many in the inbox as may
belong to one. These are the states of `HttpPostHandler::Input` for a form, behind the header of
the request. The inbox ends with a null wherever it is read as a string.
-/
namespace CoreLooper.Http
open CStrings

/-- `CRLF2`. -/
def CRLF2 : Bytes := [13, 10, 13, 10]

/-- `Mid`: the text between the first of one text and the next of another. -/
def mid (sz after before : Bytes) : Bytes :=
  match strstr sz after with
  | none => []
  | some pos =>
      match strstr (sz.drop (pos + after.length)) before with
      | none => []
      | some posEnd => (sz.drop (pos + after.length)).take posEnd

/-- `strncmp` says that the texts are equal. -/
def strncmpEq (a b : Bytes) (n : ℕ) : Bool := (cstr a).take n = (cstr b).take n

inductive EResult where
  | NeedMoreData
  | Finish
  | Error
  deriving DecidableEq, Repr

/-- The box of a field is a `ByteBuffer` of the usual size. -/
structure HttpFormField where
  mFieldName : Bytes := []
  mBoundary : Bytes := []
  mDataReady : Bool := false
  mRangeStart : ℤ := 0
  mDataBox : ByteQueue ByteBuffer.defaultMaxSize := .clear
  deriving DecidableEq

namespace HttpFormField

def initField (boundary fieldName : Bytes) (rangeStart : ℤ) : HttpFormField where
  mFieldName := fieldName
  mBoundary := boundary
  mRangeStart := rangeStart

/-- `Input` of some bytes. -/
def inputData (data : Bytes) (f : HttpFormField) : ℤ × HttpFormField :=
  (if data.length ≤ f.mDataBox.room then 0 else -1, { f with mDataBox := f.mDataBox.write data })

/-- A delimiter stands at a place of the data. -/
def isDelimiter (mBoundary data : Bytes) (i : ℕ) : Bool :=
  data[i]? = some 13 ∧ data[i + 1]? = some 10 ∧ data[i + 2]? = some 45 ∧ data[i + 3]? = some 45 ∧
    (data.drop (i + 4)).take mBoundary.length = mBoundary

/-- `Input` of the inbox: the result, and what is left in the inbox. -/
def input (inbox : Bytes) (f : HttpFormField) : EResult × Bytes × HttpFormField :=
  let dataLen := inbox.length
  if dataLen < 4 + f.mBoundary.length then (.NeedMoreData, inbox, f)
  else
    let nc := dataLen - 4 - f.mBoundary.length
    match (List.range nc).find? (isDelimiter f.mBoundary inbox) with
    | some i =>
        if i > 0 then
          let (ret, f) := f.inputData (inbox.take i)
          if ret ≠ 0 then (.Error, inbox, f) else (.Finish, inbox.drop i, f)
        else (.Finish, inbox, f)
    | none =>
        if nc > 0 then
          let (ret, f) := f.inputData (inbox.take nc)
          if ret ≠ 0 then (.Error, inbox, f) else (.NeedMoreData, inbox.drop nc, f)
        else (.NeedMoreData, inbox, f)

end HttpFormField

inductive PostState where
  | WaitFormDataHeader
  | WaitFormDataBody
  | Done
  deriving DecidableEq, Repr

/-- `mCurrentField` and `mFields` are those of the command handler, which is asked for nothing
more when the state is `Done`. -/
structure HttpPostHandler where
  mState : PostState := .WaitFormDataHeader
  boundary : Bytes := []
  mCurrentField : Option HttpFormField := none
  mFields : List HttpFormField := []
  deriving DecidableEq

namespace HttpPostHandler

def beginField (fieldName : Bytes) (rangeStart : ℤ) (h : HttpPostHandler) : HttpPostHandler :=
  { h with mCurrentField := some (.initField h.boundary fieldName rangeStart) }

def endField (h : HttpPostHandler) : HttpPostHandler :=
  match h.mCurrentField with
  | none => h
  | some f =>
      { h with mFields := h.mFields ++ [{ f with mDataReady := true }], mCurrentField := none }

/-- What a round of the loop does: it returns, or the loop goes on. -/
inductive Round where
  | ret (value : ℤ) (inbox : Bytes) (h : HttpPostHandler)
  | next (inbox : Bytes) (h : HttpPostHandler)
  deriving DecidableEq

def waitFormDataHeader (inbox : Bytes) (h : HttpPostHandler) : Round :=
  let psz := cstr inbox
  match strstr psz CRLF2 with
  | none =>
      let key := ascii "\r\n--" ++ h.boundary ++ ascii "--\r\n"
      if psz.head? = some 13 ∧ strncmpEq psz key key.length then
        .ret 0 (inbox.drop key.length) { h with mState := .Done }
      else .ret 0 inbox h
  | some headerEnd =>
      let header := psz.take headerEnd
      let fieldName := mid header (ascii "name=\"") (ascii "\"")
      let range := mid header (ascii "\r\nrange: ") (ascii "-")
      let rangeStart := max 0 (atoi range)
      .next (inbox.drop (headerEnd + 4))
        { h.beginField fieldName rangeStart with mState := .WaitFormDataBody }

/-- Without a field the command handler asks for more. -/
def waitFormDataBody (inbox : Bytes) (h : HttpPostHandler) : Round :=
  match h.mCurrentField with
  | none => .ret 0 inbox h
  | some f =>
      let (ret, inbox, f) := f.input inbox
      let h := { h with mCurrentField := some f }
      match ret with
      | .Finish => .next inbox { h.endField with mState := .WaitFormDataHeader }
      | .NeedMoreData => .ret 0 inbox h
      | .Error => .ret 400 inbox h

def round (inbox : Bytes) (h : HttpPostHandler) : Round :=
  if inbox = [] then .ret 0 inbox h
  else
    match h.mState with
    | .Done => .ret (-1) inbox h
    | .WaitFormDataHeader => h.waitFormDataHeader inbox
    | .WaitFormDataBody => h.waitFormDataBody inbox

def loop : ℕ → Bytes → HttpPostHandler → Option (ℤ × Bytes × HttpPostHandler)
  | 0, _, _ => none
  | fuel + 1, inbox, h =>
      match h.round inbox with
      | .ret value inbox h => some (value, inbox, h)
      | .next inbox h => loop fuel inbox h

/-- `Input`; a header is never empty, so that there are at most two rounds for each byte. -/
def input (inbox : Bytes) (h : HttpPostHandler) : Option (ℤ × Bytes × HttpPostHandler) :=
  if h.mState = .Done then some (-1, inbox, h) else loop (2 * inbox.length + 2) inbox h

/-- Chunks arrive in the inbox one after another: what `Input` returns for each, and the rest. -/
def inputs : List Bytes → Bytes → HttpPostHandler → Option (List ℤ × Bytes × HttpPostHandler)
  | [], inbox, h => some ([], inbox, h)
  | chunk :: chunks, inbox, h =>
      match h.input (inbox ++ chunk) with
      | none => none
      | some (ret, inbox, h) => (inputs chunks inbox h).map fun r => (ret :: r.1, r.2)

end HttpPostHandler
end CoreLooper.Http
