import CoreLooper.OrderedMap
import CoreLooper.ByteQueue
import CoreLooper.TextSeparator

/-!
# The common text protocol

A frame is a block of `name=value` lines ended by an empty line, then as many bytes as the
`_bytes` line says. This is `CommonTextProtocol_Impl`: the encoder `AddCommandEx`, the parser
of its inbox, and the calls it makes on its owner.

The owner is a function of the calls made on it so far: it answers each call with the calls
it makes in turn and, for a command, with the bundle and the body of the ack. It hands the
bytes of `Output` on and does not call `Input` from inside a call. The text of a string stops
at its first null wherever the source formats it with `%s`.
-/
namespace CoreLooper.CTP

open CStrings

/-- `std::string` compares its bytes as unsigned numbers. -/
def BytesLt (a b : Bytes) : Prop := a.map UInt8.toNat < b.map UInt8.toNat

instance : DecidableRel BytesLt := fun a b =>
  inferInstanceAs (Decidable (a.map UInt8.toNat < b.map UInt8.toNat))

instance : IsStrictTotalOrder Bytes BytesLt where
  trichotomous a b hab hba := by
    have hinj : Function.Injective (List.map UInt8.toNat) :=
      List.map_injective_iff.mpr fun _ _ => UInt8.toNat.inj
    exact hinj (le_antisymm (not_lt.mp hba) (not_lt.mp hab))
  irrefl a := lt_irrefl (a.map UInt8.toNat)
  trans _ _ _ hab hbc := lt_trans (α := List ℕ) hab hbc

abbrev Bundle := OrderedMap Bytes Bytes BytesLt

namespace Bundle

def isKeyExists (b : Bundle) (name : Bytes) : Bool := (b.find name).isSome

def getString (b : Bundle) (name : Bytes) : Bytes := (b.find name).getD []

def getInt (b : Bundle) (name : Bytes) (defaultValue : ℤ) : ℤ :=
  if ¬ b.isKeyExists name then defaultValue
  else if b.getString name = [] then defaultValue
  else atoi (cstr (b.getString name))

end Bundle

def CTP_CMD : Bytes := ascii "_cmd"
def CTP_CMD_SEQ : Bytes := ascii "_seq"
def CTP_CMD_BODY_LENGTH : Bytes := ascii "_bytes"
def CRLF : Bytes := [13, 10]

/-- A `ByteBuffer` takes 16 MB; the inbox keeps one byte of it for a null. -/
def bufferLimit : ℕ := 16 * 1024 * 1024

structure Header where
  headerLength : ℕ
  nContentLength : ℤ
  deriving DecidableEq, Repr

/-- The header at the start of the C string `psz`, and the length of its body. The value of
the length is not cut where its line ends. -/
def findHeader (pszKey psz : Bytes) : Option Header :=
  match strstr psz (CRLF ++ CRLF) with
  | none => none
  | some pszHeaderTail =>
      let nContentLength :=
        match strcasestr psz pszKey with
        | none => 0
        | some pszLength =>
            let szValue := psz.drop (pszLength + pszKey.length)
            if pszLength < pszHeaderTail ∧ (strcasestr szValue CRLF).isSome then atoi szValue
            else 0
      some ⟨pszHeaderTail + 4, nContentLength⟩

/-- A complete frame: the text of the header without its end, and the body. -/
structure Frame where
  headerLength : ℕ
  nContentLength : ℤ
  header : Bytes
  body : Bytes
  deriving DecidableEq, Repr

/-- The frame whose header `h` stands at the start of the memory `m`. -/
def frameOf (h : Header) (m : Bytes) : Frame where
  headerLength := h.headerLength
  nContentLength := h.nContentLength
  header := m.take (h.headerLength - 4)
  body := (m.drop h.headerLength).take h.nContentLength.toNat

/-- The loop of `ParseInbox` at `ps`, with what it does with each frame. It gives the state
reached, the frames with their places, and `cbLeft`. Without a result it runs on, or has left
the buffer at the front. -/
def parseLoop {σ : Type} (pszKey : Bytes) (dispatch : Frame → σ → σ) (data : Bytes) :
    ℕ → ℤ → σ → Option (σ × List (ℤ × Frame) × ℤ)
  | 0, _, _ => none
  | fuel + 1, ps, s =>
      let cbLeft := (data.length : ℤ) - ps
      if cbLeft ≤ 0 then some (s, [], cbLeft)
      else if ps < 0 then none
      else
        let m := data.drop ps.toNat
        match findHeader pszKey (cstr m) with
        | none => some (s, [], cbLeft)
        | some h =>
            let nEat := i32 (h.headerLength + h.nContentLength)
            if cbLeft < nEat then some (s, [], cbLeft)
            else
              let f := frameOf h m
              match parseLoop pszKey dispatch data fuel (ps + nEat) (dispatch f s) with
              | none => none
              | some (s', fs, cbLeft') => some (s', (ps, f) :: fs, cbLeft')

/-- What a call of `ParseInbox` returns, hands out, passes to `Eat` and leaves. -/
structure Parsed (σ : Type) where
  ret : ℤ
  frames : List (ℤ × Frame)
  eat : ℤ
  state : σ

/-- The fields of a header; of two lines for one name the later counts. -/
def parseHeaderItems (header : Bytes) : Bundle :=
  (TextSeparator.items header CRLF).foldl
    (fun bundle item =>
      if item = [] then bundle
      else match strstr item (ascii "=") with
        | none => bundle.insert item []
        | some pos => bundle.insert (item.take pos) (item.drop (pos + 1)))
    .empty

/-- The calls on the owner. -/
inductive Event where
  | OnCommand (cmd : Bytes) (inputBundle : Bundle) (inputBody : Bytes)
  | OnCommandAck (cmd : Bytes) (reqBundle ackBundle : Bundle) (ackBody : Bytes)
  | OnNotify (cmd : Bytes) (bundle : Bundle) (body : Bytes)
  | Output (data : Bytes)
  deriving DecidableEq

/-- The calls the owner makes. `AddCommand` and `AddNotify` are `AddCommandEx` with and without
`needAck`. -/
inductive Call where
  | AddCommandEx (cmd : Bytes) (bundle : Bundle) (body : Bytes) (needAck : Bool)
  | ResetX
  deriving DecidableEq

structure Reaction where
  calls : List Call := []
  ackBundle : Bundle := .empty
  ackBody : Bytes := []

abbrev CommonTextProtocolCB := List Event → Reaction

/-- `events` are the calls made on the owner so far. -/
structure CommonTextProtocol where
  mInbox : ByteQueue bufferLimit := .clear
  mInputBody : ByteQueue bufferLimit := .clear
  mOutbox : ByteQueue bufferLimit := .clear
  mReset : Bool := false
  mSeq : ℤ := -1
  mWaitAckItems : OrderedMap ℤ Bundle (· < ·) := .empty
  events : List Event := []
  deriving DecidableEq

/-- `%s=%s\r\n` for every field, in the order of the map. -/
def fieldLines (items : List (Bytes × Bytes)) : Bytes :=
  items.flatMap fun item => cstr item.1 ++ ascii "=" ++ cstr item.2 ++ CRLF

/-- The header of a command with the given names of the three fields of the protocol. -/
def commandHeader (mStringCmd mStringSeq mStringBytes cmd : Bytes) (seq : ℤ) (bodyBytes : ℕ)
    (bundle : Bundle) : Bytes :=
  mStringCmd ++ ascii "=" ++ cmd ++ CRLF
    ++ mStringSeq ++ ascii "=" ++ decimal seq ++ CRLF
    ++ (if bodyBytes > 0 then mStringBytes ++ ascii "=" ++ decimal bodyBytes ++ CRLF else [])
    ++ fieldLines bundle.items
    ++ CRLF

namespace CommonTextProtocol

/-- `mCB->Output`, and the outbox is empty. -/
def output (s : CommonTextProtocol) : CommonTextProtocol :=
  { s with events := s.events ++ [.Output s.mOutbox.bytes], mOutbox := .clear }

/-- A command that wants an ack is kept under its number; more than a hundred are forgotten
together. -/
def waitAck (seq : ℤ) (bundle : Bundle) (needAck : Bool) (s : CommonTextProtocol) :
    CommonTextProtocol :=
  if ¬ s.mReset ∧ needAck then
    let mWaitAckItems := s.mWaitAckItems.insert seq bundle
    { s with mWaitAckItems := if mWaitAckItems.size > 100 then .empty else mWaitAckItems }
  else s

def isReserved (bundle : Bundle) : Bool :=
  bundle.isKeyExists CTP_CMD || bundle.isKeyExists CTP_CMD_SEQ
    || bundle.isKeyExists CTP_CMD_BODY_LENGTH

/-- The header `AddCommandEx` writes for the number `seq`. -/
def addCommandHeader (cmd : Bytes) (seq : ℤ) (bundle : Bundle) (body : Bytes) (needAck : Bool) :
    Bytes :=
  let cmdExt := if needAck then [] else ascii ".noAck"
  commandHeader CTP_CMD CTP_CMD_SEQ CTP_CMD_BODY_LENGTH (cstr cmd ++ cmdExt) seq body.length bundle

def addCommandEx (cmd : Bytes) (bundle : Bundle) (body : Bytes) (needAck : Bool)
    (s : CommonTextProtocol) : ℤ × CommonTextProtocol :=
  let seq := i32 (s.mSeq + 1)
  let s := { s with mSeq := seq }
  if isReserved bundle then (-1, s)
  else
    let ackHeader := addCommandHeader cmd seq bundle body needAck
    let s := { s with mOutbox := (s.mOutbox.write ackHeader).write body }
    (0, output (s.waitAck seq bundle needAck))

def resetX (s : CommonTextProtocol) : CommonTextProtocol :=
  { s with
    mInbox := .clear, mInputBody := .clear, mOutbox := .clear
    mReset := true, mSeq := -1, mWaitAckItems := .empty }

def call (s : CommonTextProtocol) : Call → CommonTextProtocol
  | .AddCommandEx cmd bundle body needAck => (s.addCommandEx cmd bundle body needAck).2
  | .ResetX => s.resetX

variable (mCB : CommonTextProtocolCB)

/-- A call on the owner, and the calls it makes before it returns. -/
def callback (e : Event) (s : CommonTextProtocol) : Reaction × CommonTextProtocol :=
  let reaction := mCB (s.events ++ [e])
  (reaction, reaction.calls.foldl call { s with events := s.events ++ [e] })

def onCommandAck (cmd : Bytes) (ackBundle : Bundle) (s : CommonTextProtocol) :
    CommonTextProtocol :=
  let seq := ackBundle.getInt CTP_CMD_SEQ (-1)
  match s.mWaitAckItems.find seq with
  | some reqBundle =>
      let s := { s with mWaitAckItems := s.mWaitAckItems.erase seq }
      (callback mCB (.OnCommandAck cmd reqBundle ackBundle s.mInputBody.bytes) s).2
  | none => (callback mCB (.OnCommandAck cmd .empty ackBundle s.mInputBody.bytes) s).2

/-- The header of the ack. Its number is the field `seq` of the command; the fields whose name
starts with a dot go back unchanged. -/
def ackHeader (cmd : Bytes) (inputBundle ackBundle : Bundle) (bytes : ℕ) : Bytes :=
  let seq := inputBundle.getString (ascii "seq")
  CTP_CMD ++ ascii "=" ++ cstr cmd ++ ascii ".Ack" ++ CRLF
    ++ (if seq ≠ [] then CTP_CMD_SEQ ++ ascii "=" ++ cstr seq ++ CRLF else [])
    ++ (if bytes ≠ 0 then CTP_CMD_BODY_LENGTH ++ ascii "=" ++ decimal bytes ++ CRLF else [])
    ++ fieldLines (inputBundle.items.filter fun item => (cstr item.1).head? = some 46)
    ++ fieldLines ackBundle.items
    ++ CRLF

def onCommand (cmd : Bytes) (inputBundle : Bundle) (s : CommonTextProtocol) :
    CommonTextProtocol :=
  if cmd = [] then s
  else
    let (reaction, s) := callback mCB (.OnCommand cmd inputBundle s.mInputBody.bytes) s
    let header := ackHeader cmd inputBundle reaction.ackBundle reaction.ackBody.length
    output { s with mOutbox := (s.mOutbox.write header).write reaction.ackBody }

/-- What `ParseInbox` does with a frame. -/
def dispatch (f : Frame) (s : CommonTextProtocol) : CommonTextProtocol :=
  let headerItems := parseHeaderItems f.header
  let s := { s with mInputBody := ByteQueue.clear.write f.body }
  let item := headerItems.getString CTP_CMD
  match strstr item (ascii ".Ack") with
  | some pos => onCommandAck mCB (item.take pos) headerItems s
  | none =>
      match strstr item (ascii ".noAck") with
      | some pos =>
          (callback mCB (.OnNotify (item.take pos) headerItems s.mInputBody.bytes) s).2
      | none => onCommand mCB item headerItems s

/-- The end of `ParseInbox`: after a reset the inbox is emptied whatever was used up. -/
def eatInbox (eat : ℤ) (s : CommonTextProtocol) : CommonTextProtocol :=
  if s.mReset then { s with mInbox := .clear }
  else if eat > 0 then { s with mInbox := s.mInbox.eat eat.toNat }
  else s

def pszKey : Bytes := CRLF ++ CTP_CMD_BODY_LENGTH ++ ascii "="

def parseInbox (fuel : ℕ) (s : CommonTextProtocol) : Option (Parsed CommonTextProtocol) :=
  if s.mInbox.length = 0 then some ⟨-1, [], 0, s⟩
  else
    let dataLen := s.mInbox.length
    match parseLoop pszKey (dispatch mCB) s.mInbox.bytes fuel 0 s with
    | none => none
    | some (s, frames, cbLeft) =>
        let eat := dataLen - cbLeft
        some ⟨0, frames, eat, s.eatInbox eat⟩

/-- What a call of `Input` returns, and the frames taken meanwhile. -/
structure Received where
  ret : ℤ
  frames : List Frame
  state : CommonTextProtocol

/-- The loop of `Input`; every round stores at least one byte. -/
def inputLoop (fuel : ℕ) : ℕ → ℤ → Bytes → CommonTextProtocol → Option Received
  | 0, eatBytes, _, s => some ⟨eatBytes, [], s⟩
  | n + 1, eatBytes, d, s =>
      let maxBytes := bufferLimit - s.mInbox.length - 1
      if d = [] ∨ s.mReset ∨ maxBytes = 0 then some ⟨eatBytes, [], s⟩
      else
        match parseInbox mCB fuel { s with mInbox := s.mInbox.write (d.take maxBytes) } with
        | none => none
        | some r =>
            if r.ret ≠ 0 then some ⟨-1, r.frames.map Prod.snd, r.state⟩
            else
              match inputLoop fuel n (eatBytes + (d.take maxBytes).length) (d.drop maxBytes)
                  r.state with
              | none => none
              | some r' => some { r' with frames := r.frames.map Prod.snd ++ r'.frames }

def input (fuel : ℕ) (data : Bytes) (s : CommonTextProtocol) : Option Received :=
  inputLoop mCB fuel data.length 0 data { s with mReset := false }

/-- One call of `Input` for each piece of a stream. -/
def inputs (fuel : ℕ) : List Bytes → CommonTextProtocol → Option (List Frame × CommonTextProtocol)
  | [], s => some ([], s)
  | d :: ds, s =>
      match input mCB fuel d s with
      | none => none
      | some r =>
          match inputs fuel ds r.state with
          | none => none
          | some (fs, s') => some (r.frames ++ fs, s')

end CommonTextProtocol
end CoreLooper.CTP
