import CoreLooper.CommonTextProtocol

/-!
# The second text protocol

`CommonTextProtocol_Impl2` has no acks, and its three field names are settings. In unreliable
mode its inbox is first eaten up to the text that starts a command.
-/
namespace CoreLooper.CTP

open CStrings

namespace CommonTextProtocol2

/-- The calls on the owner. -/
inductive Event where
  | OnCommand (cmd : Bytes) (inputBundle : Bundle) (inputBody : Bytes)
  | Output (data : Bytes)
  deriving DecidableEq

/-- The calls the owner makes. -/
inductive Call where
  | AddCommand (cmd : Bytes) (bundle : Bundle) (body : Bytes)
  | ResetX
  deriving DecidableEq

end CommonTextProtocol2

abbrev CommonTextProtocolCB2 := List CommonTextProtocol2.Event → List CommonTextProtocol2.Call

structure CommonTextProtocol2 where
  mInbox : ByteQueue bufferLimit := .clear
  mInputBody : ByteQueue bufferLimit := .clear
  mOutbox : ByteQueue bufferLimit := .clear
  mReset : Bool := false
  mSeq : ℤ := -1
  mStringCmd : Bytes := ascii "_cmd"
  mStringSeq : Bytes := ascii "_seq"
  mStringBytes : Bytes := ascii "_bytes"
  mReliableMode : Bool := true
  events : List CommonTextProtocol2.Event := []
  deriving DecidableEq

namespace CommonTextProtocol2

def output (s : CommonTextProtocol2) : CommonTextProtocol2 :=
  { s with events := s.events ++ [.Output s.mOutbox.bytes], mOutbox := .clear }

def addCommand (cmd : Bytes) (bundle : Bundle) (body : Bytes) (s : CommonTextProtocol2) :
    ℤ × CommonTextProtocol2 :=
  let seq := i32 (s.mSeq + 1)
  let s := { s with mSeq := seq }
  if bundle.isKeyExists (cstr s.mStringCmd) ∨ bundle.isKeyExists (cstr s.mStringSeq)
      ∨ bundle.isKeyExists (cstr s.mStringBytes) then (-1, s)
  else
    let ackHeader := commandHeader (cstr s.mStringCmd) (cstr s.mStringSeq) (cstr s.mStringBytes)
      (cstr cmd) seq body.length bundle
    (0, output { s with mOutbox := (s.mOutbox.write ackHeader).write body })

def resetX (s : CommonTextProtocol2) : CommonTextProtocol2 :=
  { s with
    mInbox := .clear, mInputBody := .clear, mOutbox := .clear, mReset := true, mSeq := -1 }

def call (s : CommonTextProtocol2) : Call → CommonTextProtocol2
  | .AddCommand cmd bundle body => (s.addCommand cmd bundle body).2
  | .ResetX => s.resetX

variable (mCB : CommonTextProtocolCB2)

def onCommand (cmd : Bytes) (inputBundle : Bundle) (s : CommonTextProtocol2) :
    CommonTextProtocol2 :=
  if cmd = [] then s
  else
    let events := s.events ++ [.OnCommand cmd inputBundle s.mInputBody.bytes]
    (mCB events).foldl call { s with events := events }

def dispatch (f : Frame) (s : CommonTextProtocol2) : CommonTextProtocol2 :=
  let headerItems := parseHeaderItems f.header
  let s := { s with mInputBody := ByteQueue.clear.write f.body }
  onCommand mCB (headerItems.getString (cstr s.mStringCmd)) headerItems s

/-- The end of `ParseInbox`: after a reset the inbox is emptied whatever was used up. -/
def eatInbox (eat : ℤ) (s : CommonTextProtocol2) : CommonTextProtocol2 :=
  if s.mReset then { s with mInbox := .clear }
  else if eat > 0 then { s with mInbox := s.mInbox.eat eat.toNat }
  else s

def pszKey (s : CommonTextProtocol2) : Bytes := cstr (CRLF ++ s.mStringBytes ++ ascii "=")

/-- How much of the inbox is eaten before its frames are looked for. -/
def skipped (s : CommonTextProtocol2) : ℕ :=
  if s.mReliableMode then 0
  else
    match strstr s.mInbox.bytes (s.mStringCmd ++ ascii "=") with
    | none => 0
    | some i => if i + (s.mStringCmd ++ ascii "=").length < s.mInbox.length then i else 0

/-- The bytes eaten before the loop count in the places of the frames and in `eat`. -/
def parseInbox (fuel : ℕ) (s : CommonTextProtocol2) : Option (Parsed CommonTextProtocol2) :=
  if s.mInbox.length = 0 then some ⟨-1, [], 0, s⟩
  else
    let i := s.skipped
    let s := { s with mInbox := s.mInbox.eat i }
    let dataLen := s.mInbox.length
    match parseLoop s.pszKey (dispatch mCB) s.mInbox.bytes fuel 0 s with
    | none => none
    | some (s, frames, cbLeft) =>
        let eat := dataLen - cbLeft
        some ⟨0, frames.map fun pf => (i + pf.1, pf.2), i + eat, s.eatInbox eat⟩

/-- The loop of `Input`; every round stores at least one byte. -/
def inputLoop (fuel : ℕ) : ℕ → ℤ → Bytes → CommonTextProtocol2 → Option (ℤ × CommonTextProtocol2)
  | 0, eatBytes, _, s => some (eatBytes, s)
  | n + 1, eatBytes, d, s =>
      let maxBytes := bufferLimit - s.mInbox.length - 1
      if d = [] ∨ s.mReset ∨ maxBytes = 0 then some (eatBytes, s)
      else
        match parseInbox mCB fuel { s with mInbox := s.mInbox.write (d.take maxBytes) } with
        | none => none
        | some r =>
            if r.ret ≠ 0 then some (-1, r.state)
            else
              inputLoop fuel n (eatBytes + (d.take maxBytes).length) (d.drop maxBytes) r.state

def input (fuel : ℕ) (data : Bytes) (s : CommonTextProtocol2) : Option (ℤ × CommonTextProtocol2) :=
  inputLoop mCB fuel data.length 0 data { s with mReset := false }

/-- One call of `Input` for each piece of a stream. -/
def inputs (fuel : ℕ) : List Bytes → CommonTextProtocol2 → Option CommonTextProtocol2
  | [], s => some s
  | d :: ds, s =>
      match input mCB fuel d s with
      | none => none
      | some r => inputs fuel ds r.2

end CommonTextProtocol2
end CoreLooper.CTP
