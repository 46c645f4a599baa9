import CoreLooper.CStrings

/-!
# SCTP

A text protocol for serial lines. A frame is a list of lines `name=value`, the last of which has
a checksum of the others, and an empty line. All storage has a fixed size.

A buffer is modelled by its data: new data is always put behind data that was moved to the front,
the cells behind it are zero, and null bytes are replaced as they come in, so that a C string in
the data ends with it. The parser splits a frame by writing nulls into it; each line is read once
before that, and the frame is eaten as a whole. Strings are C strings without their null.
-/
namespace CoreLooper.Sctp
open CStrings

structure KeyValue where
  name : Bytes
  value : Bytes
  deriving DecidableEq, Repr

/-- `mCount` is the number of items. -/
structure TagBundle where
  mItems : List KeyValue
  mTotalCount : UInt8
  deriving DecidableEq, Repr

structure TagByteBuffer where
  data : Bytes
  mTotalBytes : UInt16
  deriving DecidableEq, Repr

/-- What the callbacks are called with. -/
inductive Event where
  | onRecvCommand (cmd : Bytes) (items : List KeyValue)
  | onError (desc : Bytes)
  deriving DecidableEq, Repr

structure TagSCTP where
  mInbox : TagByteBuffer
  mOutbox : TagByteBuffer
  mInboxBundle : TagBundle
  mOutboxBundle : TagBundle
  mSeq : UInt16
  mDisableSeq : Bool
  m485Verbose : Bool
  events : List Event
  deriving DecidableEq, Repr

def CRLF : Bytes := [13, 10]

/-- The end of a frame. -/
def tail : Bytes := [13, 10, 13, 10]

def getString (items : List KeyValue) (name : Bytes) : Bytes :=
  match items.find? (·.name = name) with
  | some item => item.value
  | none => []

namespace TagBundle

def clear (b : TagBundle) : TagBundle := { b with mItems := [] }

def push (b : TagBundle) (name value : Bytes) : ℤ × TagBundle :=
  if b.mItems.length ≥ b.mTotalCount.toNat then (-1, b)
  else (0, { b with mItems := b.mItems ++ [⟨name, value⟩] })

def bundleExists (b : TagBundle) (name : Bytes) : Bool := b.mItems.any (·.name = name)

end TagBundle

namespace TagByteBuffer

/-- One byte is kept for the null. -/
def getFreeBytes (b : TagByteBuffer) : ℕ :=
  if (b.data.length : ℤ) ≥ b.mTotalBytes.toNat - 1 then 0
  else b.mTotalBytes.toNat - b.data.length - 1

/-- `ByteBuffer_Input`, which is also `ByteBuffer_Write`. -/
def input (b : TagByteBuffer) (text : Bytes) : ℕ × TagByteBuffer :=
  let freeBytes := b.getFreeBytes
  if freeBytes = 0 then (0, b)
  else
    let eatBytes := min text.length freeBytes
    (eatBytes, { b with data := b.data ++ text.take eatBytes })

/-- The length of the string is taken as an `unsigned short`. -/
def writeString (b : TagByteBuffer) (text : Bytes) : TagByteBuffer :=
  if text = [] then b else (b.input (text.take (text.length % 2 ^ 16))).2

def eat (b : TagByteBuffer) (bytes : ℕ) : TagByteBuffer :=
  if b.data.length < bytes then b else { b with data := b.data.drop bytes }

def clear (b : TagByteBuffer) : TagByteBuffer := { b with data := [] }

end TagByteBuffer

def crcShift (crc : UInt16) : UInt16 :=
  if crc &&& 1 = 1 then (crc >>> 1) ^^^ 0xA001 else crc >>> 1

def crc16Ex (crc : UInt16) (data : Bytes) : UInt16 :=
  data.foldl (fun crc c => crcShift^[8] (crc ^^^ c.toUInt16)) crc

/-- The checksum of the fields, in their order. -/
def crcOf (items : List KeyValue) : UInt16 :=
  items.foldl (fun crc item =>
    if item.name = [] ∨ item.name = ascii "crc" then crc
    else crc16Ex (crc16Ex crc item.name) item.value) 0xFFFF

def hexDigit (n : ℕ) : UInt8 := if n < 10 then (48 + n).toUInt8 else (55 + n).toUInt8

/-- The text of `%04X`. -/
def hex4 (crc : UInt16) : Bytes :=
  [hexDigit (crc.toNat / 4096 % 16), hexDigit (crc.toNat / 256 % 16),
    hexDigit (crc.toNat / 16 % 16), hexDigit (crc.toNat % 16)]

/-- `SCTP_CheckCrc` without the checksum it hands out. -/
def checkCrc (items : List KeyValue) : Bool :=
  let crcCheck := getString items (ascii "crc")
  crcCheck ≠ [] ∧ (hex4 (crcOf items)).map toLower = crcCheck.map toLower

def isalpha (c : UInt8) : Bool := 65 ≤ c ∧ c ≤ 90 ∨ 97 ≤ c ∧ c ≤ 122

/-- Noise from a shared line goes before the first letter, in verbose mode before `cmd=`; the
search ends after the given number of bytes. -/
def skipNoise (verbose : Bool) : ℕ → Bytes → Bytes
  | 0, body => body
  | _ + 1, [] => []
  | n + 1, c :: body =>
      if !isalpha c || (verbose && !(ascii "cmd=").isPrefixOf (c :: body)) then
        skipNoise verbose n body
      else c :: body

/-- The fields of the lines of a frame. A line without `=` is passed over, and a full table takes no
more items. -/
def pushFields : ℕ → Bytes → TagBundle → TagBundle
  | 0, _, bundle => bundle
  | fuel + 1, body, bundle =>
      if body = [] then bundle
      else
        match strstr body CRLF with
        | none => bundle
        | some lineEnd =>
            let line := body.take lineEnd
            let bundle :=
              match strstr line (ascii "=") with
              | none => bundle
              | some equalSign => (bundle.push (line.take equalSign) (line.drop (equalSign + 1))).2
            pushFields fuel (body.drop (lineEnd + 2)) bundle

namespace TagSCTP

def emit (s : TagSCTP) (e : Event) : TagSCTP := { s with events := s.events ++ [e] }

def clear (s : TagSCTP) : TagSCTP :=
  { s with
    mSeq := 0
    mInbox := s.mInbox.clear
    mOutbox := s.mOutbox.clear
    mInboxBundle := s.mInboxBundle.clear
    mOutboxBundle := s.mOutboxBundle.clear }

/-- The items that the text of a frame, without the last line end, is read as. -/
def readItems (s : TagSCTP) (text : Bytes) : List KeyValue :=
  let body := skipNoise s.m485Verbose (text.length - 2) text
  (pushFields body.length body s.mInboxBundle.clear).mItems

/-- The callback for a frame with these items. -/
def report (items : List KeyValue) : Event :=
  if checkCrc items then .onRecvCommand (getString items (ascii "cmd")) items
  else .onError (ascii "crc error,crcLocalCalc=0x" ++ hex4 (crcOf items))

/-- The loop of `SCTP_Parse`. -/
def parseLoop : ℕ → TagSCTP → TagSCTP
  | 0, s => s
  | fuel + 1, s =>
      if s.mInbox.data = [] then s
      else
        match strstr s.mInbox.data tail with
        | none => s
        | some i =>
            let items := s.readItems (s.mInbox.data.take (i + 2))
            let s := s.emit (report items)
            parseLoop fuel
              { s with mInbox := s.mInbox.eat (i + 4), mInboxBundle := s.mInboxBundle.clear }

def parse (s : TagSCTP) : TagSCTP := parseLoop s.mInbox.data.length s

/-- Null bytes become `$`. -/
def withoutNull (text : Bytes) : Bytes := text.map fun c => if c = 0 then 36 else c

def inputDataImpl (s : TagSCTP) (text : Bytes) : TagSCTP :=
  let written := s.mInbox.input (withoutNull text)
  let s := { s with mInbox := written.2 }
  if written.1 ≠ text.length then (s.emit (.onError (ascii "data/protocol error"))).clear
  else s.parse

/-- The pieces `SCTP_InputData` passes on. -/
def pieces : ℕ → Bytes → List Bytes
  | 0, _ => []
  | fuel + 1, text => if text = [] then [] else text.take 1024 :: pieces fuel (text.drop 1024)

def inputData (s : TagSCTP) (text : Bytes) : TagSCTP :=
  (pieces text.length text).foldl inputDataImpl s

/-- The number goes in unless the program has set one. -/
def pushSeq (s : TagSCTP) : TagSCTP :=
  if s.mDisableSeq = false ∧ s.mOutboxBundle.bundleExists (ascii "seq") = false then
    let mSeq := s.mSeq + 1
    { s with
      mSeq := mSeq
      mOutboxBundle := (s.mOutboxBundle.push (ascii "seq") (decimal mSeq.toNat)).2 }
  else s

def writeItem (b : TagByteBuffer) (item : KeyValue) : TagByteBuffer :=
  if item.name = [] then b
  else (((b.writeString item.name).writeString (ascii "=")).writeString item.value).writeString CRLF

def createOutboxData (s : TagSCTP) : ℤ × TagSCTP :=
  let s := s.pushSeq
  let crc := crcOf s.mOutboxBundle.mItems
  let bundle := (s.mOutboxBundle.push (ascii "crc") (hex4 crc)).2
  let buffer := bundle.mItems.foldl writeItem s.mOutbox.clear
  (0, { s with mOutbox := buffer.writeString CRLF, mOutboxBundle := bundle.clear })

end TagSCTP
end CoreLooper.Sctp
