import CoreLooper.CStrings

/-!
# WebSocketSplitter

A WebSocket frame is a header, which says how long the payload is and how it is masked, and the
payload. The splitter hands the payload on as it comes in; of a header that is not there as a
whole the bytes are kept. Lengths and offsets are natural numbers; memory is too small for them
to wrap around.
-/
namespace CoreLooper.WebSocket
open CStrings

/-- `WebSocketHeader::Type` -/
inductive Opcode where
  | CONTINUATION | TEXT | BINARY | RSV3 | RSV4 | RSV5 | RSV6 | RSV7
  | CLOSE | PING | PONG | CONTROL_RSVB | CONTROL_RSVC | CONTROL_RSVD | CONTROL_RSVE | CONTROL_RSVF
  deriving DecidableEq, Repr

namespace Opcode

def toByte : Opcode → UInt8
  | CONTINUATION => 0 | TEXT => 1 | BINARY => 2 | RSV3 => 3
  | RSV4 => 4 | RSV5 => 5 | RSV6 => 6 | RSV7 => 7
  | CLOSE => 8 | PING => 9 | PONG => 10 | CONTROL_RSVB => 11
  | CONTROL_RSVC => 12 | CONTROL_RSVD => 13 | CONTROL_RSVE => 14 | CONTROL_RSVF => 15

/-- The cast of the low four bits. -/
def ofByte (b : UInt8) : Opcode :=
  if b = 0 then CONTINUATION else if b = 1 then TEXT else if b = 2 then BINARY
  else if b = 3 then RSV3 else if b = 4 then RSV4 else if b = 5 then RSV5
  else if b = 6 then RSV6 else if b = 7 then RSV7 else if b = 8 then CLOSE
  else if b = 9 then PING else if b = 10 then PONG else if b = 11 then CONTROL_RSVB
  else if b = 12 then CONTROL_RSVC else if b = 13 then CONTROL_RSVD
  else if b = 14 then CONTROL_RSVE else CONTROL_RSVF

end Opcode

structure WebSocketHeader where
  fin : Bool
  reserved : UInt8
  opcode : Opcode
  maskFlag : Bool
  playloadLen : ℕ
  mask : Bytes
  deriving DecidableEq, Repr

/-- The callbacks. -/
inductive Event where
  | header (h : WebSocketHeader)
  | playload (h : WebSocketHeader) (data : Bytes) (recved : ℕ)
  | complete (h : WebSocketHeader)
  deriving DecidableEq, Repr

structure WebSocketSplitter where
  header : WebSocketHeader
  remainData : Bytes
  maskOffset : ℕ
  gotHeader : Bool
  playloadOffset : ℕ
  events : List Event
  deriving DecidableEq, Repr

/-- The low `n` bytes of a number, the highest first. -/
def bigEndian : ℕ → ℕ → Bytes
  | 0, _ => []
  | n + 1, x => (x / 256 ^ n).toUInt8 :: bigEndian n x

/-- Each byte with the byte of the mask at its place; `i` is the place of the first. -/
def xorMask (mask : Bytes) : ℕ → Bytes → Bytes
  | _, [] => []
  | i, c :: data => (c ^^^ mask.getD (i % 4) 0) :: xorMask mask (i + 1) data

def flag (b : Bool) : UInt8 := if b then 0x80 else 0

/-- Whether a payload is masked. -/
def WebSocketHeader.masked (header : WebSocketHeader) : Bool :=
  header.maskFlag && decide (4 ≤ header.mask.length)

/-- The length, with the bit that says whether there is a mask. -/
def encodeLength (maskFlag : Bool) (len : ℕ) : Bytes :=
  if len < 126 then [flag maskFlag ||| len.toUInt8]
  else if len ≤ 0xFFFF then (flag maskFlag ||| 126) :: bigEndian 2 len
  else (flag maskFlag ||| 127) :: (bigEndian 4 (len / 2 ^ 32) ++ bigEndian 4 (len % 2 ^ 32))

/-- The first call of `onWebSocketEncodeData`. -/
def encodeHeader (header : WebSocketHeader) (len : ℕ) : Bytes :=
  (flag header.fin ||| (header.reserved &&& 0x07) <<< 4 ||| header.opcode.toByte &&& 0x0F) ::
    (encodeLength header.masked len ++ if header.masked then header.mask.take 4 else [])

/-- The data of all calls of `onWebSocketEncodeData`. -/
def encode (header : WebSocketHeader) (data : Bytes) : Bytes :=
  encodeHeader header data.length ++ if header.masked then xorMask header.mask 0 data else data

/-- A number, the highest byte first. -/
def ofBigEndian (bytes : Bytes) : ℕ := bytes.foldl (fun x c => x * 256 + c.toNat) 0

/-- An extended length of so many bytes. Where a part of a header is missing there is no rest. -/
def readLength (h : WebSocketHeader) (size : ℕ) (ptr : Bytes) : WebSocketHeader × Option Bytes :=
  if ptr.length < size then (h, none)
  else ({ h with playloadLen := ofBigEndian (ptr.take size) }, some (ptr.drop size))

def decodeLength (h : WebSocketHeader) (ptr : Bytes) : WebSocketHeader × Option Bytes :=
  if h.playloadLen = 126 then readLength h 2 ptr
  else if h.playloadLen = 127 then readLength h 8 ptr
  else (h, some ptr)

def decodeMask (h : WebSocketHeader) (ptr : Bytes) : WebSocketHeader × Option Bytes :=
  if h.maskFlag then
    if ptr.length < 4 then (h, none) else ({ h with mask := ptr.take 4 }, some (ptr.drop 4))
  else (h, some ptr)

/-- The header at the start of some data, and what is behind it. -/
def decodeHeader (h : WebSocketHeader) : Bytes → WebSocketHeader × Option Bytes
  | [] => (h, none)
  | [b0] =>
      ({ h with
        fin := b0 &&& 0x80 ≠ 0
        reserved := (b0 &&& 0x70) >>> 4
        opcode := .ofByte (b0 &&& 0x0F) }, none)
  | b0 :: b1 :: ptr =>
      let h := { h with
        fin := b0 &&& 0x80 ≠ 0
        reserved := (b0 &&& 0x70) >>> 4
        opcode := .ofByte (b0 &&& 0x0F)
        maskFlag := b1 &&& 0x80 ≠ 0
        playloadLen := (b1 &&& 0x7F).toNat }
      match decodeLength h ptr with
      | (h, none) => (h, none)
      | (h, some ptr) => decodeMask h ptr

namespace WebSocketSplitter

def emit (s : WebSocketSplitter) (e : Event) : WebSocketSplitter :=
  { s with events := s.events ++ [e] }

/-- What follows a header that is there as a whole. -/
def gotNewHeader (s : WebSocketSplitter) (h : WebSocketHeader) : WebSocketSplitter :=
  let s := { s with header := h, gotHeader := true, maskOffset := 0, playloadOffset := 0 }
  let s := s.emit (.header h)
  if h.playloadLen = 0 then s.emit (.complete h) else s

def onPlayloadData (s : WebSocketSplitter) (data : Bytes) : WebSocketSplitter :=
  if s.header.maskFlag then
    { s with maskOffset := (s.maskOffset + data.length) % 4 }.emit
      (.playload s.header (xorMask s.header.mask s.maskOffset data) s.playloadOffset)
  else s.emit (.playload s.header data s.playloadOffset)

/-- The part behind a header. Where data of the next frame is left, it is decoded next. -/
def playload (s : WebSocketSplitter) (ptr : Bytes) : WebSocketSplitter × Option Bytes :=
  if ptr = [] then ({ s with remainData := [] }, none)
  else
    let sliceLen :=
      if ptr.length + s.playloadOffset > s.header.playloadLen then
        s.header.playloadLen - s.playloadOffset
      else ptr.length
    let s := { s with playloadOffset := s.playloadOffset + sliceLen }.onPlayloadData
      (ptr.take sliceLen)
    if s.playloadOffset = s.header.playloadLen then
      let s := { s.emit (.complete s.header) with gotHeader := false }
      let rest := ptr.drop sliceLen
      if rest ≠ [] then ({ s with remainData := rest }, some rest)
      else ({ s with remainData := [] }, none)
    else ({ s with remainData := [] }, none)

/-- The code from `begin_decode` on. -/
def beginDecode : ℕ → WebSocketSplitter → Bytes → WebSocketSplitter
  | 0, s, _ => s
  | fuel + 1, s, data =>
      match decodeHeader s.header data with
      | (h, none) =>
          { s with
            header := h
            remainData := if s.remainData = [] then data else s.remainData }
      | (h, some ptr) =>
          match (s.gotNewHeader h).playload ptr with
          | (s, none) => s
          | (s, some rest) => beginDecode fuel s rest

def decode (s : WebSocketSplitter) (data : Bytes) : WebSocketSplitter :=
  if s.gotHeader then
    match s.playload data with
    | (s, none) => s
    | (s, some rest) => beginDecode (rest.length + 1) s rest
  else if s.remainData = [] then beginDecode (data.length + 1) s data
  else
    let data := s.remainData ++ data
    beginDecode (data.length + 1) { s with remainData := data } data

/-- A new splitter. Its header is not set. -/
def new (header : WebSocketHeader) : WebSocketSplitter where
  header := header
  remainData := []
  maskOffset := 0
  gotHeader := false
  playloadOffset := 0
  events := []

end WebSocketSplitter
end CoreLooper.WebSocket
