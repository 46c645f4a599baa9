import CoreLooper.CStrings
import CoreLooper.MemoryBlocks

/-!
# ByteBuffer

A buffer of bytes in one block that grows up to a limit. Its data is a run of cells of the block;
bytes are appended behind it and eaten off both ends. A call that leaves the block or asks for
one of negative size has no result. `int` arithmetic on what a caller passes wraps.
-/
namespace CoreLooper
open CStrings MemoryBlocks

structure ByteBuffer where
  m_pBuf : Option Bytes := none
  m_cbBuf : ℤ := 0
  m_cbMaxBuf : ℤ := 0
  m_nDataOff : ℤ := 0
  m_nData : ℤ := 0
  deriving DecidableEq, Repr

namespace ByteBuffer

/-- The default of `SetBufferSize`. -/
def defaultMaxSize : ℕ := 16 * 1024 * 1024

/-- The cells behind `m_pBuf`; a null pointer has none. -/
def block (s : ByteBuffer) : Bytes := s.m_pBuf.getD []

/-- `GetDataPointer` and `GetActualDataLength`. -/
def content (s : ByteBuffer) : Option Bytes := load s.block s.m_nDataOff s.m_nData

def setBufferSize (junk : ℕ → UInt8) (nInitSize nMaxSize : ℕ) (s : ByteBuffer) :
    Option (ℤ × ByteBuffer) :=
  if s.m_pBuf.isSome then some (-1, s)
  else do
    let nMaxSize := if nInitSize > nMaxSize then nInitSize else nMaxSize
    let pBuf ← alloc junk nInitSize
    return (0, ⟨pBuf, i32 nInitSize, i32 nMaxSize, 0, 0⟩)

/-- What writes do first: a buffer without a block gets one. -/
def ensureBuf (junk : ℕ → UInt8) (s : ByteBuffer) : Option ByteBuffer :=
  if s.m_pBuf = none then (s.setBufferSize junk 32 defaultMaxSize).map Prod.snd else some s

/-- The size of a block for that many bytes, in steps and up to the limit. -/
def newsize (bytes : ℤ) (s : ByteBuffer) : ℤ :=
  let stepsize := 1024 * 8
  let newsize := i32 ((i32 (bytes + stepsize - 1)).tdiv stepsize * stepsize)
  if newsize > s.m_cbMaxBuf then s.m_cbMaxBuf else newsize

/-- A new block takes the place of the old one, with the data at its start. -/
def reallocate (junk : ℕ → UInt8) (newsize : ℤ) (s : ByteBuffer) : Option ByteBuffer := do
  let pBuf ← alloc junk newsize
  let data ← load s.block s.m_nDataOff s.m_nData
  let pBuf ← store pBuf 0 data
  return { s with m_pBuf := some pBuf, m_cbBuf := newsize, m_nDataOff := 0 }

/-- The part of `Write` that makes room: how many bytes can be written, and the larger block. -/
def grow (junk : ℕ → UInt8) (cbData : ℤ) (s : ByteBuffer) : Option (ℤ × ByteBuffer) :=
  if i32 (s.m_nData + cbData) > s.m_cbBuf then
    let cbData :=
      if i32 (s.m_nData + cbData) > s.m_cbMaxBuf then i32 (s.m_cbMaxBuf - s.m_nData) else cbData
    (s.reallocate junk (s.newsize (s.m_nData + cbData))).map (cbData, ·)
  else some (cbData, s)

/-- The data moves to the start of the block. -/
def moveData (s : ByteBuffer) : Option ByteBuffer := do
  let data ← load s.block s.m_nDataOff s.m_nData
  let pBuf ← store s.block 0 data
  return { s with m_pBuf := some pBuf, m_nDataOff := 0 }

/-- The bytes go to the cells behind the data. -/
def place (pData : Bytes) (cbData : ℤ) (s : ByteBuffer) : Option (ℤ × ByteBuffer) := do
  let data ← load pData 0 cbData
  let pBuf ← store s.block (s.m_nDataOff + s.m_nData) data
  return (cbData, { s with m_pBuf := some pBuf, m_nData := s.m_nData + cbData })

/-- The end of `Write`. -/
def append (pData : Bytes) (cbData : ℤ) (s : ByteBuffer) : Option (ℤ × ByteBuffer) :=
  let left := s.m_cbBuf - (s.m_nDataOff + s.m_nData)
  if left < cbData then s.moveData.bind (place pData cbData) else s.place pData cbData

def write (junk : ℕ → UInt8) (pData : Option Bytes) (dataLen : ℤ) (s : ByteBuffer) :
    Option (ℤ × ByteBuffer) :=
  match pData with
  | none => some (0, s)
  | some pData =>
      if dataLen ≤ 0 then some (0, s)
      else do
        let s ← s.ensureBuf junk
        let (cbData, s) ← s.grow junk dataLen
        s.append pData cbData

def eat (cbEat : ℤ) (s : ByteBuffer) : Option (ℤ × ByteBuffer) :=
  if cbEat > s.m_nData then some (-1, s)
  else
    let s := { s with m_nDataOff := s.m_nDataOff + cbEat, m_nData := s.m_nData - cbEat }
    if s.m_nData = 0 then do
      let pBuf ← store s.block 0 [0]
      return (0, { s with m_pBuf := some pBuf, m_nDataOff := 0 })
    else some (0, s)

def writeByte (junk : ℕ → UInt8) (data : UInt8) (s : ByteBuffer) : Option (ℤ × ByteBuffer) := do
  let s ← s.ensureBuf junk
  if s.m_nDataOff + s.m_nData < s.m_cbBuf then
    let pBuf ← store s.block (s.m_nDataOff + s.m_nData) [data]
    return (1, { s with m_pBuf := some pBuf, m_nData := s.m_nData + 1 })
  else s.write junk (some [data]) 1

def reverseEat (cbEat : ℤ) (s : ByteBuffer) : ℤ × ByteBuffer :=
  if cbEat < 0 then (-1, s)
  else if s.m_nData ≥ cbEat then
    let s := { s with m_nData := s.m_nData - cbEat }
    (0, if s.m_nData = 0 then { s with m_nDataOff := 0 } else s)
  else (-1, s)

def moveToHead (s : ByteBuffer) : Option ByteBuffer :=
  if s.m_pBuf ≠ none ∧ s.m_nDataOff > 0 then
    if s.m_nData > 0 then s.moveData else some { s with m_nDataOff := 0 }
  else some s

/-- The last byte of the data, if there is one. -/
def lastByte (s : ByteBuffer) : Option Bytes :=
  if s.m_nData > 0 then load s.block (s.m_nDataOff + s.m_nData - 1) 1 else some []

def makeSureEndWithNull (junk : ℕ → UInt8) (s : ByteBuffer) : Option (ℤ × ByteBuffer) :=
  if s.m_pBuf = none then some (0, s)
  else do
    let last ← s.lastByte
    if last = [0] then some (0, s)
    else do
      let (ret, s) ← s.writeByte junk 0
      if ret ≠ 1 then some (-1, s) else some (0, (s.reverseEat 1).2)

/-- The last byte of the data, or the one behind it, is NUL. -/
def EndsWithNull (s : ByteBuffer) : Prop :=
  load s.block (s.m_nDataOff + s.m_nData - 1) 1 = some [0] ∨
    load s.block (s.m_nDataOff + s.m_nData) 1 = some [0]

instance : DecidablePred EndsWithNull := fun s => by
  unfold EndsWithNull
  infer_instance

def clear (s : ByteBuffer) : ByteBuffer := { s with m_nDataOff := 0, m_nData := 0 }

def emptyEx (_ : ByteBuffer) : ByteBuffer := {}

def getFreeSize (s : ByteBuffer) : ℤ :=
  if s.m_cbBuf ≥ s.m_nData then s.m_cbBuf - s.m_nData else 0

/-- The `memset` of `PrepareBuf`. -/
def fillZero (minSize : ℕ) (s : ByteBuffer) : Option ByteBuffer :=
  (store s.block s.m_nDataOff (List.replicate minSize 0)).map fun pBuf =>
    { s with m_pBuf := some pBuf }

/-- `PrepareBuf` after `clear`: too small a block is given up, and the limit with it. -/
def makeRoom (junk : ℕ → UInt8) (minSize : UInt32) (s : ByteBuffer) : Option (ℤ × ByteBuffer) :=
  if s.getFreeSize < i32 minSize.toNat then
    s.emptyEx.setBufferSize junk minSize.toNat defaultMaxSize
  else some (0, s)

def prepareBuf (junk : ℕ → UInt8) (minSize : UInt32) (zero : Bool) (s : ByteBuffer) :
    Option (ℤ × ByteBuffer) := do
  let (ret, s) ← s.clear.makeRoom junk minSize
  if ret = 0 ∧ minSize > 0 ∧ zero then (s.fillZero minSize.toNat).map (ret, ·)
  else some (ret, s)

def getTailFreeSize (s : ByteBuffer) : ℤ :=
  if s.m_cbBuf ≥ s.m_nDataOff + s.m_nData then s.m_cbBuf - s.m_nDataOff - s.m_nData else 0

/-- A caller puts bytes at `GetNewDataPointer`, as far as they fit. -/
def fillTail (data : Bytes) (s : ByteBuffer) : Option ByteBuffer :=
  if s.m_pBuf = none then some s
  else do
    let pBuf ← store s.block (s.m_nDataOff + s.m_nData) (data.take s.getTailFreeSize.toNat)
    return { s with m_pBuf := some pBuf }

def writeDirect (nInc : ℤ) (s : ByteBuffer) : ℤ × ByteBuffer :=
  if i32 (s.m_nDataOff + s.m_nData + nInc) ≤ s.m_cbBuf then
    (0, { s with m_nData := i32 (s.m_nData + nInc) })
  else (-1, s)

/-- The calls on a buffer. `writeDirect` comes with the bytes its caller has put there. -/
inductive Call where
  | write (pData : Option Bytes) (dataLen : ℤ)
  | writeByte (data : UInt8)
  | eat (cbEat : ℤ)
  | reverseEat (cbEat : ℤ)
  | moveToHead
  | makeSureEndWithNull
  | prepareBuf (minSize : UInt32) (zero : Bool)
  | clear
  | writeDirect (data : Bytes) (nInc : ℤ)
  deriving DecidableEq, Repr

/-- A call with its result; functions that return nothing count as returning 0. -/
def perform (junk : ℕ → UInt8) (s : ByteBuffer) : Call → Option (ℤ × ByteBuffer)
  | .write pData dataLen => s.write junk pData dataLen
  | .writeByte data => s.writeByte junk data
  | .eat cbEat => s.eat cbEat
  | .reverseEat cbEat => some (s.reverseEat cbEat)
  | .moveToHead => s.moveToHead.map (0, ·)
  | .makeSureEndWithNull => s.makeSureEndWithNull junk
  | .prepareBuf minSize zero => s.prepareBuf junk minSize zero
  | .clear => some (0, s.clear)
  | .writeDirect data nInc => (s.fillTail data).map (writeDirect nInc)

end ByteBuffer
end CoreLooper
