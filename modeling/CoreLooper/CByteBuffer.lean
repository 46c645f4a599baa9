import CoreLooper.ByteQueue
import CoreLooper.MemoryBlocks

/-!
# The byte buffer of the C protocols

Data in a block of fixed size: it stands from `mOffset` on, and one cell is kept for the null
behind it. Sizes are `unsigned short`. A call that leaves the block has no result.
-/
namespace CoreLooper.CByteBuffer

open CStrings MemoryBlocks

structure TagByteBuffer where
  mBuf : Bytes
  mOffset : ℕ
  mBytes : ℕ
  mTotalBytes : ℕ
  deriving DecidableEq, Repr

/-- Conversion to `unsigned short`. -/
def u16 (x : ℤ) : ℕ := (x % 2 ^ 16).toNat

namespace TagByteBuffer

def init (totalBytes : UInt16) : TagByteBuffer :=
  ⟨List.replicate totalBytes.toNat 0, 0, 0, totalBytes.toNat⟩

/-- `memset`, `memmove` and `memcpy` into the block. -/
def put (s : TagByteBuffer) (off : ℤ) (data : Bytes) : Option TagByteBuffer :=
  (store s.mBuf off data).map fun mBuf => { s with mBuf := mBuf }

def getFreeBytes (s : TagByteBuffer) : ℕ :=
  if (s.mBytes : ℤ) ≥ s.mTotalBytes - 1 then 0 else u16 (s.mTotalBytes - s.mBytes - 1)

def moveToHead (s : TagByteBuffer) : Option TagByteBuffer :=
  if s.mOffset ≠ 0 ∧ s.mBytes ≠ 0 then do
    let data ← load s.mBuf s.mOffset s.mBytes
    let s ← s.put 0 data
    let s := { s with mOffset := 0 }
    s.put s.mBytes [0]
  else some { s with mOffset := 0 }

def input (s : TagByteBuffer) (text : Bytes) (bytes : UInt16) : Option (ℕ × TagByteBuffer) :=
  let freeBytes := s.getFreeBytes
  if freeBytes = 0 then some (0, s)
  else do
    let s ← s.moveToHead
    let eatBytes := min bytes.toNat freeBytes
    let data ← load text 0 eatBytes
    let s ← s.put s.mBytes data
    let s := { s with mBytes := u16 (s.mBytes + eatBytes) }
    let s ← if s.mBytes < s.mTotalBytes then
        s.put s.mBytes (List.replicate (s.mTotalBytes - s.mBytes) 0)
      else some s
    return (eatBytes, s)

def write (s : TagByteBuffer) (text : Bytes) (bytes : UInt16) : Option (ℕ × TagByteBuffer) :=
  s.input text bytes

def writeByte (s : TagByteBuffer) (text : UInt8) : Option (ℕ × TagByteBuffer) := s.input [text] 1

def writeString (s : TagByteBuffer) (text : Bytes) : Option (ℕ × TagByteBuffer) :=
  let text := cstr text
  if text ≠ [] then s.input text (u16 text.length).toUInt16 else some (0, s)

def reverseEat (s : TagByteBuffer) (bytes : UInt16) : Option (ℕ × TagByteBuffer) :=
  if s.mBytes < bytes.toNat then some (0, s)
  else do
    let s := { s with mBytes := u16 (s.mBytes - bytes.toNat) }
    let s := if s.mBytes = 0 then { s with mOffset := 0 } else s
    let s ← s.put (s.mOffset + s.mBytes) [0]
    return (bytes.toNat, s)

def eat (s : TagByteBuffer) (bytes : UInt16) : Option (ℕ × TagByteBuffer) :=
  if s.mBytes < bytes.toNat then some (0, s)
  else do
    let s := { s with
      mOffset := u16 (s.mOffset + bytes.toNat)
      mBytes := u16 (s.mBytes - bytes.toNat) }
    let s ← if s.mBytes = 0 then TagByteBuffer.put { s with mOffset := 0 } 0 [0] else some s
    return (bytes.toNat, s)

def clear (s : TagByteBuffer) : Option TagByteBuffer :=
  { s with mOffset := 0, mBytes := 0 }.put 0 [0]

end TagByteBuffer

/-- The calls on a buffer. -/
inductive Call where
  | write (text : Bytes) (bytes : UInt16)
  | writeByte (text : UInt8)
  | writeString (text : Bytes)
  | eat (bytes : UInt16)
  | reverseEat (bytes : UInt16)
  | clear
  | moveToHead
  deriving DecidableEq, Repr

/-- A call with its result; functions that return nothing count as returning 0. -/
def perform (s : TagByteBuffer) : Call → Option (ℕ × TagByteBuffer)
  | .write text bytes => s.write text bytes
  | .writeByte text => s.writeByte text
  | .writeString text => s.writeString text
  | .eat bytes => s.eat bytes
  | .reverseEat bytes => s.reverseEat bytes
  | .clear => s.clear.map (0, ·)
  | .moveToHead => s.moveToHead.map (0, ·)

/-- The calls in turn, and what each returned. -/
def run (s : TagByteBuffer) : List Call → Option (List ℕ × TagByteBuffer)
  | [] => some ([], s)
  | c :: calls => do
      let (ret, s) ← perform s c
      let (rets, s) ← run s calls
      return (ret :: rets, s)

/-- What a call means on a queue, and what it returns. -/
def answer {limit : ℕ} (q : ByteQueue limit) : Call → ℕ × ByteQueue limit
  | .write text bytes => (min bytes.toNat q.room, q.write (text.take bytes.toNat))
  | .writeByte text => (min 1 q.room, q.write [text])
  | .writeString text => (min (cstr text).length q.room, q.write (cstr text))
  | .eat bytes => if bytes.toNat ≤ q.length then (bytes.toNat, q.eat bytes.toNat) else (0, q)
  | .reverseEat bytes =>
      if bytes.toNat ≤ q.length then (bytes.toNat, q.eatBack bytes.toNat) else (0, q)
  | .clear => (0, .clear)
  | .moveToHead => (0, q)

def answers {limit : ℕ} (q : ByteQueue limit) : List Call → List ℕ × ByteQueue limit
  | [] => ([], q)
  | c :: calls => ((answer q c).1 :: (answers (answer q c).2 calls).1,
      (answers (answer q c).2 calls).2)

/-- A caller has as many bytes as it says, and a string's length is an `unsigned short`. -/
def Call.Ok : Call → Prop
  | .write text bytes => bytes.toNat ≤ text.length
  | .writeString text => (cstr text).length < 2 ^ 16
  | _ => True

/-- The buffer has the bytes of the queue inside its block, and a null behind them. -/
structure Refines {limit : ℕ} (s : TagByteBuffer) (q : ByteQueue limit) : Prop where
  data : load s.mBuf s.mOffset s.mBytes = some q.bytes
  null : load s.mBuf (s.mOffset + s.mBytes) 1 = some [0]
  inside : s.mOffset + s.mBytes < s.mTotalBytes
  block : s.mBuf.length = s.mTotalBytes
  total : s.mTotalBytes = limit + 1

/-- The cells of a block that has the data, in the order in which they stand. -/
structure Holds (limit : ℕ) (s : TagByteBuffer) (front data tail : Bytes) : Prop where
  mBuf : s.mBuf = front ++ (data ++ 0 :: tail)
  mOffset : s.mOffset = front.length
  mBytes : s.mBytes = data.length
  mTotalBytes : s.mTotalBytes = limit + 1
  fits : front.length + data.length + tail.length = limit
  small : limit + 1 < 2 ^ 16
  empty : data = [] → front = []

variable {limit : ℕ} {s : TagByteBuffer} {front data tail : Bytes} {q : ByteQueue limit}

theorem u16_of_lt {n : ℕ} {x : ℤ} (hx : x = n) (h : n < 2 ^ 16) : u16 x = n := by
  subst hx
  unfold u16
  omega

theorem Holds.refines (h : Holds limit s front q.bytes tail) : Refines s q := by
  constructor
  case data =>
    rw [h.mBuf]
    exact load_front front q.bytes _ (by rw [h.mOffset]) (by rw [h.mBytes])
  case null =>
    have hcells : s.mBuf = (front ++ q.bytes) ++ ([0] ++ tail) := by
      rw [h.mBuf, List.append_assoc]
      rfl
    rw [hcells]
    apply load_front
    · rw [h.mOffset, h.mBytes, List.length_append]
      push_cast
      rfl
    · rfl
  case inside =>
    have := h.fits
    rw [h.mOffset, h.mBytes, h.mTotalBytes]
    omega
  case block =>
    have := h.fits
    rw [h.mBuf, h.mTotalBytes]
    simp only [List.length_append, List.length_cons]
    omega
  case total => exact h.mTotalBytes

theorem put_eq {a r : Bytes} {off : ℤ} (hbuf : s.mBuf = a ++ r) (hoff : off = a.length)
    (hfits : data.length ≤ r.length) :
    s.put off data = some { s with mBuf := a ++ (data ++ r.drop data.length) } := by
  rw [TagByteBuffer.put, hbuf, store_front a data hoff hfits]
  rfl

theorem Holds.moveToHead (h : Holds limit s front data tail) :
    ∃ s' tail', s.moveToHead = some s' ∧ Holds limit s' [] data tail' := by
  have hfits := h.fits
  unfold TagByteBuffer.moveToHead
  split_ifs with hmove
  · have hload : load s.mBuf s.mOffset s.mBytes = some data := by
      rw [h.mBuf]
      exact load_front front data _ (by rw [h.mOffset]) (by rw [h.mBytes])
    -- the data covers the first cells, and the null comes behind it
    set cells := (front ++ (data ++ 0 :: tail)).drop data.length with hcells
    have hlength : cells.length = front.length + 1 + tail.length := by
      rw [hcells]
      simp only [List.length_drop, List.length_append, List.length_cons]
      omega
    have hput : s.put 0 data = some { s with mBuf := data ++ cells } :=
      put_eq (a := []) h.mBuf rfl (by simp only [List.length_append]; omega)
    rw [hload]
    dsimp only [Option.bind_eq_bind, Option.bind_some]
    rw [hput]
    dsimp only [Option.bind_some]
    rw [put_eq (a := data) (r := cells) rfl (by rw [h.mBytes])
      (by rw [hlength, List.length_singleton]; omega)]
    refine ⟨_, cells.drop 1, rfl, rfl, rfl, h.mBytes, h.mTotalBytes, ?_, h.small, fun _ => rfl⟩
    rw [List.length_drop, hlength, List.length_nil]
    omega
  · have hfront : front = [] := by
      by_cases hdata : data = []
      · exact h.empty hdata
      · rw [not_and_or, not_not, not_not, h.mOffset, h.mBytes] at hmove
        cases hmove with
        | inl hmove => exact List.length_eq_zero_iff.mp hmove
        | inr hmove => exact absurd (List.length_eq_zero_iff.mp hmove) hdata
    subst hfront
    exact ⟨_, tail, rfl, h.mBuf, rfl, h.mBytes, h.mTotalBytes, h.fits, h.small, h.empty⟩

theorem Holds.getFreeBytes (h : Holds limit s front data tail) :
    s.getFreeBytes = limit - data.length := by
  have hfits := h.fits
  have hsmall := h.small
  unfold TagByteBuffer.getFreeBytes
  rw [h.mBytes, h.mTotalBytes]
  push_cast
  split_ifs with hfull
  · omega
  · exact u16_of_lt (by omega) (by omega)

/-- What fits of the text is put behind the data. -/
theorem Holds.input (h : Holds limit s front data tail) {text : Bytes} {bytes : UInt16}
    (htext : bytes.toNat ≤ text.length) :
    ∃ s' front' tail', s.input text bytes = some (min bytes.toNat (limit - data.length), s') ∧
      Holds limit s' front' (data ++ (text.take bytes.toNat).take (limit - data.length)) tail' := by
  have hfits := h.fits
  have hsmall := h.small
  unfold TagByteBuffer.input
  rw [h.getFreeBytes]
  dsimp only
  split_ifs with hfull
  · refine ⟨s, front, tail, ?_, ?_⟩
    · rw [hfull, Nat.min_zero]
    · rw [hfull, List.take_zero, List.append_nil]
      exact h
  · obtain ⟨s₁, tail₁, hmove, h₁⟩ := h.moveToHead
    have hfits₁ := h₁.fits
    rw [List.length_nil] at hfits₁
    set n := min bytes.toNat (limit - data.length) with hn
    have hload : load text 0 n = some (text.take n) := by
      rw [load, if_pos (by omega)]
      simp
    have htake : (text.take bytes.toNat).take (limit - data.length) = text.take n := by
      rw [List.take_take, hn, Nat.min_comm]
    have hlength : (text.take n).length = n := by
      rw [List.length_take]
      omega
    have hbuf : s₁.mBuf = data ++ 0 :: tail₁ := h₁.mBuf
    rw [hmove]
    dsimp only [Option.bind_eq_bind, Option.bind_some]
    rw [hload]
    dsimp only [Option.bind_some]
    rw [put_eq hbuf (by rw [h₁.mBytes]) (by simp only [hlength, List.length_cons]; omega)]
    dsimp only [Option.bind_some]
    have hbytes : u16 ((s₁.mBytes : ℤ) + n) = data.length + n :=
      u16_of_lt (by rw [h₁.mBytes]; push_cast; rfl) (by omega)
    have hroom : data.length + n < s₁.mTotalBytes := by
      rw [h₁.mTotalBytes]
      omega
    rw [hbytes, if_pos hroom]
    -- the cells behind the data are cleared
    set cells := (0 :: tail₁).drop (text.take n).length with hcells
    have hcells_length : cells.length = s₁.mTotalBytes - (data.length + n) := by
      rw [hcells, hlength, List.length_drop, List.length_cons, h₁.mTotalBytes]
      omega
    rw [put_eq (a := data ++ text.take n) (r := cells) (by rw [List.append_assoc])
      (by rw [List.length_append, hlength]) (by rw [List.length_replicate, hcells_length])]
    obtain ⟨k, hk⟩ := Nat.exists_eq_add_of_lt hroom
    have hzeros : s₁.mTotalBytes - (data.length + n) = k + 1 := by omega
    refine ⟨_, [], List.replicate k 0, rfl, ?_, ?_, ?_, h₁.mTotalBytes, ?_, h.small, fun _ => rfl⟩
    · rw [htake, List.length_replicate, hzeros, ← hzeros, ← hcells_length, List.drop_length,
        hcells_length, hzeros, List.replicate_succ, List.append_nil, List.nil_append]
    · exact h₁.mOffset
    · rw [htake, List.length_append, hlength]
    · rw [htake, List.length_append, hlength, List.length_replicate, List.length_nil]
      have := h₁.mTotalBytes
      omega

theorem Holds.clear (h : Holds limit s front data tail) :
    ∃ s' tail', s.clear = some s' ∧ Holds limit s' [] [] tail' := by
  have hfits := h.fits
  set cells := (front ++ (data ++ 0 :: tail)).drop 1 with hcells
  have hlength : cells.length = limit := by
    rw [hcells]
    simp only [List.length_drop, List.length_append, List.length_cons]
    omega
  have hput : TagByteBuffer.put { s with mOffset := 0, mBytes := 0 } 0 [0] =
      some { s with mOffset := 0, mBytes := 0, mBuf := 0 :: cells } :=
    put_eq (a := []) h.mBuf rfl
      (by simp only [List.length_append, List.length_cons, List.length_nil]; omega)
  exact ⟨_, cells, hput, rfl, rfl, rfl, h.mTotalBytes, by simpa using hlength, h.small,
    fun _ => rfl⟩

theorem Holds.eat (h : Holds limit s front data tail) {bytes : UInt16}
    (hbytes : bytes.toNat ≤ data.length) :
    ∃ s' front' tail', s.eat bytes = some (bytes.toNat, s') ∧
      Holds limit s' front' (data.drop bytes.toNat) tail' := by
  have hfits := h.fits
  have hsmall := h.small
  have hoffset : u16 ((s.mOffset : ℤ) + bytes.toNat) = front.length + bytes.toNat :=
    u16_of_lt (by rw [h.mOffset]; push_cast; rfl) (by omega)
  have hrest : u16 ((s.mBytes : ℤ) - bytes.toNat) = data.length - bytes.toNat :=
    u16_of_lt (by rw [h.mBytes]; omega) (by omega)
  unfold TagByteBuffer.eat
  rw [if_neg (by rw [h.mBytes]; omega), hoffset, hrest]
  dsimp only
  by_cases hall : data.length - bytes.toNat = 0
  · obtain ⟨s', tail', hclear, h'⟩ := h.clear
    have hdrop : data.drop bytes.toNat = [] := List.drop_eq_nil_of_le (by omega)
    rw [if_pos hall, hdrop]
    rw [TagByteBuffer.clear] at hclear
    refine ⟨s', [], tail', ?_, h'⟩
    rw [hall, hclear]
    rfl
  · rw [if_neg hall]
    refine ⟨_, front ++ data.take bytes.toNat, tail, rfl, ?_, ?_, ?_, h.mTotalBytes, ?_, h.small,
      ?_⟩
    · rw [h.mBuf, List.append_assoc, ← List.append_assoc (data.take _), List.take_append_drop]
    · rw [List.length_append, List.length_take, Nat.min_eq_left hbytes]
    · rw [List.length_drop]
    · rw [List.length_append, List.length_take, List.length_drop]
      omega
    · intro hnil
      have := congrArg List.length hnil
      rw [List.length_drop, List.length_nil] at this
      omega

theorem Holds.reverseEat (h : Holds limit s front data tail) {bytes : UInt16}
    (hbytes : bytes.toNat ≤ data.length) :
    ∃ s' front' tail', s.reverseEat bytes = some (bytes.toNat, s') ∧
      Holds limit s' front' (data.take (data.length - bytes.toNat)) tail' := by
  have hfits := h.fits
  have hsmall := h.small
  have hrest : u16 ((s.mBytes : ℤ) - bytes.toNat) = data.length - bytes.toNat :=
    u16_of_lt (by rw [h.mBytes]; omega) (by omega)
  unfold TagByteBuffer.reverseEat
  rw [if_neg (by rw [h.mBytes]; omega), hrest]
  dsimp only
  by_cases hall : data.length - bytes.toNat = 0
  · obtain ⟨s', tail', hclear, h'⟩ := h.clear
    rw [if_pos hall, hall, List.take_zero]
    rw [TagByteBuffer.clear] at hclear
    refine ⟨s', [], tail', ?_, h'⟩
    dsimp only
    rw [Nat.cast_zero, Int.zero_add, hclear]
    rfl
  · rw [if_neg hall]
    set n := data.length - bytes.toNat with hn
    have hbuf : s.mBuf = (front ++ data.take n) ++ (data.drop n ++ 0 :: tail) := by
      rw [h.mBuf, List.append_assoc, ← List.append_assoc (data.take _), List.take_append_drop]
    have hput : TagByteBuffer.put { s with mBytes := n } ((s.mOffset : ℤ) + n) [0] = some
        { s with
          mBytes := n
          mBuf := (front ++ data.take n) ++ ([0] ++ (data.drop n ++ 0 :: tail).drop 1) } :=
      put_eq hbuf (by rw [h.mOffset, List.length_append, List.length_take]; omega)
        (by simp only [List.length_append, List.length_cons, List.length_nil]; omega)
    dsimp only
    rw [hput]
    refine ⟨_, front, (data.drop n ++ 0 :: tail).drop 1, rfl, ?_, h.mOffset, ?_, h.mTotalBytes, ?_,
      h.small, ?_⟩
    · rw [List.append_assoc]
      rfl
    · rw [List.length_take]
      dsimp only
      omega
    · simp only [List.length_take, List.length_drop, List.length_append, List.length_cons]
      omega
    · intro hnil
      have := congrArg List.length hnil
      rw [List.length_take, List.length_nil] at this
      omega

/-- Every call does to the data what it does to the queue. -/
theorem Holds.perform (h : Holds limit s front q.bytes tail) {c : Call} (hc : c.Ok) :
    ∃ s' front' tail', perform s c = some ((answer q c).1, s') ∧
      Holds limit s' front' (answer q c).2.bytes tail' := by
  have hfits := h.fits
  cases c with
  | write text bytes => exact h.input hc
  | writeByte text =>
      have hone : (1 : UInt16).toNat ≤ [text].length := le_refl _
      exact h.input hone
  | writeString text₀ =>
      show ∃ s' front' tail', s.writeString text₀ =
        some (min (cstr text₀).length q.room, s') ∧
          Holds limit s' front' (q.write (cstr text₀)).bytes tail'
      rw [TagByteBuffer.writeString]
      obtain ⟨text, htake⟩ : ∃ text, cstr text₀ = text := ⟨_, rfl⟩
      rw [htake]
      have hlength : (u16 text.length).toUInt16.toNat = text.length := by
        rw [u16_of_lt rfl (htake ▸ hc)]
        exact Nat.mod_eq_of_lt (htake ▸ hc)
      by_cases htext : text = []
      · subst htext
        refine ⟨s, front, tail, ?_, ?_⟩
        · show some (0, s) = some (min 0 _, s)
          rw [Nat.zero_min]
        · show Holds limit s front (q.bytes ++ List.take _ []) tail
          rw [List.take_nil, List.append_nil]
          exact h
      · have hinput := @Holds.input _ _ _ _ _ h text (u16 text.length).toUInt16 (by rw [hlength])
        rw [hlength, List.take_length] at hinput
        rw [if_pos htext]
        exact hinput
  | eat bytes =>
      show ∃ s' front' tail', s.eat bytes = _ ∧ _
      rw [answer, ByteQueue.length_eq]
      split_ifs with hbytes
      · exact h.eat hbytes
      · refine ⟨s, front, tail, ?_, h⟩
        rw [TagByteBuffer.eat, if_pos (by rw [h.mBytes]; omega)]
  | reverseEat bytes =>
      show ∃ s' front' tail', s.reverseEat bytes = _ ∧ _
      rw [answer, ByteQueue.length_eq]
      split_ifs with hbytes
      · exact h.reverseEat hbytes
      · refine ⟨s, front, tail, ?_, h⟩
        rw [TagByteBuffer.reverseEat, if_pos (by rw [h.mBytes]; omega)]
  | clear =>
      obtain ⟨s', tail', hclear, h'⟩ := h.clear
      refine ⟨s', [], tail', ?_, h'⟩
      show s.clear.map _ = _
      rw [hclear]
      rfl
  | moveToHead =>
      obtain ⟨s', tail', hmove, h'⟩ := h.moveToHead
      refine ⟨s', [], tail', ?_, h'⟩
      show s.moveToHead.map _ = _
      rw [hmove]
      rfl

theorem Holds.run (h : Holds limit s front q.bytes tail) {calls : List Call}
    (hcalls : ∀ c ∈ calls, c.Ok) :
    ∃ s' front' tail', run s calls = some ((answers q calls).1, s') ∧
      Holds limit s' front' (answers q calls).2.bytes tail' := by
  induction calls generalizing s front tail q with
  | nil => exact ⟨s, front, tail, rfl, h⟩
  | cons c calls ih =>
      obtain ⟨s₁, front₁, tail₁, hperform, h₁⟩ := h.perform (hcalls c List.mem_cons_self)
      obtain ⟨s', front', tail', hrun, h'⟩ :=
        ih h₁ fun c' hc' => hcalls c' (List.mem_cons_of_mem c hc')
      refine ⟨s', front', tail', ?_, h'⟩
      rw [CByteBuffer.run, hperform]
      dsimp only [Option.bind_eq_bind, Option.bind_some]
      rw [hrun]
      rfl

theorem init_holds {totalBytes : UInt16} (htotal : 1 ≤ totalBytes.toNat) :
    Holds (totalBytes.toNat - 1) (TagByteBuffer.init totalBytes) [] []
      (List.replicate (totalBytes.toNat - 1) 0) := by
  have hlt := totalBytes.toNat_lt
  refine ⟨?_, rfl, rfl, ?_, ?_, by omega, fun _ => rfl⟩
  · obtain ⟨n, hn⟩ := Nat.exists_eq_add_of_le' htotal
    rw [TagByteBuffer.init, hn, Nat.add_sub_cancel]
    rfl
  · show totalBytes.toNat = _
    omega
  · simp

/-- Every sequence of calls on a buffer does, and returns, what it does on a queue of one byte
less than the block has. -/
theorem calls_refine {totalBytes : UInt16} (htotal : 1 ≤ totalBytes.toNat) {calls : List Call}
    (hcalls : ∀ c ∈ calls, c.Ok) :
    ∃ s, run (.init totalBytes) calls =
        some ((answers (.clear : ByteQueue (totalBytes.toNat - 1)) calls).1, s) ∧
      Refines s (answers (.clear : ByteQueue (totalBytes.toNat - 1)) calls).2 := by
  obtain ⟨s, front, tail, hrun, h⟩ :=
    Holds.run (q := (.clear : ByteQueue (totalBytes.toNat - 1))) (init_holds htotal) hcalls
  exact ⟨s, hrun, h.refines⟩

/-- A block of four cells: the third byte fills it, a fourth is refused, and room comes back at
the front. -/
theorem calls_refine_full :
    ∃ s, run (.init 4) [.write [97, 98] 2, .writeString [99, 100], .eat 1, .writeByte 101,
        .reverseEat 4] = some ([2, 1, 1, 1, 0], s) ∧ load s.mBuf s.mOffset s.mBytes =
      some [98, 99, 101] := by
  obtain ⟨s, hrun, h⟩ := @calls_refine 4 (by decide)
    [.write [97, 98] 2, .writeString [99, 100], .eat 1, .writeByte 101, .reverseEat 4]
    (by simp [Call.Ok, cstr])
  exact ⟨s, hrun, h.data⟩

end CoreLooper.CByteBuffer
