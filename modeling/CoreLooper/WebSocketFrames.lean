import CoreLooper.WebSocketSplitter

/-!
# Frames through the splitter

The header of a frame is read back from its bytes, and a part of it is not taken for a header.
What the splitter has done after some bytes of a sequence of frames depends on these bytes only,
apart from the pieces in which it handed the payload on.
-/
namespace CoreLooper.WebSocket
open CStrings

structure Frame where
  header : WebSocketHeader
  data : Bytes
  deriving DecidableEq, Repr

section
variable {mask data x : Bytes} {n i : ℕ}

theorem bigEndian_length (n x : ℕ) : (bigEndian n x).length = n := by
  induction n with
  | zero => rfl
  | succ n ih => rw [bigEndian, List.length_cons, ih]

theorem ofBigEndian_cons (c : UInt8) (x : Bytes) :
    ofBigEndian (c :: x) = c.toNat * 256 ^ x.length + ofBigEndian x := by
  have hfold : ∀ (x : Bytes) (a : ℕ), x.foldl (fun x c => x * 256 + c.toNat) a =
      a * 256 ^ x.length + ofBigEndian x := by
    intro x
    induction x with
    | nil => intro a; simp [ofBigEndian]
    | cons c x ih =>
        intro a
        rw [ofBigEndian, List.foldl_cons, List.foldl_cons, ih, ih, List.length_cons, Nat.pow_succ]
        ring
  rw [ofBigEndian, List.foldl_cons, hfold]
  simp

theorem ofBigEndian_append (x y : Bytes) :
    ofBigEndian (x ++ y) = ofBigEndian x * 256 ^ y.length + ofBigEndian y := by
  induction x with
  | nil => simp [ofBigEndian]
  | cons c x ih =>
      rw [List.cons_append, ofBigEndian_cons, ofBigEndian_cons, ih, List.length_append, Nat.pow_add]
      ring

/-- A number is read back from its bytes. -/
theorem ofBigEndian_bigEndian (n x : ℕ) : ofBigEndian (bigEndian n x) = x % 256 ^ n := by
  induction n with
  | zero => simp [bigEndian, ofBigEndian, Nat.mod_one]
  | succ n ih =>
      have hbyte : (x / 256 ^ n).toUInt8.toNat = x / 256 ^ n % 256 := UInt8.toNat_ofNat'
      rw [bigEndian, ofBigEndian_cons, ih, bigEndian_length, hbyte, Nat.pow_succ,
        Nat.mod_mul]
      ring

theorem xorMask_length (mask : Bytes) (i : ℕ) (data : Bytes) :
    (xorMask mask i data).length = data.length := by
  induction data generalizing i with
  | nil => rfl
  | cons c data ih => rw [xorMask, List.length_cons, List.length_cons, ih]

/-- The mask takes itself off. -/
theorem xorMask_twice (mask : Bytes) (i : ℕ) (data : Bytes) :
    xorMask mask i (xorMask mask i data) = data := by
  induction data generalizing i with
  | nil => rfl
  | cons c data ih =>
      rw [xorMask, xorMask, ih, UInt8.xor_assoc, UInt8.xor_self, UInt8.xor_zero]

/-- Only the place in the mask counts, and only its first four bytes. -/
theorem xorMask_mod {i j : ℕ} (hij : j % 4 = i % 4) (mask data : Bytes) :
    xorMask (mask.take 4) j data = xorMask mask i data := by
  induction data generalizing i j with
  | nil => rfl
  | cons c data ih =>
      have hget : (mask.take 4).getD (j % 4) 0 = mask.getD (i % 4) 0 := by
        rw [hij, List.getD_eq_getElem?_getD, List.getD_eq_getElem?_getD,
          List.getElem?_take_of_lt (Nat.mod_lt i (by decide))]
      have hnext : (j + 1) % 4 = (i + 1) % 4 := by omega
      rw [xorMask, xorMask, hget, ih hnext]

end

theorem first_byte (fin : Bool) (opcode : Opcode) : ∀ r < 8,
    decide ((flag fin ||| (UInt8.ofNat r &&& 7) <<< 4 ||| opcode.toByte &&& 15) &&& 0x80 ≠ 0) =
        fin ∧
      ((flag fin ||| (UInt8.ofNat r &&& 7) <<< 4 ||| opcode.toByte &&& 15) &&& 0x70) >>> 4 =
        UInt8.ofNat r ∧
      Opcode.ofByte ((flag fin ||| (UInt8.ofNat r &&& 7) <<< 4 ||| opcode.toByte &&& 15) &&& 15) =
        opcode := by
  cases fin <;> cases opcode <;> decide

theorem second_byte (maskFlag : Bool) : ∀ n < 128,
    decide ((flag maskFlag ||| n.toUInt8) &&& 0x80 ≠ 0) = maskFlag ∧
      ((flag maskFlag ||| n.toUInt8) &&& 0x7F).toNat = n := by
  cases maskFlag <;> decide

/-- The seven bits of a length. -/
def lenCode (len : ℕ) : ℕ := if len < 126 then len else if len ≤ 0xFFFF then 126 else 127

/-- The bytes of an extended length. -/
def extended (len : ℕ) : Bytes :=
  if len < 126 then []
  else if len ≤ 0xFFFF then bigEndian 2 len
  else bigEndian 4 (len / 2 ^ 32) ++ bigEndian 4 (len % 2 ^ 32)

theorem encodeLength_eq (maskFlag : Bool) (len : ℕ) :
    encodeLength maskFlag len = (flag maskFlag ||| (lenCode len).toUInt8) :: extended len := by
  unfold encodeLength lenCode extended
  split_ifs <;> rfl

theorem lenCode_lt (len : ℕ) : lenCode len < 128 := by
  unfold lenCode
  split_ifs <;> omega

/-- The mask bytes of a header. -/
def maskBytes (header : WebSocketHeader) : Bytes :=
  if header.masked then header.mask.take 4 else []

section
variable {h : WebSocketHeader} {f : Frame} {len : ℕ} {ptr x : Bytes}

theorem maskBytes_length (header : WebSocketHeader) :
    (maskBytes header).length = if header.masked then 4 else 0 := by
  unfold maskBytes
  split_ifs with hm
  · simp only [WebSocketHeader.masked, Bool.and_eq_true, decide_eq_true_eq] at hm
    rw [List.length_take]
    omega
  · rfl

theorem decodeLength_whole (hcode : h.playloadLen = lenCode len) (hlen : len < 2 ^ 64)
    (x : Bytes) : decodeLength h (extended len ++ x) = ({ h with playloadLen := len }, some x) := by
  unfold lenCode at hcode
  unfold decodeLength extended
  split_ifs at hcode with h7 h16
  · have h126 : h.playloadLen ≠ 126 := by omega
    have h127 : h.playloadLen ≠ 127 := by omega
    rw [if_pos h7, if_neg h126, if_neg h127, ← hcode]
    rfl
  · have htwo : (bigEndian 2 len).length = 2 := bigEndian_length 2 len
    have hvalue : ofBigEndian (bigEndian 2 len) = len := by
      rw [ofBigEndian_bigEndian]
      exact Nat.mod_eq_of_lt (by omega)
    have hlong : ¬ (bigEndian 2 len ++ x).length < 2 := by
      rw [List.length_append]
      omega
    rw [if_neg h7, if_pos h16, if_pos hcode, readLength, if_neg hlong, List.take_left' htwo,
      List.drop_left' htwo, hvalue]
  · have height : (bigEndian 4 (len / 2 ^ 32) ++ bigEndian 4 (len % 2 ^ 32)).length = 8 := by
      rw [List.length_append, bigEndian_length, bigEndian_length]
    have hvalue : ofBigEndian (bigEndian 4 (len / 2 ^ 32) ++ bigEndian 4 (len % 2 ^ 32)) = len := by
      rw [ofBigEndian_append, ofBigEndian_bigEndian, ofBigEndian_bigEndian, bigEndian_length]
      omega
    have hlong : ¬ (bigEndian 4 (len / 2 ^ 32) ++ bigEndian 4 (len % 2 ^ 32) ++ x).length < 8 := by
      rw [List.length_append]
      omega
    have h126 : h.playloadLen ≠ 126 := by omega
    rw [if_neg h7, if_neg h16, if_neg h126, if_pos hcode, readLength, if_neg hlong,
      List.take_left' height, List.drop_left' height, hvalue]

theorem decodeLength_part (hcode : h.playloadLen = lenCode len)
    (hpart : ptr.length < (extended len).length) : decodeLength h ptr = (h, none) := by
  unfold lenCode at hcode
  unfold extended at hpart
  unfold decodeLength
  split_ifs at hcode hpart with h7 h16
  · cases hpart
  · rw [bigEndian_length] at hpart
    rw [if_pos hcode, readLength, if_pos hpart]
  · rw [List.length_append, bigEndian_length, bigEndian_length] at hpart
    have h126 : h.playloadLen ≠ 126 := by omega
    rw [if_neg h126, if_pos hcode, readLength, if_pos hpart]

/-- What a frame's header is read as. An unmasked frame leaves the mask of the last one. -/
structure Frame.IsHeader (f : Frame) (h : WebSocketHeader) : Prop where
  fin : h.fin = f.header.fin
  reserved : h.reserved = f.header.reserved &&& 7
  opcode : h.opcode = f.header.opcode
  maskFlag : h.maskFlag = f.header.masked
  len : h.playloadLen = f.data.length
  mask : f.header.masked = true → h.mask = f.header.mask.take 4

def Frame.head (f : Frame) : Bytes := encodeHeader f.header f.data.length

theorem Frame.head_eq (f : Frame) : f.head =
    (flag f.header.fin ||| (f.header.reserved &&& 7) <<< 4 ||| f.header.opcode.toByte &&& 15) ::
      (flag f.header.masked ||| (lenCode f.data.length).toUInt8) ::
        (extended f.data.length ++ maskBytes f.header) := by
  rw [Frame.head, encodeHeader, encodeLength_eq, maskBytes]
  rfl

/-- The bits of the first two bytes. -/
def Frame.start (f : Frame) (h : WebSocketHeader) : WebSocketHeader :=
  { h with
    fin := f.header.fin
    reserved := f.header.reserved &&& 7
    opcode := f.header.opcode
    maskFlag := f.header.masked
    playloadLen := lenCode f.data.length }

theorem decodeHeader_start (f : Frame) (h : WebSocketHeader) (ptr : Bytes) :
    decodeHeader h
      ((flag f.header.fin ||| (f.header.reserved &&& 7) <<< 4 ||| f.header.opcode.toByte &&& 15) ::
        (flag f.header.masked ||| (lenCode f.data.length).toUInt8) :: ptr) =
      match decodeLength (f.start h) ptr with
      | (h, none) => (h, none)
      | (h, some ptr) => decodeMask h ptr := by
  have hsmall : (f.header.reserved &&& 7).toNat < 8 := by
    rw [UInt8.toNat_and]
    exact Nat.lt_of_le_of_lt Nat.and_le_right (by decide)
  have hres : UInt8.ofNat (f.header.reserved &&& 7).toNat = f.header.reserved &&& 7 :=
    UInt8.ofNat_toNat
  have hidem : f.header.reserved &&& 7 &&& 7 = f.header.reserved &&& 7 := by
    rw [UInt8.and_assoc]
    rfl
  obtain ⟨hfin, hreserved, hopcode⟩ :=
    first_byte f.header.fin f.header.opcode (f.header.reserved &&& 7).toNat hsmall
  obtain ⟨hmask, hcode⟩ := second_byte f.header.masked (lenCode f.data.length) (lenCode_lt _)
  rw [hres, hidem] at hfin hreserved hopcode
  rw [decodeHeader]
  rw [hfin, hreserved, hopcode, hmask, hcode]
  rfl

theorem decodeHeader_whole (f : Frame) (hlen : f.data.length < 2 ^ 64) (h : WebSocketHeader)
    (x : Bytes) : ∃ h', decodeHeader h (f.head ++ x) = (h', some x) ∧ f.IsHeader h' := by
  have hmasked := maskBytes_length f.header
  rw [Frame.head_eq, List.cons_append, List.cons_append, decodeHeader_start, List.append_assoc,
    decodeLength_whole (show (f.start h).playloadLen = lenCode f.data.length from rfl) hlen]
  simp only [decodeMask]
  by_cases hm : f.header.masked = true
  · have hflag : (f.start h).maskFlag = true := hm
    rw [if_pos hm] at hmasked
    have hlong : ¬ (maskBytes f.header ++ x).length < 4 := by
      rw [List.length_append]
      omega
    rw [if_pos hflag, if_neg hlong, List.take_left' hmasked, List.drop_left' hmasked]
    refine ⟨_, rfl, rfl, rfl, rfl, rfl, rfl, fun _ => ?_⟩
    rw [maskBytes, if_pos hm]
  · have hflag : ¬ (f.start h).maskFlag = true := hm
    have hnil : maskBytes f.header = [] := by rw [maskBytes, if_neg hm]
    rw [if_neg hflag, hnil, List.nil_append]
    exact ⟨_, rfl, rfl, rfl, rfl, rfl, rfl, fun hm' => absurd hm' hm⟩

/-- A part of a header is not taken for one. -/
theorem decodeHeader_part (f : Frame) (hlen : f.data.length < 2 ^ 64) (h : WebSocketHeader)
    {p q : Bytes} (hpq : p ++ q = f.head) (hq : q ≠ []) : (decodeHeader h p).2 = none := by
  have hmasked := maskBytes_length f.header
  have hpos := List.length_pos_iff.mpr hq
  rw [Frame.head_eq] at hpq
  match p with
  | [] => rfl
  | [_] => rfl
  | b0 :: b1 :: ptr =>
      obtain ⟨rfl, htail⟩ := List.cons.inj hpq
      obtain ⟨rfl, hrest⟩ := List.cons.inj htail
      rw [decodeHeader_start]
      have htotal := congrArg List.length hrest
      rw [List.append_eq, List.length_append, List.length_append] at htotal
      by_cases hpart : ptr.length < (extended f.data.length).length
      · rw [decodeLength_part (show (f.start h).playloadLen = lenCode f.data.length from rfl) hpart]
      · have hfront : extended f.data.length <+: ptr := by
          refine List.prefix_of_prefix_length_le ?_ (List.prefix_append ptr q) (by omega)
          rw [← List.append_eq, hrest]
          exact List.prefix_append _ _
        obtain ⟨m, rfl⟩ := hfront
        rw [decodeLength_whole (show (f.start h).playloadLen = lenCode f.data.length from rfl) hlen]
        rw [List.length_append] at htotal
        simp only [decodeMask]
        by_cases hm : f.header.masked = true
        · have hflag : (f.start h).maskFlag = true := hm
          rw [if_pos hm] at hmasked
          rw [if_pos hflag, if_pos (by omega)]
        · rw [if_neg hm] at hmasked
          omega

end
end CoreLooper.WebSocket
