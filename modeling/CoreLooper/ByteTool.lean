import CoreLooper.StringTool
import CoreLooper.ByteBufferQueue

/-!
# `ByteTool`: bytes as hexadecimal text

Two writers and two readers. What separates the digits is removed before the text is read into a
`ByteBuffer`; what is read into memory must have none.
-/
namespace CoreLooper.ByteTool

open CStrings MemoryBlocks StringTool

/-- A digit, from ten on counted from the letter `a`. -/
def hexDigit (a n : UInt8) : UInt8 := if n < 10 then 48 + n else a + (n - 10)

def hexPair (a b : UInt8) : Bytes := [hexDigit a (b / 16), hexDigit a (b % 16)]

/-- `printf` for one byte, with the conversions `%02X` and `%02x`. -/
def format : Bytes → UInt8 → Bytes
  | 37 :: 48 :: 50 :: 88 :: fmt, b => hexPair 65 b ++ format fmt b
  | 37 :: 48 :: 50 :: 120 :: fmt, b => hexPair 97 b ++ format fmt b
  | c :: fmt, b => c :: format fmt b
  | [], _ => []

/-- `ByteToHexChar` that returns a `string`. -/
def byteToHexChar (pByte : Bytes) (cbByte : ℤ) (fmt : Bytes) (newLinePerBytes : ℤ) : Bytes :=
  (pByte.take cbByte.toNat).zipIdx.flatMap fun (b, i) =>
    format fmt b ++
      if newLinePerBytes ≠ 0 ∧ ((i : ℤ) + 1).tmod newLinePerBytes = 0 then ascii "\r\n" else []

def strcat (dst src : Bytes) : Option Bytes :=
  if 0 ∈ dst then store dst (cstr dst).length (src ++ [0]) else none

/-- `ByteToHexChar` that writes to memory. -/
def byteToHexCharAt (pByte : Bytes) (cbByte : ℤ) (pDst : Bytes) (cbDst : ℤ) :
    Option (ℤ × Bytes) := do
  let zeros ← alloc (fun _ => 0) cbDst
  let pDst ← store pDst 0 zeros
  if cbDst ≤ i32 (cbByte * 2) then return (-1, pDst)
  else
    let pDst ← store pDst 0 [0]
    let pDst ← (pByte.take cbByte.toNat).foldlM
      (fun pDst b => strcat pDst (format (ascii "%02x") b)) pDst
    return (0, pDst)

def hexNibble (ch : UInt8) : UInt8 :=
  let ch := toLower ch
  if 48 ≤ ch ∧ ch ≤ 57 then ch - 48
  else if 97 ≤ ch ∧ ch ≤ 102 then ch - 97 + 10
  else 0

def hexByte (c0 c1 : UInt8) : UInt8 := (hexNibble c0 <<< 4) ||| hexNibble c1

/-- The rounds of `HexCharToByte` from `i` on. -/
def hexCharToByteLoop : ℕ → ℕ → Bytes → Bytes → Option Bytes
  | 0, _, _, pDst => some pDst
  | n + 1, i, c0 :: c1 :: pSrc, pDst =>
      if c0 ≠ 0 ∧ c1 ≠ 0 then do
        let pDst ← store pDst i [hexByte c0 c1]
        hexCharToByteLoop n (i + 1) pSrc pDst
      else some pDst
  | _ + 1, _, [c0], pDst => if c0 = 0 then some pDst else none
  | _ + 1, _, [], _ => none

def hexCharToByte (pSrc pDst : Option Bytes) (cbDst : ℤ) : Option (ℤ × Option Bytes) :=
  match pSrc, pDst with
  | some pSrc, some pDst => do
      let zeros ← alloc (fun _ => 0) cbDst
      let pDst ← store pDst 0 zeros
      let pDst ← hexCharToByteLoop cbDst.toNat 0 pSrc pDst
      return (0, some pDst)
  | _, pDst => some (-1, pDst)

def makeHexPretty (fuel : ℕ) (hex : Bytes) : Option Bytes := do
  let hex ← replace fuel hex (ascii "\r") []
  let hex ← replace fuel hex (ascii "\n") []
  let hex ← replace fuel hex (ascii " ") []
  let hex ← replace fuel hex (ascii "\t") []
  let hex ← replace fuel hex (ascii ",") []
  replace fuel hex [0xEF, 0xBC, 0x8C] [] -- the comma of Chinese text

/-- The rounds of `HexString2Bin` from `i` on; what `WriteByte` returns is not looked at. -/
def hexString2BinLoop (junk : ℕ → ℕ → UInt8) : ℕ → Bytes → ByteBuffer → Option ByteBuffer
  | i, c0 :: c1 :: pSrc, box =>
      if c0 ≠ 0 ∧ c1 ≠ 0 then do
        let (_, box) ← box.writeByte (junk i) (hexByte c0 c1)
        hexString2BinLoop junk (i + 1) pSrc box
      else some box
  | _, [c0], box => if c0 = 0 then some box else none
  | _, [], _ => none

/-- `HexString2Bin` of a `string`. -/
def hexString2Bin (fuel : ℕ) (junk : ℕ → ℕ → UInt8) (hexString : Bytes) (box : ByteBuffer) :
    Option ByteBuffer := do
  let hex ← makeHexPretty fuel hexString
  hexString2BinLoop junk 0 (hex ++ [0]) box

/-- `HexString2Bin` of a C string. -/
def hexString2BinAt (fuel : ℕ) (junk : ℕ → ℕ → UInt8) (hexString : Option Bytes)
    (box : ByteBuffer) : Option ByteBuffer :=
  match hexString with
  | none => some box
  | some hexString =>
      if cstr hexString = [] then some box
      else do
        let hex ← replace fuel (cstr hexString) (ascii " ") []
        hexString2Bin fuel junk hex box

variable {a b c : UInt8} {bytes front hex pDst rest s t : Bytes} {i k n : ℕ}
  {junk : ℕ → ℕ → UInt8}

/-- The bytes that `makeHexPretty` removes. -/
def separators : Bytes := [13, 10, 32, 9, 44]

theorem bytes_all {p : UInt8 → Prop} (h : ∀ n < 256, p (UInt8.ofNat n)) (b : UInt8) : p b := by
  have hb := h b.toNat b.toNat_lt
  rwa [UInt8.ofNat_toNat] at hb

theorem hexByte_pair : ∀ a ∈ ([65, 97] : Bytes), ∀ b : UInt8,
    hexByte (hexDigit a (b / 16)) (hexDigit a (b % 16)) = b := by
  intro a ha
  apply bytes_all
  revert a
  decide +kernel

/-- No digit is a null or a separator. -/
theorem hexDigit_plain (ha : a ∈ ([65, 97] : Bytes)) (b : UInt8) (hc : c ∈ hexPair a b) :
    c ≠ 0 ∧ c ∉ separators ∧ c ≠ 0xEF := by
  have hdigit : ∀ n < 16, ∀ a ∈ ([65, 97] : Bytes), hexDigit a (UInt8.ofNat n) ≠ 0 ∧
      hexDigit a (UInt8.ofNat n) ∉ separators ∧ hexDigit a (UInt8.ofNat n) ≠ 0xEF := by
    decide +kernel
  have hsmall : ∀ d : UInt8, d.toNat < 16 → hexDigit a d ≠ 0 ∧ hexDigit a d ∉ separators ∧
      hexDigit a d ≠ 0xEF := by
    intro d hd
    have := hdigit d.toNat hd a ha
    rwa [UInt8.ofNat_toNat] at this
  have hb := b.toNat_lt
  rcases List.mem_pair.mp hc with rfl | rfl
  · exact hsmall _ (by rw [UInt8.toNat_div]; exact Nat.div_lt_of_lt_mul hb)
  · exact hsmall _ (by rw [UInt8.toNat_mod]; exact Nat.mod_lt _ (by decide))

theorem hexPair_nonzero (ha : a ∈ ([65, 97] : Bytes)) (b : UInt8) :
    hexDigit a (b / 16) ≠ 0 ∧ hexDigit a (b % 16) ≠ 0 := by
  constructor
  · exact (hexDigit_plain ha b List.mem_cons_self).1
  · exact (hexDigit_plain ha b (List.mem_cons_of_mem _ List.mem_cons_self)).1

theorem digits_cons (a b : UInt8) (bytes rest : Bytes) : (b :: bytes).flatMap (hexPair a) ++ rest =
    hexDigit a (b / 16) :: hexDigit a (b % 16) :: (bytes.flatMap (hexPair a) ++ rest) := rfl

/-- The text without what may stand between the digits. -/
def plain (text : Bytes) : Bytes := text.filter (· ∉ separators)

theorem plain_digits {a : UInt8} (ha : a ∈ ([65, 97] : Bytes)) (bytes : Bytes) :
    plain (bytes.flatMap (hexPair a)) = bytes.flatMap (hexPair a) := by
  apply List.filter_eq_self.mpr
  intro c hc
  obtain ⟨b, -, hc⟩ := List.mem_flatMap.mp hc
  exact decide_eq_true (hexDigit_plain ha b hc).2.1

/-- However the text is grouped and broken, the digits stand in it one after the other. -/
theorem plain_byteToHexChar {fmt : Bytes} (hfmt : fmt ∈ [ascii "%02X", ascii "%02X "])
    (bytes : Bytes) (newLinePerBytes : ℤ) :
    plain (byteToHexChar bytes bytes.length fmt newLinePerBytes) = bytes.flatMap (hexPair 65) := by
  have hformat : ∀ b, plain (format fmt b) = hexPair 65 b := by
    intro b
    have hpair : plain (hexPair 65 b) = hexPair 65 b := by
      have := plain_digits (a := 65) (by decide) [b]
      rwa [List.flatMap_singleton] at this
    rcases List.mem_pair.mp hfmt with rfl | rfl
    · exact hpair
    · have hblank : plain (hexPair 65 b ++ [32]) = plain (hexPair 65 b) ++ plain [32] :=
        List.filter_append ..
      exact hblank.trans (by rw [hpair]; rfl)
  have hgroup : ∀ (b : UInt8) (i : ℕ), plain (format fmt b ++
      if newLinePerBytes ≠ 0 ∧ ((i : ℤ) + 1).tmod newLinePerBytes = 0 then ascii "\r\n" else []) =
      hexPair 65 b := by
    intro b i
    rw [plain, List.filter_append, ← plain, hformat]
    split_ifs with hbreak
    · exact List.append_nil _
    · exact List.append_nil _
  rw [byteToHexChar, Int.toNat_natCast, List.take_length, plain, List.filter_flatMap]
  calc _ = bytes.zipIdx.flatMap fun p => hexPair 65 p.1 :=
        congrArg bytes.zipIdx.flatMap (funext fun p => hgroup p.1 p.2)
    _ = (bytes.zipIdx.map Prod.fst).flatMap (hexPair 65) := (List.flatMap_map ..).symm
    _ = bytes.flatMap (hexPair 65) := by rw [List.zipIdx_map_fst]

theorem length_byteToHexChar {fmt : Bytes} (hfmt : fmt ∈ [ascii "%02X", ascii "%02X "])
    (bytes : Bytes) (newLinePerBytes : ℤ) :
    (byteToHexChar bytes bytes.length fmt newLinePerBytes).length ≤ 5 * bytes.length := by
  have hgroup : ∀ (b : UInt8) (i : ℕ), (format fmt b ++
      if newLinePerBytes ≠ 0 ∧ ((i : ℤ) + 1).tmod newLinePerBytes = 0
      then ascii "\r\n" else []).length ≤ 5 := by
    intro b i
    have hformat : (format fmt b).length ≤ 3 := by
      rcases List.mem_pair.mp hfmt with rfl | rfl
      · exact Nat.le_succ 2
      · exact le_refl 3
    rw [List.length_append]
    split_ifs with hbreak
    · exact Nat.add_le_add_right hformat 2
    · exact Nat.add_le_add hformat (Nat.zero_le 2)
  rw [byteToHexChar, Int.toNat_natCast, List.take_length, List.length_flatMap]
  refine (List.sum_le_card_nsmul _ 5 ?_).trans_eq ?_
  · intro m hm
    obtain ⟨p, -, rfl⟩ := List.mem_map.mp hm
    exact hgroup p.1 p.2
  · rw [List.length_map, List.length_zipIdx, smul_eq_mul, mul_comm]

theorem length_digits (a : UInt8) (bytes : Bytes) :
    (bytes.flatMap (hexPair a)).length = 2 * bytes.length := by
  induction bytes with
  | nil => rfl
  | cons b bytes ih =>
      rw [List.flatMap_cons, List.length_append, ih, List.length_cons]
      exact Nat.add_comm 2 _

theorem replace_absent {w d : Bytes} (hc : c ∉ t) (fuel : ℕ) :
    replace (fuel + 1) t (c :: w) d = some t := by
  have hfind : find t (c :: w) 0 = none := by
    simp [find, strstr_absent hc]
  rw [replace, if_neg (by simp), replaceLoop, hfind]

theorem makeHexPretty_eq (fuel : ℕ) (hex : Bytes) : makeHexPretty fuel hex =
    (runPasses fuel (separators.map (·, [])) hex).bind
      fun hex => replace fuel hex [0xEF, 0xBC, 0x8C] [] := by
  simp only [makeHexPretty, runPasses, separators, List.map_cons, List.map_nil, List.foldlM_cons,
    List.foldlM_nil, bind_pure, Option.bind_eq_bind, Option.bind_assoc]
  rfl

theorem makeHexPretty_plain (hshort : t.length < 2 ^ 31) (hc : 0xEF ∉ plain t) :
    ∃ fuel, ∀ k, makeHexPretty (fuel + k) t = some (plain t) := by
  obtain ⟨fuel, hpasses⟩ := passes_remove separators hshort
  refine ⟨fuel + 1, fun k => ?_⟩
  rw [Nat.add_assoc, makeHexPretty_eq, runPasses_mono hpasses, Option.bind_some, ← Nat.add_assoc,
    Nat.add_right_comm]
  exact replace_absent hc (fuel + k)

/-- Each pair of digits becomes a byte behind the data. -/
theorem hexString2BinLoop_holds (junk : ℕ → ℕ → UInt8) (bytes : Bytes) {limit : ℕ}
    {box : ByteBuffer} {data : Bytes} (ha : a ∈ ([65, 97] : Bytes))
    (h : ByteBuffer.Holds limit box data) (hlimit : limit < 2 ^ 31)
    (hfits : data.length + bytes.length ≤ limit)
    (hsmall : data.length + bytes.length ≤ 2 ^ 30) (i : ℕ) :
    ∃ box', hexString2BinLoop junk i (bytes.flatMap (hexPair a) ++ [0]) box = some box' ∧
      ByteBuffer.Holds limit box' (data ++ bytes) := by
  induction bytes generalizing data box i with
  | nil =>
      rw [List.append_nil]
      exact ⟨box, rfl, h⟩
  | cons b bytes ih =>
      rw [List.length_cons] at hfits hsmall
      obtain ⟨box₁, hwrite, h₁⟩ := ByteBuffer.writeByte_holds (junk i) b hlimit h
        (by rw [h.length]; omega) (by rw [ByteBuffer.Rounds, h.length]; omega)
      have hone : min 1 (limit - data.length) = 1 := by omega
      rw [hone] at h₁
      obtain ⟨box', hloop, h'⟩ := ih h₁ (by simp; omega) (by simp; omega) (i + 1)
      refine ⟨box', ?_, by simpa using h'⟩
      rw [digits_cons, hexString2BinLoop, if_pos (hexPair_nonzero ha b), hexByte_pair a ha, hwrite]
      exact hloop

/-- What is left when the separators are removed are the digits of the bytes. -/
theorem hexString2Bin_reads {limit : ℕ} {box : ByteBuffer} {text : Bytes}
    (htext : plain text = bytes.flatMap (hexPair 65)) (hshort : text.length < 2 ^ 31)
    (hlimit : limit < 2 ^ 31) (h : ByteBuffer.Holds limit box []) (hfits : bytes.length ≤ limit)
    (junk : ℕ → ℕ → UInt8) :
    ∃ fuel box', (∀ k, hexString2Bin (fuel + k) junk text box = some box') ∧
      ByteBuffer.Holds limit box' bytes := by
  have hcomma : 0xEF ∉ plain text := by
    intro hmem
    rw [htext] at hmem
    obtain ⟨b, -, hmem⟩ := List.mem_flatMap.mp hmem
    exact (hexDigit_plain (by decide) b hmem).2.2 rfl
  obtain ⟨fuel, hpretty⟩ := makeHexPretty_plain hshort hcomma
  have hsmall : 2 * bytes.length < 2 ^ 31 := by
    rw [← length_digits 65, ← htext]
    exact (List.length_filter_le _ text).trans_lt hshort
  obtain ⟨box', hloop, h'⟩ := hexString2BinLoop_holds junk bytes
    (by decide : 65 ∈ ([65, 97] : Bytes)) h hlimit
    (by rw [List.length_nil]; omega) (by rw [List.length_nil]; omega) 0
  refine ⟨fuel, box', fun k => ?_, h'⟩
  rw [hexString2Bin, hpretty, htext]
  exact hloop

/-- The overload for C strings removes blanks once more. -/
theorem hexString2BinAt_reads {limit : ℕ} {box : ByteBuffer} {text : Bytes}
    (htext : plain text = bytes.flatMap (hexPair 65)) (hshort : text.length < 2 ^ 31)
    (hlimit : limit < 2 ^ 31) (h : ByteBuffer.Holds limit box []) (hfits : bytes.length ≤ limit)
    (junk : ℕ → ℕ → UInt8) (behind : Bytes) :
    ∃ fuel box', hexString2BinAt fuel junk (some (text ++ 0 :: behind)) box = some box' ∧
      ByteBuffer.Holds limit box' bytes := by
  have hnull : 0 ∉ text := by
    intro hmem
    have hplain : 0 ∈ plain text := List.mem_filter.mpr ⟨hmem, by decide⟩
    rw [htext] at hplain
    obtain ⟨b, -, hmem⟩ := List.mem_flatMap.mp hplain
    exact (hexDigit_plain (by decide) b hmem).1 rfl
  simp only [hexString2BinAt, cstr_terminated hnull]
  by_cases hempty : text = []
  · have hbytes : bytes = [] := by
      rw [hempty] at htext
      have hlength := congrArg List.length htext
      rw [length_digits] at hlength
      exact List.length_eq_zero_iff.mp (by simpa [plain] using hlength.symm)
    refine ⟨0, box, by rw [if_pos hempty], ?_⟩
    rwa [hbytes]
  · have hagain : plain (text.filter (· ∉ ascii " ")) = plain text := by
      rw [plain, List.filter_filter]
      apply List.filter_congr
      intro x _
      have hblank : ∀ c ∈ ascii " ", c ∈ separators := by decide +kernel
      rw [Bool.eq_iff_iff, Bool.and_eq_true, decide_eq_true_iff, decide_eq_true_iff]
      exact and_iff_left_of_imp fun hx hmem => hx (hblank x hmem)
    obtain ⟨k, hblanks⟩ := passes_remove (ascii " ") hshort
    obtain ⟨fuel, box', hread, h'⟩ := hexString2Bin_reads (hagain.trans htext)
      ((List.length_filter_le _ text).trans_lt hshort) hlimit h hfits junk
    refine ⟨fuel + k, box', ?_, h'⟩
    have hreplace : replace (fuel + k) text (ascii " ") [] =
        some (text.filter (· ∉ ascii " ")) := by
      rw [Nat.add_comm]
      obtain ⟨t, ht, hnil⟩ := runPasses_cons.mp (runPasses_mono hblanks fuel)
      rw [← Option.some.inj hnil]
      exact ht
    rw [if_neg hempty, hreplace]
    exact hread k

/-- The digits are written over the zeros, of which the last stays. -/
theorem strcat_pair (ha : a ∈ ([65, 97] : Bytes)) (front : Bytes) (b : UInt8) (k : ℕ)
    (rest : Bytes) :
    strcat (front.flatMap (hexPair a) ++ (List.replicate (k + 3) 0 ++ rest)) (hexPair a b) =
      some ((front ++ [b]).flatMap (hexPair a) ++ (List.replicate (k + 1) 0 ++ rest)) := by
  have hnull : 0 ∉ front.flatMap (hexPair a) := by
    intro hmem
    obtain ⟨b', -, hmem⟩ := List.mem_flatMap.mp hmem
    exact (hexDigit_plain ha b' hmem).1 rfl
  have hcstr : cstr (front.flatMap (hexPair a) ++ (List.replicate (k + 3) 0 ++ rest)) =
      front.flatMap (hexPair a) := cstr_terminated hnull _
  have hdrop : (List.replicate (k + 3) 0 ++ rest).drop (hexPair a b ++ [0]).length =
      List.replicate k 0 ++ rest := rfl
  rw [strcat, if_pos (by simp), hcstr, store_front _ _ rfl (by simp [hexPair]; omega), hdrop,
    List.flatMap_append, List.flatMap_singleton, List.append_assoc, List.append_assoc]
  rfl

theorem foldlM_strcat (front bytes : Bytes) (k : ℕ) (rest : Bytes) :
    bytes.foldlM (fun pDst b => strcat pDst (format (ascii "%02x") b))
        (front.flatMap (hexPair 97) ++ (List.replicate (2 * bytes.length + k + 1) 0 ++ rest)) =
      some ((front ++ bytes).flatMap (hexPair 97) ++ (List.replicate (k + 1) 0 ++ rest)) := by
  induction bytes generalizing front with
  | nil =>
      rw [List.append_nil, List.length_nil, Nat.mul_zero, Nat.zero_add]
      rfl
  | cons b bytes ih =>
      have hlength : 2 * (b :: bytes).length + k + 1 = 2 * bytes.length + k + 3 := by
        rw [List.length_cons]
        omega
      have hformat : format (ascii "%02x") b = hexPair 97 b := List.append_nil _
      rw [List.foldlM_cons, hformat, hlength, strcat_pair (by decide), Option.bind_eq_bind,
        Option.bind_some, ih, List.append_assoc, List.singleton_append]

theorem alloc_zeros (n : ℕ) : alloc (fun _ => (0 : UInt8)) n = some (List.replicate n 0) := by
  rw [alloc, if_pos (Int.natCast_nonneg n), Int.toNat_natCast, List.map_const', List.length_range]

theorem store_zeros (h : n ≤ pDst.length) :
    store pDst 0 (List.replicate n 0) = some (List.replicate n 0 ++ pDst.drop n) := by
  have hstore := store_front [] (List.replicate n (0 : UInt8))
    (rfl : (0 : ℤ) = ([] : Bytes).length)
    (by rwa [List.length_replicate] : (List.replicate n (0 : UInt8)).length ≤ pDst.length)
  rwa [List.length_replicate] at hstore

theorem byteToHexCharAt_writes (hroom : 2 * bytes.length < n) (hint : n < 2 ^ 31)
    (hn : n ≤ pDst.length) :
    byteToHexCharAt bytes bytes.length pDst n = some (0,
      bytes.flatMap (hexPair 97) ++ (List.replicate (n - 2 * bytes.length) 0 ++ pDst.drop n)) := by
  obtain ⟨k, rfl⟩ := Nat.exists_eq_add_of_lt hroom
  have hless : ¬ ((2 * bytes.length + k + 1 : ℕ) : ℤ) ≤ i32 (bytes.length * 2) := by
    rw [i32_eq (by omega) (by omega)]
    omega
  have hnull : store (List.replicate (2 * bytes.length + k + 1) 0 ++
      pDst.drop (2 * bytes.length + k + 1)) 0 [0] = some (List.replicate
        (2 * bytes.length + k + 1) 0 ++ pDst.drop (2 * bytes.length + k + 1)) :=
    store_front [] [0] rfl (by simp)
  have hwrite := foldlM_strcat [] bytes k (pDst.drop (2 * bytes.length + k + 1))
  have hleft : 2 * bytes.length + k + 1 - 2 * bytes.length = k + 1 := by omega
  rw [List.flatMap_nil, List.nil_append, List.nil_append] at hwrite
  simp only [byteToHexCharAt, alloc_zeros, store_zeros hn, Option.bind_eq_bind, Option.bind_some,
    if_neg hless, hnull, Int.toNat_natCast, List.take_length, hwrite, hleft]
  rfl

/-- Each pair of digits is read to the next place. -/
theorem hexCharToByteLoop_reads (ha : a ∈ ([65, 97] : Bytes)) (bytes front : Bytes) (k : ℕ)
    (text rest : Bytes) :
    hexCharToByteLoop (bytes.length + k) front.length (bytes.flatMap (hexPair a) ++ 0 :: text)
        (front ++ (List.replicate (bytes.length + k) 0 ++ rest)) =
      some (front ++ (bytes ++ (List.replicate k 0 ++ rest))) := by
  induction bytes generalizing front with
  | nil =>
      rw [List.length_nil, Nat.zero_add]
      cases k with
      | zero => rfl
      | succ k => cases text <;> rfl
  | cons b bytes ih =>
      have hlength : (b :: bytes).length + k = bytes.length + k + 1 := by
        rw [List.length_cons, Nat.add_right_comm]
      have hroom : [b].length ≤ (List.replicate (bytes.length + k + 1) 0 ++ rest).length := by
        simp only [List.length_singleton, List.length_append, List.length_replicate]
        omega
      have hstore := store_front front [b] (rfl : (front.length : ℤ) = front.length) hroom
      have hread := ih (front ++ [b])
      rw [List.length_append, List.length_singleton, List.append_assoc, List.append_assoc] at hread
      rw [digits_cons, hlength, hexCharToByteLoop, if_pos (hexPair_nonzero ha b), hexByte_pair a ha,
        hstore]
      exact hread

theorem hexCharToByte_reads {out : Bytes} (ha : a ∈ ([65, 97] : Bytes)) (hn : bytes.length ≤ n)
    (hout : n ≤ out.length) (text : Bytes) :
    hexCharToByte (some (bytes.flatMap (hexPair a) ++ 0 :: text)) (some out) n =
      some (0, some (bytes ++ (List.replicate (n - bytes.length) 0 ++ out.drop n))) := by
  obtain ⟨k, rfl⟩ := Nat.exists_eq_add_of_le hn
  have hread := hexCharToByteLoop_reads ha bytes [] k text (out.drop (bytes.length + k))
  rw [List.nil_append, List.nil_append, List.length_nil] at hread
  simp only [hexCharToByte, alloc_zeros, store_zeros hout, Option.bind_eq_bind, Option.bind_some,
    Int.toNat_natCast, hread, Nat.add_sub_cancel_left]
  rfl

/-- What each writer makes is read back, for every grouping of the text. -/
theorem hex_round_trip {limit : ℕ} {box : ByteBuffer} (hlimit : limit < 2 ^ 31)
    (h : ByteBuffer.Holds limit box []) (junk : ℕ → ℕ → UInt8) :
    (∀ bytes : Bytes, bytes.length ≤ limit →
      ∀ fmt ∈ [ascii "%02X", ascii "%02X "], ∀ newLinePerBytes : ℤ,
      let text := byteToHexChar bytes bytes.length fmt newLinePerBytes
      bytes.length ≤ ByteBuffer.defaultMaxSize ∨ text.length < 2 ^ 31 →
      (∃ fuel box', hexString2Bin fuel junk text box = some box' ∧ box'.content = some bytes) ∧
        ∀ behind, ∃ fuel box', hexString2BinAt fuel junk (some (text ++ 0 :: behind)) box =
          some box' ∧ box'.content = some bytes) ∧
    (∀ bytes pDst : Bytes, ∀ cbDst : ℕ, 2 * bytes.length < cbDst → cbDst < 2 ^ 31 →
      cbDst ≤ pDst.length →
      ∃ text, byteToHexCharAt bytes bytes.length pDst cbDst = some (0, text) ∧
        ∀ out : Bytes, ∀ cbOut : ℕ, bytes.length ≤ cbOut → cbOut ≤ out.length →
          hexCharToByte (some text) (some out) cbOut = some (0, some
            (bytes ++ (List.replicate (cbOut - bytes.length) 0 ++ out.drop cbOut)))) := by
  constructor
  · intro bytes hfits fmt hfmt newLinePerBytes text hsize
    have htext := plain_byteToHexChar hfmt bytes newLinePerBytes
    have hshort : text.length < 2 ^ 31 := by
      rcases hsize with hsize | hsize
      · have hfive := length_byteToHexChar hfmt bytes newLinePerBytes
        have hdefault : ByteBuffer.defaultMaxSize = 16777216 := rfl
        have : text.length ≤ 5 * bytes.length := hfive
        omega
      · exact hsize
    constructor
    · obtain ⟨fuel, box', hread, h'⟩ := hexString2Bin_reads htext hshort hlimit h hfits junk
      exact ⟨fuel, box', hread 0, h'.refines.content⟩
    · intro behind
      obtain ⟨fuel, box', hread, h'⟩ :=
        hexString2BinAt_reads htext hshort hlimit h hfits junk behind
      exact ⟨fuel, box', hread, h'.refines.content⟩
  · intro bytes pDst cbDst hroom hint hcb
    refine ⟨_, byteToHexCharAt_writes hroom hint hcb, ?_⟩
    intro out cbOut hn hout
    obtain ⟨k, hk⟩ := Nat.exists_eq_add_of_lt hroom
    have hzeros : cbDst - 2 * bytes.length = k + 1 := by omega
    rw [hzeros, List.replicate_succ, List.cons_append]
    exact hexCharToByte_reads (by decide) hn hout _

theorem hex_round_trip_two :
    (∃ fuel box', hexString2Bin fuel (fun _ _ => 0) (ascii "0A \r\nFF \r\n") {} = some box' ∧
      box'.content = some [0x0A, 0xFF]) ∧
    ∃ text, byteToHexCharAt [0x0A, 0xFF] 2 [7, 7, 7, 7, 7, 7] 5 = some (0, text) ∧
      hexCharToByte (some text) (some [7, 7]) 2 = some (0, some [0x0A, 0xFF]) := by
  have htrip := hex_round_trip (by decide : ByteBuffer.defaultMaxSize < 2 ^ 31) (.unallocated rfl)
    fun _ _ => 0
  constructor
  · exact (htrip.1 [0x0A, 0xFF] (by decide) (ascii "%02X ") (by simp) 1 (.inl (by decide))).1
  · obtain ⟨text, hwrite, hread⟩ := htrip.2 [0x0A, 0xFF] [7, 7, 7, 7, 7, 7] 5 (by decide)
      (by decide) (by decide)
    exact ⟨text, hwrite, hread [7, 7] 2 (by decide) (by decide)⟩

end CoreLooper.ByteTool
