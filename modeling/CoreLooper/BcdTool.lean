import CoreLooper.CStrings
import Mathlib

/-!
# `BcdTool`: decimal digits in bytes

A byte holds two decimal digits, the first byte the highest. `unsigned long` has `w` bits.
-/
namespace CoreLooper.BcdTool

open CStrings

def power (w : ℕ) (base times : ℤ) : BitVec w :=
  (List.range times.toNat).foldl (fun rslt _ => rslt * BitVec.ofInt w base) 1

def tmp (b : UInt8) : ℕ := ((b >>> 4) &&& 0x0F).toNat * 10 + (b &&& 0x0F).toNat

def bcdToDec (w : ℕ) (bcd : Bytes) (length : ℤ) : BitVec w :=
  (List.range length.toNat).foldl
    (fun dec i => dec + BitVec.ofNat w (tmp (bcd.getD i 0)) * power w 100 (length - 1 - i)) 0

/-- The rounds from `i` on down, with the number of bytes written. -/
def decToBcdLoop : ℕ → ℤ → Bytes → ℤ → Bytes × ℤ
  | 0, _, bcd, bytes => (bcd, bytes)
  | i + 1, dec, bcd, bytes =>
      let temp := dec.tmod 100
      let bcd := bcd.set i (UInt8.ofInt (temp.tdiv 10 * 16 + temp.tmod 10 % 16))
      let dec := dec.tdiv 100
      if dec = 0 then (bcd, bytes + 1) else decToBcdLoop i dec bcd (bytes + 1)

/-- The bytes written stand at the end of the first `length`; they move to the front. -/
def decToBcd (dec : ℤ) (bcd : Bytes) (length : ℤ) : ℤ × Bytes :=
  let (bcd, bytes) := decToBcdLoop length.toNat dec bcd 0
  if 0 < bytes then
    let bcd := (bcd.drop (length - bytes).toNat).take bytes.toNat ++ bcd.drop bytes.toNat
    (bytes, if bytes + 1 ≤ length then bcd.set bytes.toNat 0 else bcd)
  else (bytes, bcd)

/-- Both halves are decimal digits. -/
def IsBcd (b : UInt8) : Prop := b.toNat / 16 ≤ 9 ∧ b.toNat % 16 ≤ 9

instance (b : UInt8) : Decidable (IsBcd b) := inferInstanceAs (Decidable (_ ∧ _))

/-- What stands in the byte for `n` below 100. -/
def pair (n : ℕ) : UInt8 := UInt8.ofNat (n / 10 * 16 + n % 10)

variable {b b' : UInt8} {n w : ℕ} {s t bcd buffer : Bytes}

theorem tmp_eq (b : UInt8) : tmp b = b.toNat / 16 * 10 + b.toNat % 16 := by
  have hhigh : ((b >>> 4) &&& 0x0F).toNat = b.toNat / 16 := by
    have hb := b.toNat_lt
    have hand : ((b >>> 4) &&& 0x0F).toNat = b.toNat / 16 % 16 := by
      rw [UInt8.toNat_and, UInt8.toNat_shiftRight]
      exact (Nat.and_two_pow_sub_one_eq_mod _ 4).trans
        (congrArg (· % 16) (Nat.shiftRight_eq_div_pow b.toNat 4))
    rw [hand]
    omega
  have hlow : (b &&& 0x0F).toNat = b.toNat % 16 := by
    rw [UInt8.toNat_and]
    exact Nat.and_two_pow_sub_one_eq_mod b.toNat 4
  rw [tmp, hhigh, hlow]

theorem toNat_pair (h : n < 100) : (pair n).toNat = n / 10 * 16 + n % 10 := by
  rw [pair, UInt8.toNat_ofNat']
  omega

theorem isBcd_pair (h : n < 100) : IsBcd (pair n) := by
  rw [IsBcd, toNat_pair h]
  omega

theorem tmp_pair (h : n < 100) : tmp (pair n) = n := by
  rw [tmp_eq, toNat_pair h]
  omega

theorem IsBcd.tmp_lt (h : IsBcd b) : tmp b < 100 := by
  rw [tmp_eq]
  have := h.1
  have := h.2
  omega

theorem IsBcd.pair_tmp (h : IsBcd b) : pair (tmp b) = b := by
  apply UInt8.toNat_inj.mp
  rw [toNat_pair h.tmp_lt, tmp_eq]
  have := h.1
  have := h.2
  omega

/-- The byte a round writes. -/
theorem ofInt_round (D : ℕ) :
    UInt8.ofInt ((((D : ℤ).tmod 100).tdiv 10) * 16 + ((D : ℤ).tmod 100).tmod 10 % 16) =
      pair (D % 100) := by
  have hround : (((D : ℤ).tmod 100).tdiv 10) * 16 + ((D : ℤ).tmod 100).tmod 10 % 16 =
      ((D % 100 / 10 * 16 + D % 100 % 10 : ℕ) : ℤ) := by
    have hnonneg : 0 ≤ (D : ℤ) % 100 := Int.emod_nonneg _ (by decide)
    rw [Int.tmod_eq_emod_of_nonneg (Int.natCast_nonneg D), Int.tdiv_eq_ediv_of_nonneg hnonneg,
      Int.tmod_eq_emod_of_nonneg hnonneg]
    omega
  rw [hround, pair, UInt8.ofInt]
  apply UInt8.toNat_inj.mp
  rw [UInt8.toNat_ofNat', UInt8.toNat_ofNat']
  omega

/-- The number the bytes stand for. -/
def value (s : Bytes) : ℕ := Nat.ofDigits 100 (s.map tmp).reverse

theorem value_append_singleton (s : Bytes) (b : UInt8) :
    value (s ++ [b]) = tmp b + 100 * value s := by
  rw [value, List.map_append, List.map_singleton, List.reverse_append, List.reverse_singleton,
    List.singleton_append, Nat.ofDigits_cons, value]

theorem tmp_lt_of_mem (hs : ∀ b ∈ s, IsBcd b) : ∀ n ∈ (s.map tmp).reverse, n < 100 := by
  intro n hn
  obtain ⟨b, hb, rfl⟩ := List.mem_map.mp (List.mem_reverse.mp hn)
  exact (hs b hb).tmp_lt

theorem value_lt (hs : ∀ b ∈ s, IsBcd b) : value s < 100 ^ s.length := by
  have hlt := Nat.ofDigits_lt_base_pow_length (by decide) (tmp_lt_of_mem hs)
  rwa [List.length_reverse, List.length_map] at hlt

theorem le_value (hb : tmp b ≠ 0) (s : Bytes) : 100 ^ s.length ≤ value (b :: s) := by
  rw [value, List.map_cons, Nat.ofDigits_reverse_cons, List.length_map]
  have hmul := Nat.le_mul_of_pos_right (100 ^ s.length) (Nat.pos_of_ne_zero hb)
  omega

theorem map_pair_tmp (hs : ∀ b ∈ s, IsBcd b) : (s.map tmp).map pair = s := by
  rw [List.map_map]
  conv_rhs => rw [← List.map_id s]
  exact List.map_congr_left fun b hb => (hs b hb).pair_tmp

/-- Two strings of one length for one number are the same. -/
theorem eq_of_value (hs : ∀ b ∈ s, IsBcd b) (ht : ∀ b ∈ t, IsBcd b) (hlength : s.length = t.length)
    (hvalue : value s = value t) : s = t := by
  have hmap : s.map tmp = t.map tmp := by
    apply List.reverse_injective
    refine Nat.ofDigits_inj_of_len_eq (by decide) ?_ (tmp_lt_of_mem hs) (tmp_lt_of_mem ht) hvalue
    simpa using hlength
  rw [← map_pair_tmp hs, ← map_pair_tmp ht, hmap]

theorem power_eq (w n : ℕ) : power w 100 n = BitVec.ofNat w (100 ^ n) := by
  have hfold : ∀ n : ℕ, (List.range n).foldl (fun rslt _ => rslt * BitVec.ofInt w 100) 1 =
      BitVec.ofNat w (100 ^ n) := by
    intro n
    induction n with
    | zero => rfl
    | succ n ih =>
        rw [List.range_succ, List.foldl_append, ih, pow_succ, BitVec.ofNat_mul]
        rfl
  exact hfold n

/-- The sum that `bcdToDec` forms. -/
theorem sum_eq_value (hn : n ≤ bcd.length) :
    ((List.range n).map fun i => tmp (bcd.getD i 0) * 100 ^ (n - 1 - i)).sum =
      value (bcd.take n) := by
  induction n with
  | zero => rfl
  | succ n ih =>
      have hshift : ((List.range n).map fun i => tmp (bcd.getD i 0) * 100 ^ (n + 1 - 1 - i)).sum =
          100 * ((List.range n).map fun i => tmp (bcd.getD i 0) * 100 ^ (n - 1 - i)).sum := by
        rw [← List.sum_map_mul_left]
        congr 1
        apply List.map_congr_left
        intro i hi
        have hexp : n + 1 - 1 - i = n - 1 - i + 1 := by
          have := List.mem_range.mp hi
          omega
        rw [hexp, pow_succ]
        ring
      have htake : bcd.take (n + 1) = bcd.take n ++ [bcd.getD n 0] := by
        rw [List.take_succ_eq_append_getElem (by omega), List.getD_eq_getElem _ _ (by omega)]
      rw [List.sum_range_succ, hshift, ih (by omega), htake, value_append_singleton,
        Nat.add_sub_cancel, Nat.sub_self, pow_zero, mul_one, add_comm]

theorem bcdToDec_eq (w : ℕ) (hn : n ≤ bcd.length) :
    bcdToDec w bcd n = BitVec.ofNat w (value (bcd.take n)) := by
  have hfold : ∀ l : List ℕ, (∀ i ∈ l, i < n) → ∀ a : ℕ,
      l.foldl (fun dec (i : ℕ) => dec + BitVec.ofNat w (tmp (bcd.getD i 0)) *
        power w 100 ((n : ℤ) - 1 - i)) (BitVec.ofNat w a) =
      BitVec.ofNat w (a + (l.map fun i => tmp (bcd.getD i 0) * 100 ^ (n - 1 - i)).sum) := by
    intro l hl
    induction l with
    | nil =>
        intro a
        rfl
    | cons i l ih =>
        intro a
        have hexp : (n : ℤ) - 1 - i = (n - 1 - i : ℕ) := by
          have := hl i List.mem_cons_self
          omega
        rw [List.foldl_cons, hexp, power_eq, ← BitVec.ofNat_mul, ← BitVec.ofNat_add,
          ih fun j hj => hl j (List.mem_cons_of_mem i hj), List.map_cons, List.sum_cons, add_assoc]
  have hsum := hfold (List.range n) (fun i hi => List.mem_range.mp hi) 0
  rw [Nat.zero_add, sum_eq_value hn] at hsum
  exact hsum

theorem value_round (s : Bytes) (D : ℕ) (h : value s = D / 100 % 100 ^ s.length) :
    value (s ++ [pair (D % 100)]) = D % 100 ^ (s ++ [pair (D % 100)]).length := by
  rw [value_append_singleton, tmp_pair (Nat.mod_lt D (by decide)), h, List.length_append,
    List.length_singleton, pow_succ', Nat.mod_mul]

/-- The bytes written stand before place `k`, and hold as much of the number as they can. -/
theorem decToBcdLoop_writes (k D : ℕ) (hk : k ≤ bcd.length) (bytes : ℤ) :
    ∃ s, decToBcdLoop k D bcd bytes =
        (bcd.take (k - s.length) ++ s ++ bcd.drop k, bytes + s.length) ∧
      (∀ b ∈ s, IsBcd b) ∧ value s = D % 100 ^ s.length ∧
      s.length ≤ k ∧ (s.length = k ∨ s ≠ [] ∧ D < 100 ^ s.length) := by
  induction k generalizing D bcd bytes with
  | zero =>
      refine ⟨[], ?_, ?_, ?_, ?_, ?_⟩
      · simp [decToBcdLoop]
      · simp
      · rw [List.length_nil, pow_zero, Nat.mod_one]
        rfl
      · exact Nat.zero_le 0
      · exact .inl rfl
  | succ k ih =>
      have hset : bcd.set k (pair (D % 100)) =
          bcd.take k ++ pair (D % 100) :: bcd.drop (k + 1) := by
        rw [List.set_eq_take_append_cons_drop, if_pos (by omega)]
      have hdiv : (D : ℤ).tdiv 100 = (D / 100 : ℕ) := rfl
      have hpair := isBcd_pair (Nat.mod_lt D (by decide : 0 < 100))
      rw [decToBcdLoop, ofInt_round, hdiv]
      split_ifs with hzero
      · -- nothing is left of the number
        refine ⟨[pair (D % 100)], ?_, ?_, ?_, ?_, ?_⟩
        · rw [hset]
          simp
        · simpa using hpair
        · exact value_round [] D (by simp [value, Nat.mod_one])
        · simp
        · refine .inr ⟨List.cons_ne_nil _ _, ?_⟩
          rw [List.length_singleton, pow_one]
          omega
      · obtain ⟨s, hloop, hs, hvalue, hlength, hend⟩ :=
          ih (D / 100) (by rw [List.length_set]; omega : k ≤ (bcd.set k (pair (D % 100))).length)
            (bytes + 1)
        refine ⟨s ++ [pair (D % 100)], ?_, ?_, value_round s D hvalue, ?_, ?_⟩
        · have htake : (bcd.set k (pair (D % 100))).take (k - s.length) =
              bcd.take (k + 1 - (s.length + 1)) := by
            rw [hset, List.take_append_of_le_length (by rw [List.length_take]; omega),
              List.take_take, Nat.add_sub_add_right, min_eq_left (Nat.sub_le k s.length)]
          have hdrop : (bcd.set k (pair (D % 100))).drop k =
              pair (D % 100) :: bcd.drop (k + 1) := by
            rw [hset, List.drop_left' (by rw [List.length_take]; omega)]
          rw [hloop, htake, hdrop, List.length_append, List.length_singleton]
          apply Prod.ext
          · simp only [List.append_assoc, List.singleton_append]
          · push_cast
            ring
        · intro b hb
          rcases List.mem_append.mp hb with hb | hb
          · exact hs b hb
          · rw [List.mem_singleton.mp hb]
            exact hpair
        · rw [List.length_append, List.length_singleton]
          omega
        · rw [List.length_append, List.length_singleton]
          rcases hend with hend | ⟨-, hend⟩
          · exact .inl (by omega)
          · refine .inr ⟨by simp, ?_⟩
            rw [pow_succ]
            omega

/-- What is written stands at the front in the end. -/
theorem decToBcd_writes (D : ℕ) (hn : 0 < n) (hbuffer : n ≤ buffer.length) :
    ∃ s, (∃ rest, decToBcd D buffer n = (s.length, s ++ rest)) ∧
      (∀ b ∈ s, IsBcd b) ∧ value s = D % 100 ^ s.length ∧
      0 < s.length ∧ s.length ≤ n ∧ (s.length = n ∨ D < 100 ^ s.length) := by
  obtain ⟨s, hloop, hs, hvalue, hlength, hend⟩ := decToBcdLoop_writes n D hbuffer 0
  have hpos : 0 < s.length := by
    rcases hend with hend | ⟨hne, -⟩
    · omega
    · exact List.length_pos_iff.mpr hne
  refine ⟨s, ?_, hs, hvalue, hpos, hlength, hend.imp_right And.right⟩
  have hmoved : ((buffer.take (n - s.length) ++ s ++ buffer.drop n).drop (n - s.length)).take
      s.length = s := by
    have htake : (buffer.take (n - s.length)).length = n - s.length := by
      rw [List.length_take]
      omega
    rw [List.append_assoc, List.drop_left' htake, List.take_left]
  have hsub : ((n : ℤ) - s.length).toNat = n - s.length := by omega
  rw [Int.zero_add] at hloop
  unfold decToBcd
  rw [Int.toNat_natCast, hloop]
  simp only [if_pos (Int.natCast_pos.mpr hpos), hsub, Int.toNat_natCast, hmoved]
  split_ifs with hzero
  · rw [List.set_append_right _ _ le_rfl]
    exact ⟨_, rfl⟩
  · exact ⟨_, rfl⟩

/-- Both ways, for every `int` and every length. -/
theorem bcd_round_trip {w : ℕ} (hw : 32 ≤ w) :
    (∀ (d n : ℤ) (buffer : Bytes), 0 ≤ d → d < 2 ^ 31 → 1 ≤ n → n ≤ buffer.length →
      ∀ r bcd, decToBcd d buffer n = (r, bcd) →
        1 ≤ r ∧ r ≤ n ∧ (∀ b ∈ bcd.take r.toNat, IsBcd b) ∧
          ((bcdToDec w bcd r).toNat : ℤ) = d % 100 ^ n.toNat) ∧
    (∀ bcd buffer : Bytes, (∀ b ∈ bcd, IsBcd b) → bcd ≠ [] → (bcd.head? ≠ some 0 ∨ bcd = [0]) →
      value bcd < 2 ^ 31 → bcd.length ≤ buffer.length →
      (bcdToDec w bcd bcd.length).toNat = value bcd ∧
        ∃ rest, decToBcd (value bcd) buffer bcd.length = ((bcd.length : ℤ), bcd ++ rest)) := by
  have hread : ∀ (bcd : Bytes) (n : ℕ), n ≤ bcd.length → value (bcd.take n) < 2 ^ 31 →
      (bcdToDec w bcd n).toNat = value (bcd.take n) := by
    intro bcd n hn hvalue
    rw [bcdToDec_eq w hn, BitVec.toNat_ofNat]
    apply Nat.mod_eq_of_lt
    calc value (bcd.take n) < 2 ^ 31 := hvalue
      _ ≤ 2 ^ w := Nat.pow_le_pow_right (by decide) (by omega)
  constructor
  · intro d n buffer hd hfits hn hbuffer r bcd hcall
    lift d to ℕ using hd
    lift n to ℕ using (by omega)
    obtain ⟨s, ⟨rest, hs⟩, hbcd, hvalue, hpos, hle, hend⟩ :=
      decToBcd_writes d (by omega : 0 < n) (by omega : n ≤ buffer.length)
    rw [hs] at hcall
    obtain ⟨rfl, rfl⟩ := Prod.mk.inj hcall
    have hwhole : value s = d % 100 ^ n := by
      rcases hend with hend | hend
      · rw [hvalue, hend]
      · have hpow : 100 ^ s.length ≤ 100 ^ n := Nat.pow_le_pow_right (by decide) hle
        rw [hvalue, Nat.mod_eq_of_lt hend, Nat.mod_eq_of_lt (by omega)]
    have htake : (s ++ rest).take s.length = s := List.take_left
    have hsmall : value s < 2 ^ 31 := by
      have := Nat.mod_le d (100 ^ n)
      omega
    refine ⟨by omega, by omega, ?_, ?_⟩
    · rwa [Int.toNat_natCast, htake]
    · rw [hread _ s.length (by simp) (by rwa [htake]), htake, hwhole]
      push_cast
      rfl
  · intro bcd buffer hbcd hne hhead hvalue hbuffer
    refine ⟨by rw [hread bcd bcd.length le_rfl (by rwa [List.take_length]), List.take_length], ?_⟩
    obtain ⟨s, ⟨rest, hs⟩, hdigits, hsame, hpos, hle, hend⟩ :=
      decToBcd_writes (value bcd) (List.length_pos_iff.mpr hne) hbuffer
    have hlt := value_lt hbcd
    have hlength : s.length = bcd.length := by
      rcases hend with hend | hend
      · exact hend
      · rcases hhead with hhead | rfl
        · cases bcd with
          | nil => exact absurd rfl hne
          | cons b bcd =>
              have hb : tmp b ≠ 0 := by
                intro hzero
                apply hhead
                have hpair := (hbcd b List.mem_cons_self).pair_tmp
                rw [hzero] at hpair
                rw [← hpair]
                rfl
              have hpow := (le_value hb bcd).trans_lt hend
              have := (Nat.pow_lt_pow_iff_right (by decide : 1 < 100)).mp hpow
              rw [List.length_cons] at hle ⊢
              omega
        · exact le_antisymm hle hpos
    rw [hlength, Nat.mod_eq_of_lt hlt] at hsame
    rw [hs, eq_of_value hdigits hbcd hlength hsame]
    exact ⟨rest, rfl⟩

theorem bcd_round_trip_1203 :
    ((bcdToDec 32 [0x12, 0x03] 2).toNat : ℤ) = 1203 % 100 ^ 2 ∧
      ∃ rest, decToBcd (value [0x12, 0x03]) [7, 7, 7] 2 = (2, [0x12, 0x03] ++ rest) :=
  have htrip := bcd_round_trip (w := 32) le_rfl
  ⟨(htrip.1 1203 2 [7, 7] (by decide) (by decide) (by decide) (by decide) 2 [0x12, 0x03]
      (by decide)).2.2.2,
    (htrip.2 [0x12, 0x03] [7, 7, 7] (by decide +kernel) (by decide) (.inl (by decide)) (by decide)
      (by decide)).2⟩

end CoreLooper.BcdTool
