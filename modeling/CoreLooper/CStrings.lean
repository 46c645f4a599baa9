import Mathlib

/-!
# C strings as byte lists

`strstr`, `strcasestr`, `atoi` and the `%d` conversion of the C library, on lists of
bytes, with the facts about concatenation that parsers and encoders of text protocols
need. `long` has 64 bits and `int` has 32.
-/
namespace CoreLooper.CStrings

abbrev Bytes := List UInt8

/-- The bytes of an ASCII text. -/
def ascii (s : String) : Bytes := s.toList.map fun c => c.toNat.toUInt8

/-- The C string at the start of some memory: what stands before the first null. -/
def cstr (m : Bytes) : Bytes := m.takeWhile (· ≠ 0)

/-- The offset of the first occurrence of `needle`. -/
def strstr : Bytes → Bytes → Option ℕ
  | [], needle => if needle.isPrefixOf [] then some 0 else none
  | c :: hay, needle =>
      if needle.isPrefixOf (c :: hay) then some 0 else (strstr hay needle).map (· + 1)

def toLower (c : UInt8) : UInt8 := if 65 ≤ c ∧ c ≤ 90 then c + 32 else c

def strcasestr (hay needle : Bytes) : Option ℕ := strstr (hay.map toLower) (needle.map toLower)

def isspace (c : UInt8) : Bool := c = 32 ∨ 9 ≤ c ∧ c ≤ 13

def isdigit (c : UInt8) : Bool := 48 ≤ c ∧ c ≤ 57

/-- Conversion to a 32-bit `int`. -/
def i32 (x : ℤ) : ℤ := x.bmod (2 ^ 32)

/-- The number the leading digits stand for. -/
def digitsValue (s : Bytes) : ℕ :=
  (s.takeWhile isdigit).foldl (fun a c => a * 10 + (c.toNat - 48)) 0

/-- `strtol` with base 10: a value out of range is the nearest `long`. -/
def strtol (s : Bytes) : ℤ :=
  let s := s.dropWhile isspace
  if s.head? = some 45 then max (-(digitsValue s.tail : ℤ)) (-2 ^ 63)
  else if s.head? = some 43 then min (digitsValue s.tail : ℤ) (2 ^ 63 - 1)
  else min (digitsValue s : ℤ) (2 ^ 63 - 1)

def atoi (s : Bytes) : ℤ := i32 (strtol s)

/-- The text of `%d`. -/
def decimal (n : ℤ) : Bytes :=
  let digits := (Nat.toDigits 10 n.natAbs).map fun c => c.toNat.toUInt8
  if n < 0 then 45 :: digits else digits

section Search
variable {h n x : Bytes} {c : UInt8} {i : ℕ}

theorem strstr_cons (c : UInt8) (h n : Bytes) : strstr (c :: h) n =
    if n <+: c :: h then some 0 else (strstr h n).map (· + 1) := by
  simp only [strstr, List.isPrefixOf_iff_prefix]

theorem strstr_here (hp : n <+: h) : strstr h n = some 0 := by
  cases h with
  | nil => simp [strstr, List.prefix_nil.mp hp]
  | cons c h => rw [strstr_cons, if_pos hp]

theorem strstr_next (hp : ¬ n <+: c :: h) : strstr (c :: h) n = (strstr h n).map (· + 1) := by
  rw [strstr_cons, if_neg hp]

/-- An occurrence was found where the needle stands. -/
theorem strstr_found (hi : strstr h n = some i) : n <+: h.drop i := by
  induction h generalizing i with
  | nil =>
      by_cases hn : n = []
      · rw [hn]
        exact List.nil_prefix
      · simp [strstr, List.isPrefixOf_iff_prefix, hn] at hi
  | cons c h ih =>
      rw [strstr_cons] at hi
      split_ifs at hi with hp
      · cases hi
        exact hp
      · obtain ⟨j, hj, rfl⟩ := Option.map_eq_some_iff.mp hi
        exact ih hj

theorem strstr_add_length_le (hi : strstr h n = some i) : i + n.length ≤ h.length := by
  induction h generalizing i with
  | nil =>
      have hp := (strstr_found hi).length_le
      by_cases hn : n = []
      · subst hn
        simp [strstr] at hi
        simp [← hi]
      · simp [strstr, List.isPrefixOf_iff_prefix, hn] at hi
  | cons c h ih =>
      rw [strstr_cons] at hi
      split_ifs at hi with hp
      · cases hi
        simpa using hp.length_le
      · obtain ⟨j, hj, rfl⟩ := Option.map_eq_some_iff.mp hi
        have := ih hj
        simp only [List.length_cons]
        omega

/-- There is no occurrence before the first. -/
theorem strstr_first (hi : strstr h n = some i) {j : ℕ} (hj : j < i) : ¬ n <+: h.drop j := by
  induction h generalizing i j with
  | nil =>
      have := strstr_add_length_le hi
      simp at this
      omega
  | cons c h ih =>
      rw [strstr_cons] at hi
      split_ifs at hi with hp
      · cases hi
        omega
      · obtain ⟨k, hk, rfl⟩ := Option.map_eq_some_iff.mp hi
        cases j with
        | zero => exact hp
        | succ j => exact ih hk (by omega)

/-- Where the needle stands, and nowhere before, is what is found. -/
theorem strstr_eq (hp : n <+: h.drop i) (hfirst : ∀ j < i, ¬ n <+: h.drop j) (hle : i ≤ h.length) :
    strstr h n = some i := by
  induction h generalizing i with
  | nil =>
      obtain rfl : i = 0 := by simpa using hle
      exact strstr_here hp
  | cons c h ih =>
      cases i with
      | zero => exact strstr_here hp
      | succ i =>
          rw [strstr_next (hfirst 0 (Nat.succ_pos i)), ih hp
            (fun j hj => hfirst (j + 1) (by omega)) (by simpa using hle), Option.map_some]

/-- Where the needle stands somewhere, an occurrence is found. -/
theorem strstr_isSome (hp : n <+: h.drop i) : (strstr h n).isSome := by
  induction h generalizing i with
  | nil =>
      rw [List.drop_nil] at hp
      rw [strstr_here hp]
      rfl
  | cons c h ih =>
      rw [strstr_cons]
      split_ifs with hhere
      · rfl
      · cases i with
        | zero => exact absurd hp hhere
        | succ i => rw [Option.isSome_map, ih hp]

/-- What is found stays found when more text follows. -/
theorem strstr_append (hi : strstr h n = some i) (x : Bytes) : strstr (h ++ x) n = some i := by
  have hlen := strstr_add_length_le hi
  refine strstr_eq ?_ (fun j hj hp => ?_) (by simp; omega)
  · rw [List.drop_append_of_le_length (by omega)]
    exact (strstr_found hi).trans (List.prefix_append _ _)
  · rw [List.drop_append_of_le_length (by omega)] at hp
    refine strstr_first hi hj (List.prefix_of_prefix_length_le hp (List.prefix_append _ _) ?_)
    rw [List.length_drop]
    omega

/-- What is found in a longer text and fits the shorter one is found there too. -/
theorem strstr_of_append (hi : strstr (h ++ x) n = some i) (hle : i + n.length ≤ h.length) :
    strstr h n = some i := by
  have hdrop : ∀ j ≤ i, (h ++ x).drop j = h.drop j ++ x := fun j hj =>
    List.drop_append_of_le_length (by omega)
  refine strstr_eq ?_ (fun j hj hp => ?_) (by omega)
  · have hp := strstr_found hi
    rw [hdrop i (Nat.le_refl i)] at hp
    refine List.prefix_of_prefix_length_le hp (List.prefix_append _ _) ?_
    rw [List.length_drop]
    omega
  · refine strstr_first hi hj ?_
    rw [hdrop j (Nat.le_of_lt hj)]
    exact hp.trans (List.prefix_append _ _)

/-- Text at which no occurrence starts is passed over. -/
theorem strstr_pass {a : Bytes} (ha : ∀ j < a.length, ¬ n <+: (a ++ h).drop j) :
    strstr (a ++ h) n = (strstr h n).map (a.length + ·) := by
  induction a with
  | nil => simp
  | cons b a ih =>
      have hhere : ¬ n <+: b :: (a ++ h) := ha 0 (by simp)
      have hlater := ih fun j hj => ha (j + 1) (by simpa using hj)
      rw [List.cons_append, strstr_next hhere, hlater, Option.map_map]
      congr 1
      funext k
      simp only [Function.comp, List.length_cons]
      omega

/-- No occurrence starts in `a`, neither inside it nor over its end. -/
theorem strstr_front {a : Bytes} (ha : ¬ n <:+: a)
    (hover : ∀ i, 0 < i → i < n.length → ¬ n.drop i <+: h) :
    strstr (a ++ h) n = (strstr h n).map (a.length + ·) := by
  apply strstr_pass
  intro j hj hp
  rw [List.drop_append_of_le_length (Nat.le_of_lt hj)] at hp
  by_cases hin : n.length ≤ (a.drop j).length
  · apply ha
    have hinside := List.prefix_of_prefix_length_le hp (List.prefix_append _ _) hin
    exact hinside.isInfix.trans (List.drop_suffix j a).isInfix
  · have hlen : (a.drop j).length = a.length - j := List.length_drop
    apply hover (a.length - j) (by omega) (by omega)
    obtain ⟨y, hy⟩ := hp
    have hcut : (n ++ y).drop (a.length - j) = h := by rw [hy, ← hlen, List.drop_left]
    rw [List.drop_append_of_le_length (by omega)] at hcut
    exact ⟨y, hcut⟩

/-- A needle whose first byte is nowhere else in it is found behind text that does not have it. -/
theorem strstr_after {a : Bytes} (ha : ¬ c :: n <:+: a) (hc : c ∉ n) (x : Bytes) :
    strstr (a ++ (c :: n ++ x)) (c :: n) = some a.length := by
  rw [strstr_front ha, strstr_here (List.prefix_append _ _)]
  · rfl
  · intro i hi hlt hp
    match i, hi with
    | i + 1, _ =>
        rw [List.drop_succ_cons] at hp
        rw [List.length_cons] at hlt
        have hget : n.drop i ≠ [] := by
          apply List.ne_nil_of_length_pos
          rw [List.length_drop]
          omega
        obtain ⟨d, rest, hd⟩ := List.exists_cons_of_ne_nil hget
        rw [hd, List.cons_append, List.cons_prefix_cons] at hp
        apply hc
        rw [← hp.1]
        exact List.mem_of_mem_drop (by rw [hd]; exact List.mem_cons_self)

/-- Text without the first byte of the needle is passed over. -/
theorem strstr_skip {a : Bytes} (ha : c ∉ a) :
    strstr (a ++ h) (c :: n) = (strstr h (c :: n)).map (a.length + ·) := by
  refine strstr_pass fun j hj hp => ha ?_
  rw [List.drop_append_of_le_length (Nat.le_of_lt hj), List.drop_eq_getElem_cons hj,
    List.cons_append, List.cons_prefix_cons] at hp
  rw [hp.1]
  exact List.getElem_mem hj

theorem strstr_absent {a : Bytes} (ha : c ∉ a) : strstr a (c :: n) = none := by
  have hskip := strstr_skip (h := []) (n := n) ha
  rwa [List.append_nil] at hskip

/-- An occurrence that starts before a byte the needle has only in front ends before it. -/
theorem occurrence_before {p t : ℕ} (hp : c :: n <+: h.drop p) (hc : c ∉ n) (hpt : p < t)
    (ht : h[t]? = some c) : p + (c :: n).length ≤ t := by
  by_contra hlt
  obtain ⟨d, rfl⟩ := Nat.exists_eq_add_of_lt hpt
  have hd : d < n.length := by
    simp only [List.length_cons] at hlt
    omega
  obtain ⟨y, hy⟩ := hp
  have hget : h[p + d + 1]? = some n[d] := by
    have hx : (h.drop p)[d + 1]? = some n[d] := by
      rw [← hy]
      simp [List.getElem?_append_left hd]
    rw [List.getElem?_drop] at hx
    rw [← hx]
    rw [Nat.add_assoc]
  rw [hget] at ht
  exact hc (by rw [← Option.some.inj ht]; exact List.getElem_mem hd)

end Search

section Memory
variable {m x : Bytes}

theorem cstr_not_mem (m : Bytes) : (0 : UInt8) ∉ cstr m := by
  intro hm
  have := List.mem_takeWhile_imp hm
  simp at this

theorem cstr_starts (m : Bytes) : cstr m <+: m := List.takeWhile_prefix _

theorem cstr_eq_self (hm : (0 : UInt8) ∉ m) : cstr m = m := by
  refine List.takeWhile_eq_self_iff.mpr fun c hc => ?_
  simp only [decide_eq_true_eq]
  rintro rfl
  exact hm hc

theorem cstr_append (hm : (0 : UInt8) ∉ m) (x : Bytes) : cstr (m ++ x) = m ++ cstr x := by
  refine List.takeWhile_append_of_pos fun c hc => ?_
  simp only [decide_eq_true_eq]
  rintro rfl
  exact hm hc

/-- What stands before a null. -/
theorem cstr_terminated (hm : (0 : UInt8) ∉ m) (x : Bytes) : cstr (m ++ 0 :: x) = m := by
  rw [cstr_append hm]
  exact List.append_nil m

/-- The string that starts inside another one. -/
theorem cstr_drop {k : ℕ} (hk : k ≤ (cstr m).length) : cstr (m.drop k) = (cstr m).drop k := by
  induction m generalizing k with
  | nil => simp [cstr]
  | cons c m ih =>
      cases k with
      | zero => rfl
      | succ k =>
          by_cases hc : c = 0
          · simp [cstr, hc] at hk
          · have htail : cstr (c :: m) = c :: cstr m := by simp [cstr, hc]
            rw [htail, List.length_cons] at hk
            rw [htail, List.drop_succ_cons, List.drop_succ_cons, ih (by omega)]

/-- More memory can only lengthen the string. -/
theorem cstr_append_starts (m x : Bytes) : ∃ y, cstr (m ++ x) = cstr m ++ y := by
  induction m with
  | nil => exact ⟨cstr x, rfl⟩
  | cons c m ih =>
      obtain ⟨y, hy⟩ := ih
      by_cases hc : c = 0
      · exact ⟨[], by simp [cstr, hc]⟩
      · refine ⟨y, ?_⟩
        simp only [cstr, List.cons_append, List.takeWhile_cons] at hy ⊢
        simp only [hc, ne_eq, not_false_eq_true, decide_true, if_true, hy, List.cons_append]

end Memory

section Numbers
variable {s t v : Bytes} {c : UInt8}

/-- Leading white space does not matter. -/
theorem strtol_space (hv : ∀ c ∈ v, isspace c = true) (t : Bytes) : strtol (v ++ t) = strtol t := by
  have hdrop : (v ++ t).dropWhile isspace = t.dropWhile isspace := by
    rw [List.dropWhile_append, List.dropWhile_eq_nil_iff.mpr hv]
    simp
  rw [strtol, hdrop]
  rfl

theorem atoi_space (hv : ∀ c ∈ v, isspace c = true) (t : Bytes) : atoi (v ++ t) = atoi t := by
  rw [atoi, strtol_space hv, ← atoi]

theorem digitsValue_stop (hc : isdigit c = false) (s t : Bytes) :
    digitsValue (s ++ c :: t) = digitsValue s := by
  unfold digitsValue
  have htake : (s ++ c :: t).takeWhile isdigit = s.takeWhile isdigit := by
    rw [List.takeWhile_append]
    split_ifs with hall
    · rw [List.takeWhile_cons, hc]
      simpa using (List.takeWhile_prefix isdigit (l := s)).eq_of_length hall |>.symm
    · rfl
  rw [htake]

/-- A text that is not all white space is read up to the first byte that is no digit. -/
theorem strtol_stop (hc : isdigit c = false) (hs : ∃ b ∈ s, isspace b = false) (t : Bytes) :
    strtol (s ++ c :: t) = strtol s := by
  obtain ⟨b, hb, hbs⟩ := hs
  have hne : s.dropWhile isspace ≠ [] := by
    intro hnil
    rw [List.dropWhile_eq_nil_iff.mp hnil b hb] at hbs
    cases hbs
  have hdrop : (s ++ c :: t).dropWhile isspace = s.dropWhile isspace ++ c :: t := by
    rw [List.dropWhile_append]
    split_ifs with hempty
    · exact absurd (List.isEmpty_iff.mp hempty) hne
    · rfl
  obtain ⟨d, r, hr⟩ := List.exists_cons_of_ne_nil hne
  have hcons : digitsValue (d :: (r ++ c :: t)) = digitsValue (d :: r) :=
    digitsValue_stop hc (d :: r) t
  simp only [strtol, hdrop, hr, List.cons_append, List.head?_cons, List.tail_cons,
    digitsValue_stop hc, hcons]

theorem atoi_stop (hc : isdigit c = false) (hs : ∃ b ∈ s, isspace b = false) (t : Bytes) :
    atoi (s ++ c :: t) = atoi s := by
  rw [atoi, strtol_stop hc hs, ← atoi]

theorem i32_eq {x : ℤ} (h : -2 ^ 31 ≤ x) (h' : x < 2 ^ 31) : i32 x = x := by
  unfold i32
  exact Int.bmod_eq_of_le (by omega) (by omega)

theorem i32_bounds (x : ℤ) : -2 ^ 31 ≤ i32 x ∧ i32 x < 2 ^ 31 := by
  unfold i32
  constructor
  · have := Int.le_bmod (x := x) (m := 2 ^ 32) (by decide)
    omega
  · have := Int.bmod_lt (x := x) (m := 2 ^ 32) (by decide)
    omega

/-- The digits of `%d` are digits, and stand for the number. -/
theorem toDigits_bytes (n : ℕ) :
    (∀ c ∈ (Nat.toDigits 10 n).map fun c => c.toNat.toUInt8, isdigit c = true) ∧
      digitsValue ((Nat.toDigits 10 n).map fun c => c.toNat.toUInt8) = n := by
  have hbyte : ∀ c ∈ Nat.toDigits 10 n, 48 ≤ c.toNat ∧ c.toNat ≤ 57 := by
    intro c hc
    have hd := Nat.isDigit_of_mem_toDigits (by decide) (by decide) hc
    simp only [Char.isDigit, Bool.and_eq_true, decide_eq_true_eq] at hd
    exact ⟨hd.1, hd.2⟩
  have hnat : ∀ c ∈ Nat.toDigits 10 n, c.toNat.toUInt8.toNat = c.toNat := by
    intro c hc
    obtain ⟨-, h2⟩ := hbyte c hc
    simp only [UInt8.toNat_ofNat']
    omega
  have hdigits : ∀ c ∈ (Nat.toDigits 10 n).map fun c => c.toNat.toUInt8, isdigit c = true := by
    intro c hc
    obtain ⟨d, hd, rfl⟩ := List.mem_map.mp hc
    obtain ⟨h1, h2⟩ := hbyte d hd
    have := hnat d hd
    simp only [isdigit, UInt8.le_iff_toNat_le, decide_eq_true_eq]
    rw [this]
    exact ⟨h1, h2⟩
  refine ⟨hdigits, ?_⟩
  have hfold : ∀ (l : List Char) (a : ℕ), (∀ c ∈ l, c.toNat.toUInt8.toNat = c.toNat) →
      (l.map fun c => c.toNat.toUInt8).foldl (fun a c => a * 10 + (c.toNat - 48)) a =
        Nat.ofDigitChars 10 l a := by
    intro l
    induction l with
    | nil => intro a _; rfl
    | cons c l ih =>
        intro a hl
        rw [List.map_cons, List.foldl_cons, ih _ fun d hd => hl d (List.mem_cons_of_mem c hd),
          Nat.ofDigitChars_cons, hl c List.mem_cons_self, Nat.mul_comm]
        rfl
  rw [digitsValue, List.takeWhile_eq_self_iff.mpr hdigits, hfold _ 0 hnat,
    Nat.ofDigitChars_ten_toDigits]

theorem isspace_of_isdigit (hc : isdigit c = true) : isspace c = false := by
  simp only [isdigit, isspace, UInt8.le_iff_toNat_le, decide_eq_true_eq, decide_eq_false_iff_not,
    ← UInt8.toNat_inj] at hc ⊢
  simp at hc ⊢
  omega

/-- A text of digits alone is read as the number it stands for. -/
theorem atoi_digits (hs : ∀ c ∈ s, isdigit c = true) (hsize : digitsValue s < 2 ^ 31) :
    atoi s = digitsValue s := by
  have hstrtol : strtol s = digitsValue s := by
    cases s with
    | nil => rfl
    | cons d r =>
        have hd := hs d List.mem_cons_self
        have hspace := isspace_of_isdigit hd
        have h45 : d ≠ 45 := by
          rintro rfl
          revert hd
          decide
        have h43 : d ≠ 43 := by
          rintro rfl
          revert hd
          decide
        simp only [strtol, List.dropWhile_cons, hspace, Bool.false_eq_true, if_false,
          List.head?_cons, Option.some.injEq, h45, h43]
        omega
  rw [atoi, hstrtol, i32_eq (by omega) (by omega)]

/-- The bytes `%d` writes. -/
theorem mem_decimal {n : ℤ} (hc : c ∈ decimal n) : c = 45 ∨ isdigit c = true := by
  unfold decimal at hc
  split_ifs at hc
  · rcases List.mem_cons.mp hc with rfl | hc
    · exact Or.inl rfl
    · exact Or.inr ((toDigits_bytes _).1 c hc)
  · exact Or.inr ((toDigits_bytes _).1 c hc)

theorem decimal_digits (n : ℕ) :
    (∀ c ∈ decimal n, isdigit c = true) ∧ digitsValue (decimal n) = n := by
  rw [decimal, if_neg (by omega), Int.natAbs_natCast]
  exact toDigits_bytes n

theorem atoi_decimal {n : ℕ} (hn : n < 2 ^ 31) : atoi (decimal n) = n := by
  obtain ⟨hdigits, hvalue⟩ := decimal_digits n
  rw [atoi_digits hdigits (by rwa [hvalue]), hvalue]

theorem decimal_ne_nil (n : ℕ) : decimal n ≠ [] := by
  rw [decimal, if_neg (by omega), ne_eq, List.map_eq_nil_iff]
  exact Nat.toDigits_ne_nil

/-- `%d` writes different numbers differently. -/
theorem decimal_inj {m n : ℕ} (h : decimal m = decimal n) : m = n := by
  rw [← (decimal_digits m).2, h, (decimal_digits n).2]

end Numbers
end CoreLooper.CStrings
