import CoreLooper.HttpParams
import CoreLooper.Sctp

/-!
# `%xx` and back

The program writes bytes as `%xx` in three places, `encodeURIComponent` and `UrlEncode`, which
leave some characters as they are, and `PercentHexString`. All of them are read by
`EscapeUrlString`, here with the length of the text as the `int` it is kept in.
-/
namespace CoreLooper.Http
open CStrings
open Sctp (hexDigit)

/-- The loop of `EscapeUrlString` with so many bytes to go; `sscanf` may look beyond them. -/
def unescapeLoop (junk : Bytes → UInt8) : ℕ → Bytes → Bytes
  | 0, _ => []
  | _ + 1, [] => []
  | nc + 1, c :: text =>
      if c = 37 then
        (scanHex text).getD (junk text) :: unescapeLoop junk (nc - 2) (text.drop 2)
      else c :: unescapeLoop junk nc text
  termination_by nc => nc

/-- A text without `%` stays as it is. -/
def escapeUrl (junk : Bytes → UInt8) (psz : Bytes) : Bytes :=
  if 37 ∈ psz then cstr (unescapeLoop junk (i32 psz.length).toNat psz) else psz

/-- The characters `encodeURIComponent` leaves alone; `strchr` finds the null as well. -/
def isDirectChar (ch : UInt8) : Bool :=
  isdigit ch ∨ 97 ≤ ch ∧ ch ≤ 122 ∨ 65 ≤ ch ∧ ch ≤ 90 ∨ ch ∈ ascii "-~!*()_'." ∨ ch = 0

/-- `%02X`, or `%X%X` of the two halves. -/
def percentHex (ch : UInt8) : Bytes := [37, hexDigit (ch.toNat / 16), hexDigit (ch.toNat % 16)]

/-- `%hhX` has one digit for a small byte. -/
def encodeChar (ch : UInt8) : Bytes :=
  if isDirectChar ch then [ch]
  else if ch.toNat < 16 then [37, hexDigit ch.toNat]
  else percentHex ch

/-- The length is an `int`. -/
def encodeURIComponent (value : Bytes) : Bytes :=
  (value.take (i32 value.length).toNat).flatMap encodeChar

def urlEncode (str : Bytes) : Bytes :=
  str.flatMap fun ch => if isalnum ch ∨ ch = 45 then [ch] else percentHex ch

def percentHexString (text : Bytes) : Bytes := text.flatMap percentHex

section
variable {junk : Bytes → UInt8} {s t : Bytes} {b c : UInt8} {n : ℕ}

theorem unescapeLoop_length (nc : ℕ) (text : Bytes) :
    (unescapeLoop junk nc text).length ≤ nc := by
  induction nc using Nat.strong_induction_on generalizing text with
  | _ nc ih =>
      cases nc with
      | zero => simp [unescapeLoop]
      | succ nc =>
          cases text with
          | nil => simp [unescapeLoop]
          | cons c text =>
              have hskip := ih (nc - 2) (by omega) (text.drop 2)
              have hnext := ih nc (by omega) text
              rw [unescapeLoop]
              split_ifs
              · rw [List.length_cons]
                omega
              · rw [List.length_cons]
                omega

/-- With the whole text to go, the loop is the one without a length. -/
theorem unescapeLoop_all (text : Bytes) : unescapeLoop junk text.length text =
    unescape junk text := by
  fun_induction unescape junk text with
  | case1 => simp [unescapeLoop]
  | case2 c =>
      rw [List.length_singleton, unescapeLoop]
      split_ifs
      · simp [unescapeLoop]
      · simp [unescapeLoop]
  | case3 a =>
      rw [List.length_cons, List.length_singleton, unescapeLoop, if_pos rfl]
      simp [unescapeLoop]
  | case4 c a hc ih =>
      rw [List.length_cons, unescapeLoop, if_neg hc, ih]
  | case5 a b rest ih =>
      rw [List.length_cons, unescapeLoop, if_pos rfl, List.drop_succ_cons, List.drop_succ_cons,
        List.drop_zero, List.length_cons, List.length_cons, Nat.add_assoc, Nat.add_sub_cancel, ih]
  | case6 c a b rest hc ih =>
      rw [List.length_cons, unescapeLoop, if_neg hc, ih]

/-- Below the range of `int` nothing else happens. -/
theorem escapeUrl_eq (hnull : 0 ∉ s) (hlen : s.length < 2 ^ 31) :
    escapeUrl junk s = escapeUrlString junk s := by
  have hint : i32 s.length = s.length := i32_eq (by omega) (by omega)
  rw [escapeUrl, escapeUrlString, hint, Int.toNat_natCast, unescapeLoop_all]
  split_ifs with hpercent
  · rfl
  · have hplain := @unescape_plain _ junk hpercent []
    rw [List.append_nil] at hplain
    rw [hplain, unescape, List.append_nil, cstr_eq_self hnull]

/-- A hexadecimal digit is left alone, and the characters that are are no `%`. -/
theorem hexDigit_facts : ∀ d < 16, hexValue (hexDigit d) = some d ∧ hexDigit d ≠ 0 ∧
    isDirectChar (hexDigit d) = true ∧ (d ≠ 0 → hexDigit d ≠ 48) ∧ 16 ≤ (hexDigit d).toNat := by
  decide +kernel

theorem direct_facts (hc : isDirectChar c = true) (h0 : c ≠ 0) : c ≠ 37 ∧ 16 ≤ c.toNat := by
  have hall : ∀ n < 256, isDirectChar (UInt8.ofNat n) = true → n ≠ 0 →
      UInt8.ofNat n ≠ 37 ∧ 16 ≤ n := by decide +kernel
  have hmine := hall c.toNat c.toNat_lt
  rw [UInt8.ofNat_toNat] at hmine
  refine hmine hc fun hzero => h0 ?_
  rw [← UInt8.toNat_inj]
  exact hzero

theorem halves (c : UInt8) : (c.toNat / 16 * 16 + c.toNat % 16).toUInt8 = c := by
  rw [Nat.div_add_mod']
  exact UInt8.ofNat_toNat

/-- Two digits are read back, whatever comes behind them. -/
theorem unescape_percentHex (c : UInt8) (t : Bytes) :
    unescape junk (percentHex c ++ t) = c :: unescape junk t := by
  have hlt := c.toNat_lt
  have hhi := (hexDigit_facts (c.toNat / 16) (by omega)).1
  have hlo := (hexDigit_facts (c.toNat % 16) (by omega)).1
  rw [percentHex, List.cons_append, List.cons_append, List.cons_append, List.nil_append, unescape,
    if_pos rfl, scanHex_digits hhi hlo, halves]
  rfl

/-- One digit takes the next character with it when that is a digit too. -/
theorem scanHex_digit {h : UInt8} {m : ℕ} (hm : hexValue h = some m) (h48 : h ≠ 48)
    (ht : t.head?.bind hexValue = none) : scanHex (h :: t) = some m.toUInt8 := by
  obtain ⟨hspace, h45, h43, -⟩ := hexValue_some hm
  have hdrop : (h :: t).dropWhile isspace = h :: t := by
    rw [List.dropWhile_cons, hspace]
    rfl
  have hdigits : hexDigits 2 (h :: t) = some m := by
    simp [hexDigits, hm, ht]
  rw [scanHex, hdrop]
  split
  · rename_i heq
    exact absurd (List.cons.inj heq).1 h45
  · rename_i heq
    exact absurd (List.cons.inj heq).1 h43
  · rename_i heq
    exact absurd (List.cons.inj heq).1 h48
  · rename_i heq
    exact absurd (List.cons.inj heq).1 h48
  · rw [hdigits]
    rfl

/-- The text of the characters, without the length. -/
def encoded (s : Bytes) : Bytes := s.flatMap encodeChar

theorem encoded_cons (c : UInt8) (s : Bytes) : encoded (c :: s) = encodeChar c ++ encoded s :=
  List.flatMap_cons

theorem encodeChar_length (c : UInt8) : (encodeChar c).length ≤ 3 := by
  unfold encodeChar
  split_ifs <;> simp [percentHex]

theorem encoded_length (s : Bytes) : (encoded s).length ≤ 3 * s.length := by
  induction s with
  | nil => rfl
  | cons c s ih =>
      have := encodeChar_length c
      rw [encoded_cons, List.length_append, List.length_cons]
      omega

theorem unescape_large (hc : 16 ≤ c.toNat) (t : Bytes) :
    unescape junk (encodeChar c ++ t) = c :: unescape junk t := by
  unfold encodeChar
  split_ifs with hdirect hsmall
  · have h0 : c ≠ 0 := by
      rintro rfl
      exact absurd hc (by decide)
    exact unescape_cons (direct_facts hdirect h0).1 t
  · omega
  · exact unescape_percentHex c t

theorem small_not_direct (hc : c.toNat < 16) (h0 : c ≠ 0) : isDirectChar c = false := by
  by_contra hdirect
  rw [Bool.not_eq_false] at hdirect
  have := (direct_facts hdirect h0).2
  omega

theorem encodeChar_small (hc : c.toNat < 16) (h0 : c ≠ 0) :
    encodeChar c = [37, hexDigit c.toNat] := by
  rw [encodeChar, small_not_direct hc h0, if_neg Bool.false_ne_true, if_pos hc]

theorem small_digit (hc : c.toNat < 16) (h0 : c ≠ 0) :
    hexValue (hexDigit c.toNat) = some c.toNat ∧ hexDigit c.toNat ≠ 48 := by
  obtain ⟨hvalue, -, -, h48, -⟩ := hexDigit_facts c.toNat hc
  refine ⟨hvalue, h48 fun hzero => h0 ?_⟩
  rw [← UInt8.toNat_inj]
  exact hzero

/-- The last byte needs no second digit. -/
theorem unescape_small_last (hc : c.toNat < 16) (h0 : c ≠ 0) :
    unescape junk (encodeChar c) = [c] := by
  obtain ⟨hvalue, h48⟩ := small_digit hc h0
  have hscan := scanHex_digit hvalue h48 (t := []) rfl
  rw [encodeChar_small hc h0, unescape, if_pos rfl, hscan]
  exact congrArg (fun d => [d]) UInt8.ofNat_toNat

/-- What the byte in front of `d` becomes. -/
def joined (b d : UInt8) : UInt8 :=
  match hexValue d with
  | some n => (b.toNat * 16 + n).toUInt8
  | none => b

theorem unescape_small (hb : b.toNat < 16) (h0 : b ≠ 0) (d : UInt8) (t : Bytes) :
    unescape junk (encodeChar b ++ d :: t) = joined b d :: unescape junk t := by
  obtain ⟨hvalue, h48⟩ := small_digit hb h0
  rw [encodeChar_small hb h0, List.cons_append, List.cons_append, List.nil_append, unescape,
    if_pos rfl, joined]
  cases hd : hexValue d with
  | some n => rw [scanHex_digits hvalue hd, Option.getD_some]
  | none =>
      rw [scanHex_digit hvalue h48 (by rw [List.head?_cons, Option.bind_some, hd]),
        Option.getD_some]
      exact congrArg (· :: unescape junk t) UInt8.ofNat_toNat

/-- Two digits make a byte of at least 16. -/
theorem joined_large (hb : b.toNat < 16) (h0 : b ≠ 0) {d : UInt8} (hd : hexValue d = some n) :
    16 ≤ (joined b d).toNat := by
  have hn : n < 16 := by
    unfold hexValue at hd
    split_ifs at hd with h1 h2 h3 <;> cases hd
    · have h1' : d.toNat ≤ 57 := h1.2
      omega
    · have h2' : d.toNat ≤ 70 := h2.2
      omega
    · have h3' : d.toNat ≤ 102 := h3.2
      omega
  have hpos : b.toNat ≠ 0 := fun hzero => h0 (by rw [← UInt8.toNat_inj]; exact hzero)
  have hval : (joined b d).toNat = (b.toNat * 16 + n) % 256 := by
    rw [joined, hd]
    rfl
  omega

/-- What comes behind a small byte: a character as it is, or a `%` and digits. -/
theorem unescape_pair (hb : b.toNat < 16) (h0 : b ≠ 0) (c : UInt8) (t : Bytes) :
    (isDirectChar c = true ∧ unescape junk (encodeChar b ++ (encodeChar c ++ t)) =
        joined b c :: unescape junk t) ∨
      isDirectChar c = false ∧ ∃ ds, ds ≠ [] ∧ (∀ d ∈ ds, 16 ≤ d.toNat ∧ isDirectChar d = true) ∧
        unescape junk (encodeChar b ++ (encodeChar c ++ t)) = b :: (ds ++ unescape junk t) := by
  have hpercent : joined b 37 = b := rfl
  have hlt := c.toNat_lt
  by_cases hdirect : isDirectChar c = true
  · refine Or.inl ⟨hdirect, ?_⟩
    rw [encodeChar.eq_def c, if_pos hdirect, List.singleton_append, unescape_small hb h0]
  · rw [Bool.not_eq_true] at hdirect
    refine Or.inr ⟨hdirect, ?_⟩
    rw [encodeChar.eq_def c, hdirect, if_neg Bool.false_ne_true]
    split_ifs with hsmall
    · obtain ⟨-, hd0, hddirect, -, hdlarge⟩ := hexDigit_facts c.toNat hsmall
      refine ⟨[hexDigit c.toNat], by simp, by simpa using ⟨hdlarge, hddirect⟩, ?_⟩
      rw [List.cons_append, unescape_small hb h0, hpercent, List.singleton_append,
        unescape_cons (direct_facts hddirect hd0).1, List.singleton_append]
    · obtain ⟨-, hh0, hhdirect, -, hhlarge⟩ := hexDigit_facts (c.toNat / 16) (by omega)
      obtain ⟨-, hl0, hldirect, -, hllarge⟩ := hexDigit_facts (c.toNat % 16) (by omega)
      refine ⟨[hexDigit (c.toNat / 16), hexDigit (c.toNat % 16)], by simp, ?_, ?_⟩
      · simp only [List.mem_cons, List.not_mem_nil, or_false, forall_eq_or_imp, forall_eq]
        exact ⟨⟨hhlarge, hhdirect⟩, hllarge, hldirect⟩
      · rw [percentHex, List.cons_append, unescape_small hb h0, hpercent, List.cons_append,
          List.cons_append, List.nil_append, unescape_cons (direct_facts hhdirect hh0).1,
          unescape_cons (direct_facts hldirect hl0).1]
        rfl

/-- What is read back for a text: a small byte takes the next character with it, or puts the digits
of the next one behind it. -/
inductive Reads : Bytes → Bytes → Prop where
  | nil : Reads [] []
  | large {s t : Bytes} (c : UInt8) : 16 ≤ c.toNat → Reads s t → Reads (c :: s) (c :: t)
  | last (b : UInt8) : b.toNat < 16 → b ≠ 0 → Reads [b] [b]
  | joined {s t : Bytes} (b c d : UInt8) : b.toNat < 16 → b ≠ 0 → 16 ≤ c.toNat →
      d = b ∨ 16 ≤ d.toNat → Reads s t → Reads (b :: c :: s) (d :: t)
  | spread {s t : Bytes} (b c : UInt8) (ds : Bytes) : b.toNat < 16 → b ≠ 0 →
      isDirectChar c = false → ds ≠ [] → (∀ d ∈ ds, 16 ≤ d.toNat ∧ isDirectChar d = true) →
      Reads s t → Reads (b :: c :: s) (b :: (ds ++ t))

theorem reads_unescape (hnull : 0 ∉ s) : Reads s (unescape junk (encoded s)) := by
  induction hlen : s.length using Nat.strong_induction_on generalizing s with
  | _ n ih =>
      cases s with
      | nil => exact .nil
      | cons b s =>
          rw [List.mem_cons, not_or] at hnull
          obtain ⟨hb0, hs0⟩ := hnull
          rw [List.length_cons] at hlen
          rw [encoded_cons]
          by_cases hb : 16 ≤ b.toNat
          · rw [unescape_large hb]
            exact .large b hb (ih s.length (by omega) hs0 rfl)
          · rw [Nat.not_le] at hb
            cases s with
            | nil =>
                have hlast := @unescape_small_last junk _ hb (Ne.symm hb0)
                rw [encoded, List.flatMap_nil, List.append_nil, hlast]
                exact .last b hb (Ne.symm hb0)
            | cons c s =>
                rw [List.mem_cons, not_or] at hs0
                rw [List.length_cons] at hlen
                have hlater := ih s.length (by omega) hs0.2 rfl
                rw [encoded_cons]
                rcases @unescape_pair junk _ hb (Ne.symm hb0) c (encoded s) with
                  ⟨hdirect, heq⟩ | ⟨hdirect, ds, hne, hds, heq⟩
                · have hc := (direct_facts hdirect (Ne.symm hs0.1)).2
                  rw [heq]
                  refine .joined b c _ hb (Ne.symm hb0) hc ?_ hlater
                  cases hd : hexValue c with
                  | none => exact Or.inl (by rw [joined, hd])
                  | some n => exact Or.inr (joined_large hb (Ne.symm hb0) hd)
                · rw [heq]
                  exact .spread b c ds hb (Ne.symm hb0) hdirect hne hds hlater

/-- The number of small bytes. -/
def smallCount (s : Bytes) : ℕ := s.countP fun c => decide (c.toNat < 16)

theorem smallCount_cons (c : UInt8) (s : Bytes) :
    smallCount (c :: s) = smallCount s + if c.toNat < 16 then 1 else 0 := by
  rw [smallCount, List.countP_cons, smallCount]
  simp

theorem smallCount_large {ds : Bytes} (h : ∀ d ∈ ds, 16 ≤ d.toNat) (s : Bytes) :
    smallCount (ds ++ s) = smallCount s := by
  rw [smallCount, List.countP_append, smallCount, List.countP_eq_zero.mpr, Nat.zero_add]
  intro d hd
  have := h d hd
  simp only [decide_eq_true_eq]
  omega

/-- Reading back makes no small bytes. -/
theorem Reads.smallCount_le (h : Reads s t) : smallCount t ≤ smallCount s := by
  induction h with
  | nil => exact Nat.le_refl _
  | large c hc _ ih =>
      rw [smallCount_cons, smallCount_cons]
      omega
  | last b hb _ => exact Nat.le_refl _
  | joined b c d hb _ hc _ _ ih =>
      rw [smallCount_cons, smallCount_cons, smallCount_cons, if_pos hb]
      split_ifs <;> omega
  | spread b c ds hb _ _ _ hds _ ih =>
      rw [smallCount_cons, smallCount_cons, smallCount_cons, if_pos hb,
        smallCount_large fun d hd => (hds d hd).1]
      omega

theorem zero_small {d : UInt8} (hd : 16 ≤ d.toNat) : d ≠ 0 := by
  rintro rfl
  exact absurd hd (by decide)

theorem Reads.not_null (h : Reads s t) : 0 ∉ t := by
  induction h with
  | nil => simp
  | large c hc _ ih => simpa [Ne.symm (zero_small hc)] using ih
  | last b _ hb => simpa using Ne.symm hb
  | joined b c d _ hb _ hd _ ih =>
      have hd0 : d ≠ 0 := by
        rcases hd with rfl | hd
        · exact hb
        · exact zero_small hd
      simpa [Ne.symm hd0] using ih
  | spread b c ds _ hb _ _ hds _ ih =>
      have hds0 : 0 ∉ ds := fun hmem => zero_small (hds 0 hmem).1 rfl
      simpa [Ne.symm hb, hds0] using ih

/-- No text is read back with a large byte more in front. -/
theorem Reads.no_shift (h : Reads s t) (hc : 16 ≤ c.toNat) : t ≠ c :: s := by
  induction h generalizing c with
  | nil => simp
  | large b hb _ ih =>
      intro heq
      exact ih hb (List.cons.inj heq).2
  | last b hb _ => simp
  | @joined s t b d e hb _ hd _ hrest ih =>
      intro heq
      -- the small byte would have to come from what is behind it
      have hcount := hrest.smallCount_le
      rw [(List.cons.inj heq).2, smallCount_cons, smallCount_cons, if_pos hb] at hcount
      omega
  | spread b d ds hb _ _ _ _ _ ih =>
      intro heq
      rw [(List.cons.inj heq).1] at hb
      omega

/-- A small byte is read back only at the end. -/
theorem Reads.same_iff (h : Reads s t) : t = s ↔ ∀ b ∈ s.dropLast, 16 ≤ b.toNat := by
  induction h with
  | nil => simp
  | @large s t c hc _ ih =>
      rw [List.cons_inj_right, ih]
      cases s with
      | nil => simp
      | cons d s => simp [hc]
  | last b hb _ => simp
  | joined b c d hb _ hc _ hrest _ =>
      refine iff_of_false ?_ fun hall => ?_
      · intro heq
        exact hrest.no_shift hc (List.cons.inj heq).2
      · have := hall b (by simp)
        omega
  | spread b c ds hb _ hdirect hne hds _ _ =>
      refine iff_of_false ?_ fun hall => ?_
      · intro heq
        obtain ⟨d, ds, rfl⟩ := List.exists_cons_of_ne_nil hne
        have hd := (hds d List.mem_cons_self).2
        rw [(List.cons.inj (List.cons.inj heq).2).1, hdirect] at hd
        cases hd
      · have := hall b (by simp)
        omega

theorem percentHex_not_null (c : UInt8) : 0 ∉ percentHex c := by
  have hlt := c.toNat_lt
  have hhi := (hexDigit_facts (c.toNat / 16) (by omega)).2.1
  have hlo := (hexDigit_facts (c.toNat % 16) (by omega)).2.1
  simp only [percentHex, List.mem_cons, List.not_mem_nil, or_false, not_or]
  exact ⟨by decide, Ne.symm hhi, Ne.symm hlo⟩

theorem encoded_not_null (hnull : 0 ∉ s) : 0 ∉ encoded s := by
  rw [encoded, List.mem_flatMap]
  rintro ⟨c, hc, hmem⟩
  have h0 : c ≠ 0 := by
    rintro rfl
    exact hnull hc
  unfold encodeChar at hmem
  split_ifs at hmem with hdirect hsmall
  · rw [List.mem_singleton] at hmem
    exact h0 hmem.symm
  · simp only [List.mem_cons, List.not_mem_nil, or_false] at hmem
    rcases hmem with hmem | hmem
    · cases hmem
    · exact (hexDigit_facts c.toNat hsmall).2.1 hmem.symm
  · exact percentHex_not_null c hmem

theorem urlEncode_cons (c : UInt8) (s : Bytes) : urlEncode (c :: s) =
    (if isalnum c ∨ c = 45 then [c] else percentHex c) ++ urlEncode s := List.flatMap_cons

theorem urlEncode_not_null (hnull : 0 ∉ s) : 0 ∉ urlEncode s := by
  rw [urlEncode, List.mem_flatMap]
  rintro ⟨c, hc, hmem⟩
  split_ifs at hmem with hplain
  · rw [List.mem_singleton] at hmem
    exact hnull (by rw [hmem]; exact hc)
  · exact percentHex_not_null c hmem

theorem urlEncode_length (s : Bytes) : (urlEncode s).length ≤ 3 * s.length := by
  induction s with
  | nil => rfl
  | cons c s ih =>
      rw [urlEncode_cons, List.length_append, List.length_cons]
      split_ifs
      · rw [List.length_singleton]
        omega
      · rw [percentHex, List.length_cons, List.length_cons, List.length_singleton]
        omega

theorem unescape_urlEncode (s : Bytes) : unescape junk (urlEncode s) = s := by
  induction s with
  | nil => rfl
  | cons c s ih =>
      rw [urlEncode_cons]
      split_ifs with hplain
      · have hc : c ≠ 37 := by
          rintro rfl
          revert hplain
          decide
        rw [List.singleton_append, unescape_cons hc, ih]
      · rw [unescape_percentHex, ih]

theorem percentHexString_cons (c : UInt8) (s : Bytes) :
    percentHexString (c :: s) = percentHex c ++ percentHexString s := List.flatMap_cons

theorem percentHexString_length (s : Bytes) : (percentHexString s).length = 3 * s.length := by
  induction s with
  | nil => rfl
  | cons c s ih =>
      rw [percentHexString_cons, List.length_append, ih, percentHex, List.length_cons,
        List.length_cons, List.length_singleton, List.length_cons]
      omega

theorem unescape_percentHexString (s : Bytes) : unescape junk (percentHexString s) = s := by
  induction s with
  | nil => rfl
  | cons c s ih => rw [percentHexString_cons, unescape_percentHex, ih]

theorem percentHexString_not_null (s : Bytes) : 0 ∉ percentHexString s := by
  rw [percentHexString, List.mem_flatMap]
  rintro ⟨c, -, hmem⟩
  exact percentHex_not_null c hmem

theorem i32_wraps {n : ℕ} (h : 2 ^ 31 ≤ 3 * n) : (i32 (3 * n : ℕ)).toNat < n := by
  have hwhole : i32 (3 * n : ℕ) + 2 ^ 32 * Int.bdiv (3 * n : ℕ) (2 ^ 32) = (3 * n : ℕ) :=
    Int.bmod_add_bdiv _ _
  have hbounds := i32_bounds (3 * n : ℕ)
  rcases lt_or_ge 0 (Int.bdiv (3 * n : ℕ) (2 ^ 32)) with hpos | hneg
  · omega
  · omega

/-- Where the length of the text does not fit the `int`, the loop ends too early. -/
theorem percentHexString_long (hlong : 2 ^ 31 ≤ 3 * s.length) :
    escapeUrl junk (percentHexString s) ≠ s := by
  intro heq
  have hlen := percentHexString_length s
  have hpercent : 37 ∈ percentHexString s := by
    cases s with
    | nil => simp at hlong
    | cons c s =>
        rw [percentHexString_cons, percentHex]
        simp
  rw [escapeUrl, if_pos hpercent, hlen] at heq
  have hshort := @unescapeLoop_length junk (i32 (3 * s.length : ℕ)).toNat
    (percentHexString s)
  have hcstr := (cstr_starts (unescapeLoop junk (i32 (3 * s.length : ℕ)).toNat
    (percentHexString s))).length_le
  have hwrap := i32_wraps hlong
  rw [heq] at hcstr
  omega

theorem escapeUrl_short (hnull : 0 ∉ t) (hlen : t.length < 2 ^ 31) (hs : 0 ∉ s)
    (hread : unescape junk t = s) : escapeUrl junk t = s := by
  rw [escapeUrl_eq hnull hlen, escapeUrlString, hread, cstr_eq_self hs]

/-- All three encoders are undone if and only if no byte below 16 stands before the last one, and
the text is short enough for an `int`. -/
theorem escapeUrl_iff (junk : Bytes → UInt8) (hnull : 0 ∉ s) :
    (escapeUrl junk (encodeURIComponent s) = s ∧ escapeUrl junk (urlEncode s) = s ∧
        escapeUrl junk (percentHexString s) = s) ↔
      (∀ b ∈ s.dropLast, 16 ≤ b.toNat) ∧ 3 * s.length < 2 ^ 31 := by
  by_cases hlong : 2 ^ 31 ≤ 3 * s.length
  · exact iff_of_false (fun h => percentHexString_long hlong h.2.2) fun h => by omega
  · rw [Nat.not_le] at hlong
    have hint : i32 s.length = s.length := i32_eq (by omega) (by omega)
    have hall : encodeURIComponent s = encoded s := by
      rw [encodeURIComponent, hint, Int.toNat_natCast, List.take_length, encoded]
    have hlen := encoded_length s
    have hurl := urlEncode_length s
    have hhex := percentHexString_length s
    have hreads := @reads_unescape junk _ hnull
    rw [hall, escapeUrl_eq (encoded_not_null hnull) (by omega), escapeUrlString]
    constructor
    · rintro ⟨hback, -, -⟩
      refine ⟨?_, hlong⟩
      rw [cstr_eq_self hreads.not_null] at hback
      exact hreads.same_iff.mp hback
    · rintro ⟨hlarge, -⟩
      refine ⟨?_, ?_, ?_⟩
      · rw [hreads.same_iff.mpr hlarge, cstr_eq_self hnull]
      · exact escapeUrl_short (urlEncode_not_null hnull) (by omega) hnull (unescape_urlEncode s)
      · exact escapeUrl_short (percentHexString_not_null s) (by omega) hnull
          (unescape_percentHexString s)

end

/-- A line feed at the end comes back, a `%` and a large byte do anyway. -/
theorem escapeUrl_last :
    (escapeUrl (fun _ => 0) (encodeURIComponent [97, 37, 255, 10]) = [97, 37, 255, 10] ∧
        escapeUrl (fun _ => 0) (urlEncode [97, 37, 255, 10]) = [97, 37, 255, 10] ∧
        escapeUrl (fun _ => 0) (percentHexString [97, 37, 255, 10]) = [97, 37, 255, 10]) ↔
      (∀ b ∈ ([97, 37, 255, 10] : Bytes).dropLast, 16 ≤ b.toNat) ∧
        3 * ([97, 37, 255, 10] : Bytes).length < 2 ^ 31 :=
  escapeUrl_iff (fun _ => 0) (by decide)

/-- A line feed takes the digit behind it with it. -/
theorem escapeUrl_merged :
    encodeURIComponent [10, 53] = ascii "%A5" ∧
      ∀ junk : Bytes → UInt8, escapeUrl junk (encodeURIComponent [10, 53]) = [165] := by
  have htext : encodeURIComponent [10, 53] = ascii "%A5" := by decide
  refine ⟨htext, fun junk => ?_⟩
  rw [htext, escapeUrl_eq (by decide) (by decide)]
  rfl

end CoreLooper.Http
