import CoreLooper.HttpTool

/-!
# The parameters of a url

Values are written with `%xx` where it is needed. `HttpHeader` reads all of them back.
`HttpRequest` undoes the `%xx` of the whole url before it takes the parameters apart, and does it
once more then, so that a value must be free of `&` and `%`.
-/
namespace CoreLooper.Http
open CStrings

section
variable {a b text : Bytes} {c : UInt8} {junk : Bytes → UInt8}

theorem cutAt_found (ha : c ∉ a) (b : Bytes) : cutAt c (a ++ c :: b) = (a, some b) := by
  have hall : ∀ x ∈ a, decide (x ≠ c) = true := by
    intro x hx
    simp only [decide_eq_true_eq]
    rintro rfl
    exact ha hx
  have hdrop : (a ++ c :: b).dropWhile (· ≠ c) = c :: b := by
    rw [List.dropWhile_append, List.dropWhile_eq_nil_iff.mpr hall]
    simp
  have htake : (a ++ c :: b).takeWhile (· ≠ c) = a := by
    rw [List.takeWhile_append_of_pos hall]
    simp
  rw [cutAt, hdrop, htake]

theorem cutAt_some {x y : Bytes} (h : cutAt c text = (x, some y)) : text = x ++ c :: y ∧ c ∉ x := by
  unfold cutAt at h
  cases hdrop : text.dropWhile (· ≠ c) with
  | nil => rw [hdrop] at h; cases h
  | cons d rest =>
      rw [hdrop] at h
      cases h
      have hd : d = c := by
        have := List.head?_dropWhile_not (fun x => decide (x ≠ c)) text
        rw [hdrop] at this
        simpa using this
      refine ⟨?_, fun hmem => ?_⟩
      · conv_lhs => rw [← List.takeWhile_append_dropWhile (p := (· ≠ c)) (l := text), hdrop, hd]
      · have := List.mem_takeWhile_imp hmem
        simp at this

theorem beforeLast_found (hb : c ∉ b) (a : Bytes) : beforeLast c (a ++ c :: b) = some a := by
  have hrev : (a ++ c :: b).reverse = b.reverse ++ c :: a.reverse := by simp
  have hall : ∀ x ∈ b.reverse, decide (x ≠ c) = true := by
    intro x hx
    simp only [decide_eq_true_eq]
    rintro rfl
    exact hb (List.mem_reverse.mp hx)
  have hdrop : (b.reverse ++ c :: a.reverse).dropWhile (· ≠ c) = c :: a.reverse := by
    rw [List.dropWhile_append, List.dropWhile_eq_nil_iff.mpr hall]
    simp
  rw [beforeLast, hrev, hdrop]
  simp

theorem extractSubString_piece {piece p : Bytes} (hp : c ∉ p) (text : Bytes) :
    extractSubString c piece (p ++ text) = extractSubString c (piece ++ p) text := by
  induction p generalizing piece with
  | nil => simp
  | cons d p ih =>
      rw [List.mem_cons, not_or] at hp
      rw [List.cons_append, extractSubString, if_neg (Ne.symm hp.1), ih hp.2]
      simp

/-- Pieces put together are found again. -/
theorem extractSubString_join {ps : List Bytes} (hne : ∀ p ∈ ps, p ≠ []) (hp : ∀ p ∈ ps, c ∉ p) :
    extractSubString c [] (List.intercalate [c] ps) = ps := by
  induction ps with
  | nil => rfl
  | cons p ps ih =>
      have hpne := hne p List.mem_cons_self
      have hpc := hp p List.mem_cons_self
      cases ps with
      | nil =>
          have hone : List.intercalate [c] [p] = p ++ [] := by simp [List.intercalate]
          rw [hone, extractSubString_piece hpc]
          simp [extractSubString, hpne]
      | cons q ps =>
          have hjoin : List.intercalate [c] (p :: q :: ps) =
              p ++ c :: List.intercalate [c] (q :: ps) := by simp [List.intercalate]
          have hlater := ih (fun r hr => hne r (List.mem_cons_of_mem p hr))
            fun r hr => hp r (List.mem_cons_of_mem p hr)
          rw [hjoin, extractSubString_piece hpc, extractSubString, if_pos rfl, hlater]
          simp [hpne]

/-- Nothing is lost but the separators. -/
theorem extractSubString_length (c : UInt8) (piece text : Bytes) :
    ((extractSubString c piece text).map List.length).sum + text.count c =
      piece.length + text.length := by
  induction text generalizing piece with
  | nil =>
      rw [extractSubString]
      split_ifs with hempty
      · simp [hempty]
      · simp
  | cons d text ih =>
      rw [extractSubString]
      split_ifs with hd hempty
      · have := ih []
        simp only [List.nil_append, hempty, List.length_nil, List.length_cons, hd,
          List.count_cons_self] at this ⊢
        omega
      · have := ih []
        simp only [List.map_append, List.sum_append, List.map_singleton, List.sum_singleton,
          List.length_nil, List.length_cons, hd, List.count_cons_self] at this ⊢
        omega
      · have := ih (piece ++ [d])
        rw [List.length_append, List.length_singleton] at this
        rw [List.count_cons_of_ne hd, List.length_cons]
        omega

theorem unescape_cons (hc : c ≠ 37) (text : Bytes) :
    unescape junk (c :: text) = c :: unescape junk text := by
  match text with
  | [] => simp [unescape, hc]
  | [a] => simp [unescape, hc]
  | a :: b :: rest => rw [unescape, if_neg hc]

theorem unescape_plain (ha : 37 ∉ a) (text : Bytes) :
    unescape junk (a ++ text) = a ++ unescape junk text := by
  induction a with
  | nil => rfl
  | cons c a ih =>
      rw [List.mem_cons, not_or] at ha
      rw [List.cons_append, unescape_cons (Ne.symm ha.1), ih ha.2, List.cons_append]

/-- The text a value is sent as, up to a byte that ends it: any byte may be written as `%xx`, and
must be where it has a meaning. -/
inductive Encoded (sep : UInt8) : Bytes → Bytes → Prop where
  | nil : Encoded sep [] []
  | plain {v e : Bytes} (c : UInt8) : c ≠ 0 → c ≠ 13 → c ≠ 32 → c ≠ 37 → c ≠ sep →
      Encoded sep v e → Encoded sep (c :: v) (c :: e)
  | escaped {v e : Bytes} (c h l : UInt8) (m n : ℕ) : hexValue h = some m → hexValue l = some n →
      c.toNat = m * 16 + n → Encoded sep v e → Encoded sep (c :: v) (37 :: h :: l :: e)

/-- What a hexadecimal digit is not. -/
theorem hexValue_some {m : ℕ} (h : hexValue c = some m) : isspace c = false ∧ c ≠ 45 ∧ c ≠ 43 ∧
    c ≠ 120 ∧ c ≠ 88 ∧ c ≠ 0 ∧ c ≠ 13 ∧ c ≠ 32 ∧ c ≠ 38 ∧ c ≠ 63 := by
  have hcheck : ∀ n < 256, (hexValue (UInt8.ofNat n)).isSome → isspace (UInt8.ofNat n) = false ∧
      UInt8.ofNat n ≠ 45 ∧ UInt8.ofNat n ≠ 43 ∧ UInt8.ofNat n ≠ 120 ∧ UInt8.ofNat n ≠ 88 ∧
      UInt8.ofNat n ≠ 0 ∧ UInt8.ofNat n ≠ 13 ∧ UInt8.ofNat n ≠ 32 ∧ UInt8.ofNat n ≠ 38 ∧
      UInt8.ofNat n ≠ 63 := by
    decide +kernel
  have := hcheck c.toNat c.toNat_lt
  rw [UInt8.ofNat_toNat, h] at this
  exact this rfl

theorem scanHex_digits {h l : UInt8} {m n : ℕ} (hm : hexValue h = some m) (hn : hexValue l = some n)
    (text : Bytes) : scanHex (h :: l :: text) = some (m * 16 + n).toUInt8 := by
  obtain ⟨hspace, h45, h43, -⟩ := hexValue_some hm
  obtain ⟨-, -, -, h120, h88, -⟩ := hexValue_some hn
  have hdrop : (h :: l :: text).dropWhile isspace = h :: l :: text := by
    rw [List.dropWhile_cons, hspace]
    rfl
  have hdigits : hexDigits 2 (h :: l :: text) = some (m * 16 + n) := by
    simp [hexDigits, hm, hn]
  rw [scanHex, hdrop]
  split
  · rename_i heq
    exact absurd (List.cons.inj heq).1 h45
  · rename_i heq
    exact absurd (List.cons.inj heq).1 h43
  · rename_i heq
    exact absurd (List.cons.inj (List.cons.inj heq).2).1 h120
  · rename_i heq
    exact absurd (List.cons.inj (List.cons.inj heq).2).1 h88
  · rw [hdigits]
    rfl

section
variable {sep : UInt8} {v e : Bytes} (h : Encoded sep v e)
include h

/-- A value is read back from its text. -/
theorem unescape_encoded (text : Bytes) : unescape junk (e ++ text) = v ++ unescape junk text := by
  induction h with
  | nil => rfl
  | plain c _ _ _ h37 _ _ ih => rw [List.cons_append, unescape_cons h37, ih, List.cons_append]
  | escaped c h l m n hm hn hc _ ih =>
      have hbyte : (m * 16 + n).toUInt8 = c := by
        rw [← hc]
        exact UInt8.ofNat_toNat
      rw [List.cons_append, List.cons_append, List.cons_append, unescape, if_pos rfl,
        scanHex_digits hm hn, hbyte, ih, List.cons_append]
      rfl

/-- The text of a value has no byte that ends it. -/
theorem Encoded.clean (hsep : sep = 38 ∨ sep = 63) :
    ∀ c ∈ e, c ≠ 0 ∧ c ≠ 13 ∧ c ≠ 32 ∧ c ≠ sep := by
  induction h with
  | nil => simp
  | plain c h0 h13 h32 _ hc _ ih =>
      intro d hd
      rcases List.mem_cons.mp hd with rfl | hd
      · exact ⟨h0, h13, h32, hc⟩
      · exact ih d hd
  | escaped c h l m n hm hn _ _ ih =>
      have hdigit : ∀ {d : UInt8} {k : ℕ}, hexValue d = some k →
          d ≠ 0 ∧ d ≠ 13 ∧ d ≠ 32 ∧ d ≠ sep := by
        intro d k hk
        obtain ⟨-, -, -, -, -, h0, h13, h32, h38, h63⟩ := hexValue_some hk
        rcases hsep with rfl | rfl
        · exact ⟨h0, h13, h32, h38⟩
        · exact ⟨h0, h13, h32, h63⟩
      intro d hd
      simp only [List.mem_cons] at hd
      rcases hd with rfl | rfl | rfl | hd
      · rcases hsep with rfl | rfl <;> decide
      · exact hdigit hm
      · exact hdigit hn
      · exact ih d hd

theorem Encoded.length_le : v.length ≤ e.length := by
  induction h with
  | nil => exact Nat.le_refl _
  | plain c _ _ _ _ _ _ ih => exact Nat.succ_le_succ ih
  | escaped c h l m n _ _ _ _ ih =>
      simp only [List.length_cons]
      omega

end

theorem unescape_length_le (text : Bytes) : (unescape junk text).length ≤ text.length := by
  fun_induction unescape junk text <;> simp_all
  omega

/-- Undoing `%xx` makes a text with a `%` shorter, unless that is its last byte. -/
theorem unescape_shrinks (junk : Bytes → UInt8) (text : Bytes) :
    (unescape junk text).length < text.length ∨ 37 ∉ text ∧ unescape junk text = text ∨
      ∃ a, text = a ++ [37] ∧ unescape junk text = a ++ [junk []] := by
  have hkeep : ∀ (c : UInt8) (rest : Bytes), c ≠ 37 →
      ((unescape junk rest).length < rest.length ∨ 37 ∉ rest ∧ unescape junk rest = rest ∨
        ∃ a, rest = a ++ [37] ∧ unescape junk rest = a ++ [junk []]) →
      ((unescape junk (c :: rest)).length < (c :: rest).length ∨
        37 ∉ c :: rest ∧ unescape junk (c :: rest) = c :: rest ∨
        ∃ a, c :: rest = a ++ [37] ∧ unescape junk (c :: rest) = a ++ [junk []]) := by
    intro c rest hc hrest
    rw [unescape_cons hc]
    rcases hrest with hlt | ⟨hnone, heq⟩ | ⟨a, ha, heq⟩
    · exact Or.inl (Nat.succ_lt_succ hlt)
    · refine Or.inr (Or.inl ⟨?_, by rw [heq]⟩)
      rw [List.mem_cons, not_or]
      exact ⟨Ne.symm hc, hnone⟩
    · exact Or.inr (Or.inr ⟨c :: a, by rw [ha]; rfl, by rw [heq]; rfl⟩)
  fun_induction unescape junk text with
  | case1 => exact Or.inr (Or.inl ⟨by simp, rfl⟩)
  | case2 c =>
      by_cases hc : c = 37
      · refine Or.inr (Or.inr ⟨[], by simp [hc], ?_⟩)
        rw [if_pos hc]
        rfl
      · refine Or.inr (Or.inl ⟨by simpa using Ne.symm hc, ?_⟩)
        rw [if_neg hc]
  | case3 a => exact Or.inl (by simp)
  | case4 c a hc ih =>
      have := hkeep c [a] hc ih
      rwa [unescape_cons hc] at this
  | case5 a b rest ih =>
      refine Or.inl ?_
      have hle : (unescape junk rest).length ≤ rest.length := unescape_length_le rest
      simp only [List.length_cons]
      omega
  | case6 c a b rest hc ih =>
      have := hkeep c (a :: b :: rest) hc ih
      rwa [unescape_cons hc] at this

/-- Nothing is undone only where there is no `%`, whatever the byte that cannot be read is. -/
theorem escapeUrlString_same (h : escapeUrlString (fun _ => 0) text = text) : 37 ∉ text := by
  rw [escapeUrlString] at h
  have hle := (cstr_starts (unescape (fun _ => 0) text)).length_le
  rw [h] at hle
  rcases unescape_shrinks (fun _ => 0) text with hlt | ⟨hnone, -⟩ | ⟨a, ha, heq⟩
  · omega
  · exact hnone
  · rw [heq] at h
    have hcut : (cstr (a ++ [0])).length ≤ a.length := by
      by_cases hzero : (0 : UInt8) ∈ a
      · have hlt := (cstr_starts (a ++ [0])).length_le
        have hne : (cstr (a ++ [0])).length ≠ (a ++ [(0 : UInt8)]).length := by
          intro hall
          have := (cstr_starts (a ++ [0])).eq_of_length hall
          exact cstr_not_mem (a ++ [0]) (by rw [this]; simp)
        rw [List.length_append, List.length_singleton] at hlt hne
        omega
      · rw [cstr_append hzero]
        simp [cstr]
    rw [h, ha, List.length_append, List.length_singleton] at hcut
    omega

end

def isalnum (c : UInt8) : Bool := isdigit c ∨ 65 ≤ c ∧ c ≤ 90 ∨ 97 ≤ c ∧ c ≤ 122

/-- A parameter, and the text its value is sent as. -/
structure Param where
  name : Bytes
  value : Bytes
  text : Bytes
  name_ne : name ≠ []
  name_plain : ∀ c ∈ name, isalnum c = true
  value_ne : 0 ∉ value
  encoded : Encoded 38 value text

namespace Param

def line (p : Param) : Bytes := p.name ++ 61 :: p.text

/-- The line without `%xx`. -/
def plainLine (p : Param) : Bytes := p.name ++ 61 :: p.value

/-- The value a list of parameters has for a name. -/
def values (ps : List Param) : NameValue := fun k =>
  (ps.find? fun p => p.name = k).map Param.value

theorem name_clean (p : Param) :
    ∀ c ∈ p.name, c ≠ 0 ∧ c ≠ 13 ∧ c ≠ 32 ∧ c ≠ 37 ∧ c ≠ 38 ∧ c ≠ 61 ∧ c ≠ 63 := by
  intro c hc
  have halnum := p.name_plain c hc
  refine ⟨?_, ?_, ?_, ?_, ?_, ?_, ?_⟩ <;> · rintro rfl; revert halnum; decide

theorem name_not_mem (p : Param) {c : UInt8} (hc : c ∈ [0, 13, 32, 37, 38, 61, 63]) :
    c ∉ p.name := by
  intro hmem
  have := p.name_clean c hmem
  simp only [List.mem_cons, List.not_mem_nil, or_false] at hc
  tauto

theorem find_name {ps : List Param} (hnames : (ps.map Param.name).Nodup) {p : Param} (hp : p ∈ ps) :
    (ps.find? fun q => q.name = p.name) = some p := by
  induction ps with
  | nil => cases hp
  | cons q ps ih =>
      rw [List.map_cons, List.nodup_cons] at hnames
      rcases List.mem_cons.mp hp with rfl | hlater
      · rw [List.find?_cons_of_pos (by simp)]
      · have hne : q.name ≠ p.name := by
          intro heq
          apply hnames.1
          rw [heq]
          exact List.mem_map_of_mem hlater
        rw [List.find?_cons_of_neg (by simpa using hne), ih hnames.2 hlater]

theorem values_name {ps : List Param} (hnames : (ps.map Param.name).Nodup) {p : Param}
    (hp : p ∈ ps) : values ps p.name = some p.value := by
  rw [values, find_name hnames hp, Option.map_some]

end Param

section
variable {junk : Bytes → UInt8}

theorem setParam_line {name : Bytes} (hname : 61 ∉ name) (params : NameValue) (value : Bytes) :
    setParam junk params (name ++ 61 :: value) =
      params.set name (escapeUrlString junk (value.take 4095)) := by
  rw [setParam, cutAt_found hname]

/-- The lines of parameters give each of them what its line holds. -/
theorem foldl_setParam {ps : List Param} (hnames : (ps.map Param.name).Nodup) (raw : Param → Bytes)
    (params : NameValue) (k : Bytes) :
    (ps.map fun p => p.name ++ 61 :: raw p).foldl (setParam junk) params k =
      ((ps.find? fun p => p.name = k).map fun p =>
        escapeUrlString junk ((raw p).take 4095)).or (params k) := by
  induction ps generalizing params with
  | nil => rfl
  | cons p ps ih =>
      rw [List.map_cons, List.nodup_cons] at hnames
      have hstep : setParam junk params (p.name ++ 61 :: raw p) =
          Function.update params p.name (some (escapeUrlString junk ((raw p).take 4095))) := by
        rw [setParam_line (p.name_not_mem (by decide)), NameValue.set, if_neg p.name_ne]
      rw [List.map_cons, List.foldl_cons, hstep, ih hnames.2]
      by_cases hk : p.name = k
      · have hlater : (ps.find? fun q => q.name = k) = none := by
          rw [List.find?_eq_none]
          intro q hq heq
          apply hnames.1
          rw [hk, ← of_decide_eq_true heq]
          exact List.mem_map_of_mem hq
        rw [hlater, List.find?_cons_of_pos (by simpa using hk), ← hk, Function.update_self]
        rfl
      · rw [List.find?_cons_of_neg (by simpa using hk), Function.update_of_ne (Ne.symm hk)]

/-- Lines that hold the values give the parameters. -/
theorem foldl_values {ps : List Param} (hnames : (ps.map Param.name).Nodup) (raw : Param → Bytes)
    (hraw : ∀ p ∈ ps, escapeUrlString junk ((raw p).take 4095) = p.value) :
    (ps.map fun p => p.name ++ 61 :: raw p).foldl (setParam junk) .empty = Param.values ps := by
  funext k
  have hempty : NameValue.empty k = none := rfl
  rw [foldl_setParam hnames, hempty, Option.or_none, Param.values]
  cases hfind : ps.find? fun p => p.name = k with
  | none => rfl
  | some p => rw [Option.map_some, Option.map_some, hraw p (List.mem_of_find?_eq_some hfind)]

/-- A parameter that was read came from a line. -/
theorem foldl_setParam_some {lines : List Bytes} {params : NameValue} {k v : Bytes}
    (h : lines.foldl (setParam junk) params k = some v) : params k = some v ∨
      ∃ l ∈ lines, ∃ raw, cutAt 61 l = (k, some raw) ∧
        v = escapeUrlString junk (raw.take 4095) := by
  induction lines generalizing params with
  | nil => exact Or.inl h
  | cons l lines ih =>
      rcases ih h with hparams | ⟨l', hl', hfound⟩
      · cases hcut : cutAt 61 l with
        | mk name value =>
            cases value with
            | none =>
                simp only [setParam, hcut] at hparams
                exact Or.inl hparams
            | some raw =>
                simp only [setParam, hcut, NameValue.set] at hparams
                split_ifs at hparams with hname
                · exact Or.inl hparams
                · by_cases hk : k = name
                  · rw [hk, Function.update_self] at hparams
                    cases hparams
                    exact Or.inr ⟨l, List.mem_cons_self, raw, by rw [hcut, hk], rfl⟩
                  · rw [Function.update_of_ne hk] at hparams
                    exact Or.inl hparams
      · exact Or.inr ⟨l', List.mem_cons_of_mem l hl', hfound⟩

/-- A parameter that was read took at least its own length of a line. -/
theorem line_long {lines : List Bytes} {k v : Bytes}
    (h : lines.foldl (setParam junk) .empty k = some v) :
    ∃ l ∈ lines, (cutAt 61 l).1 = k ∧ k.length + 1 + v.length ≤ l.length := by
  rcases foldl_setParam_some h with hempty | ⟨l, hl, raw, hcut, hv⟩
  · cases hempty
  · refine ⟨l, hl, by rw [hcut], ?_⟩
    have hraw : v.length ≤ raw.length := by
      calc v.length ≤ (unescape junk (raw.take 4095)).length := by
            rw [hv, escapeUrlString]
            exact (cstr_starts _).length_le
        _ ≤ (raw.take 4095).length := unescape_length_le _
        _ ≤ raw.length := List.length_take_le' _ _
    rw [(cutAt_some hcut).1, List.length_append, List.length_cons]
    omega

/-- Things of different names that each fit a line of their name fit the lines together. -/
theorem sum_le_of_lines {ps : List Param} (hnames : (ps.map Param.name).Nodup) (key : Bytes → Bytes)
    (size : Param → ℕ) {lines : List Bytes}
    (h : ∀ p ∈ ps, ∃ l ∈ lines, key l = p.name ∧ size p ≤ l.length) :
    (ps.map size).sum ≤ (lines.map List.length).sum := by
  induction ps generalizing lines with
  | nil => exact Nat.zero_le _
  | cons p ps ih =>
      rw [List.map_cons, List.nodup_cons] at hnames
      obtain ⟨l, hl, hkey, hsize⟩ := h p List.mem_cons_self
      have hrest : ∀ q ∈ ps, ∃ l' ∈ lines.erase l, key l' = q.name ∧ size q ≤ l'.length := by
        intro q hq
        obtain ⟨l', hl', hkey', hsize'⟩ := h q (List.mem_cons_of_mem p hq)
        have hne : l' ≠ l := by
          rintro rfl
          apply hnames.1
          rw [← hkey, hkey']
          exact List.mem_map_of_mem hq
        exact ⟨l', (List.mem_erase_of_ne hne).mpr hl', hkey', hsize'⟩
      have := ih hnames.2 hrest
      have hsum := ((List.perm_cons_erase hl).map List.length).sum_eq
      rw [List.map_cons, List.sum_cons] at hsum ⊢
      omega

end
end CoreLooper.Http
