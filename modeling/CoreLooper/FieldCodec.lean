import CoreLooper.StringParam

/-!
# Writing and reading field strings

`ToString` against `ParseItems` and `ParseItemsEx`, for names and values without a byte of the
separator or the sign. What is read is a list of pairs that fill a map; where an item is cut at
another place than its writer meant, a name stays that no map of the writer has.
-/
namespace CoreLooper.StringParam

open CStrings TextSeparator

section
variable (sep sign : Bytes)

def fieldText (e : Bytes × Bytes) : Bytes := e.1 ++ (sign ++ (e.2 ++ sep))

def readFields (text : Bytes) : List (Bytes × Bytes) := (items text sep).map (nameValue sign)

/-- No byte of the separator or the sign is in a name or a value. -/
def Apart (e : Bytes × Bytes) : Prop := ∀ c, c ∈ sep ∨ c ∈ sign → c ∉ e.1 ∧ c ∉ e.2

def BadByte (c : UInt8) : Prop := c ∈ sep ∨ c ∈ sign

/-- A name that is empty, or a name or a value with a byte of the separator or the sign. -/
def Defect (l : List (Bytes × Bytes)) : Prop :=
  ∃ k v, lastValue k l = some v ∧ (k = [] ∨ (∃ c ∈ k, BadByte sep sign c) ∨
    ∃ c ∈ v, BadByte sep sign c)

end

variable {sep sign : Bytes} {e : Bytes × Bytes} {l : List (Bytes × Bytes)} {r text : Bytes}

theorem readFields_nil (hsep : sep ≠ []) : readFields sep sign [] = [] := by
  rw [readFields, items_nil hsep, List.map_nil]

theorem readFields_cut (hsep : sep ≠ []) {p : ℕ} (h : strstr text sep = some p) :
    readFields sep sign text =
      nameValue sign (text.take p) :: readFields sep sign (text.drop (p + sep.length)) := by
  rw [readFields, items_cut hsep h, List.map_cons, readFields]

theorem nameValue_sign {c : UInt8} {cs n v : Bytes} (hn : c ∉ n) :
    nameValue (c :: cs) (n ++ (c :: cs ++ v)) = (n, cs ++ v) := by
  have hpos : strstr (n ++ (c :: cs ++ v)) (c :: cs) = some n.length := by
    rw [strstr_skip hn, strstr_here (List.prefix_append _ _)]
    rfl
  rw [nameValue, hpos]
  simp only [List.take_left]
  rw [← List.drop_drop, List.drop_left]
  rfl

/-- Where the sign does not fit, the whole item is a name. -/
theorem nameValue_short {c : UInt8} {cs n x : Bytes} (hn : c ∉ n)
    (hx : x.length < (c :: cs).length) :
    nameValue (c :: cs) (n ++ x) = (n ++ x, []) := by
  have hnone : strstr (n ++ x) (c :: cs) = none := by
    rw [strstr_skip hn]
    cases hpos : strstr x (c :: cs) with
    | none => rfl
    | some p =>
        have := strstr_add_length_le hpos
        omega
  rw [nameValue, hnone]

/-- The name of an item is what it starts with. -/
theorem nameValue_starts (sign nv : Bytes) : (nameValue sign nv).1 <+: nv := by
  unfold nameValue
  cases strstr nv sign with
  | none => exact List.prefix_refl nv
  | some p => exact List.take_prefix p nv

/-- The separator is found behind the field, or too early, where the sign is. -/
theorem strstr_field (hsep : sep ≠ []) (he : Apart sep sign e) (r : Bytes) :
    ∃ i, strstr (sign ++ (e.2 ++ (sep ++ r))) sep = some i ∧
      strstr (fieldText sep sign e ++ r) sep = some (e.1.length + i) ∧
      (i = sign.length + e.2.length ∨ i < sign.length) := by
  have hthere : sep <+: (sign ++ (e.2 ++ (sep ++ r))).drop (sign.length + e.2.length) := by
    rw [← List.drop_drop, List.drop_left, List.drop_left]
    exact List.prefix_append _ _
  obtain ⟨i, hi⟩ := Option.isSome_iff_exists.mp (strstr_isSome hthere)
  obtain ⟨s, ss, rfl⟩ := List.exists_cons_of_ne_nil hsep
  refine ⟨i, hi, ?_, ?_⟩
  · have hname := (he s (Or.inl List.mem_cons_self)).1
    have htext : fieldText (s :: ss) sign e ++ r =
        e.1 ++ (sign ++ (e.2 ++ (s :: ss ++ r))) := by
      simp only [fieldText, List.append_assoc]
    rw [htext, strstr_skip hname, hi, Option.map_some]
  · by_contra hcases
    rw [not_or] at hcases
    have hle : i ≤ sign.length + e.2.length := by
      by_contra hlt
      exact strstr_first hi (by omega) hthere
    have hfound := strstr_found hi
    rw [List.drop_append, List.drop_eq_nil_of_le (by omega), List.nil_append,
      List.drop_append_of_le_length (by omega), List.drop_eq_getElem_cons (by omega),
      List.cons_append, List.cons_prefix_cons] at hfound
    apply (he s (Or.inl List.mem_cons_self)).2
    rw [hfound.1]
    exact List.getElem_mem _

theorem Defect.cons (h : Defect sep sign l) (a : Bytes × Bytes) : Defect sep sign (a :: l) := by
  obtain ⟨k, v, hv, hbad⟩ := h
  refine ⟨k, v, ?_, hbad⟩
  rw [lastValue, hv, Option.some_or]

theorem defect_of_name (he : e ∈ l) (h : e.1 = [] ∨ ∃ c ∈ e.1, BadByte sep sign c) :
    Defect sep sign l := by
  cases hv : lastValue e.1 l with
  | none => exact absurd rfl (lastValue_eq_none_iff.mp hv e he)
  | some v =>
      refine ⟨e.1, v, hv, ?_⟩
      rcases h with h | h
      · exact Or.inl h
      · exact Or.inr (Or.inl h)

/-- A text that starts with a byte of the separator or the sign starts with such a name. -/
theorem defect_of_start (hsep : sep ≠ []) {b : UInt8} (hb : BadByte sep sign b) (x : Bytes) :
    Defect sep sign (readFields sep sign (b :: x)) := by
  have hname : ∀ nv, nv <+: b :: x → (nameValue sign nv).1 = [] ∨
      ∃ c ∈ (nameValue sign nv).1, BadByte sep sign c := by
    intro nv hnv
    have hstarts := (nameValue_starts sign nv).trans hnv
    cases hname : (nameValue sign nv).1 with
    | nil => exact Or.inl rfl
    | cons c k =>
        rw [hname, List.cons_prefix_cons] at hstarts
        exact Or.inr ⟨c, List.mem_cons_self, hstarts.1 ▸ hb⟩
  cases hpos : strstr (b :: x) sep with
  | none =>
      rw [readFields, items_last (List.cons_ne_nil b x) hpos, List.map_singleton]
      exact defect_of_name (List.mem_singleton_self _) (hname _ (List.prefix_refl _))
  | some p =>
      rw [readFields_cut hsep hpos]
      exact defect_of_name List.mem_cons_self (hname _ (List.take_prefix p _))

/-- Behind a separator that is found where the sign begins, something of the sign or of the
separator is left. -/
theorem rest_starts (hsign : sign ≠ []) (he : Apart sep sign e) (hne : sep ≠ sign)
    (hp : sep <+: sign ++ (e.2 ++ (sep ++ r))) :
    ∃ b x, (sign ++ (e.2 ++ (sep ++ r))).drop sep.length = b :: x ∧ BadByte sep sign b := by
  rcases Nat.lt_trichotomy sep.length sign.length with hlt | heq | hgt
  · refine ⟨sign[sep.length], sign.drop (sep.length + 1) ++ (e.2 ++ (sep ++ r)), ?_,
      Or.inr (List.getElem_mem hlt)⟩
    rw [List.drop_append_of_le_length (Nat.le_of_lt hlt), List.drop_eq_getElem_cons hlt,
      List.cons_append]
  · have hstart : sep <+: sign :=
      List.prefix_of_prefix_length_le hp (List.prefix_append _ _) (Nat.le_of_eq heq)
    exact absurd (hstart.eq_of_length heq) hne
  · have hstart : sign <+: sep :=
      List.prefix_of_prefix_length_le (List.prefix_append _ _) hp (Nat.le_of_lt hgt)
    obtain ⟨y, rfl⟩ := hstart
    rw [List.append_assoc, List.prefix_append_right_inj] at hp
    cases hv : e.2 with
    | cons a v =>
        cases y with
        | nil => exact absurd (List.append_nil sign) hne
        | cons b y =>
            rw [hv, List.cons_append, List.cons_prefix_cons] at hp
            have hb : b ∈ sign ++ b :: y := List.mem_append_right _ List.mem_cons_self
            refine absurd ?_ (he b (Or.inl hb)).2
            rw [hv, hp.1]
            exact List.mem_cons_self
    | nil =>
        have hlt : y.length < (sign ++ y).length := by
          rw [List.length_append]
          exact Nat.lt_add_of_pos_left (List.length_pos_of_ne_nil hsign)
        refine ⟨(sign ++ y)[y.length], (sign ++ y).drop (y.length + 1) ++ r, ?_,
          Or.inl (List.getElem_mem hlt)⟩
        rw [List.nil_append, List.length_append, ← List.drop_drop, List.drop_left,
          List.drop_append_of_le_length (Nat.le_of_lt hlt), List.drop_eq_getElem_cons hlt,
          List.cons_append]

/-- A separator that is found in the sign leaves a name that no writer has. -/
theorem defect_of_early (hsep : sep ≠ []) (hsign : sign ≠ []) (he : Apart sep sign e)
    (hne : sep ≠ sign) {i : ℕ} (hi : strstr (sign ++ (e.2 ++ (sep ++ r))) sep = some i)
    (htext : strstr (fieldText sep sign e ++ r) sep = some (e.1.length + i))
    (hlt : i < sign.length) :
    Defect sep sign (readFields sep sign (fieldText sep sign e ++ r)) := by
  have hassoc : fieldText sep sign e ++ r = e.1 ++ (sign ++ (e.2 ++ (sep ++ r))) := by
    simp only [fieldText, List.append_assoc]
  rw [readFields_cut hsep htext, hassoc]
  by_cases hzero : i = 0
  · have hp := strstr_found hi
    rw [hzero, List.drop_zero] at hp
    obtain ⟨b, x, hx, hb⟩ := rest_starts hsign he hne hp
    rw [hzero, Nat.add_zero, ← List.drop_drop, List.drop_left, hx]
    exact (defect_of_start hsep hb x).cons _
  · obtain ⟨c, cs, rfl⟩ := List.exists_cons_of_ne_nil hsign
    have hname := (he c (Or.inr List.mem_cons_self)).1
    have htake : (e.1 ++ (c :: cs ++ (e.2 ++ (sep ++ r)))).take (e.1.length + i) =
        e.1 ++ (c :: cs).take i := by
      rw [List.take_length_add_append, List.take_append_of_le_length (Nat.le_of_lt hlt)]
    have hshort : ((c :: cs).take i).length < (c :: cs).length := by
      rw [List.length_take]
      omega
    rw [htake, nameValue_short hname hshort]
    apply defect_of_name List.mem_cons_self
    right
    refine ⟨c, List.mem_append_right _ ?_, Or.inr List.mem_cons_self⟩
    obtain ⟨j, rfl⟩ := Nat.exists_eq_succ_of_ne_zero hzero
    exact List.mem_cons_self

/-- A field is read with the rest of its sign, or leaves a defect. -/
theorem readFields_field (hsep : sep ≠ []) (hsign : sign ≠ []) (he : Apart sep sign e)
    (hne : sep ≠ sign) (r : Bytes) :
    Defect sep sign (readFields sep sign (fieldText sep sign e ++ r)) ∨
      readFields sep sign (fieldText sep sign e ++ r) =
        (e.1, sign.tail ++ e.2) :: readFields sep sign r ∧
      ¬ sep <+: sign ++ (e.2 ++ (sep ++ r)) := by
  obtain ⟨i, hi, htext, hcases⟩ := strstr_field hsep he r
  by_cases hlt : i < sign.length
  · exact Or.inl (defect_of_early hsep hsign he hne hi htext hlt)
  · right
    have hfull := hcases.resolve_right hlt
    have hassoc : fieldText sep sign e ++ r = e.1 ++ (sign ++ e.2) ++ (sep ++ r) := by
      simp only [fieldText, List.append_assoc]
    have hlength : e.1.length + i = (e.1 ++ (sign ++ e.2)).length := by
      rw [List.length_append, List.length_append, hfull]
    constructor
    · obtain ⟨c, cs, rfl⟩ := List.exists_cons_of_ne_nil hsign
      rw [readFields_cut hsep htext, hassoc, hlength, List.take_left, ← List.drop_drop,
        List.drop_left, List.drop_left, nameValue_sign (he c (Or.inr List.mem_cons_self)).1]
      rfl
    · intro hp
      rw [strstr_here hp] at hi
      have := List.length_pos_of_ne_nil hsign
      have := Option.some.inj hi
      omega

/-- More than one byte of sign leaves its end in the last value. -/
theorem defect_of_long_sign (hsep : sep ≠ []) (hsign : 2 ≤ sign.length) (hne : sep ≠ sign)
    (hl : ∀ e ∈ l, Apart sep sign e) (hnil : l ≠ []) :
    Defect sep sign (readFields sep sign (l.flatMap (fieldText sep sign))) := by
  have hsign' : sign ≠ [] := by
    rintro rfl
    simp at hsign
  induction l with
  | nil => exact absurd rfl hnil
  | cons e l ih =>
      have he := hl e List.mem_cons_self
      rw [List.flatMap_cons]
      rcases readFields_field hsep hsign' he hne (l.flatMap (fieldText sep sign)) with h | ⟨h, -⟩
      · exact h
      · rw [h]
        by_cases hrest : l = []
        · subst hrest
          obtain ⟨c, d, cs, rfl⟩ : ∃ c d cs, sign = c :: d :: cs := by
            match sign, hsign with
            | c :: d :: cs, _ => exact ⟨c, d, cs, rfl⟩
          refine ⟨e.1, d :: cs ++ e.2, ?_, Or.inr (Or.inr ⟨d, List.mem_cons_self, ?_⟩)⟩
          · rw [List.flatMap_nil, readFields_nil hsep]
            simp [lastValue]
          · exact Or.inr (List.mem_cons_of_mem c List.mem_cons_self)
        · exact (ih (fun e' he' => hl e' (List.mem_cons_of_mem e he')) hrest).cons _

theorem prefix_cons_self {c : UInt8} {s : Bytes} (h : ∀ d ∈ s, d = c) : s <+: c :: s := by
  have hs := List.eq_replicate_iff.mpr ⟨rfl, h⟩
  rw [hs, ← List.replicate_succ]
  exact ⟨[c], List.replicate_succ'.symm⟩

theorem eq_of_prefix_cons_self {c : UInt8} {s : Bytes} (h : s <+: c :: s) : ∀ d ∈ s, d = c := by
  induction s with
  | nil => simp
  | cons a s ih =>
      rw [List.cons_prefix_cons] at h
      obtain ⟨rfl, h⟩ := h
      exact List.forall_mem_cons.mpr ⟨rfl, ih h⟩

/-- A separator that repeats the sign is found one byte early behind an empty value. -/
theorem defect_of_empty_value {c : UInt8} (hsep : sep ≠ []) (hall : ∀ d ∈ sep, d = c)
    (hne : sep ≠ [c]) (hl : ∀ e ∈ l, Apart sep [c] e) (hempty : ∃ e ∈ l, e.2 = []) :
    Defect sep [c] (readFields sep [c] (l.flatMap (fieldText sep [c]))) := by
  induction l with
  | nil =>
      obtain ⟨e, he, -⟩ := hempty
      cases he
  | cons e l ih =>
      have he := hl e List.mem_cons_self
      rw [List.flatMap_cons]
      rcases readFields_field hsep (List.cons_ne_nil c []) he hne
        (l.flatMap (fieldText sep [c])) with h | ⟨h, hlate⟩
      · exact h
      · have hvalue : e.2 ≠ [] := by
          intro hvalue
          apply hlate
          rw [hvalue, List.nil_append, List.singleton_append]
          exact (prefix_cons_self hall).trans
            (List.prefix_append (c :: sep) _)
        rw [h]
        obtain ⟨e', he', hempty⟩ := hempty
        rcases List.mem_cons.mp he' with rfl | he'
        · exact absurd hempty hvalue
        · exact (ih (fun a ha => hl a (List.mem_cons_of_mem e ha)) ⟨e', he', hempty⟩).cons _

/-- No item has the separator in it. -/
theorem strstr_item (hsep : sep ≠ []) (text : Bytes) :
    ∀ nv ∈ items text sep, strstr nv sep = none := by
  induction hn : text.length using Nat.strong_induction_on generalizing text with
  | _ n ih =>
      cases hpos : strstr text sep with
      | none =>
          by_cases htext : text = []
          · simp [htext, items_nil hsep]
          · rw [items_last htext hpos]
            simpa using hpos
      | some p =>
          have hle := strstr_add_length_le hpos
          have hlength := List.length_pos_of_ne_nil hsep
          rw [items_cut hsep hpos, List.forall_mem_cons]
          constructor
          · cases hin : strstr (text.take p) sep with
            | none => rfl
            | some j =>
                have hj := strstr_append hin (text.drop p)
                rw [List.take_append_drop, hpos] at hj
                have := strstr_add_length_le hin
                rw [List.length_take] at this
                have := Option.some.inj hj
                omega
          · apply ih (text.drop (p + sep.length)).length _ _ rfl
            rw [List.length_drop]
            omega

/-- With one text for both, no item has a value. -/
theorem value_of_equal (hsep : sep ≠ []) (text : Bytes) :
    ∀ e ∈ readFields sep sep text, e.2 = [] := by
  intro e he
  obtain ⟨nv, hnv, rfl⟩ := List.mem_map.mp he
  rw [nameValue, strstr_item hsep text nv hnv]

theorem defect_of_equal (hsep : sep ≠ []) (he : Apart sep sep e) (hvalue : e.2 = []) (r : Bytes) :
    Defect sep sep (readFields sep sep (fieldText sep sep e ++ r)) := by
  obtain ⟨i, hi, htext, -⟩ := strstr_field hsep he r
  rw [strstr_here (List.prefix_append _ _)] at hi
  have hassoc : fieldText sep sep e ++ r = e.1 ++ (sep ++ (e.2 ++ (sep ++ r))) := by
    simp only [fieldText, List.append_assoc]
  rw [readFields_cut hsep htext, hassoc, ← Option.some.inj hi, Nat.add_zero, ← List.drop_drop,
    List.drop_left, List.drop_left, hvalue, List.nil_append]
  obtain ⟨s, ss, rfl⟩ := List.exists_cons_of_ne_nil hsep
  exact (defect_of_start hsep (Or.inl List.mem_cons_self) (ss ++ r)).cons _

theorem readFields_fields {c : UInt8} (hsep : sep ≠ []) (hl : ∀ e ∈ l, Apart sep [c] e)
    (hclear : (∀ d ∈ sep, d = c) → sep.length ≠ 1 ∧ ∀ e ∈ l, e.2 ≠ []) :
    readFields sep [c] (l.flatMap (fieldText sep [c])) = l := by
  induction l with
  | nil => exact readFields_nil hsep
  | cons e l ih =>
      have he := hl e List.mem_cons_self
      have hrest := ih (fun a ha => hl a (List.mem_cons_of_mem e ha))
        fun h => ⟨(hclear h).1, fun a ha => (hclear h).2 a (List.mem_cons_of_mem e ha)⟩
      rw [List.flatMap_cons]
      set r := l.flatMap (fieldText sep [c])
      obtain ⟨i, hi, htext, hcases⟩ := strstr_field hsep he r
      have hfull : i = [c].length + e.2.length := by
        apply hcases.resolve_right
        intro hlt
        obtain rfl : i = 0 := by simpa using hlt
        have hp := strstr_found hi
        rw [List.drop_zero] at hp
        obtain ⟨s, ss, rfl⟩ := List.exists_cons_of_ne_nil hsep
        rw [List.singleton_append, List.cons_prefix_cons] at hp
        obtain ⟨rfl, hp⟩ := hp
        cases hv : e.2 with
        | nil =>
            have hself : ss <+: s :: ss := by
              rw [hv, List.nil_append] at hp
              exact List.prefix_of_prefix_length_le hp (List.prefix_append _ _) (by simp)
            have hall := eq_of_prefix_cons_self hself
            exact (hclear (List.forall_mem_cons.mpr ⟨rfl, hall⟩)).2 e List.mem_cons_self hv
        | cons a v =>
            cases ss with
            | nil => exact (hclear (by simp)).1 rfl
            | cons b ss =>
                rw [hv, List.cons_append, List.cons_prefix_cons] at hp
                have hb : b ∈ s :: b :: ss := List.mem_cons_of_mem s List.mem_cons_self
                refine absurd ?_ (he b (Or.inl hb)).2
                rw [hv, hp.1]
                exact List.mem_cons_self
      have hassoc : fieldText sep [c] e ++ r = e.1 ++ ([c] ++ e.2) ++ (sep ++ r) := by
        simp only [fieldText, List.append_assoc]
      have hlength : e.1.length + i = (e.1 ++ ([c] ++ e.2)).length := by
        rw [List.length_append, List.length_append, hfull]
      rw [readFields_cut hsep htext, hassoc, hlength, List.take_left, ← List.drop_drop,
        List.drop_left, List.drop_left, nameValue_sign (he c (Or.inr List.mem_cons_self)).1, hrest]
      rfl

/-- What the writer is given: names that are not empty, and a separator and a sign without a byte
of a name or a value. -/
structure Fits (m : Fields) (itemSeperator sign : Bytes) : Prop where
  separator_ne : itemSeperator ≠ []
  sign_ne : sign ≠ []
  separator_cstr : (0 : UInt8) ∉ itemSeperator
  sign_cstr : (0 : UInt8) ∉ sign
  names : ∀ e ∈ m.items, e.1 ≠ []
  apart : ∀ e ∈ m.items, Apart itemSeperator sign e

def NoNull (m : Fields) : Prop := ∀ e ∈ m.items, (0 : UInt8) ∉ e.1 ∧ (0 : UInt8) ∉ e.2

/-- The separator is the sign again and again, and either it is the sign, or a value is empty. -/
def Confused (m : Fields) (itemSeperator sign : Bytes) : Prop :=
  (∀ d ∈ itemSeperator, [d] = sign) ∧ (itemSeperator.length = 1 ∨ ∃ e ∈ m.items, e.2 = [])

section
variable {m : Fields}

theorem toString_eq (m : Fields) (sep sign : Bytes) :
    toString m sep sign = m.items.flatMap (fieldText sep sign) := by
  unfold toString fieldText
  simp only [List.append_assoc]

theorem itemList_eq (text sep sign : Bytes) :
    itemList text sep sign = readFields sep sign (cstr text) := rfl

/-- A map of the writer is none with a defect. -/
theorem Fits.insertAll_ne (h : Fits m sep sign) (hdefect : Defect sep sign l) :
    (OrderedMap.empty : Fields).insertAll l ≠ m := by
  intro heq
  obtain ⟨k, v, hv, hbad⟩ := hdefect
  have hfind : m.find k = some v := by
    rw [← heq, OrderedMap.find_insertAll, hv, Option.some_or]
  have hmem := OrderedMap.mem_of_find hfind
  rcases hbad with hk | ⟨c, hc, hbad⟩ | ⟨c, hc, hbad⟩
  · exact h.names _ hmem hk
  · exact (h.apart _ hmem c hbad).1 hc
  · exact (h.apart _ hmem c hbad).2 hc

/-- Nothing with a null is read. -/
theorem noNull_of_read {text : Bytes} (hread : parseItemsEx text sep sign = m) : NoNull m := by
  intro e he
  have hfind := OrderedMap.find_of_mem he
  rw [← hread, parseItemsEx, OrderedMap.find_insertAll, OrderedMap.find_empty,
    Option.or_none] at hfind
  obtain ⟨nv, hnv, heq⟩ := List.mem_map.mp (mem_of_lastValue hfind)
  have hnull := itemsLoop_no_null (cstr_not_mem text) _ nv hnv
  have hparts : (0 : UInt8) ∉ (nameValue sign nv).1 ∧ (0 : UInt8) ∉ (nameValue sign nv).2 := by
    rw [nameValue]
    cases strstr nv sign with
    | none => exact ⟨hnull, List.not_mem_nil⟩
    | some p =>
        exact ⟨fun hc => hnull (List.mem_of_mem_take hc),
          fun hc => hnull (List.mem_of_mem_drop hc)⟩
  rwa [heq] at hparts

theorem Fits.no_null (h : Fits m sep sign) (hm : NoNull m) : (0 : UInt8) ∉ toString m sep sign := by
  rw [toString_eq]
  intro hc
  obtain ⟨e, he, hc⟩ := List.mem_flatMap.mp hc
  have hsep := h.separator_cstr
  have hsign := h.sign_cstr
  have hnull := hm e he
  simp only [fieldText, List.mem_append] at hc
  tauto

/-- Lists that are not those that are read as they were written have a defect, or are of values
that are lost. -/
theorem Fits.read_ne (h : Fits m sep sign) (hne : m.items ≠ [])
    (hbad : sign.length ≠ 1 ∨ Confused m sep sign) :
    (OrderedMap.empty : Fields).insertAll
      (readFields sep sign (m.items.flatMap (fieldText sep sign))) ≠ m := by
  by_cases heq : sep = sign
  · subst heq
    by_cases hvalues : ∀ e ∈ m.items, e.2 = []
    · obtain ⟨e, rest, hitems⟩ := List.exists_cons_of_ne_nil hne
      apply h.insertAll_ne
      have he : e ∈ m.items := hitems ▸ List.mem_cons_self
      rw [hitems, List.flatMap_cons]
      exact defect_of_equal h.separator_ne (h.apart e he) (hvalues e he) _
    · push Not at hvalues
      obtain ⟨e, he, hvalue⟩ := hvalues
      intro hread
      have hfind := OrderedMap.find_of_mem he
      rw [← hread, OrderedMap.find_insertAll, OrderedMap.find_empty, Option.or_none] at hfind
      exact hvalue (value_of_equal h.separator_ne _ _ (mem_of_lastValue hfind))
  · apply h.insertAll_ne
    have hlength := List.length_pos_of_ne_nil h.sign_ne
    by_cases hlong : 2 ≤ sign.length
    · exact defect_of_long_sign h.separator_ne hlong heq h.apart hne
    · obtain ⟨hall, hcases⟩ := hbad.resolve_left (by omega)
      obtain ⟨c, rfl⟩ := List.length_eq_one_iff.mp (show sign.length = 1 by omega)
      have hall : ∀ d ∈ sep, d = c := fun d hd => by simpa using hall d hd
      have hempty : ∃ e ∈ m.items, e.2 = [] := by
        apply hcases.resolve_left
        intro hone
        obtain ⟨d, rfl⟩ := List.length_eq_one_iff.mp hone
        exact heq (by rw [hall d (List.mem_singleton_self d)])
      exact defect_of_empty_value h.separator_ne hall heq h.apart hempty

/-- What is written is read again if the sign has one byte, the text has no null, and the
separator is not taken for the sign. -/
theorem parseItems_toString_iff (h : Fits m sep sign) :
    (parseItems (toString m sep sign) sep sign false = m ∧
      parseItemsEx (toString m sep sign) sep sign = m) ↔
    m.items = [] ∨ sign.length = 1 ∧ NoNull m ∧ ¬ Confused m sep sign := by
  have hsame : parseItems (toString m sep sign) sep sign false =
      parseItemsEx (toString m sep sign) sep sign := rfl
  rw [hsame, and_self_iff]
  constructor
  · intro hread
    by_cases hnil : m.items = []
    · exact Or.inl hnil
    · right
      have hnull := noNull_of_read hread
      rw [parseItemsEx, itemList_eq, cstr_eq_self (h.no_null hnull), toString_eq] at hread
      refine ⟨?_, hnull, ?_⟩
      · by_contra hlong
        exact h.read_ne hnil (Or.inl hlong) hread
      · intro hconfused
        exact h.read_ne hnil (Or.inr hconfused) hread
  · rintro (hnil | ⟨hone, hnull, hclear⟩)
    · have htext : toString m sep sign = [] := by rw [toString_eq, hnil, List.flatMap_nil]
      rw [htext, parseItemsEx, itemList_eq, show cstr [] = [] from rfl,
        readFields_nil h.separator_ne]
      exact OrderedMap.ext_items hnil.symm
    · obtain ⟨c, rfl⟩ := List.length_eq_one_iff.mp hone
      have hfields : readFields sep [c] (m.items.flatMap (fieldText sep [c])) = m.items := by
        apply readFields_fields h.separator_ne h.apart
        intro hall
        constructor
        · intro hlength
          exact hclear ⟨fun d hd => by rw [hall d hd], Or.inl hlength⟩
        · intro e he hvalue
          exact hclear ⟨fun d hd => by rw [hall d hd], Or.inr ⟨e, he, hvalue⟩⟩
      rw [parseItemsEx, itemList_eq, cstr_eq_self (h.no_null hnull), toString_eq, hfields]
      exact m.insertAll_perm (List.Perm.refl _)

/-- `a` with the value `b`, and `c` with no value. -/
theorem parseItems_toString_two : ∃ m : Fields,
    m.items = [([97], [98]), ([99], [])] ∧
    toString m [44] [61] = [97, 61, 98, 44, 99, 61, 44] ∧
    parseItems (toString m [44] [61]) [44] [61] false = m := by
  have hfits : Fits ⟨[([97], [98]), ([99], [])], by decide⟩ [44] [61] :=
    { separator_ne := by decide
      sign_ne := by decide
      separator_cstr := by decide
      sign_cstr := by decide
      names := by decide
      apart := by simp [Apart] }
  refine ⟨_, rfl, by decide, ((parseItems_toString_iff hfits).mpr (Or.inr ⟨rfl, ?_, ?_⟩)).1⟩
  · unfold NoNull
    decide
  · simp [Confused]

/-- With the sign `:=` the value `1` is read as `=1`. -/
theorem parseItems_long_sign : ∃ m : Fields, Fits m [44] [58, 61] ∧
    m.items = [([97], [49])] ∧
    (parseItems (toString m [44] [58, 61]) [44] [58, 61] false).items = [([97], [61, 49])] ∧
    parseItems (toString m [44] [58, 61]) [44] [58, 61] false ≠ m ∧
    parseItemsEx (toString m [44] [58, 61]) [44] [58, 61] ≠ m := by
  refine ⟨⟨[([97], [49])], by decide⟩, ?_, rfl, by decide, by decide, by decide⟩
  exact
    { separator_ne := by decide
      sign_ne := by decide
      separator_cstr := by decide
      sign_cstr := by decide
      names := by decide
      apart := by simp [Apart] }

end

end CoreLooper.StringParam
