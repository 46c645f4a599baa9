import CoreLooper.FieldCodec

/-!
# Merging field strings

`MergeFields` parses both texts with the default separator and sign and writes the result with
those of the call. With the defaults the merged text holds the fields of the base that have a
value, overridden by all new ones; with any others there are texts for which it does not.
-/
namespace CoreLooper.StringParam

open CStrings TextSeparator

/-- A C string of one character. -/
abbrev OneChar := { c : UInt8 // c ≠ 0 }

/-- What the merged text holds, in the terms of the separator and the sign of the call. -/
def Merges (sep sign : UInt8) (base newFields : Bytes) : Prop :=
  ∀ k, (parseItems (mergeFields base newFields [sep] [sign]) [sep] [sign] false).find k =
    ((parseItems newFields [sep] [sign] false).find k).or
      (((parseItems base [sep] [sign] false).find k).filter (· ≠ []))

section
variable {sep sign : UInt8} {text : Bytes}

/-- Names have no byte of separator, sign or null; values may have the sign. -/
structure FieldOk (sep sign : UInt8) (e : Bytes × Bytes) : Prop where
  name_sep : sep ∉ e.1
  name_sign : sign ∉ e.1
  name_null : 0 ∉ e.1
  value_sep : sep ∉ e.2
  value_null : 0 ∉ e.2

theorem fieldOk_of_read {e : Bytes × Bytes} (he : e ∈ itemList text [sep] [sign]) :
    FieldOk sep sign e := by
  obtain ⟨nv, hnv, rfl⟩ := List.mem_map.mp he
  have hsep := itemsLoop_no_delimiter _ nv hnv
  have hnull := itemsLoop_no_null (cstr_not_mem text) _ nv hnv
  unfold nameValue
  cases hpos : strstr nv [sign] with
  | none => exact ⟨hsep, not_mem_of_strstr_none hpos, hnull, List.not_mem_nil, List.not_mem_nil⟩
  | some p =>
      exact ⟨fun h => hsep (List.mem_of_mem_take h), not_mem_take_of_strstr hpos,
        fun h => hnull (List.mem_of_mem_take h), fun h => hsep (List.mem_of_mem_drop h),
        fun h => hnull (List.mem_of_mem_drop h)⟩

/-- Fields that are read from a text are read again from the text they are written to. -/
theorem itemList_fields (hne : sep ≠ sign) (hsep : sep ≠ 0) (hsign : sign ≠ 0)
    {l : List (Bytes × Bytes)} (hl : ∀ e ∈ l, FieldOk sep sign e) :
    itemList (l.flatMap fun e => cstr e.1 ++ [sign] ++ cstr e.2 ++ [sep]) [sep] [sign] = l := by
  have hwritten : l.flatMap (fun e => cstr e.1 ++ [sign] ++ cstr e.2 ++ [sep]) =
      l.flatMap (fieldText [sep] [sign]) := by
    apply List.flatMap_congr
    intro e he
    rw [cstr_eq_self (hl e he).name_null, cstr_eq_self (hl e he).value_null, fieldText]
    simp only [List.append_assoc]
  have hnull : (0 : UInt8) ∉ l.flatMap (fieldText [sep] [sign]) := by
    intro h
    obtain ⟨e, he, h⟩ := List.mem_flatMap.mp h
    have hok := hl e he
    simp only [fieldText, List.mem_append, List.mem_singleton] at h
    rcases h with h | h | h | h
    · exact hok.name_null h
    · exact hsign h.symm
    · exact hok.value_null h
    · exact hsep h.symm
  rw [hwritten, itemList, cstr_eq_self hnull]
  clear hwritten hnull
  induction l with
  | nil => rw [List.flatMap_nil, items_nil (List.cons_ne_nil _ _), List.map_nil]
  | cons e l ih =>
      have hok := hl e List.mem_cons_self
      have hitem : sep ∉ e.1 ++ ([sign] ++ e.2) := by
        simp only [List.mem_append, List.mem_singleton, not_or]
        exact ⟨hok.name_sep, hne, hok.value_sep⟩
      have htext : (e :: l).flatMap (fieldText [sep] [sign]) = (e.1 ++ ([sign] ++ e.2)) ++
          ([sep] ++ l.flatMap (fieldText [sep] [sign])) := by
        simp only [List.flatMap_cons, fieldText, List.append_assoc]
      have hpos : strstr ((e.1 ++ ([sign] ++ e.2)) ++
          ([sep] ++ l.flatMap (fieldText [sep] [sign]))) [sep] =
          some (e.1 ++ ([sign] ++ e.2)).length := by
        rw [strstr_skip hitem, strstr_here (List.prefix_append _ _)]
        rfl
      rw [htext, items_cut (List.cons_ne_nil _ _) hpos, List.take_left, ← List.drop_drop,
        List.drop_left, List.drop_left, List.map_cons, nameValue_sign hok.name_sign,
        ih fun e' he' => hl e' (List.mem_cons_of_mem e he')]
      rfl

end

theorem lastValue_filter {l : List (Bytes × Bytes)} (hl : (l.map Prod.fst).Nodup) (k : Bytes) :
    lastValue k (l.filter (·.2 ≠ [])) = (lastValue k l).filter (· ≠ []) := by
  have hsub : ((l.filter (·.2 ≠ [])).map Prod.fst).Nodup :=
    hl.sublist (List.filter_sublist.map Prod.fst)
  cases hv : lastValue k l with
  | none =>
      rw [Option.filter_none, lastValue_eq_none_iff]
      intro a ha
      exact lastValue_eq_none_iff.mp hv a (List.mem_of_mem_filter ha)
  | some v =>
      by_cases hempty : v = []
      · rw [Option.filter_some_neg (by simpa using hempty), lastValue_eq_none_iff]
        rintro a ha rfl
        obtain ⟨hmem, hvalue⟩ := List.mem_filter.mp ha
        rw [lastValue_of_mem hl hmem] at hv
        rw [Option.some.inj hv, hempty] at hvalue
        simp at hvalue
      · rw [Option.filter_some_pos (by simpa using hempty)]
        apply lastValue_of_mem hsub
        exact List.mem_filter.mpr ⟨mem_of_lastValue hv, by simpa using hempty⟩

/-- The map that is written. -/
def merged (items1 items2 : Fields) : Fields :=
  ((OrderedMap.empty : Fields).insertAll (items1.items.filter (·.2 ≠ []))).insertAll items2.items

theorem find_merged (items1 items2 : Fields) (k : Bytes) : (merged items1 items2).find k =
    (items2.find k).or ((items1.find k).filter (· ≠ [])) := by
  rw [merged, OrderedMap.find_insertAll, OrderedMap.find_insertAll, OrderedMap.find_empty,
    Option.or_none, lastValue_filter items1.nodup_keys, ← OrderedMap.find_eq_lastValue,
    ← OrderedMap.find_eq_lastValue]

theorem find_parseItems (text sep sign k : Bytes) : (parseItems text sep sign false).find k =
    lastValue k (itemList text sep sign) := by
  show ((OrderedMap.empty : Fields).insertAll (itemList text sep sign)).find k = _
  rw [OrderedMap.find_insertAll, OrderedMap.find_empty, Option.or_none]

theorem fieldOk_merged {base newFields : Bytes} {sep sign : UInt8} {e : Bytes × Bytes}
    (he : e ∈ (merged (parseItems base [sep] [sign] false)
      (parseItems newFields [sep] [sign] false)).items) : FieldOk sep sign e := by
  have hfind := OrderedMap.find_of_mem he
  rw [find_merged, Option.or_eq_some_iff, find_parseItems, find_parseItems] at hfind
  rcases hfind with h | ⟨-, h⟩
  · exact fieldOk_of_read (mem_of_lastValue h)
  · exact fieldOk_of_read (mem_of_lastValue (Option.filter_eq_some_iff.mp h).1)

theorem merges_default (base newFields : Bytes) : Merges 44 61 base newFields := by
  intro k
  have hmerged : mergeFields base newFields [44] [61] =
      (merged (parseItems base [44] [61] false)
        (parseItems newFields [44] [61] false)).items.flatMap fun e => cstr e.1 ++ [61] ++
          cstr e.2 ++ [44] := rfl
  rw [find_parseItems, hmerged, itemList_fields (by decide) (by decide) (by decide)
    fun e he => fieldOk_merged he, ← OrderedMap.find_eq_lastValue, find_merged]

/-- A letter that is none of four bytes. -/
theorem exists_letter (sep sign : UInt8) :
    ∃ a : UInt8, a ≠ sep ∧ a ≠ sign ∧ a ≠ 0 ∧ a ≠ 44 ∧ a ≠ 61 := by
  have hcard : ({sep, sign, 0, 44, 61} : Finset UInt8).card < ({97, 98, 99, 100, 101, 102} :
      Finset UInt8).card := by
    refine Nat.lt_of_le_of_lt Finset.card_le_five ?_
    decide
  obtain ⟨a, -, ha⟩ := Finset.exists_mem_notMem_of_card_lt_card hcard
  simp only [Finset.mem_insert, Finset.mem_singleton, not_or] at ha
  exact ⟨a, ha⟩

/-- With one name in both texts, the merged text has one field. -/
theorem mergeFields_one {base newFields sep sign k v : Bytes}
    (hbase : ∀ e ∈ itemList base [44] [61], e.1 = k)
    (hnew : ∀ e ∈ itemList newFields [44] [61], e.1 = k)
    (hvalue : lastValue k (itemList newFields [44] [61]) = some v) :
    mergeFields base newFields sep sign = cstr k ++ sign ++ cstr v ++ sep := by
  have hone : merged (parseItems base [44] [61] false) (parseItems newFields [44] [61] false) =
      (OrderedMap.empty : Fields).insert k v := by
    apply OrderedMap.ext_find
    intro k'
    rw [find_merged, find_parseItems, find_parseItems, OrderedMap.find_insert]
    by_cases hk : k' = k
    · rw [if_pos hk, hk, hvalue, Option.some_or]
    · have hnone : ∀ {text : Bytes}, (∀ e ∈ itemList text [44] [61], e.1 = k) →
          lastValue k' (itemList text [44] [61]) = none := by
        intro text h
        rw [lastValue_eq_none_iff]
        intro e he heq
        exact hk (heq.symm.trans (h e he))
      rw [if_neg hk, hnone hbase, hnone hnew]
      rfl
  have hmerged : mergeFields base newFields sep sign =
      (merged (parseItems base [44] [61] false)
        (parseItems newFields [44] [61] false)).items.flatMap fun e => cstr e.1 ++ sign ++
          cstr e.2 ++ sep := rfl
  rw [hmerged, hone]
  show [(k, v)].flatMap _ = _
  rw [List.flatMap_cons, List.flatMap_nil, List.append_nil]

theorem itemList_nil (sep sign : UInt8) : itemList [] [sep] [sign] = [] := by
  rw [itemList, show cstr [] = [] from rfl, items_nil (List.cons_ne_nil _ _), List.map_nil]

section
variable {sep sign a : UInt8}

/-- With the separator for a sign, the text of a name without a value has a second item. -/
theorem not_merges_equal (h : sep ≠ 0) (ha : a ≠ sep) (ha0 : a ≠ 0) (ha44 : a ≠ 44)
    (ha61 : a ≠ 61) : ¬ Merges sep sep [] [a] := by
  intro hmerges
  have hcode : itemList [a] [44] [61] = [([a], [])] := by
    simp [itemList, items, itemsLoop, getNext, strstr, cstr, nameValue, ha0, ha44.symm, ha61.symm]
  have hcall : itemList [a] [sep] [sep] = [([a], [])] := by
    simp [itemList, items, itemsLoop, getNext, strstr, cstr, nameValue, ha0, ha.symm]
  have htext : mergeFields [] [a] [sep] [sep] = [a, sep, sep] := by
    rw [mergeFields_one (k := [a]) (v := [])]
    · simp [cstr, ha0]
    · simp [itemList_nil]
    · simp [hcode]
    · simp [hcode, lastValue]
  have hread : itemList [a, sep, sep] [sep] [sep] = [([a], []), ([], [])] := by
    simp [itemList, items, itemsLoop, getNext, strstr, cstr, nameValue, ha0, h, ha.symm]
  have := hmerges []
  rw [find_parseItems, find_parseItems, find_parseItems, htext, hread, hcall, itemList_nil] at this
  simp [lastValue] at this

/-- Another sign is not seen when the new text is parsed. -/
theorem not_merges_sign (hsep : sep ≠ 0) (hsign : sign ≠ 0) (hne : sep ≠ sign) (h : sign ≠ 61)
    (hasep : a ≠ sep) (hasign : a ≠ sign) (ha0 : a ≠ 0) (ha44 : a ≠ 44) (ha61 : a ≠ 61) :
    ¬ Merges sep sign [] [a, sign, a] := by
  intro hmerges
  have hcall : itemList [a, sign, a] [sep] [sign] = [([a], [a])] := by
    simp [itemList, items, itemsLoop, getNext, strstr, cstr, nameValue, ha0, hsign, hasep.symm,
      hasign.symm, hne]
  have hvalue := hmerges [a]
  rw [find_parseItems, find_parseItems, find_parseItems, hcall, itemList_nil] at hvalue
  by_cases hcomma : sign = 44
  · have hcode : itemList [a, sign, a] [44] [61] = [([a], []), ([a], [])] := by
      subst hcomma
      simp [itemList, items, itemsLoop, getNext, strstr, cstr, nameValue, ha0, ha44.symm, ha61.symm]
    have htext : mergeFields [] [a, sign, a] [sep] [sign] = [a, sign, sep] := by
      rw [mergeFields_one (k := [a]) (v := [])]
      · simp [cstr, ha0]
      · simp [itemList_nil]
      · simp [hcode]
      · simp [hcode, lastValue]
    have hread : itemList [a, sign, sep] [sep] [sign] = [([a], [])] := by
      simp [itemList, items, itemsLoop, getNext, strstr, cstr, nameValue, ha0, hsep, hsign,
        hasep.symm, hasign.symm, hne]
    rw [htext, hread] at hvalue
    simp [lastValue] at hvalue
  · have hcode : itemList [a, sign, a] [44] [61] = [([a, sign, a], [])] := by
      simp [itemList, items, itemsLoop, getNext, strstr, cstr, nameValue, ha0, hsign, ha44.symm,
        ha61.symm, Ne.symm hcomma, h.symm]
    have htext : mergeFields [] [a, sign, a] [sep] [sign] = [a, sign, a, sign, sep] := by
      rw [mergeFields_one (k := [a, sign, a]) (v := [])]
      · simp [cstr, ha0, hsign]
      · simp [itemList_nil]
      · simp [hcode]
      · simp [hcode, lastValue]
    have hread : itemList [a, sign, a, sign, sep] [sep] [sign] = [([a], [a, sign])] := by
      simp [itemList, items, itemsLoop, getNext, strstr, cstr, nameValue, ha0, hsep, hsign,
        hasep.symm, hasign.symm, hne]
    rw [htext, hread] at hvalue
    simp [lastValue] at hvalue

/-- With another separator, all that follows the first sign is one value, which is overridden. -/
theorem not_merges_separator (hsep : sep ≠ 0) (hne : sep ≠ 61) (h : sep ≠ 44) (hasep : a ≠ sep)
    (ha0 : a ≠ 0) (ha44 : a ≠ 44) (ha61 : a ≠ 61) :
    ¬ Merges sep 61 [a, 61, a, sep, a, a, 61, a] [a, 61, a] := by
  intro hmerges
  have hbase : itemList [a, 61, a, sep, a, a, 61, a] [sep] [61] = [([a], [a]), ([a, a], [a])] := by
    simp [itemList, items, itemsLoop, getNext, strstr, cstr, nameValue, ha0, hsep, hasep.symm,
      ha61.symm, hne]
  have hnew : itemList [a, 61, a] [sep] [61] = [([a], [a])] := by
    simp [itemList, items, itemsLoop, getNext, strstr, cstr, nameValue, ha0, hasep.symm,
      ha61.symm, hne]
  have hbase' : itemList [a, 61, a, sep, a, a, 61, a] [44] [61] =
      [([a], [a, sep, a, a, 61, a])] := by
    simp [itemList, items, itemsLoop, getNext, strstr, cstr, nameValue, ha0, hsep, ha44.symm,
      ha61.symm, h.symm]
  have hnew' : itemList [a, 61, a] [44] [61] = [([a], [a])] := by
    simp [itemList, items, itemsLoop, getNext, strstr, cstr, nameValue, ha0, ha44.symm, ha61.symm]
  have htext : mergeFields [a, 61, a, sep, a, a, 61, a] [a, 61, a] [sep] [61] =
      [a, 61, a, sep] := by
    rw [mergeFields_one (k := [a]) (v := [a])]
    · simp [cstr, ha0]
    · simp [hbase']
    · simp [hnew']
    · simp [hnew', lastValue]
  have hread : itemList [a, 61, a, sep] [sep] [61] = [([a], [a])] := by
    simp [itemList, items, itemsLoop, getNext, strstr, cstr, nameValue, ha0, hsep, hasep.symm,
      ha61.symm, hne]
  have := hmerges [a, a]
  rw [find_parseItems, find_parseItems, find_parseItems, htext, hread, hbase, hnew] at this
  simp [lastValue, Option.filter] at this

end

/-- The separator and the sign are used at every step only if they are the defaults. -/
theorem merges_iff (sep sign : OneChar) :
    (∀ base newFields, Merges sep sign base newFields) ↔
      (sep : UInt8) = 44 ∧ (sign : UInt8) = 61 := by
  constructor
  · intro h
    obtain ⟨a, hasep, hasign, ha0, ha44, ha61⟩ := exists_letter sep sign
    by_cases hne : (sep : UInt8) = sign
    · rw [← hne] at h
      exact absurd (h _ _) (not_merges_equal sep.2 hasep ha0 ha44 ha61)
    · by_cases hsign : (sign : UInt8) = 61
      · refine ⟨?_, hsign⟩
        by_contra hsep
        rw [hsign] at h hne
        exact not_merges_separator sep.2 hne hsep hasep ha0 ha44 ha61 (h _ _)
      · exact absurd (h _ _)
          (not_merges_sign sep.2 sign.2 hne hsign hasep hasign ha0 ha44 ha61)
  · rintro ⟨hsep, hsign⟩ base newFields
    rw [hsep, hsign]
    exact merges_default base newFields

/-- `a=1;b=2` with `a=3` and the separator `;` is merged to `a=3;`. -/
theorem mergeFields_semicolon :
    mergeFields [97, 61, 49, 59, 98, 61, 50] [97, 61, 51] [59] [61] = [97, 61, 51, 59] ∧
    ¬ Merges 59 61 [97, 61, 49, 59, 98, 61, 50] [97, 61, 51] := by
  refine ⟨by decide, ?_⟩
  intro h
  have := h [98]
  revert this
  decide

end CoreLooper.StringParam
