import CoreLooper.FieldCodec

/-!
# Field strings read in place

`ParseItemsInPlace` against `ParseItems` into a vector. The scan in place goes on one byte
behind the start of a separator, where the other one goes on behind its end, and it never fills
the last place of the array.
-/
namespace CoreLooper.StringParam

open CStrings TextSeparator
open Ini (trim)

theorem cstr_set {m : Bytes} {k : ℕ} (hk : k < (cstr m).length) :
    cstr (m.set k 0) = (cstr m).take k := by
  induction m generalizing k with
  | nil => cases hk
  | cons c m ih =>
      unfold cstr at hk ih ⊢
      by_cases hc : c = 0
      · rw [hc, List.takeWhile_cons_of_neg (by simp)] at hk
        cases hk
      · rw [List.takeWhile_cons_of_pos (by simpa using hc)] at hk ⊢
        cases k with
        | zero => simp
        | succ k =>
            rw [List.set_cons_succ, List.takeWhile_cons_of_pos (by simpa using hc),
              List.take_succ_cons]
            congr 1
            exact ih (Nat.lt_of_succ_lt_succ hk)

/-- A null behind the place that is read. -/
theorem cstr_drop_set {m : Bytes} {s k : ℕ} (hk : k < (cstr (m.drop s)).length) :
    cstr ((m.set (s + k) 0).drop s) = (cstr (m.drop s)).take k := by
  rw [List.drop_set, if_neg (by omega), Nat.add_sub_cancel_left, cstr_set hk]

/-- A null in front of it. -/
theorem drop_set_before (m : Bytes) {j k : ℕ} (h : j < k) : (m.set j 0).drop k = m.drop k := by
  rw [List.drop_set, if_pos h]

/-- What one item gives: nothing without a sign. -/
def pieceItem (item : Bytes) : Option TagNameValue :=
  (strstr item [61]).map fun p => ⟨item.take p, item.drop (p + 1)⟩

/-- The items of the scan in place, if there were room for all. -/
def scan (sep : Bytes) (text : Bytes) : List TagNameValue :=
  if _h : text = [] then []
  else
    match strstr text sep with
    | none => (pieceItem text).toList
    | some e => (pieceItem (text.take e)).toList ++ scan sep (text.drop (e + 1))
termination_by text.length
decreasing_by
  rw [List.length_drop]
  have := List.length_pos_of_ne_nil _h
  omega

variable {sep text : Bytes}

theorem scan_nil (sep : Bytes) : scan sep [] = [] := by
  rw [scan, dif_pos rfl]

theorem scan_last (h : strstr text sep = none) : scan sep text = (pieceItem text).toList := by
  rw [scan]
  split
  · next hnil =>
      subst hnil
      rfl
  · rw [h]

theorem scan_cut (ht : text ≠ []) {e : ℕ} (h : strstr text sep = some e) :
    scan sep text = (pieceItem (text.take e)).toList ++ scan sep (text.drop (e + 1)) := by
  rw [scan, dif_neg ht, h]

/-- An item is put into the array, if it is one. -/
def pushPiece (itemCount : ℕ) (ackItems : List TagNameValue) (item : Bytes) : List TagNameValue :=
  match pieceItem item with
  | none => ackItems
  | some i => pushItems ackItems itemCount i.name i.value

/-- The items go into the places that are left. -/
theorem pushPiece_take {itemCount : ℕ} {ackItems : List TagNameValue}
    (h : ackItems.length ≤ itemCount - 1) (item : Bytes) (l : List TagNameValue) :
    (pushPiece itemCount ackItems item).length ≤ itemCount - 1 ∧
    pushPiece itemCount ackItems item ++
      l.take (itemCount - 1 - (pushPiece itemCount ackItems item).length) =
    ackItems ++ ((pieceItem item).toList ++ l).take (itemCount - 1 - ackItems.length) := by
  unfold pushPiece
  cases pieceItem item with
  | none => exact ⟨h, rfl⟩
  | some i =>
      unfold pushItems
      dsimp only [Option.toList_some]
      rw [List.singleton_append]
      split_ifs with hroom
      · obtain ⟨d, hd⟩ := Nat.exists_eq_add_of_lt hroom
        have hleft : itemCount - 1 - ackItems.length = d + 1 := by omega
        have hleft' :
            itemCount - 1 - (ackItems ++ [TagNameValue.mk i.name i.value]).length = d := by
          rw [List.length_append, List.length_singleton]
          omega
        constructor
        · rw [List.length_append, List.length_singleton]
          omega
        · rw [hleft, hleft', List.take_succ_cons, List.append_assoc, List.singleton_append]
      · have hnone : itemCount - 1 - ackItems.length = 0 := by omega
        exact ⟨h, by rw [hnone, List.take_zero, List.take_zero]⟩

section
variable {itemCount fuel s : ℕ} {data : Bytes} {ackItems : List TagNameValue}

/-- The nulls of one round: one where the sign was, none behind the item. -/
theorem pushPiece_eq {item : Bytes} (hitem : cstr (data.drop s) = item) :
    (match strstr (cstr (data.drop s)) [61] with
      | some p =>
          pushItems ackItems itemCount
            (cstr ((match strstr (cstr (data.drop s)) [61] with
              | some p => data.set (s + p) 0
              | none => data).drop s))
            (cstr ((match strstr (cstr (data.drop s)) [61] with
              | some p => data.set (s + p) 0
              | none => data).drop (s + p + 1)))
      | none => ackItems) = pushPiece itemCount ackItems item := by
  subst hitem
  unfold pushPiece pieceItem
  cases hp : strstr (cstr (data.drop s)) [61] with
  | none => rfl
  | some p =>
      have hle := strstr_add_length_le hp
      rw [List.length_singleton] at hle
      have hvalue : cstr ((data.set (s + p) 0).drop (s + p + 1)) =
          (cstr (data.drop s)).drop (p + 1) := by
        rw [drop_set_before data (by omega), ← cstr_drop hle, List.drop_drop, Nat.add_assoc]
      simp only [Option.map_some]
      rw [cstr_drop_set (by omega), hvalue]

theorem inPlaceLoop_last (ht : cstr (data.drop s) ≠ [])
    (h : strstr (cstr (data.drop s)) sep = none) :
    inPlaceLoop itemCount sep (fuel + 1) data s ackItems =
      pushPiece itemCount ackItems (cstr (data.drop s)) := by
  simp only [inPlaceLoop, if_neg ht, h]
  exact pushPiece_eq rfl

variable (itemCount fuel ackItems) in
theorem inPlaceLoop_cut (hsep : sep ≠ []) (ht : cstr (data.drop s) ≠ []) {e : ℕ}
    (h : strstr (cstr (data.drop s)) sep = some e) : ∃ data' : Bytes,
    cstr (data'.drop (s + e + 1)) = (cstr (data.drop s)).drop (e + 1) ∧
    inPlaceLoop itemCount sep (fuel + 1) data s ackItems =
      inPlaceLoop itemCount sep fuel data' (s + e + 1)
        (pushPiece itemCount ackItems ((cstr (data.drop s)).take e)) := by
  have hle := strstr_add_length_le h
  have hpos := List.length_pos_of_ne_nil hsep
  have hitem : cstr ((data.set (s + e) 0).drop s) = (cstr (data.drop s)).take e :=
    cstr_drop_set (by omega)
  refine ⟨match strstr (cstr ((data.set (s + e) 0).drop s)) [61] with
    | some p => (data.set (s + e) 0).set (s + p) 0
    | none => data.set (s + e) 0, ?_, ?_⟩
  · have hend : cstr ((data.set (s + e) 0).drop (s + e + 1)) =
        (cstr (data.drop s)).drop (e + 1) := by
      rw [drop_set_before data (by omega), ← cstr_drop (by omega), List.drop_drop, Nat.add_assoc]
    cases hp : strstr (cstr ((data.set (s + e) 0).drop s)) [61] with
    | none => exact hend
    | some p =>
        have hple := strstr_add_length_le hp
        rw [hitem, List.length_take, List.length_singleton] at hple
        rw [drop_set_before _ (by omega), hend]
  · simp only [inPlaceLoop, if_neg ht, h]
    congr 1
    exact pushPiece_eq hitem

theorem inPlaceLoop_eq (hsep : sep ≠ []) (hfuel : (cstr (data.drop s)).length < fuel)
    (hroom : ackItems.length ≤ itemCount - 1) :
    inPlaceLoop itemCount sep fuel data s ackItems =
      ackItems ++ (scan sep (cstr (data.drop s))).take (itemCount - 1 - ackItems.length) := by
  induction fuel generalizing s data ackItems with
  | zero => cases hfuel
  | succ fuel ih =>
      by_cases ht : cstr (data.drop s) = []
      · rw [inPlaceLoop, if_pos ht, ht, scan_nil, List.take_nil, List.append_nil]
      · cases hpos : strstr (cstr (data.drop s)) sep with
        | none =>
            have hpush := (pushPiece_take hroom (cstr (data.drop s)) []).2
            rw [List.take_nil, List.append_nil, List.append_nil] at hpush
            rw [inPlaceLoop_last ht hpos, scan_last hpos, hpush]
        | some e =>
            obtain ⟨data', hrest, hloop⟩ := inPlaceLoop_cut itemCount fuel ackItems hsep ht hpos
            have hpush := pushPiece_take hroom ((cstr (data.drop s)).take e)
              (scan sep ((cstr (data.drop s)).drop (e + 1)))
            have hlength := List.length_pos_of_ne_nil ht
            rw [hloop, ih _ hpush.1, hrest, scan_cut ht hpos, hpush.2]
            rw [hrest, List.length_drop]
            omega

/-- The array gets the first items of the scan, but for its last place. -/
theorem parseItemsInPlace_eq (hsep : sep ≠ []) (data : Bytes) (itemCount : ℕ) :
    parseItemsInPlace data itemCount sep = (scan sep (cstr data)).take (itemCount - 1) := by
  unfold parseItemsInPlace
  split_ifs with hnone
  · rcases hnone with h | h | h
    · rw [h, scan_nil, List.take_nil]
    · rw [h]
      rfl
    · exact absurd h hsep
  · rw [inPlaceLoop_eq hsep (by simp) (Nat.zero_le _)]
    simp

end

def restsLoop (sep : Bytes) : ℕ → Bytes → List Bytes
  | 0, _ => []
  | fuel + 1, text =>
      match strstr text sep with
      | none => []
      | some p =>
          text.drop (p + sep.length) :: restsLoop sep fuel (text.drop (p + sep.length))

/-- What is left behind each separator. -/
def rests (sep text : Bytes) : List Bytes := restsLoop sep (text.length + 1) text

/-- Wherever there is text behind a separator, the separator stands there again, from its own
last byte on. With one byte, it always does. -/
def Rejoins (sep text : Bytes) : Prop :=
  ∀ r ∈ rests sep text, r ≠ [] → sep <+: sep.drop (sep.length - 1) ++ r

instance (sep text : Bytes) : Decidable (Rejoins sep text) := by unfold Rejoins; infer_instance

theorem restsLoop_fuel (hsep : sep ≠ []) {fuel fuel' : ℕ} (h : text.length < fuel)
    (h' : text.length < fuel') : restsLoop sep fuel text = restsLoop sep fuel' text := by
  induction fuel generalizing fuel' text with
  | zero => cases h
  | succ fuel ih =>
      obtain ⟨fuel', rfl⟩ := Nat.exists_eq_succ_of_ne_zero (Nat.ne_of_gt (Nat.zero_lt_of_lt h'))
      unfold restsLoop
      cases hpos : strstr text sep with
      | none => rfl
      | some p =>
          have hle := strstr_add_length_le hpos
          have := List.length_pos_of_ne_nil hsep
          dsimp only
          congr 1
          apply ih
          · rw [List.length_drop]
            omega
          · rw [List.length_drop]
            omega

theorem rests_last (h : strstr text sep = none) : rests sep text = [] := by
  rw [rests, restsLoop, h]

theorem rests_cut (hsep : sep ≠ []) {p : ℕ} (h : strstr text sep = some p) :
    rests sep text =
      text.drop (p + sep.length) :: rests sep (text.drop (p + sep.length)) := by
  have hle := strstr_add_length_le h
  have := List.length_pos_of_ne_nil hsep
  rw [rests, restsLoop, h, rests]
  dsimp only
  congr 1
  apply restsLoop_fuel hsep
  · rw [List.length_drop]
    omega
  · omega

theorem pieceItem_of_mem {item : Bytes} (h : 61 ∈ item) :
    ∃ p, strstr item [61] = some p ∧ pieceItem item = some ⟨item.take p, item.drop (p + 1)⟩ := by
  obtain ⟨j, -, hj⟩ := exists_starts h
  obtain ⟨p, hp⟩ := Option.isSome_iff_exists.mp (strstr_isSome hj)
  exact ⟨p, hp, by rw [pieceItem, hp, Option.map_some]⟩

theorem pieceItem_append {u : Bytes} (hu : 61 ∉ u) (x : Bytes) :
    pieceItem (u ++ x) = (pieceItem x).map fun i => ⟨u ++ i.name, i.value⟩ := by
  rw [pieceItem, strstr_skip hu, pieceItem]
  cases strstr x [61] with
  | none => rfl
  | some p =>
      simp only [Option.map_some]
      rw [List.take_length_add_append, Nat.add_assoc, ← List.drop_drop, List.drop_left]

theorem pieceItem_none {item : Bytes} (h : 61 ∉ item) : pieceItem item = none := by
  have := pieceItem_append h []
  rw [List.append_nil] at this
  rw [this]
  rfl

/-- What the vector gets. -/
def fields (sep text : Bytes) : List TagNameValue := (items text sep).filterMap pieceItem

/-- Bytes of a separator in front of an item are read into its name. -/
theorem take_ne_fields {u i r : Bytes} {l : List TagNameValue} {is : List Bytes} {m : ℕ}
    (hu : u ≠ []) (hsign : 61 ∉ u) (hi : 61 ∈ i) (hitems : items r sep = i :: is) (hm : 1 ≤ m) :
    ((pieceItem (u ++ i)).toList ++ l).take m ≠ fields sep r := by
  obtain ⟨p, -, hpiece⟩ := pieceItem_of_mem hi
  obtain ⟨m, rfl⟩ := Nat.exists_eq_add_of_le' hm
  rw [pieceItem_append hsign, hpiece, Option.map_some, Option.toList_some, List.singleton_append,
    List.take_succ_cons, fields, hitems, List.filterMap_cons_some hpiece]
  intro h
  have hname := congrArg (fun i => List.length i.name) (List.cons.inj h).1
  have := List.length_pos_of_ne_nil hu
  simp only [List.length_append] at hname
  omega

theorem drop_last_of_suffix {u : Bytes} (hu : u ≠ []) (h : u <:+ sep) :
    u.drop (u.length - 1) = sep.drop (sep.length - 1) := by
  obtain ⟨t, rfl⟩ := h
  have := List.length_pos_of_ne_nil hu
  rw [List.length_append, Nat.add_sub_assoc this, ← List.drop_drop, List.drop_left]

/-- Without an occurrence in `u`, the first item behind it begins with `u`. -/
theorem scan_append {u r : Bytes} (hr : r ≠ []) (hsep : sep ≠ [])
    (h : ∀ j < u.length, ¬ sep <+: (u ++ r).drop j) : ∃ i is l, items r sep = i :: is ∧
      scan sep (u ++ r) = (pieceItem (u ++ i)).toList ++ l := by
  have hpass := strstr_pass h
  cases hpos : strstr r sep with
  | none =>
      rw [hpos, Option.map_none] at hpass
      exact ⟨r, [], [], items_last hr hpos, by rw [scan_last hpass, List.append_nil]⟩
  | some p =>
      rw [hpos, Option.map_some] at hpass
      refine ⟨r.take p, _, scan sep ((u ++ r).drop (u.length + p + 1)), items_cut hsep hpos, ?_⟩
      rw [scan_cut (List.append_ne_nil_of_right_ne_nil u hr) hpass, List.take_length_add_append]

/-- A tail of the separator in front of the rest is passed if the separator stands at its last
byte, or nothing follows; otherwise it is taken for a part of the next name. -/
theorem take_scan_tail (hsep : sep ≠ []) {u r : Bytes} (hsuffix : u <:+ sep)
    (hlength : u.length < sep.length) (hu : 61 ∉ u) (hsign : ∀ nv ∈ items r sep, 61 ∈ nv) {m : ℕ}
    (hm : (items r sep).length ≤ m) : (scan sep (u ++ r)).take m = fields sep r ↔
      (r ≠ [] → u ≠ [] → sep <+: sep.drop (sep.length - 1) ++ r) ∧
        (scan sep r).take m = fields sep r := by
  induction hn : u.length using Nat.strong_induction_on generalizing u with
  | _ n ih =>
      by_cases hnil : u = []
      · simp [hnil]
      · by_cases hr : r = []
        · have hnone : strstr u sep = none := by
            cases hpos : strstr u sep with
            | none => rfl
            | some p =>
                have := strstr_add_length_le hpos
                omega
          rw [hr, List.append_nil, scan_last hnone, pieceItem_none hu, scan_nil]
          simp [fields, items_nil hsep]
        · by_cases hin : ∃ j < u.length, sep <+: (u ++ r).drop j
          · obtain ⟨j₀, hj₀, hp₀⟩ := hin
            obtain ⟨j, hj⟩ := Option.isSome_iff_exists.mp (strstr_isSome hp₀)
            have hlt : j < u.length := by
              by_contra hge
              exact strstr_first hj (by omega) hp₀
            have htake : (u ++ r).take j = u.take j :=
              List.take_append_of_le_length (Nat.le_of_lt hlt)
            have hpiece : pieceItem (u.take j) = none :=
              pieceItem_none fun h => hu (List.mem_of_mem_take h)
            rw [scan_cut (List.append_ne_nil_of_left_ne_nil hnil r) hj, htake, hpiece,
              Option.toList_none, List.nil_append, List.drop_append_of_le_length hlt,
              ih (u.drop (j + 1)).length (by rw [List.length_drop]; omega)
                ((List.drop_suffix _ _).trans hsuffix) (by rw [List.length_drop]; omega)
                (fun h => hu (List.mem_of_mem_drop h)) rfl]
            by_cases hlast : u.drop (j + 1) = []
            · have hfound := strstr_found hj
              have hj' : j = u.length - 1 := by
                have := congrArg List.length hlast
                rw [List.length_drop, List.length_nil] at this
                omega
              rw [List.drop_append_of_le_length (Nat.le_of_lt hlt), hj',
                drop_last_of_suffix hnil hsuffix] at hfound
              simp [hlast, hfound]
            · simp [hlast, hnil]
          · have hnone : ∀ j < u.length, ¬ sep <+: (u ++ r).drop j := fun j hj hp =>
              hin ⟨j, hj, hp⟩
            obtain ⟨i, is, l, hitems, hscan⟩ := scan_append hr hsep hnone
            have hi : 61 ∈ i := hsign i (hitems ▸ List.mem_cons_self)
            have hone : 1 ≤ m := by
              rw [hitems, List.length_cons] at hm
              omega
            constructor
            · intro h
              rw [hscan] at h
              exact absurd h (take_ne_fields hnil hu hi hitems hone)
            · rintro ⟨hrejoin, -⟩
              have hpos := List.length_pos_of_ne_nil hnil
              refine absurd ?_ (hnone (u.length - 1) (by omega))
              rw [List.drop_append_of_le_length (by omega), drop_last_of_suffix hnil hsuffix]
              exact hrejoin hr hnil

/-- With room for all, the scan gives the same items if it rejoins behind every separator. -/
theorem take_scan_iff (hsep : sep ≠ []) (h61 : 61 ∉ sep.tail) (text : Bytes)
    (hsign : ∀ nv ∈ items text sep, 61 ∈ nv) {m : ℕ} (hm : (items text sep).length ≤ m) :
    (scan sep text).take m = fields sep text ↔ Rejoins sep text := by
  induction hn : text.length using Nat.strong_induction_on generalizing text m with
  | _ n ih =>
      cases hpos : strstr text sep with
      | none =>
          have hrejoins : Rejoins sep text := by simp [Rejoins, rests_last hpos]
          refine iff_of_true ?_ hrejoins
          by_cases htext : text = []
          · rw [htext, scan_nil, List.take_nil, fields, items_nil hsep, List.filterMap_nil]
          · rw [items_last htext hpos] at hm hsign
            obtain ⟨p, -, hpiece⟩ := pieceItem_of_mem (hsign text (List.mem_singleton_self _))
            rw [List.length_singleton] at hm
            obtain ⟨m, rfl⟩ := Nat.exists_eq_add_of_le' hm
            rw [scan_last hpos, fields, items_last htext hpos, hpiece,
              List.filterMap_cons_some hpiece, List.filterMap_nil, Option.toList_some,
              List.take_succ_cons, List.take_nil]
      | some e =>
          have hlength := List.length_pos_of_ne_nil hsep
          have hle := strstr_add_length_le hpos
          have htext : text ≠ [] := List.ne_nil_of_length_pos (by omega)
          set r := text.drop (e + sep.length) with hr
          have hitems : items text sep = text.take e :: items r sep := items_cut hsep hpos
          rw [hitems] at hm hsign
          rw [List.length_cons] at hm
          obtain ⟨m, rfl⟩ := Nat.exists_eq_add_of_le' (Nat.le_of_add_left_le hm)
          have hrest : text.drop (e + 1) = sep.tail ++ r := by
            obtain ⟨x, hx⟩ := strstr_found hpos
            have hx' : x = r := by rw [hr, ← List.drop_drop, ← hx, List.drop_left]
            rw [← List.drop_drop, ← hx, hx']
            cases sep with
            | nil => exact absurd rfl hsep
            | cons s ss => rfl
          have htail : sep.tail.length < sep.length := by
            rw [List.length_tail]
            omega
          obtain ⟨p, -, hpiece⟩ := pieceItem_of_mem (hsign _ List.mem_cons_self)
          have hsign' := fun nv hnv => hsign nv (List.mem_cons_of_mem _ hnv)
          rw [scan_cut htext hpos, fields, hitems, hpiece, List.filterMap_cons_some hpiece,
            Option.toList_some, List.singleton_append, List.take_succ_cons, List.cons_inj_right,
            hrest, ← fields,
            take_scan_tail hsep (List.tail_suffix sep) htail h61 hsign' (by omega),
            ih r.length (by rw [hr, List.length_drop]; omega) r hsign' (by omega) rfl]
          unfold Rejoins
          rw [rests_cut hsep hpos, List.forall_mem_cons, ← hr]
          refine and_congr_left fun _ => forall_congr' fun _ => ?_
          refine ⟨fun h => ?_, fun h _ => h⟩
          by_cases hone : sep.tail = []
          · have : sep.length - 1 = 0 := by
              rw [← List.length_tail, hone, List.length_nil]
            rw [this, List.drop_zero]
            exact List.prefix_append sep r
          · exact h hone

/-- Neither end is a blank. -/
def NoBlanks (s : Bytes) : Prop := s.head? ≠ some 32 ∧ s.getLast? ≠ some 32

instance (s : Bytes) : Decidable (NoBlanks s) := by unfold NoBlanks; infer_instance

/-- A text whose items all have a sign, and no blanks around their names and values. -/
structure PlainItems (text sep : Bytes) : Prop where
  separator_ne : sep ≠ []
  signs : ∀ nv ∈ items (cstr text) sep, (61 : UInt8) ∈ nv
  blanks : ∀ e ∈ itemList text sep [61], NoBlanks e.1 ∧ NoBlanks e.2

theorem PlainItems.vector_eq (h : PlainItems text sep) :
    parseItemsVector text sep [61] = fields sep (cstr text) ∧
      (parseItemsVector text sep [61]).length = (items (cstr text) sep).length := by
  refine ⟨?_, by simp [parseItemsVector, itemList]⟩
  have hsigns := h.signs
  have hblanks := h.blanks
  unfold parseItemsVector fields
  unfold itemList at hblanks ⊢
  generalize items (cstr text) sep = l at hsigns hblanks
  induction l with
  | nil => rfl
  | cons nv nvs ih =>
      rw [List.map_cons, List.forall_mem_cons] at hblanks
      rw [List.forall_mem_cons] at hsigns
      obtain ⟨p, hp, hpiece⟩ := pieceItem_of_mem hsigns.1
      obtain ⟨hname, hvalue⟩ := hblanks.1
      rw [List.map_cons, List.map_cons, List.filterMap_cons_some hpiece, ih hsigns.2 hblanks.2]
      congr 1
      unfold nameValue at hname hvalue ⊢
      rw [hp] at hname hvalue ⊢
      rw [trimItem, trim_of_ends hname, trim_of_ends hvalue]

/-- The array has the first items of the vector, as many as it has places for. -/
def Agrees (text : Bytes) (itemCount : ℕ) (sep : Bytes) : Prop :=
  parseItemsInPlace text itemCount sep = (parseItemsVector text sep [61]).take itemCount

/-- The last place of the array is never filled. -/
theorem lt_of_agrees (hsep : sep ≠ []) {itemCount : ℕ} (hk : 1 ≤ itemCount)
    (h : Agrees text itemCount sep) : (parseItemsVector text sep [61]).length < itemCount := by
  have hlength := congrArg List.length h
  rw [parseItemsInPlace_eq hsep, List.length_take, List.length_take] at hlength
  omega

/-- With a place more than items, all depends on the scan. -/
theorem agrees_iff_scan (h : PlainItems text sep) {itemCount : ℕ}
    (hlt : (parseItemsVector text sep [61]).length < itemCount) :
    Agrees text itemCount sep ↔
      (scan sep (cstr text)).take (itemCount - 1) = fields sep (cstr text) := by
  rw [Agrees, parseItemsInPlace_eq h.separator_ne, List.take_of_length_le (Nat.le_of_lt hlt),
    h.vector_eq.1]

/-- Without a separator the text is one item. -/
theorem agrees_of_none (h : PlainItems text sep) {itemCount : ℕ}
    (hlt : (parseItemsVector text sep [61]).length < itemCount)
    (hnone : strstr (cstr text) sep = none) : Agrees text itemCount sep := by
  rw [agrees_iff_scan h hlt, scan_last hnone, fields]
  by_cases htext : cstr text = []
  · rw [htext, items_nil h.separator_ne, pieceItem_none (by simp), Option.toList_none,
      List.take_nil, List.filterMap_nil]
  · have hone := items_last htext hnone
    rw [h.vector_eq.2, hone, List.length_singleton] at hlt
    rw [hone]
    obtain ⟨m, hm⟩ := Nat.exists_eq_add_of_le' (show 1 ≤ itemCount - 1 by omega)
    rw [hm]
    cases hpiece : pieceItem (cstr text) with
    | none => simp [hpiece]
    | some i => simp [hpiece]

/-- The array has the items if it has a place more, and the separator does not stand in the text,
or has no sign behind its first byte and stands there again behind each of its places. Without all
of this it has them at most where the scan goes on inside a separator with a sign. -/
theorem parseItemsInPlace_iff (h : PlainItems text sep) {itemCount : ℕ} (hk : 1 ≤ itemCount) :
    ((parseItemsVector text sep [61]).length < itemCount ∧
      (strstr (cstr text) sep = none ∨ 61 ∉ sep.tail ∧ Rejoins sep (cstr text)) →
        Agrees text itemCount sep) ∧
    (Agrees text itemCount sep → (parseItemsVector text sep [61]).length < itemCount ∧
      (strstr (cstr text) sep = none ∨ 61 ∉ sep.tail ∧ Rejoins sep (cstr text) ∨
        61 ∈ sep.tail ∧ strstr (cstr text) sep ≠ none)) := by
  have hcount := h.vector_eq.2
  constructor
  · rintro ⟨hlt, hnone | ⟨h61, hrejoins⟩⟩
    · exact agrees_of_none h hlt hnone
    · rw [agrees_iff_scan h hlt, take_scan_iff h.separator_ne h61 _ h.signs (by omega)]
      exact hrejoins
  · intro hagrees
    have hlt := lt_of_agrees h.separator_ne hk hagrees
    refine ⟨hlt, ?_⟩
    by_cases hnone : strstr (cstr text) sep = none
    · exact Or.inl hnone
    · refine Or.inr ?_
      by_cases h61 : 61 ∈ sep.tail
      · exact Or.inr ⟨h61, hnone⟩
      · rw [agrees_iff_scan h hlt, take_scan_iff h.separator_ne h61 _ h.signs (by omega)]
          at hagrees
        exact Or.inl ⟨h61, hagrees⟩

/-- `a=1,b=2,` into three places. -/
theorem parseItemsInPlace_three : ∃ text : Bytes, PlainItems text [44] ∧
    parseItemsVector text [44] [61] = [⟨[97], [49]⟩, ⟨[98], [50]⟩] ∧ Agrees text 3 [44] := by
  have hplain : PlainItems [97, 61, 49, 44, 98, 61, 50, 44] [44] :=
    ⟨by decide, by decide, by decide⟩
  refine ⟨_, hplain, by decide, ?_⟩
  exact (parseItemsInPlace_iff hplain (by decide)).1
    ⟨by decide, Or.inr ⟨by decide, by decide⟩⟩

/-- `a=1,b=2` into two places gives one item only, and with the separator `;;` the second name
of `a=1;;b=2` begins with a `;`. -/
theorem parseItemsInPlace_full : ∃ text text' : Bytes,
    PlainItems text [44] ∧ parseItemsInPlace text 2 [44] = [⟨[97], [49]⟩] ∧
    ¬ Agrees text 2 [44] ∧
    PlainItems text' [59, 59] ∧
    parseItemsInPlace text' 9 [59, 59] = [⟨[97], [49]⟩, ⟨[59, 98], [50]⟩] ∧
    ¬ Agrees text' 9 [59, 59] := by
  refine ⟨[97, 61, 49, 44, 98, 61, 50], [97, 61, 49, 59, 59, 98, 61, 50],
    ⟨by decide, by decide, by decide⟩, by decide, ?_, ⟨by decide, by decide, by decide⟩,
    by decide, ?_⟩
  · unfold Agrees
    decide
  · unfold Agrees
    decide

end CoreLooper.StringParam
