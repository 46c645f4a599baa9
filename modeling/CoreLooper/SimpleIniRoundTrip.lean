import CoreLooper.SimpleIni

/-!
# Dumping and loading

The dump of a loaded object is read back as the same object exactly if no entry and no section
of it reads as something else: the line of the section without a name is an entry, `[]=[]` is
the line of a section, and a name of carriage returns is trimmed.
-/
namespace CoreLooper.SimpleIni

open CStrings
open Ini (trim bom isSectionLine)

theorem trimmed_header (s : Bytes) : Trimmed (header s) := by
  constructor
  · rw [header, List.cons_append, List.head?_cons]
    decide
  · rw [header, List.getLast?_concat]
    decide

theorem header_section {s : Bytes} (hs : s ≠ []) : isSectionLine (header s) := by
  refine ⟨?_, rfl, List.getLast?_concat⟩
  have := List.length_pos_of_ne_nil hs
  simp only [header, List.length_append, List.length_cons, List.length_nil]
  omega

theorem sectionOf_header (s : Bytes) : sectionOf (header s) = s := by
  rw [sectionOf, header, List.cons_append, List.tail_cons, List.dropLast_concat]

theorem keyOf_entryLine {e : Bytes × Bytes} (h : 61 ∉ e.1) : keyOf (entryLine e) = e.1 := by
  rw [keyOf, entryLine, List.takeWhile_append_of_pos]
  · simp
  · intro c hc
    rw [decide_eq_true_eq]
    rintro rfl
    exact h hc

theorem valueOf_entryLine {e : Bytes × Bytes} (h : 61 ∉ e.1) : valueOf (entryLine e) = e.2 := by
  rw [valueOf, if_pos (by simp [entryLine]), entryLine, List.dropWhile_append_of_pos]
  · simp
  · intro c hc
    rw [decide_eq_true_eq]
    rintro rfl
    exact h hc

/-- The name of an entry that reads as a section. -/
abbrev brackets : Bytes := [91, 93]

section
variable {current s : Bytes} {e : Bytes × Bytes} {rest : List Bytes}

theorem assigns_header (hs : s ≠ []) : assigns current (header s :: rest) = assigns s rest := by
  rw [assigns, if_pos (header_section hs), sectionOf_header]

/-- The line of the section without a name is an entry to the reader. -/
theorem assigns_unnamed : assigns current (header [] :: rest) =
    ((current, brackets), brackets) :: assigns current rest := by
  have hsec : ¬ isSectionLine (header []) := by decide
  rw [assigns, if_neg hsec]
  rfl

theorem assigns_entryLine (he : EntryOk e.1 e.2) (hne : e ≠ (brackets, brackets)) :
    assigns current (entryLine e :: rest) = ((current, e.1), e.2) :: assigns current rest := by
  have hsec : ¬ isSectionLine (entryLine e) := by
    intro h
    obtain ⟨hk, hv⟩ := he.no_section h
    exact hne (Prod.ext hk hv)
  rw [assigns, if_neg hsec, keyOf_entryLine he.no_sign, valueOf_entryLine he.no_sign]

/-- The entry `[]=[]` is a section's line to the reader. -/
theorem assigns_brackets : assigns current (entryLine (brackets, brackets) :: rest) =
    assigns [93, 61, 91] rest := by
  have hsec : isSectionLine (entryLine (brackets, brackets)) := by decide
  rw [assigns, if_pos hsec]
  rfl

theorem assigns_entries {es : List (Bytes × Bytes)} (hok : ∀ e ∈ es, EntryOk e.1 e.2)
    (hne : (brackets, brackets) ∉ es) : assigns current (es.map entryLine ++ rest) =
      es.map (fun e => ((current, e.1), e.2)) ++ assigns current rest := by
  induction es with
  | nil => rfl
  | cons e es ih =>
      rw [List.map_cons, List.cons_append, List.map_cons, List.cons_append,
        assigns_entryLine (hok e List.mem_cons_self) (fun h => hne (h ▸ List.mem_cons_self)),
        ih (fun e' he => hok e' (List.mem_cons_of_mem e he))
          (fun h => hne (List.mem_cons_of_mem e h))]

/-- Sections with names are read as they are. -/
theorem assigns_lines {it : Iteration} (hnamed : ∀ s ∈ it, s.1 ≠ [])
    (hok : ∀ s ∈ it, ∀ e ∈ s.2, EntryOk e.1 e.2)
    (hne : ∀ s ∈ it, (brackets, brackets) ∉ s.2) : assigns current it.lines = it.assigned := by
  induction it generalizing current with
  | nil => rfl
  | cons s it ih =>
      rw [Iteration.lines, List.flatMap_cons, List.cons_append,
        assigns_header (hnamed s List.mem_cons_self),
        assigns_entries (hok s List.mem_cons_self) (hne s List.mem_cons_self),
        Iteration.assigned, List.flatMap_cons]
      congr 1
      exact ih (fun t ht => hnamed t (List.mem_cons_of_mem s ht))
        (fun t ht => hok t (List.mem_cons_of_mem s ht))
        (fun t ht => hne t (List.mem_cons_of_mem s ht))

/-- Only a line of two brackets assigns them to themselves. -/
theorem brackets_not_assigned {lines : List Bytes} (h : brackets ∉ lines) (x : Bytes) :
    ((x, brackets), brackets) ∉ assigns current lines := by
  induction lines generalizing current with
  | nil => simp [assigns]
  | cons line lines ih =>
      have hrest := fun hmem => h (List.mem_cons_of_mem line hmem)
      by_cases hsec : isSectionLine line
      · rw [assigns, if_pos hsec]
        exact ih hrest
      · rw [assigns, if_neg hsec, List.mem_cons, not_or]
        refine ⟨?_, ih hrest⟩
        intro heq
        obtain ⟨hkey, hvalue⟩ := Prod.mk.inj heq
        have hkey := (Prod.mk.inj hkey).2
        by_cases hsign : 61 ∈ line
        · have hline := entryLine_of_sign hsign
          rw [← hkey, ← hvalue] at hline
          exact hsec (hline ▸ by decide)
        · rw [valueOf, if_neg hsign] at hvalue
          exact h (hvalue ▸ List.mem_cons_self)

/-- A trimmed line gives no key of carriage returns. -/
theorem assigns_key_not_cr {lines : List Bytes} (h : ∀ l ∈ lines, Trimmed l) :
    ∀ a ∈ assigns current lines, ¬ (a.1.2 ≠ [] ∧ AllCr a.1.2) := by
  induction lines generalizing current with
  | nil => simp [assigns]
  | cons line lines ih =>
      have hrest := fun l hl => h l (List.mem_cons_of_mem line hl)
      by_cases hsec : isSectionLine line
      · rw [assigns, if_pos hsec]
        exact ih hrest
      · rw [assigns, if_neg hsec, List.forall_mem_cons]
        refine ⟨?_, ih hrest⟩
        rintro ⟨hne, hcr⟩
        obtain ⟨c, k, hk⟩ := List.exists_cons_of_ne_nil hne
        have hc : c = 13 := hcr c (by rw [hk]; exact List.mem_cons_self)
        have hstarts : keyOf line <+: line := List.takeWhile_prefix _
        obtain ⟨x, hx⟩ := hstarts
        apply (h line List.mem_cons_self).1
        dsimp only at hk
        rw [← hx, hk, hc]
        rfl

end

structure Iteration.Ok (it : Iteration) : Prop where
  sections : ∀ s ∈ it, OneLine s.1
  entries : ∀ s ∈ it, ∀ e ∈ s.2, EntryOk e.1 e.2
  full : ∀ s ∈ it, s.2 ≠ []

theorem Iteration.Of.ok {box : Bytes} {it : Iteration} (h : it.Of (load box)) : it.Ok := by
  have hget : ∀ s ∈ it, ∀ e ∈ s.2, OneLine s.1 ∧ EntryOk e.1 e.2 := by
    intro s hs e he
    apply load_ok
    rw [← h.mem_assigned_iff]
    exact List.mem_flatMap.mpr ⟨s, hs, List.mem_map.mpr ⟨e, he, rfl⟩⟩
  have hfull : ∀ s ∈ it, s.2 ≠ [] := by
    intro s hs hnil
    obtain ⟨x, hx, hperm⟩ := h.entries s hs
    obtain ⟨k, hk⟩ := full_load box s.1 x hx
    obtain ⟨v, hv⟩ := Option.isSome_iff_exists.mp hk
    have hmem := hperm.mem_iff.mpr (OrderedMap.mem_of_find hv)
    rw [hnil] at hmem
    cases hmem
  refine ⟨?_, fun s hs e he => (hget s hs e he).2, hfull⟩
  intro s hs
  obtain ⟨e, es, he⟩ := List.exists_cons_of_ne_nil (hfull s hs)
  exact (hget s hs e (he ▸ List.mem_cons_self)).1

section
variable {it : Iteration}

theorem mem_lines {l : Bytes} (hl : l ∈ it.lines) :
    ∃ s ∈ it, l = header s.1 ∨ ∃ e ∈ s.2, l = entryLine e := by
  obtain ⟨s, hs, hl⟩ := List.mem_flatMap.mp hl
  refine ⟨s, hs, ?_⟩
  rcases List.mem_cons.mp hl with hl | hl
  · exact Or.inl hl
  · obtain ⟨e, he, rfl⟩ := List.mem_map.mp hl
    exact Or.inr ⟨e, he, rfl⟩

theorem Iteration.Ok.one_line (h : it.Ok) : ∀ l ∈ it.lines, OneLine l := by
  intro l hl
  obtain ⟨s, hs, rfl | ⟨e, he, rfl⟩⟩ := mem_lines hl
  · have := h.sections s hs
    simpa [OneLine, header] using this
  · have hkey := (h.entries s hs e he).key_line
    have hvalue := (h.entries s hs e he).value_line
    unfold OneLine at hkey hvalue ⊢
    simp only [entryLine, List.mem_append, List.mem_cons, not_or]
    exact ⟨⟨hkey.1, by decide, hvalue.1⟩, ⟨hkey.2, by decide, hvalue.2⟩⟩

theorem mem_trim_of_mem {s : Bytes} {c : UInt8} (h : c ∈ s) (hc : c ≠ 13) : c ∈ trim s 13 := by
  have hdrop : ∀ {s : Bytes}, c ∈ s → c ∈ s.dropWhile (fun b => decide (b = 13)) := by
    intro s h
    rw [← List.takeWhile_append_dropWhile (p := fun b => decide (b = 13)) (l := s)] at h
    rcases List.mem_append.mp h with h | h
    · exact absurd (by simpa using List.mem_takeWhile_imp h) hc
    · exact h
  unfold trim
  split_ifs
  · exact h
  · rw [List.rdropWhile, List.mem_reverse]
    exact hdrop (List.mem_reverse.mpr (hdrop h))

/-- No line of a dump is made of carriage returns only. -/
theorem trimmed_lines : ∀ l ∈ it.lines.map (trim · 13), Trimmed l := by
  intro l hl
  obtain ⟨line, hline, rfl⟩ := List.mem_map.mp hl
  apply (trimmed_trim line).resolve_left
  intro hcr
  obtain ⟨s, -, rfl | ⟨e, -, rfl⟩⟩ := mem_lines hline
  · exact absurd (hcr 91 (mem_trim_of_mem (by simp [header]) (by decide))) (by decide)
  · exact absurd (hcr 61 (mem_trim_of_mem (by simp [entryLine]) (by decide))) (by decide)

theorem Iteration.Ok.get_load_dump (h : it.Ok) (s k : Bytes) : (load (dump it)).get s k =
    lastValue (s, k) (assigns [] (it.lines.map (trim · 13))) := by
  cases it with
  | nil => rfl
  | cons t it =>
      have hne : dump (t :: it) ≠ [] := by simp [dump, header]
      have hbom : ¬ bom <+: dump (t :: it) := by simp [dump, header, bom]
      rw [load, if_neg hne]
      simp only [if_neg hbom, get_foldl]
      rw [show Sections.get OrderedMap.empty s k = none from rfl, Option.or_none, dump_eq,
        TextSeparator.lines_flatMap h.one_line]

/-- What a dump must have to be read as it was written. -/
structure Survives (it : Iteration) : Prop where
  /-- No name is made of carriage returns only. -/
  no_cr : ∀ s ∈ it, ∀ e ∈ s.2, ¬ (e.1 ≠ [] ∧ AllCr e.1)
  /-- No section with a name has the entry `[]=[]`. -/
  no_brackets : ∀ s ∈ it, s.1 ≠ [] → (brackets, brackets) ∉ s.2
  /-- The section without a name, whose line is read as an entry, comes first and has an entry
  of that name; with the value of that line, it is the last one. -/
  unnamed : ∀ s ∈ it, s.1 = [] → it.head? = some s ∧ ∃ v, (brackets, v) ∈ s.2 ∧
    (v = brackets → s.2.getLast? = some (brackets, brackets))

/-- Without names of carriage returns the lines are read as they were written. -/
theorem Iteration.Ok.trim_lines (h : it.Ok)
    (hcr : ∀ s ∈ it, ∀ e ∈ s.2, ¬ (e.1 ≠ [] ∧ AllCr e.1)) :
    it.lines.map (trim · 13) = it.lines := by
  conv_rhs => rw [← List.map_id it.lines]
  apply List.map_congr_left
  intro l hl
  apply trim_of_ends
  obtain ⟨s, hs, rfl | ⟨e, he, rfl⟩⟩ := mem_lines hl
  · exact trimmed_header s.1
  · exact (h.entries s hs e he).trimmed.resolve_left (hcr s hs e he)

theorem value_unique {es : List (Bytes × Bytes)} (hnodup : (es.map Prod.fst).Nodup)
    {k v v' : Bytes} (h : (k, v) ∈ es) (h' : (k, v') ∈ es) : v = v' := by
  have := (lastValue_of_mem hnodup h).symm.trans (lastValue_of_mem hnodup h')
  exact Option.some.inj this

/-- The section without a name, at the start: its line stands for the entry `[]`. -/
theorem lastValue_unnamed {es : List (Bytes × Bytes)} (hes : ∀ e ∈ es, EntryOk e.1 e.2)
    (hks : (es.map Prod.fst).Nodup) {lines : List Bytes} {E : List ((Bytes × Bytes) × Bytes)}
    (hlines : ∀ current, assigns current lines = E)
    (hall : ((es.map (fun e : Bytes × Bytes => (([], e.1), e.2)) ++ E).map Prod.fst).Nodup)
    {v : Bytes} (hv : (brackets, v) ∈ es)
    (hlast : v = brackets → es.getLast? = some (brackets, brackets)) (p : Bytes × Bytes) :
    lastValue p (assigns [] (header [] :: (es.map entryLine ++ lines))) =
      lastValue p (es.map (fun e : Bytes × Bytes => (([], e.1), e.2)) ++ E) := by
  rw [assigns_unnamed]
  by_cases hbrackets : v = brackets
  · -- the last entry is lost, and the section's line stands for it
    obtain ⟨es, rfl⟩ := List.getLast?_eq_some_iff.mp (hlast hbrackets)
    have hnot : (brackets, brackets) ∉ es := by
      intro h
      rw [List.map_append, List.nodup_append'] at hks
      exact hks.2.2 (List.mem_map_of_mem h) (List.mem_singleton_self _)
    have hsplit :
        (es ++ [(brackets, brackets)]).map (fun e : Bytes × Bytes => (([], e.1), e.2)) ++ E =
          es.map (fun e : Bytes × Bytes => (([], e.1), e.2)) ++
            (([], brackets), brackets) :: E := by
      rw [List.map_append, List.append_assoc]
      rfl
    rw [List.map_append, List.append_assoc,
      assigns_entries (fun e he => hes e (List.mem_append_left _ he)) hnot, List.map_singleton,
      List.singleton_append, assigns_brackets, hlines]
    rw [hsplit] at hall ⊢
    symm
    exact lastValue_perm hall List.perm_middle
  · have hnot : (brackets, brackets) ∉ es := fun h => hbrackets (value_unique hks hv h)
    rw [assigns_entries hes hnot, hlines, lastValue]
    by_cases hp : ([], brackets) = p
    · have hmem : (p, v) ∈ es.map (fun e : Bytes × Bytes => (([], e.1), e.2)) ++ E := by
        rw [← hp]
        exact List.mem_append_left _ (List.mem_map.mpr ⟨_, hv, rfl⟩)
      rw [lastValue_of_mem hall hmem, Option.some_or]
    · rw [if_neg hp, Option.or_none]

theorem eq_cons_of_head? {s : Bytes × List (Bytes × Bytes)} (h : it.head? = some s) :
    ∃ rest, it = s :: rest := by
  cases it with
  | nil => cases h
  | cons t rest =>
      rw [List.head?_cons] at h
      exact ⟨rest, by rw [Option.some.inj h]⟩

/-- The lines of a text that survives assign each entry of the iteration. -/
theorem Survives.lastValue_eq (hs : Survives it) (hok : it.Ok)
    (hnodup : (it.map Prod.fst).Nodup) (hkeys : ∀ s ∈ it, (s.2.map Prod.fst).Nodup)
    (p : Bytes × Bytes) :
    lastValue p (assigns [] it.lines) = lastValue p it.assigned := by
  by_cases hnamed : ∀ s ∈ it, s.1 ≠ []
  · rw [assigns_lines hnamed hok.entries fun s h => hs.no_brackets s h (hnamed s h)]
  · push Not at hnamed
    obtain ⟨s, hmem, hname⟩ := hnamed
    obtain ⟨hhead, v, hv, hlast⟩ := hs.unnamed s hmem hname
    obtain ⟨rest, rfl⟩ := eq_cons_of_head? hhead
    have hrest : ∀ t ∈ rest, t.1 ≠ [] := by
      intro t ht heq
      apply (List.nodup_cons.mp hnodup).1
      rw [hname, ← heq]
      exact List.mem_map_of_mem ht
    have hlines : ∀ current, assigns current (Iteration.lines rest) =
        Iteration.assigned rest := fun current =>
      assigns_lines hrest (fun t ht => hok.entries t (List.mem_cons_of_mem s ht))
        fun t ht => hs.no_brackets t (List.mem_cons_of_mem s ht) (hrest t ht)
    have hassigned : Iteration.assigned (s :: rest) =
        s.2.map (fun e : Bytes × Bytes => (([], e.1), e.2)) ++ Iteration.assigned rest := by
      rw [Iteration.assigned, List.flatMap_cons, hname]
      rfl
    have hread : Iteration.lines (s :: rest) =
        header [] :: (s.2.map entryLine ++ Iteration.lines rest) := by
      rw [Iteration.lines, List.flatMap_cons, hname]
      rfl
    have hall := nodup_assigned hnodup hkeys
    rw [hassigned] at hall
    rw [hread, hassigned]
    exact lastValue_unnamed (hok.entries s hmem) (hkeys s hmem) hlines hall hv hlast p

section
variable (hok : it.Ok) (hnodup : (it.map Prod.fst).Nodup)
  (hkeys : ∀ s ∈ it, (s.2.map Prod.fst).Nodup)
  (hkept : ∀ s ∈ it, ∀ e ∈ s.2, (load (dump it)).get s.1 e.1 = some e.2)

include hok hkept in
theorem kept_assigned {s : Bytes × List (Bytes × Bytes)} (hs : s ∈ it) {e : Bytes × Bytes}
    (he : e ∈ s.2) : ((s.1, e.1), e.2) ∈ assigns [] (it.lines.map (trim · 13)) := by
  have := hkept s hs e he
  rw [hok.get_load_dump] at this
  exact mem_of_lastValue this

include hok hkept in
theorem no_cr_of_kept : ∀ s ∈ it, ∀ e ∈ s.2, ¬ (e.1 ≠ [] ∧ AllCr e.1) := by
  intro s hs e he
  exact assigns_key_not_cr trimmed_lines _ (kept_assigned hok hkept hs he)

include hok hkept in
theorem kept_assigned_lines {s : Bytes × List (Bytes × Bytes)} (hs : s ∈ it) {e : Bytes × Bytes}
    (he : e ∈ s.2) : ((s.1, e.1), e.2) ∈ assigns [] it.lines := by
  have := kept_assigned hok hkept hs he
  rwa [hok.trim_lines (no_cr_of_kept hok hkept)] at this

include hok hnodup hkept in
/-- Behind another section, the entries of the one without a name would be in that section. -/
theorem unnamed_first_of_kept {s : Bytes × List (Bytes × Bytes)} (hs : s ∈ it) (hname : s.1 = []) :
    it.head? = some s := by
  cases it with
  | nil => cases hs
  | cons t rest =>
      rcases List.mem_cons.mp hs with rfl | hmem
      · rfl
      · have ht : t.1 ≠ [] := by
          intro ht
          apply (List.nodup_cons.mp hnodup).1
          rw [ht, ← hname]
          exact List.mem_map_of_mem hmem
        obtain ⟨e, es, he⟩ := List.exists_cons_of_ne_nil (hok.full s hs)
        have hassign := kept_assigned_lines hok hkept hs (he ▸ List.mem_cons_self)
        rw [Iteration.lines, List.flatMap_cons, List.cons_append, assigns_header ht] at hassign
        exact absurd hname (assigns_section_ne ht _ hassign)

theorem brackets_not_entryLine (es : List (Bytes × Bytes)) : brackets ∉ es.map entryLine := by
  intro h
  obtain ⟨e, -, he⟩ := List.mem_map.mp h
  have hsign : (61 : UInt8) ∈ brackets := he ▸ by simp [entryLine]
  exact absurd hsign (by decide)

theorem brackets_not_line (hnamed : ∀ s ∈ it, s.1 ≠ []) : brackets ∉ it.lines := by
  intro h
  obtain ⟨s, hs, h⟩ := List.mem_flatMap.mp h
  rcases List.mem_cons.mp h with h | h
  · apply hnamed s hs
    have := congrArg List.length h
    simp only [header, List.length_append, List.length_cons, List.length_nil] at this
    exact List.eq_nil_of_length_eq_zero (by omega)
  · exact brackets_not_entryLine s.2 h

include hok hnodup hkept in
theorem no_brackets_of_kept :
    ∀ s ∈ it, s.1 ≠ [] → (brackets, brackets) ∉ s.2 := by
  intro s hs hname hmem
  have hassign := kept_assigned_lines hok hkept hs hmem
  by_cases hnamed : ∀ t ∈ it, t.1 ≠ []
  · exact brackets_not_assigned (brackets_not_line hnamed) _ hassign
  · push Not at hnamed
    obtain ⟨t, ht, htname⟩ := hnamed
    obtain ⟨rest, rfl⟩ := eq_cons_of_head? (unnamed_first_of_kept hok hnodup hkept ht htname)
    have hrest : ∀ u ∈ rest, u.1 ≠ [] := by
      intro u hu heq
      apply (List.nodup_cons.mp hnodup).1
      rw [htname, ← heq]
      exact List.mem_map_of_mem hu
    rw [Iteration.lines, List.flatMap_cons, htname, List.cons_append, assigns_unnamed] at hassign
    rcases List.mem_cons.mp hassign with h | h
    · exact hname (Prod.mk.inj (Prod.mk.inj h).1).1
    · refine brackets_not_assigned ?_ _ h
      rw [List.mem_append, not_or]
      exact ⟨brackets_not_entryLine t.2, brackets_not_line hrest⟩

include hok hnodup hkeys hkept in
theorem unnamed_of_kept
    (hback : ∀ s k v, (load (dump it)).get s k = some v → ((s, k), v) ∈ it.assigned)
    {s : Bytes × List (Bytes × Bytes)} (hs : s ∈ it) (hname : s.1 = []) :
    ∃ v, (brackets, v) ∈ s.2 ∧ (v = brackets → s.2.getLast? = some (brackets, brackets)) := by
  obtain ⟨rest, rfl⟩ := eq_cons_of_head? (unnamed_first_of_kept hok hnodup hkept hs hname)
  have hlines : assigns [] (Iteration.lines (s :: rest)) = (([], brackets), brackets) ::
      assigns [] (s.2.map entryLine ++ Iteration.lines rest) := by
    rw [Iteration.lines, List.flatMap_cons, hname, List.cons_append, assigns_unnamed]
    rfl
  obtain ⟨v, hv⟩ : ∃ v, (load (dump (s :: rest))).get [] brackets = some v := by
    rw [hok.get_load_dump, hok.trim_lines (no_cr_of_kept hok hkept), ← Option.isSome_iff_exists,
      Option.isSome_iff_ne_none, Ne, lastValue_eq_none_iff]
    intro h
    exact h _ (hlines ▸ List.mem_cons_self) rfl
  have hmem : (brackets, v) ∈ s.2 := by
    obtain ⟨t, ht, ha⟩ := List.mem_flatMap.mp (hback _ _ _ hv)
    obtain ⟨e, he, heq⟩ := List.mem_map.mp ha
    obtain ⟨hp, hvalue⟩ := Prod.mk.inj heq
    obtain ⟨htname, hkey⟩ := Prod.mk.inj hp
    rcases List.mem_cons.mp ht with rfl | ht
    · rw [← hkey, ← hvalue]
      exact he
    · refine absurd ?_ (List.nodup_cons.mp hnodup).1
      rw [hname, ← htname]
      exact List.mem_map_of_mem ht
  refine ⟨v, hmem, ?_⟩
  rintro rfl
  obtain ⟨es, es', hes⟩ := List.append_of_mem hmem
  have hks := hkeys s hs
  rw [hes, List.map_append, List.map_cons, List.nodup_append'] at hks
  obtain ⟨-, hcons, hdisjoint⟩ := hks
  have hnot : (brackets, brackets) ∉ es := fun h =>
    hdisjoint (List.mem_map_of_mem h) List.mem_cons_self
  cases es' with
  | nil =>
      rw [hes]
      exact List.getLast?_concat
  | cons e es' =>
      -- behind `[]=[]` the entries are read into another section
      exfalso
      have he : e ∈ s.2 := by rw [hes]; simp
      have hassign := kept_assigned_lines hok hkept hs he
      have hok' : ∀ e ∈ es, EntryOk e.1 e.2 := fun e he =>
        hok.entries s hs e (hes ▸ List.mem_append_left _ he)
      rw [hlines, hes, List.map_append, List.append_assoc, assigns_entries hok' hnot,
        List.map_cons, List.cons_append, assigns_brackets, List.mem_cons,
        List.mem_append] at hassign
      rcases hassign with h | h | h
      · have hkey : e.1 = brackets := (Prod.mk.inj (Prod.mk.inj h).1).2
        exact (List.nodup_cons.mp hcons).1 (hkey ▸ List.mem_cons_self)
      · obtain ⟨e', he', heq⟩ := List.mem_map.mp h
        have hkey : e'.1 = e.1 := (Prod.mk.inj (Prod.mk.inj heq).1).2
        refine hdisjoint (List.mem_map_of_mem he') ?_
        rw [hkey]
        exact List.mem_cons_of_mem _ List.mem_cons_self
      · exact assigns_section_ne (by decide) _ h hname

end

/-- A dump is read as it was written exactly if nothing in the object reads as something else. -/
theorem load_dump_iff (box : Bytes) {it : Iteration} (h : it.Of (load box)) :
    load (dump it) = load box ↔ Survives it := by
  have hok := h.ok
  constructor
  · intro heq
    have hkept : ∀ s ∈ it, ∀ e ∈ s.2, (load (dump it)).get s.1 e.1 = some e.2 := by
      intro s hs e he
      rw [heq, ← h.mem_assigned_iff]
      exact List.mem_flatMap.mpr ⟨s, hs, List.mem_map.mpr ⟨e, he, rfl⟩⟩
    have hback : ∀ s k v, (load (dump it)).get s k = some v → ((s, k), v) ∈ it.assigned := by
      intro s k v hv
      rwa [h.mem_assigned_iff, ← heq]
    refine ⟨no_cr_of_kept hok hkept, no_brackets_of_kept hok h.nodup_sections hkept, ?_⟩
    intro s hs hname
    exact ⟨unnamed_first_of_kept hok h.nodup_sections hkept hs hname,
      unnamed_of_kept hok h.nodup_sections h.nodup_entries hkept hback hs hname⟩
  · intro hsurvives
    apply (full_load _).ext_get (full_load _)
    intro s k
    rw [hok.get_load_dump, hok.trim_lines hsurvives.no_cr,
      hsurvives.lastValue_eq hok h.nodup_sections h.nodup_entries, h.get_eq]

/-- `"[s]\nk=v\n"`. -/
theorem load_dump_section : ∃ (box : Bytes) (it : Iteration), it.Of (load box) ∧ Survives it ∧
    load box ≠ OrderedMap.empty ∧ load (dump it) = load box := by
  have hof : Iteration.Of [([115], [([107], [118])])] (load [91, 115, 93, 10, 107, 61, 118, 10]) :=
    { sections := by decide
      entries := by
        intro s hs
        rw [List.mem_singleton.mp hs]
        exact ⟨OrderedMap.empty.insert [107] [118], by decide, by decide⟩ }
  have hsurvives : Survives [([115], [([107], [118])])] :=
    { no_cr := by simp [AllCr]
      no_brackets := by decide
      unnamed := by simp }
  exact ⟨_, _, hof, hsurvives, by decide, (load_dump_iff _ hof).mpr hsurvives⟩

/-- `"a=1"` is in the section without a name, which gets an entry `[]` in the dump. -/
theorem load_dump_unnamed : ∃ (box : Bytes) (it : Iteration), it.Of (load box) ∧
    dump it = [91, 93, 10, 97, 61, 49, 10] ∧
    (load (dump it)).get [] brackets = some brackets ∧ (load box).get [] brackets = none ∧
    load (dump it) ≠ load box := by
  refine ⟨[97, 61, 49], [([], [([97], [49])])], ⟨by decide, ?_⟩, by decide, by decide, by decide,
    by decide⟩
  intro s hs
  rw [List.mem_singleton.mp hs]
  exact ⟨OrderedMap.empty.insert [97] [49], by decide, by decide⟩

end

end CoreLooper.SimpleIni
