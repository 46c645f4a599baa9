import CoreLooper.IniFile

/-!
# Reading back what was written

A file that was built by calls is read back as it was unless a line of the text means something
else to the reader: a key that looks like a comment, a section or a byte order mark, or the keys
of the unnamed section behind another section.
-/
namespace CoreLooper.Ini
open CStrings

/-- The sections of the lines behind the beginning of a section. -/
def readSections : IniSection → List Bytes → List IniSection
  | cur, [] => [cur]
  | cur, line :: lines =>
      if isSectionLine line then cur :: readSections ⟨line, []⟩ lines
      else readSections { cur with mKeys := cur.mKeys ++ [readKey line] } lines

/-- The same from the first line on: keys before the first section go to an unnamed one. -/
def readFile : List Bytes → List IniSection
  | [] => []
  | line :: lines =>
      if isSectionLine line then readSections ⟨line, []⟩ lines
      else readSections ⟨[], []⟩ (line :: lines)

theorem foldl_loadLine (done : List IniSection) (cur : IniSection) (lines : List Bytes) :
    (lines.foldl loadLine (done, some cur)).1 ++ (lines.foldl loadLine (done, some cur)).2.toList
      = done ++ readSections cur lines := by
  induction lines generalizing done cur with
  | nil => rfl
  | cons line lines ih =>
      rw [List.foldl_cons, readSections, loadLine]
      split_ifs
      · rw [ih]
        simp
      · exact ih done _

theorem foldl_loadLine_start (lines : List Bytes) :
    (lines.foldl loadLine ([], none)).1 ++ (lines.foldl loadLine ([], none)).2.toList
      = readFile lines := by
  cases lines with
  | nil => rfl
  | cons line lines =>
      rw [List.foldl_cons, readFile, loadLine]
      split_ifs with h
      · exact foldl_loadLine [] ⟨line, []⟩ lines
      · rw [readSections, if_neg h]
        exact foldl_loadLine [] _ lines

/-- The first section holds the keys up to the next line that looks like a section; the others
begin with such a line. -/
theorem readSections_head (cur : IniSection) (lines : List Bytes) :
    ∃ more, readSections cur lines = ⟨cur.mSectionName,
        cur.mKeys ++ (lines.takeWhile fun l => ¬ isSectionLine l).map readKey⟩ :: more ∧
      ∀ s ∈ more, isSectionLine s.mSectionName := by
  induction lines generalizing cur with
  | nil => exact ⟨[], by simp [readSections], by simp⟩
  | cons line lines ih =>
      rw [readSections]
      by_cases h : isSectionLine line
      · obtain ⟨more, heq, hmore⟩ := ih ⟨line, []⟩
        rw [if_pos h, heq]
        refine ⟨_, by simp [h]; rfl, ?_⟩
        intro s hs
        rcases List.mem_cons.mp hs with rfl | hs
        · exact h
        · exact hmore s hs
      · obtain ⟨more, heq, hmore⟩ :=
          ih { cur with mKeys := cur.mKeys ++ [readKey line] }
        rw [if_neg h, heq]
        exact ⟨more, by simp [h], hmore⟩

theorem readSections_keys (cur : IniSection) {keys : List Bytes}
    (h : ∀ l ∈ keys, ¬ isSectionLine l) (rest : List Bytes) : readSections cur (keys ++ rest)
      = readSections { cur with mKeys := cur.mKeys ++ keys.map readKey } rest := by
  induction keys generalizing cur with
  | nil => simp
  | cons l keys ih =>
      rw [List.cons_append, readSections, if_neg (h l List.mem_cons_self),
        ih _ fun m hm => h m (List.mem_cons_of_mem l hm)]
      simp

def IniSection.lines (s : IniSection) : List Bytes :=
  (if s.mSectionName ≠ [] then [s.mSectionName] else []) ++ s.mKeys.map IniKey.line

theorem text_eq (s : IniSection) : s.text = s.lines.flatMap (· ++ [10]) := by
  unfold IniSection.text IniSection.lines
  split_ifs <;> simp [List.flatMap_map]

/-- A key whose line is read as this key. -/
structure IniKey.ReadBack (k : IniKey) : Prop where
  no_section : ¬ isSectionLine k.line
  no_comment : k.m_nKeyType = .value →
    k.m_szKeyName.head? ≠ some 35 ∧ k.m_szKeyName.head? ≠ some 59

theorem head?_line {k : IniKey} (hk : k.Ok) : k.line.head? = k.m_szKeyName.head? := by
  obtain ⟨c, r, h⟩ := List.exists_cons_of_ne_nil hk.name_ne
  unfold IniKey.line
  cases k.m_nKeyType <;> simp [h]

theorem readKey_line {k : IniKey} (hk : k.Ok) (h : k.m_nKeyType = .value →
    k.m_szKeyName.head? ≠ some 35 ∧ k.m_szKeyName.head? ≠ some 59) : readKey k.line = k := by
  have hhead := head?_line hk
  obtain ⟨type, name, value⟩ := k
  cases type with
  | comment =>
      have hempty : value = [] := hk.comment_empty rfl
      have hno : (61 : UInt8) ∉ IniKey.line ⟨.comment, name, value⟩ := hk.no_equals
      rw [readKey, if_pos (Or.inl hno), hempty]
      rfl
  | value =>
      obtain ⟨h35, h59⟩ := h rfl
      have hmem : (61 : UInt8) ∈ IniKey.line ⟨.value, name, value⟩ := by simp [IniKey.line]
      have hname : ∀ c ∈ name, (decide (c ≠ 61)) = true := by
        intro c hc
        have : c ≠ 61 := fun h => hk.no_equals (h ▸ hc)
        simpa using this
      have htake : (name ++ 61 :: value).takeWhile (fun c => decide (c ≠ 61)) = name := by
        rw [List.takeWhile_append_of_pos hname]
        simp
      have hdrop : (name ++ 61 :: value).dropWhile (fun c => decide (c ≠ 61)) = 61 :: value := by
        rw [List.dropWhile_append_of_pos hname]
        simp
      rw [readKey, hhead, if_neg (by simp [hmem, h35, h59])]
      simp only [IniKey.line, htake, hdrop, List.tail_cons]

/-- A line that is taken for a comment has no name of a key. -/
theorem readKey_comment {k : IniKey} (hk : k.Ok) (htype : k.m_nKeyType = .value)
    (h : k.m_szKeyName.head? = some 35 ∨ k.m_szKeyName.head? = some 59) :
    61 ∈ (readKey k.line).m_szKeyName := by
  rw [readKey, head?_line hk, if_pos (Or.inr h)]
  simp [IniKey.line, htype]

theorem mem_lower_equals {s : Bytes} : 61 ∈ lower s ↔ 61 ∈ s := by
  have hfix : ∀ c, toLower c = 61 ↔ c = 61 := by
    intro c
    unfold toLower
    split_ifs with hc
    · simp only [UInt8.le_iff_toNat_le, ← UInt8.toNat_inj, UInt8.toNat_add] at hc ⊢
      simp at hc ⊢
      omega
    · rfl
  simp [lower, hfix]

/-- No line of the section but its own is read as the key, and its own only if it is read back. -/
theorem readKey_other {k j : IniKey} (hk : k.Ok) (hj : j.Ok) (hline : ¬ isSectionLine j.line)
    (h : j.label = k.label → ¬ j.ReadBack) : (readKey j.line).label ≠ k.label := by
  by_cases hcomment : j.m_nKeyType = .value →
      j.m_szKeyName.head? ≠ some 35 ∧ j.m_szKeyName.head? ≠ some 59
  · rw [readKey_line hj hcomment]
    exact fun heq => h heq ⟨hline, hcomment⟩
  · have hbad : j.m_nKeyType = .value ∧
        (j.m_szKeyName.head? = some 35 ∨ j.m_szKeyName.head? = some 59) := by tauto
    have hmem := readKey_comment hj hbad.1 hbad.2
    intro heq
    have : (61 : UInt8) ∈ k.label := heq ▸ mem_lower_equals.mpr hmem
    exact hk.no_equals (mem_lower_equals.mp this)

theorem isSectionLine_sectionName {x : Bytes} (hx : x ≠ []) : isSectionLine (sectionName x) := by
  have hpos := List.length_pos_of_ne_nil hx
  rw [sectionName, if_neg hx]
  refine ⟨?_, rfl, List.getLast?_concat⟩
  simp only [List.length_append, List.length_cons, List.length_nil]
  omega

theorem IniSection.Ok.isSectionLine {s : IniSection} (hs : s.Ok) (h : s.mSectionName ≠ []) :
    isSectionLine s.mSectionName := by
  obtain ⟨x, -, hx⟩ := hs.named
  rw [hx] at h ⊢
  apply isSectionLine_sectionName
  rintro rfl
  exact h rfl

theorem not_isSectionLine_nil : ¬ isSectionLine [] := by decide

theorem lines_named {s : IniSection} (h : s.mSectionName ≠ []) :
    s.lines = s.mSectionName :: s.mKeys.map IniKey.line := by
  rw [IniSection.lines, if_pos h, List.singleton_append]

/-- The keys of a section whose lines are all read back. -/
theorem readSections_readBack (cur : IniSection) {keys : List IniKey} (hok : ∀ k ∈ keys, k.Ok)
    (hread : ∀ k ∈ keys, k.ReadBack) (rest : List Bytes) :
    readSections cur (keys.map IniKey.line ++ rest)
      = readSections { cur with mKeys := cur.mKeys ++ keys } rest := by
  have hlines : ∀ l ∈ keys.map IniKey.line, ¬ isSectionLine l := by
    intro l hl
    obtain ⟨k, hk, rfl⟩ := List.mem_map.mp hl
    exact (hread k hk).no_section
  have hkeys : (keys.map IniKey.line).map readKey = keys := by
    rw [List.map_map]
    conv_rhs => rw [← List.map_id keys]
    apply List.map_congr_left
    intro k hk
    exact readKey_line (hok k hk) (hread k hk).no_comment
  rw [readSections_keys cur hlines, hkeys]

/-- Nothing, or the beginning of a section. -/
def BeginsSection (lines : List Bytes) : Prop := ∀ l ∈ lines.head?, isSectionLine l

theorem readSections_begins (cur : IniSection) {lines : List Bytes} (h : BeginsSection lines) :
    readSections cur lines = cur :: readFile lines := by
  cases lines with
  | nil => rfl
  | cons l lines =>
      have hl : isSectionLine l := h l rfl
      rw [readSections, readFile, if_pos hl, if_pos hl]

/-- Named sections that are read back stand in the file as they are. -/
theorem readSections_append (cur : IniSection) {sections : List IniSection}
    (hok : ∀ s ∈ sections, s.Ok) (hnamed : ∀ s ∈ sections, s.mSectionName ≠ [])
    (hread : ∀ s ∈ sections, ∀ k ∈ s.mKeys, k.ReadBack) {rest : List Bytes}
    (hrest : BeginsSection rest) :
    readSections cur (sections.flatMap IniSection.lines ++ rest)
      = cur :: sections ++ readFile rest := by
  induction sections generalizing cur with
  | nil => exact readSections_begins cur hrest
  | cons s sections ih =>
      have hs := hok s List.mem_cons_self
      have hne := hnamed s List.mem_cons_self
      rw [List.flatMap_cons, lines_named hne, List.cons_append, List.cons_append, readSections,
        if_pos (hs.isSectionLine hne), List.append_assoc,
        readSections_readBack _ hs.keys_ok (hread s List.mem_cons_self),
        ih _ (fun t ht => hok t (List.mem_cons_of_mem s ht))
          (fun t ht => hnamed t (List.mem_cons_of_mem s ht))
          (fun t ht => hread t (List.mem_cons_of_mem s ht))]
      rfl

/-- Where a file begins: with a line for the section, or with the keys of an unnamed one. -/
theorem readFile_first {s : IniSection} (hs : s.Ok)
    (hfirst : s.mSectionName = [] → ∀ k ∈ s.mKeys.head?, ¬ isSectionLine k.line)
    (rest : List Bytes) : readFile (s.lines ++ rest)
      = readSections ⟨s.mSectionName, []⟩ (s.mKeys.map IniKey.line ++ rest) := by
  by_cases hne : s.mSectionName = []
  · obtain ⟨k, ks, hk⟩ := List.exists_cons_of_ne_nil hs.keys_ne
    have hline := hfirst hne k (by simp [hk])
    rw [IniSection.lines, if_neg (not_not_intro hne), List.nil_append, hne, hk, List.map_cons,
      List.cons_append, readFile, if_neg hline]
  · rw [lines_named hne, List.cons_append, readFile, if_pos (hs.isSectionLine hne)]

theorem readFile_readBack {sections : List IniSection} (hok : ∀ s ∈ sections, s.Ok)
    (hnamed : ∀ s ∈ sections.tail, s.mSectionName ≠ [])
    (hread : ∀ s ∈ sections, ∀ k ∈ s.mKeys, k.ReadBack) {rest : List Bytes}
    (hrest : BeginsSection rest) :
    readFile (sections.flatMap IniSection.lines ++ rest) = sections ++ readFile rest := by
  cases sections with
  | nil => rfl
  | cons s sections =>
      have hs := hok s List.mem_cons_self
      have hsread := hread s List.mem_cons_self
      rw [List.flatMap_cons, List.append_assoc, readFile_first hs,
        readSections_readBack _ hs.keys_ok hsread,
        readSections_append _ (fun t ht => hok t (List.mem_cons_of_mem s ht)) hnamed
          (fun t ht => hread t (List.mem_cons_of_mem s ht)) hrest]
      · rfl
      · intro _ k hk
        exact (hsread k (List.mem_of_mem_head? hk)).no_section

/-- The lines of all sections. -/
def IniFile.lines (f : IniFile) : List Bytes := f.mSections.flatMap IniSection.lines

theorem trim_clean {s : Bytes} (h : (13 : UInt8) ∉ s) : trim s 13 = s := by
  unfold trim
  split
  · rfl
  · have hleft : s.dropWhile (fun c => decide (c = 13)) = s := by
      cases s with
      | nil => rfl
      | cons c s =>
          have : c ≠ 13 := fun hc => h (hc ▸ List.mem_cons_self)
          simp [this]
    rw [hleft, List.rdropWhile_eq_self_iff]
    intro hne hc
    have : s.getLast hne = 13 := by simpa using hc
    exact h (this ▸ List.getLast_mem hne)

theorem clean_line {k : IniKey} (hk : k.Ok) : Clean k.line := by
  have hname := hk.name_clean
  have hvalue := hk.value_clean
  unfold IniKey.line
  cases k.m_nKeyType with
  | comment => exact hname
  | value =>
      simp only [Clean, List.mem_append, List.mem_cons] at hname hvalue ⊢
      refine ⟨?_, ?_, ?_⟩
      · rintro (h | h | h)
        · exact hname.1 h
        · revert h
          decide
        · exact hvalue.1 h
      · rintro (h | h | h)
        · exact hname.2.1 h
        · revert h
          decide
        · exact hvalue.2.1 h
      · rintro (h | h | h)
        · exact hname.2.2 h
        · revert h
          decide
        · exact hvalue.2.2 h

theorem clean_sectionName {x : Bytes} (hx : Clean x) : Clean (sectionName x) := by
  unfold sectionName
  split
  · simp [Clean]
  · simpa [Clean] using hx

theorem IniFile.Ok.clean_lines {f : IniFile} (hf : f.Ok) : ∀ l ∈ f.lines, Clean l := by
  intro l hl
  obtain ⟨s, hs, hl⟩ := List.mem_flatMap.mp hl
  have hok := hf.sections_ok s hs
  rw [IniSection.lines, List.mem_append] at hl
  rcases hl with hl | hl
  · split_ifs at hl with hne
    · obtain ⟨x, hx, hname⟩ := hok.named
      rw [List.mem_singleton.mp hl, hname]
      exact clean_sectionName hx
    · cases hl
  · obtain ⟨k, hk, rfl⟩ := List.mem_map.mp hl
    exact clean_line (hok.keys_ok k hk)

/-- Lines with an end behind each are found again in the text. -/
theorem load_lines {lines : List Bytes} (h : ∀ l ∈ lines, Clean l) :
    (TextSeparator.items (cstr (lines.flatMap (· ++ [10]))) [10]).map (trim · 13) = lines := by
  have hnull : (0 : UInt8) ∉ lines.flatMap (· ++ [10]) := by
    intro hmem
    obtain ⟨l, hl, hc⟩ := List.mem_flatMap.mp hmem
    rcases List.mem_append.mp hc with hc | hc
    · exact (h l hl).2.2 hc
    · revert hc
      decide
  have hlength : lines.length ≤ (lines.flatMap (· ++ [(10 : UInt8)])).length := by
    rw [List.length_flatMap]
    induction lines with
    | nil => simp
    | cons l lines ih =>
        have := ih (fun m hm => h m (List.mem_cons_of_mem l hm)) (by
          intro hmem
          apply hnull
          rw [List.flatMap_cons]
          exact List.mem_append_right _ hmem)
        simp only [List.map_cons, List.sum_cons, List.length_cons, List.length_append] at this ⊢
        omega
  rw [cstr_eq_self hnull, TextSeparator.items,
    TextSeparator.itemsLoop_terminated (fun l hl => (h l hl).1) (by omega)]
  conv_rhs => rw [← List.map_id lines]
  apply List.map_congr_left
  intro l hl
  exact trim_clean (h l hl).2.1

theorem dump_eq (f : IniFile) : f.dump =
    (if f.lines.flatMap (· ++ [10]) ≠ [] ∧ f.mAddBOM then bom else []) ++
      f.lines.flatMap (· ++ [10]) := by
  have hcontent : f.mSections.flatMap IniSection.text = f.lines.flatMap (· ++ [10]) := by
    rw [IniFile.lines, List.flatMap_assoc]
    congr 1
    funext s
    exact text_eq s
  simp only [IniFile.dump, hcontent]
  split_ifs <;> simp

/-- The text begins with a byte order mark that is not meant as one. -/
def FalseMark (f : IniFile) : Prop :=
  f.mAddBOM = false ∧ ∃ s k sections keys, f.mSections = s :: sections ∧ s.mSectionName = [] ∧
    s.mKeys = k :: keys ∧ bom <+: k.m_szKeyName

/-- A mark is not followed by a byte that ends a name. -/
theorem bom_name {name rest : Bytes} {c : UInt8} (hc : c = 61 ∨ c = 10)
    (h : bom <+: name ++ c :: rest) : bom <+: name := by
  have hEF : c ≠ 0xEF := by rcases hc with rfl | rfl <;> decide
  have hBB : c ≠ 0xBB := by rcases hc with rfl | rfl <;> decide
  have hBF : c ≠ 0xBF := by rcases hc with rfl | rfl <;> decide
  match name with
  | [] => simp [bom, List.cons_prefix_cons, Ne.symm hEF] at h
  | [a] => simp [bom, List.cons_prefix_cons, Ne.symm hBB] at h
  | [a, b] => simp [bom, List.cons_prefix_cons, Ne.symm hBF] at h
  | a :: b :: d :: name => simpa [bom, List.cons_prefix_cons] using h

theorem bom_line {k : IniKey} {rest : Bytes} (h : bom <+: k.line ++ 10 :: rest) :
    bom <+: k.m_szKeyName := by
  unfold IniKey.line at h
  cases htype : k.m_nKeyType with
  | comment =>
      rw [htype] at h
      exact bom_name (Or.inr rfl) h
  | value =>
      rw [htype] at h
      simp only [List.append_assoc, List.cons_append] at h
      exact bom_name (Or.inl rfl) h

theorem falseMark_of_prefix {f : IniFile} (hf : f.Ok) (hadd : f.mAddBOM = false)
    (h : bom <+: f.lines.flatMap (· ++ [10])) : FalseMark f := by
  refine ⟨hadd, ?_⟩
  cases hsections : f.mSections with
  | nil => simp [IniFile.lines, hsections, bom] at h
  | cons s sections =>
      have hs := hf.sections_ok s (by simp [hsections])
      obtain ⟨k, keys, hkeys⟩ := List.exists_cons_of_ne_nil hs.keys_ne
      rw [IniFile.lines, hsections, List.flatMap_cons, IniSection.lines] at h
      by_cases hne : s.mSectionName = []
      · refine ⟨s, k, sections, keys, rfl, hne, hkeys, ?_⟩
        simp only [hne, ne_eq, not_true_eq_false, if_false, List.nil_append, hkeys, List.map_cons,
          List.cons_append, List.flatMap_cons, List.append_assoc] at h
        exact bom_line h
      · obtain ⟨-, h91, -⟩ := hs.isSectionLine hne
        obtain ⟨c, r, hname⟩ := List.exists_cons_of_ne_nil hne
        rw [if_pos hne, hname] at h
        rw [hname, List.head?_cons, Option.some.injEq] at h91
        simp [bom, List.cons_prefix_cons, h91] at h

theorem load_dump {f : IniFile} (hf : f.Ok) (h : ¬ FalseMark f) (g : IniFile) :
    (g.load f.dump).mSections = readFile f.lines := by
  have hlines := load_lines hf.clean_lines
  have hbox : f.dump = [] → f.lines = [] := by
    intro hnil
    rw [dump_eq] at hnil
    obtain ⟨-, hcontent⟩ := List.append_eq_nil_iff.mp hnil
    apply List.eq_nil_iff_forall_not_mem.mpr
    intro l hl
    simpa using List.flatMap_eq_nil_iff.mp hcontent l hl
  have hskip : (if bom <+: f.dump then f.dump.drop 3 else f.dump)
      = f.lines.flatMap (· ++ [10]) := by
    rw [dump_eq]
    by_cases hadd : f.lines.flatMap (· ++ [10]) ≠ [] ∧ f.mAddBOM = true
    · rw [if_pos hadd, if_pos (List.prefix_append _ _)]
      rfl
    · rw [if_neg hadd, List.nil_append, if_neg]
      intro hstart
      have hne : f.lines.flatMap (· ++ [10]) ≠ [] := by
        rintro hnil
        rw [hnil] at hstart
        simp [bom] at hstart
      apply h
      apply falseMark_of_prefix hf _ hstart
      simpa using fun hb => hadd ⟨hne, hb⟩
  rw [IniFile.load]
  by_cases hempty : f.dump = []
  · rw [if_pos hempty, hbox hempty]
    rfl
  · rw [if_neg hempty]
    simp only [hskip, hlines, foldl_loadLine_start]

/-- With a false mark the first line is read without its first three bytes. -/
theorem load_dump_mark {f : IniFile} (hf : f.Ok) (hadd : f.mAddBOM = false) {line : Bytes}
    {lines : List Bytes} (hlines : f.lines = line :: lines) (hmark : bom <+: line) (g : IniFile) :
    (g.load f.dump).mSections = readFile (line.drop 3 :: lines) := by
  obtain ⟨rest, rfl⟩ := hmark
  have hclean := hf.clean_lines
  rw [hlines] at hclean
  have hrest : ∀ l ∈ rest :: lines, Clean l := by
    intro l hl
    rcases List.mem_cons.mp hl with rfl | hl
    · obtain ⟨h10, h13, h0⟩ := hclean _ List.mem_cons_self
      simp only [List.mem_append, not_or] at h10 h13 h0
      exact ⟨h10.2, h13.2, h0.2⟩
    · exact hclean l (List.mem_cons_of_mem _ hl)
  have hread := load_lines hrest
  have hdump : f.dump = bom ++ (rest :: lines).flatMap (· ++ [10]) := by
    rw [dump_eq, hlines, if_neg (by simp [hadd])]
    simp
  have hdrop : (bom ++ rest).drop 3 = rest := rfl
  rw [IniFile.load, hdump, if_neg (by simp [bom]), if_pos (List.prefix_append _ _)]
  have hskip : (bom ++ (rest :: lines).flatMap (· ++ [10])).drop 3
      = (rest :: lines).flatMap (· ++ [10]) := rfl
  simp only [hskip, hread, foldl_loadLine_start, hdrop]

theorem IniFile.Ok.findSection {f : IniFile} (hf : f.Ok) {s : IniSection} (hs : s ∈ f.mSections)
    {x : Bytes} (hx : s.mSectionName = sectionName x) : f.findSection x = some s := by
  rw [IniFile.findSection, ← hx]
  exact find_label hf.sections_differ hs

theorem IniFile.Ok.findKey {f : IniFile} (hf : f.Ok) {s : IniSection} (hs : s ∈ f.mSections)
    {x : Bytes} (hx : s.mSectionName = sectionName x) {k : IniKey} (hk : k ∈ s.mKeys) :
    f.findKey x k.m_szKeyName = some k := by
  simp only [IniFile.findKey, hf.findSection hs hx, Option.bind_eq_bind, Option.bind_some]
  exact find_label (hf.sections_ok s hs).keys_differ hk

theorem findKey_no_section {f : IniFile} {x : Bytes}
    (h : ∀ s ∈ f.mSections, s.label ≠ lower (sectionName x)) (key : Bytes) :
    f.findKey x key = none := by
  have hnone : f.findSection x = none := by
    rw [IniFile.findSection, List.find?_eq_none]
    simpa using h
  rw [IniFile.findKey, hnone]
  rfl

theorem findKey_no_key {f : IniFile} {x key : Bytes} {before after : List IniSection}
    {s : IniSection} (hsections : f.mSections = before ++ s :: after)
    (hbefore : ∀ t ∈ before, t.label ≠ lower (sectionName x))
    (hlabel : s.label = lower (sectionName x)) (hkeys : ∀ j ∈ s.mKeys, j.label ≠ lower key) :
    f.findKey x key = none := by
  have hsome : f.findSection x = some s := by
    rw [IniFile.findSection, hsections, List.find?_append,
      List.find?_eq_none.mpr (by simpa using hbefore)]
    simp [hlabel]
  simp only [IniFile.findKey, hsome, Option.bind_eq_bind, Option.bind_some]
  rw [List.find?_eq_none]
  simpa using hkeys

/-- Every lookup, with every default, gives the same. -/
def SameLookups (f g : IniFile) : Prop :=
  ∀ pszSection pszKey,
    (∀ pszDefault, f.getString pszSection pszKey pszDefault
      = g.getString pszSection pszKey pszDefault) ∧
    ∀ nDefault, f.getInt pszSection pszKey nDefault = g.getInt pszSection pszKey nDefault

theorem sameLookups_of_sections {f g : IniFile} (h : f.mSections = g.mSections) :
    SameLookups f g := by
  intro x key
  have hfind : f.findKey x key = g.findKey x key := by
    simp only [IniFile.findKey, IniFile.findSection, h]
  have hget (pszDefault : Bytes) : f.getString x key pszDefault = g.getString x key pszDefault := by
    simp only [IniFile.getString, hfind]
  constructor
  · exact hget
  · intro nDefault
    rw [IniFile.getInt, IniFile.getInt, hget]

/-- A key that is not found gives whatever default is asked for. -/
theorem not_sameLookups {f g : IniFile} {x : Bytes} {k : IniKey}
    (hf : f.findKey x k.m_szKeyName = some k) (hg : g.findKey x k.m_szKeyName = none) :
    ¬ SameLookups g f := by
  intro h
  have hvalue := (h x k.m_szKeyName).1 (1 :: k.m_szKeyValue)
  simp only [IniFile.getString, hf, hg] at hvalue
  have := congrArg List.length hvalue
  simp at this

structure IniFile.Readable (f : IniFile) : Prop where
  unnamed_first : ∀ s ∈ f.mSections.tail, s.mSectionName ≠ []
  keys_read : ∀ s ∈ f.mSections, ∀ k ∈ s.mKeys, k.ReadBack
  no_mark : ¬ FalseMark f

theorem lower_eq_nil {s : Bytes} : lower s = [] ↔ s = [] := List.map_eq_nil_iff

theorem readFile_names {lines : List Bytes} (h : BeginsSection lines) :
    ∀ s ∈ readFile lines, isSectionLine s.mSectionName := by
  cases lines with
  | nil => simp [readFile]
  | cons l lines =>
      have hl : isSectionLine l := h l rfl
      obtain ⟨more, heq, hmore⟩ := readSections_head ⟨l, []⟩ lines
      rw [readFile, if_pos hl, heq]
      intro s hs
      rcases List.mem_cons.mp hs with rfl | hs
      · exact hl
      · exact hmore s hs

/-- A text that begins with a section has no unnamed one. -/
theorem findKey_unnamed {g : IniFile} {lines : List Bytes} (hg : g.mSections = readFile lines)
    (h : BeginsSection lines) (key : Bytes) : g.findKey [] key = none := by
  apply findKey_no_section
  intro s hs hlabel
  have hname := readFile_names h s (hg ▸ hs)
  rw [lower_eq_nil.mp hlabel] at hname
  exact not_isSectionLine_nil hname

theorem begins_lines {sections : List IniSection} (hok : ∀ s ∈ sections, s.Ok)
    (hnamed : ∀ s ∈ sections, s.mSectionName ≠ []) :
    BeginsSection (sections.flatMap IniSection.lines) := by
  cases sections with
  | nil => simp [BeginsSection]
  | cons s sections =>
      have hne := hnamed s List.mem_cons_self
      rw [BeginsSection, List.flatMap_cons, lines_named hne]
      intro l hl
      obtain rfl : s.mSectionName = l := by simpa using hl
      exact (hok s List.mem_cons_self).isSectionLine hne

/-- Only the lines of the section itself come before the next section. -/
theorem mem_takeWhile_keys {keys rest : List Bytes} (hrest : BeginsSection rest) {l : Bytes}
    (hl : l ∈ (keys ++ rest).takeWhile fun l => ¬ isSectionLine l) :
    l ∈ keys ∧ ¬ isSectionLine l := by
  induction keys with
  | nil =>
      cases rest with
      | nil => simp at hl
      | cons r rest =>
          have hr : isSectionLine r := hrest r rfl
          simp [hr] at hl
  | cons k keys ih =>
      rw [List.cons_append, List.takeWhile_cons] at hl
      split_ifs at hl with hk
      · rcases List.mem_cons.mp hl with rfl | hl
        · exact ⟨List.mem_cons_self, by simpa using hk⟩
        · exact ⟨List.mem_cons_of_mem k (ih hl).1, (ih hl).2⟩
      · cases hl

/-- The unnamed section behind another: its keys go to that one. -/
theorem lost_unnamed {f : IniFile} (hf : f.Ok) {s : IniSection} (hs : s ∈ f.mSections.tail)
    (hname : s.mSectionName = []) (g : IniFile) : ¬ SameLookups (g.load f.dump) f := by
  have hok := hf.sections_ok s (List.mem_of_mem_tail hs)
  obtain ⟨k, keys, hkeys⟩ := List.exists_cons_of_ne_nil hok.keys_ne
  have hfound := hf.findKey (List.mem_of_mem_tail hs) (x := []) hname (k := k) (by simp [hkeys])
  cases hsections : f.mSections with
  | nil => simp [hsections] at hs
  | cons p sections =>
      have hp := hf.sections_ok p (by simp [hsections])
      have hpne : p.mSectionName ≠ [] := by
        intro hp
        have hdiffer := hf.sections_differ
        rw [hsections, List.map_cons, List.nodup_cons] at hdiffer
        rw [hsections, List.tail_cons] at hs
        apply hdiffer.1
        have : p.label = s.label := by rw [IniSection.label, IniSection.label, hp, hname]
        rw [this]
        exact List.mem_map_of_mem hs
      have hmark : ¬ FalseMark f := by
        rintro ⟨-, t, k, rest, ks, ht, htname, -⟩
        rw [hsections, List.cons.injEq] at ht
        exact hpne (ht.1 ▸ htname)
      apply not_sameLookups hfound
      apply findKey_unnamed (load_dump hf hmark g)
      rw [IniFile.lines, hsections, List.flatMap_cons, lines_named hpne]
      intro l hl
      obtain rfl : p.mSectionName = l := by simpa using hl
      exact hp.isSectionLine hpne

/-- The name that is read from the line of a key is its own, or has an equals sign. -/
theorem readKey_name {k : IniKey} (h : 61 ∉ k.m_szKeyName) :
    (readKey k.line).m_szKeyName = k.m_szKeyName ∨ 61 ∈ (readKey k.line).m_szKeyName := by
  unfold readKey
  split_ifs with hcomment
  · unfold IniKey.line
    cases k.m_nKeyType <;> simp
  · left
    have hmem : (61 : UInt8) ∈ k.line := by tauto
    unfold IniKey.line at hmem ⊢
    cases htype : k.m_nKeyType with
    | comment =>
        rw [htype] at hmem
        exact absurd hmem h
    | value =>
        have hname : ∀ c ∈ k.m_szKeyName, (decide (c ≠ 61)) = true := by
          intro c hc
          have : c ≠ 61 := fun hc' => h (hc' ▸ hc)
          simpa using this
        simp only [List.takeWhile_append_of_pos hname]
        simp

theorem label_readKey {k j : IniKey} (hk : k.Ok) (hj : 61 ∉ j.m_szKeyName)
    (h : (readKey j.line).label = k.label) : j.label = k.label := by
  rcases readKey_name hj with hname | hmem
  · rw [← h, IniKey.label, IniKey.label, hname]
  · have : (61 : UInt8) ∈ k.label := h ▸ mem_lower_equals.mpr hmem
    exact absurd (mem_lower_equals.mp this) hk.no_equals

theorem keys_differ {k : IniKey} {keys : List IniKey}
    (h : ((k :: keys).map IniKey.label).Nodup) {j : IniKey} (hj : j ∈ keys) :
    j.label ≠ k.label := by
  rw [List.map_cons, List.nodup_cons] at h
  intro heq
  apply h.1
  rw [← heq]
  exact List.mem_map_of_mem hj

/-- A key whose name begins like a byte order mark loses the beginning. -/
theorem lost_mark {f : IniFile} (hf : f.Ok) (hnamed : ∀ s ∈ f.mSections.tail, s.mSectionName ≠ [])
    (h : FalseMark f) (g : IniFile) : ¬ SameLookups (g.load f.dump) f := by
  obtain ⟨hadd, s, k, sections, keys, hsections, hname, hkeys, name, hbom⟩ := h
  have hs := hf.sections_ok s (by simp [hsections])
  have hk := hs.keys_ok k (by simp [hkeys])
  have hfound := hf.findKey (s := s) (by simp [hsections]) (x := []) hname (k := k)
    (by simp [hkeys])
  have hlines : f.lines =
    k.line :: (keys.map IniKey.line ++ sections.flatMap IniSection.lines) := by
    rw [IniFile.lines, hsections, List.flatMap_cons, IniSection.lines, if_neg (by simp [hname]),
      hkeys]
    rfl
  have hline : k.line = bom ++ IniKey.line { k with m_szKeyName := name } := by
    unfold IniKey.line
    cases k.m_nKeyType <;> simp [← hbom]
  have hload := load_dump_mark hf hadd hlines ⟨_, hline.symm⟩ g
  have hdrop : k.line.drop 3 = IniKey.line { k with m_szKeyName := name } := by
    rw [hline]
    rfl
  rw [hdrop] at hload
  rw [hsections, List.tail_cons] at hnamed
  have hrest := begins_lines (fun t ht => hf.sections_ok t (by simp [hsections, ht])) hnamed
  apply not_sameLookups hfound
  by_cases hfirst : isSectionLine (IniKey.line { k with m_szKeyName := name })
  · apply findKey_unnamed hload
    intro l hl
    obtain rfl : _ = l := by simpa using hl
    exact hfirst
  · obtain ⟨more, heq, -⟩ := readSections_head ⟨[], []⟩
      ((IniKey.line { k with m_szKeyName := name } :: keys.map IniKey.line) ++
        sections.flatMap IniSection.lines)
    rw [readFile, if_neg hfirst, ← List.cons_append, heq] at hload
    apply @findKey_no_key _ _ _ [] _ _ hload
    · simp
    · rfl
    · intro j hj
      obtain ⟨l, hl, rfl⟩ := List.mem_map.mp (show j ∈ List.map readKey _ from hj)
      obtain ⟨hmem, hno⟩ := mem_takeWhile_keys hrest hl
      intro hlabel
      rcases List.mem_cons.mp hmem with rfl | hmem
      · have hno61 : (61 : UInt8) ∉ name := by
          intro hc
          apply hk.no_equals
          rw [← hbom]
          exact List.mem_append_right _ hc
        have hlength := congrArg List.length (label_readKey hk hno61 hlabel)
        simp only [IniKey.label, lower, List.length_map] at hlength
        have hshort : (bom ++ name).length = 3 + name.length := List.length_append
        rw [hbom] at hshort
        omega
      · obtain ⟨i, hi, rfl⟩ := List.mem_map.mp hmem
        have hdiffer := hs.keys_differ
        rw [hkeys] at hdiffer
        have hi61 := (hs.keys_ok i (by simp [hkeys, hi])).no_equals
        exact keys_differ hdiffer hi (label_readKey hk hi61 hlabel)

theorem exists_first {α : Type*} {P : α → Prop} {l : List α} (h : ¬ ∀ a ∈ l, P a) :
    ∃ before a after, l = before ++ a :: after ∧ (∀ b ∈ before, P b) ∧ ¬ P a := by
  induction l with
  | nil => simp at h
  | cons a l ih =>
      by_cases ha : P a
      · have hl : ¬ ∀ b ∈ l, P b := by
          intro hl
          apply h
          intro b hb
          rcases List.mem_cons.mp hb with rfl | hb
          · exact ha
          · exact hl b hb
        obtain ⟨before, b, after, rfl, hbefore, hb⟩ := ih hl
        refine ⟨a :: before, b, after, rfl, ?_, hb⟩
        intro c hc
        rcases List.mem_cons.mp hc with rfl | hc
        · exact ha
        · exact hbefore c hc
      · exact ⟨[], a, l, rfl, by simp, ha⟩

/-- A key whose line is taken for something else is not found again. -/
theorem lost_key {f : IniFile} (hf : f.Ok) (hnamed : ∀ s ∈ f.mSections.tail, s.mSectionName ≠ [])
    (hmark : ¬ FalseMark f) (hread : ¬ ∀ s ∈ f.mSections, ∀ k ∈ s.mKeys, k.ReadBack)
    (g : IniFile) : ¬ SameLookups (g.load f.dump) f := by
  obtain ⟨before, s, after, hsections, hbefore, hbad⟩ := exists_first hread
  have hs := hf.sections_ok s (by simp [hsections])
  obtain ⟨k, hk, hkbad⟩ : ∃ k ∈ s.mKeys, ¬ k.ReadBack := by
    by_contra hall
    apply hbad
    intro k hk
    by_contra hkbad
    exact hall ⟨k, hk, hkbad⟩
  obtain ⟨x, -, hx⟩ := hs.named
  have hfound := hf.findKey (s := s) (by simp [hsections]) hx hk
  have hafter : ∀ t ∈ after, t.mSectionName ≠ [] := by
    intro t ht
    apply hnamed t
    rw [hsections]
    cases before with
    | nil => exact ht
    | cons p before => simp [ht]
  have hrest := begins_lines (fun t ht => hf.sections_ok t (by simp [hsections, ht])) hafter
  have hlines : f.lines = before.flatMap IniSection.lines ++
      (s.lines ++ after.flatMap IniSection.lines) := by
    rw [IniFile.lines, hsections, List.flatMap_append, List.flatMap_cons]
  have hbegins : before ≠ [] → BeginsSection (s.lines ++ after.flatMap IniSection.lines) := by
    intro hne
    obtain ⟨p, before, rfl⟩ := List.exists_cons_of_ne_nil hne
    have hsne : s.mSectionName ≠ [] := hnamed s (by simp [hsections])
    rw [lines_named hsne]
    intro l hl
    obtain rfl : s.mSectionName = l := by simpa using hl
    exact hs.isSectionLine hsne
  have hload : (g.load f.dump).mSections = before ++
      readFile (s.lines ++ after.flatMap IniSection.lines) := by
    rw [load_dump hf hmark, hlines]
    by_cases hne : before = []
    · simp [hne]
    · apply readFile_readBack
      · exact fun t ht => hf.sections_ok t (by simp [hsections, ht])
      · intro t ht
        obtain ⟨p, before, rfl⟩ := List.exists_cons_of_ne_nil hne
        exact hnamed t (by rw [hsections]; exact List.mem_append_left _ ht)
      · exact hbefore
      · exact hbegins hne
  apply not_sameLookups hfound
  by_cases hfirst : s.mSectionName = [] → ∀ k ∈ s.mKeys.head?, ¬ isSectionLine k.line
  · obtain ⟨more, heq, -⟩ := readSections_head ⟨s.mSectionName, []⟩
      (s.mKeys.map IniKey.line ++ after.flatMap IniSection.lines)
    rw [readFile_first hs hfirst, heq] at hload
    apply findKey_no_key hload
    · intro t ht hlabel
      have hdiffer := hf.sections_differ
      rw [hsections, List.map_append, List.nodup_append] at hdiffer
      apply hdiffer.2.2 t.label (List.mem_map_of_mem ht) s.label (by simp)
      rw [hlabel, ← hx]
      rfl
    · rw [← hx]
      rfl
    · intro j hj
      obtain ⟨l, hl, rfl⟩ := List.mem_map.mp (show j ∈ List.map readKey _ from hj)
      obtain ⟨hmem, hno⟩ := mem_takeWhile_keys hrest hl
      obtain ⟨i, hi, rfl⟩ := List.mem_map.mp hmem
      apply readKey_other (hs.keys_ok k hk) (hs.keys_ok i hi) hno
      intro hlabel
      have : i = k := List.inj_on_of_nodup_map hs.keys_differ hi hk hlabel
      rw [this]
      exact hkbad
  · -- the section is unnamed, so it is the first, and its first line begins a section
    simp only [not_forall, not_not] at hfirst
    obtain ⟨hname, j, hj, hjline⟩ := hfirst
    have hnil : before = [] := by
      cases before with
      | nil => rfl
      | cons p before => exact absurd hname (hnamed s (by simp [hsections]))
    have hempty : x = [] := by
      rw [hname] at hx
      by_contra hne
      exact not_isSectionLine_nil (hx ▸ isSectionLine_sectionName hne)
    rw [hnil, List.nil_append] at hload
    rw [hempty]
    apply findKey_unnamed hload
    obtain ⟨i, keys, hkeys⟩ := List.exists_cons_of_ne_nil hs.keys_ne
    obtain rfl : i = j := by simpa [hkeys] using hj
    rw [IniSection.lines, hname, hkeys]
    intro l hl
    obtain rfl : i.line = l := by simpa using hl
    exact hjline

theorem same_iff {f : IniFile} (hf : f.Ok) (g : IniFile) :
    SameLookups (g.load f.dump) f ↔ f.Readable := by
  constructor
  · intro h
    have hnamed : ∀ s ∈ f.mSections.tail, s.mSectionName ≠ [] := by
      intro s hs hname
      exact lost_unnamed hf hs hname g h
    have hmark : ¬ FalseMark f := fun hm => lost_mark hf hnamed hm g h
    refine ⟨hnamed, ?_, hmark⟩
    by_contra hread
    exact lost_key hf hnamed hmark hread g h
  · rintro ⟨hnamed, hread, hmark⟩
    apply sameLookups_of_sections
    have := @readFile_readBack _ hf.sections_ok hnamed hread [] (by simp [BeginsSection])
    rw [List.append_nil] at this
    rw [load_dump hf hmark, IniFile.lines, this, readFile, List.append_nil]

/-- A file built by calls is read back if and only if its unnamed section is the first, no key
with a value begins with `#` or `;`, no line of a key has the form of a section, and the text does
not begin with a byte order mark that is part of a name. -/
theorem roundTrip_iff (mAddBOM : Bool) (calls : List Call) (h : ∀ c ∈ calls, c.Ok) (g : IniFile) :
    SameLookups (g.load (built mAddBOM calls).dump) (built mAddBOM calls) ↔
      (built mAddBOM calls).Readable :=
  same_iff (built_ok mAddBOM h) g

/-- An unnamed section that comes first, then a named one. -/
def orderly : List Call :=
  [.setString [] (ascii "u") (ascii "2"), .setString (ascii "a") (ascii "k") (ascii "1")]

theorem roundTrip_iff_orderly :
    SameLookups ((⟨[], false⟩ : IniFile).load (built false orderly).dump)
      (built false orderly) := by
  have hok : ∀ c ∈ orderly, c.Ok := by
    intro c hc
    simp only [orderly, List.mem_cons, List.not_mem_nil, or_false] at hc
    rcases hc with rfl | rfl <;> simp [Call.Ok, Clean, ascii]
  rw [roundTrip_iff false orderly hok]
  have hfile : built false orderly = ⟨[⟨[], [⟨.value, ascii "u", ascii "2"⟩]⟩,
      ⟨ascii "[a]", [⟨.value, ascii "k", ascii "1"⟩]⟩], false⟩ := by decide
  rw [hfile]
  refine ⟨?_, ?_, ?_⟩
  · simp [ascii]
  · intro s hs k hk
    simp only [List.mem_cons, List.not_mem_nil, or_false] at hs
    rcases hs with rfl | rfl
    · obtain rfl := List.mem_singleton.mp hk
      exact ⟨by decide, by decide⟩
    · obtain rfl := List.mem_singleton.mp hk
      exact ⟨by decide, by decide⟩
  · rintro ⟨-, s, k, sections, keys, hs, -, hk, hbom⟩
    simp only [List.cons.injEq] at hs
    rw [← hs.1] at hk
    simp only [List.cons.injEq] at hk
    rw [← hk.1] at hbom
    revert hbom
    decide

/-- The same calls in the other order: the key of the unnamed section goes to the named one. -/
theorem late_unnamed :
    let f := built false
      [.setString (ascii "a") (ascii "k") (ascii "1"), .setString [] (ascii "u") (ascii "2")]
    let g := (⟨[], false⟩ : IniFile).load f.dump
    f.dump = ascii "[a]\nk=1\nu=2\n" ∧ f.getString [] (ascii "u") [] = ascii "2" ∧
      g.getString [] (ascii "u") [] = [] ∧ g.getString (ascii "a") (ascii "u") [] = ascii "2" := by
  decide

end CoreLooper.Ini
