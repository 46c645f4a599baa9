import CoreLooper.Assignments
import CoreLooper.CommonTextProtocol
import CoreLooper.TextLines

/-!
# Ini objects

`FileSystem::Ini`, the fast and simple version of `IniFile`: sections of names and values, no
comments, no order. The maps are `unordered_map`s: `Dump` writes the sections, and the entries
of each, in an order that is not specified, and every one of them is a possible text.
-/
namespace CoreLooper.SimpleIni

open CStrings
open CTP (BytesLt)
open Ini (trim bom isSectionLine)

abbrev IniSection := OrderedMap Bytes Bytes BytesLt

/-- What the object holds, whatever the order. -/
abbrev Sections := OrderedMap Bytes IniSection BytesLt

namespace Sections

def get (m : Sections) (section_ key : Bytes) : Option Bytes :=
  (m.find section_).bind (·.find key)

/-- `mSections[section][key] = value`. -/
def set (m : Sections) (section_ key value : Bytes) : Sections :=
  m.insert section_ (((m.find section_).getD OrderedMap.empty).insert key value)

/-- Every section has an entry. -/
def Full (m : Sections) : Prop := ∀ s x, m.find s = some x → ∃ k, (x.find k).isSome

variable {m m' : Sections}

theorem get_set (m : Sections) (s k v s' k' : Bytes) :
    (m.set s k v).get s' k' = if (s', k') = (s, k) then some v else m.get s' k' := by
  unfold get set
  rw [OrderedMap.find_insert]
  by_cases hs : s' = s
  · subst hs
    rw [if_pos rfl, Option.bind_some, OrderedMap.find_insert]
    by_cases hk : k' = k
    · simp [hk]
    · cases hm : m.find s' with
      | none => simp [hk]
      | some x => simp [hk]
  · simp [hs]

theorem full_empty : Full OrderedMap.empty := by
  intro s x h
  cases h

theorem Full.set (h : m.Full) (s k v : Bytes) : (m.set s k v).Full := by
  intro s' x hx
  rw [Sections.set, OrderedMap.find_insert] at hx
  split_ifs at hx with hs
  · refine ⟨k, ?_⟩
    rw [← Option.some.inj hx, OrderedMap.find_insert, if_pos rfl]
    rfl
  · exact h s' x hx

/-- Objects without empty sections are the same if their entries are. -/
theorem Full.ext_get (h : m.Full) (h' : m'.Full) (hget : ∀ s k, m.get s k = m'.get s k) :
    m = m' := by
  apply OrderedMap.ext_find
  intro s
  have hs := hget s
  unfold get at hs
  cases hm : m.find s with
  | none =>
      cases hm' : m'.find s with
      | none => rfl
      | some x =>
          obtain ⟨k, hk⟩ := h' s x hm'
          have := hs k
          rw [hm, hm', Option.bind_none, Option.bind_some] at this
          rw [← this] at hk
          cases hk
  | some x =>
      cases hm' : m'.find s with
      | none =>
          obtain ⟨k, hk⟩ := h s x hm
          have := hs k
          rw [hm, hm', Option.bind_none, Option.bind_some] at this
          rw [this] at hk
          cases hk
      | some x' =>
          congr 1
          apply OrderedMap.ext_find
          intro k
          have := hs k
          rwa [hm, hm', Option.bind_some, Option.bind_some] at this

end Sections

structure Loading where
  section_ : Bytes
  mSections : Sections

/-- `substr(1, length - 2)` of a section's line. -/
def sectionOf (line : Bytes) : Bytes := line.tail.dropLast

/-- `find` gives -1 without `=`, and `substr(0, -1)` is the whole line. -/
def keyOf (line : Bytes) : Bytes := line.takeWhile (· ≠ 61)

/-- `substr(pos + 1)`: the whole line again without `=`. -/
def valueOf (line : Bytes) : Bytes := if 61 ∈ line then (line.dropWhile (· ≠ 61)).tail else line

def loadLine (s : Loading) (line : Bytes) : Loading :=
  if isSectionLine line then { s with section_ := sectionOf line }
  else { s with mSections := s.mSections.set s.section_ (keyOf line) (valueOf line) }

/-- The text is followed by a null. -/
def load (box : Bytes) : Sections :=
  if box = [] then OrderedMap.empty
  else
    let sz := if bom <+: box then box.drop 3 else box
    ((TextSeparator.lines sz).foldl loadLine ⟨[], OrderedMap.empty⟩).mSections

/-- The sections and the entries of each in the order of an iteration. -/
abbrev Iteration := List (Bytes × List (Bytes × Bytes))

structure Iteration.Of (it : Iteration) (m : Sections) : Prop where
  sections : (it.map Prod.fst).Perm (m.items.map Prod.fst)
  entries : ∀ s ∈ it, ∃ x, m.find s.1 = some x ∧ s.2.Perm x.items

def header (section_ : Bytes) : Bytes := 91 :: section_ ++ [93]

def entryLine (e : Bytes × Bytes) : Bytes := e.1 ++ 61 :: e.2

/-- The lines of the text. -/
def Iteration.lines (it : Iteration) : List Bytes :=
  it.flatMap fun s => header s.1 :: s.2.map entryLine

def dump (it : Iteration) : Bytes :=
  it.flatMap fun s => header s.1 ++ [10] ++ s.2.flatMap fun e => entryLine e ++ [10]

theorem dump_eq (it : Iteration) : dump it = it.lines.flatMap (· ++ [10]) := by
  unfold dump Iteration.lines
  induction it with
  | nil => rfl
  | cons s it ih =>
      rw [List.flatMap_cons, List.flatMap_cons, List.flatMap_append, List.flatMap_cons, ih,
        List.flatMap_map]

/-- The entries with their sections. -/
def Iteration.assigned (it : Iteration) : List ((Bytes × Bytes) × Bytes) :=
  it.flatMap fun s => s.2.map fun e => ((s.1, e.1), e.2)

/-- The assignments that the lines make, from a current section on. -/
def assigns : Bytes → List Bytes → List ((Bytes × Bytes) × Bytes)
  | _, [] => []
  | section_, line :: lines =>
      if isSectionLine line then assigns (sectionOf line) lines
      else ((section_, keyOf line), valueOf line) :: assigns section_ lines

theorem get_foldl (lines : List Bytes) (s : Loading) (x k : Bytes) :
    (lines.foldl loadLine s).mSections.get x k =
      (lastValue (x, k) (assigns s.section_ lines)).or (s.mSections.get x k) := by
  induction lines generalizing s with
  | nil => rfl
  | cons line lines ih =>
      rw [List.foldl_cons, ih]
      by_cases hline : isSectionLine line
      · simp only [loadLine, assigns, if_pos hline]
      · simp only [loadLine, assigns, if_neg hline, lastValue, Option.or_assoc, Sections.get_set]
        by_cases hk : (x, k) = (s.section_, keyOf line)
        · rw [if_pos hk, if_pos hk.symm, Option.some_or]
        · rw [if_neg hk, if_neg (Ne.symm hk), Option.none_or]

theorem full_foldl (lines : List Bytes) {s : Loading} (hs : s.mSections.Full) :
    (lines.foldl loadLine s).mSections.Full := by
  induction lines generalizing s with
  | nil => exact hs
  | cons line lines ih =>
      rw [List.foldl_cons]
      apply ih
      unfold loadLine
      split_ifs
      · exact hs
      · exact hs.set _ _ _

theorem full_load (box : Bytes) : (load box).Full := by
  rw [load]
  split
  · exact Sections.full_empty
  · exact full_foldl _ Sections.full_empty

theorem sectionOf_ne_nil {line : Bytes} (h : isSectionLine line) : sectionOf line ≠ [] := by
  intro hnil
  have := congrArg List.length hnil
  simp only [sectionOf, List.length_dropLast, List.length_tail, List.length_nil] at this
  have := h.1
  omega

/-- The empty section is current up to the first line of a section only. -/
theorem assigns_section_ne {section_ : Bytes} (hs : section_ ≠ []) {lines : List Bytes} :
    ∀ a ∈ assigns section_ lines, a.1.1 ≠ [] := by
  induction lines generalizing section_ with
  | nil => simp [assigns]
  | cons line lines ih =>
      unfold assigns
      split_ifs with hline
      · exact ih (sectionOf_ne_nil hline)
      · rw [List.forall_mem_cons]
        exact ⟨hs, ih hs⟩

/-- A text without line ends and nulls, but maybe with carriage returns. -/
def OneLine (s : Bytes) : Prop := (10 : UInt8) ∉ s ∧ (0 : UInt8) ∉ s

/-- Of nothing but carriage returns. -/
def AllCr (s : Bytes) : Prop := ∀ c ∈ s, c = (13 : UInt8)

/-- Without a carriage return at either end. -/
def Trimmed (s : Bytes) : Prop := s.head? ≠ some 13 ∧ s.getLast? ≠ some 13

theorem trimmed_trim (s : Bytes) : AllCr (trim s 13) ∨ Trimmed (trim s 13) := by
  unfold trim
  split_ifs with hall
  · exact Or.inl hall
  · right
    set left := s.dropWhile (fun c => decide (c = 13)) with hleft
    have hmixed : ¬ ∀ c ∈ left, c = 13 := by
      intro h
      apply hall
      intro c hc
      rw [← List.takeWhile_append_dropWhile (p := fun c => decide (c = 13)) (l := s)] at hc
      rcases List.mem_append.mp hc with hc | hc
      · simpa using List.mem_takeWhile_imp hc
      · exact h c hc
    have hne : left.rdropWhile (fun c => decide (c = 13)) ≠ [] := by
      rw [Ne, List.rdropWhile_eq_nil_iff]
      simpa using hmixed
    constructor
    · have hstarts := List.rdropWhile_prefix (fun c => decide (c = 13)) left
      obtain ⟨c, r, hr⟩ := List.exists_cons_of_ne_nil hne
      obtain ⟨x, hx⟩ := hstarts
      rw [hr] at hx ⊢
      rw [List.head?_cons]
      intro hc
      have hhead : left.head? = some c := by rw [← hx]; rfl
      have := List.head?_dropWhile_not (fun c => decide (c = 13)) s
      rw [← hleft, hhead] at this
      simp [Option.some.inj hc] at this
    · rw [List.getLast?_eq_some_getLast hne]
      intro hc
      have := List.rdropWhile_last_not (fun c => decide (c = (13 : UInt8))) left hne
      simp [Option.some.inj hc] at this

/-- A trimmed line of a text. -/
structure LineOk (line : Bytes) : Prop where
  one_line : OneLine line
  trimmed : AllCr line ∨ Trimmed line

theorem lineOk_lines (text : Bytes) : ∀ l ∈ TextSeparator.lines text, LineOk l := by
  intro l hl
  refine ⟨⟨TextLines.lines_no_lf text l hl, TextLines.lines_no_null text l hl⟩, ?_⟩
  rw [TextSeparator.lines, TextSeparator.linesLoop_eq] at hl
  obtain ⟨raw, -, rfl⟩ := List.mem_map.mp hl
  exact trimmed_trim raw

/-- An entry as a line makes it: written out with its sign, it is that line again, unless the
line had no sign. -/
structure EntryOk (k v : Bytes) : Prop where
  key_line : OneLine k
  value_line : OneLine v
  no_sign : 61 ∉ k
  trimmed : k ≠ [] ∧ AllCr k ∨ Trimmed (entryLine (k, v))
  no_section : isSectionLine (entryLine (k, v)) → k = [91, 93] ∧ v = [91, 93]

theorem entryLine_of_sign {line : Bytes} (h : 61 ∈ line) :
    entryLine (keyOf line, valueOf line) = line := by
  have hdrop : ∃ v, line.dropWhile (fun c => decide (c ≠ 61)) = 61 :: v := by
    cases hd : line.dropWhile (fun c => decide (c ≠ 61)) with
    | nil =>
        rw [List.dropWhile_eq_nil_iff] at hd
        simpa using hd 61 h
    | cons c v =>
        have := List.head?_dropWhile_not (fun c => decide (c ≠ 61)) line
        rw [hd] at this
        exact ⟨v, by simp only [List.head?_cons] at this; simp_all⟩
  obtain ⟨v, hv⟩ := hdrop
  unfold entryLine keyOf valueOf
  rw [if_pos h]
  conv_rhs => rw [← List.takeWhile_append_dropWhile (p := fun c => decide (c ≠ 61)) (l := line)]
  rw [hv, List.tail_cons]

theorem keyOf_no_sign (line : Bytes) : 61 ∉ keyOf line := by
  intro h
  simpa using List.mem_takeWhile_imp h

theorem keyOf_of_no_sign {line : Bytes} (h : 61 ∉ line) : keyOf line = line := by
  rw [keyOf, List.takeWhile_eq_self_iff]
  intro c hc
  rw [decide_eq_true_eq]
  rintro rfl
  exact h hc

/-- A line without a sign that is not a section's is not one when it is doubled either, with the
exception of `[]`. -/
theorem eq_brackets {line : Bytes} (hline : ¬ isSectionLine line)
    (h : isSectionLine (line ++ 61 :: line)) : line = [91, 93] := by
  cases line with
  | nil => exact absurd h (by decide)
  | cons a l =>
      have hhead : (a :: l).head? = some 91 := h.2.1
      have hlast : (a :: l).getLast? = some 93 := by
        have := h.2.2
        rwa [List.getLast?_append_of_ne_nil _ (List.cons_ne_nil _ _),
          List.getLast?_cons_cons] at this
      cases l with
      | nil =>
          rw [List.head?_cons] at hhead
          rw [List.getLast?_singleton] at hlast
          rw [hhead] at hlast
          exact absurd hlast (by decide)
      | cons b l =>
          cases l with
          | nil =>
              rw [List.head?_cons] at hhead
              rw [List.getLast?_cons_cons, List.getLast?_singleton] at hlast
              rw [Option.some.inj hhead, Option.some.inj hlast]
          | cons c l =>
              exact absurd ⟨by simp, hhead, hlast⟩ hline

theorem entryOk_of_line {line : Bytes} (hline : LineOk line) (hsec : ¬ isSectionLine line) :
    EntryOk (keyOf line) (valueOf line) := by
  by_cases hsign : 61 ∈ line
  · have heq := entryLine_of_sign hsign
    have hmem : ∀ c, c ∉ line → c ∉ keyOf line ∧ c ∉ valueOf line := by
      intro c hc
      rw [← heq] at hc
      unfold entryLine at hc
      rw [List.mem_append, List.mem_cons, not_or, not_or] at hc
      exact ⟨hc.1, hc.2.2⟩
    obtain ⟨hlf, hnull⟩ := hline.one_line
    refine ⟨⟨(hmem _ hlf).1, (hmem _ hnull).1⟩, ⟨(hmem _ hlf).2, (hmem _ hnull).2⟩,
      keyOf_no_sign line, Or.inr ?_, ?_⟩
    · rw [heq]
      apply hline.trimmed.resolve_left
      intro h
      exact absurd (h 61 hsign) (by decide)
    · rw [heq]
      exact fun h => absurd h hsec
  · have hkey := keyOf_of_no_sign hsign
    have hvalue : valueOf line = line := if_neg hsign
    rw [hkey, hvalue]
    refine ⟨hline.one_line, hline.one_line, hsign, ?_, ?_⟩
    · by_cases hnil : line = []
      · subst hnil
        right
        unfold Trimmed entryLine
        decide
      · rcases hline.trimmed with h | h
        · exact Or.inl ⟨hnil, h⟩
        · right
          obtain ⟨c, l, rfl⟩ := List.exists_cons_of_ne_nil hnil
          refine ⟨h.1, ?_⟩
          rw [entryLine, List.getLast?_append_of_ne_nil _ (List.cons_ne_nil _ _),
            List.getLast?_cons_cons]
          exact h.2
    · intro h
      exact ⟨eq_brackets hsec h, eq_brackets hsec h⟩

theorem assigns_ok {lines : List Bytes} (hlines : ∀ l ∈ lines, LineOk l) {section_ : Bytes}
    (hs : OneLine section_) :
    ∀ a ∈ assigns section_ lines, OneLine a.1.1 ∧ EntryOk a.1.2 a.2 := by
  induction lines generalizing section_ with
  | nil => simp [assigns]
  | cons line lines ih =>
      have hline := hlines line List.mem_cons_self
      have hrest := fun l hl => hlines l (List.mem_cons_of_mem line hl)
      unfold assigns
      split_ifs with hsec
      · apply ih hrest
        have hmem : ∀ c ∈ sectionOf line, c ∈ line := fun c hc =>
          List.mem_of_mem_tail (List.mem_of_mem_dropLast hc)
        exact ⟨fun h => hline.one_line.1 (hmem _ h), fun h => hline.one_line.2 (hmem _ h)⟩
      · rw [List.forall_mem_cons]
        exact ⟨⟨hs, entryOk_of_line hline hsec⟩, ih hrest hs⟩

theorem load_ok {box s k v : Bytes} (h : (load box).get s k = some v) :
    OneLine s ∧ EntryOk k v := by
  unfold load at h
  by_cases hbox : box = []
  · rw [if_pos hbox] at h
    cases h
  · rw [if_neg hbox] at h
    simp only [get_foldl] at h
    rw [show Sections.get OrderedMap.empty s k = none from rfl, Option.or_none] at h
    exact assigns_ok (lineOk_lines _) (by simp [OneLine]) _ (mem_of_lastValue h)

section
variable {m : Sections} {it : Iteration}

theorem Iteration.Of.mem_assigned_iff (h : it.Of m) (s k v : Bytes) :
    ((s, k), v) ∈ it.assigned ↔ m.get s k = some v := by
  simp only [Iteration.assigned, List.mem_flatMap, List.mem_map, Sections.get,
    Option.bind_eq_some_iff]
  constructor
  · rintro ⟨⟨s', l⟩, hs, ⟨k', v'⟩, he, heq⟩
    cases heq
    obtain ⟨x, hx, hperm⟩ := h.entries _ hs
    exact ⟨x, hx, OrderedMap.find_of_mem (hperm.mem_iff.mp he)⟩
  · rintro ⟨x, hx, hk⟩
    have hs : s ∈ it.map Prod.fst := by
      rw [h.sections.mem_iff]
      exact List.mem_map.mpr ⟨_, OrderedMap.mem_of_find hx, rfl⟩
    obtain ⟨p, hp, rfl⟩ := List.mem_map.mp hs
    obtain ⟨x', hx', hperm⟩ := h.entries p hp
    rw [hx] at hx'
    rw [← Option.some.inj hx'] at hperm
    exact ⟨p, hp, (k, v), hperm.mem_iff.mpr (OrderedMap.mem_of_find hk), rfl⟩

theorem Iteration.Of.nodup_sections (h : it.Of m) : (it.map Prod.fst).Nodup :=
  h.sections.nodup_iff.mpr m.nodup_keys

theorem Iteration.Of.nodup_entries (h : it.Of m) :
    ∀ s ∈ it, (s.2.map Prod.fst).Nodup := by
  intro s hs
  obtain ⟨x, -, hperm⟩ := h.entries s hs
  exact (hperm.map Prod.fst).nodup_iff.mpr x.nodup_keys

theorem nodup_assigned (hs : (it.map Prod.fst).Nodup) (he : ∀ s ∈ it, (s.2.map Prod.fst).Nodup) :
    (it.assigned.map Prod.fst).Nodup := by
  induction it with
  | nil => exact List.nodup_nil
  | cons s it ih =>
      obtain ⟨hfresh, hs⟩ := List.nodup_cons.mp hs
      rw [Iteration.assigned, List.flatMap_cons, List.map_append, List.map_map,
        List.nodup_append']
      refine ⟨?_, ih hs fun t ht => he t (List.mem_cons_of_mem s ht), ?_⟩
      · have hmap : s.2.map (Prod.fst ∘ fun e => ((s.1, e.1), e.2)) =
            (s.2.map Prod.fst).map (Prod.mk s.1) := by
          rw [List.map_map]
          rfl
        rw [hmap]
        exact (he s List.mem_cons_self).map fun _ _ heq => (Prod.mk.inj heq).2
      · intro p hp hp'
        obtain ⟨e, -, rfl⟩ := List.mem_map.mp hp
        obtain ⟨a, ha, heq⟩ := List.mem_map.mp hp'
        obtain ⟨t, ht, ha⟩ := List.mem_flatMap.mp ha
        obtain ⟨e', -, rfl⟩ := List.mem_map.mp ha
        apply hfresh
        have : t.1 = s.1 := (Prod.mk.inj heq).1
        rw [← this]
        exact List.mem_map_of_mem ht

theorem Iteration.Of.nodup_assigned (h : it.Of m) : (it.assigned.map Prod.fst).Nodup :=
  SimpleIni.nodup_assigned h.nodup_sections h.nodup_entries

/-- The entries of an object are those of its iteration. -/
theorem Iteration.Of.get_eq (h : it.Of m) (s k : Bytes) :
    m.get s k = lastValue (s, k) it.assigned := by
  cases hm : m.get s k with
  | some v => exact (lastValue_of_mem h.nodup_assigned ((h.mem_assigned_iff s k v).mpr hm)).symm
  | none =>
      rw [eq_comm, lastValue_eq_none_iff]
      rintro ⟨p, v⟩ ha rfl
      rw [h.mem_assigned_iff, hm] at ha
      cases ha

end

end CoreLooper.SimpleIni
