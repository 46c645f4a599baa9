import CoreLooper.IniRoundTrip

/-!
# Lines of a text

`TextSeparator::GetNext` with a line feed as delimiter and `eTextFlag_TrimTail`, as the readers
of text protocols call it. `StringTool::Trim` leaves a text of nothing else as it is: a blank
line that is ended by `\r\n` comes out as `\r`.
-/
namespace CoreLooper

open CStrings
open Ini (trim trim_clean)

namespace TextSeparator

/-- `GetNext` with `eTextFlag_TrimTail`. -/
def getNextTrimTail (t : TextSeparator) : Option Bytes × TextSeparator :=
  ((t.getNext.1).map (trim · 13), t.getNext.2)

/-- The lines in turn, until `getNextTrimTail` fails. -/
def linesLoop : ℕ → TextSeparator → List Bytes
  | 0, _ => []
  | fuel + 1, t =>
      match t.getNextTrimTail.1 with
      | none => []
      | some sz => sz :: linesLoop fuel t.getNextTrimTail.2

/-- The separator reads the text as a C string. -/
def lines (text : Bytes) : List Bytes := linesLoop (text.length + 2) ⟨some (cstr text), [10]⟩

variable {d : UInt8} {ds : Bytes}

theorem linesLoop_eq (fuel : ℕ) (t : TextSeparator) :
    linesLoop fuel t = (itemsLoop fuel t).map (trim · 13) := by
  induction fuel generalizing t with
  | zero => rfl
  | succ fuel ih =>
      unfold linesLoop itemsLoop getNextTrimTail
      rcases t.getNext with ⟨sz, t'⟩
      cases sz with
      | none => rfl
      | some sz =>
          simp only [Option.map_some, List.map_cons]
          rw [ih]

/-- Ended items come first, then those of the rest. -/
theorem itemsLoop_append {items : List Bytes} (hd : ∀ l ∈ items, d ∉ l) (rest : Bytes)
    (fuel : ℕ) :
    itemsLoop (items.length + fuel) ⟨some (items.flatMap (· ++ d :: ds) ++ rest), d :: ds⟩ =
      items ++ itemsLoop fuel ⟨some rest, d :: ds⟩ := by
  induction items with
  | nil => simp
  | cons l items ih =>
      have hl := hd l List.mem_cons_self
      have hfuel : (l :: items).length + fuel = items.length + fuel + 1 := by
        rw [List.length_cons]
        omega
      rw [hfuel, List.flatMap_cons, List.append_assoc, itemsLoop_cons hl,
        ih fun m hm => hd m (List.mem_cons_of_mem l hm)]
      rfl

/-- The rest is an item unless it is empty. -/
theorem itemsLoop_rest {rest : Bytes} (hd : d ∉ rest) (fuel : ℕ) :
    itemsLoop (fuel + 1) ⟨some rest, d :: ds⟩ = if rest = [] then [] else [rest] := by
  split_ifs with hrest
  · subst hrest
    simp [itemsLoop, getNext, strstr, List.isPrefixOf]
  · exact itemsLoop_last hrest hd fuel

theorem exists_starts {s : Bytes} (hd : d ∈ s) : ∃ j, j < s.length ∧ [d] <+: s.drop j := by
  obtain ⟨j, hj, hget⟩ := List.mem_iff_getElem.mp hd
  refine ⟨j, hj, ?_⟩
  rw [List.drop_eq_getElem_cons hj, hget]
  exact ⟨_, rfl⟩

theorem not_mem_of_strstr_none {s : Bytes} (h : strstr s [d] = none) : d ∉ s := by
  intro hd
  obtain ⟨j, -, hj⟩ := exists_starts hd
  have := strstr_isSome hj
  rw [h] at this
  cases this

theorem not_mem_take_of_strstr {s : Bytes} {p : ℕ} (h : strstr s [d] = some p) :
    d ∉ s.take p := by
  intro hd
  obtain ⟨j, hj, hpre⟩ := exists_starts hd
  rw [List.length_take] at hj
  apply strstr_first h (j := j) (by omega)
  apply hpre.trans
  rw [List.drop_take]
  exact List.take_prefix _ _

/-- No item has a delimiter of one byte. -/
theorem itemsLoop_no_delimiter {text : Bytes} (fuel : ℕ) :
    ∀ l ∈ itemsLoop fuel ⟨some text, [d]⟩, d ∉ l := by
  induction fuel generalizing text with
  | zero => simp [itemsLoop]
  | succ fuel ih =>
      cases hpos : strstr text [d] with
      | none =>
          have hd := not_mem_of_strstr_none hpos
          by_cases htext : text = []
          · simp [itemsLoop, getNext, htext ▸ hpos, htext]
          · simp [itemsLoop, getNext, hpos, htext, itemsLoop_ended, hd]
      | some psz =>
          intro l hl
          simp only [itemsLoop, getNext, hpos] at hl
          rcases List.mem_cons.mp hl with rfl | hl
          · exact not_mem_take_of_strstr hpos
          · exact ih l hl

/-- No item of a C string has a null. -/
theorem itemsLoop_no_null {text delimiter : Bytes} (h : (0 : UInt8) ∉ text) (fuel : ℕ) :
    ∀ l ∈ itemsLoop fuel ⟨some text, delimiter⟩, (0 : UInt8) ∉ l := by
  induction fuel generalizing text with
  | zero => simp [itemsLoop]
  | succ fuel ih =>
      cases hpos : strstr text delimiter with
      | none =>
          by_cases htext : text = []
          · simp [itemsLoop, getNext, htext ▸ hpos, htext]
          · simp [itemsLoop, getNext, hpos, htext, itemsLoop_ended, h]
      | some psz =>
          intro l hl
          simp only [itemsLoop, getNext, hpos] at hl
          rcases List.mem_cons.mp hl with rfl | hl
          · exact fun hc => h (List.mem_of_mem_take hc)
          · exact ih (fun hc => h (List.mem_of_mem_drop hc)) l hl

end TextSeparator

theorem length_le_flatMap (ls : List Bytes) :
    ls.length ≤ (ls.flatMap (· ++ [(10 : UInt8)])).length := by
  induction ls with
  | nil => exact Nat.le_refl _
  | cons l ls ih =>
      rw [List.flatMap_cons, List.length_append, List.length_append, List.length_cons]
      simp only [List.length_singleton]
      omega

/-- Lines with a line feed behind each are found again, and trimmed. -/
theorem TextSeparator.lines_flatMap {ls : List Bytes}
    (h : ∀ l ∈ ls, (10 : UInt8) ∉ l ∧ (0 : UInt8) ∉ l) :
    lines (ls.flatMap (· ++ [10])) = ls.map (trim · 13) := by
  have hnull : (0 : UInt8) ∉ ls.flatMap (· ++ [10]) := by
    intro hmem
    obtain ⟨l, hl, hc⟩ := List.mem_flatMap.mp hmem
    rcases List.mem_append.mp hc with hc | hc
    · exact (h l hl).2 hc
    · exact absurd hc (by decide)
  have := length_le_flatMap ls
  rw [lines, linesLoop_eq, cstr_eq_self hnull,
    itemsLoop_terminated (fun l hl => (h l hl).1) (by omega)]

theorem mem_of_mem_trim {s : Bytes} {c ch : UInt8} (h : c ∈ trim s ch) : c ∈ s := by
  unfold trim at h
  split_ifs at h with hall
  · exact h
  · exact (List.dropWhile_sublist _).subset ((List.rdropWhile_prefix _ _).subset h)

theorem trim_of_ends {s : Bytes} {ch : UInt8} (h : s.head? ≠ some ch ∧ s.getLast? ≠ some ch) :
    trim s ch = s := by
  unfold trim
  split_ifs with hall
  · rfl
  · cases s with
    | nil => rfl
    | cons c s =>
        have hc : c ≠ ch := fun hc => h.1 (by rw [List.head?_cons, hc])
        rw [List.dropWhile_cons, if_neg (by simpa using hc), List.rdropWhile_eq_self_iff]
        intro hne hlast
        apply h.2
        rw [List.getLast?_eq_some_getLast hne]
        simpa using hlast

/-- What a line has in it: neither a line feed nor a carriage return. -/
abbrev Plain := { l : Bytes // (10 : UInt8) ∉ l ∧ (13 : UInt8) ∉ l }

inductive LineEnd
  | lf
  | crlf
  deriving DecidableEq

/-- What stands in a line's place between two line feeds. -/
def LineEnd.raw (e : LineEnd) (l : Bytes) : Bytes :=
  match e with
  | .lf => l
  | .crlf => l ++ [13]

/-- Lines, each with its end, and what stands behind the last end. -/
structure TextLines where
  ended : List (Plain × LineEnd)
  last : Plain

namespace TextLines

def text (t : TextLines) : Bytes :=
  (t.ended.map fun l => l.2.raw l.1).flatMap (· ++ [10]) ++ (t.last : Bytes)

/-- The lines without their ends. -/
def contents (t : TextLines) : List Bytes :=
  t.ended.map (fun l => (l.1 : Bytes)) ++ if t.last = ([] : Bytes) then [] else [(t.last : Bytes)]

end TextLines

theorem LineEnd.raw_no_lf (e : LineEnd) (l : Plain) : (10 : UInt8) ∉ e.raw l := by
  cases e with
  | lf => exact l.2.1
  | crlf =>
      rw [LineEnd.raw, List.mem_append]
      rintro (h | h)
      · exact l.2.1 h
      · revert h
        decide

/-- The carriage return is trimmed from a line that is not blank. -/
theorem trim_raw_crlf {l : Bytes} (h : (13 : UInt8) ∉ l) :
    trim (l ++ [13]) 13 = if l = [] then [13] else l := by
  split_ifs with hl
  · subst hl
    simp [trim]
  · obtain ⟨c, l, rfl⟩ := List.exists_cons_of_ne_nil hl
    have hc : c ≠ 13 := fun hc => h (hc ▸ List.mem_cons_self)
    have hclean := trim_clean h
    unfold trim at hclean ⊢
    have hmixed : ¬ ∀ b ∈ c :: l, b = 13 := fun hall => hc (hall c List.mem_cons_self)
    have hmixed' : ¬ ∀ b ∈ c :: l ++ [13], b = 13 := fun hall => hc (hall c List.mem_cons_self)
    rw [if_neg hmixed] at hclean
    rw [if_neg hmixed']
    have hleft : (c :: l).dropWhile (fun b => decide (b = 13)) = c :: l := by simp [hc]
    have hleft' : (c :: l ++ [13]).dropWhile (fun b => decide (b = 13)) = c :: l ++ [13] := by
      simp [hc]
    rw [hleft] at hclean
    rw [hleft', List.rdropWhile_concat, if_pos (by decide)]
    exact hclean

/-- What is read in place of a line. -/
def LineEnd.read (e : LineEnd) (l : Bytes) : Bytes := if e = .crlf ∧ l = [] then [13] else l

theorem LineEnd.trim_raw (e : LineEnd) (l : Plain) : trim (e.raw l) 13 = e.read l := by
  cases e with
  | lf => simp [LineEnd.raw, LineEnd.read, trim_clean l.2.2]
  | crlf => simp [LineEnd.raw, LineEnd.read, trim_raw_crlf l.2.2]

theorem LineEnd.read_eq_iff (e : LineEnd) (l : Bytes) :
    e.read l = l ↔ ¬ (e = .crlf ∧ l = []) := by
  unfold LineEnd.read
  split_ifs with h
  · simp [h]
  · simp [h]

namespace TextLines

open TextSeparator

variable {t : TextLines}

theorem ended_length (t : TextLines) : t.ended.length ≤ t.text.length := by
  have := length_le_flatMap (t.ended.map fun l => l.2.raw l.1)
  rw [List.length_map] at this
  rw [text, List.length_append]
  exact Nat.le_add_right_of_le this

/-- The lines that are read from a text without nulls. -/
theorem lines_text (h : (0 : UInt8) ∉ t.text) : lines t.text =
    t.ended.map (fun l => l.2.read l.1) ++
      if t.last = ([] : Bytes) then [] else [(t.last : Bytes)] := by
  have hlf : ∀ l ∈ t.ended.map (fun l => l.2.raw l.1), (10 : UInt8) ∉ l := by
    intro l hl
    obtain ⟨p, -, rfl⟩ := List.mem_map.mp hl
    exact p.2.raw_no_lf p.1
  obtain ⟨fuel, hfuel⟩ : ∃ fuel, t.text.length + 2 =
      (t.ended.map fun l => l.2.raw l.1).length + (fuel + 1) := by
    have := t.ended_length
    rw [List.length_map]
    exact ⟨t.text.length + 1 - t.ended.length, by omega⟩
  rw [lines, linesLoop_eq, cstr_eq_self h, hfuel, text, itemsLoop_append hlf,
    itemsLoop_rest t.last.2.1, List.map_append, List.map_map]
  congr 1
  · apply List.map_congr_left
    intro l _
    exact l.2.trim_raw l.1
  · split_ifs with hlast
    · rfl
    · rw [List.map_singleton, trim_clean t.last.2.2]

/-- What a text can hold a null in. -/
theorem mem_contents_of_null (h : (0 : UInt8) ∈ t.text) : ∃ l ∈ t.contents, (0 : UInt8) ∈ l := by
  unfold text at h
  rcases List.mem_append.mp h with h | h
  · obtain ⟨raw, hraw, h⟩ := List.mem_flatMap.mp h
    obtain ⟨l, hl, rfl⟩ := List.mem_map.mp hraw
    have hnull : (0 : UInt8) ∈ (l.1 : Bytes) := by
      rcases List.mem_append.mp h with h | h
      · cases he : l.2 with
        | lf => simpa [LineEnd.raw, he] using h
        | crlf => simpa [LineEnd.raw, he] using h
      · exact absurd h (by decide)
    exact ⟨l.1, List.mem_append_left _ (List.mem_map_of_mem hl), hnull⟩
  · refine ⟨t.last, List.mem_append_right _ ?_, h⟩
    rw [if_neg (List.ne_nil_of_mem h)]
    exact List.mem_singleton_self _

theorem lines_no_null (text : Bytes) : ∀ l ∈ lines text, (0 : UInt8) ∉ l := by
  intro l hl
  rw [lines, linesLoop_eq] at hl
  obtain ⟨raw, hraw, rfl⟩ := List.mem_map.mp hl
  intro h
  exact itemsLoop_no_null (cstr_not_mem text) _ raw hraw (mem_of_mem_trim h)

theorem lines_no_lf (text : Bytes) : ∀ l ∈ lines text, (10 : UInt8) ∉ l := by
  intro l hl
  rw [lines, linesLoop_eq] at hl
  obtain ⟨raw, hraw, rfl⟩ := List.mem_map.mp hl
  intro h
  exact itemsLoop_no_delimiter _ raw hraw (mem_of_mem_trim h)

/-- The lines are read without their ends unless the text has a null, where it ends as a C
string, or a blank line is ended by `\r\n`. -/
theorem lines_eq_contents_iff (t : TextLines) : lines t.text = t.contents ↔
    (0 : UInt8) ∉ t.text ∧ ∀ l ∈ t.ended, ¬ (l.2 = .crlf ∧ (l.1 : Bytes) = []) := by
  constructor
  · intro h
    have hnull : (0 : UInt8) ∉ t.text := by
      intro hmem
      obtain ⟨l, hl, hc⟩ := mem_contents_of_null hmem
      exact lines_no_null t.text l (h ▸ hl) hc
    refine ⟨hnull, ?_⟩
    rw [lines_text hnull, contents, List.append_left_inj] at h
    intro l hl
    rw [← LineEnd.read_eq_iff]
    exact List.map_inj_left.mp h l hl
  · rintro ⟨hnull, hblank⟩
    rw [lines_text hnull, contents, List.append_left_inj]
    apply List.map_congr_left
    intro l hl
    exact (LineEnd.read_eq_iff l.2 l.1).mpr (hblank l hl)

/-- The blank line of `"a\r\n\r\nb\r\n"` is read as `"\r"`. -/
theorem lines_blank : ∃ t : TextLines, t.text = [97, 13, 10, 13, 10, 98, 13, 10] ∧
    t.contents = [[97], [], [98]] ∧ lines t.text = [[97], [13], [98]] ∧
    lines t.text ≠ t.contents := by
  refine ⟨⟨[(⟨[97], by decide⟩, .crlf), (⟨[], by decide⟩, .crlf), (⟨[98], by decide⟩, .crlf)],
    ⟨[], by decide⟩⟩, by decide, by decide, ?_⟩
  rw [lines_text (by decide)]
  decide

end TextLines
end CoreLooper
