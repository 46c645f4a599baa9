import CoreLooper.HttpFormRuns

/-!
# A form and its parts

A form is a list of parts, each with a header of several lines and some content, and a closing
line. In whatever pieces it arrives, the handler has in the end one field for each part.
-/
namespace CoreLooper.Http
open CStrings

/-- What a line of a header adds to it. -/
def nextLine (line : Bytes) : Bytes := [13, 10] ++ line

/-- A line that is not empty does not end the header. -/
theorem nextLine_no_end {line x : Bytes} (hne : line ≠ []) (hline : 13 ∉ line) :
    ∀ j < ([13, 10] : Bytes).length, ¬ CRLF2 <+: ([13, 10] ++ (line ++ x)).drop j := by
  intro j hj hp
  match line, hne with
  | c :: line, _ =>
      have hc : (13 : UInt8) ≠ c := fun h => hline (by rw [h]; exact List.mem_cons_self)
      match j, hj with
      | 0, _ => simp [CRLF2, hc] at hp
      | 1, _ => simp [CRLF2] at hp

/-- The first empty line is found behind the lines in front of it. -/
theorem strstr_lines {first : Bytes} (hfirst : 13 ∉ first) {lines : List Bytes}
    (hlines : ∀ line ∈ lines, line ≠ [] ∧ 13 ∉ line) (x : Bytes) :
    strstr (first ++ lines.flatMap nextLine ++ CRLF2 ++ x) CRLF2 =
      some (first ++ lines.flatMap nextLine).length := by
  induction lines generalizing first with
  | nil =>
      rw [List.flatMap_nil, List.append_nil, List.append_assoc, CRLF2, strstr_skip hfirst,
        strstr_here (List.prefix_append _ _), Option.map_some, Nat.add_zero]
  | cons line lines ih =>
      obtain ⟨hne, hline⟩ := hlines line List.mem_cons_self
      have hrest := ih hline fun l hl => hlines l (List.mem_cons_of_mem _ hl)
      have hjoin : first ++ (line :: lines).flatMap nextLine ++ CRLF2 ++ x =
          first ++ ([13, 10] ++ (line ++ lines.flatMap nextLine ++ CRLF2 ++ x)) := by
        simp only [List.flatMap_cons, nextLine, List.append_assoc]
      have hpass : strstr ([13, 10] ++ (line ++ lines.flatMap nextLine ++ CRLF2 ++ x)) CRLF2 =
          some (([13, 10] : Bytes).length + (line ++ lines.flatMap nextLine).length) := by
        rw [strstr_pass, hrest, Option.map_some]
        rw [List.append_assoc, List.append_assoc]
        exact nextLine_no_end hne hline
      rw [hjoin]
      rw [CRLF2] at hpass ⊢
      rw [strstr_skip hfirst, hpass, Option.map_some, ← List.length_append, ← List.length_append,
        List.flatMap_cons, nextLine, List.append_assoc]

/-- A part of a form: what follows the name on its line, and the further lines of the header. -/
structure FormPart where
  name : Bytes
  attrs : Bytes
  lines : List Bytes
  content : Bytes
  name_clean : 0 ∉ name ∧ 13 ∉ name ∧ 34 ∉ name
  attrs_clean : 0 ∉ attrs ∧ 13 ∉ attrs
  lines_clean : ∀ line ∈ lines, line ≠ [] ∧ 0 ∉ line ∧ 13 ∉ line

namespace FormPart

variable (b : Bytes) (p : FormPart)

def disposition : Bytes :=
  ascii "Content-Disposition: form-data; name=\"" ++ p.name ++ ascii "\"" ++ p.attrs

def header : Bytes :=
  ascii "--" ++ b ++ (p.disposition :: p.lines).flatMap nextLine

def text : Bytes := p.header b ++ CRLF2 ++ p.content ++ [13, 10]

/-- The field that the handler has in the end. -/
def Received (f : HttpFormField) : Prop :=
  f.mFieldName = p.name ∧ f.mDataBox.bytes = p.content ∧ f.mDataReady = true

variable {b p} {pre : Bytes}

theorem disposition_clean : p.disposition ≠ [] ∧ 0 ∉ p.disposition ∧ 13 ∉ p.disposition := by
  have hfixed : ascii "Content-Disposition: form-data; name=\"" ≠ [] ∧
      0 ∉ ascii "Content-Disposition: form-data; name=\"" ++ ascii "\"" ∧
      13 ∉ ascii "Content-Disposition: form-data; name=\"" ++ ascii "\"" := by decide
  simp only [List.mem_append, not_or] at hfixed
  simp only [disposition, List.mem_append, not_or]
  exact ⟨by simp [hfixed.1], ⟨⟨⟨hfixed.2.1.1, p.name_clean.1⟩, hfixed.2.1.2⟩, p.attrs_clean.1⟩,
    ⟨⟨hfixed.2.2.1, p.name_clean.2.1⟩, hfixed.2.2.2⟩, p.attrs_clean.2⟩

/-- The lines behind the one of the boundary. -/
theorem later_clean :
    ∀ line ∈ p.disposition :: p.lines, line ≠ [] ∧ 0 ∉ line ∧ 13 ∉ line := by
  intro line hline
  rcases List.mem_cons.mp hline with rfl | hmem
  · exact disposition_clean
  · exact p.lines_clean line hmem

theorem dashes_clean (hb : 0 ∉ b ∧ 13 ∉ b ∧ 34 ∉ b) :
    ascii "--" ++ b ≠ [] ∧ 0 ∉ ascii "--" ++ b ∧ 13 ∉ ascii "--" ++ b := by
  have hfixed : ascii "--" ≠ [] ∧ 0 ∉ ascii "--" ∧ 13 ∉ ascii "--" := by decide
  simp only [List.mem_append, not_or]
  exact ⟨by simp [hfixed.1], ⟨hfixed.2.1, hb.1⟩, hfixed.2.2, hb.2.1⟩

/-- The header ends where its first empty line is, also behind the `\r\n` of a part before. -/
theorem header_end (hb : 0 ∉ b ∧ 13 ∉ b ∧ 34 ∉ b) (hpre : pre = [] ∨ pre = [13, 10]) (x : Bytes) :
    strstr (pre ++ p.header b ++ CRLF2 ++ x) CRLF2 = some (pre ++ p.header b).length := by
  have hlater : ∀ line ∈ p.disposition :: p.lines, line ≠ [] ∧ 13 ∉ line := fun line hline =>
    ⟨(later_clean line hline).1, (later_clean line hline).2.2⟩
  rcases hpre with rfl | rfl
  · exact strstr_lines (dashes_clean hb).2.2 hlater x
  · have hall : ∀ line ∈ (ascii "--" ++ b) :: p.disposition :: p.lines, line ≠ [] ∧ 13 ∉ line := by
      intro line hline
      rcases List.mem_cons.mp hline with rfl | hmem
      · exact ⟨(dashes_clean hb).1, (dashes_clean hb).2.2⟩
      · exact hlater line hmem
    have hlines := @strstr_lines [] (by simp) _ hall x
    rw [List.flatMap_cons, List.nil_append, nextLine, List.append_assoc [13, 10]] at hlines
    exact hlines

theorem header_no_null (hb : 0 ∉ b ∧ 13 ∉ b ∧ 34 ∉ b) (hpre : pre = [] ∨ pre = [13, 10]) :
    0 ∉ pre ++ p.header b ++ CRLF2 := by
  have hcrlf : (0 : UInt8) ∉ pre ∧ (0 : UInt8) ∉ CRLF2 := by
    rcases hpre with rfl | rfl <;> decide
  have hlines : (0 : UInt8) ∉ (p.disposition :: p.lines).flatMap nextLine := by
    rw [List.mem_flatMap]
    rintro ⟨line, hline, hmem⟩
    have hnull := (later_clean line hline).2.1
    simp only [nextLine, List.mem_append] at hmem
    exact hmem.elim (by decide) hnull
  rw [header, List.mem_append, List.mem_append, List.mem_append, not_or, not_or, not_or]
  exact ⟨⟨hcrlf.1, (dashes_clean hb).2.1, hlines⟩, hcrlf.2⟩

/-- The name of the field is read from the header. -/
theorem mid_name (hb : 0 ∉ b ∧ 13 ∉ b ∧ 34 ∉ b) (hpre : pre = [] ∨ pre = [13, 10]) :
    mid (pre ++ p.header b) (ascii "name=\"") (ascii "\"") = p.name := by
  obtain ⟨front, hfront⟩ : ∃ front, front = pre ++ ascii "--" ++ b ++ [13, 10] ++
      ascii "Content-Disposition: form-data; " := ⟨_, rfl⟩
  obtain ⟨back, hback⟩ : ∃ back, back = p.attrs ++ p.lines.flatMap nextLine := ⟨_, rfl⟩
  have hsplit : pre ++ p.header b = front ++ (ascii "name=\"" ++ (p.name ++ 34 :: back)) := by
    have hwords : ascii "Content-Disposition: form-data; name=\"" =
        ascii "Content-Disposition: form-data; " ++ ascii "name=\"" := by decide
    have hquote : ascii "\"" = [34] := by decide
    rw [hfront, hback, header, List.flatMap_cons, nextLine, disposition, hwords, hquote]
    simp only [List.append_assoc, List.cons_append, List.nil_append]
  have hquote : (34 : UInt8) ∉ front := by
    have hfixed : (34 : UInt8) ∉ ascii "--" ∧
        (34 : UInt8) ∉ ascii "Content-Disposition: form-data; " := by decide
    have hcr : (34 : UInt8) ∉ pre := by rcases hpre with rfl | rfl <;> decide
    rw [hfront]
    simp [hfixed, hcr, hb.2.2]
  have hneedle : ascii "name=\"" = 110 :: [97, 109, 101, 61, 34] := by decide
  have hfirst : strstr (pre ++ p.header b) (ascii "name=\"") = some front.length := by
    rw [hsplit, hneedle]
    apply strstr_after _ (by decide)
    exact fun hin => hquote (hin.subset (by decide))
  have hname : strstr (p.name ++ 34 :: back) (ascii "\"") = some p.name.length := by
    have hq : ascii "\"" = [34] := by decide
    rw [hq, strstr_skip p.name_clean.2.2, strstr_here (by simp)]
    rfl
  have hdrop : (pre ++ p.header b).drop (front.length + (ascii "name=\"").length) =
      p.name ++ 34 :: back := by
    rw [hsplit, ← List.drop_drop, List.drop_left, List.drop_left]
  simp only [mid, hfirst, hdrop, hname, List.take_left]

/-- The handler reads the header and waits for the content. -/
theorem header_found (hb : 0 ∉ b ∧ 13 ∉ b ∧ 34 ∉ b) (hpre : pre = [] ∨ pre = [13, 10])
    (h : HttpPostHandler) (x : Bytes) : ∃ rangeStart,
      h.waitFormDataHeader (pre ++ p.header b ++ CRLF2 ++ x) =
        .next x (h.receiving (.initField h.boundary p.name rangeStart)) := by
  have hcstr := cstr_append (header_no_null (p := p) hb hpre) x
  have htake : (pre ++ p.header b ++ CRLF2 ++ cstr x).take (pre ++ p.header b).length =
      pre ++ p.header b := by
    rw [List.append_assoc, List.take_left]
  have hdrop : (pre ++ p.header b ++ CRLF2 ++ x).drop ((pre ++ p.header b).length + 4) = x := by
    rw [← List.drop_drop, List.append_assoc, List.drop_left]
    rfl
  refine ⟨max 0 (atoi (mid (pre ++ p.header b) (ascii "\r\nrange: ") (ascii "-"))), ?_⟩
  rw [HttpPostHandler.waitFormDataHeader, hcstr, header_end hb hpre]
  simp only [htake, hdrop, mid_name hb hpre]
  rfl

/-- While a header is not complete, nothing is taken for its end. -/
theorem header_missing (hb : 0 ∉ b ∧ 13 ∉ b ∧ 34 ∉ b) (hpre : pre = [] ∨ pre = [13, 10])
    {data x : Bytes} (hdata : data <+: pre ++ p.header b ++ CRLF2 ++ x)
    (hshort : data.length < (pre ++ p.header b ++ CRLF2).length) :
    cstr data = data ∧ strstr data CRLF2 = none := by
  obtain ⟨y, hy⟩ := List.prefix_of_prefix_length_le hdata (List.prefix_append _ _)
    (Nat.le_of_lt hshort)
  constructor
  · apply cstr_eq_self
    intro hnull
    exact header_no_null hb hpre (by rw [← hy]; exact List.mem_append_left _ hnull)
  · match hfind : strstr data CRLF2 with
    | none => rfl
    | some i =>
        have hlen := strstr_add_length_le hfind
        have hall := strstr_append hfind y
        rw [hy, ← List.append_nil (pre ++ p.header b ++ CRLF2), header_end hb hpre] at hall
        have hi := Option.some.inj hall
        rw [List.length_append] at hshort
        omega

end FormPart

def closing (b : Bytes) : Bytes := ascii "--" ++ b ++ ascii "--\r\n"

def form (b : Bytes) (parts : List FormPart) : Bytes := parts.flatMap (·.text b) ++ closing b

/-- After the last part the delimiter is followed by the end of the closing line. -/
theorem form_delimiter (b : Bytes) (parts : List FormPart) :
    ∃ rest, rest ≠ [] ∧ [13, 10] ++ form b parts = delimiter b ++ rest := by
  have hdashes : ascii "--" = [45, 45] := by decide
  match parts with
  | [] =>
      refine ⟨ascii "--\r\n", by decide, ?_⟩
      rw [form, closing, delimiter, hdashes]
      simp
  | p :: parts =>
      refine ⟨(p.disposition :: p.lines).flatMap nextLine ++ CRLF2 ++ p.content ++ [13, 10] ++
        form b parts, by simp [CRLF2], ?_⟩
      rw [form, List.flatMap_cons, FormPart.text, FormPart.header, delimiter, hdashes, form]
      simp only [List.append_assoc, List.cons_append, List.nil_append]

def closingKey (b : Bytes) : Bytes := ascii "\r\n--" ++ b ++ ascii "--\r\n"

section
variable {b data : Bytes} {p : FormPart} {pre : Bytes}

theorem closingKey_eq (b : Bytes) : closingKey b = [13, 10] ++ closing b := by
  have hstart : ascii "\r\n--" = [13, 10] ++ ascii "--" := by decide
  rw [closingKey, closing, hstart]
  simp only [List.append_assoc]

theorem closingKey_no_null (hb : 0 ∉ b) : 0 ∉ closingKey b := by
  have hfixed : (0 : UInt8) ∉ ascii "\r\n--" ∧ (0 : UInt8) ∉ ascii "--\r\n" := by decide
  simp [closingKey, hfixed, hb]

theorem strncmpEq_iff {key : Bytes} (hkey : 0 ∉ key) (hdata : 0 ∉ data) :
    strncmpEq data key key.length = true ↔ key <+: data := by
  rw [strncmpEq, cstr_eq_self hkey, cstr_eq_self hdata, List.take_length, decide_eq_true_eq,
    List.prefix_iff_eq_take]
  exact eq_comm

/-- The closing line has no empty line in it. -/
theorem closingKey_no_end (hb : 13 ∉ b) (hdata : data <+: closingKey b) :
    strstr data CRLF2 = none := by
  match hfind : strstr data CRLF2 with
  | none => rfl
  | some i =>
      exfalso
      obtain ⟨y, hy⟩ := hdata
      have hline : ∀ line ∈ [ascii "--" ++ b ++ ascii "--"], line ≠ [] ∧ 13 ∉ line := by
        have hfixed : ascii "--" ≠ [] ∧ 13 ∉ ascii "--" := by decide
        intro line hmem
        rw [List.mem_singleton.mp hmem]
        simp [hfixed, hb]
      have hend := @strstr_lines [] (by simp) _ hline []
      have hwords : ascii "--\r\n" = ascii "--" ++ [13, 10] := by decide
      have hjoin : closingKey b ++ [13, 10] =
          [] ++ [ascii "--" ++ b ++ ascii "--"].flatMap nextLine ++ CRLF2 ++ [] := by
        rw [closingKey_eq, closing, hwords, List.flatMap_singleton, nextLine, CRLF2]
        simp only [List.append_assoc, List.cons_append, List.nil_append]
      have hshort := strstr_add_length_le hfind
      have hlen := congrArg List.length hjoin
      have hkey := congrArg List.length hy
      have hlast := strstr_append hfind (y ++ [13, 10])
      rw [← List.append_assoc, hy, hjoin, hend] at hlast
      have hi := Option.some.inj hlast
      have hcrlf : CRLF2.length = 4 := rfl
      simp only [List.length_append, List.length_cons, List.length_nil, hcrlf] at *
      omega

/-- The header of a part is not the closing line. -/
theorem closingKey_not_header (hpre : pre = [] ∨ pre = [13, 10]) (x : Bytes)
    (hdata : data <+: pre ++ p.header b ++ x) : ¬ closingKey b <+: data := by
  intro hkey
  have hwhole := hkey.trans hdata
  have hdashes : ascii "--" = [45, 45] := by decide
  have hend : ascii "--\r\n" = [45, 45, 13, 10] := by decide
  rw [closingKey_eq, closing, FormPart.header, List.flatMap_cons, nextLine, hdashes, hend]
    at hwhole
  rcases hpre with rfl | rfl
  · simp at hwhole
  · simp only [List.append_assoc, List.prefix_append_right_inj] at hwhole
    simp at hwhole

end

namespace HttpPostHandler

variable {b data pre : Bytes} {h : HttpPostHandler} {p : FormPart}

/-- The rounds over some data end in a handler that has what the whole data says, when it is the
whole data; before that it is not done. -/
def Follows (h : HttpPostHandler) (parts : List FormPart) (whole data : Bytes) : Prop :=
  ∃ inbox' h', Runs data h 0 inbox' h' ∧ (h'.mState = .Done → data = whole) ∧
    (data = whole → inbox' = [] ∧ ∃ fields,
      h' = { h with mState := .Done, mFields := h.mFields ++ fields } ∧
        List.Forall₂ FormPart.Received parts fields)

theorem follows_closing (hb : 0 ∉ b ∧ 13 ∉ b ∧ 34 ∉ b) (hboundary : h.boundary = b)
    (hstate : h.mState = .WaitFormDataHeader) (hdata : data <+: closingKey b) :
    h.Follows [] (closingKey b) data := by
  have hnull : 0 ∉ data := fun hmem => closingKey_no_null hb.1 (hdata.subset hmem)
  by_cases hempty : data = []
  · refine ⟨[], h, .ret ?_, ?_, ?_⟩
    · rw [hempty, round, if_pos rfl]
    · rw [hstate]
      exact fun hdone => absurd hdone (by decide)
    · intro hkey
      rw [hempty, closingKey_eq] at hkey
      simp at hkey
  · have hkey : ascii "\r\n--" ++ h.boundary ++ ascii "--\r\n" = closingKey b := by
      rw [hboundary, closingKey]
    have hround := header_round h data hempty hstate
    rw [waitFormDataHeader, cstr_eq_self hnull, closingKey_no_end hb.2.1 hdata] at hround
    simp only [hkey, strncmpEq_iff (closingKey_no_null hb.1) hnull] at hround
    by_cases hall : data = closingKey b
    · have hhead : data.head? = some 13 ∧ closingKey b <+: data := by
        rw [hall, closingKey_eq]
        exact ⟨rfl, List.prefix_refl _⟩
      rw [if_pos hhead] at hround
      refine ⟨_, _, .ret hround, fun _ => hall, fun _ => ⟨?_, [], ?_, .nil⟩⟩
      · rw [hall, List.drop_length]
      · rw [List.append_nil]
    · have hnot : ¬ (data.head? = some 13 ∧ closingKey b <+: data) := fun hhead =>
        hall (hdata.eq_of_length_le hhead.2.length_le)
      rw [if_neg hnot] at hround
      refine ⟨data, h, .ret hround, ?_, fun hkey => absurd hkey hall⟩
      rw [hstate]
      exact fun hdone => absurd hdone (by decide)

/-- Without the whole header of a part the handler waits. -/
theorem round_missing (hb : 0 ∉ b ∧ 13 ∉ b ∧ 34 ∉ b) (hpre : pre = [] ∨ pre = [13, 10])
    (hboundary : h.boundary = b) (hstate : h.mState = .WaitFormDataHeader) {x : Bytes}
    (hdata : data <+: pre ++ p.header b ++ CRLF2 ++ x)
    (hshort : data.length < (pre ++ p.header b ++ CRLF2).length) :
    h.round data = .ret 0 data h := by
  obtain ⟨hcstr, hnone⟩ := FormPart.header_missing hb hpre hdata hshort
  have hnull : 0 ∉ data := by
    rw [← hcstr]
    exact cstr_not_mem data
  by_cases hempty : data = []
  · rw [hempty, round, if_pos rfl]
  · have hkey : ascii "\r\n--" ++ h.boundary ++ ascii "--\r\n" = closingKey b := by
      rw [hboundary, closingKey]
    have hnot : ¬ closingKey b <+: data := by
      apply closingKey_not_header (p := p) hpre (CRLF2 ++ x)
      rw [← List.append_assoc]
      exact hdata
    rw [header_round h data hempty hstate, waitFormDataHeader, hcstr, hnone]
    simp only [hkey, strncmpEq_iff (closingKey_no_null hb.1) hnull, hnot, and_false, if_false]

/-- The content of a part, and what is behind it. -/
theorem follows_content {parts : List FormPart} {f : HttpFormField}
    (hboundary : f.mBoundary = b) (hname : f.mFieldName = p.name) (hbox : f.mDataBox = .clear)
    (hb : 13 ∉ b) (hfree : ¬ delimiter b <:+: p.content)
    (hsize : p.content.length ≤ ByteBuffer.defaultMaxSize)
    (hdata : data <+: p.content ++ ([13, 10] ++ form b parts))
    (hlater : ∀ later g, later <+: [13, 10] ++ form b parts → p.Received g →
      Follows { h with mState := .WaitFormDataHeader, mCurrentField := none,
                       mFields := h.mFields ++ [g] } parts ([13, 10] ++ form b parts) later) :
    ∃ inbox' h', Runs data (h.receiving f) 0 inbox' h' ∧
      (h'.mState = .Done → data = p.content ++ ([13, 10] ++ form b parts)) ∧
      (data = p.content ++ ([13, 10] ++ form b parts) → inbox' = [] ∧ ∃ fields,
        h' = { h with mState := .Done, mCurrentField := none, mFields := h.mFields ++ fields } ∧
          List.Forall₂ FormPart.Received (p :: parts) fields) := by
  obtain ⟨rest, hrest, hform⟩ := form_delimiter b parts
  have hfirst := first_delimiter hb hfree rest
  obtain ⟨s, hs⟩ : ∃ s, s = p.content ++ ([13, 10] ++ form b parts) := ⟨_, rfl⟩
  have hsplit : s = p.content ++ delimiter b ++ rest := by rw [hs, hform, List.append_assoc]
  rw [← hsplit, ← hboundary] at hfirst
  rw [← hs] at hdata ⊢
  have hfilled : f.filled [] = f := by
    rw [HttpFormField.filled, HttpFormField.write_nil, ← hbox]
  have hlen : s.length = p.content.length + (delimiter b).length + rest.length := by
    rw [hsplit, List.length_append, List.length_append]
  have hpos := List.length_pos_of_ne_nil hrest
  have hle := hdata.length_le
  have htake : s.take data.length = data := (List.prefix_iff_eq_take.mp hdata).symm
  by_cases hshort : data.length ≤ p.content.length + (delimiter b).length
  · have hround := round_waiting (h := h) hfirst hsize (Nat.zero_le data.length) hle
      (by rw [hboundary]; exact hshort)
    rw [Nat.zero_sub, List.take_zero, hfilled, htake, List.drop_zero] at hround
    refine ⟨_, _, .ret hround, fun hdone => ?_, fun hall => ?_⟩
    · simp [receiving] at hdone
    · rw [hall] at hshort
      omega
  · have hround := round_received (h := h) hfirst hsize (Nat.zero_le data.length) hle
      (Nat.zero_le _) (by rw [hboundary]; omega)
    have hcontent : s.take p.content.length = p.content := by rw [hs, List.take_left]
    rw [Nat.zero_sub, List.take_zero, hfilled, htake, List.drop_zero, hcontent] at hround
    have hreceived : p.Received { f.filled p.content with mDataReady := true } :=
      ⟨hname, HttpFormField.filled_bytes (f := f) hsize, rfl⟩
    have hdropped : data.drop p.content.length <+: [13, 10] ++ form b parts := by
      have hd := hdata.drop p.content.length
      rw [hs, List.drop_left] at hd
      exact hd
    obtain ⟨inbox', h', hrun, hdone, hend⟩ := hlater _ _ hdropped hreceived
    have hstart : data = p.content ++ data.drop p.content.length := by
      conv_lhs => rw [← List.take_append_drop p.content.length data]
      rw [← htake, List.take_take, Nat.min_eq_left (by omega), hcontent]
    refine ⟨inbox', h', .next hround hrun, fun hstate => ?_, fun hall => ?_⟩
    · rw [hstart, hdone hstate, hs]
    · rw [hall, hs, List.drop_left] at hend
      obtain ⟨hempty, fields, hh', hfields⟩ := hend rfl
      refine ⟨hempty, { f.filled p.content with mDataReady := true } :: fields, ?_,
        .cons hreceived hfields⟩
      rw [hh']
      simp only [List.append_assoc, List.cons_append, List.nil_append]

/-- A form, which a `\r\n` may precede, and any data it begins with. -/
theorem follows_form {parts : List FormPart} (hb : 0 ∉ b ∧ 13 ∉ b ∧ 34 ∉ b)
    (hparts : ∀ p ∈ parts, ¬ delimiter b <:+: p.content ∧
      p.content.length ≤ ByteBuffer.defaultMaxSize)
    (hpre : pre = [] ∧ parts ≠ [] ∨ pre = [13, 10]) (hboundary : h.boundary = b)
    (hstate : h.mState = .WaitFormDataHeader) (hfield : h.mCurrentField = none)
    (hdata : data <+: pre ++ form b parts) : h.Follows parts (pre ++ form b parts) data := by
  induction parts generalizing h pre data with
  | nil =>
      have hcrlf : pre = [13, 10] := hpre.resolve_left fun hnil => hnil.2 rfl
      rw [hcrlf, form, List.flatMap_nil, List.nil_append, ← closingKey_eq] at hdata ⊢
      exact follows_closing hb hboundary hstate hdata
  | cons p parts ih =>
      have hpre' : pre = [] ∨ pre = [13, 10] := hpre.imp_left And.left
      have hwhole : pre ++ form b (p :: parts) =
          pre ++ p.header b ++ CRLF2 ++ (p.content ++ ([13, 10] ++ form b parts)) := by
        rw [form, form, List.flatMap_cons, FormPart.text]
        simp only [List.append_assoc]
      rw [hwhole] at hdata ⊢
      by_cases hshort : data.length < (pre ++ p.header b ++ CRLF2).length
      · refine ⟨data, h, .ret (round_missing hb hpre' hboundary hstate hdata hshort), ?_, ?_⟩
        · rw [hstate]
          exact fun hdone => absurd hdone (by decide)
        · intro hall
          rw [hall, List.length_append] at hshort
          omega
      · -- the header is there, and the rest is content and what is behind it
        obtain ⟨x, hx⟩ := List.prefix_of_prefix_length_le (List.prefix_append _ _) hdata
          (Nat.le_of_not_lt hshort)
        rw [← hx, List.prefix_append_right_inj] at hdata
        obtain ⟨rangeStart, hround⟩ := FormPart.header_found (p := p) hb hpre' h x
        have hne : data ≠ [] := by
          rw [← hx]
          simp [CRLF2]
        have hnext := header_round h data hne hstate
        rw [← hx, hround] at hnext
        rw [← hx]
        obtain ⟨hfree, hsize⟩ := hparts p List.mem_cons_self
        obtain ⟨inbox', h', hrun, hdone, hend⟩ := follows_content (h := h) (p := p)
          (f := .initField h.boundary p.name rangeStart) hboundary rfl rfl hb.2.1 hfree hsize hdata
          fun later g hlater _ => ih (fun q hq => hparts q (List.mem_cons_of_mem _ hq)) (.inr rfl)
            hboundary rfl rfl hlater
        refine ⟨inbox', h', .next hnext hrun, fun hstate' => by rw [hdone hstate'], fun hall => ?_⟩
        obtain ⟨hempty, fields, hh', hfields⟩ := hend (List.append_cancel_left hall)
        refine ⟨hempty, fields, ?_, hfields⟩
        rw [hh', ← hfield]

/-- Some of a form has arrived, and the rest comes in chunks. -/
theorem inputs_follow {parts : List FormPart} (hb : 0 ∉ b ∧ 13 ∉ b ∧ 34 ∉ b)
    (hparts : ∀ p ∈ parts, ¬ delimiter b <:+: p.content ∧
      p.content.length ≤ ByteBuffer.defaultMaxSize)
    (hne : parts ≠ []) (hboundary : h.boundary = b)
    (hstate : h.mState = .WaitFormDataHeader) (hfield : h.mCurrentField = none)
    (chunks : List Bytes) {seen inbox : Bytes} {h' : HttpPostHandler}
    (hchunks : seen ++ chunks.flatten = form b parts) (hrun : Runs seen h 0 inbox h')
    (hdone : h'.mState = .Done → seen = form b parts)
    (hend : seen = form b parts → inbox = [] ∧ ∃ fields,
      h' = { h with mState := .Done, mFields := h.mFields ++ fields } ∧
        List.Forall₂ FormPart.Received parts fields) :
    ∃ rets fields, inputs chunks inbox h' =
        some (rets, [], { h with mState := .Done, mFields := h.mFields ++ fields }) ∧
      List.Forall₂ FormPart.Received parts fields ∧
      (∀ ret ∈ rets, ret ≠ 400) ∧ ((∀ c ∈ chunks, c ≠ []) → ∀ ret ∈ rets, ret = 0) := by
  induction chunks generalizing seen inbox h' with
  | nil =>
      rw [List.flatten_nil, List.append_nil] at hchunks
      obtain ⟨hempty, fields, hh', hfields⟩ := hend hchunks
      exact ⟨[], fields, by rw [inputs, hempty, hh'], hfields, by simp, by simp⟩
  | cons c chunks ih =>
      rw [List.flatten_cons, ← List.append_assoc] at hchunks
      by_cases hdone' : h'.mState = .Done
      · -- all has been read, and an empty chunk changes nothing
        have hwhole := hdone hdone'
        have hnil : c = [] ∧ chunks.flatten = [] := by
          rw [hwhole, List.append_assoc, List.append_right_eq_self] at hchunks
          exact List.append_eq_nil_iff.mp hchunks
        have hinput : h'.input (inbox ++ c) = some (-1, inbox, h') := by
          rw [input, if_pos hdone', hnil.1, List.append_nil]
        rw [hnil.1, List.append_nil] at hchunks
        obtain ⟨rets, fields, hinputs, hfields, hrets, -⟩ := ih hchunks hrun hdone hend
        refine ⟨-1 :: rets, fields, ?_, hfields, ?_, fun hchunk => ?_⟩
        · rw [inputs, hinput]
          simp only [hinputs, Option.map_some]
        · intro ret hret
          rcases List.mem_cons.mp hret with rfl | hmem
          · decide
          · exact hrets ret hmem
        · exact absurd hnil.1 (hchunk c List.mem_cons_self)
      · have hstart : seen ++ c <+: [] ++ form b parts := ⟨chunks.flatten, hchunks⟩
        obtain ⟨inbox₂, h₂, hrun₂, hdone₂, hend₂⟩ :=
          follows_form hb hparts (.inl ⟨rfl, hne⟩) hboundary hstate hfield hstart
        have hinput := (hrun.resume hdone' hrun₂).input_eq hdone'
        obtain ⟨rets, fields, hinputs, hfields, hrets, hzero⟩ := ih hchunks hrun₂ hdone₂ hend₂
        refine ⟨0 :: rets, fields, ?_, hfields, ?_, fun hchunk => ?_⟩
        · rw [inputs, hinput]
          simp only [hinputs, Option.map_some]
        · intro ret hret
          rcases List.mem_cons.mp hret with rfl | hmem
          · decide
          · exact hrets ret hmem
        · intro ret hret
          rcases List.mem_cons.mp hret with rfl | hmem
          · rfl
          · exact hzero (fun d hd => hchunk d (List.mem_cons_of_mem _ hd)) ret hmem

/-- However a form arrives, the handler has a field for each part in the end. -/
theorem inputs_form {parts : List FormPart} (hb : 0 ∉ b ∧ 13 ∉ b ∧ 34 ∉ b)
    (hparts : ∀ p ∈ parts, ¬ delimiter b <:+: p.content ∧
      p.content.length ≤ ByteBuffer.defaultMaxSize)
    (hne : parts ≠ []) (hboundary : h.boundary = b)
    (hstate : h.mState = .WaitFormDataHeader) (hfield : h.mCurrentField = none)
    {chunks : List Bytes} (hchunks : chunks.flatten = form b parts) :
    ∃ rets fields, inputs chunks [] h =
        some (rets, [], { h with mState := .Done, mFields := h.mFields ++ fields }) ∧
      List.Forall₂ FormPart.Received parts fields ∧
      (∀ ret ∈ rets, ret ≠ 400) ∧ ((∀ c ∈ chunks, c ≠ []) → ∀ ret ∈ rets, ret = 0) := by
  have hempty : h.round [] = .ret 0 [] h := by rw [round, if_pos rfl]
  apply @inputs_follow b h parts hb hparts hne hboundary hstate hfield chunks [] [] h hchunks
    (.ret hempty)
  · rw [hstate]
    exact fun hdone => absurd hdone (by decide)
  · intro hform
    obtain ⟨rest, -, hrest⟩ := form_delimiter b parts
    have hlen := congrArg List.length hrest
    rw [← hform, List.length_append, List.length_append, delimiter_length] at hlen
    simp only [List.length_cons, List.length_nil] at hlen
    omega

end HttpPostHandler
end CoreLooper.Http
