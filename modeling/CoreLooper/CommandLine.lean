import CoreLooper.CStrings

/-!
# Command lines

`ShellTool::ParseCommandLine` takes a command line apart at its blanks. An argument may be
quoted. The scanner keeps the text since the pointer `ps`, and what stood in front of an opening
quote.
-/
namespace CoreLooper.ShellTool
open CStrings

inductive Status where
  | Normal | SQ | DQ
  deriving DecidableEq, Repr

/-- `arg` is the text from `ps` on. -/
structure Scanner where
  status : Status := .Normal
  header : Bytes := []
  arg : Bytes := []
  deriving DecidableEq, Repr

/-- The switch, with `argEnd`. The character that ends an argument is still in its text. -/
def readChar (s : Scanner) (ch : UInt8) : Scanner × Bool :=
  let next := { s with arg := s.arg ++ [ch] }
  match s.status with
  | .Normal =>
      if ch = 32 then (next, true)
      else if ch = 39 then (⟨.SQ, s.arg ++ [39], []⟩, false)
      else if ch = 34 then (⟨.DQ, s.arg, []⟩, false)
      else (next, false)
  | .SQ => (next, ch = 39)
  | .DQ => (next, ch = 34)

/-- What is pushed at the end of an argument: an empty text is not, and a quote at its end goes. -/
def item (header arg : Bytes) : List Bytes :=
  if arg = [] then []
  else if arg.getLast? = some 39 ∨ arg.getLast? = some 34 then [header ++ arg.dropLast]
  else [header ++ arg]

/-- The loop over the characters. The last one belongs to the last argument whatever it is. -/
def scan (s : Scanner) : Bytes → List Bytes
  | [] => []
  | ch :: rest =>
      let (next, argEnd) := readChar s ch
      if rest = [] then item next.header next.arg
      else if argEnd then item next.header next.arg.dropLast ++ scan {} rest
      else scan next rest

/-- The length is that of the C string, as an `int`. -/
def parseCommandLine (cmdline : Bytes) : List Bytes :=
  let text := cstr cmdline
  scan {} (text.take (i32 text.length).toNat)

inductive Quoting where
  | bare | single | double
  deriving DecidableEq, Repr

/-- An argument, how it is quoted, and the number of blanks in front of it. -/
structure Word where
  blanks : ℕ
  arg : Bytes
  quoting : Quoting
  deriving DecidableEq, Repr

def Word.text (w : Word) : Bytes :=
  match w.quoting with
  | .bare => w.arg
  | .single => 39 :: (w.arg ++ [39])
  | .double => 34 :: (w.arg ++ [34])

structure Word.Valid (w : Word) : Prop where
  arg_ne : w.arg ≠ []
  noSingle : 39 ∉ w.arg
  noDouble : 34 ∉ w.arg
  noBlank : w.quoting = .bare → 32 ∉ w.arg

/-- The words with their blanks. -/
def body (ws : List Word) : Bytes :=
  ws.flatMap fun w => List.replicate w.blanks 32 ++ w.text

/-- A whole command line, with blanks behind the last word. -/
def line (ws : List Word) (trailing : ℕ) : Bytes := body ws ++ List.replicate trailing 32

/-- Words are separated. -/
def Separated (ws : List Word) : Prop := ∀ w ∈ ws.tail, 0 < w.blanks

section
variable {a p rest header : Bytes} {q : UInt8} {s : Scanner}

theorem item_plain (ha : a ≠ []) (hs : 39 ∉ a) (hd : 34 ∉ a) (header : Bytes) :
    item header a = [header ++ a] := by
  have hlast : ¬ (a.getLast? = some 39 ∨ a.getLast? = some 34) := by
    rintro (h | h)
    · exact hs (List.mem_of_getLast? h)
    · exact hd (List.mem_of_getLast? h)
  rw [item, if_neg ha, if_neg hlast]

/-- A closing quote at the end goes. -/
theorem item_quote (hq : q = 39 ∨ q = 34) (header : Bytes) : item header (a ++ [q]) =
    [header ++ a] := by
  rw [item, if_neg (by simp), if_pos (by simpa using hq), List.dropLast_concat]

theorem scan_last (s : Scanner) (ch : UInt8) :
    scan s [ch] = item (readChar s ch).1.header (readChar s ch).1.arg := by
  simp [scan]

theorem scan_end (hrest : rest ≠ []) {ch : UInt8} (h : (readChar s ch).2 = true) :
    scan s (ch :: rest) = item (readChar s ch).1.header (readChar s ch).1.arg.dropLast ++
      scan {} rest := by
  rw [scan]
  simp only [if_neg hrest, h, if_true]

theorem scan_next (hrest : rest ≠ []) {ch : UInt8} (h : (readChar s ch).2 = false) :
    scan s (ch :: rest) = scan (readChar s ch).1 rest := by
  rw [scan]
  simp only [if_neg hrest, h, Bool.false_eq_true, if_false]

/-- A blank in front of something is passed over. -/
theorem scan_blank (hrest : rest ≠ []) : scan {} (32 :: rest) = scan {} rest :=
  (scan_end hrest rfl).trans (List.nil_append _)

theorem scan_blanks (n : ℕ) (hrest : rest ≠ []) :
    scan {} (List.replicate n 32 ++ rest) = scan {} rest := by
  induction n with
  | zero => rfl
  | succ n ih =>
      rw [List.replicate_succ, List.cons_append, scan_blank (by simp [hrest]), ih]

/-- Blanks alone become an argument. -/
theorem scan_only_blanks (n : ℕ) : scan {} (List.replicate (n + 1) 32) = [[32]] := by
  have hsplit : List.replicate (n + 1) (32 : UInt8) = List.replicate n 32 ++ [32] :=
    List.replicate_succ'
  rw [hsplit, scan_blanks n (by simp)]
  decide

theorem item_no_null (hheader : 0 ∉ header) (ha : 0 ∉ a) : ∀ x ∈ item header a, 0 ∉ x := by
  intro x hx
  unfold item at hx
  split_ifs at hx
  · cases hx
  · rw [List.mem_singleton.mp hx, List.mem_append]
    rintro (hmem | hmem)
    · exact hheader hmem
    · exact ha (List.mem_of_mem_dropLast hmem)
  · rw [List.mem_singleton.mp hx, List.mem_append]
    rintro (hmem | hmem)
    · exact hheader hmem
    · exact ha hmem

theorem readChar_no_null {ch : UInt8} (hheader : 0 ∉ s.header) (harg : 0 ∉ s.arg) (hch : ch ≠ 0) :
    0 ∉ (readChar s ch).1.header ∧ 0 ∉ (readChar s ch).1.arg := by
  have hnext : 0 ∉ s.arg ++ [ch] := by simp [harg, hch.symm]
  unfold readChar
  dsimp only
  split
  · split_ifs
    · exact ⟨hheader, hnext⟩
    · exact ⟨by simp [harg], by simp⟩
    · exact ⟨harg, by simp⟩
    · exact ⟨hheader, hnext⟩
  · exact ⟨hheader, hnext⟩
  · exact ⟨hheader, hnext⟩

/-- What comes out was scanned. -/
theorem scan_no_null (hheader : 0 ∉ s.header) (harg : 0 ∉ s.arg) (ha : 0 ∉ a) :
    ∀ x ∈ scan s a, 0 ∉ x := by
  induction a generalizing s with
  | nil => exact fun x hx => absurd hx List.not_mem_nil
  | cons c a ih =>
      have hc : c ≠ 0 := fun h => ha (by rw [h]; exact List.mem_cons_self)
      have hlater : 0 ∉ a := fun h => ha (List.mem_cons_of_mem c h)
      obtain ⟨hheader', harg'⟩ := readChar_no_null hheader harg hc
      intro x hx
      rw [scan] at hx
      dsimp only at hx
      split_ifs at hx
      · exact item_no_null hheader' harg' x hx
      · rcases List.mem_append.mp hx with hx | hx
        · exact item_no_null hheader' (fun h => harg' (List.mem_of_mem_dropLast h)) x hx
        · exact ih List.not_mem_nil List.not_mem_nil hlater x hx
      · exact ih hheader' harg' hlater x hx

/-- A character inside a word. -/
def Inner (status : Status) (c : UInt8) : Prop :=
  match status with
  | .Normal => c ≠ 32 ∧ c ≠ 39 ∧ c ≠ 34
  | .SQ => c ≠ 39
  | .DQ => c ≠ 34

theorem readChar_inner {ch : UInt8} (h : Inner s.status ch) :
    readChar s ch = ({ s with arg := s.arg ++ [ch] }, false) := by
  cases hs : s.status with
  | Normal =>
      rw [hs] at h
      simp [readChar, hs, h.1, h.2.1, h.2.2]
  | SQ =>
      rw [hs] at h
      have hch : ch ≠ 39 := h
      simp [readChar, hs, hch]
  | DQ =>
      rw [hs] at h
      have hch : ch ≠ 34 := h
      simp [readChar, hs, hch]

/-- The characters of a word are collected. -/
theorem scan_inner (ha : ∀ c ∈ a, Inner s.status c) (hrest : rest ≠ []) :
    scan s (a ++ rest) = scan { s with arg := s.arg ++ a } rest := by
  induction a generalizing s with
  | nil => simp
  | cons c a ih =>
      have hread := readChar_inner (ha c List.mem_cons_self)
      have hlater := ih (s := { s with arg := s.arg ++ [c] })
        fun d hd => ha d (List.mem_cons_of_mem c hd)
      rw [List.cons_append, scan_next (by simp [hrest]) (by rw [hread]), hread, hlater]
      simp

/-- The line ends inside a word. -/
theorem scan_inner_end (ha : ∀ c ∈ a, Inner s.status c) (hne : a ≠ []) :
    scan s a = item s.header (s.arg ++ a) := by
  obtain ⟨b, c, rfl⟩ : ∃ b c, a = b ++ [c] := ⟨a.dropLast, a.getLast hne,
    (List.dropLast_append_getLast hne).symm⟩
  have hread := readChar_inner (s := { s with arg := s.arg ++ b }) (ha c (by simp))
  rw [scan_inner (fun d hd => ha d (List.mem_append_left _ hd)) (by simp), scan_last, hread]
  simp

variable {w : Word} {ws : List Word} {cut : Bytes} {trailing : ℕ}

theorem Word.Valid.inner (h : w.Valid) : ∀ c ∈ w.arg, Inner .SQ c ∧ Inner .DQ c ∧
    (w.quoting = .bare → Inner .Normal c) := by
  intro c hc
  have hs : c ≠ 39 := by
    rintro rfl
    exact h.noSingle hc
  have hd : c ≠ 34 := by
    rintro rfl
    exact h.noDouble hc
  refine ⟨hs, hd, fun hbare => ⟨?_, hs, hd⟩⟩
  rintro rfl
  exact h.noBlank hbare hc

theorem Word.Valid.item_arg (h : w.Valid) (header : Bytes) : item header w.arg =
    [header ++ w.arg] :=
  item_plain h.arg_ne h.noSingle h.noDouble header

/-- A word in quotes, up to its closing quote. -/
theorem scan_quoted (h : w.Valid) {status : Status} (hin : ∀ c ∈ w.arg, Inner status c)
    (hq : q = 39 ∨ q = 34)
    (hclose : ∀ arg, readChar ⟨status, header, arg⟩ q = (⟨status, header, arg ++ [q]⟩, true))
    (rest : Bytes) :
    scan ⟨status, header, []⟩ (w.arg ++ q :: rest) = (header ++ w.arg) :: scan {} rest := by
  rw [scan_inner hin (by simp), List.nil_append]
  cases rest with
  | nil => rw [scan_last, hclose, item_quote hq, scan]
  | cons c rest =>
      rw [scan_end (by simp) (by rw [hclose]), hclose, List.dropLast_concat, h.item_arg,
        List.singleton_append]

theorem scan_double (h : w.Valid) (hw : w.quoting = .double) (rest : Bytes) :
    scan {} (w.text ++ rest) = w.arg :: scan {} rest := by
  rw [Word.text, hw]
  rw [List.cons_append, List.append_assoc, scan_next (by simp) rfl]
  exact scan_quoted h (fun c hc => (h.inner c hc).2.1) (Or.inr rfl) (fun _ => rfl) rest

/-- The header of a word in single quotes has the quote. -/
theorem scan_single (h : w.Valid) (hw : w.quoting = .single) (rest : Bytes) :
    scan {} (w.text ++ rest) = (39 :: w.arg) :: scan {} rest := by
  rw [Word.text, hw]
  rw [List.cons_append, List.append_assoc, scan_next (by simp) rfl]
  exact scan_quoted h (fun c hc => (h.inner c hc).1) (Or.inl rfl) (fun _ => rfl) rest

/-- What follows a word is a blank, if there is anything. -/
def AtBlank (rest : Bytes) : Prop := ∀ c, rest.head? = some c → c = 32

theorem scan_bare (h : w.Valid) (hw : w.quoting = .bare) (hblank : AtBlank rest)
    (hrest : rest ≠ [32]) : scan {} (w.text ++ rest) = w.arg :: scan {} rest := by
  have hin : ∀ c ∈ w.arg, Inner ({} : Scanner).status c := fun c hc => (h.inner c hc).2.2 hw
  rw [Word.text, hw]
  cases rest with
  | nil =>
      rw [List.append_nil, scan_inner_end hin h.arg_ne, scan]
      exact h.item_arg []
  | cons c rest =>
      obtain rfl := hblank c rfl
      have hne : rest ≠ [] := by
        rintro rfl
        exact hrest rfl
      rw [scan_inner hin (by simp), scan_blank hne, scan_end hne rfl]
      have hpushed : (readChar
        { ({} : Scanner) with arg := ({} : Scanner).arg ++ w.arg } 32).1.arg =
          w.arg ++ [32] := rfl
      rw [hpushed, List.dropLast_concat]
      exact congrArg (· ++ scan {} rest) (h.item_arg [])

/-- A last blank goes to the word. -/
theorem scan_bare_blank (h : w.Valid) (hw : w.quoting = .bare) :
    scan {} (w.text ++ [32]) = [w.arg ++ [32]] := by
  have hin : ∀ c ∈ w.arg, Inner ({} : Scanner).status c := fun c hc => (h.inner c hc).2.2 hw
  have hpushed : (readChar { ({} : Scanner) with arg := ({} : Scanner).arg ++ w.arg } 32).1.arg =
      w.arg ++ [32] := rfl
  rw [Word.text, hw, scan_inner hin (by simp), scan_last, hpushed]
  exact item_plain (by simp) (by simpa using h.noSingle) (by simpa using h.noDouble) []

theorem prefix_inside {b x : Bytes} (h : a ++ b = x ++ [q]) (hb : b ≠ []) : a <+: x := by
  have hle := congrArg List.length h
  have hpos := List.length_pos_of_ne_nil hb
  rw [List.length_append, List.length_append, List.length_singleton] at hle
  exact List.prefix_of_prefix_length_le ⟨b, h⟩ (List.prefix_append _ _) (by omega)

/-- The scan stops inside a word. -/
theorem scan_part (h : w.Valid) (hne : a ≠ []) (hpart : a <+: w.text)
    (hshort : a.length < w.text.length) (args : List Bytes) :
    scan {} a = w.arg :: args ↔ args = [] ∧ w.quoting = .double ∧ a = w.text.dropLast := by
  obtain ⟨b, hb⟩ := hpart
  have hbne : b ≠ [] := by
    rintro rfl
    rw [← hb, List.append_nil] at hshort
    exact Nat.lt_irrefl _ hshort
  cases hw : w.quoting with
  | bare =>
      rw [Word.text, hw] at hb
      change a ++ b = w.arg at hb
      have hin : ∀ c ∈ a, Inner ({} : Scanner).status c := fun c hc =>
        (h.inner c (by rw [← hb]; exact List.mem_append_left b hc)).2.2 hw
      have hplain : item [] a = [[] ++ a] := item_plain hne
        (fun hmem => h.noSingle (by rw [← hb]; exact List.mem_append_left b hmem))
        (fun hmem => h.noDouble (by rw [← hb]; exact List.mem_append_left b hmem)) []
      refine iff_of_false ?_ (by simp)
      rw [scan_inner_end hin hne, List.nil_append, hplain, List.nil_append]
      intro heq
      have hsame : a = w.arg := (List.cons.inj heq).1
      rw [hsame] at hb
      exact hbne (List.append_right_eq_self.mp hb)
  | single =>
      refine iff_of_false ?_ (by simp)
      rw [Word.text, hw] at hb
      change a ++ b = 39 :: (w.arg ++ [39]) at hb
      obtain ⟨c, a', rfl⟩ := List.exists_cons_of_ne_nil hne
      rw [List.cons_append, List.cons.injEq] at hb
      obtain ⟨rfl, hb⟩ := hb
      by_cases ha' : a' = []
      · rw [ha', scan_last]
        simp [readChar, item]
      · have hin : a' <+: w.arg := prefix_inside hb hbne
        have hmem : ∀ c ∈ a', c ∈ w.arg := fun c hc => hin.subset hc
        have hplain : item [39] a' = [[39] ++ a'] := item_plain ha'
          (fun hc => h.noSingle (hmem _ hc)) (fun hc => h.noDouble (hmem _ hc)) [39]
        rw [scan_next ha' rfl, scan_inner_end (fun c hc => (h.inner c (hmem c hc)).1) ha']
        change item [39] a' ≠ w.arg :: args
        rw [hplain]
        intro heq
        apply h.noSingle
        rw [← (List.cons.inj heq).1]
        simp
  | double =>
      rw [Word.text, hw] at hb ⊢
      change a ++ b = 34 :: (w.arg ++ [34]) at hb
      obtain ⟨c, a', rfl⟩ := List.exists_cons_of_ne_nil hne
      rw [List.cons_append, List.cons.injEq] at hb
      obtain ⟨rfl, hb⟩ := hb
      have htext : (34 :: (w.arg ++ [34])).dropLast = 34 :: w.arg := by
        rw [List.dropLast_cons_of_ne_nil (by simp), List.dropLast_concat]
      change _ ↔ _ ∧ _ ∧ 34 :: a' = (34 :: (w.arg ++ [34])).dropLast
      rw [htext, List.cons_inj_right, and_iff_right rfl]
      by_cases ha' : a' = []
      · rw [ha', scan_last]
        exact iff_of_false (by simp [readChar, item]) fun hsame => h.arg_ne hsame.2.symm
      · have hin : a' <+: w.arg := prefix_inside hb hbne
        have hmem : ∀ c ∈ a', c ∈ w.arg := fun c hc => hin.subset hc
        have hplain : item [] a' = [[] ++ a'] := item_plain ha'
          (fun hc => h.noSingle (hmem _ hc)) (fun hc => h.noDouble (hmem _ hc)) []
        rw [scan_next ha' rfl, scan_inner_end (fun c hc => (h.inner c (hmem c hc)).2.1) ha']
        change item [] a' = w.arg :: args ↔ _
        rw [hplain, List.nil_append, List.cons.injEq, eq_comm (a := ([] : List Bytes))]
        exact and_comm

theorem Word.Valid.text_head (h : w.Valid) : ∃ c t, w.text = c :: t ∧ c ≠ 32 := by
  cases hw : w.quoting with
  | bare =>
      obtain ⟨c, t, ht⟩ := List.exists_cons_of_ne_nil h.arg_ne
      refine ⟨c, t, by rw [Word.text, hw]; exact ht, ?_⟩
      rintro rfl
      exact h.noBlank hw (by rw [ht]; exact List.mem_cons_self)
  | single => exact ⟨39, w.arg ++ [39], by rw [Word.text, hw], by decide⟩
  | double => exact ⟨34, w.arg ++ [34], by rw [Word.text, hw], by decide⟩

theorem line_cons (w : Word) (ws : List Word) (trailing : ℕ) : line (w :: ws) trailing =
    List.replicate w.blanks 32 ++ (w.text ++ line ws trailing) := by
  rw [line, body, List.flatMap_cons, ← body, line, List.append_assoc, List.append_assoc]

/-- What follows the words before begins with a blank. -/
theorem line_atBlank (hsep : ∀ w ∈ ws, 0 < w.blanks) (h : rest <+: line ws trailing) :
    AtBlank rest := by
  intro c hc
  have hhead : (line ws trailing).head? = some c := by
    obtain ⟨t, ht⟩ := h
    cases rest with
    | nil => cases hc
    | cons d rest =>
        rw [← ht]
        exact hc
  cases ws with
  | nil =>
      rw [line, body, List.flatMap_nil, List.nil_append] at hhead
      exact List.eq_of_mem_replicate (List.mem_of_mem_head? hhead)
  | cons w ws =>
      obtain ⟨n, hn⟩ := Nat.exists_eq_add_of_lt (hsep w List.mem_cons_self)
      rw [line_cons, hn, Nat.zero_add, List.replicate_succ] at hhead
      exact (Option.some.inj hhead).symm

/-- The scanned part of a line holds its arguments: each word but one in single quotes, the last
one perhaps without its closing quote. Blanks at the end stand for an argument that is a blank. -/
def Complete : List Word → Bytes → Prop
  | [], cut => cut = []
  | w :: ws, cut =>
      (ws = [] ∧ w.arg = [32] ∧ ∃ k, cut = List.replicate (k + 1) 32) ∨
      (ws = [] ∧ w.quoting = .double ∧ cut = List.replicate w.blanks 32 ++ w.text.dropLast) ∨
      (w.quoting ≠ .single ∧ ∃ rest, cut = List.replicate w.blanks 32 ++ (w.text ++ rest) ∧
        Complete ws rest ∧ (w.quoting = .bare → rest ≠ [32]))

/-- Where no word is reached, there are blanks. -/
theorem complete_blanks (h : w.Valid) (k : ℕ) :
    Complete (w :: ws) (List.replicate k 32) ↔ ws = [] ∧ w.arg = [32] ∧ k ≠ 0 := by
  obtain ⟨c, t, ht, hc⟩ := h.text_head
  have hblank : ∀ x y : Bytes, List.replicate k 32 ≠ x ++ (c :: y) := by
    intro x y heq
    have hmem : c ∈ List.replicate k (32 : UInt8) := by
      rw [heq]
      simp
    exact hc (List.eq_of_mem_replicate hmem)
  constructor
  · rintro (⟨hws, harg, n, hn⟩ | ⟨-, hw, hcut⟩ | ⟨-, rest, hcut, -⟩)
    · refine ⟨hws, harg, ?_⟩
      rintro rfl
      cases hn
    · rw [Word.text, hw, List.dropLast_cons_of_ne_nil (by simp)] at hcut
      have hquote : (34 : UInt8) ∈ List.replicate k (32 : UInt8) := by
        rw [hcut]
        simp
      exact absurd (List.eq_of_mem_replicate hquote) (by decide)
    · rw [ht, List.cons_append] at hcut
      exact absurd hcut (hblank _ _)
  · rintro ⟨hws, harg, hk⟩
    obtain ⟨n, rfl⟩ := Nat.exists_eq_succ_of_ne_zero hk
    exact Or.inl ⟨hws, harg, n, rfl⟩

/-- Where a word is reached, the blanks in front of it do not count. -/
theorem complete_reached {c : Bytes} (hc : ∃ d t, c = d :: t ∧ d ≠ 32) :
    Complete (w :: ws) (List.replicate w.blanks 32 ++ c) ↔
      (ws = [] ∧ w.quoting = .double ∧ c = w.text.dropLast) ∨
      (w.quoting ≠ .single ∧ ∃ rest, c = w.text ++ rest ∧ Complete ws rest ∧
        (w.quoting = .bare → rest ≠ [32])) := by
  rw [Complete]
  simp only [List.append_cancel_left_eq]
  refine or_iff_right ?_
  rintro ⟨-, -, k, hk⟩
  obtain ⟨d, t, rfl, hd⟩ := hc
  have hmem : d ∈ List.replicate (k + 1) (32 : UInt8) := by
    rw [← hk]
    simp
  exact hd (List.eq_of_mem_replicate hmem)

theorem scan_complete (hvalid : ∀ w ∈ ws, w.Valid) (hsep : Separated ws)
    (hcut : cut <+: line ws trailing) :
    scan {} cut = ws.map (·.arg) ↔ Complete ws cut := by
  induction ws generalizing cut with
  | nil =>
      rw [line, body, List.flatMap_nil, List.nil_append] at hcut
      obtain ⟨t, ht⟩ := hcut
      have hblanks : cut = List.replicate cut.length 32 :=
        List.eq_replicate_iff.mpr ⟨rfl, fun c hc => List.eq_of_mem_replicate (n := trailing) (by
          rw [← ht]
          exact List.mem_append_left _ hc)⟩
      rw [Complete, List.map_nil]
      cases hlen : cut.length with
      | zero =>
          rw [List.length_eq_zero_iff.mp hlen]
          exact iff_of_true rfl rfl
      | succ k =>
          rw [hblanks, hlen, scan_only_blanks]
          exact iff_of_false (by simp) (by simp)
  | cons w ws ih =>
      have hw := hvalid w List.mem_cons_self
      have hlater : ∀ v ∈ ws, 0 < v.blanks := hsep
      have hrec : ∀ {rest : Bytes}, rest <+: line ws trailing →
          (scan {} rest = ws.map (·.arg) ↔ Complete ws rest) :=
        ih (fun v hv => hvalid v (List.mem_cons_of_mem w hv))
          fun v hv => hlater v (List.mem_of_mem_tail hv)
      rw [line_cons] at hcut
      rw [List.map_cons]
      by_cases hreach : cut.length ≤ w.blanks
      · have hstarts : cut <+: List.replicate w.blanks 32 :=
          List.prefix_of_prefix_length_le hcut (List.prefix_append _ _) (by simpa using hreach)
        have hblanks : cut = List.replicate cut.length 32 :=
          List.eq_replicate_iff.mpr
            ⟨rfl, fun c hc => List.eq_of_mem_replicate (hstarts.subset hc)⟩
        rw [hblanks, complete_blanks hw]
        cases cut.length with
        | zero => simp [scan]
        | succ k =>
            rw [scan_only_blanks, List.cons.injEq, eq_comm (a := [(32 : UInt8)]),
              eq_comm (a := ([] : List Bytes)), List.map_eq_nil_iff]
            simp [and_comm]
      · obtain ⟨c, rfl⟩ : ∃ c, cut = List.replicate w.blanks 32 ++ c := by
          obtain ⟨c, hc⟩ := List.prefix_of_prefix_length_le (List.prefix_append _ _) hcut
            (by simpa using Nat.le_of_not_le hreach)
          exact ⟨c, hc.symm⟩
        have hne : c ≠ [] := by
          rintro rfl
          simp at hreach
        rw [List.prefix_append_right_inj] at hcut
        have hhead : ∃ d t, c = d :: t ∧ d ≠ 32 := by
          obtain ⟨d, t, ht, hd⟩ := hw.text_head
          obtain ⟨e, t', rfl⟩ := List.exists_cons_of_ne_nil hne
          rw [ht, List.cons_append, List.cons_prefix_cons] at hcut
          exact ⟨e, t', rfl, by rw [hcut.1]; exact hd⟩
        rw [scan_blanks _ hne, complete_reached hhead]
        by_cases hshort : c.length < w.text.length
        · -- the scan ends inside this word
          have hpart : c <+: w.text :=
            List.prefix_of_prefix_length_le hcut (List.prefix_append _ _) (Nat.le_of_lt hshort)
          have hno : ¬ (w.quoting ≠ .single ∧ ∃ rest, c = w.text ++ rest ∧ Complete ws rest ∧
              (w.quoting = .bare → rest ≠ [32])) := by
            rintro ⟨-, rest, rfl, -⟩
            rw [List.length_append] at hshort
            omega
          rw [or_iff_left hno, scan_part hw hne hpart hshort, List.map_eq_nil_iff]
        · -- the whole word is scanned
          obtain ⟨rest, rfl⟩ := List.prefix_of_prefix_length_le (List.prefix_append _ _) hcut
            (Nat.not_lt.mp hshort)
          rw [List.prefix_append_right_inj] at hcut
          have hno : ¬ (ws = [] ∧ w.quoting = .double ∧ w.text ++ rest = w.text.dropLast) := by
            rintro ⟨-, -, heq⟩
            have hlen := congrArg List.length heq
            obtain ⟨d, t, ht, -⟩ := hw.text_head
            rw [List.length_append, List.length_dropLast, ht, List.length_cons] at hlen
            omega
          have hsame : ∀ P : Bytes → Prop,
              (∃ r, w.text ++ rest = w.text ++ r ∧ P r) ↔ P rest := by
            intro P
            simp only [List.append_cancel_left_eq, exists_eq_left']
          rw [or_iff_right hno, hsame fun r => Complete ws r ∧ (w.quoting = .bare → r ≠ [32]),
            ← hrec hcut]
          cases hq : w.quoting with
          | bare =>
              by_cases hlast : rest = [32]
              · rw [hlast, scan_bare_blank hw hq]
                exact iff_of_false (by simp) fun h => h.2.2 rfl rfl
              · rw [scan_bare hw hq (line_atBlank hlater hcut) hlast, List.cons_inj_right]
                simp [hlast]
          | single =>
              rw [scan_single hw hq]
              refine iff_of_false ?_ fun h => h.1 rfl
              intro heq
              apply hw.noSingle
              rw [← (List.cons.inj heq).1]
              exact List.mem_cons_self
          | double =>
              rw [scan_double hw hq, List.cons_inj_right]
              simp

theorem body_ne_blank (hvalid : ∀ w ∈ ws, w.Valid) : body ws ≠ [32] := by
  cases ws with
  | nil => simp [body]
  | cons w ws =>
      obtain ⟨d, t, ht, hd⟩ := (hvalid w List.mem_cons_self).text_head
      intro heq
      have hmem : d ∈ body (w :: ws) := by
        rw [body, List.flatMap_cons, ht]
        simp
      rw [heq, List.mem_singleton] at hmem
      exact hd hmem

/-- A line that is scanned as a whole. -/
theorem complete_line (hvalid : ∀ w ∈ ws, w.Valid) :
    Complete ws (line ws trailing) ↔ (∀ w ∈ ws, w.quoting ≠ .single) ∧ trailing = 0 := by
  induction ws with
  | nil => simp [Complete, line, body]
  | cons w ws ih =>
      have hw := hvalid w List.mem_cons_self
      have hrec := ih fun v hv => hvalid v (List.mem_cons_of_mem w hv)
      obtain ⟨d, t, ht, hd⟩ := hw.text_head
      have hno : ¬ (ws = [] ∧ w.quoting = .double ∧
          w.text ++ line ws trailing = w.text.dropLast) := by
        rintro ⟨-, -, heq⟩
        have hlen := congrArg List.length heq
        rw [List.length_append, List.length_dropLast, ht, List.length_cons] at hlen
        omega
      have hsame : ∀ P : Bytes → Prop,
          (∃ r, w.text ++ line ws trailing = w.text ++ r ∧ P r) ↔ P (line ws trailing) := by
        intro P
        simp only [List.append_cancel_left_eq, exists_eq_left']
      rw [line_cons, complete_reached ⟨d, t ++ line ws trailing, by rw [ht, List.cons_append], hd⟩,
        or_iff_right hno, hsame fun r => Complete ws r ∧ (w.quoting = .bare → r ≠ [32]), hrec,
        List.forall_mem_cons]
      constructor
      · rintro ⟨hquoting, ⟨hall, htrailing⟩, -⟩
        exact ⟨⟨hquoting, hall⟩, htrailing⟩
      · rintro ⟨⟨hquoting, hall⟩, rfl⟩
        refine ⟨hquoting, ⟨hall, rfl⟩, fun _ => ?_⟩
        rw [line, List.replicate_zero, List.append_nil]
        exact body_ne_blank fun v hv => hvalid v (List.mem_cons_of_mem w hv)

/-- The arguments come back. -/
def Splits (ws : List Word) (trailing : ℕ) : Prop :=
  parseCommandLine (line ws trailing) = ws.map (·.arg)

/-- A null in a line is one of an argument. -/
theorem null_mem_line : 0 ∈ line ws trailing ↔ ∃ w ∈ ws, 0 ∈ w.arg := by
  have htext : ∀ w : Word, 0 ∈ w.text ↔ 0 ∈ w.arg := by
    intro w
    cases hw : w.quoting <;> simp [Word.text, hw]
  simp [line, body, htext]

/-- An argument with a null in it is cut there. -/
theorem Splits.no_null (h : Splits ws trailing) : ∀ w ∈ ws, 0 ∉ w.arg := by
  intro w hw
  have hcut : 0 ∉ (cstr (line ws trailing)).take (i32 (cstr (line ws trailing)).length).toNat :=
    fun hmem => cstr_not_mem _ (List.mem_of_mem_take hmem)
  refine scan_no_null (s := {}) List.not_mem_nil List.not_mem_nil hcut w.arg ?_
  change w.arg ∈ parseCommandLine (line ws trailing)
  rw [h]
  exact List.mem_map_of_mem hw

/-- Arguments come back if and only if there is no null in them, none is in single quotes and no
blank follows them. A line that is too long for an `int` has to have them in the part that is
scanned. -/
theorem splits_iff (hvalid : ∀ w ∈ ws, w.Valid) (hsep : Separated ws) (trailing : ℕ) :
    Splits ws trailing ↔ (∀ w ∈ ws, 0 ∉ w.arg) ∧
      (((line ws trailing).length < 2 ^ 31 ∧ (∀ w ∈ ws, w.quoting ≠ .single) ∧ trailing = 0) ∨
        (2 ^ 31 ≤ (line ws trailing).length ∧
          Complete ws ((line ws trailing).take (i32 (line ws trailing).length).toNat))) := by
  by_cases hnull : ∀ w ∈ ws, 0 ∉ w.arg
  · have hline : 0 ∉ line ws trailing := by
      rw [null_mem_line]
      rintro ⟨w, hw, hmem⟩
      exact hnull w hw hmem
    rw [and_iff_right hnull, Splits, parseCommandLine, cstr_eq_self hline,
      scan_complete hvalid hsep (List.take_prefix _ _)]
    by_cases hlong : 2 ^ 31 ≤ (line ws trailing).length
    · have hno : ¬ (line ws trailing).length < 2 ^ 31 := Nat.not_lt.mpr hlong
      simp only [hlong, hno, false_and, true_and, false_or]
    · have hshort := Nat.not_le.mp hlong
      have hint : i32 (line ws trailing).length = (line ws trailing).length :=
        i32_eq (by omega) (by omega)
      rw [hint, Int.toNat_natCast, List.take_length, complete_line hvalid]
      simp only [hlong, hshort, false_and, true_and, or_false]
  · exact iff_of_false (fun h => hnull h.no_null) fun h => hnull h.1

end

/-- Two bare words and one in double quotes. -/
def quotedWords : List Word :=
  [⟨1, ascii "ls", .bare⟩, ⟨2, ascii "-l", .bare⟩, ⟨1, ascii "a b", .double⟩]

theorem quotedWords_valid : (∀ w ∈ quotedWords, w.Valid) ∧ Separated quotedWords := by
  constructor
  · intro w hw
    simp only [quotedWords, List.mem_cons, List.not_mem_nil, or_false] at hw
    rcases hw with rfl | rfl | rfl
    · exact ⟨by decide, by decide, by decide, fun _ => by decide⟩
    · exact ⟨by decide, by decide, by decide, fun _ => by decide⟩
    · exact ⟨by decide, by decide, by decide, nofun⟩
  · unfold Separated
    decide

theorem splits_quotedWords :
    Splits quotedWords 0 ↔ (∀ w ∈ quotedWords, 0 ∉ w.arg) ∧
      (((line quotedWords 0).length < 2 ^ 31 ∧ (∀ w ∈ quotedWords, w.quoting ≠ .single) ∧ 0 = 0) ∨
        (2 ^ 31 ≤ (line quotedWords 0).length ∧
          Complete quotedWords
            ((line quotedWords 0).take (i32 (line quotedWords 0).length).toNat))) :=
  splits_iff quotedWords_valid.1 quotedWords_valid.2 0

/-- An argument in single quotes keeps the first of them, and a blank at the end goes to the last
argument. -/
theorem quote_kept :
    parseCommandLine (ascii "'a'") = [ascii "'a"] ∧ parseCommandLine (ascii "a ") = [ascii "a "] ∧
      ¬ Splits [⟨0, ascii "a", .single⟩] 0 ∧ ¬ Splits [⟨0, ascii "a", .bare⟩] 1 := by
  unfold Splits
  decide

end CoreLooper.ShellTool
