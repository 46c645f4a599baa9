import CoreLooper.HttpResponse

/-!
# The end of a response

`ParseInbox` finds the end of a response if the first text that looks like a length says so, or if
there is none and the chunks end for the first time where the text of a last chunk stands. A length
in another spelling, a number or such a text in a body, and a null in it lead astray.
-/
namespace CoreLooper.Http
open CStrings

section
variable {a n : Bytes} {c : UInt8}

/-- Text that ends with a byte the needle does not have is passed over if it has no occurrence. -/
theorem strstr_boundary (hc : c ∉ n) (hnone : strstr (a ++ [c]) n = none) (x : Bytes) :
    strstr (a ++ [c] ++ x) n = (strstr x n).map ((a ++ [c]).length + ·) := by
  apply strstr_pass
  intro j hj hp
  rw [List.drop_append_of_le_length (Nat.le_of_lt hj)] at hp
  by_cases hin : n.length ≤ ((a ++ [c]).drop j).length
  · have hinside := List.prefix_of_prefix_length_le hp (List.prefix_append _ _) hin
    have := strstr_isSome hinside
    rw [hnone] at this
    exact absurd this (by decide)
  · apply hc
    rw [List.length_append, List.length_singleton] at hj
    have hdrop : (a ++ [c]).drop j = a.drop j ++ [c] :=
      List.drop_append_of_le_length (by omega)
    rw [hdrop] at hp hin
    have hover := List.prefix_of_prefix_length_le (List.prefix_append (a.drop j ++ [c]) x) hp
      (by omega)
    exact hover.subset (List.mem_append_right _ List.mem_cons_self)

end

/-- The number before it becomes an `int`. -/
def longLength (ack : Bytes) : ℤ := ((lengthText ack).map strtol).getD 0

theorem contentLength_eq (ack : Bytes) : contentLength ack = i32 (longLength ack) := by
  unfold contentLength longLength
  cases lengthText ack with
  | none => decide
  | some s => rfl

theorem contentLength_zero {ack : Bytes} (h : longLength ack = 0) : contentLength ack = 0 := by
  rw [contentLength_eq, h]
  decide

theorem lengthText_some {ack s : Bytes} (h : lengthText ack = some s) :
    contentLength ack = atoi s ∧ longLength ack = strtol s := by
  rw [contentLength, longLength, h]
  exact ⟨rfl, rfl⟩

/-- A beginning of the text has a beginning of the number, or none yet. -/
theorem longLength_mono {ack more : Bytes} (h : longLength (ack ++ more) = 0) :
    longLength ack = 0 := by
  cases hfind : strstr ack lengthKey with
  | none => simp [longLength, lengthText, hfind]
  | some p =>
      have hsize := strstr_add_length_le hfind
      have hshort : lengthText ack = some (ack.drop (p + lengthKey.length)) := by
        rw [lengthText, hfind]
        rfl
      have hlong : lengthText (ack ++ more) = some (ack.drop (p + lengthKey.length) ++ more) := by
        rw [lengthText, strstr_append hfind, Option.map_some, List.drop_append_of_le_length hsize]
      rw [(lengthText_some hlong).2] at h
      rw [(lengthText_some hshort).2]
      exact strtol_zero_mono (List.prefix_append _ _) h

theorem lengthKey_length : lengthKey.length = 16 := by decide

/-- A number elsewhere than at the very start of a text makes itself felt with its first digit. -/
theorem exists_small_length {ack : Bytes} (h : longLength ack ≠ 0) :
    ∃ k c, 16 ≤ k ∧ ack[k]? = some c ∧ isdigit c = true ∧ contentLength (ack.take (k + 1)) ≠ 0 ∧
      contentLength (ack.take (k + 1)) ≤ 9 := by
  cases hfind : strstr ack lengthKey with
  | none => exact absurd (by simp [longLength, lengthText, hfind]) h
  | some p =>
      have htext : lengthText ack = some (ack.drop (p + lengthKey.length)) := by
        rw [lengthText, hfind]
        rfl
      rw [(lengthText_some htext).2] at h
      obtain ⟨j, c, hc, hdigit, hne, -, hnine⟩ := atoi_first h
      rw [List.getElem?_drop] at hc
      have hsize := strstr_add_length_le hfind
      have hkey := lengthKey_length
      have hcut : lengthText (ack.take (p + lengthKey.length + j + 1)) =
          some ((ack.drop (p + lengthKey.length)).take (j + 1)) := by
        have hfound : strstr (ack.take (p + lengthKey.length + j + 1)) lengthKey = some p := by
          apply strstr_of_append (x := ack.drop (p + lengthKey.length + j + 1))
          · rw [List.take_append_drop]
            exact hfind
          · rw [List.length_take]
            omega
        rw [lengthText, hfound, Option.map_some, List.drop_take]
        congr 2
        omega
      refine ⟨p + lengthKey.length + j, c, by omega, hc, hdigit, ?_, ?_⟩
      · rw [(lengthText_some hcut).1]
        exact hne
      · rw [(lengthText_some hcut).1]
        exact hnine

namespace HttpResponse
variable (r : HttpResponse)

/-- The header has the text, and not only blanks behind it. -/
def LengthInHeader : Prop := ∃ p, strstr r.header lengthKey = some p ∧
  ∃ c ∈ r.header.drop (p + lengthKey.length), isspace c = false

theorem crlf2_space : ∀ c ∈ CRLF2, isspace c = true := by decide +kernel

theorem lengthText_header {p : ℕ} (hp : strstr r.header lengthKey = some p) (z : Bytes) :
    lengthText (r.header ++ z) = some (r.header.drop (p + lengthKey.length) ++ z) := by
  rw [lengthText, strstr_append hp, Option.map_some,
    List.drop_append_of_le_length (strstr_add_length_le hp)]

/-- What the header says of a length the body does not change. -/
theorem contentLength_inHeader {r : HttpResponse} (h : r.LengthInHeader) (z : Bytes) :
    contentLength (r.header ++ z) = contentLength r.header := by
  obtain ⟨p, hp, c, hc, hspace⟩ := h
  have hin : ∃ u, r.header.drop (p + lengthKey.length) = u ++ CRLF2 ∧
      ∃ b ∈ u, isspace b = false := by
    have hnot : c ∉ CRLF2 := by
      intro hmem
      rw [crlf2_space c hmem] at hspace
      cases hspace
    rw [header] at hc ⊢
    by_cases hle : p + lengthKey.length ≤ r.lines.length
    · rw [List.drop_append_of_le_length hle] at hc ⊢
      exact ⟨_, rfl, c, (List.mem_append.mp hc).resolve_right hnot, hspace⟩
    · rw [List.drop_append, List.drop_of_length_le (by omega), List.nil_append] at hc
      exact absurd (List.mem_of_mem_drop hc) hnot
  obtain ⟨u, hu, hnonblank⟩ := hin
  have hstop : ∀ z : Bytes, atoi (u ++ CRLF2 ++ z) = atoi u := by
    intro z
    have hend : CRLF2 ++ z = 13 :: ([10, 13, 10] ++ z) := rfl
    have h13 : isdigit 13 = false := by decide
    rw [List.append_assoc, hend, atoi_stop h13 hnonblank]
  have hnone := r.lengthText_header hp []
  rw [List.append_nil, List.append_nil] at hnone
  have hempty := hstop []
  rw [List.append_nil] at hempty
  rw [(lengthText_some (r.lengthText_header hp z)).1, (lengthText_some hnone).1, hu, hstop, hempty]

/-- A header with blanks only behind the text leaves the number to the body. -/
theorem lengths_blank {p : ℕ} (hp : strstr r.header lengthKey = some p)
    (hblank : ∀ c ∈ r.header.drop (p + lengthKey.length), isspace c = true) (z : Bytes) :
    contentLength (r.header ++ z) = atoi z ∧ longLength (r.header ++ z) = strtol z := by
  obtain ⟨hshort, hlong⟩ := lengthText_some (r.lengthText_header hp z)
  rw [hshort, hlong]
  exact ⟨atoi_space hblank z, strtol_space hblank z⟩

theorem lengths_none (hnone : strstr r.header lengthKey = none) (z : Bytes) :
    contentLength (r.header ++ z) = contentLength z ∧
      longLength (r.header ++ z) = longLength z := by
  have hsplit : r.header = r.lines ++ [13, 10, 13] ++ [10] := by simp [header, CRLF2]
  have hlast : (10 : UInt8) ∉ lengthKey := by decide
  have hfind := strstr_boundary hlast (hsplit ▸ hnone) z
  rw [← hsplit] at hfind
  have htext : lengthText (r.header ++ z) = lengthText z := by
    rw [lengthText, lengthText, hfind, Option.map_map]
    congr 1
    funext k
    show (r.header ++ z).drop (r.header.length + k + lengthKey.length) = _
    rw [Nat.add_assoc, List.drop_length_add_append]
  rw [contentLength, contentLength, longLength, longLength, htext]
  exact ⟨rfl, rfl⟩

end HttpResponse

namespace ChunkedBody
variable (b : ChunkedBody)

/-- The body begins with a size that is not larger than what follows it. -/
theorem text_start : ∃ h c rest, b.text = h ++ c :: rest ∧ h ≠ [] ∧
    (∀ d ∈ h, (hexValue d).isSome) ∧ (c = 59 ∨ c = 32 ∨ c = 9 ∨ c = 13) ∧ rest ≠ [] ∧
      hexNumber h ≤ rest.length := by
  -- the line of a size goes on with an extension or ends
  have hnext : ∀ ext x : Bytes, (∀ c, ext.head? = some c → c = 59 ∨ c = 32 ∨ c = 9) →
      ∃ c rest, ext ++ 13 :: x = c :: rest ∧ (c = 59 ∨ c = 32 ∨ c = 9 ∨ c = 13) ∧
        x.length ≤ rest.length := by
    intro ext x hext
    cases ext with
    | nil => exact ⟨13, x, rfl, Or.inr (Or.inr (Or.inr rfl)), Nat.le_refl _⟩
    | cons c ext =>
        refine ⟨c, ext ++ 13 :: x, rfl, ?_, ?_⟩
        · rcases hext c rfl with h | h | h
          · exact Or.inl h
          · exact Or.inr (Or.inl h)
          · exact Or.inr (Or.inr (Or.inl h))
        · rw [List.length_append, List.length_cons]
          omega
  cases hchunks : b.chunks with
  | nil =>
      have htext : ∃ x, b.text = b.last ++ (b.ext ++ 13 :: 10 :: x) := by
        rw [text, hchunks, List.flatMap_nil, List.nil_append]
        cases b.trailers with
        | nil => exact ⟨[13, 10], by simp [CRLF2]⟩
        | cons f trailers =>
            exact ⟨f.line ++ (trailers.map HttpField.line).flatMap nextLine ++ CRLF2,
              by simp [nextLine]⟩
      obtain ⟨x, htext⟩ := htext
      obtain ⟨c, rest, hrest, hc, hlength⟩ := hnext b.ext (10 :: x) b.ext_start
      have hzero : hexNumber b.last = 0 := by
        have hfold : ∀ l : Bytes, (∀ c ∈ l, c = 48) →
            l.foldl (fun a c => a * 16 + (hexValue c).getD 0) 0 = 0 := by
          intro l
          induction l with
          | nil => exact fun _ => rfl
          | cons d l ih =>
              intro hl
              rw [hl d List.mem_cons_self]
              exact ih fun e he => hl e (List.mem_cons_of_mem _ he)
        exact hfold b.last b.last_zero
      refine ⟨b.last, c, rest, by rw [htext, hrest], b.last_ne, ?_, hc, ?_, by omega⟩
      · intro d hd
        rw [b.last_zero d hd]
        decide
      · rw [List.length_cons] at hlength
        rintro rfl
        rw [List.length_nil] at hlength
        omega
  | cons k chunks =>
      have htext : ∃ x, b.text = k.size ++ (k.ext ++ 13 :: 10 :: (k.data ++ x)) := by
        rw [text, hchunks, List.flatMap_cons, HttpChunk.text]
        exact ⟨[13, 10] ++ (chunks.flatMap HttpChunk.text ++ (b.last ++ b.ext ++
          (b.trailers.map HttpField.line).flatMap nextLine ++ CRLF2)), by simp⟩
      obtain ⟨x, htext⟩ := htext
      obtain ⟨c, rest, hrest, hc, hlength⟩ := hnext k.ext (10 :: (k.data ++ x)) k.ext_start
      rw [List.length_cons, List.length_append] at hlength
      refine ⟨k.size, c, rest, by rw [htext, hrest], k.size_ne, k.size_hex, hc, ?_, ?_⟩
      · rintro rfl
        rw [List.length_nil] at hlength
        omega
      · rw [k.size_eq]
        omega

theorem text_end : ∃ x, b.text = x ++ [10] := by
  refine ⟨b.chunks.flatMap HttpChunk.text ++ (b.last ++ b.ext ++
    (b.trailers.map HttpField.line).flatMap nextLine ++ [13, 10, 13]), ?_⟩
  rw [text, CRLF2]
  simp

/-- A body that starts with a number, read as a decimal one, is longer than that. -/
theorem number_small (hsize : b.text.length < 2 ^ 31) (h : strtol (cstr b.text) ≠ 0) :
    ∃ k < b.text.length, atoi (cstr (b.text.take k)) ≠ 0 ∧ atoi (cstr (b.text.take k)) ≤ k := by
  obtain ⟨h', c, rest, htext, hne, hhex, hc, hrest, hnumber⟩ := b.text_start
  have hclean : 0 ∉ h' := by
    intro hmem
    have := hhex 0 hmem
    revert this
    decide
  have hc0 : c ≠ 0 := by rcases hc with rfl | rfl | rfl | rfl <;> decide
  have hdigit : isdigit c = false := by rcases hc with rfl | rfl | rfl | rfl <;> decide
  have hnospace : ∀ d ∈ h', d ≠ 45 ∧ d ≠ 43 ∧ isspace d = false := by
    intro d hd
    obtain ⟨m, hm⟩ := Option.isSome_iff_exists.mp (hhex d hd)
    obtain ⟨hspace, h45, h43, -⟩ := hexValue_some hm
    exact ⟨h45, h43, hspace⟩
  have hplain : NumberText [] [] h' :=
    ⟨fun _ habs => absurd habs List.not_mem_nil, Or.inr (Or.inr rfl),
      fun _ d hd => hnospace d (List.mem_of_mem_head? hd)⟩
  have hread : ∀ x : Bytes, strtol (cstr (h' ++ c :: x)) =
      min (digitsValue h' : ℤ) (2 ^ 63 - 1) := by
    intro x
    have hcut : cstr (h' ++ c :: x) = h' ++ c :: cstr x := by
      have hjoin : h' ++ c :: x = (h' ++ [c]) ++ x := by simp
      rw [hjoin, cstr_append (by simp [hclean, Ne.symm hc0])]
      simp
    have hnonblank : ∃ d ∈ h', isspace d = false := by
      obtain ⟨d, h'', rfl⟩ := List.exists_cons_of_ne_nil hne
      exact ⟨d, List.mem_cons_self, (hnospace d List.mem_cons_self).2.2⟩
    rw [hcut, strtol_stop hdigit hnonblank]
    exact hplain.strtol_eq
  have hvalue := digitsValue_le_hexNumber h'
  have hlength : b.text.length = h'.length + (rest.length + 1) := by
    rw [htext, List.length_append, List.length_cons]
  have hpos := List.length_pos_iff.mpr hrest
  rw [htext, hread] at h
  refine ⟨h'.length + rest.length, by omega, ?_⟩
  have htake : b.text.take (h'.length + rest.length) = h' ++ c :: rest.take (rest.length - 1) := by
    rw [htext, List.take_length_add_append]
    obtain ⟨n, hn⟩ := Nat.exists_eq_succ_of_ne_zero (Nat.pos_iff_ne_zero.mp hpos)
    rw [hn, List.take_succ_cons, Nat.succ_sub_one]
  rw [htake, atoi, hread, i32_eq (by omega) (by omega)]
  omega

end ChunkedBody

namespace HttpResponse
variable (r : HttpResponse)

/-- Where the header has no length but the mark of chunks, this much of the body looks complete. -/
def Ends (y : Bytes) : Prop :=
  if contentLength (r.header ++ cstr y) = 0 then
    (strstr (r.header ++ cstr y) chunksEnd).isSome = true
  else contentLength (r.header ++ cstr y) ≤ y.length

/-- Of a body in chunks: no number is found behind a `Content-Length: `, unless in the header, and
the text of a last chunk stands at the very end and nowhere before. Of a body by its length any
beginning counts, as a number in it may be negative or pass an `int` before the next digit comes. -/
def EndsOnce : Prop :=
  match r.framing with
  | .length body => r.Ends body ∧ ∀ k < body.length, ¬ r.Ends (body.take k)
  | .chunked _ => (r.LengthInHeader ∨ longLength (cstr r.text) = 0) ∧
      strstr (cstr r.text) chunksEnd = some (r.text.length - chunksEnd.length)

/-- The inbox has room for the response, and the length the header seems to give is that of the
body; or the header seems to give none, and the body is empty or in chunks that seem to end where
they do. -/
def Fits : Prop := r.text.length ≤ ByteBuffer.defaultMaxSize ∧
  if contentLength r.header ≠ 0 then
    contentLength r.header = r.body.length ∨ contentLength r.header < 0 ∧ r.body = []
  else if isChunked r.header = true then r.EndsOnce
  else r.body = []

theorem lengthInHeader_of_ne_zero (h : contentLength r.header ≠ 0) : r.LengthInHeader := by
  cases hfind : strstr r.header lengthKey with
  | none => exact absurd (by simp [contentLength, lengthText, hfind]) h
  | some p =>
      refine ⟨p, hfind, ?_⟩
      by_contra hnone
      push Not at hnone
      have hblank : ∀ c ∈ r.header.drop (p + lengthKey.length), isspace c = true := by
        intro c hc
        exact Bool.eq_true_of_not_eq_false (hnone c hc)
      have hzero := (r.lengths_blank hfind hblank []).1
      rw [List.append_nil] at hzero
      rw [hzero] at h
      exact h (by decide)

theorem isChunked_header (h : isChunked r.header = true) (z : Bytes) :
    isChunked (r.header ++ z) = true := by
  have happend : ∀ n : Bytes, (strstr r.header n).isSome = true →
      (strstr (r.header ++ z) n).isSome = true := by
    intro n hn
    obtain ⟨p, hp⟩ := Option.isSome_iff_exists.mp hn
    rw [strstr_append hp]
    rfl
  rw [isChunked, Bool.or_eq_true] at h ⊢
  exact h.imp (happend _) (happend _)

theorem cstr_text : cstr r.text = r.header ++ cstr r.body := r.cstr_header r.body

/-- The part of the string that has arrived. -/
theorem cstr_take {m : Bytes} {k : ℕ} (hk : k ≤ (cstr m).length) :
    cstr (m.take k) = (cstr m).take k := by
  have htake : (cstr m).take k = m.take k := by
    have hstart := cstr_starts m
    rw [List.prefix_iff_eq_take] at hstart
    conv_lhs => rw [hstart, List.take_take, Nat.min_eq_left hk]
  rw [htake, cstr_eq_self]
  rw [← htake]
  exact fun hmem => cstr_not_mem m (List.mem_of_mem_take hmem)

section
variable {r} {b : ChunkedBody}

/-- Where the whole string has no number, no beginning has one. -/
theorem no_length (hzero : contentLength r.header = 0)
    (h : r.LengthInHeader ∨ longLength (cstr r.text) = 0) (k : ℕ) :
    contentLength (r.header ++ cstr (r.body.take k)) = 0 := by
  rcases h with hin | hlong
  · rw [contentLength_inHeader hin, hzero]
  · obtain ⟨y, hy⟩ := cstr_append_starts (r.body.take k) (r.body.drop k)
    rw [List.take_append_drop] at hy
    rw [cstr_text, hy, ← List.append_assoc] at hlong
    exact contentLength_zero (longLength_mono hlong)

/-- Where it has one in the chunks, a beginning looks complete. -/
theorem ends_early (hframing : r.framing = .chunked b) (hsize : r.body.length < 2 ^ 31)
    (hin : ¬ r.LengthInHeader) (hlong : longLength (cstr r.text) ≠ 0) :
    ∃ k < r.body.length, r.Ends (r.body.take k) := by
  have hbody : r.body = b.text := by rw [body, hframing]; rfl
  rw [cstr_text] at hlong
  cases hfind : strstr r.header lengthKey with
  | some p =>
      have hblank : ∀ c ∈ r.header.drop (p + lengthKey.length), isspace c = true := by
        intro c hc
        by_contra hspace
        exact hin ⟨p, hfind, c, hc, Bool.eq_false_of_not_eq_true hspace⟩
      rw [(r.lengths_blank hfind hblank _).2, hbody] at hlong
      rw [hbody] at hsize ⊢
      obtain ⟨k, hk, hne, hle⟩ := b.number_small hsize hlong
      refine ⟨k, hk, ?_⟩
      rw [Ends, (r.lengths_blank hfind hblank _).1, if_neg hne, List.length_take,
        Nat.min_eq_left (Nat.le_of_lt hk)]
      exact hle
  | none =>
      rw [(r.lengths_none hfind _).2] at hlong
      obtain ⟨k, c, hk, hc, hdigit, hne, hle⟩ := exists_small_length hlong
      have hlt : k < (cstr r.body).length := by
        by_contra hnot
        rw [List.getElem?_eq_none (by omega)] at hc
        cases hc
      have hlength := (cstr_starts r.body).length_le
      -- the last byte of the chunks is no digit
      have hproper : k + 1 < r.body.length := by
        by_contra hnot
        have hall : cstr r.body = r.body := (cstr_starts r.body).eq_of_length (by omega)
        obtain ⟨x, hx⟩ := b.text_end
        rw [hall] at hc hlt
        rw [hbody, hx] at hc hnot hlt
        rw [List.length_append, List.length_singleton] at hnot hlt
        rw [List.getElem?_append_right (by omega)] at hc
        have hlast : k - x.length = 0 := by omega
        rw [hlast] at hc
        obtain rfl : (10 : UInt8) = c := Option.some.inj hc
        exact absurd hdigit (by decide)
      refine ⟨k + 1, hproper, ?_⟩
      rw [Ends, cstr_take (by omega), (r.lengths_none hfind _).1, if_neg hne, List.length_take,
        Nat.min_eq_left (Nat.le_of_lt hproper)]
      omega

/-- Chunks seem to end where they do if the text of a last chunk is found at their end. -/
theorem ends_chunked_iff (hframing : r.framing = .chunked b) (hsize : r.body.length < 2 ^ 31)
    (hzero : contentLength r.header = 0) :
    (r.Ends r.body ∧ ∀ k < r.body.length, ¬ r.Ends (r.body.take k)) ↔
      (r.LengthInHeader ∨ longLength (cstr r.text) = 0) ∧
        strstr (cstr r.text) chunksEnd = some (r.text.length - chunksEnd.length) := by
  have hend : chunksEnd.length = 7 := rfl
  have htext : r.text.length = r.header.length + r.body.length := List.length_append
  have hcut := cstr_starts r.text
  have hwhole : r.body.take r.body.length = r.body := List.take_length
  constructor
  · rintro ⟨hends, hnot⟩
    have hno : r.LengthInHeader ∨ longLength (cstr r.text) = 0 := by
      by_contra hor
      rw [not_or] at hor
      obtain ⟨k, hk, hearly⟩ := ends_early hframing hsize hor.1 hor.2
      exact hnot k hk hearly
    refine ⟨hno, ?_⟩
    have hlast := no_length hzero hno r.body.length
    rw [hwhole] at hlast
    rw [Ends, if_pos hlast, ← cstr_text] at hends
    obtain ⟨q, hq⟩ := Option.isSome_iff_exists.mp hends
    have hfits := strstr_add_length_le hq
    have hlength := hcut.length_le
    -- an occurrence before the end would have been the end
    have hlate : r.text.length ≤ q + 7 := by
      by_contra hlt
      have hk : max (q + 7) r.header.length - r.header.length < r.body.length := by
        by_contra hge
        have hempty : r.body = [] := List.length_eq_zero_iff.mp (by omega)
        obtain ⟨x, hx⟩ := b.text_end
        rw [body, hframing] at hempty
        have hnil := hx.symm.trans hempty
        simp at hnil
      refine hnot _ hk ?_
      rw [Ends, if_pos (no_length hzero hno _)]
      have hstart : (r.header ++ cstr (r.body.take (max (q + 7) r.header.length -
          r.header.length))) <+: cstr r.text := by
        rw [cstr_text]
        obtain ⟨y, hy⟩ := cstr_append_starts
          (r.body.take (max (q + 7) r.header.length - r.header.length))
          (r.body.drop (max (q + 7) r.header.length - r.header.length))
        rw [List.take_append_drop] at hy
        rw [hy, ← List.append_assoc]
        exact List.prefix_append _ _
      have hclength : (cstr r.text).length = r.header.length + (cstr r.body).length := by
        rw [cstr_text, List.length_append]
      have hlong : q + chunksEnd.length ≤ (r.header ++ cstr (r.body.take
          (max (q + 7) r.header.length - r.header.length))).length := by
        rw [List.length_append, cstr_take (by omega), List.length_take]
        omega
      obtain ⟨z, hz⟩ := hstart
      rw [← hz] at hq
      rw [strstr_of_append hq hlong]
      rfl
    have hqe : q = r.text.length - chunksEnd.length := by omega
    rw [hq, hqe]
  · rintro ⟨hno, hfind⟩
    have hfits := strstr_add_length_le hfind
    have hlast := no_length hzero hno r.body.length
    rw [hwhole] at hlast
    refine ⟨?_, fun k hk hearly => ?_⟩
    · rw [Ends, if_pos hlast, ← cstr_text, hfind]
      rfl
    · rw [Ends, if_pos (no_length hzero hno k)] at hearly
      obtain ⟨q, hq⟩ := Option.isSome_iff_exists.mp hearly
      have hqfits := strstr_add_length_le hq
      obtain ⟨y, hy⟩ := cstr_append_starts (r.body.take k) (r.body.drop k)
      rw [List.take_append_drop] at hy
      have hmore := strstr_append hq y
      rw [List.append_assoc, ← hy, ← cstr_text, hfind, Option.some.injEq] at hmore
      have hshort := (cstr_starts (r.body.take k)).length_le
      rw [List.length_take] at hshort
      rw [List.length_append] at hqfits
      omega

end

/-- The answer is declared when the whole response has arrived, and not before, if what the code
takes for its length is its length. -/
theorem declares_iff_fits : AckReceiver.Declares r.text ↔ r.Fits := by
  by_cases hroom : r.text.length ≤ ByteBuffer.defaultMaxSize
  · have hlimit : ByteBuffer.defaultMaxSize < 2 ^ 31 := by decide
    have htext : r.text.length = r.header.length + r.body.length := List.length_append
    have hsize : ∀ k, (r.body.take k).length < 2 ^ 31 := by
      intro k
      rw [List.length_take]
      omega
    have hbody := r.recvFinish_body (y := r.body) (by omega)
    have hbefore := fun k => r.recvFinish_body (hsize k)
    rw [r.declares_body hroom, Fits, and_iff_right hroom]
    split_ifs with hlength hchunked
    · -- the length of the header decides
      have hin := r.lengthInHeader_of_ne_zero hlength
      simp only [contentLength_inHeader hin, if_neg hlength] at hbody hbefore
      simp only [← Bool.not_eq_true, hbody, hbefore]
      constructor
      · rintro ⟨hle, hnot⟩
        rcases Nat.eq_zero_or_pos r.body.length with hzero | hpos
        · exact Or.inr ⟨by omega, List.length_eq_zero_iff.mp hzero⟩
        · have := hnot (r.body.length - 1) (by omega)
          rw [List.length_take] at this
          exact Or.inl (by omega)
      · rintro (heq | ⟨hneg, hempty⟩)
        · refine ⟨by omega, fun k hk => ?_⟩
          rw [List.length_take]
          omega
        · refine ⟨by omega, fun k hk => ?_⟩
          rw [hempty] at hk
          exact absurd hk (Nat.not_lt_zero k)
    · -- the end of the chunks decides
      rw [not_not] at hlength
      have hends : (recvFinish (r.header ++ r.body) = true ∧
          ∀ k < r.body.length, recvFinish (r.header ++ r.body.take k) = false) ↔
            r.Ends r.body ∧ ∀ k < r.body.length, ¬ r.Ends (r.body.take k) := by
        simp only [← Bool.not_eq_true, hbody, hbefore, r.isChunked_header hchunked, true_imp_iff]
        rfl
      rw [hends, EndsOnce]
      cases hframing : r.framing with
      | length body =>
          have heq : r.body = body := by rw [HttpResponse.body, hframing]; rfl
          rw [heq]
      | chunked b => exact ends_chunked_iff hframing (by omega) hlength
    · -- the header is enough
      rw [not_not] at hlength
      have hheader : recvFinish (r.header ++ []) = true := by
        have hnil := r.recvFinish_body (y := []) (by decide)
        have hcstr : cstr [] = [] := rfl
        rw [hcstr, List.append_nil, if_pos hlength] at hnil
        rw [List.append_nil]
        exact hnil.mpr fun habs => absurd habs hchunked
      constructor
      · rintro ⟨-, hnot⟩
        by_contra hne
        have := hnot 0 (List.length_pos_iff.mpr hne)
        rw [List.take_zero, hheader] at this
        cases this
      · intro hempty
        rw [hempty]
        exact ⟨hheader, fun k hk => absurd hk (Nat.not_lt_zero k)⟩
  · refine iff_of_false (fun h => ?_) fun h => hroom h.1
    exact hroom ((AckReceiver.declares_iff r.text_ne).mp h).1

theorem trap_name : ascii "Transfer-Encoding" ≠ [] := by decide

theorem trap_name_clean : ∀ c ∈ ascii "Transfer-Encoding", c ≠ 0 ∧ c ≠ 10 ∧ c ≠ 13 ∧ c ≠ 58 := by
  simp [ascii]

theorem trap_value : ∀ c ∈ ascii " chunked", c ≠ 0 ∧ c ≠ 10 ∧ c ≠ 13 := by simp [ascii]

theorem trap_hex : ∀ c ∈ ascii "7", (hexValue c).isSome := by decide +kernel

theorem trap_size : ascii "7" ≠ [] ∧ hexNumber (ascii "7") = chunksEnd.length := by decide

theorem trap_last : ascii "0" ≠ [] ∧ ∀ c ∈ ascii "0", c = 48 := by simp [ascii]

theorem trap_status : ascii "HTTP/1.1 200 OK" ≠ [] ∧
    ∀ c ∈ ascii "HTTP/1.1 200 OK", c ≠ 0 ∧ c ≠ 10 ∧ c ≠ 13 := by simp [ascii]

def trapField : HttpField where
  name := ascii "Transfer-Encoding"
  value := ascii " chunked"
  name_ne := trap_name
  name_clean := trap_name_clean
  value_clean := trap_value

theorem trap_chunk : chunksEnd ≠ [] := by decide

theorem not_mem_nil_clean : ∀ c ∈ ([] : Bytes), c ≠ 0 ∧ c ≠ 10 ∧ c ≠ 13 := by simp

theorem nil_start : ∀ c, ([] : Bytes).head? = some c → c = 59 ∨ c = 32 ∨ c = 9 := by simp

def trapChunk : HttpChunk where
  size := ascii "7"
  ext := []
  data := chunksEnd
  size_ne := trap_size.1
  size_hex := trap_hex
  size_eq := trap_size.2
  data_ne := trap_chunk
  ext_start := nil_start
  ext_clean := not_mem_nil_clean

def trapBody : ChunkedBody where
  chunks := [trapChunk]
  last := ascii "0"
  ext := []
  trailers := []
  last_ne := trap_last.1
  last_zero := trap_last.2
  ext_start := nil_start
  ext_clean := not_mem_nil_clean

theorem trap_announced : (Framing.chunked trapBody).AnnouncedBy [trapField] := by
  have hname : trapField.Named "transfer-encoding" := by
    unfold HttpField.Named
    decide
  have hother : ¬ trapField.Named "content-length" := by
    unfold HttpField.Named
    decide
  have hvalue : trapField.trimmed.map toLower = ascii "chunked" := by decide
  refine ⟨⟨trapField, List.mem_singleton_self _, hname⟩, fun f hf _ => ?_, fun f hf => ?_⟩
  · rw [List.mem_singleton.mp hf]
    exact hvalue
  · rw [List.mem_singleton.mp hf]
    exact hother

/-- One chunk, whose seven bytes are those of an end. -/
def trap : HttpResponse where
  statusLine := ascii "HTTP/1.1 200 OK"
  fields := [trapField]
  framing := .chunked trapBody
  statusLine_ne := trap_status.1
  statusLine_clean := trap_status.2
  announced := trap_announced

/-- The answer is taken for complete in the middle of the chunk. -/
theorem declares_trap : ¬ ∀ r : HttpResponse, AckReceiver.Declares r.text := by
  intro h
  have hbefore := ((AckReceiver.declares_iff trap.text_ne).mp (h trap)).2.2
  have hlength : 57 < trap.text.length := by decide
  have hearly : recvFinish (trap.text.take 57) = true := by decide
  rw [hbefore 57 hlength] at hearly
  cases hearly

end HttpResponse
end CoreLooper.Http
