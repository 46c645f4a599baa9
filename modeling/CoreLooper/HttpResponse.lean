import CoreLooper.HttpParams
import CoreLooper.HttpPostAck

/-!
# Responses

A response has a header and a body, whose end is told by a `Content-Length` or by chunks. Names of
fields are written in any case, with blanks around the values.
-/
namespace CoreLooper.Http
open CStrings

section
variable {s t : Bytes}

theorem foldl_digits_le (t : Bytes) (a : ℕ) :
    a ≤ t.foldl (fun a c => a * 10 + (c.toNat - 48)) a := by
  induction t generalizing a with
  | nil => exact Nat.le_refl a
  | cons c t ih =>
      refine le_trans ?_ (ih (a * 10 + (c.toNat - 48)))
      omega

/-- More text behind it does not make a number smaller. -/
theorem digitsValue_mono (h : s <+: t) : digitsValue s ≤ digitsValue t := by
  obtain ⟨x, rfl⟩ := h
  unfold digitsValue
  rw [List.takeWhile_append]
  split_ifs
  · rw [List.foldl_append, List.takeWhile_eq_self_iff.mpr]
    · exact foldl_digits_le _ _
    · intro c hc
      have hall : s.takeWhile isdigit = s :=
        (List.takeWhile_prefix isdigit).eq_of_length (by assumption)
      rw [← hall] at hc
      exact List.mem_takeWhile_imp hc
  · exact Nat.le_refl _

/-- With the first digit that is not zero a number has one digit. -/
theorem digitsValue_first (h : digitsValue t ≠ 0) : ∃ k c, t[k]? = some c ∧ isdigit c = true ∧
    1 ≤ digitsValue (t.take (k + 1)) ∧ digitsValue (t.take (k + 1)) ≤ 9 := by
  induction t with
  | nil => exact absurd rfl h
  | cons c t ih =>
      by_cases hc : isdigit c = true
      · have hvalue : ∀ u : Bytes, digitsValue (c :: u) =
            (u.takeWhile isdigit).foldl (fun a c => a * 10 + (c.toNat - 48)) (c.toNat - 48) := by
          intro u
          simp [digitsValue, hc]
        have hbounds : 48 ≤ c.toNat ∧ c.toNat ≤ 57 := by
          simp only [isdigit, UInt8.le_iff_toNat_le, decide_eq_true_eq] at hc
          exact hc
        by_cases hzero : c.toNat = 48
        · have hskip : ∀ u : Bytes, digitsValue (c :: u) = digitsValue u := by
            intro u
            rw [hvalue, hzero]
            rfl
          rw [hskip] at h
          obtain ⟨k, d, hd, hdigit, hone, hnine⟩ := ih h
          refine ⟨k + 1, d, hd, hdigit, ?_, ?_⟩
          · rw [List.take_succ_cons, hskip]
            exact hone
          · rw [List.take_succ_cons, hskip]
            exact hnine
        · refine ⟨0, c, rfl, hc, ?_, ?_⟩
          · rw [List.take_succ_cons, List.take_zero, hvalue]
            show 1 ≤ c.toNat - 48
            omega
          · rw [List.take_succ_cons, List.take_zero, hvalue]
            show c.toNat - 48 ≤ 9
            omega
      · exact absurd (by simp [digitsValue, hc]) h

/-- A text of a number: blanks, a sign or none, and what follows. -/
structure NumberText (v sign d : Bytes) : Prop where
  blank : ∀ c ∈ v, isspace c = true
  sign_eq : sign = [45] ∨ sign = [43] ∨ sign = []
  unsigned : sign = [] → ∀ c, d.head? = some c → c ≠ 45 ∧ c ≠ 43 ∧ isspace c = false

theorem exists_numberText (s : Bytes) : ∃ v sign d, s = v ++ (sign ++ d) ∧ NumberText v sign d := by
  have hsplit := List.takeWhile_append_dropWhile (p := isspace) (l := s)
  have hblank : ∀ c ∈ s.takeWhile isspace, isspace c = true := fun c hc => List.mem_takeWhile_imp hc
  have hhead : ∀ c, (s.dropWhile isspace).head? = some c → isspace c = false := by
    intro c hc
    have := List.head?_dropWhile_not isspace s
    rw [hc] at this
    simpa using this
  generalize s.dropWhile isspace = w at hsplit hhead
  generalize s.takeWhile isspace = v at hsplit hblank
  have hsign : ∀ c ∈ ([45, 43] : Bytes), ([c] : Bytes) ≠ [] := by simp
  by_cases hminus : w.head? = some 45
  · obtain ⟨d, rfl⟩ := List.head?_eq_some_iff.mp hminus
    exact ⟨v, [45], d, hsplit.symm, hblank, Or.inl rfl, fun h => absurd h (hsign 45 (by simp))⟩
  · by_cases hplus : w.head? = some 43
    · obtain ⟨d, rfl⟩ := List.head?_eq_some_iff.mp hplus
      exact ⟨v, [43], d, hsplit.symm, hblank, Or.inr (Or.inl rfl),
        fun h => absurd h (hsign 43 (by simp))⟩
    · refine ⟨v, [], w, hsplit.symm, hblank, Or.inr (Or.inr rfl),
        fun _ c hc => ⟨?_, ?_, hhead c hc⟩⟩
      · rintro rfl
        exact hminus hc
      · rintro rfl
        exact hplus hc

theorem NumberText.strtol_eq {v sign d : Bytes} (h : NumberText v sign d) :
    strtol (v ++ (sign ++ d)) = if sign = [45] then max (-(digitsValue d : ℤ)) (-2 ^ 63)
      else min (digitsValue d : ℤ) (2 ^ 63 - 1) := by
  have h45 : isspace 45 = false := by decide
  have h43 : isspace 43 = false := by decide
  rw [strtol_space h.blank]
  rcases h.sign_eq with rfl | rfl | rfl
  · simp [strtol, h45]
  · simp [strtol, h43]
  · cases d with
    | nil => decide
    | cons c d =>
        obtain ⟨hminus, hplus, hspace⟩ := h.unsigned rfl c rfl
        simp [strtol, hspace, hminus, hplus]

theorem NumberText.ne_zero_iff {v sign d : Bytes} (h : NumberText v sign d) :
    strtol (v ++ (sign ++ d)) ≠ 0 ↔ digitsValue d ≠ 0 := by
  rw [h.strtol_eq]
  split_ifs <;> omega

/-- The number stays one when the text is cut or goes on behind its first digit. -/
theorem NumberText.of_head {v sign d e : Bytes} (h : NumberText v sign d)
    (hhead : e.head? = d.head?) : NumberText v sign e :=
  ⟨h.blank, h.sign_eq, fun hnil c hc => h.unsigned hnil c (by rw [← hhead, hc])⟩

/-- A text that reads as 0 does so from its start on. -/
theorem strtol_zero_mono (h : s <+: t) (ht : strtol t = 0) : strtol s = 0 := by
  by_contra hs
  obtain ⟨v, sign, d, rfl, hnumber⟩ := exists_numberText s
  obtain ⟨x, rfl⟩ := h
  have hd := hnumber.ne_zero_iff.mp hs
  have hne : d ≠ [] := by
    rintro rfl
    exact hd rfl
  have hmore : NumberText v sign (d ++ x) :=
    hnumber.of_head (List.head?_append_of_ne_nil d hne)
  rw [List.append_assoc, List.append_assoc] at ht
  refine absurd ht (hmore.ne_zero_iff.mpr ?_)
  have := digitsValue_mono (List.prefix_append d x)
  omega

/-- Up to its first digit that is not 0 a number has one digit. -/
theorem atoi_first (h : strtol s ≠ 0) : ∃ k c, s[k]? = some c ∧ isdigit c = true ∧
    atoi (s.take (k + 1)) ≠ 0 ∧ -9 ≤ atoi (s.take (k + 1)) ∧ atoi (s.take (k + 1)) ≤ 9 := by
  obtain ⟨v, sign, d, rfl, hnumber⟩ := exists_numberText s
  obtain ⟨k, c, hc, hdigit, hone, hnine⟩ := digitsValue_first (hnumber.ne_zero_iff.mp h)
  have htake : (v ++ (sign ++ d)).take (v.length + (sign.length + k) + 1) =
      v ++ (sign ++ d.take (k + 1)) := by
    rw [Nat.add_assoc, List.take_length_add_append, Nat.add_assoc, List.take_length_add_append]
  have hcut : NumberText v sign (d.take (k + 1)) := hnumber.of_head (by rw [List.head?_take]; simp)
  have hvalue := hcut.strtol_eq
  refine ⟨v.length + (sign.length + k), c, ?_, hdigit, ?_⟩
  · rw [List.getElem?_append_right (by omega), List.getElem?_append_right (by omega)]
    rw [← hc]
    congr 1
    omega
  · rw [htake, atoi, hvalue]
    split_ifs
    · rw [i32_eq (by omega) (by omega)]
      omega
    · rw [i32_eq (by omega) (by omega)]
      omega

end

/-- The value of hexadecimal digits. -/
def hexNumber (h : Bytes) : ℕ := h.foldl (fun a c => a * 16 + (hexValue c).getD 0) 0

theorem hexValue_digit {c : UInt8} (hc : isdigit c = true) : hexValue c = some (c.toNat - 48) := by
  have hdigit : 48 ≤ c ∧ c ≤ 57 := of_decide_eq_true hc
  rw [hexValue, if_pos hdigit]

/-- Read as a decimal number the text is not larger. -/
theorem digitsValue_le_hexNumber (h : Bytes) : digitsValue h ≤ hexNumber h := by
  have hmono : ∀ (h : Bytes) (a : ℕ), a ≤ h.foldl (fun a c => a * 16 + (hexValue c).getD 0) a := by
    intro h
    induction h with
    | nil => exact fun a => Nat.le_refl a
    | cons c h ih => exact fun a => le_trans (by omega) (ih (a * 16 + (hexValue c).getD 0))
  have hfold : ∀ (h : Bytes) (a b : ℕ), a ≤ b →
      (h.takeWhile isdigit).foldl (fun a c => a * 10 + (c.toNat - 48)) a ≤
        h.foldl (fun a c => a * 16 + (hexValue c).getD 0) b := by
    intro h
    induction h with
    | nil => exact fun a b hab => hab
    | cons c h ih =>
        intro a b hab
        by_cases hc : isdigit c = true
        · rw [List.takeWhile_cons_of_pos hc, List.foldl_cons, List.foldl_cons, hexValue_digit hc,
            Option.getD_some]
          exact ih _ _ (by omega)
        · rw [List.takeWhile_cons_of_neg hc, List.foldl_nil]
          exact le_trans hab (hmono (c :: h) b)
  exact hfold h 0 0 (Nat.le_refl 0)

/-- A line of the header: a name, a colon, and the value with blanks around it. -/
structure HttpField where
  name : Bytes
  value : Bytes
  name_ne : name ≠ []
  name_clean : ∀ c ∈ name, c ≠ 0 ∧ c ≠ 10 ∧ c ≠ 13 ∧ c ≠ 58
  value_clean : ∀ c ∈ value, c ≠ 0 ∧ c ≠ 10 ∧ c ≠ 13

namespace HttpField

def line (f : HttpField) : Bytes := f.name ++ 58 :: f.value

/-- The name is that, in any case. -/
def Named (f : HttpField) (name : String) : Prop := f.name.map toLower = ascii name

/-- The value without the blanks. -/
def trimmed (f : HttpField) : Bytes :=
  ((f.value.dropWhile isspace).reverse.dropWhile isspace).reverse

theorem line_clean (f : HttpField) : f.line ≠ [] ∧ 0 ∉ f.line ∧ 13 ∉ f.line := by
  refine ⟨by simp [line], ?_, ?_⟩
  · intro hmem
    rw [line, List.mem_append, List.mem_cons] at hmem
    rcases hmem with hname | habs | hvalue
    · exact (f.name_clean 0 hname).1 rfl
    · exact absurd habs (by decide)
    · exact (f.value_clean 0 hvalue).1 rfl
  · intro hmem
    rw [line, List.mem_append, List.mem_cons] at hmem
    rcases hmem with hname | habs | hvalue
    · exact (f.name_clean 13 hname).2.2.1 rfl
    · exact absurd habs (by decide)
    · exact (f.value_clean 13 hvalue).2.2 rfl

end HttpField

/-- A chunk with its size, and what else stands on the line of the size. -/
structure HttpChunk where
  size : Bytes
  ext : Bytes
  data : Bytes
  size_ne : size ≠ []
  size_hex : ∀ c ∈ size, (hexValue c).isSome
  size_eq : hexNumber size = data.length
  data_ne : data ≠ []
  ext_start : ∀ c, ext.head? = some c → c = 59 ∨ c = 32 ∨ c = 9
  ext_clean : ∀ c ∈ ext, c ≠ 0 ∧ c ≠ 10 ∧ c ≠ 13

def HttpChunk.text (k : HttpChunk) : Bytes := k.size ++ k.ext ++ [13, 10] ++ k.data ++ [13, 10]

/-- Chunks, the last of which is empty, and further fields. -/
structure ChunkedBody where
  chunks : List HttpChunk
  last : Bytes
  ext : Bytes
  trailers : List HttpField
  last_ne : last ≠ []
  last_zero : ∀ c ∈ last, c = 48
  ext_start : ∀ c, ext.head? = some c → c = 59 ∨ c = 32 ∨ c = 9
  ext_clean : ∀ c ∈ ext, c ≠ 0 ∧ c ≠ 10 ∧ c ≠ 13

def ChunkedBody.text (b : ChunkedBody) : Bytes :=
  b.chunks.flatMap HttpChunk.text ++ (b.last ++ b.ext ++
    (b.trailers.map HttpField.line).flatMap nextLine ++ CRLF2)

inductive Framing where
  | length (body : Bytes)
  | chunked (body : ChunkedBody)

def Framing.text : Framing → Bytes
  | .length body => body
  | .chunked body => body.text

/-- The fields say how the body is framed. -/
def Framing.AnnouncedBy (fields : List HttpField) : Framing → Prop
  | .length body =>
      (∃ f ∈ fields, f.Named "content-length") ∧
        (∀ f ∈ fields, f.Named "content-length" → f.trimmed ≠ [] ∧
          (∀ c ∈ f.trimmed, isdigit c = true) ∧ digitsValue f.trimmed = body.length) ∧
        ∀ f ∈ fields, ¬ f.Named "transfer-encoding"
  | .chunked _ =>
      (∃ f ∈ fields, f.Named "transfer-encoding") ∧
        (∀ f ∈ fields, f.Named "transfer-encoding" → f.trimmed.map toLower = ascii "chunked") ∧
        ∀ f ∈ fields, ¬ f.Named "content-length"

structure HttpResponse where
  statusLine : Bytes
  fields : List HttpField
  framing : Framing
  statusLine_ne : statusLine ≠ []
  statusLine_clean : ∀ c ∈ statusLine, c ≠ 0 ∧ c ≠ 10 ∧ c ≠ 13
  announced : framing.AnnouncedBy fields

namespace HttpResponse
variable (r : HttpResponse)

/-- The status line and the fields. -/
def lines : Bytes := r.statusLine ++ (r.fields.map HttpField.line).flatMap nextLine

def header : Bytes := r.lines ++ CRLF2

def body : Bytes := r.framing.text

def text : Bytes := r.header ++ r.body

theorem fields_clean : ∀ line ∈ r.fields.map HttpField.line, line ≠ [] ∧ 0 ∉ line ∧ 13 ∉ line := by
  intro line hline
  obtain ⟨f, -, rfl⟩ := List.mem_map.mp hline
  exact f.line_clean

theorem header_no_null : 0 ∉ r.header := by
  have hend : (0 : UInt8) ∉ CRLF2 := by decide
  have hnext : (0 : UInt8) ∉ ([13, 10] : Bytes) := by decide
  rw [header, lines, List.mem_append, List.mem_append, not_or, not_or]
  refine ⟨⟨fun hmem => (r.statusLine_clean 0 hmem).1 rfl, fun hmem => ?_⟩, hend⟩
  obtain ⟨line, hline, hin⟩ := List.mem_flatMap.mp hmem
  rcases List.mem_append.mp hin with habs | hin
  · exact hnext habs
  · exact (r.fields_clean line hline).2.1 hin

/-- The first empty line ends the header. -/
theorem header_end (x : Bytes) : strstr (r.header ++ x) CRLF2 = some r.lines.length := by
  rw [header, lines]
  apply strstr_lines
  · exact fun hmem => (r.statusLine_clean 13 hmem).2.2 rfl
  · exact fun line hline => ⟨(r.fields_clean line hline).1, (r.fields_clean line hline).2.2⟩

theorem header_length : r.header.length = r.lines.length + 4 := by
  rw [header, List.length_append]
  rfl

theorem cstr_header (x : Bytes) : cstr (r.header ++ x) = r.header ++ cstr x :=
  cstr_append r.header_no_null x

/-- Until the header has come nothing is complete. -/
theorem recvFinish_header {k : ℕ} (hk : k < r.header.length) :
    recvFinish (r.text.take k) = false := by
  have htake : r.text.take k = r.header.take k := List.take_append_of_le_length (Nat.le_of_lt hk)
  have hclean : 0 ∉ r.header.take k := fun hmem => r.header_no_null (List.mem_of_mem_take hmem)
  rw [htake, recvFinish, cstr_eq_self hclean]
  cases hend : strstr (r.header.take k) CRLF2 with
  | none => rfl
  | some p =>
      have hwhole := strstr_append hend (r.header.drop k)
      have hlast := r.header_end []
      rw [List.append_nil] at hlast
      rw [List.take_append_drop, hlast, Option.some.injEq] at hwhole
      have hfits := strstr_add_length_le hend
      have hsize : CRLF2.length = 4 := rfl
      have := r.header_length
      rw [List.length_take] at hfits
      omega

/-- Behind the header, the number at the first `Content-Length: ` decides, and where there is none
the end of the chunks. -/
theorem recvFinish_body {y : Bytes} (hy : y.length < 2 ^ 31) :
    recvFinish (r.header ++ y) = true ↔
      if contentLength (r.header ++ cstr y) = 0 then
        isChunked (r.header ++ cstr y) = true →
          (strstr (r.header ++ cstr y) chunksEnd).isSome = true
      else contentLength (r.header ++ cstr y) ≤ y.length := by
  have hbytes : i32 (((r.header ++ y).length : ℤ) - ((r.lines.length + CRLF2.length : ℕ) : ℤ)) =
      y.length := by
    have hsize : CRLF2.length = 4 := rfl
    have := r.header_length
    rw [List.length_append, i32_eq (by omega) (by omega)]
    omega
  rw [recvFinish, r.cstr_header, r.header_end]
  dsimp only
  rw [hbytes]
  split_ifs with hzero hchunked
  · exact ⟨fun h _ => h, fun h => h hchunked⟩
  · exact iff_of_true rfl fun h => absurd h hchunked
  · rw [decide_eq_true_eq]

theorem text_ne : r.text ≠ [] := by
  intro hnil
  have := congrArg List.length hnil
  rw [text, List.length_append, r.header_length, List.length_nil] at this
  omega

/-- The answer is declared in time if the whole body is enough and less is not. -/
theorem declares_body (hfits : r.text.length ≤ ByteBuffer.defaultMaxSize) :
    AckReceiver.Declares r.text ↔ recvFinish (r.header ++ r.body) = true ∧
      ∀ k < r.body.length, recvFinish (r.header ++ r.body.take k) = false := by
  have hlength : r.text.length = r.header.length + r.body.length := List.length_append
  rw [AckReceiver.declares_iff r.text_ne]
  constructor
  · rintro ⟨-, hfinish, hbefore⟩
    refine ⟨hfinish, fun k hk => ?_⟩
    have := hbefore (r.header.length + k) (by omega)
    rwa [text, List.take_length_add_append] at this
  · rintro ⟨hfinish, hbefore⟩
    refine ⟨hfits, hfinish, fun k hk => ?_⟩
    by_cases hheader : k < r.header.length
    · exact r.recvFinish_header hheader
    · obtain ⟨j, rfl⟩ := Nat.exists_eq_add_of_le (Nat.le_of_not_lt hheader)
      rw [text, List.take_length_add_append]
      exact hbefore j (by omega)

end HttpResponse
end CoreLooper.Http
