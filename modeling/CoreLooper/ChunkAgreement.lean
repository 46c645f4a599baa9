import CoreLooper.ChunkDecoders
import CoreLooper.HttpAckEnd
import CoreLooper.TextLines

/-!
# Where the decoders of chunked responses agree

`HttpChunkParser` and `HttpAckParser` return the data of the first chunk, `HttpChunker` that of the
chunks in front of the first one with a null byte in it. So the three give the whole body only if it
is one chunk without a null byte.
-/
namespace CoreLooper.Http
open CStrings

/-- What may stand behind the digits of a size. -/
def EndsSize (rest : Bytes) : Prop := ∀ c, rest.head? = some c → c = 59 ∨ c = 32 ∨ c = 9 ∨ c = 13

theorem EndsSize.no_digit {rest : Bytes} (h : EndsSize rest) {c : UInt8}
    (hc : rest.head? = some c) : hexValue c = none ∧ c ≠ 120 ∧ c ≠ 88 := by
  rcases h c hc with rfl | rfl | rfl | rfl <;> decide

theorem hexValue_plain {c : UInt8} (hc : (hexValue c).isSome) :
    isspace c = false ∧ c ≠ 43 ∧ c ≠ 45 ∧ c ≠ 120 ∧ c ≠ 88 ∧ c ≠ 0 ∧ c ≠ 13 := by
  revert c
  decide +kernel

theorem hexText_digits {size rest : Bytes} (hne : size ≠ [])
    (hhex : ∀ c ∈ size, (hexValue c).isSome) (hrest : EndsSize rest) :
    hexText (size ++ rest) = (size, 0) := by
  have htake : (size ++ rest).takeWhile (fun c => (hexValue c).isSome) = size := by
    rw [List.takeWhile_append_of_pos hhex]
    cases rest with
    | nil => simp
    | cons c rest =>
        rw [List.takeWhile_cons_of_neg (by rw [(hrest.no_digit rfl).1]; simp), List.append_nil]
  have hprefix : ∀ x c t, size ++ rest = 48 :: x :: c :: t → x ≠ 120 ∧ x ≠ 88 := by
    intro x c t heq
    match size, hne with
    | [d], _ => exact (hrest.no_digit (c := x) (by
        rw [List.singleton_append, List.cons.injEq] at heq
        rw [heq.2]
        rfl)).2
    | d :: d' :: size, _ =>
        rw [List.cons_append, List.cons_append, List.cons.injEq, List.cons.injEq] at heq
        rw [← heq.2.1]
        obtain ⟨-, -, -, h1, h2, -⟩ := hexValue_plain (hhex d' (by simp))
        exact ⟨h1, h2⟩
  unfold hexText
  split
  · rename_i x c t heq
    obtain ⟨h1, h2⟩ := hprefix x c t heq
    rw [if_neg fun h => h.1.elim h1 h2, htake]
  · rw [htake]

/-- A size is read up to its end. -/
theorem strtolHex_size {size rest : Bytes} (hne : size ≠ [])
    (hhex : ∀ c ∈ size, (hexValue c).isSome) (hrest : EndsSize rest)
    (hfits : hexNumber size < 2 ^ 63) :
    strtolHex (size ++ rest) = ((hexNumber size : ℤ), size.length) := by
  obtain ⟨d, size', rfl⟩ := List.exists_cons_of_ne_nil hne
  obtain ⟨hspace, hplus, hminus, -⟩ := hexValue_plain (hhex d List.mem_cons_self)
  have hskip : (d :: size' ++ rest).dropWhile isspace = d :: size' ++ rest := by
    rw [List.cons_append, List.dropWhile_cons_of_neg (by rw [hspace]; simp)]
  have hsign : (d :: size' ++ rest).head?.filter (fun c => c = 43 ∨ c = 45) = none := by
    simp [Option.filter, hplus, hminus]
  have htext := hexText_digits hne hhex hrest
  unfold strtolHex
  simp only [hskip, hsign, Option.toList_none, List.length_nil, List.drop_zero, htext]
  rw [if_neg hne, if_neg (by simp), min_eq_left (by omega)]
  congr 1
  omega

namespace HttpChunk
variable (k : HttpChunk)

/-- The line of the size. -/
def line : Bytes := k.size ++ k.ext ++ [13, 10]

theorem text_eq : k.text = k.line ++ (k.data ++ [13, 10]) := by
  simp only [text, line, List.append_assoc]

theorem size_clean : ∀ c ∈ k.size ++ k.ext, c ≠ 0 ∧ c ≠ 13 := by
  intro c hc
  rcases List.mem_append.mp hc with hc | hc
  · exact (hexValue_plain (k.size_hex c hc)).2.2.2.2.2
  · exact ⟨(k.ext_clean c hc).1, (k.ext_clean c hc).2.2⟩

theorem line_no_null : 0 ∉ k.line := by
  intro hmem
  rcases List.mem_append.mp hmem with hmem | hmem
  · exact (k.size_clean 0 hmem).1 rfl
  · revert hmem
    decide

theorem ext_ends (x : Bytes) : EndsSize (k.ext ++ [13, 10] ++ x) := by
  intro c hc
  cases hext : k.ext with
  | nil =>
      rw [hext] at hc
      exact Or.inr (Or.inr (Or.inr (Option.some.inj hc).symm))
  | cons e ext =>
      rw [hext] at hc
      have hstart := k.ext_start c (by rw [hext]; exact hc)
      tauto

theorem strtolHex_line (hfits : k.data.length < 2 ^ 63) (x : Bytes) :
    strtolHex (k.line ++ x) = ((k.data.length : ℤ), k.size.length) := by
  have hjoin : k.line ++ x = k.size ++ (k.ext ++ [13, 10] ++ x) := by
    simp only [line, List.append_assoc]
  rw [hjoin, strtolHex_size k.size_ne k.size_hex (k.ext_ends x) (k.size_eq ▸ hfits), k.size_eq]

end HttpChunk

/-- The last chunk is empty. -/
theorem ChunkedBody.strtolHex_last (b : ChunkedBody) (x : Bytes) :
    (strtolHex (b.last ++ (b.ext ++ 13 :: x))).1 = 0 := by
  have hzero : ∀ (l : Bytes) (a : ℕ), (∀ c ∈ l, c = 48) →
      l.foldl (fun a c => a * 16 + (hexValue c).getD 0) a = a * 16 ^ l.length := by
    intro l
    induction l with
    | nil => exact fun a _ => by simp
    | cons c l ih =>
        intro a hl
        rw [List.foldl_cons, hl c List.mem_cons_self, ih _ fun d hd => hl d
          (List.mem_cons_of_mem c hd), List.length_cons, pow_succ]
        have hvalue : (hexValue 48).getD 0 = 0 := by decide
        rw [hvalue]
        ring
  have hvalue : hexNumber b.last = 0 := by rw [hexNumber, hzero b.last 0 b.last_zero, Nat.zero_mul]
  rw [strtolHex_size b.last_ne (fun c hc => by rw [b.last_zero c hc]; decide) ?_
    (by rw [hvalue]; decide), hvalue]
  · rfl
  · intro c hc
    cases hext : b.ext with
    | nil =>
        rw [hext] at hc
        exact Or.inr (Or.inr (Or.inr (Option.some.inj hc).symm))
    | cons e ext =>
        rw [hext] at hc
        have hstart := b.ext_start c (by rw [hext]; exact hc)
        tauto

/-- The data of the chunks in front of the first one with a null byte. -/
def ChunkedBody.untilNull (b : ChunkedBody) : Bytes :=
  (b.chunks.takeWhile fun k => 0 ∉ k.data).flatMap HttpChunk.data

theorem cstr_cstr (m : Bytes) : cstr (cstr m) = cstr m := cstr_eq_self (cstr_not_mem m)

theorem chunkerLoop_stop {text tail : Bytes} {fuel sz : ℕ} {ack : Bytes} (hsz : sz ≤ text.length)
    (htext : text.drop sz = cstr tail) (hzero : (strtolHex (cstr tail)).1 ≤ 0) :
    chunkerLoop text (fuel + 1) sz ack = some ack := by
  have hread : readAt text sz = cstr tail := by rw [readAt, htext, cstr_cstr]
  rw [chunkerLoop, if_neg (Nat.not_lt.mpr hsz), hread]
  cases strstr (cstr tail) [13, 10] with
  | none => rfl
  | some pos => simp only [if_pos hzero]

/-- From the start of a chunk on, the loop takes in the data until a null byte comes. -/
theorem chunkerLoop_chunks {tail : Bytes} (hzero : (strtolHex (cstr tail)).1 ≤ 0)
    {chunks : List HttpChunk} (hfits : ∀ k ∈ chunks, k.data.length < 2 ^ 63) {text : Bytes}
    {fuel sz : ℕ} {ack : Bytes} (hsz : sz ≤ text.length) (hfuel : text.length - sz < fuel)
    (htext : text.drop sz = cstr (chunks.flatMap HttpChunk.text ++ tail)) :
    chunkerLoop text fuel sz ack =
      some (ack ++ (chunks.takeWhile fun k => 0 ∉ k.data).flatMap HttpChunk.data) := by
  induction chunks generalizing fuel sz ack with
  | nil =>
      obtain ⟨fuel, rfl⟩ := Nat.exists_eq_add_of_lt hfuel
      rw [List.takeWhile_nil, List.flatMap_nil, List.append_nil]
      exact chunkerLoop_stop hsz htext hzero
  | cons k chunks ih =>
      obtain ⟨fuel, rfl⟩ : ∃ n, fuel = n + 1 := ⟨fuel - 1, by omega⟩
      generalize hmore : chunks.flatMap HttpChunk.text ++ tail = more at *
      have hall : (k :: chunks).flatMap HttpChunk.text ++ tail =
          k.line ++ (k.data ++ ([13, 10] ++ more)) := by
        rw [List.flatMap_cons, List.append_assoc, hmore, k.text_eq]
        simp only [List.append_assoc]
      rw [hall, cstr_append k.line_no_null] at htext
      generalize hw : cstr (k.data ++ ([13, 10] ++ more)) = w at *
      have hread : readAt text sz = k.line ++ w := by
        rw [readAt, htext, cstr_append k.line_no_null, ← hw, cstr_cstr]
      have hend : strstr (k.line ++ w) [13, 10] = some (k.size ++ k.ext).length := by
        have hno : 13 ∉ k.size ++ k.ext := fun hmem => (k.size_clean 13 hmem).2 rfl
        rw [HttpChunk.line, List.append_assoc, strstr_skip hno,
          strstr_here (List.prefix_append _ _)]
        rfl
      have hlen : k.line.length = (k.size ++ k.ext).length + 2 := List.length_append
      have hpos : 0 < k.data.length := List.length_pos_iff.mpr k.data_ne
      have hrest : text.length - sz = k.line.length + w.length := by
        rw [← List.length_drop, htext, List.length_append]
      have hdrop : text.drop (sz + (k.size ++ k.ext).length + 2) = w := by
        rw [Nat.add_assoc, ← hlen, ← List.drop_drop, htext, List.drop_left]
      rw [chunkerLoop, if_neg (Nat.not_lt.mpr hsz), hread, hend]
      dsimp only
      rw [k.strtolHex_line (hfits k List.mem_cons_self), if_neg (by omega), Int.toNat_natCast]
      by_cases hnull : 0 ∈ k.data
      · -- the text ends in the chunk
        have hshort : w.length < k.data.length := by
          rw [← hw, ByteBuffer.cstr_append_of_mem hnull]
          have hle := (cstr_starts k.data).length_le
          refine lt_of_le_of_ne hle fun heq => cstr_not_mem k.data ?_
          rwa [(cstr_starts k.data).eq_of_length heq]
        rw [if_pos (by omega), List.takeWhile_cons_of_neg (by simpa using hnull),
          List.flatMap_nil, List.append_nil]
      · have hw' : w = k.data ++ ([13, 10] ++ cstr more) := by
          rw [← hw, cstr_append hnull, cstr_append (by decide)]
        have hwlen : w.length = k.data.length + (2 + (cstr more).length) := by
          rw [hw', List.length_append, List.length_append]
          rfl
        rw [if_neg (by omega), hdrop, List.takeWhile_cons_of_pos (by simpa using hnull),
          List.flatMap_cons, ← List.append_assoc]
        have htake : w.take k.data.length = k.data := by rw [hw', List.take_left]
        rw [htake]
        refine ih (fun k' hk' => hfits k' (List.mem_cons_of_mem k hk')) (by omega) (by omega) ?_
        rw [← hmore] at hw'
        rw [Nat.add_assoc, ← List.drop_drop, hdrop, hw', ← List.append_assoc,
          List.drop_left' (by rw [List.length_append]; rfl), ← hmore]

theorem ChunkedBody.strtolHex_end (b : ChunkedBody) : (strtolHex (cstr (b.last ++ b.ext ++
    (b.trailers.map HttpField.line).flatMap nextLine ++ CRLF2))).1 ≤ 0 := by
  have hlast : ∀ c ∈ b.last ++ b.ext, c ≠ 0 := by
    intro c hc
    rcases List.mem_append.mp hc with hc | hc
    · rw [b.last_zero c hc]
      decide
    · exact (b.ext_clean c hc).1
  have hstart : ∃ x, (b.trailers.map HttpField.line).flatMap nextLine ++ CRLF2 = 13 :: x := by
    cases b.trailers.map HttpField.line with
    | nil => exact ⟨_, rfl⟩
    | cons l ls => exact ⟨_, rfl⟩
  obtain ⟨x, hx⟩ := hstart
  rw [List.append_assoc, hx, cstr_append fun hmem => hlast 0 hmem rfl, List.append_assoc]
  exact (b.strtolHex_last _).le

theorem ChunkedBody.data_lt {b : ChunkedBody} {n : ℕ} (hfits : b.text.length < n) :
    ∀ k ∈ b.chunks, k.data.length < n := by
  intro k hk
  refine lt_of_le_of_lt ?_ hfits
  have hone := (List.singleton_sublist.mpr hk).flatMap HttpChunk.text
  rw [List.flatMap_singleton] at hone
  have hle : k.text.length ≤ b.text.length :=
    (hone.trans (List.sublist_append_left _ _)).length_le
  rw [k.text_eq, List.length_append, List.length_append] at hle
  omega

theorem HttpChunker.input_body {b : ChunkedBody} (hfits : b.text.length < 2 ^ 63) :
    HttpChunker.input (cstr b.text) = some b.untilNull := by
  show chunkerLoop (cstr b.text) ((cstr b.text).length + 1) 0 [] = some ([] ++ _)
  exact chunkerLoop_chunks b.strtolHex_end (ChunkedBody.data_lt hfits) (Nat.zero_le _)
    (Nat.lt_succ_self _) rfl

/-- The announcement in its usual spelling. -/
def chunkedLine : Bytes := ascii "Transfer-Encoding: chunked"

/-- The header announces the chunks in the usual spelling only, names have no blanks in them, and
there is a space in the status line. -/
structure HttpResponse.SaysChunked (r : HttpResponse) : Prop where
  named : ∃ f ∈ r.fields, f.line = chunkedLine
  alike : ∀ f ∈ r.fields, f.Named "transfer-encoding" → f.line = chunkedLine
  names : ∀ f ∈ r.fields, 32 ∉ f.name
  unsized : ∀ f ∈ r.fields, ¬ f.Named "content-length"
  status : 32 ∈ r.statusLine

namespace HttpAcker

theorem length_le_nextLine (ls : List Bytes) : ls.length ≤ (ls.flatMap nextLine).length := by
  induction ls with
  | nil => exact Nat.le_refl _
  | cons l ls ih =>
      rw [List.flatMap_cons, List.length_append, nextLine, List.length_append, List.length_cons]
      simp only [List.length_cons, List.length_nil]
      omega

theorem fieldsLoop_lines {ack x line : Bytes} {lines : List Bytes} {headerTail off fuel : ℕ}
    (hlines : ∀ l ∈ line :: lines, l ≠ [] ∧ 13 ∉ l)
    (hack : ack.drop off = line ++ lines.flatMap nextLine ++ CRLF2 ++ x)
    (htail : headerTail = off + (line ++ lines.flatMap nextLine).length)
    (hfuel : lines.length + 2 ≤ fuel) (fields : NameValue) :
    fieldsLoop ack headerTail fuel off fields = (line :: lines).foldl addField fields := by
  induction lines generalizing line off fuel fields with
  | nil =>
      obtain ⟨fuel, rfl⟩ : ∃ n, fuel = n + 2 := ⟨fuel - 2, by simp at hfuel; omega⟩
      obtain ⟨hne, hline⟩ := hlines line List.mem_cons_self
      have hpos : 0 < line.length := List.length_pos_iff.mpr hne
      rw [List.flatMap_nil, List.append_nil] at hack htail
      have hhere : strstr (CRLF2 ++ x) [13, 10] = some 0 := strstr_here ⟨[13, 10] ++ x, rfl⟩
      have hend : strstr (ack.drop off) [13, 10] = some line.length := by
        rw [hack, List.append_assoc, strstr_skip hline, hhere]
        rfl
      rw [fieldsLoop, if_pos (by omega), hend]
      dsimp only
      rw [if_neg (by omega), fieldsLoop, if_neg (by omega), hack, List.append_assoc, List.take_left]
      rfl
  | cons next lines ih =>
      obtain ⟨fuel, rfl⟩ : ∃ n, fuel = n + 1 := ⟨fuel - 1, by omega⟩
      obtain ⟨hne, hline⟩ := hlines line List.mem_cons_self
      have hpos : 0 < line.length := List.length_pos_iff.mpr hne
      have hjoin : ack.drop off =
          line ++ ([13, 10] ++ (next ++ lines.flatMap nextLine ++ CRLF2 ++ x)) := by
        rw [hack]
        simp only [List.flatMap_cons, nextLine, List.append_assoc]
      have hlen : (line ++ (next :: lines).flatMap nextLine).length =
          line.length + 2 + (next ++ lines.flatMap nextLine).length := by
        simp only [List.flatMap_cons, nextLine, List.length_append, List.length_cons,
          List.length_nil]
        omega
      have hend : strstr (ack.drop off) [13, 10] = some line.length := by
        rw [hjoin, strstr_skip hline, strstr_here (List.prefix_append _ _)]
        rfl
      rw [fieldsLoop, if_pos (by omega), hend]
      dsimp only
      rw [if_neg (by omega), ih (fun l hl => hlines l (List.mem_cons_of_mem line hl)) ?_ (by omega)
        (by simp only [List.length_cons] at hfuel; omega), hjoin, List.take_left]
      · rfl
      · rw [Nat.add_assoc, ← List.drop_drop, hjoin, ← List.append_assoc,
          List.drop_left' (by rw [List.length_append]; rfl)]

theorem addField_line (fields : NameValue) (f : HttpField) : addField fields f.line =
    Function.update fields (Ini.trim f.name 32) (some (Ini.trim f.value 32)) := by
  have hcut : cutAt 58 f.line = (f.name, some f.value) :=
    cutAt_found (fun hmem => (f.name_clean 58 hmem).2.2.2 rfl) f.value
  rw [addField, hcut]

theorem trim_no_space {s : Bytes} (h : 32 ∉ s) : Ini.trim s 32 = s := by
  refine trim_of_ends ⟨fun hhead => h ?_, fun hlast => h ?_⟩
  · exact List.mem_of_mem_head? hhead
  · exact List.mem_of_mem_getLast? hlast

theorem addField_chunked (fields : NameValue) :
    addField fields chunkedLine (ascii "Transfer-Encoding") = some (ascii "chunked") := by
  have hcut : cutAt 58 chunkedLine = (ascii "Transfer-Encoding", some (ascii " chunked")) := by
    decide
  have hname : Ini.trim (ascii "Transfer-Encoding") 32 = ascii "Transfer-Encoding" := by decide
  have hvalue : Ini.trim (ascii " chunked") 32 = ascii "chunked" := by decide
  rw [addField, hcut]
  dsimp only
  rw [hname, hvalue, Function.update_self]

/-- What the fields say about the body, once one of them is the announcement. -/
theorem foldl_addField {fs : List HttpField}
    (hname : ∀ f ∈ fs, 32 ∉ f.name ∧ ¬ f.Named "content-length" ∧
      (f.Named "transfer-encoding" → f.line = chunkedLine)) (fields : NameValue) :
    (fs.map HttpField.line).foldl addField fields (ascii "Content-Length") =
        fields (ascii "Content-Length") ∧
      (fields (ascii "Transfer-Encoding") = some (ascii "chunked") ∨
          (∃ f ∈ fs, f.line = chunkedLine) →
        (fs.map HttpField.line).foldl addField fields (ascii "Transfer-Encoding") =
          some (ascii "chunked")) := by
  induction fs generalizing fields with
  | nil =>
      refine ⟨rfl, fun h => h.resolve_right ?_⟩
      rintro ⟨f, hf, -⟩
      cases hf
  | cons f fs ih =>
      obtain ⟨hspace, hsized, hchunked⟩ := hname f List.mem_cons_self
      obtain ⟨h1, h2⟩ :=
        ih (fun g hg => hname g (List.mem_cons_of_mem f hg)) (addField fields f.line)
      have hkeep : ∀ key, f.name ≠ key → addField fields f.line key = fields key := by
        intro key hkey
        rw [addField_line, trim_no_space hspace, Function.update_of_ne hkey.symm]
      -- the announcement itself
      have hset : f.line = chunkedLine →
          addField fields f.line (ascii "Transfer-Encoding") = some (ascii "chunked") := by
        intro hline
        rw [hline]
        exact addField_chunked fields
      rw [List.map_cons, List.foldl_cons]
      refine ⟨h1.trans (hkeep _ fun heq => hsized ?_), fun h => h2 ?_⟩
      · rw [HttpField.Named, heq]
        decide
      · by_cases hkey : f.name = ascii "Transfer-Encoding"
        · refine Or.inl (hset (hchunked ?_))
          rw [HttpField.Named, hkey]
          decide
        · rcases h with h | ⟨g, hg, hline⟩
          · exact Or.inl ((hkeep _ hkey).trans h)
          · rcases List.mem_cons.mp hg with rfl | hg
            · exact Or.inl (hset hline)
            · exact Or.inr ⟨g, hg, hline⟩

end HttpAcker

namespace HttpResponse
variable {r : HttpResponse} {b : ChunkedBody}

/-- The fields of a response that announces chunks, as a first line and the others. -/
theorem SaysChunked.fields_ne (h : r.SaysChunked) : r.fields ≠ [] := by
  obtain ⟨f, hf, -⟩ := h.named
  exact List.ne_nil_of_mem hf

theorem drop_header (hframing : r.framing = .chunked b) :
    r.text.drop (r.lines.length + 4) = b.text := by
  rw [text, ← r.header_length, List.drop_left, body, hframing]
  rfl

theorem readAt_body (hframing : r.framing = .chunked b) :
    readAt r.text (r.lines.length + 4) = cstr b.text := by
  rw [readAt, drop_header hframing]

/-- The header is read to its end. -/
theorem acker_header (hspaced : 32 ∈ r.statusLine) (hne : r.fields ≠ []) (x : Bytes)
    (onlyHeader : Bool) : ∃ version code, HttpAcker.parse (r.header ++ x) onlyHeader =
      if onlyHeader then
        some (0, ⟨version, code, (r.fields.map HttpField.line).foldl HttpAcker.addField .empty, []⟩)
      else HttpAcker.parseBody (r.header ++ x) r.lines.length
        ⟨version, code, (r.fields.map HttpField.line).foldl HttpAcker.addField .empty, []⟩ := by
  obtain ⟨first, others, hfields⟩ := List.exists_cons_of_ne_nil hne
  have hstatus : 13 ∉ r.statusLine := fun hmem => (r.statusLine_clean 13 hmem).2.2 rfl
  have hlines : ∀ l ∈ first.line :: others.map HttpField.line, l ≠ [] ∧ 13 ∉ l := by
    intro l hl
    have hl' : l ∈ r.fields.map HttpField.line := by rw [hfields]; exact hl
    exact ⟨(r.fields_clean l hl').1, (r.fields_clean l hl').2.2⟩
  have htext : r.header ++ x = r.statusLine ++ ([13, 10] ++ (first.line ++
      (others.map HttpField.line).flatMap nextLine ++ CRLF2 ++ x)) := by
    rw [header, lines, hfields]
    simp only [List.map_cons, List.flatMap_cons, nextLine, List.append_assoc]
  have hlen : r.lines.length = r.statusLine.length + 2 +
      (first.line ++ (others.map HttpField.line).flatMap nextLine).length := by
    rw [lines, hfields]
    simp only [List.map_cons, List.flatMap_cons, nextLine, List.length_append, List.length_cons,
      List.length_nil]
    omega
  have hcr : strstr (r.header ++ x) [13, 10] = some r.statusLine.length := by
    rw [htext, strstr_skip hstatus, strstr_here (List.prefix_append _ _)]
    rfl
  obtain ⟨pos, hpos⟩ : ∃ pos, strstr r.statusLine [32] = some pos := by
    rw [← Option.isSome_iff_exists]
    obtain ⟨a, z, hsplit⟩ := List.append_of_mem hspaced
    refine strstr_isSome (i := a.length) ?_
    rw [hsplit, List.drop_left]
    exact ⟨z, rfl⟩
  have hspace : strstr (r.header ++ x) [32] = some pos := by
    rw [htext]
    exact strstr_append hpos _
  have hbefore : pos < r.statusLine.length := by
    have := strstr_add_length_le hpos
    simpa using this
  have hdrop : (r.header ++ x).drop (r.statusLine.length + 2) = first.line ++
      (others.map HttpField.line).flatMap nextLine ++ CRLF2 ++ x := by
    rw [htext, ← List.append_assoc, List.drop_left' (by rw [List.length_append]; rfl)]
  have hend : strstr ((r.header ++ x).drop (r.statusLine.length + 2)) CRLF2 =
      some (first.line ++ (others.map HttpField.line).flatMap nextLine).length := by
    rw [hdrop]
    exact strstr_lines (hlines _ List.mem_cons_self).2
      (fun l hl => hlines l (List.mem_cons_of_mem _ hl)) _
  have hfuel : (others.map HttpField.line).length + 2 ≤ (r.header ++ x).length := by
    have hle := HttpAcker.length_le_nextLine (others.map HttpField.line)
    have hfirst := List.length_pos_iff.mpr first.line_clean.1
    rw [htext]
    simp only [List.length_append]
    omega
  have hloop := HttpAcker.fieldsLoop_lines hlines hdrop hlen hfuel .empty
  refine ⟨(r.header ++ x).take pos, atoi (readAt (r.header ++ x) (pos + 1)), ?_⟩
  rw [HttpAcker.parse, hcr, hspace]
  dsimp only
  rw [if_pos hbefore, hend]
  dsimp only
  rw [← hlen, hloop, hfields, List.map_cons]

/-- The chunks behind the header are read. -/
theorem acker_parse (h : r.SaysChunked) (hframing : r.framing = .chunked b)
    (hfits : b.text.length < 2 ^ 63) : ∃ obj, HttpAcker.parse r.text false = some (0, obj) ∧
      obj.mBody = b.untilNull := by
  obtain ⟨version, code, hparse⟩ := r.acker_header h.status h.fields_ne r.body false
  have hnames : ∀ f ∈ r.fields, 32 ∉ f.name ∧ ¬ f.Named "content-length" ∧
      (f.Named "transfer-encoding" → f.line = chunkedLine) :=
    fun f hf => ⟨h.names f hf, h.unsized f hf, h.alike f hf⟩
  obtain ⟨hsize, hchunked⟩ := HttpAcker.foldl_addField hnames .empty
  have hannounced := hchunked (Or.inr h.named)
  have hread := readAt_body hframing
  rw [if_neg Bool.false_ne_true] at hparse
  generalize (r.fields.map HttpField.line).foldl HttpAcker.addField .empty = fields
    at hsize hannounced hparse
  have hsays : HttpAcker.announcesChunks fields = true := by
    have hword : (strstr (ascii "chunked") (ascii "chunked")).isSome = true := by decide
    rw [HttpAcker.announcesChunks, hannounced]
    exact hword
  have hnone : fields (ascii "Content-Length") = none := hsize
  refine ⟨⟨version, code, fields, b.untilNull⟩, hparse.trans ?_, rfl⟩
  rw [text] at hread
  simp only [HttpAcker.parseBody, hnone, Option.map_none, Option.getD_none, lt_irrefl,
    false_and, if_false, hsays, if_true, hread, HttpChunker.input_body hfits, Option.map_some]

theorem SaysChunked.chunkedStart_eq (h : r.SaysChunked) :
    chunkedStart r.text = some (r.lines.length + 4, true) := by
  obtain ⟨f, hf, hline⟩ := h.named
  have hin : chunkedLine <:+: r.lines := by
    obtain ⟨a, z, hsplit⟩ := List.append_of_mem hf
    refine ⟨r.statusLine ++ (a.map HttpField.line).flatMap nextLine ++ [13, 10],
      (z.map HttpField.line).flatMap nextLine, ?_⟩
    rw [lines, hsplit, ← hline]
    simp only [List.map_append, List.map_cons, List.flatMap_append, List.flatMap_cons, nextLine,
      List.append_assoc]
  obtain ⟨x, y, hxy⟩ := hin
  have hthere : chunkedLine <+: r.lines.drop x.length := by
    rw [← hxy, List.append_assoc, List.drop_left]
    exact List.prefix_append _ _
  obtain ⟨i, hi⟩ := Option.isSome_iff_exists.mp (strstr_isSome hthere)
  have hle := strstr_add_length_le hi
  have hfound : strstr r.text chunkedLine = some i := by
    rw [text, header, List.append_assoc]
    exact strstr_append hi _
  have hend : strstr r.text CRLF2 = some r.lines.length := r.header_end r.body
  rw [chunkedStart, hend, Option.map_some]
  rw [chunkedLine] at hfound
  rw [hfound]
  dsimp only
  rw [decide_eq_true (by omega)]
  rfl

theorem strtolHex_none (hframing : r.framing = .chunked b) (hnone : b.chunks = []) :
    (strtolHex (readAt r.text (r.lines.length + 4))).1 ≤ 0 := by
  rw [readAt_body hframing, ChunkedBody.text, hnone, List.flatMap_nil, List.nil_append]
  exact b.strtolHex_end

/-- What the size of the first chunk says, and what stands behind it. -/
theorem strtolHex_first (hframing : r.framing = .chunked b) {c : HttpChunk}
    {chunks : List HttpChunk} (hchunks : b.chunks = c :: chunks) (hext : c.ext = [])
    (hfits : b.text.length < 2 ^ 63) : ∃ x,
      strtolHex (readAt r.text (r.lines.length + 4)) = ((c.data.length : ℤ), c.size.length) ∧
        r.text.drop (r.lines.length + 4 + c.size.length + 2) = c.data ++ x := by
  have hsplit : ∃ x, b.text = c.line ++ (c.data ++ x) := by
    refine ⟨[13, 10] ++ (chunks.flatMap HttpChunk.text ++ (b.last ++ b.ext ++
      (b.trailers.map HttpField.line).flatMap nextLine ++ CRLF2)), ?_⟩
    rw [ChunkedBody.text, hchunks, List.flatMap_cons, c.text_eq]
    simp only [List.append_assoc]
  obtain ⟨x, hx⟩ := hsplit
  have hdata := ChunkedBody.data_lt hfits c (by rw [hchunks]; exact List.mem_cons_self)
  have hlen : c.line.length = c.size.length + 2 := by
    rw [HttpChunk.line, hext, List.append_nil, List.length_append]
    rfl
  refine ⟨x, ?_, ?_⟩
  · rw [readAt_body hframing, hx, cstr_append c.line_no_null, c.strtolHex_line hdata]
  · rw [Nat.add_assoc, ← hlen, ← List.drop_drop, drop_header hframing, hx, List.drop_left]

theorem rounds_default {s : ByteBuffer} (n : ℤ) :
    ByteBuffer.Rounds ByteBuffer.defaultMaxSize s n := by
  have hmin := min_le_right (s.m_nData + n) (ByteBuffer.defaultMaxSize : ℤ)
  have hdefault : (ByteBuffer.defaultMaxSize : ℤ) = 16777216 := rfl
  exact Or.inr (by omega)

/-- A first chunk that fits the buffer is taken into it. -/
theorem chunkParser_first (h : r.SaysChunked) (hframing : r.framing = .chunked b) {c : HttpChunk}
    {chunks : List HttpChunk} (hchunks : b.chunks = c :: chunks) (hext : c.ext = [])
    (hfits : b.text.length ≤ ByteBuffer.defaultMaxSize) (junk : ℕ → UInt8) : ∃ box,
      HttpChunkParser.parse junk r.text {} = some (0, box) ∧ box.content = some c.data := by
  have hdefault : ByteBuffer.defaultMaxSize = 16777216 := rfl
  obtain ⟨x, hsize, hdrop⟩ := strtolHex_first hframing hchunks hext (by omega)
  have hpos : 0 < c.data.length := List.length_pos_iff.mpr c.data_ne
  have hdata := ChunkedBody.data_lt (Nat.lt_succ_of_le hfits) c
    (by rw [hchunks]; exact List.mem_cons_self)
  have hlimit : ByteBuffer.defaultMaxSize < 2 ^ 31 := by decide
  obtain ⟨ret, s, hs, hholds, -⟩ := ByteBuffer.makeSureEndWithNull_ready junk (.unallocated rfl)
    hlimit (Or.inr (rounds_default 1))
  have hbody : (r.text ++ [0]).drop (r.lines.length + 4 + c.size.length + 2) =
      c.data ++ (x ++ [0]) := by
    have hle := congrArg List.length hdrop
    rw [List.length_drop, List.length_append] at hle
    rw [List.drop_append_of_le_length (by omega), hdrop, List.append_assoc]
  have hin : c.data.length ≤ (c.data ++ (x ++ [0])).length := by
    rw [List.length_append]
    omega
  obtain ⟨t, ht, htholds⟩ := ByteBuffer.write_holds junk hlimit hholds hpos hin
    (by rw [hholds.length, List.length_nil]; omega) (rounds_default _)
  have htake : ([] : Bytes) ++ (c.data ++ (x ++ [0])).take
      (min c.data.length (ByteBuffer.defaultMaxSize - ([] : Bytes).length)) = c.data := by
    rw [List.length_nil, min_eq_left (by omega), List.nil_append, List.take_left]
  rw [htake] at htholds
  obtain ⟨ret', u, hu, huholds, -⟩ := ByteBuffer.makeSureEndWithNull_ready junk htholds hlimit
    (Or.inr (rounds_default 1))
  refine ⟨u, ?_, huholds.refines.content⟩
  rw [HttpChunkParser.parse, hs, h.chunkedStart_eq]
  simp only [Option.bind_eq_bind, Option.bind_some, hsize]
  rw [if_neg (by omega), hbody, i32_eq (by omega) (by omega), ht]
  simp only [Option.bind_some, hu]
  rfl

/-- Without a chunk there is nothing to take. -/
theorem chunkParser_none (h : r.SaysChunked) (hframing : r.framing = .chunked b)
    (hnone : b.chunks = []) (junk : ℕ → UInt8) (box : ByteBuffer) :
    HttpChunkParser.parse junk r.text {} ≠ some (0, box) := by
  have hsize := strtolHex_none hframing hnone
  obtain ⟨ret, s, hs, -, -⟩ := ByteBuffer.makeSureEndWithNull_ready junk (.unallocated rfl)
    (by decide : ByteBuffer.defaultMaxSize < 2 ^ 31) (Or.inr (rounds_default 1))
  rw [HttpChunkParser.parse, hs, h.chunkedStart_eq]
  simp only [Option.bind_eq_bind, Option.bind_some]
  rw [if_pos hsize]
  intro habs
  cases habs

theorem lengthAt_none {text : Bytes} (h : ¬ ascii "Content-Length:" <:+: text) :
    lengthAt text = none := by
  have hnone : ∀ n, ascii "Content-Length:" <+: n → strstr text n = none := by
    intro n hn
    cases hfound : strstr text n with
    | none => rfl
    | some i =>
        have hin := (hn.trans (strstr_found hfound)).isInfix
        exact absurd (hin.trans (List.drop_suffix i text).isInfix) h
  have hblank : ascii "Content-Length:" <+: ascii "Content-Length: " := ⟨[32], rfl⟩
  rw [lengthAt, hnone _ hblank, hnone _ (List.prefix_refl _)]
  rfl

theorem ackParser_parse (h : r.SaysChunked) (hframing : r.framing = .chunked b)
    (hext : ∀ c ∈ b.chunks, c.ext = []) (hlength : ¬ ascii "Content-Length:" <:+: r.text)
    (hfits : b.text.length < 2 ^ 63) (junk : ℕ → UInt8) : ∃ info,
      HttpAckParser.parse junk r.text = some info ∧
        info.mBody = (b.chunks.take 1).flatMap HttpChunk.data := by
  rw [HttpAckParser.parse, lengthAt_none hlength, h.chunkedStart_eq]
  dsimp only
  cases hchunks : b.chunks with
  | nil =>
      rw [if_pos (strtolHex_none hframing hchunks)]
      exact ⟨_, rfl, rfl⟩
  | cons c chunks =>
      obtain ⟨x, hsize, hdrop⟩ := strtolHex_first hframing hchunks
        (hext c (by rw [hchunks]; exact List.mem_cons_self)) hfits
      have hpos : 0 < c.data.length := List.length_pos_iff.mpr c.data_ne
      have hle := congrArg List.length hdrop
      rw [List.length_drop, List.length_append] at hle
      rw [hsize, if_neg (by omega), copyAt, if_pos (by omega), Int.toNat_natCast,
        List.drop_append_of_le_length (by omega), hdrop, List.append_assoc, List.take_left]
      exact ⟨_, rfl, by simp⟩

/-- Each of the three takes that body out of the text. -/
structure DecodesTo (junk : ℕ → UInt8) (text body : Bytes) : Prop where
  chunkParser : ∃ box, HttpChunkParser.parse junk text {} = some (0, box) ∧
    box.content = some body
  ackParser : ∃ info, HttpAckParser.parse junk text = some info ∧ info.mBody = body
  acker : ∃ obj, HttpAcker.parse text false = some (0, obj) ∧ obj.mBody = body

/-- What each of the three returns: the first chunk, the first chunk again, and the chunks in front
of the first null byte. So they return the data of all chunks if there is one chunk, without a null
byte. -/
theorem decoders_agree_iff (junk : ℕ → UInt8) (h : r.SaysChunked)
    (hframing : r.framing = .chunked b) (hext : ∀ c ∈ b.chunks, c.ext = [])
    (hlength : ¬ ascii "Content-Length:" <:+: r.text)
    (hfits : r.text.length ≤ ByteBuffer.defaultMaxSize) :
    (∀ c chunks, b.chunks = c :: chunks →
      ∃ box, HttpChunkParser.parse junk r.text {} = some (0, box) ∧ box.content = some c.data) ∧
    (∃ info, HttpAckParser.parse junk r.text = some info ∧
      info.mBody = (b.chunks.take 1).flatMap HttpChunk.data) ∧
    (∃ obj, HttpAcker.parse r.text false = some (0, obj) ∧ obj.mBody = b.untilNull) ∧
    (DecodesTo junk r.text (b.chunks.flatMap HttpChunk.data) ↔
      ∃ c, b.chunks = [c] ∧ 0 ∉ c.data) := by
  have hdefault : ByteBuffer.defaultMaxSize = 16777216 := rfl
  have hbody : b.text.length ≤ ByteBuffer.defaultMaxSize := by
    have hle := congrArg List.length (drop_header hframing)
    rw [List.length_drop] at hle
    omega
  obtain ⟨info, hinfo, hfirst⟩ := ackParser_parse h hframing hext hlength (by omega) junk
  obtain ⟨obj, hobj, huntil⟩ := acker_parse h hframing (by omega)
  have hbox : ∀ c chunks, b.chunks = c :: chunks → ∃ box,
      HttpChunkParser.parse junk r.text {} = some (0, box) ∧ box.content = some c.data :=
    fun c chunks hchunks => chunkParser_first h hframing hchunks
      (hext c (by rw [hchunks]; exact List.mem_cons_self)) hbody junk
  refine ⟨hbox, ⟨info, hinfo, hfirst⟩, ⟨obj, hobj, huntil⟩, ?_⟩
  constructor
  · rintro ⟨⟨box, hbox, hcontent⟩, ⟨info', hinfo', hmBody⟩, ⟨obj', hobj', hmBody'⟩⟩
    rw [hinfo, Option.some.injEq] at hinfo'
    rw [hobj, Option.some.injEq, Prod.mk.injEq] at hobj'
    rw [← hinfo'] at hmBody
    rw [← hobj'.2] at hmBody'
    cases hchunks : b.chunks with
    | nil => exact absurd hbox (chunkParser_none h hframing hchunks junk box)
    | cons c chunks =>
        rw [hmBody, hchunks] at hfirst
        have hrest : chunks = [] := by
          cases chunks with
          | nil => rfl
          | cons d chunks =>
              have hlen := congrArg List.length hfirst
              have hpos := List.length_pos_iff.mpr d.data_ne
              simp only [List.take_succ_cons, List.take_zero, List.flatMap_cons, List.flatMap_nil,
                List.append_nil, List.length_append] at hlen
              omega
        subst hrest
        refine ⟨c, rfl, fun hnull => c.data_ne ?_⟩
        rw [hmBody', hchunks, ChunkedBody.untilNull, hchunks,
          List.takeWhile_cons_of_neg (by simpa using hnull)] at huntil
        simpa using huntil
  · rintro ⟨c, hchunks, hnull⟩
    obtain ⟨box, hbox, hcontent⟩ := hbox c [] hchunks
    have hall : b.chunks.flatMap HttpChunk.data = c.data := by
      rw [hchunks, List.flatMap_cons, List.flatMap_nil, List.append_nil]
    rw [hall]
    refine ⟨⟨box, hbox, hcontent⟩, ⟨info, hinfo, ?_⟩, ⟨obj, hobj, ?_⟩⟩
    · rw [hfirst, ← hall, hchunks]
      rfl
    · rw [huntil, ← hall, ChunkedBody.untilNull, hchunks,
        List.takeWhile_cons_of_pos (by simpa using hnull)]
      rfl

theorem trapChunk_named {b : ChunkedBody} : (Framing.chunked b).AnnouncedBy [trapField] :=
  trap_announced

/-- Two chunks. -/
def pair : HttpResponse :=
  { trap with
    framing := .chunked { trapBody with chunks := [trapChunk, trapChunk] }
    announced := trapChunk_named }

theorem saysChunked_trap : trap.SaysChunked := by
  have hline : trapField.line = chunkedLine := by decide
  refine ⟨⟨trapField, List.mem_singleton_self _, hline⟩, ?_, ?_, trap.announced.2.2, by decide⟩
  · exact fun f hf _ => by rw [List.mem_singleton.mp hf, hline]
  · exact fun f hf => by rw [List.mem_singleton.mp hf]; decide

theorem saysChunked_pair : pair.SaysChunked :=
  ⟨saysChunked_trap.named, saysChunked_trap.alike, saysChunked_trap.names,
    saysChunked_trap.unsized, saysChunked_trap.status⟩

/-- One chunk is decoded as itself, the pair is not. -/
theorem decoders_agree_trap : DecodesTo (fun _ => 0) trap.text chunksEnd ∧
    ¬ DecodesTo (fun _ => 0) pair.text (chunksEnd ++ chunksEnd) := by
  have hext : ∀ c ∈ [trapChunk, trapChunk], c.ext = [] := by
    intro c hc
    simp only [List.mem_cons, List.not_mem_nil, or_false, or_self] at hc
    rw [hc]
    rfl
  have hno : ∀ text : Bytes, 67 ∉ text → ¬ ascii "Content-Length:" <:+: text :=
    fun text hmem hin => hmem (hin.subset (by decide))
  constructor
  · refine (decoders_agree_iff (r := trap) (b := trapBody) _ saysChunked_trap rfl ?_
      (hno _ (by decide)) (by decide)).2.2.2.mpr ⟨trapChunk, rfl, by decide⟩
    exact fun c hc => hext c (List.mem_cons_of_mem _ hc)
  · intro hboth
    obtain ⟨c, hc, -⟩ := (decoders_agree_iff (r := pair) _ saysChunked_pair rfl hext
      (hno _ (by decide)) (by decide)).2.2.2.mp hboth
    cases hc

end HttpResponse
end CoreLooper.Http
