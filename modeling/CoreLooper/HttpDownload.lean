import CoreLooper.HttpGet

/-!
# The body of a download

The chunks of a response come in pieces. `HttpGet` writes their data and no other byte, unless it
takes the bytes of an end for the end itself: it looks for them behind the header, and behind the
line of every size. What is there depends on how the response was cut.
-/
namespace CoreLooper.Http
open CStrings

namespace ChunkedBody
variable (b : ChunkedBody)

def data : Bytes := b.chunks.flatMap HttpChunk.data

/-- What follows the chunks: the line of the empty one, and the further fields. -/
def tail : Bytes := b.last ++ b.ext ++ (b.trailers.map HttpField.line).flatMap nextLine ++ CRLF2

def lastLine : Bytes := b.last ++ b.ext ++ [13, 10]

theorem tail_eq : ∃ x, b.tail = b.lastLine ++ x := by
  unfold tail lastLine
  cases b.trailers.map HttpField.line with
  | nil => exact ⟨[13, 10], by simp [CRLF2]⟩
  | cons l ls =>
      exact ⟨l ++ ls.flatMap nextLine ++ CRLF2, by
        simp only [List.flatMap_cons, nextLine, List.append_assoc]⟩

theorem lastLine_clean : ∀ c ∈ b.last ++ b.ext, c ≠ 0 ∧ c ≠ 10 ∧ c ≠ 13 := by
  intro c hc
  rcases List.mem_append.mp hc with hc | hc
  · rw [b.last_zero c hc]
    decide
  · exact b.ext_clean c hc

end ChunkedBody

theorem hexValue_no_lf {c : UInt8} (hc : (hexValue c).isSome) : c ≠ 10 := by
  rintro rfl
  revert hc
  decide

theorem HttpChunk.line_clean (k : HttpChunk) : ∀ c ∈ k.size ++ k.ext, c ≠ 0 ∧ c ≠ 10 ∧ c ≠ 13 := by
  intro c hc
  refine ⟨(k.size_clean c hc).1, ?_, (k.size_clean c hc).2⟩
  rcases List.mem_append.mp hc with hc | hc
  · exact hexValue_no_lf (k.size_hex c hc)
  · exact (k.ext_clean c hc).2.1

/-- Where the lines of the sizes end, for chunks that start at that place. -/
def lineEnds : ℕ → List HttpChunk → List ℕ
  | _, [] => []
  | off, k :: chunks => (off + k.line.length) :: lineEnds (off + k.text.length) chunks

/-- The chunks that start at that place of the response, when that much of the body is there. -/
structure Rest where
  chunks : List HttpChunk
  off : ℕ
  out : Bytes

namespace Rest
variable (b : ChunkedBody) (p : Rest)

def text : Bytes := p.chunks.flatMap HttpChunk.text ++ b.tail

/-- The whole body. -/
def data : Bytes := p.out ++ p.chunks.flatMap HttpChunk.data

/-- Where the line of the empty chunk ends. -/
def ended : ℕ := p.off + (p.chunks.flatMap HttpChunk.text).length + b.lastLine.length

def places : List ℕ := lineEnds p.off p.chunks

/-- The texts behind the lines that have come. -/
def looks (got : Bytes) : List Bytes := (p.places.filter (· ≤ got.length)).map (got.drop ·)

/-- Behind the first chunk. -/
def next (k : HttpChunk) (chunks : List HttpChunk) : Rest :=
  ⟨chunks, p.off + k.text.length, p.out ++ k.data⟩

variable {p} {k : HttpChunk} {chunks : List HttpChunk}

theorem next_data (h : p.chunks = k :: chunks) : (p.next k chunks).data = p.data := by
  simp only [data, next, h, List.flatMap_cons, List.append_assoc]

theorem next_ended (h : p.chunks = k :: chunks) : (p.next k chunks).ended b = p.ended b := by
  simp only [ended, next, h, List.flatMap_cons, List.length_append]
  omega

theorem places_cons (h : p.chunks = k :: chunks) :
    p.places = (p.off + k.line.length) :: (p.next k chunks).places := by
  rw [places, h]
  rfl

theorem text_cons (h : p.chunks = k :: chunks) :
    p.text b = k.line ++ (k.data ++ ([13, 10] ++ (p.next k chunks).text b)) := by
  rw [text, h, List.flatMap_cons, k.text_eq]
  simp only [next, text, List.append_assoc]

/-- The lines end behind the place where the chunks start, and in front of the end. -/
theorem places_bounds (b : ChunkedBody) (p : Rest) :
    ∀ place ∈ p.places, p.off < place ∧ place ≤ p.ended b := by
  obtain ⟨chunks, off, out⟩ := p
  induction chunks generalizing off out with
  | nil => exact fun place hplace => absurd hplace List.not_mem_nil
  | cons k chunks ih =>
      intro place hplace
      have hline : 0 < k.line.length ∧ k.line.length ≤ k.text.length := by
        rw [k.text_eq, HttpChunk.line]
        simp only [List.length_append, List.length_cons, List.length_nil]
        omega
      have hended := next_ended b (p := ⟨k :: chunks, off, out⟩) rfl
      rw [places_cons (p := ⟨k :: chunks, off, out⟩) rfl] at hplace
      rcases List.mem_cons.mp hplace with rfl | hplace
      · refine ⟨by omega, ?_⟩
        simp only [ended, List.flatMap_cons, List.length_append]
        omega
      · obtain ⟨hlow, hhigh⟩ := ih _ _ place hplace
        exact ⟨lt_of_le_of_lt (Nat.le_add_right off _) hlow, hhigh.trans hended.le⟩

/-- The first line ends in front of the other lines. -/
theorem places_line (b : ChunkedBody) (p : Rest) (h : p.chunks = k :: chunks) :
    ∀ place ∈ p.places, p.off + k.line.length ≤ place := by
  intro place hplace
  rw [places_cons h] at hplace
  rcases List.mem_cons.mp hplace with rfl | hplace
  · exact Nat.le_refl _
  · have hlow := (places_bounds b _ place hplace).1
    have hline : k.line.length ≤ k.text.length := by
      rw [k.text_eq, List.length_append]
      omega
    simp only [next] at hlow
    omega

theorem next_off (p : Rest) (k : HttpChunk) (chunks : List HttpChunk) :
    (p.next k chunks).off = p.off + (k.line.length + (k.data.length + 2)) := by
  simp only [next, k.text_eq, List.length_append, List.length_cons, List.length_nil]

end Rest

namespace HttpGet

/-- The line end that is still to come behind a chunk. -/
def lead (s : HttpGet) : Bytes := if s.mChunkedDoubleCRLF then [13, 10] else []

section
variable {s : HttpGet} {front w : Bytes}

theorem sizeLine_short (h : 10 ∉ s.mInbox) : s.sizeLine = (s, false) := by
  have hnone : strstr (cstr s.mInbox) [13, 10] = none := by
    cases hfound : strstr (cstr s.mInbox) [13, 10] with
    | none => rfl
    | some i =>
        have hp := strstr_found hfound
        refine absurd ((cstr_starts _).subset (List.mem_of_mem_drop (hp.subset ?_))) h
        decide
  rw [sizeLine, hnone]

/-- A line that has not come to its end is waited for. -/
theorem chunkedLength_short (hfront : ∀ c ∈ front, c ≠ 0 ∧ c ≠ 10 ∧ c ≠ 13)
    (hinbox : s.mInbox <+: s.lead ++ (front ++ [13, 10] ++ w))
    (hshort : s.mInbox.length < (s.lead ++ (front ++ [13, 10])).length) :
    s.chunkedLength = (s, false) := by
  have hlf : ∀ x : Bytes, x <+: front ++ [13, 10] ++ w → x.length < (front ++ [13, 10]).length →
      10 ∉ x := by
    intro x hx hlen hmem
    have hx' : x <+: front ++ [13] := by
      rw [List.length_append, List.length_cons, List.length_singleton] at hlen
      refine List.prefix_of_prefix_length_le hx ⟨10 :: w, by simp⟩ ?_
      rw [List.length_append, List.length_singleton]
      omega
    rcases List.mem_append.mp (hx'.subset hmem) with hmem | hmem
    · exact (hfront 10 hmem).2.1 rfl
    · revert hmem
      decide
  unfold chunkedLength
  by_cases hdouble : s.mChunkedDoubleCRLF = true
  · rw [lead, if_pos hdouble] at hinbox hshort
    rw [if_pos hdouble]
    by_cases hfive : s.mInbox.length < 5
    · rw [if_pos (Or.inl hfive)]
    · have hdrop : s.mInbox.drop 2 <+: front ++ [13, 10] ++ w := hinbox.drop 2
      have hno : 10 ∉ cstr (s.mInbox.drop 2) := by
        refine fun hmem => hlf _ hdrop ?_ ((cstr_starts _).subset hmem)
        rw [List.length_append] at hshort
        rw [List.length_drop]
        simp only [List.length_cons, List.length_nil] at hshort
        omega
      have hnone : strstr (cstr (s.mInbox.drop 2)) [13, 10] = none := by
        cases hfound : strstr (cstr (s.mInbox.drop 2)) [13, 10] with
        | none => rfl
        | some i =>
            have hp := strstr_found hfound
            refine absurd (List.mem_of_mem_drop (hp.subset ?_)) hno
            decide
      rw [if_pos (Or.inr hnone)]
  · rw [lead, if_neg hdouble] at hinbox hshort
    rw [if_neg hdouble]
    exact sizeLine_short (hlf _ hinbox hshort)

/-- The line end behind a chunk is eaten with the line that follows. -/
theorem chunkedLength_line (hfront : ∀ c ∈ front, c ≠ 0 ∧ c ≠ 10 ∧ c ≠ 13) (hne : front ≠ [])
    (hinbox : s.mInbox = s.lead ++ (front ++ [13, 10] ++ w)) : s.chunkedLength =
      { s with mInbox := front ++ [13, 10] ++ w, mChunkedDoubleCRLF := false }.sizeLine := by
  have hpos : 0 < front.length := List.length_pos_iff.mpr hne
  unfold chunkedLength
  by_cases hdouble : s.mChunkedDoubleCRLF = true
  · rw [lead, if_pos hdouble] at hinbox
    have hfive : ¬ s.mInbox.length < 5 := by
      rw [hinbox]
      simp only [List.length_append, List.length_cons, List.length_nil]
      omega
    have hdrop : s.mInbox.drop 2 = front ++ [13, 10] ++ w := by
      rw [hinbox]
      rfl
    have hsome : strstr (cstr (s.mInbox.drop 2)) [13, 10] ≠ none := by
      rw [hdrop, List.append_assoc, cstr_append fun hmem => (hfront 0 hmem).1 rfl,
        cstr_append (by decide), strstr_skip fun hmem => (hfront 13 hmem).2.2 rfl,
        strstr_here (List.prefix_append _ _)]
      simp
    rw [if_pos hdouble, if_neg (not_or.mpr ⟨hfive, hsome⟩), eat, if_neg (by omega), hdrop]
  · rw [lead, if_neg hdouble, List.nil_append] at hinbox
    rw [if_neg hdouble, ← hinbox]
    have hfalse : s.mChunkedDoubleCRLF = false := by simpa using hdouble
    congr 1
    rw [← hfalse]

theorem sizeLine_line (hfront : ∀ c ∈ front, c ≠ 0 ∧ c ≠ 10 ∧ c ≠ 13) (hne : front ≠ [])
    (hinbox : s.mInbox = front ++ [13, 10] ++ w) (hchunked : s.mChunked = true) : s.sizeLine =
      if (strtolHex (front ++ [13, 10] ++ cstr w)).1 = 0 then
        ({ s with mInbox := [] }.switchStatus .done, false)
      else if seesEnd w then
        (({ s with
          mInbox := w
          mChunkedBytes := ((strtolHex (front ++ [13, 10] ++ cstr w)).1 % 2 ^ 64).toNat
          mChunkedReceivedBytes := 0 }.writeBody w).switchStatus .done, false)
      else
        ({ s with
          mInbox := w
          mChunkedBytes := ((strtolHex (front ++ [13, 10] ++ cstr w)).1 % 2 ^ 64).toNat
          mChunkedReceivedBytes := 0 }.switchStatus .receivingChunkedBody, true) := by
  have hpos : 0 < front.length := List.length_pos_iff.mpr hne
  have hcstr : cstr s.mInbox = front ++ [13, 10] ++ cstr w := by
    rw [hinbox, List.append_assoc, cstr_append fun hmem => (hfront 0 hmem).1 rfl,
      cstr_append (by decide), List.append_assoc]
  have hfound : strstr (front ++ [13, 10] ++ cstr w) [13, 10] = some front.length := by
    rw [List.append_assoc, strstr_skip fun hmem => (hfront 13 hmem).2.2 rfl,
      strstr_here (List.prefix_append _ _)]
    rfl
  have hlen : s.mInbox.length = front.length + 2 + w.length := by
    rw [hinbox]
    simp only [List.length_append, List.length_cons, List.length_nil]
  have heat : s.eat (front.length + 2) = { s with mInbox := w } := by
    rw [eat, if_neg (by omega), hinbox, List.drop_left' (by simp)]
  unfold sizeLine
  simp only [hcstr, hfound, heat, hchunked, true_and]
  rw [if_neg (by omega)]

end

theorem chunkedBody_eq {s : HttpGet} {d w : Bytes} {n : ℕ} {file : Option Bytes} {body : Bytes}
    (hinbox : s.mInbox = d ++ w) (hd : d ≠ [])
    (hbytes : s.mChunkedBytes = s.mChunkedReceivedBytes + n) (hlong : s.mChunkedBytes < 2 ^ 63)
    (hmin : min s.mInbox.length n = d.length)
    (hwrite : s.onRecvHttpAckBody d = { s with
      mChunkedReceivedBytes := s.mChunkedReceivedBytes + d.length
      mFile := file
      mAckBody := body }) : s.chunkedBody =
      if n = d.length then
        { s with
          mInbox := w
          mHttpAckStatus := .receivingChunkedLength
          mChunkedDoubleCRLF := true
          mChunkedBytes := 0
          mChunkedReceivedBytes := 0
          mFile := file
          mAckBody := body }
      else
        { s with
          mInbox := w
          mChunkedReceivedBytes := s.mChunkedReceivedBytes + d.length
          mFile := file
          mAckBody := body } := by
  have hpos : 0 < d.length := List.length_pos_iff.mpr hd
  have hleft : (s.mChunkedBytes + 2 ^ 64 - s.mChunkedReceivedBytes) % 2 ^ 64 = n := by omega
  have htake : s.mInbox.take d.length = d := by rw [hinbox, List.take_left]
  have hdrop : s.mInbox.drop d.length = w := by rw [hinbox, List.drop_left]
  have heat : ¬ d.length > s.mInbox.length := by
    rw [hinbox, List.length_append]
    omega
  unfold chunkedBody
  simp only [hleft, hmin, htake, hwrite, if_pos hpos, eat, if_neg heat, hdrop]
  by_cases hall : n = d.length
  · rw [if_pos (by omega), if_pos hall, switchStatus, if_neg (by simp)]
  · rw [if_neg (by omega), if_neg hall]

theorem switchStatus_eq {status : HttpAckStatus} (h : status ≠ .done) (s : HttpGet) :
    s.switchStatus status = { s with mHttpAckStatus := status } := by
  rw [switchStatus, if_neg h]

theorem receivingChunkedBody_ne : HttpAckStatus.receivingChunkedBody ≠ .done := by decide

theorem parseLoop_stop {s s' : HttpGet} {goesOn : Bool} (h : s.turn = (s', goesOn))
    (hstop : goesOn = false ∨ s'.mInbox = []) (n fuel : ℕ) :
    s.parseLoop n (fuel + 1) = some s' := by
  rw [parseLoop, h]
  exact if_pos (hstop.imp_right Or.inr)

theorem parseLoop_next {s s' : HttpGet} (h : s.turn = (s', true)) (hne : s'.mInbox ≠ []) {n : ℕ}
    (hlen : s'.mInbox.length ≠ n) (fuel : ℕ) :
    s.parseLoop n (fuel + 1) = s'.parseLoop n fuel := by
  rw [parseLoop, h]
  exact if_neg (not_or.mpr ⟨by simp, not_or.mpr ⟨hlen, hne⟩⟩)

/-- So much of the body was written, and no answer given. -/
structure Loading (path : Bytes) (room : ℕ) (out : Bytes) (s : HttpGet) : Prop where
  chunked : s.mChunked = true
  alive : s.isDestroyed = false
  unsignaled : s.mSignaled = false
  acks : s.acks = []
  saved : s.saved = none
  path_eq : s.mSaveAsFilePath = path
  room_eq : s.room = room
  renames : s.renames = true
  file : s.mFile = if path = [] then none else some out
  body : s.mAckBody = if path = [] then out else []
  code : path ≠ [] → s.mHttpAckCode = 200 ∨ s.mHttpAckCode = 206

/-- The answer was given once: the body, or the path of the file that has it. -/
structure Delivered (path data : Bytes) (s : HttpGet) : Prop where
  acks : s.acks = [(0, if path = [] then data else path)]
  saved : s.saved = if path = [] then none else some data

section
variable {path out : Bytes} {room : ℕ} {s : HttpGet}

theorem Loading.update (h : Loading path room out s) (inbox : Bytes) (status : HttpAckStatus)
    (double : Bool) (bytes receivedBytes : ℕ) (received : Bytes) :
    Loading path room out { s with
      mInbox := inbox
      mHttpAckStatus := status
      mChunkedDoubleCRLF := double
      mChunkedBytes := bytes
      mChunkedReceivedBytes := receivedBytes
      received := received } :=
  ⟨h.chunked, h.alive, h.unsignaled, h.acks, h.saved, h.path_eq, h.room_eq, h.renames, h.file,
    h.body, h.code⟩

theorem Loading.write (h : Loading path room out s) {d : Bytes}
    (hbody : path = [] → (out ++ d).length ≤ maxSize)
    (hfile : path ≠ [] → (out ++ d).length ≤ room) :
    s.onRecvHttpAckBody d = { s with
      mChunkedReceivedBytes := (s.mChunkedReceivedBytes + d.length) % 2 ^ 64
      mFile := if path = [] then none else some (out ++ d)
      mAckBody := if path = [] then out ++ d else [] } := by
  have hchunked := h.chunked
  have hfile' := h.file
  have hbody' := h.body
  unfold onRecvHttpAckBody
  by_cases hpath : path = []
  · rw [if_pos hpath] at hfile' hbody'
    have hfits := hbody hpath
    rw [List.length_append] at hfits
    simp only [hfile', hpath, if_true, hchunked, writeBody, hbody', Bool.true_eq_false, false_and,
      if_false]
    rw [List.take_of_length_le (by omega)]
  · rw [if_neg hpath] at hfile' hbody'
    have hfits := hfile hpath
    rw [List.length_append] at hfits
    have hret : min d.length (room - out.length) = d.length := by omega
    have hcode : ¬ (s.mHttpAckCode ≠ 200 ∧ s.mHttpAckCode ≠ 206) := by
      have := h.code hpath
      omega
    simp only [hfile', hpath, if_false, if_neg hcode, h.room_eq, hret, List.take_length, ne_eq,
      not_true_eq_false, hchunked, Bool.true_eq_false, false_and, hbody']

theorem Loading.wrote (h : Loading path room out s) (d : Bytes) (receivedBytes : ℕ) :
    Loading path room (out ++ d) { s with
      mChunkedReceivedBytes := receivedBytes
      mFile := if path = [] then none else some (out ++ d)
      mAckBody := if path = [] then out ++ d else [] } :=
  ⟨h.chunked, h.alive, h.unsignaled, h.acks, h.saved, h.path_eq, h.room_eq, h.renames, rfl,
    rfl, h.code⟩

theorem switchStatus_done (halive : s.isDestroyed = false) (hsignaled : s.mSignaled = false)
    (hacks : s.acks = []) (hrenames : s.renames = true) :
    (s.switchStatus .done).acks = [(0, if s.mFile.isSome then s.mSaveAsFilePath else s.mAckBody)] ∧
      (s.switchStatus .done).saved = (if s.mFile.isSome then s.mFile else s.saved) ∧
      (s.switchStatus .done).isDestroyed = true := by
  rw [switchStatus, if_pos rfl]
  dsimp only
  by_cases hfile : s.mFile.isSome = true
  · simp [hfile, signal, destroy, halive, hsignaled, hacks, hrenames]
  · simp [hfile, signal, destroy, halive, hsignaled, hacks]

theorem Loading.finish (h : Loading path room out s) :
    (s.switchStatus .done).isDestroyed = true ∧ Delivered path out (s.switchStatus .done) := by
  obtain ⟨hacks, hsaved, hdestroyed⟩ := switchStatus_done h.alive h.unsignaled h.acks h.renames
  have hfile := h.file
  have hbody := h.body
  refine ⟨hdestroyed, ?_, ?_⟩
  · rw [hacks, hfile, hbody, h.path_eq]
    by_cases hpath : path = []
    · simp [hpath]
    · simp [hpath]
  · rw [hsaved, hfile, h.saved]
    by_cases hpath : path = []
    · simp [hpath]
    · simp [hpath]

/-- The rest of the inbox is taken for the rest of the body. -/
theorem Loading.mistake (h : Loading path room out s) (w : Bytes) :
    ((s.writeBody w).switchStatus .done).acks =
        [(0, if path = [] then out ++ w.take (maxSize - out.length) else path)] ∧
      ((s.writeBody w).switchStatus .done).saved = (if path = [] then none else some out) ∧
      ((s.writeBody w).switchStatus .done).isDestroyed = true := by
  obtain ⟨hacks, hsaved, hdestroyed⟩ :=
    @switchStatus_done (s.writeBody w) h.alive h.unsignaled h.acks h.renames
  have hfile := h.file
  have hbody := h.body
  have hpath_eq := h.path_eq
  have hsaved_eq := h.saved
  refine ⟨hacks.trans ?_, hsaved.trans ?_, hdestroyed⟩
  · by_cases hpath : path = []
    · simp [writeBody, hfile, hbody, hpath]
    · simp [writeBody, hfile, hpath_eq, hpath]
  · by_cases hpath : path = []
    · simp [writeBody, hfile, hpath, hsaved_eq]
    · simp [writeBody, hfile, hpath]

end

/-- The limits that the lines and the body keep to. -/
structure Fits (path : Bytes) (room : ℕ) (b : ChunkedBody) (p : Rest) : Prop where
  lines : ∀ k ∈ p.chunks, k.line.length ≤ maxSize - 4096
  lastLine : b.lastLine.length ≤ maxSize - 4096
  body : path = [] → p.data.length < maxSize
  file : path ≠ [] → p.data.length ≤ room
  long : p.data.length < 2 ^ 63

/-- A place in the chunks to wait at, when `got` was received and `future` is still to come: in
front of the line of a size, or in a chunk of which `e` is missing. -/
inductive Waiting (path : Bytes) (room : ℕ) (b : ChunkedBody) (p : Rest) (got future : Bytes)
    (s : HttpGet) : Prop where
  | length (status_eq : s.mHttpAckStatus = .receivingChunkedLength)
      (loading : Loading path room p.out s) (inbox_eq : s.mInbox ++ future = s.lead ++ p.text b)
      (lead_le : s.lead.length ≤ p.off) (behind : got.drop (p.off - s.lead.length) = s.mInbox)
      (got_length : got.length + s.lead.length = p.off + s.mInbox.length)
      (small : s.mInbox.length ≤ maxSize - 4095)
  | body (e : Bytes) (status_eq : s.mHttpAckStatus = .receivingChunkedBody) {out : Bytes}
      (loading : Loading path room out s) (out_eq : out ++ e = p.out) (missing : e ≠ [])
      (bytes_eq : s.mChunkedBytes = s.mChunkedReceivedBytes + e.length)
      (long : s.mChunkedBytes < 2 ^ 63) (inbox_eq : s.mInbox = [])
      (future_eq : future = e ++ ([13, 10] ++ p.text b))
      (got_length : got.length + e.length + 2 = p.off)

/-- An answer was given, and it is not the one that is due by now. -/
def Spoiled (path : Bytes) (b : ChunkedBody) (p : Rest) (got : Bytes) (s : HttpGet) : Prop :=
  s.acks ≠ [] ∧ (p.ended b ≤ got.length → ¬ Delivered path p.data s)

/-- The end was reached, and the answer is the one that is due. -/
def Finished (path : Bytes) (b : ChunkedBody) (p : Rest) (got : Bytes) (s : HttpGet) : Prop :=
  p.ended b ≤ got.length ∧ s.isDestroyed = true ∧ Delivered path p.data s

/-- What comes of a piece: an end that is none is seen, or the chunks are followed. -/
def Outcome (path : Bytes) (room : ℕ) (b : ChunkedBody) (p : Rest) (got future : Bytes)
    (s : HttpGet) : Prop :=
  (∃ text ∈ p.looks got, seesEnd text = true) ∧ Spoiled path b p got s ∨
    (∀ text ∈ p.looks got, seesEnd text = false) ∧ (Finished path b p got s ∨
      got.length < p.ended b ∧ ∃ q : Rest, q.data = p.data ∧ q.ended b = p.ended b ∧
        q.places = p.places.filter (got.length < ·) ∧ Fits path room b q ∧
        Waiting path room b q got future s)

section
variable {path got future : Bytes} {room : ℕ} {b : ChunkedBody} {p : Rest} {s : HttpGet}
  {k : HttpChunk} {chunks : List HttpChunk}

theorem Fits.next (h : Fits path room b p) (hchunks : p.chunks = k :: chunks) :
    Fits path room b (p.next k chunks) := by
  have hdata := Rest.next_data hchunks
  refine ⟨fun c hc => h.lines c ?_, h.lastLine, ?_, ?_, ?_⟩
  · rw [hchunks]
    exact List.mem_cons_of_mem k hc
  · rw [hdata]
    exact h.body
  · rw [hdata]
    exact h.file
  · rw [hdata]
    exact h.long

theorem Fits.chunk_long (h : Fits path room b p) (hchunks : p.chunks = k :: chunks) :
    k.data.length < 2 ^ 63 := by
  have hdata := h.long
  rw [Rest.data, hchunks, List.flatMap_cons, List.length_append, List.length_append] at hdata
  omega

theorem Fits.out_le (_ : Fits path room b p) : p.out.length ≤ p.data.length := by
  rw [Rest.data, List.length_append]
  omega

/-- No line has come, so there is nothing to look at. -/
theorem Waiting.outcome (h : Waiting path room b p got future s) (hfits : Fits path room b p)
    (hplaces : ∀ place ∈ p.places, got.length < place) (hended : got.length < p.ended b) :
    Outcome path room b p got future s := by
  have hfilter : p.places.filter (got.length < ·) = p.places :=
    List.filter_eq_self.mpr fun place hplace => decide_eq_true (hplaces place hplace)
  have hlooks : p.looks got = [] := by
    rw [Rest.looks, List.filter_eq_nil_iff.mpr, List.map_nil]
    intro place hplace
    have := hplaces place hplace
    simpa using this
  refine Or.inr ⟨?_, Or.inr ⟨hended, p, rfl, rfl, hfilter.symm, hfits, h⟩⟩
  rw [hlooks]
  exact fun text htext => absurd htext List.not_mem_nil

/-- Nothing of the chunks has come. -/
theorem Waiting.before (h : Waiting path room b p got future s) (hfits : Fits path room b p)
    (hgot : got.length ≤ p.off) : Outcome path room b p got future s := by
  have hline : 0 < b.lastLine.length := by
    rw [ChunkedBody.lastLine, List.length_append]
    exact Nat.succ_pos _
  refine h.outcome hfits (fun place hplace => ?_) ?_
  · exact lt_of_le_of_lt hgot (Rest.places_bounds b p place hplace).1
  · unfold Rest.ended
    omega

/-- What is seen behind a line that has come is seen first. -/
theorem looks_cons (hchunks : p.chunks = k :: chunks) (hcome : p.off + k.line.length ≤ got.length) :
    p.looks got = got.drop (p.off + k.line.length) :: (p.next k chunks).looks got := by
  rw [Rest.looks, Rest.places_cons hchunks, List.filter_cons_of_pos (by simpa using hcome)]
  rfl

theorem places_cons_filter (hchunks : p.chunks = k :: chunks)
    (hcome : p.off + k.line.length ≤ got.length) :
    p.places.filter (got.length < ·) = (p.next k chunks).places.filter (got.length < ·) := by
  rw [Rest.places_cons hchunks, List.filter_cons_of_neg (by simpa using hcome)]

/-- Behind a line with no end in sight, all depends on what follows. -/
theorem Outcome.cons (h : Outcome path room b (p.next k chunks) got future s)
    (hchunks : p.chunks = k :: chunks) (hcome : p.off + k.line.length ≤ got.length)
    (hlook : seesEnd (got.drop (p.off + k.line.length)) = false) :
    Outcome path room b p got future s := by
  have hdata := Rest.next_data hchunks
  have hended := Rest.next_ended b hchunks
  unfold Outcome Spoiled Finished at h ⊢
  rw [hdata, hended] at h
  rw [looks_cons hchunks hcome, places_cons_filter hchunks hcome]
  rcases h with ⟨⟨text, htext, hsees⟩, hspoiled⟩ | ⟨hnone, hrest⟩
  · exact Or.inl ⟨⟨text, List.mem_cons_of_mem _ htext, hsees⟩, hspoiled⟩
  · refine Or.inr ⟨fun text htext => ?_, hrest⟩
    rcases List.mem_cons.mp htext with rfl | htext
    · exact hlook
    · exact hnone text htext

theorem length_data_le (chunks : List HttpChunk) :
    (chunks.flatMap HttpChunk.data).length ≤ (chunks.flatMap HttpChunk.text).length := by
  induction chunks with
  | nil => exact Nat.le_refl _
  | cons k chunks ih =>
      rw [List.flatMap_cons, List.flatMap_cons, List.length_append, List.length_append, k.text_eq]
      simp only [List.length_append]
      omega

/-- With the rest of the inbox the body is too long, and without it a file too short. -/
theorem Loading.spoiled {s' : HttpGet} (h : Loading path room p.out s) (hfits : Fits path room b p)
    (hchunks : p.chunks = k :: chunks) {w : Bytes}
    (hgot : got.length = p.off + k.line.length + w.length)
    (heq : s' = (s.writeBody w).switchStatus .done) : Spoiled path b p got s' := by
  obtain ⟨hacks, hsaved, -⟩ := h.mistake w
  rw [heq]
  refine ⟨by rw [hacks]; simp, fun hended hdelivered => ?_⟩
  have hdata : p.data = p.out ++ (k.data ++ chunks.flatMap HttpChunk.data) := by
    rw [Rest.data, hchunks, List.flatMap_cons]
  have hpos : 0 < k.data.length := List.length_pos_iff.mpr k.data_ne
  have hlen := congrArg List.length hdata
  rw [List.length_append, List.length_append] at hlen
  have hle := length_data_le chunks
  have htext : k.text.length = k.line.length + (k.data.length + 2) := by
    rw [k.text_eq, List.length_append, List.length_append]
    rfl
  have hall : p.ended b = p.off + (k.text.length + (chunks.flatMap HttpChunk.text).length) +
      b.lastLine.length := by
    rw [Rest.ended, hchunks, List.flatMap_cons, List.length_append]
  by_cases hpath : path = []
  · have hbody := hdelivered.acks
    rw [hacks, if_pos hpath, if_pos hpath, List.cons.injEq, Prod.mk.injEq] at hbody
    have hsame := congrArg List.length hbody.1.2
    have hmax := hfits.body hpath
    rw [List.length_append, List.length_take] at hsame
    omega
  · have hfile := hdelivered.saved
    rw [hsaved, if_neg hpath, if_neg hpath, Option.some.injEq] at hfile
    have hsame := congrArg List.length hfile
    omega

/-- In front of a line that has not come. -/
theorem length_short {front w : Bytes} (n fuel : ℕ) (hfront : ∀ c ∈ front, c ≠ 0 ∧ c ≠ 10 ∧ c ≠ 13)
    (hstatus : s.mHttpAckStatus = .receivingChunkedLength) (hloading : Loading path room p.out s)
    (hinbox : s.mInbox ++ future = s.lead ++ p.text b)
    (hoff : s.lead.length ≤ p.off) (hbehind : got.drop (p.off - s.lead.length) = s.mInbox)
    (hgot : got.length + s.lead.length = p.off + s.mInbox.length)
    (htext : p.text b = front ++ [13, 10] ++ w)
    (hsmall : (front ++ [13, 10]).length ≤ maxSize - 4096)
    (hshort : s.mInbox.length < (s.lead ++ (front ++ [13, 10])).length) :
    s.parseLoop n (fuel + 1) = some s ∧ Waiting path room b p got future s := by
  have hlead : s.lead.length ≤ 2 := by
    unfold lead
    split_ifs
    · exact Nat.le_refl 2
    · exact Nat.zero_le 2
  have hprefix : s.mInbox <+: s.lead ++ (front ++ [13, 10] ++ w) := by
    rw [← htext, ← hinbox]
    exact List.prefix_append _ _
  have hturn : s.turn = (s, false) := by
    rw [turn, hstatus]
    exact chunkedLength_short hfront hprefix hshort
  refine ⟨parseLoop_stop hturn (Or.inl rfl) n fuel,
    .length hstatus hloading hinbox hoff hbehind hgot ?_⟩
  · have hmax : maxSize = 2 ^ 24 := rfl
    rw [List.length_append] at hshort
    omega

/-- A line that has come. -/
theorem length_come {front w : Bytes} (hinbox : s.mInbox ++ future = s.lead ++ p.text b)
    (htext : p.text b = front ++ [13, 10] ++ w)
    (hlong : ¬ s.mInbox.length < (s.lead ++ (front ++ [13, 10])).length) :
    ∃ w', s.mInbox = s.lead ++ (front ++ [13, 10] ++ w') ∧ w' ++ future = w := by
  have hline : s.lead ++ (front ++ [13, 10]) <+: s.mInbox ++ future :=
    ⟨w, by rw [hinbox, htext]; simp only [List.append_assoc]⟩
  have hprefix : s.lead ++ (front ++ [13, 10]) <+: s.mInbox :=
    List.prefix_of_prefix_length_le hline (List.prefix_append _ _) (by omega)
  obtain ⟨w', hw'⟩ := hprefix
  refine ⟨w', by rw [← hw']; simp only [List.append_assoc], ?_⟩
  rw [← hw', htext, List.append_assoc, ← List.append_assoc s.lead] at hinbox
  rw [← List.append_assoc s.lead, ← List.append_assoc s.lead] at hinbox
  exact List.append_cancel_left hinbox

/-- What the loop makes of the line of the empty chunk. -/
theorem last_loop {n fuel : ℕ} (hfits : Fits path room b p) (hnone : p.chunks = [])
    (hstatus : s.mHttpAckStatus = .receivingChunkedLength) (hloading : Loading path room p.out s)
    (hinbox : s.mInbox ++ future = s.lead ++ p.text b)
    (hoff : s.lead.length ≤ p.off) (hbehind : got.drop (p.off - s.lead.length) = s.mInbox)
    (hgot : got.length + s.lead.length = p.off + s.mInbox.length) :
    ∃ s', s.parseLoop n (fuel + 1) = some s' ∧ Outcome path room b p got future s' := by
  obtain ⟨x, hx⟩ := b.tail_eq
  have htext : p.text b = b.last ++ b.ext ++ [13, 10] ++ x := by
    rw [Rest.text, hnone, List.flatMap_nil, List.nil_append, hx, ChunkedBody.lastLine]
  have hdata : p.data = p.out := by rw [Rest.data, hnone, List.flatMap_nil, List.append_nil]
  have hended : p.ended b = p.off + b.lastLine.length := by
    rw [Rest.ended, hnone, List.flatMap_nil, List.length_nil, Nat.add_zero]
  have hplaces : p.places = [] := by rw [Rest.places, hnone, lineEnds]
  have hline : b.lastLine = b.last ++ b.ext ++ [13, 10] := rfl
  by_cases hshort : s.mInbox.length < (s.lead ++ (b.last ++ b.ext ++ [13, 10])).length
  · obtain ⟨hloop, hwaiting⟩ := length_short n fuel b.lastLine_clean hstatus
      hloading hinbox hoff hbehind hgot htext hfits.lastLine hshort
    refine ⟨s, hloop, hwaiting.outcome hfits ?_ ?_⟩
    · rw [hplaces]
      exact fun place hplace => absurd hplace List.not_mem_nil
    · rw [List.length_append, ← hline] at hshort
      omega
  · obtain ⟨w, hw, -⟩ := length_come hinbox htext hshort
    have hne : b.last ++ b.ext ≠ [] := by simp [b.last_ne]
    have hzero : (strtolHex (b.last ++ b.ext ++ [13, 10] ++ cstr w)).1 = 0 := by
      have := b.strtolHex_last (10 :: cstr w)
      rw [← this]
      congr 2
      simp
    have hturn : s.turn = ({ s with mInbox := [], mChunkedDoubleCRLF := false }.switchStatus
        .done, false) := by
      rw [turn, hstatus]
      dsimp only
      rw [chunkedLength_line b.lastLine_clean hne hw]
      rw [sizeLine_line (s := { s with
        mInbox := b.last ++ b.ext ++ [13, 10] ++ w
        mChunkedDoubleCRLF := false }) b.lastLine_clean hne rfl hloading.chunked, if_pos hzero]
      rfl
    obtain ⟨hdestroyed, hdelivered⟩ := (hloading.update [] s.mHttpAckStatus false s.mChunkedBytes
      s.mChunkedReceivedBytes s.received).finish
    refine ⟨_, parseLoop_stop hturn (Or.inl rfl) n fuel, Or.inr ⟨?_, Or.inl ⟨?_, hdestroyed, ?_⟩⟩⟩
    · rw [Rest.looks, hplaces]
      exact fun text htext => absurd htext List.not_mem_nil
    · rw [List.length_append, ← hline] at hshort
      omega
    · rw [hdata]
      exact hdelivered

/-- From in front of a line the loop comes to its outcome. -/
def Follows (path : Bytes) (room : ℕ) (b : ChunkedBody) (p : Rest) : Prop :=
  ∀ (s : HttpGet) (got future : Bytes) (n fuel : ℕ),
    s.mHttpAckStatus = .receivingChunkedLength → Loading path room p.out s →
    s.mInbox ++ future = s.lead ++ p.text b → s.lead.length ≤ p.off →
    got.drop (p.off - s.lead.length) = s.mInbox →
    got.length + s.lead.length = p.off + s.mInbox.length → s.mInbox.length ≤ n →
    s.mInbox.length < fuel →
    ∃ s', s.parseLoop n fuel = some s' ∧ Outcome path room b p got future s'

/-- In a chunk of which `e` is missing, and behind which `p` follows. -/
structure AtChunk (path : Bytes) (room : ℕ) (b : ChunkedBody) (p : Rest)
    (got future out e : Bytes) (s : HttpGet) : Prop where
  status_eq : s.mHttpAckStatus = .receivingChunkedBody
  loading : Loading path room out s
  out_eq : out ++ e = p.out
  missing : e ≠ []
  bytes_eq : s.mChunkedBytes = s.mChunkedReceivedBytes + e.length
  long : s.mChunkedBytes < 2 ^ 63
  inbox_eq : s.mInbox ++ future = e ++ ([13, 10] ++ p.text b)
  missing_le : e.length + 2 ≤ p.off
  behind : got.drop (p.off - (e.length + 2)) = s.mInbox
  got_length : got.length + (e.length + 2) = p.off + s.mInbox.length

section
variable {out e w : Bytes}

/-- What has come of the chunk is written. -/
theorem AtChunk.write (h : AtChunk path room b p got future out e s) (hfits : Fits path room b p)
    {d : Bytes} (hd : d <+: e) : s.onRecvHttpAckBody d = { s with
      mChunkedReceivedBytes := s.mChunkedReceivedBytes + d.length
      mFile := if path = [] then none else some (out ++ d)
      mAckBody := if path = [] then out ++ d else [] } := by
  have hle := hd.length_le
  have hlen := congrArg List.length h.out_eq
  have hmax := hfits.out_le
  have hbytes := h.bytes_eq
  have hlong := h.long
  rw [List.length_append] at hlen
  rw [h.loading.write (d := d) (fun hpath => ?_) fun hpath => ?_, Nat.mod_eq_of_lt (by omega)]
  · have := hfits.body hpath
    rw [List.length_append]
    omega
  · have := hfits.file hpath
    rw [List.length_append]
    omega

/-- All that has come is of the chunk, which goes on. -/
theorem AtChunk.goes_on (h : AtChunk path room b p got future out e s) (hfits : Fits path room b p)
    (hne : s.mInbox ≠ []) (hshort : s.mInbox.length < e.length) (n fuel : ℕ) :
    ∃ s', s.parseLoop n (fuel + 1) = some s' ∧ Outcome path room b p got future s' := by
  have hprefix : s.mInbox <+: e := by
    refine List.prefix_of_prefix_length_le (List.prefix_append _ future) ?_ hshort.le
    rw [h.inbox_eq]
    exact List.prefix_append _ _
  obtain ⟨e', rfl⟩ := hprefix
  have hbytes := h.bytes_eq
  have hgot := h.got_length
  rw [List.length_append] at hshort hbytes hgot
  have hbody := chunkedBody_eq (w := []) (List.append_nil _).symm hne hbytes h.long
    (min_eq_left (by omega)) (h.write hfits (List.prefix_append _ _))
  rw [if_neg (by omega)] at hbody
  have hturn : s.turn = (s.chunkedBody, true) := by rw [turn, h.status_eq]
  rw [hbody] at hturn
  refine ⟨_, parseLoop_stop hturn (Or.inr rfl) n fuel, Waiting.before ?_ hfits (by omega)⟩
  refine .body e' h.status_eq
    ((h.loading.wrote s.mInbox (s.mChunkedReceivedBytes + s.mInbox.length)).update []
      s.mHttpAckStatus s.mChunkedDoubleCRLF s.mChunkedBytes _ s.received)
    ?_ ?_ ?_ h.long rfl ?_ ?_
  · rw [List.append_assoc, h.out_eq]
  · exact List.length_pos_iff.mp (by omega)
  · dsimp only
    omega
  · have hinbox := h.inbox_eq
    rw [List.append_assoc] at hinbox
    exact List.append_cancel_left hinbox
  · omega

/-- The turn that completes the chunk. -/
theorem AtChunk.turn_eq (h : AtChunk path room b p got future out e s) (hfits : Fits path room b p)
    (hw : e ++ w = s.mInbox) : s.turn = ({ s with
      mInbox := w
      mHttpAckStatus := .receivingChunkedLength
      mChunkedDoubleCRLF := true
      mChunkedBytes := 0
      mChunkedReceivedBytes := 0
      mFile := if path = [] then none else some p.out
      mAckBody := if path = [] then p.out else [] }, true) := by
  have hle : e.length ≤ s.mInbox.length := by
    rw [← hw, List.length_append]
    omega
  have hbody := chunkedBody_eq hw.symm h.missing h.bytes_eq h.long (min_eq_right hle)
    (h.write hfits List.prefix_rfl)
  rw [if_pos rfl, h.out_eq] at hbody
  rw [turn, h.status_eq, ← hbody]

/-- The chunk is complete, and the loop goes on behind it. -/
theorem AtChunk.ends {n fuel : ℕ} (h : AtChunk path room b p got future out e s)
    (hfollows : Follows path room b p) (hfits : Fits path room b p)
    (hlong : ¬ s.mInbox.length < e.length) (hn : s.mInbox.length ≤ n)
    (hfuel : s.mInbox.length ≤ fuel) :
    ∃ s', s.parseLoop n (fuel + 1) = some s' ∧ Outcome path room b p got future s' := by
  have hprefix : e <+: s.mInbox := by
    refine List.prefix_of_prefix_length_le (List.prefix_append e ([13, 10] ++ p.text b)) ?_
      (by omega)
    rw [← h.inbox_eq]
    exact List.prefix_append _ _
  obtain ⟨w, hw⟩ := hprefix
  have hwlen := congrArg List.length hw
  rw [List.length_append] at hwlen
  have hpos : 0 < e.length := List.length_pos_iff.mpr h.missing
  have hgot := h.got_length
  have hoff := h.missing_le
  have hturn := h.turn_eq hfits hw
  have hloading := (h.loading.wrote e 0).update w .receivingChunkedLength true 0 0 s.received
  rw [h.out_eq] at hloading
  have hinbox : w ++ future = [13, 10] ++ p.text b := by
    have hall := h.inbox_eq
    rw [← hw, List.append_assoc] at hall
    exact List.append_cancel_left hall
  have hbehind : got.drop (p.off - 2) = w := by
    have hsum : p.off - 2 = p.off - (e.length + 2) + e.length := by omega
    rw [hsum, ← List.drop_drop, h.behind, ← hw, List.drop_left]
  by_cases hempty : w = []
  · subst hempty
    rw [List.length_nil, Nat.add_zero] at hwlen
    refine ⟨_, parseLoop_stop hturn (Or.inr rfl) n fuel, Waiting.before ?_ hfits (by omega)⟩
    refine .length rfl hloading hinbox (le_trans (Nat.le_add_left 2 _) hoff) hbehind ?_
      (Nat.zero_le _)
    show got.length + 2 = p.off + 0
    omega
  · rw [parseLoop_next hturn hempty (by dsimp only; omega)]
    refine hfollows _ got future n fuel rfl hloading hinbox (le_trans (Nat.le_add_left 2 _) hoff)
      hbehind ?_ ?_ ?_
    · show got.length + 2 = p.off + w.length
      omega
    · dsimp only
      omega
    · dsimp only
      omega

theorem AtChunk.loop {n fuel : ℕ} (h : AtChunk path room b p got future out e s)
    (hfollows : Follows path room b p) (hfits : Fits path room b p) (hne : s.mInbox ≠ [])
    (hn : s.mInbox.length ≤ n) (hfuel : s.mInbox.length < fuel) :
    ∃ s', s.parseLoop n fuel = some s' ∧ Outcome path room b p got future s' := by
  obtain ⟨fuel, rfl⟩ : ∃ m, fuel = m + 1 := ⟨fuel - 1, by omega⟩
  by_cases hshort : s.mInbox.length < e.length
  · exact h.goes_on hfits hne hshort n fuel
  · exact h.ends hfollows hfits hshort hn (Nat.le_of_lt_succ hfuel)

end

/-- A line that has come, and no end in sight behind it. -/
theorem line_turn {w : Bytes} (hlong : k.data.length < 2 ^ 63)
    (hstatus : s.mHttpAckStatus = .receivingChunkedLength) (hchunked : s.mChunked = true)
    (hinbox : s.mInbox = s.lead ++ (k.line ++ w)) : s.turn =
      if seesEnd w then
        (({ s with
          mInbox := w
          mChunkedDoubleCRLF := false
          mChunkedBytes := k.data.length
          mChunkedReceivedBytes := 0 }.writeBody w).switchStatus .done, false)
      else
        ({ s with
          mInbox := w
          mHttpAckStatus := .receivingChunkedBody
          mChunkedDoubleCRLF := false
          mChunkedBytes := k.data.length
          mChunkedReceivedBytes := 0 }, true) := by
  have hne : k.size ++ k.ext ≠ [] := by simp [k.size_ne]
  have hpos : 0 < k.data.length := List.length_pos_iff.mpr k.data_ne
  have hnumber := k.strtolHex_line hlong (cstr w)
  rw [turn, hstatus]
  dsimp only
  rw [chunkedLength_line k.line_clean hne hinbox, sizeLine_line (s := { s with
    mInbox := k.size ++ k.ext ++ [13, 10] ++ w
    mChunkedDoubleCRLF := false }) k.line_clean hne rfl hchunked]
  have hbytes : ((k.data.length : ℤ) % 2 ^ 64).toNat = k.data.length := by omega
  have hzero : ¬ (k.data.length : ℤ) = 0 := by omega
  rw [HttpChunk.line] at hnumber
  simp only [hnumber, if_neg hzero, hbytes, switchStatus_eq receivingChunkedBody_ne]
  rfl

/-- Behind the line of a chunk, with no end in sight. -/
theorem chunk_loop {w : Bytes} (n fuel : ℕ) (hfits : Fits path room b p)
    (hchunks : p.chunks = k :: chunks) (hfollows : Follows path room b (p.next k chunks))
    (hloading : Loading path room p.out s)
    (hturn : s.turn = ({ s with
      mInbox := w
      mHttpAckStatus := .receivingChunkedBody
      mChunkedDoubleCRLF := false
      mChunkedBytes := k.data.length
      mChunkedReceivedBytes := 0 }, true))
    (hlook : got.drop (p.off + k.line.length) = w)
    (hgot : got.length = p.off + k.line.length + w.length)
    (hfuture : w ++ future = k.data ++ ([13, 10] ++ (p.next k chunks).text b))
    (hn : w.length < n) (hfuel : w.length < fuel) :
    ∃ s', s.parseLoop n (fuel + 1) = some s' ∧
      Outcome path room b (p.next k chunks) got future s' := by
  have hloading' := hloading.update w .receivingChunkedBody false k.data.length 0 s.received
  have hoff := Rest.next_off p k chunks
  have hmore := hfits.next hchunks
  have hlong := hfits.chunk_long hchunks
  by_cases hempty : w = []
  · subst hempty
    rw [List.length_nil, Nat.add_zero] at hgot
    exact ⟨_, parseLoop_stop hturn (Or.inr rfl) n fuel,
      Waiting.before (.body k.data rfl hloading' rfl k.data_ne (Nat.zero_add _).symm hlong rfl
        hfuture (by omega)) hmore (by omega)⟩
  · rw [parseLoop_next hturn hempty (by dsimp only; omega)]
    have hsum : (p.next k chunks).off - (k.data.length + 2) = p.off + k.line.length := by omega
    refine AtChunk.loop ⟨rfl, hloading', rfl, k.data_ne, (Nat.zero_add _).symm, hlong, hfuture,
      by omega, ?_, ?_⟩ hfollows hmore hempty hn.le hfuel
    · rw [hsum]
      exact hlook
    · show got.length + (k.data.length + 2) = (p.next k chunks).off + w.length
      omega

/-- By induction on the chunks: a piece is followed from line to line until an end is seen, or all
of it is used up. -/
theorem follows (hfits : Fits path room b p) : Follows path room b p := by
  obtain ⟨chunks, off, out⟩ := p
  induction chunks generalizing off out with
  | nil =>
      intro s got future n fuel hstatus hloading hinbox hoff hbehind hgot _ hfuel
      obtain ⟨fuel, rfl⟩ : ∃ m, fuel = m + 1 := ⟨fuel - 1, by omega⟩
      exact last_loop hfits rfl hstatus hloading hinbox hoff hbehind hgot
  | cons k chunks ih =>
      intro s got future n fuel hstatus hloading hinbox hoff hbehind hgot hn hfuel
      obtain ⟨fuel, rfl⟩ : ∃ m, fuel = m + 1 := ⟨fuel - 1, by omega⟩
      generalize hp : (⟨k :: chunks, off, out⟩ : Rest) = p at *
      have hchunks : p.chunks = k :: chunks := by rw [← hp]
      have hnext : (⟨chunks, off + k.text.length, out ++ k.data⟩ : Rest) = p.next k chunks := by
        rw [← hp]
        rfl
      have hfollows : Follows path room b (p.next k chunks) := by
        have hmore := hfits.next hchunks
        rw [← hnext] at hmore ⊢
        exact ih _ _ hmore
      have htext := Rest.text_cons b hchunks
      have hline : k.line = k.size ++ k.ext ++ [13, 10] := rfl
      by_cases hshort : s.mInbox.length < (s.lead ++ (k.size ++ k.ext ++ [13, 10])).length
      · have hlines := hfits.lines k (by rw [hchunks]; exact List.mem_cons_self)
        obtain ⟨hloop, hwaiting⟩ := length_short n fuel k.line_clean hstatus
          hloading hinbox hoff hbehind hgot htext hlines hshort
        rw [List.length_append, ← hline] at hshort
        have hearly : got.length < p.off + k.line.length := by omega
        have hend := Rest.places_bounds b p (p.off + k.line.length)
          (by rw [Rest.places_cons hchunks]; exact List.mem_cons_self)
        exact ⟨s, hloop, hwaiting.outcome hfits (fun place hplace =>
          lt_of_lt_of_le hearly (Rest.places_line b p hchunks place hplace))
          (lt_of_lt_of_le hearly hend.2)⟩
      · obtain ⟨w, hw, hfuture⟩ := length_come hinbox htext hshort
        rw [← hline] at hw
        have hwlen := congrArg List.length hw
        rw [List.length_append, List.length_append] at hwlen
        have hcome : p.off + k.line.length ≤ got.length := by omega
        have hlook : got.drop (p.off + k.line.length) = w := by
          have hsum : p.off + k.line.length =
              p.off - s.lead.length + (s.lead.length + k.line.length) := by omega
          rw [hsum, ← List.drop_drop, hbehind, hw, List.drop_length_add_append, List.drop_left]
        have hturn := line_turn (hfits.chunk_long hchunks) hstatus hloading.chunked hw
        by_cases hsees : seesEnd w = true
        · rw [if_pos hsees] at hturn
          refine ⟨_, parseLoop_stop hturn (Or.inl rfl) n fuel, Or.inl ⟨⟨w, ?_, hsees⟩, ?_⟩⟩
          · rw [looks_cons hchunks hcome, hlook]
            exact List.mem_cons_self
          · exact (hloading.update w s.mHttpAckStatus false k.data.length 0 s.received).spoiled
              hfits hchunks (by omega) rfl
        · rw [if_neg hsees] at hturn
          have hpos : 0 < k.line.length := by
            rw [HttpChunk.line, List.length_append]
            exact Nat.succ_pos _
          obtain ⟨s', hloop, houtcome⟩ := chunk_loop n fuel hfits hchunks hfollows
            hloading hturn hlook (by omega) hfuture (by omega) (by omega)
          exact ⟨s', hloop, houtcome.cons hchunks hcome (by rw [hlook]; simpa using hsees)⟩

end
end HttpGet
end CoreLooper.Http
