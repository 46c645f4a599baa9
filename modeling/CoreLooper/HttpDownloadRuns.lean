import CoreLooper.HttpDownload
import CoreLooper.Transitions

/-!
# Downloads of responses with chunks

A download gives its answer with the line of the empty chunk, and the answer is the data of the
chunks, exactly if the header is complete before that line has come and no text looked at has the
bytes of an end in it. Behind the header the parser waits for the next piece; behind the line of a
size it looks at whatever came with it.
-/
namespace CoreLooper.Http
open CStrings Transitions

/-- The texts behind those places, each at the first piece that reaches it. -/
def chunkLooks : List ℕ → Bytes → List Bytes → List Bytes
  | _, _, [] => []
  | places, got, buf :: later =>
      let got := got ++ buf
      (places.filter (· ≤ got.length)).map (got.drop ·) ++
        chunkLooks (places.filter (got.length < ·)) got later

theorem chunkLooks_nil (got : Bytes) (later : List Bytes) : chunkLooks [] got later = [] := by
  induction later generalizing got with
  | nil => rfl
  | cons buf later ih =>
      rw [chunkLooks]
      exact ih (got ++ buf)

namespace HttpResponse
variable (r : HttpResponse) (b : ChunkedBody)

/-- The chunks, behind the header. -/
def rest : Rest := ⟨b.chunks, r.header.length, []⟩

/-- The text behind the header is looked at once, and with later pieces those behind the lines. -/
def looks : Bytes → List Bytes → List Bytes
  | _, [] => []
  | got, buf :: later =>
      let got := got ++ buf
      if got.length < r.header.length then looks got later
      else got.drop r.header.length :: chunkLooks (r.rest b).places got later

/-- The piece that completes the header, of which `got` was there before, stops short of the line
of the empty chunk. -/
def HeaderApart : Bytes → List Bytes → Prop
  | _, [] => True
  | got, buf :: later =>
      let got := got ++ buf
      if got.length < r.header.length then HeaderApart got later
      else got.length < (r.rest b).ended b

variable {r b}

theorem fields_no_lf : ∀ line ∈ r.fields.map HttpField.line, line ≠ [] ∧ 10 ∉ line := by
  intro line hline
  obtain ⟨f, -, rfl⟩ := List.mem_map.mp hline
  refine ⟨f.line_clean.1, fun hmem => ?_⟩
  rw [HttpField.line, List.mem_append, List.mem_cons] at hmem
  rcases hmem with hname | habs | hvalue
  · exact (f.name_clean 10 hname).2.1 rfl
  · exact absurd habs (by decide)
  · exact (f.value_clean 10 hvalue).2.1 rfl

/-- Two line feeds do not follow each other in lines that are not empty. -/
theorem strstr_feeds {first : Bytes} (hfirst : 10 ∉ first) {lines : List Bytes}
    (hlines : ∀ line ∈ lines, line ≠ [] ∧ 10 ∉ line) :
    strstr (first ++ lines.flatMap nextLine ++ CRLF2) [10, 10] = none := by
  induction lines generalizing first with
  | nil =>
      rw [List.flatMap_nil, List.append_nil, strstr_skip hfirst]
      have hnone : strstr CRLF2 [10, 10] = none := by decide
      rw [hnone]
      rfl
  | cons line lines ih =>
      obtain ⟨hne, hline⟩ := hlines line List.mem_cons_self
      have hrest := ih hline fun l hl => hlines l (List.mem_cons_of_mem _ hl)
      obtain ⟨c, line', rfl⟩ := List.exists_cons_of_ne_nil hne
      have hjoin : first ++ ((c :: line') :: lines).flatMap nextLine ++ CRLF2 =
          first ++ ([13] ++ (10 :: (c :: line' ++ lines.flatMap nextLine ++ CRLF2))) := by
        simp [nextLine]
      have hc : (10 : UInt8) ≠ c := fun h => hline (by rw [h]; exact List.mem_cons_self)
      rw [hjoin, strstr_skip hfirst, strstr_skip (by decide), strstr_next, hrest]
      · rfl
      · rw [List.cons_append, List.cons_append, List.cons_prefix_cons, List.cons_prefix_cons]
        exact fun h => hc h.2.1

/-- A header that is not complete has no end in it. -/
theorem header_waits {got : Bytes} (hgot : got <+: r.header)
    (hshort : got.length < r.header.length) :
    strstr got CRLF2 = none ∧ strstr got [10, 10] = none := by
  obtain ⟨x, hx⟩ := hgot
  constructor
  · cases hfound : strstr got CRLF2 with
    | none => rfl
    | some i =>
        have hle := strstr_add_length_le hfound
        have hlines := strstr_append hfound x
        have hend := r.header_end []
        rw [List.append_nil, ← hx, hlines, Option.some.injEq] at hend
        have hlength := r.header_length
        have hfour : CRLF2.length = 4 := rfl
        omega
  · cases hfound : strstr got [10, 10] with
    | none => rfl
    | some i =>
        have hnone := strstr_feeds (fun hmem => (r.statusLine_clean 10 hmem).2.1 rfl)
          r.fields_no_lf
        have hsome := strstr_append hfound x
        rw [hx, header, lines, hnone] at hsome
        exact absurd hsome (by simp)

theorem foldl_addField_of_ne {fs : List HttpField} {key : Bytes}
    (hspace : ∀ f ∈ fs, 32 ∉ f.name) (hname : ∀ f ∈ fs, f.name ≠ key) (fields : NameValue) :
    (fs.map HttpField.line).foldl HttpAcker.addField fields key = fields key := by
  induction fs generalizing fields with
  | nil => rfl
  | cons f fs ih =>
      rw [List.map_cons, List.foldl_cons, ih (fun g hg => hspace g (List.mem_cons_of_mem f hg))
        (fun g hg => hname g (List.mem_cons_of_mem f hg)), HttpAcker.addField_line,
        HttpAcker.trim_no_space (hspace f List.mem_cons_self),
        Function.update_of_ne (hname f List.mem_cons_self).symm]

theorem SaysChunked.lengthOf_eq (h : r.SaysChunked) :
    HttpGet.lengthOf (HttpGet.ackHeaders r.header) = 0 := by
  obtain ⟨version, code, hparse⟩ := acker_header h.status h.fields_ne [] true
  rw [List.append_nil, if_pos rfl] at hparse
  have hnone : ∀ key, key.map toLower = ascii "content-length" →
      (r.fields.map HttpField.line).foldl HttpAcker.addField .empty key = none := by
    intro key hkey
    refine foldl_addField_of_ne h.names (fun f hf heq => h.unsized f hf ?_) .empty
    rw [HttpField.Named, heq, hkey]
  have hzero : (atoi [] % 2 ^ 32).toNat = 0 := by decide
  unfold HttpGet.lengthOf HttpGet.lengthField HttpGet.ackHeaders
  rw [hparse]
  dsimp only
  rw [hnone _ (by decide), hnone _ (by decide), Option.getD_none, hzero, if_pos rfl]

/-- A line of the header, with its end. -/
theorem header_split {f : HttpField} (hf : f ∈ r.fields) :
    ∃ x y, r.header = x ++ (f.line ++ [13, 10] ++ y) := by
  obtain ⟨a, z, hsplit⟩ := List.append_of_mem hf
  have hnext : ∃ y, (z.map HttpField.line).flatMap nextLine ++ CRLF2 = [13, 10] ++ y := by
    cases z with
    | nil => exact ⟨[13, 10], rfl⟩
    | cons g z => exact ⟨g.line ++ (z.map HttpField.line).flatMap nextLine ++ CRLF2, by
        simp only [List.map_cons, List.flatMap_cons, nextLine, List.append_assoc]⟩
  obtain ⟨y, hy⟩ := hnext
  refine ⟨r.statusLine ++ (a.map HttpField.line).flatMap nextLine ++ [13, 10], y, ?_⟩
  rw [List.append_assoc f.line, ← hy, header, lines, hsplit]
  simp only [List.map_append, List.map_cons, List.flatMap_append, List.flatMap_cons, nextLine,
    List.append_assoc]

theorem SaysChunked.findChunked_eq (h : r.SaysChunked) (w : Bytes) :
    HttpGet.findChunked (r.header ++ w) = true := by
  obtain ⟨f, hf, hline⟩ := h.named
  obtain ⟨x, y, hsplit⟩ := header_split hf
  have hword : chunkedLine ++ [13, 10] =
      ascii "Transfer-Encoding:" ++ ascii " chunked\r\n" := by decide
  have htext : r.header ++ w =
      x ++ (ascii "Transfer-Encoding:" ++ (ascii " chunked\r\n" ++ (y ++ w))) := by
    rw [hsplit, hline, hword]
    simp only [List.append_assoc]
  have hkey : ascii "Transfer-Encoding:" <+: (r.header ++ w).drop x.length := by
    rw [htext, List.drop_left]
    exact List.prefix_append _ _
  obtain ⟨i, hi⟩ := Option.isSome_iff_exists.mp (strstr_isSome hkey)
  have hle : i ≤ x.length := by
    by_contra hlt
    exact strstr_first hi (Nat.lt_of_not_le hlt) hkey
  unfold HttpGet.findChunked
  rw [hi]
  dsimp only
  refine strstr_isSome (i := x.length - i + (ascii "Transfer-Encoding:").length) ?_
  have hsum : i + (x.length - i + (ascii "Transfer-Encoding:").length) =
      x.length + (ascii "Transfer-Encoding:").length := by omega
  rw [List.drop_drop, hsum, htext, List.drop_length_add_append, List.drop_left]
  exact List.prefix_append _ _

end HttpResponse

/-- Behind the empty chunk no end stands that could be seen too early. -/
theorem ChunkedBody.tail_no_end (b : ChunkedBody) : ¬ chunksEnd <:+: b.tail := by
  rintro ⟨u, v, huv⟩
  generalize hlines : b.last ++ b.ext ++ (b.trailers.map HttpField.line).flatMap nextLine = lines
  have htail : b.tail = lines ++ CRLF2 := by rw [ChunkedBody.tail, hlines]
  have hfields : ∀ line ∈ b.trailers.map HttpField.line, line ≠ [] ∧ 13 ∉ line := by
    intro line hline
    obtain ⟨f, -, rfl⟩ := List.mem_map.mp hline
    exact ⟨f.line_clean.1, f.line_clean.2.2⟩
  -- the end is the last one there is, so a line with a 0 stands in front of it
  have hfirst := strstr_lines (fun hmem => (b.lastLine_clean 13 hmem).2.2 rfl) hfields []
  rw [List.append_nil, hlines, ← htail] at hfirst
  have hthere : CRLF2 <+: b.tail.drop (u.length + 3) := by
    rw [← huv, List.append_assoc, List.drop_length_add_append]
    exact ⟨v, rfl⟩
  have hlow : ¬ u.length + 3 < lines.length := fun hlt => strstr_first hfirst hlt hthere
  have hlen := congrArg List.length (huv.trans htail)
  rw [List.length_append, List.length_append, List.length_append] at hlen
  have hseven : chunksEnd.length = 7 := rfl
  have hfour : CRLF2.length = 4 := rfl
  have hv : v = [] := List.length_eq_zero_iff.mp (by omega)
  have hzero : u ++ [13, 10, 48] = lines := by
    have hboth : u ++ [13, 10, 48] ++ CRLF2 = lines ++ CRLF2 := by
      rw [← htail, ← huv, hv, List.append_nil, List.append_assoc]
      rfl
    exact List.append_cancel_right hboth
  have hsuffix : [10, 48] <:+ lines := ⟨u ++ [13], by rw [← hzero, List.append_assoc]; rfl⟩
  rcases List.eq_nil_or_concat b.trailers with hnil | ⟨fs, f, hfs⟩
  · rw [hnil, List.map_nil, List.flatMap_nil, List.append_nil] at hlines
    rw [← hlines] at hsuffix
    exact (b.lastLine_clean 10 (hsuffix.subset List.mem_cons_self)).2.1 rfl
  · have hline : f.line <:+ lines := by
      rw [← hlines, hfs, List.concat_eq_append, List.map_append, List.flatMap_append]
      exact ⟨b.last ++ b.ext ++ (fs.map HttpField.line).flatMap nextLine ++ [13, 10], by
        simp [nextLine]⟩
    have htwo : ([10, 48] : Bytes).length ≤ f.line.length := by
      have hname := List.length_pos_iff.mpr f.name_ne
      rw [HttpField.line, List.length_append, List.length_cons]
      simp only [List.length_cons, List.length_nil]
      omega
    have hmem := (List.suffix_of_suffix_length_le hsuffix hline htwo).subset List.mem_cons_self
    rw [HttpField.line, List.mem_append, List.mem_cons] at hmem
    rcases hmem with hname | habs | hvalue
    · exact (f.name_clean 10 hname).2.1 rfl
    · exact absurd habs (by decide)
    · exact (f.value_clean 10 hvalue).2.1 rfl

namespace HttpGet

section
variable {path got future : Bytes} {room : ℕ} {b : ChunkedBody} {p : Rest} {s : HttpGet}

/-- The pieces that the download receives. -/
def receives (s : HttpGet) (reads : List Bytes) : Option HttpGet :=
  Transitions.run (fun s buf => s.onReceive buf) s reads

@[simp] theorem receives_nil (s : HttpGet) : s.receives [] = some s := rfl

theorem receives_cons {s' : HttpGet} {buf : Bytes} (h : s.onReceive buf = some s')
    (reads : List Bytes) : s.receives (buf :: reads) = s'.receives reads := by
  rw [receives, Transitions.run, List.foldlM_cons, h]
  rfl

theorem receives_destroyed (h : s.isDestroyed = true) (reads : List Bytes) :
    s.receives reads = some s := by
  induction reads with
  | nil => rfl
  | cons buf reads ih =>
      have hstay : s.onReceive buf = some s := by rw [onReceive, if_pos (Or.inl h)]
      rw [receives_cons hstay, ih]

/-- A piece that the inbox has room for. -/
theorem onReceive_eq {buf : Bytes} (halive : s.isDestroyed = false) (hne : buf ≠ [])
    (hroom : s.mInbox.length + buf.length ≤ maxSize) : s.onReceive buf =
      { s with mInbox := s.mInbox ++ buf, received := s.received ++ buf }.parseInbox := by
  have hret : min buf.length (maxSize - s.mInbox.length) = buf.length := by omega
  unfold onReceive
  simp only [halive, hne, Bool.false_eq_true, or_self, if_false, hret, List.take_length, ne_eq,
    not_true_eq_false]

/-- What a waiting download makes of a piece. -/
theorem Waiting.receive {buf : Bytes} (h : Waiting path room b p got (buf ++ future) s)
    (hfits : Fits path room b p) (hne : buf ≠ []) (hsize : buf.length ≤ 4095) :
    ∃ s', s.onReceive buf = some s' ∧ Outcome path room b p (got ++ buf) future s' := by
  have hmax : maxSize = 2 ^ 24 := rfl
  cases h with
  | length hstatus hloading hinbox hoff hbehind hgot hsmall =>
      rw [onReceive_eq hloading.alive hne (by omega), parseInbox]
      refine follows hfits _ _ _ _ _ hstatus (hloading.update (s.mInbox ++ buf) s.mHttpAckStatus
        s.mChunkedDoubleCRLF s.mChunkedBytes s.mChunkedReceivedBytes (s.received ++ buf)) ?_ hoff ?_
        ?_ (Nat.le_refl _) (Nat.lt_succ_self _)
      · rw [List.append_assoc]
        exact hinbox
      · show (got ++ buf).drop (p.off - s.lead.length) = s.mInbox ++ buf
        rw [List.drop_append_of_le_length (by omega), hbehind]
      · show (got ++ buf).length + s.lead.length = p.off + (s.mInbox ++ buf).length
        rw [List.length_append, List.length_append]
        omega
  | body e hstatus hloading hout he hbytes hlong hinbox hfuture hgot =>
      rw [onReceive_eq hloading.alive hne (by rw [hinbox, List.length_nil]; omega), parseInbox,
        hinbox, List.nil_append]
      refine AtChunk.loop ⟨hstatus, hloading.update buf s.mHttpAckStatus s.mChunkedDoubleCRLF
        s.mChunkedBytes s.mChunkedReceivedBytes (s.received ++ buf), hout, he, hbytes, hlong,
        hfuture, by omega, ?_, ?_⟩ (follows hfits) hfits hne (Nat.le_refl _) (Nat.lt_succ_self _)
      · have hsum : p.off - (e.length + 2) = got.length := by omega
        rw [hsum, List.drop_left]
      · show (got ++ buf).length + (e.length + 2) = p.off + buf.length
        rw [List.length_append]
        omega

/-- The answer is there from the line of the empty chunk on. -/
def Due (path : Bytes) (b : ChunkedBody) (p : Rest) (got : Bytes) (s : HttpGet) : Prop :=
  if p.ended b ≤ got.length then Delivered path p.data s else s.acks = []

/-- Whatever was received of the pieces, the answer is the one that is due. -/
def OnTime (path : Bytes) (b : ChunkedBody) (p : Rest) (got : Bytes) (s : HttpGet)
    (reads : List Bytes) : Prop :=
  ∀ seen, seen <+: reads → ∃ s', s.receives seen = some s' ∧ Due path b p (got ++ seen.flatten) s'

theorem Spoiled.not_due (h : Spoiled path b p got s) : ¬ Due path b p got s := by
  intro hdue
  unfold Due at hdue
  split_ifs at hdue with hended
  · exact h.2 hended hdue
  · exact h.1 hdue

theorem OnTime.due {reads : List Bytes} (h : OnTime path b p got s reads) : Due path b p got s := by
  obtain ⟨s', hs', hdue⟩ := h [] List.nil_prefix
  rw [receives_nil, Option.some.injEq] at hs'
  rw [List.flatten_nil, List.append_nil, ← hs'] at hdue
  exact hdue

theorem onTime_cons_iff {s' : HttpGet} {buf : Bytes} {reads : List Bytes}
    (h : s.onReceive buf = some s') : OnTime path b p got s (buf :: reads) ↔
      Due path b p got s ∧ OnTime path b p (got ++ buf) s' reads := by
  constructor
  · refine fun hall => ⟨hall.due, fun seen hseen => ?_⟩
    obtain ⟨t, ht, hdue⟩ := hall (buf :: seen) (List.cons_prefix_cons.mpr ⟨rfl, hseen⟩)
    rw [receives_cons h] at ht
    rw [List.flatten_cons, ← List.append_assoc] at hdue
    exact ⟨t, ht, hdue⟩
  · rintro ⟨hnow, hlater⟩ seen hseen
    rcases List.prefix_cons_iff.mp hseen with rfl | ⟨more, rfl, hmore⟩
    · exact ⟨s, rfl, by rwa [List.flatten_nil, List.append_nil]⟩
    · obtain ⟨t, ht, hdue⟩ := hlater more hmore
      rw [List.flatten_cons, ← List.append_assoc]
      exact ⟨t, (receives_cons h more).trans ht, hdue⟩

theorem Waiting.loading {later : Bytes} (h : Waiting path room b p got later s) :
    s.isDestroyed = false ∧ s.acks = [] := by
  cases h with
  | length _ hloading => exact ⟨hloading.alive, hloading.acks⟩
  | body _ _ hloading => exact ⟨hloading.alive, hloading.acks⟩

theorem due_early (hacks : s.acks = []) (hended : got.length < p.ended b) : Due path b p got s := by
  rw [Due, if_neg (by omega)]
  exact hacks

/-- A download that has finished stays as it is. -/
theorem Finished.onTime (h : Finished path b p got s) (reads : List Bytes) :
    OnTime path b p got s reads := by
  refine fun seen _ => ⟨s, receives_destroyed h.2.1 seen, ?_⟩
  have hended := h.1
  rw [Due, if_pos (by rw [List.length_append]; omega)]
  exact h.2.2

/-- From a place in the chunks on, all depends on the texts behind the lines. -/
theorem onTime_iff {later : List Bytes} (hwaiting : Waiting path room b p got later.flatten s)
    (hfits : Fits path room b p) (hreads : ∀ buf ∈ later, buf ≠ [] ∧ buf.length ≤ 4095)
    (hended : got.length < p.ended b) :
    OnTime path b p got s later ↔ ∀ text ∈ chunkLooks p.places got later, seesEnd text = false := by
  induction later generalizing p got s with
  | nil =>
      rw [chunkLooks]
      refine ⟨fun _ text htext => absurd htext List.not_mem_nil, fun _ seen hseen => ?_⟩
      rw [List.prefix_nil.mp hseen, List.flatten_nil, List.append_nil]
      exact ⟨s, rfl, due_early hwaiting.loading.2 hended⟩
  | cons buf later ih =>
      obtain ⟨hne, hsize⟩ := hreads buf List.mem_cons_self
      have hlater := fun buf hbuf => hreads buf (List.mem_cons_of_mem _ hbuf)
      rw [List.flatten_cons] at hwaiting
      obtain ⟨s', hs', houtcome⟩ := hwaiting.receive hfits hne hsize
      have hsplit : (∀ text ∈ chunkLooks p.places got (buf :: later), seesEnd text = false) ↔
          (∀ text ∈ p.looks (got ++ buf), seesEnd text = false) ∧ ∀ text ∈ chunkLooks
            (p.places.filter ((got ++ buf).length < ·)) (got ++ buf) later,
            seesEnd text = false := by
        rw [chunkLooks]
        exact List.forall_mem_append
      rw [onTime_cons_iff hs', and_iff_right (due_early hwaiting.loading.2 hended), hsplit]
      rcases houtcome with ⟨⟨text, htext, hsees⟩, hspoiled⟩ | ⟨hnone, hfinished | hgoing⟩
      · -- an end was seen that is none
        refine ⟨fun h => absurd h.due hspoiled.not_due, fun h => ?_⟩
        rw [h.1 text htext] at hsees
        exact absurd hsees Bool.false_ne_true
      · have hfilter : p.places.filter ((got ++ buf).length < ·) = [] := by
          refine List.filter_eq_nil_iff.mpr fun place hplace => ?_
          have hle := (Rest.places_bounds b p place hplace).2
          have := hfinished.1
          simp only [decide_eq_true_eq]
          omega
        rw [hfilter, chunkLooks_nil]
        exact ⟨fun _ => ⟨hnone, fun text htext => absurd htext List.not_mem_nil⟩,
          fun _ => hfinished.onTime later⟩
      · obtain ⟨hearly, q, hdata, hend, hplaces, hqfits, hq⟩ := hgoing
        have hdue : OnTime path b p (got ++ buf) s' later ↔
            OnTime path b q (got ++ buf) s' later := by
          unfold OnTime Due
          rw [hdata, hend]
        rw [hdue, ih hq hqfits hlater (by rw [hend]; exact hearly), hplaces, and_iff_right hnone]

end

/-- A file is open if there is one to write, and nothing has come. -/
theorem sent_eq (path : Bytes) (room : ℕ) : sent path room =
    { mSaveAsFilePath := path, room := room, renames := true, mWaitFirstEvent := false,
      mFile := if path = [] then none else some [] } := by
  by_cases hpath : path = []
  · simp [sent, executed, onConnect, hpath]
  · simp [sent, executed, onConnect, hpath]

/-- So much of the header has come. -/
def pending (path : Bytes) (room : ℕ) (got : Bytes) : HttpGet :=
  { sent path room with mInbox := got, received := got }

section
variable {path got future buf w : Bytes} {room : ℕ} {r : HttpResponse} {b : ChunkedBody}

theorem pending_receive (hsize : (got ++ buf).length ≤ maxSize) (hne : buf ≠ []) :
    (pending path room got).onReceive buf = (pending path room (got ++ buf)).parseInbox := by
  have halive : (pending path room got).isDestroyed = false := by rw [pending, sent_eq]
  rw [List.length_append] at hsize
  exact onReceive_eq halive hne hsize

theorem pending_status : (pending path room got).mHttpAckStatus = .waitHeader := by
  rw [pending, sent_eq]

theorem pending_acks : (pending path room got).acks = [] := by
  rw [pending, sent_eq]

/-- A header that is not complete stays in the inbox. -/
theorem pending_waits (hstart : got ++ buf <+: r.header)
    (hshort : (got ++ buf).length < r.header.length) (hfits : r.header.length ≤ maxSize)
    (hne : buf ≠ []) :
    (pending path room got).onReceive buf = some (pending path room (got ++ buf)) := by
  obtain ⟨hend, hfeeds⟩ := r.header_waits hstart hshort
  have hcstr : cstr (got ++ buf) = got ++ buf :=
    cstr_eq_self fun hmem => r.header_no_null (hstart.subset hmem)
  have hturn : (pending path room (got ++ buf)).turn = (pending path room (got ++ buf), true) := by
    have hinbox : (pending path room (got ++ buf)).mInbox = got ++ buf := rfl
    rw [turn, pending_status]
    dsimp only
    rw [waitHeader, hinbox, hcstr, hend, hfeeds]
  rw [pending_receive (by omega) hne, parseInbox, parseLoop, hturn]
  exact if_pos (Or.inr (Or.inl rfl))

/-- The download when the header has come, with `w` behind it. -/
def announced (path : Bytes) (room : ℕ) (r : HttpResponse) (got w : Bytes) : HttpGet :=
  { pending path room got with
    mInbox := w
    mHttpAckCode := ackCode r.lines
    mContentLength := 0
    mChunked := true }

variable (room got w) in
theorem announced_loading (hcode : path ≠ [] → ackCode r.lines = 200 ∨ ackCode r.lines = 206) :
    Loading path room [] (announced path room r got w) := by
  rw [announced, pending, sent_eq]
  exact ⟨rfl, rfl, rfl, rfl, rfl, rfl, rfl, rfl, rfl, (ite_self _).symm, hcode⟩

/-- The header is read, and what came with it looked at. -/
theorem pending_header (path : Bytes) (room : ℕ) (hannounced : r.SaysChunked)
    (hgot : got = r.header ++ w) :
    (pending path room got).turn =
      if seesEnd w then
        (((announced path room r got w).writeBody w).switchStatus .done, false)
      else ((announced path room r got w).switchStatus .receivingChunkedLength, false) := by
  have hinbox : (pending path room got).mInbox = r.header ++ w := hgot
  have hcode : (r.header ++ cstr w).take r.lines.length = r.lines := by
    rw [HttpResponse.header, List.append_assoc, List.take_left]
  have hlen : r.lines.length + 4 = r.header.length := r.header_length.symm
  have heat : ¬ r.header.length > (r.header ++ w).length := by
    rw [List.length_append]
    omega
  rw [turn, pending_status]
  dsimp only
  rw [waitHeader, hinbox, r.cstr_header, r.header_end]
  simp only [onHeader, hcode, hlen, List.take_left, hannounced.lengthOf_eq, gt_iff_lt, lt_irrefl,
    if_false, hannounced.findChunked_eq, if_true, eat, hinbox, if_neg heat, List.drop_left]
  rfl

/-- An end seen behind the header is none: there is more to write, or no chunk at all. -/
theorem announced_spoiled {s : HttpGet}
    (hcode : path ≠ [] → ackCode r.lines = 200 ∨ ackCode r.lines = 206)
    (hfits : Fits path room b (r.rest b)) (hgot : got = r.header ++ w)
    (hfuture : w ++ future = (r.rest b).text b) (hsees : seesEnd w = true)
    (heq : s = ((announced path room r got w).writeBody w).switchStatus .done) :
    Spoiled path b (r.rest b) got s := by
  obtain ⟨hacks, hsaved, -⟩ := (announced_loading got w room hcode).mistake w
  rw [heq]
  refine ⟨by rw [hacks]; simp, fun hended hdelivered => ?_⟩
  have hdata : (r.rest b).data = b.chunks.flatMap HttpChunk.data := rfl
  have hall : (r.rest b).ended b = r.header.length + (b.chunks.flatMap HttpChunk.text).length +
      b.lastLine.length := rfl
  have hle := length_data_le b.chunks
  have hline : 0 < b.lastLine.length := by
    rw [ChunkedBody.lastLine, List.length_append]
    exact Nat.succ_pos _
  have hlen : got.length = r.header.length + w.length := by rw [hgot, List.length_append]
  by_cases hpath : path = []
  · have hbody := hdelivered.acks
    rw [hacks, if_pos hpath, if_pos hpath, List.cons.injEq, Prod.mk.injEq] at hbody
    have hsame := congrArg List.length hbody.1.2
    have hmax := hfits.body hpath
    have hdlen := congrArg List.length hdata
    rw [List.nil_append, List.length_take, List.length_nil] at hsame
    omega
  · have hfile := hdelivered.saved
    rw [hsaved, if_neg hpath, if_neg hpath, Option.some.injEq] at hfile
    cases hchunks : b.chunks with
    | nil =>
        have htail : w ++ future = b.tail := by
          rw [hfuture, Rest.text, HttpResponse.rest, hchunks, List.flatMap_nil, List.nil_append]
        obtain ⟨i, hi⟩ := Option.isSome_iff_exists.mp hsees
        obtain ⟨x, hx⟩ := cstr_starts w
        refine b.tail_no_end ?_
        rw [← htail, ← hx, List.append_assoc]
        exact ((strstr_found hi).isInfix.trans (List.drop_suffix i _).isInfix).trans
          (List.prefix_append _ _).isInfix
    | cons k chunks =>
        rw [hdata, hchunks, List.flatMap_cons] at hfile
        exact k.data_ne (List.append_eq_nil_iff.mp hfile.symm).1

/-- The piece with the end of the header: an end is seen, or the chunks are waited for. -/
theorem pending_arrives (hannounced : r.SaysChunked)
    (hcode : path ≠ [] → ackCode r.lines = 200 ∨ ackCode r.lines = 206)
    (hfits : Fits path room b (r.rest b)) (hheader : r.header.length ≤ maxSize - 4096)
    (hgot : got ++ buf = r.header ++ w) (hshort : got.length < r.header.length) (hne : buf ≠ [])
    (hsize : buf.length ≤ 4095) (hfuture : w ++ future = (r.rest b).text b) :
    ∃ s, (pending path room got).onReceive buf = some s ∧
      (seesEnd w = true ∧ Spoiled path b (r.rest b) (got ++ buf) s ∨
        seesEnd w = false ∧ Waiting path room b (r.rest b) (got ++ buf) future s) := by
  have hmax : maxSize = 2 ^ 24 := rfl
  have hlen := congrArg List.length hgot
  rw [List.length_append, List.length_append] at hlen
  have hturn := pending_header path room hannounced hgot
  rw [pending_receive (by rw [List.length_append]; omega) hne, parseInbox]
  by_cases hsees : seesEnd w = true
  · rw [if_pos hsees] at hturn
    exact ⟨_, parseLoop_stop hturn (Or.inl rfl) _ _,
      Or.inl ⟨hsees, announced_spoiled hcode hfits hgot hfuture hsees rfl⟩⟩
  · rw [if_neg hsees] at hturn
    refine ⟨_, parseLoop_stop hturn (Or.inl rfl) _ _, Or.inr ⟨by simpa using hsees, ?_⟩⟩
    rw [switchStatus_eq (by simp)]
    have hlead : (announced path room r (got ++ buf) w).mChunkedDoubleCRLF = false := by
      rw [announced, pending, sent_eq]
    have hloading := (announced_loading (got ++ buf) w room hcode).update w
      .receivingChunkedLength (announced path room r (got ++ buf) w).mChunkedDoubleCRLF
      (announced path room r (got ++ buf) w).mChunkedBytes
      (announced path room r (got ++ buf) w).mChunkedReceivedBytes (got ++ buf)
    have hnil : { announced path room r (got ++ buf) w with
        mHttpAckStatus := .receivingChunkedLength }.lead = [] := by
      rw [lead]
      exact if_neg (by simpa using hlead)
    refine .length rfl hloading ?_ ?_ ?_ ?_ ?_
    · rw [hnil, List.nil_append]
      exact hfuture
    · rw [hnil]
      exact Nat.zero_le _
    · rw [hnil, List.length_nil, Nat.sub_zero, hgot]
      exact List.drop_left
    · rw [hnil, List.length_nil, Nat.add_zero, hgot, List.length_append]
      rfl
    · show w.length ≤ maxSize - 4095
      omega

theorem header_le_ended (r : HttpResponse) (b : ChunkedBody) :
    r.header.length ≤ (r.rest b).ended b := by
  have hsum : (r.rest b).ended b = r.header.length + (b.chunks.flatMap HttpChunk.text).length +
      b.lastLine.length := rfl
  omega

/-- No answer is due, and none was given. -/
theorem pending_due (hshort : got.length < r.header.length) :
    Due path b (r.rest b) got (pending path room got) :=
  due_early pending_acks (lt_of_lt_of_le hshort (header_le_ended r b))

/-- By induction on the pieces: up to the end of the header nothing is looked at. -/
theorem downloads_from (got : Bytes) (hannounced : r.SaysChunked)
    (hframing : r.framing = .chunked b)
    (hcode : path ≠ [] → ackCode r.lines = 200 ∨ ackCode r.lines = 206)
    (hheader : r.header.length ≤ maxSize - 4096) (hfits : Fits path room b (r.rest b))
    {reads : List Bytes} (hreads : ∀ buf ∈ reads, buf ≠ [] ∧ buf.length ≤ 4095)
    (hshort : got.length < r.header.length) (htext : got ++ reads.flatten = r.text) :
    OnTime path b (r.rest b) got (pending path room got) reads ↔
      r.HeaderApart b got reads ∧ ∀ text ∈ r.looks b got reads, seesEnd text = false := by
  have hmax : maxSize = 2 ^ 24 := rfl
  have hall : r.text = r.header ++ (r.rest b).text b := by
    rw [HttpResponse.text, HttpResponse.body, hframing]
    rfl
  induction reads generalizing got with
  | nil =>
      have hlen := congrArg List.length htext
      rw [List.flatten_nil, List.append_nil, hall, List.length_append] at hlen
      omega
  | cons buf reads ih =>
      obtain ⟨hne, hsize⟩ := hreads buf List.mem_cons_self
      have hlater := fun buf hbuf => hreads buf (List.mem_cons_of_mem _ hbuf)
      rw [List.flatten_cons, ← List.append_assoc] at htext
      rw [HttpResponse.looks, HttpResponse.HeaderApart]
      by_cases hwait : (got ++ buf).length < r.header.length
      · have hstart : got ++ buf <+: r.header := by
          refine List.prefix_of_prefix_length_le (List.prefix_append _ reads.flatten) ?_ hwait.le
          rw [htext, hall]
          exact List.prefix_append _ _
        rw [if_pos hwait, if_pos hwait, onTime_cons_iff (pending_waits hstart hwait (by omega) hne),
          and_iff_right (pending_due hshort)]
        exact ih _ hlater hwait htext
      · obtain ⟨w, hw⟩ : r.header <+: got ++ buf := by
          refine List.prefix_of_prefix_length_le (List.prefix_append _ ((r.rest b).text b)) ?_
            (by omega)
          rw [← hall, ← htext]
          exact List.prefix_append _ _
        have hfuture : w ++ reads.flatten = (r.rest b).text b := by
          rw [← hw, hall, List.append_assoc] at htext
          exact List.append_cancel_left htext
        obtain ⟨s, hs, houtcome⟩ := pending_arrives hannounced hcode hfits hheader hw.symm hshort
          hne hsize hfuture
        rw [if_neg hwait, if_neg hwait, onTime_cons_iff hs, and_iff_right (pending_due hshort),
          ← hw, List.drop_left, List.forall_mem_cons, hw]
        rcases houtcome with ⟨hsees, hspoiled⟩ | ⟨hquiet, hwaiting⟩
        · refine ⟨fun h => absurd h.due hspoiled.not_due, fun h => ?_⟩
          rw [h.2.1] at hsees
          exact absurd hsees Bool.false_ne_true
        · rw [and_iff_right hquiet]
          by_cases hended : (got ++ buf).length < (r.rest b).ended b
          · rw [onTime_iff hwaiting hfits hlater hended, and_iff_right hended]
          · -- the download waits for more, but nothing more is to come in time
            refine ⟨fun h => ?_, fun h => absurd h.1 hended⟩
            have hdelivered := h.due
            rw [Due, if_pos (Nat.le_of_not_lt hended)] at hdelivered
            have hacks := hdelivered.acks
            rw [hwaiting.loading.2] at hacks
            exact absurd hacks (by simp)

end

/-- However a response with chunks is cut: the answer comes with the line of the empty chunk, once,
and is the data of the chunks. -/
def Downloads (path : Bytes) (room : ℕ) (r : HttpResponse) (b : ChunkedBody) (reads : List Bytes) :
    Prop :=
  ∀ seen, seen <+: reads → ∃ s, (sent path room).receives seen = some s ∧
    if (r.rest b).ended b ≤ seen.flatten.length then Delivered path b.data s else s.acks = []

theorem downloads_iff {r : HttpResponse} {b : ChunkedBody} {path : Bytes} {room : ℕ}
    {reads : List Bytes} (hannounced : r.SaysChunked) (hframing : r.framing = .chunked b)
    (hcode : path ≠ [] → ackCode r.lines = 200 ∨ ackCode r.lines = 206)
    (hheader : r.header.length ≤ maxSize - 4096) (hfits : Fits path room b (r.rest b))
    (hreads : AckReceiver.Pieces r.text reads) :
    Downloads path room r b reads ↔
      r.HeaderApart b [] reads ∧ ∀ text ∈ r.looks b [] reads, seesEnd text = false := by
  have hpos : 0 < r.header.length := by
    rw [r.header_length]
    exact Nat.succ_pos _
  have hstart : pending path room [] = sent path room := by rw [pending, sent_eq]
  have hall := downloads_from [] hannounced hframing hcode hheader hfits hreads.sizes hpos
    hreads.flatten_eq
  rw [hstart] at hall
  exact hall

open HttpResponse

theorem fits_trap : Fits [] 0 trapBody (trap.rest trapBody) := by
  have hmax : maxSize = 2 ^ 24 := rfl
  have hdata : (trap.rest trapBody).data.length = 7 := rfl
  have hlast : trapBody.lastLine.length ≤ 5 := by decide
  have hline : trapChunk.line.length ≤ 5 := by decide
  refine ⟨fun k hk => ?_, by omega, fun _ => by omega, fun hpath => absurd rfl hpath, by omega⟩
  rw [List.mem_singleton.mp hk]
  omega

theorem trap_header_length : trap.header.length = 47 := by decide

theorem trap_line_length : trapChunk.line.length = 3 := by decide

/-- In one piece. -/
theorem trap_whole : AckReceiver.Pieces trap.text [trap.text] := by
  have hlength : trap.text.length = 64 := by decide
  refine ⟨fun p hp => ?_, List.append_nil _⟩
  rw [List.mem_singleton.mp hp]
  exact ⟨List.length_pos_iff.mp (by omega), by omega⟩

/-- Cut behind the header and behind the line of the size. -/
theorem trap_cut :
    AckReceiver.Pieces trap.text [trap.header, trapChunk.line, chunksEnd ++ chunksEnd] := by
  have hheader := trap_header_length
  have hline := trap_line_length
  have hend : (chunksEnd ++ chunksEnd).length = 14 := rfl
  refine ⟨fun p hp => ?_, rfl⟩
  have hsize : 0 < p.length ∧ p.length ≤ 4095 := by
    simp only [List.mem_cons, List.not_mem_nil, or_false] at hp
    rcases hp with rfl | rfl | rfl <;> omega
  exact ⟨List.length_pos_iff.mp hsize.1, hsize.2⟩

theorem trap_apart :
    trap.HeaderApart trapBody [] [trap.header, trapChunk.line, chunksEnd ++ chunksEnd] := by
  have hended : (trap.rest trapBody).ended trapBody = 62 := by decide
  have hheader := trap_header_length
  rw [HeaderApart, List.nil_append, if_neg (by omega), hended]
  omega

/-- Nothing stands behind the places where the pieces end. -/
theorem trap_looks :
    trap.looks trapBody [] [trap.header, trapChunk.line, chunksEnd ++ chunksEnd] = [[], []] := by
  have hplaces : (trap.rest trapBody).places = [50] := by decide
  have hall : (trap.header ++ trapChunk.line).length = 50 := by
    rw [List.length_append, trap_header_length, trap_line_length]
  have hreached : [50].filter (· ≤ (trap.header ++ trapChunk.line).length) = [50] := by
    rw [hall]
    rfl
  have hahead : [50].filter ((trap.header ++ trapChunk.line).length < ·) = [] := by
    rw [hall]
    rfl
  rw [looks, List.nil_append, if_neg (lt_irrefl _), List.drop_length, hplaces, chunkLooks, hreached,
    hahead, chunkLooks_nil, List.map_singleton, ← hall, List.drop_length]
  rfl

/-- The same response, in those pieces and in one. -/
theorem downloads_iff_trap :
    Downloads [] 0 trap trapBody [trap.header, trapChunk.line, chunksEnd ++ chunksEnd] ∧
      ¬ Downloads [] 0 trap trapBody [trap.text] := by
  have hheader : trap.header.length ≤ maxSize - 4096 := by
    rw [trap_header_length]
    decide
  have hcode : ([] : Bytes) ≠ [] → ackCode trap.lines = 200 ∨ ackCode trap.lines = 206 :=
    fun hpath => absurd rfl hpath
  constructor
  · refine (downloads_iff saysChunked_trap rfl hcode hheader fits_trap trap_cut).mpr
      ⟨trap_apart, fun text htext => ?_⟩
    rw [trap_looks] at htext
    have hnil : text = [] := by simpa using htext
    rw [hnil]
    rfl
  · intro h
    have hquiet := ((downloads_iff saysChunked_trap rfl hcode hheader fits_trap trap_whole).mp h).2
    have hin : trap.body ∈ trap.looks trapBody [] [trap.text] := by
      have hdrop : trap.text.drop trap.header.length = trap.body := List.drop_left
      have hlong : trap.header.length ≤ trap.text.length := by
        rw [HttpResponse.text, List.length_append]
        exact Nat.le_add_right _ _
      rw [looks, List.nil_append, if_neg (Nat.not_lt_of_le hlong), hdrop]
      exact List.mem_cons_self
    have hsees : seesEnd trap.body = true := by decide
    rw [hquiet trap.body hin] at hsees
    cases hsees

end HttpGet
end CoreLooper.Http
