import CoreLooper.SctpRoundTrip

/-!
# What the sender puts out

The frame of a bundle has its items, the number unless the program has set one or it is off, and
the checksum. The outbox holds this frame when the table and the outbox have room for it.
-/
namespace CoreLooper.Sctp
open CStrings Framing

section
variable {s r : TagSCTP} {f : KeyValue} {fs : List KeyValue} {b : TagByteBuffer}
  {chunks : List Bytes}

/-- The number of a frame. -/
def seqField (s : TagSCTP) : List KeyValue :=
  if s.mDisableSeq = false ∧ s.mOutboxBundle.bundleExists (ascii "seq") = false then
    [⟨ascii "seq", decimal (s.mSeq + 1).toNat⟩]
  else []

def numbered (s : TagSCTP) : List KeyValue := s.mOutboxBundle.mItems ++ seqField s

def crcField (fs : List KeyValue) : KeyValue := ⟨ascii "crc", hex4 (crcOf fs)⟩

/-- What the frame of a bundle is meant to have. -/
def fields (s : TagSCTP) : List KeyValue := numbered s ++ [crcField (numbered s)]

theorem writeString_fits {text : Bytes}
    (hfit : b.data.length + text.length < b.mTotalBytes.toNat) :
    b.writeString text = { b with data := b.data ++ text } := by
  have hsize := b.mTotalBytes.toNat_lt
  unfold TagByteBuffer.writeString
  split_ifs with hempty
  · rw [hempty, List.append_nil]
  · have hpos := List.length_pos_iff.mpr hempty
    have hfull : ¬ (b.data.length : ℤ) ≥ b.mTotalBytes.toNat - 1 := by omega
    have hfree : b.mTotalBytes.toNat - b.data.length - 1 ≠ 0 := by omega
    rw [Nat.mod_eq_of_lt (by omega), List.take_length, TagByteBuffer.input]
    simp only [TagByteBuffer.getFreeBytes, if_neg hfull, if_neg hfree]
    rw [Nat.min_eq_left (by omega), List.take_length]

theorem writeItem_fits (hfit : b.data.length + (line f).length < b.mTotalBytes.toNat) :
    TagSCTP.writeItem b f =
      { b with data := b.data ++ lines ([f].filter (·.name ≠ [])) } := by
  have hline := line_length f
  unfold TagSCTP.writeItem
  split_ifs with hempty
  · simp [hempty, lines]
  · have hsign : (ascii "=").length = 1 := rfl
    have hend : CRLF.length = 2 := rfl
    have h1 := @writeString_fits b f.name (by omega)
    have h2 := @writeString_fits { b with data := b.data ++ f.name } (ascii "=")
      (by simp only [List.length_append]; omega)
    have h3 := @writeString_fits { b with data := b.data ++ f.name ++ ascii "=" } f.value
      (by simp only [List.length_append]; omega)
    have h4 := @writeString_fits { b with data := b.data ++ f.name ++ ascii "=" ++ f.value } CRLF
      (by simp only [List.length_append]; omega)
    rw [h1, h2, h3, h4]
    simp [hempty, lines, line, ascii]

/-- A line that is not written makes the frame shorter. -/
theorem lines_filter_le (fs : List KeyValue) :
    (lines (fs.filter (·.name ≠ []))).length + (fs.filter (·.name = [])).length ≤
      (lines fs).length := by
  induction fs with
  | nil => simp [lines]
  | cons f fs ih =>
      have hline := line_length f
      have hcons : ∀ gs, (lines (f :: gs)).length = (line f).length + (lines gs).length := by
        intro gs
        rw [lines, List.flatMap_cons, List.length_append, ← lines]
      by_cases hempty : f.name = []
      · rw [List.filter_cons_of_neg (by simp [hempty]), List.filter_cons_of_pos (by simp [hempty]),
          hcons, List.length_cons]
        omega
      · rw [List.filter_cons_of_pos (by simp [hempty]), List.filter_cons_of_neg (by simp [hempty]),
          hcons, hcons]
        omega

theorem writeItems_fits (hfit : b.data.length + (lines fs).length < b.mTotalBytes.toNat) :
    fs.foldl TagSCTP.writeItem b =
      { b with data := b.data ++ lines (fs.filter (·.name ≠ [])) } := by
  induction fs generalizing b with
  | nil => simp [lines]
  | cons f fs ih =>
      have hcons : lines (f :: fs) = line f ++ lines fs := List.flatMap_cons
      rw [hcons, List.length_append] at hfit
      have hle : (lines ([f].filter (·.name ≠ []))).length ≤ (line f).length := by
        by_cases hempty : f.name = [] <;> simp [hempty, lines]
      rw [List.foldl_cons, writeItem_fits (by omega), ih]
      · have hfilter : (f :: fs).filter (·.name ≠ []) =
            [f].filter (·.name ≠ []) ++ fs.filter (·.name ≠ []) := List.filter_append [f] fs
        rw [hfilter]
        simp only [lines, List.flatMap_append, List.append_assoc]
      · simp only [List.length_append]
        omega

/-- The items the outbox is made of, when the table has room for them. -/
theorem pushSeq_items (htable : (fields s).length ≤ s.mOutboxBundle.mTotalCount.toNat) :
    s.pushSeq.mOutboxBundle.mItems = numbered s ∧
      s.pushSeq.mOutboxBundle.mTotalCount = s.mOutboxBundle.mTotalCount ∧
      s.pushSeq.mOutbox = s.mOutbox := by
  unfold fields numbered seqField at htable
  unfold TagSCTP.pushSeq numbered seqField
  split_ifs at htable ⊢ with hseq
  · simp only [List.length_append, List.length_singleton] at htable
    have hfull : ¬ s.mOutboxBundle.mItems.length ≥ s.mOutboxBundle.mTotalCount.toNat := by omega
    simp only [TagBundle.push, if_neg hfull, and_self]
  · exact ⟨(List.append_nil _).symm, rfl, rfl⟩

/-- Whatever happened, the caller is told that it went well. -/
theorem createOutboxData_return (s : TagSCTP) : s.createOutboxData.1 = 0 := rfl

theorem outbox_fits (htable : (fields s).length ≤ s.mOutboxBundle.mTotalCount.toNat)
    (hfit : (frame (fields s)).length < s.mOutbox.mTotalBytes.toNat) :
    s.createOutboxData.2.mOutbox.data = frame ((fields s).filter (·.name ≠ [])) := by
  obtain ⟨hitems, htotal, houtbox⟩ := pushSeq_items htable
  have hpush : (s.pushSeq.mOutboxBundle.push (ascii "crc")
      (hex4 (crcOf s.pushSeq.mOutboxBundle.mItems))).2.mItems = fields s := by
    have hfull : ¬ s.pushSeq.mOutboxBundle.mItems.length ≥
        s.pushSeq.mOutboxBundle.mTotalCount.toNat := by
      rw [hitems, htotal]
      simp only [fields, List.length_append, List.length_singleton] at htable
      omega
    rw [TagBundle.push, if_neg hfull, hitems, fields, crcField]
  rw [frame_length] at hfit
  have hwrite := @writeItems_fits (fields s) s.mOutbox.clear (by
    simp only [TagByteBuffer.clear, List.length_nil]
    omega)
  have hle := lines_filter_le (fields s)
  simp only [TagSCTP.createOutboxData, hpush, houtbox]
  rw [hwrite, writeString_fits]
  · rfl
  · simp only [TagByteBuffer.clear, List.nil_append, CRLF, List.length_cons, List.length_nil]
    omega

theorem crcOf_append_crc (fs : List KeyValue) (value : Bytes) :
    crcOf (fs ++ [⟨ascii "crc", value⟩]) = crcOf fs := by
  rw [crcOf, List.foldl_append, List.foldl_cons, List.foldl_nil, if_pos (Or.inr rfl), ← crcOf]

theorem hex4_ne_nil (crc : UInt16) : hex4 crc ≠ [] := by simp [hex4]

/-- The frame passes the check when an item named `crc`, if there is one, has the checksum. -/
theorem checkCrc_fields (s : TagSCTP) : checkCrc (fields s) = true ↔
    ∀ f, (numbered s).find? (·.name = ascii "crc") = some f →
      f.value ≠ [] ∧ f.value.map toLower = (hex4 (crcOf (numbered s))).map toLower := by
  have hcrc : crcOf (fields s) = crcOf (numbered s) := crcOf_append_crc _ _
  cases hfind : (numbered s).find? (·.name = ascii "crc") with
  | none =>
      have hlast : getString (fields s) (ascii "crc") = hex4 (crcOf (numbered s)) := by
        rw [getString, fields, List.find?_append, hfind]
        rfl
      simp [checkCrc, hlast, hcrc, hex4_ne_nil]
  | some g =>
      have hfirst : getString (fields s) (ascii "crc") = g.value := by
        rw [getString, fields, List.find?_append, hfind]
        rfl
      simp only [checkCrc, hfirst, hcrc, decide_eq_true_eq, Option.some.injEq, forall_eq']
      rw [eq_comm (a := (hex4 (crcOf (numbered s))).map toLower)]

theorem strstr_not_mem {h n : Bytes} {c : UInt8} (hc : c ∉ h) : strstr h (c :: n) = none := by
  have hskip := strstr_skip (h := []) (n := n) hc
  rw [List.append_nil] at hskip
  rw [hskip]
  rfl

theorem Plain.oneLine (h : Plain f) : OneLine f where
  sign hmem := (h.name _ hmem).2.2.2 rfl
  line := by
    refine strstr_not_mem fun hmem => ?_
    rcases List.mem_append.mp hmem with hmem | hmem
    · exact (h.name _ hmem).1 rfl
    · rcases List.mem_cons.mp hmem with hmem | hmem
      · exact absurd hmem (by decide)
      · exact (h.value _ hmem).1 rfl
  name hmem := (h.name _ hmem).2.2.1 rfl
  value hmem := (h.value _ hmem).2.2 rfl

theorem plain_of_value {name value : Bytes}
    (hname : name ≠ [] ∧ ∀ c ∈ name, c ≠ 13 ∧ c ≠ 10 ∧ c ≠ 0 ∧ c ≠ 61)
    (hvalue : ∀ c ∈ value, c ≠ 13 ∧ c ≠ 10 ∧ c ≠ 0) : Plain ⟨name, value⟩ :=
  ⟨hname.1, hname.2, hvalue⟩

theorem seqField_plain (s : TagSCTP) : ∀ f ∈ seqField s, Plain f := by
  intro f hf
  unfold seqField at hf
  split_ifs at hf
  · rw [List.mem_singleton] at hf
    subst hf
    refine plain_of_value (by decide +kernel) fun c hc => ?_
    rcases mem_decimal hc with rfl | hdigit
    · decide
    · refine ⟨?_, ?_, ?_⟩ <;> rintro rfl <;> exact absurd hdigit (by decide)
  · cases hf

theorem hexDigit_plain : ∀ n < 16, hexDigit n ≠ 13 ∧ hexDigit n ≠ 10 ∧ hexDigit n ≠ 0 := by
  decide

theorem crcField_plain (fs : List KeyValue) : Plain (crcField fs) := by
  refine plain_of_value (by decide +kernel) fun c hc => ?_
  simp only [hex4, List.mem_cons, List.not_mem_nil, or_false] at hc
  rcases hc with rfl | rfl | rfl | rfl <;> exact hexDigit_plain _ (Nat.mod_lt _ (by decide))

/-- What the frame is read back from. -/
structure Ready (s : TagSCTP) : Prop where
  table : (fields s).length ≤ s.mOutboxBundle.mTotalCount.toNat
  outbox : (frame (fields s)).length < s.mOutbox.mTotalBytes.toNat
  items : ∀ f ∈ s.mOutboxBundle.mItems, f.name ≠ [] ∧ OneLine f
  starts : ∀ f ∈ s.mOutboxBundle.mItems.head?, ∃ c ∈ f.name.head?, isalpha c = true
  crc : ∀ f, (numbered s).find? (·.name = ascii "crc") = some f →
    f.value ≠ [] ∧ f.value.map toLower = (hex4 (crcOf (numbered s))).map toLower

theorem fields_oneLine (h : ∀ f ∈ s.mOutboxBundle.mItems, OneLine f) :
    ∀ f ∈ fields s, OneLine f := by
  intro f hf
  rw [fields, numbered, List.mem_append, List.mem_append, List.mem_singleton] at hf
  rcases hf with (hf | hf) | rfl
  · exact h f hf
  · exact (seqField_plain s f hf).oneLine
  · exact (crcField_plain _).oneLine

theorem fields_named (h : ∀ f ∈ s.mOutboxBundle.mItems, f.name ≠ []) :
    ∀ f ∈ fields s, f.name ≠ [] := by
  intro f hf
  rw [fields, numbered, List.mem_append, List.mem_append, List.mem_singleton] at hf
  rcases hf with (hf | hf) | rfl
  · exact h f hf
  · exact (seqField_plain s f hf).name_ne
  · exact (crcField_plain _).name_ne

/-- The number and the checksum begin with a letter, too. -/
theorem fields_starts (h : ∀ f ∈ s.mOutboxBundle.mItems.head?, ∃ c ∈ f.name.head?,
    isalpha c = true) : Starts false (lines (fields s)) := by
  refine ⟨?_, fun hv => absurd hv (by decide)⟩
  have hname : ∀ f fs, (∃ c ∈ f.name.head?, isalpha c = true) →
      ∃ c ∈ (lines (f :: fs)).head?, isalpha c = true := by
    rintro ⟨name, value⟩ fs ⟨c, hc, halpha⟩
    cases name with
    | nil => cases hc
    | cons d name => exact ⟨c, hc, halpha⟩
  unfold fields numbered
  cases hitems : s.mOutboxBundle.mItems with
  | cons f fs => exact hname f _ (h f (by rw [hitems]; rfl))
  | nil =>
      unfold seqField
      split_ifs
      · exact hname _ _ ⟨115, rfl, by decide⟩
      · exact hname _ _ ⟨99, rfl, by decide⟩

theorem Ready.wellFormed (h : Ready s) : WellFormed false (fields s) where
  fields := fields_oneLine fun f hf => (h.items f hf).2
  starts := fields_starts h.starts
  crc := (checkCrc_fields s).mpr h.crc

theorem Ready.outbox_eq (h : Ready s) : s.createOutboxData.2.mOutbox.data = frame (fields s) := by
  have hall : (fields s).filter (·.name ≠ []) = fields s := by
    refine List.filter_eq_self.mpr fun f hf => ?_
    simpa using fields_named (fun f hf => (h.items f hf).1) f hf
  rw [outbox_fits h.table h.outbox, hall]

theorem delivers_one (hempty : r.mInbox.data = []) (hwf : WellFormed r.m485Verbose fs)
    (htable : fs.length ≤ r.mInboxBundle.mTotalCount.toNat)
    (hsize : (frame fs).length < r.capacity) (hcut : chunks.flatten = frame fs) :
    (chunks.foldl TagSCTP.inputData r).events =
        r.events ++ [.onRecvCommand (getString fs (ascii "cmd")) fs] ∧
      (chunks.foldl TagSCTP.inputData r).mInbox.data = [] := by
  have hflat : (allPieces chunks).flatten = frame fs := (allPieces_flatten chunks).trans hcut
  have hnull : 0 ∉ (allPieces chunks).flatten := by
    rw [hflat]
    exact frame_no_null hwf.fields
  have hframes : frames nextFrame (frame fs) = ([lines fs], []) := by
    have hall : ∀ gs ∈ [fs], WellFormed r.m485Verbose gs := fun gs hgs =>
      List.mem_singleton.mp hgs ▸ hwf
    have hstream := frames_stream hall
    simpa using hstream
  have hfits : Fits nextFrame r.capacity r.mInbox.data
      ((allPieces chunks).map TagSCTP.withoutNull) := by
    rw [map_withoutNull hnull]
    refine fits_of_length nextFrame_stable _ _ ?_
    rw [hempty, hflat]
    simpa using hsize
  obtain ⟨hevents, hdata⟩ := inputs_of_fits (allPieces chunks)
    (by rw [hempty]; exact nextFrame_nil) hfits
  rw [hempty, List.nil_append, withoutNull_eq hnull, hflat, hframes] at hevents hdata
  rw [inputData_fold, hevents, hdata, reports, List.map_singleton, report_wellFormed hwf htable]
  exact ⟨rfl, rfl⟩

/-- The items of a bundle, with the number and the checksum, arrive once and as they are. -/
theorem createOutboxData_arrives
    (hitems : ∀ f ∈ s.mOutboxBundle.mItems, Plain f ∧ f.name ≠ ascii "crc")
    (hfirst : ∀ f ∈ s.mOutboxBundle.mItems.head?, ∃ c ∈ f.name.head?, isalpha c = true)
    (htable : (fields s).length ≤ s.mOutboxBundle.mTotalCount.toNat)
    (htable' : (fields s).length ≤ r.mInboxBundle.mTotalCount.toNat)
    (hsize : (frame (fields s)).length < s.mOutbox.mTotalBytes.toNat)
    (hsize' : (frame (fields s)).length < r.mInbox.mTotalBytes.toNat)
    (hverbose : r.m485Verbose = false) (hempty : r.mInbox.data = [])
    (hcut : chunks.flatten = s.createOutboxData.2.mOutbox.data) :
    (chunks.foldl TagSCTP.inputData r).events =
        r.events ++ [.onRecvCommand (getString (fields s) (ascii "cmd")) (fields s)] ∧
      (chunks.foldl TagSCTP.inputData r).mInbox.data = [] := by
  have hcrc : ∀ f ∈ numbered s, f.name ≠ ascii "crc" := by
    intro f hf
    rcases List.mem_append.mp hf with hf | hf
    · exact (hitems f hf).2
    · unfold seqField at hf
      split_ifs at hf
      · rw [List.mem_singleton.mp hf]
        exact (by decide +kernel : ascii "seq" ≠ ascii "crc")
      · cases hf
  have hready : Ready s :=
    { table := htable
      outbox := hsize
      items := fun f hf => ⟨(hitems f hf).1.name_ne, (hitems f hf).1.oneLine⟩
      starts := hfirst
      crc := by
        intro f hf
        have hname : f.name = ascii "crc" := by simpa using List.find?_some hf
        exact absurd hname (hcrc f (List.mem_of_find?_eq_some hf)) }
  rw [hready.outbox_eq] at hcut
  have hwf : WellFormed r.m485Verbose (fields s) := by
    rw [hverbose]
    exact hready.wellFormed
  exact delivers_one hempty hwf htable' hsize' hcut

/-- A side that has one item to send. -/
def goSender : TagSCTP :=
  { fresh 16 64 with mOutboxBundle := ⟨[⟨ascii "cmd", ascii "go"⟩], 16⟩ }

/-- The frame `cmd=go`, `seq=1`, `crc=7467` in calls of 10 bytes and the rest. -/
theorem createOutboxData_arrives_go :
    ([goSender.createOutboxData.2.mOutbox.data.take 10,
        goSender.createOutboxData.2.mOutbox.data.drop 10].foldl TagSCTP.inputData
          (fresh 16 64)).events =
        [] ++ [.onRecvCommand (getString (fields goSender) (ascii "cmd")) (fields goSender)] ∧
      ([goSender.createOutboxData.2.mOutbox.data.take 10,
        goSender.createOutboxData.2.mOutbox.data.drop 10].foldl TagSCTP.inputData
          (fresh 16 64)).mInbox.data = [] :=
  createOutboxData_arrives (s := goSender) (r := fresh 16 64) (by decide +kernel)
    (by decide +kernel) (by decide +kernel) (by decide +kernel) (by decide +kernel)
    (by decide +kernel) rfl rfl (by simp)

/-- Every receiver with room for it takes the text as one command with these items. -/
def Accepted (fs : List KeyValue) (text : Bytes) : Prop :=
  ∀ r : TagSCTP, r.mInbox.data = [] → r.m485Verbose = false →
    fs.length ≤ r.mInboxBundle.mTotalCount.toNat → text.length < r.capacity →
    (r.inputData text).events =
        r.events ++ [.onRecvCommand (getString fs (ascii "cmd")) fs] ∧
      (r.inputData text).mInbox.data = []

/-- Success is returned for a complete frame that is accepted, and an error, without a part of a
frame in the outbox, where the table or the outbox is too small. -/
def ReportsErrors (s : TagSCTP) : Prop :=
  (s.createOutboxData.1 = 0 →
    s.createOutboxData.2.mOutbox.data = frame (fields s) ∧
      Accepted (fields s) s.createOutboxData.2.mOutbox.data) ∧
  (s.mOutboxBundle.mTotalCount.toNat < (fields s).length ∨
      s.mOutbox.mTotalBytes.toNat ≤ (frame (fields s)).length →
    s.createOutboxData.1 ≠ 0 ∧
      (s.createOutboxData.2.mOutbox.data = [] ∨
        s.createOutboxData.2.mOutbox.data = frame (fields s)))

theorem skipNoise_suffix (verbose : Bool) (n : ℕ) (x : Bytes) : skipNoise verbose n x <:+ x := by
  induction n generalizing x with
  | zero => exact List.suffix_refl x
  | succ n ih =>
      cases x with
      | nil => exact List.suffix_refl []
      | cons c x =>
          rw [skipNoise]
          split_ifs
          · exact (ih x).trans (List.suffix_cons c x)
          · exact List.suffix_refl _

/-- Text of which nothing was skipped begins with a letter. -/
theorem skipNoise_whole {verbose : Bool} {n : ℕ} {x : Bytes} (hn : 0 < n) (hx : x ≠ [])
    (h : x.length ≤ (skipNoise verbose n x).length) : ∃ c ∈ x.head?, isalpha c = true := by
  obtain ⟨m, rfl⟩ : ∃ m, n = m + 1 := ⟨n - 1, by omega⟩
  cases x with
  | nil => exact absurd rfl hx
  | cons c x =>
      rw [skipNoise] at h
      split_ifs at h with hskip
      · have hle := (skipNoise_suffix verbose m x).length_le
        rw [List.length_cons] at h
        omega
      · refine ⟨c, rfl, ?_⟩
        simp only [Bool.or_eq_true, Bool.not_eq_true', not_or, Bool.not_eq_false] at hskip
        exact hskip.1

/-- A line is cut at its first equal sign. -/
theorem strstr_sign {l : Bytes} {i : ℕ} (h : strstr l (ascii "=") = some i) :
    61 ∉ l.take i ∧ l = l.take i ++ 61 :: l.drop (i + 1) := by
  have hsign : ascii "=" = [61] := rfl
  rw [hsign] at h
  have hle : i + 1 ≤ l.length := strstr_add_length_le h
  have hat : ∀ j (hj : j < l.length), [61] <+: l.drop j ↔ l[j] = 61 := by
    intro j hj
    rw [List.drop_eq_getElem_cons hj, List.cons_prefix_cons]
    simp [eq_comm]
  constructor
  · intro hmem
    obtain ⟨j, hj, hget⟩ := List.mem_iff_getElem.mp hmem
    rw [List.length_take] at hj
    rw [List.getElem_take] at hget
    exact strstr_first h (by omega) ((hat j (by omega)).mpr hget)
  · have hget := (hat i (by omega)).mp (strstr_found h)
    conv_lhs => rw [← List.take_append_drop i l, List.drop_eq_getElem_cons (by omega), hget]

/-- Items that were read stand on lines of their own. -/
theorem pushFields_oneLine (fuel : ℕ) (body : Bytes) (b : TagBundle) (hnull : 0 ∉ body) :
    ∃ fs, (pushFields fuel body b).mItems = b.mItems ++ fs ∧
      (lines fs).length ≤ body.length ∧ ∀ f ∈ fs, OneLine f := by
  induction fuel generalizing body b with
  | zero => exact ⟨[], by simp [pushFields], by simp [lines], by simp⟩
  | succ fuel ih =>
      rw [pushFields]
      split_ifs with hempty
      · exact ⟨[], by simp, by simp [lines], by simp⟩
      · cases hend : strstr body CRLF with
        | none => exact ⟨[], by simp, by simp [lines], by simp⟩
        | some lineEnd =>
            have hle : lineEnd + 2 ≤ body.length := strstr_add_length_le hend
            have hdropnull : 0 ∉ body.drop (lineEnd + 2) :=
              fun h0 => hnull (List.mem_of_mem_drop h0)
            have hline : strstr (body.take lineEnd) CRLF = none := by
              cases hin : strstr (body.take lineEnd) CRLF with
              | none => rfl
              | some j =>
                  have hj := strstr_add_length_le hin
                  have hmore := strstr_append hin (body.drop lineEnd)
                  rw [List.take_append_drop, hend] at hmore
                  obtain rfl := Option.some.inj hmore
                  have htwo : CRLF.length = 2 := rfl
                  rw [List.length_take, htwo] at hj
                  omega
            simp only
            cases hsign : strstr (body.take lineEnd) (ascii "=") with
            | none =>
                obtain ⟨fs, hitems, hlen, hone⟩ := ih (body.drop (lineEnd + 2)) b hdropnull
                rw [List.length_drop] at hlen
                exact ⟨fs, hitems, by omega, hone⟩
            | some i =>
                obtain ⟨hfirst, hsplit⟩ := strstr_sign hsign
                have hmem : ∀ c ∈ body.take lineEnd, c ∈ body := fun c hc => List.mem_of_mem_take hc
                have hone :
                  OneLine ⟨(body.take lineEnd).take i, (body.take lineEnd).drop (i + 1)⟩ :=
                  { sign := hfirst
                    line := by
                      show strstr ((body.take lineEnd).take i ++
                        61 :: (body.take lineEnd).drop (i + 1)) CRLF = none
                      rw [← hsplit]
                      exact hline
                    name := fun h0 => hnull (hmem 0 (List.mem_of_mem_take h0))
                    value := fun h0 => hnull (hmem 0 (List.mem_of_mem_drop h0)) }
                have hlen : (line ⟨(body.take lineEnd).take i,
                    (body.take lineEnd).drop (i + 1)⟩).length = lineEnd + 2 := by
                  show ((body.take lineEnd).take i ++
                    61 :: (body.take lineEnd).drop (i + 1) ++ CRLF).length = lineEnd + 2
                  rw [← hsplit, List.length_append, List.length_take, Nat.min_eq_left (by omega)]
                  rfl
                obtain ⟨fs, hitems, hrest, hall⟩ := ih (body.drop (lineEnd + 2))
                  (b.push ((body.take lineEnd).take i) ((body.take lineEnd).drop (i + 1))).2
                  hdropnull
                rw [List.length_drop] at hrest
                rw [hitems]
                unfold TagBundle.push
                split_ifs
                · exact ⟨fs, rfl, by omega, hall⟩
                · refine ⟨_ :: fs, List.append_assoc _ _ _, ?_, ?_⟩
                  · rw [lines, List.flatMap_cons, List.length_append, hlen, ← lines]
                    omega
                  · intro f hf
                    rcases List.mem_cons.mp hf with rfl | hf
                    · exact hone
                    · exact hall f hf

theorem withoutNull_null (text : Bytes) : 0 ∉ TagSCTP.withoutNull text := by
  intro h
  obtain ⟨c, -, hc⟩ := List.mem_map.mp h
  split_ifs at hc with h0
  · exact absurd hc (by decide)
  · exact h0 hc

/-- What a receiver with much room makes of a text. -/
theorem fresh_events {text : Bytes} (hsize : text.length < 65535) :
    ((fresh 255 65535).inputData text).events =
      reports (fresh 255 65535) (frames nextFrame (TagSCTP.withoutNull text)).1 := by
  have hflat : (allPieces [text]).flatten = text := by
    rw [allPieces_flatten, List.flatten_singleton]
  have hfits : Fits nextFrame (fresh 255 65535).capacity (fresh 255 65535).mInbox.data
      ((allPieces [text]).map TagSCTP.withoutNull) := by
    refine fits_of_length nextFrame_stable _ _ ?_
    have hmap : ((allPieces [text]).map TagSCTP.withoutNull).flatten =
        TagSCTP.withoutNull text := by
      conv_rhs => rw [← hflat]
      exact (List.map_flatten ..).symm
    rw [hmap, withoutNull_length]
    show 0 + text.length < 65535
    omega
  obtain ⟨hevents, -⟩ := inputs_of_fits (allPieces [text]) nextFrame_nil hfits
  rw [hflat] at hevents
  have hfold := inputData_fold (fresh 255 65535) [text]
  rw [List.foldl_cons, List.foldl_nil] at hfold
  rw [hfold, hevents]
  rfl

/-- Only a well-formed frame is taken as its own fields. -/
theorem accepted_wellFormed (h : Accepted fs (frame fs)) (htable : fs.length ≤ 255)
    (hsize : (frame fs).length < 65535) : WellFormed false fs := by
  have hevents := (h (fresh 255 65535) rfl rfl htable hsize).1
  rw [fresh_events hsize] at hevents
  have hlen := withoutNull_length (frame fs)
  have hnull := withoutNull_null (frame fs)
  cases hnext : nextFrame (TagSCTP.withoutNull (frame fs)) with
  | none =>
      rw [frames_none hnext] at hevents
      cases hevents
  | some tk =>
      obtain ⟨t, k⟩ := tk
      rw [frames_some nextFrame_stable hnext, reports, List.map_cons] at hevents
      have hreport := (List.cons.inj hevents).1
      obtain ⟨i, hi, heq⟩ := Option.map_eq_some_iff.mp hnext
      have hle : i + 4 ≤ (TagSCTP.withoutNull (frame fs)).length := strstr_add_length_le hi
      obtain ⟨rfl, -⟩ := Prod.mk.inj heq
      -- the items are those of the fields, so none was lost and nothing was skipped
      rw [TagSCTP.report] at hreport
      split_ifs at hreport with hcrc
      have hitems := (Event.onRecvCommand.inj hreport).2
      rw [hitems] at hcrc
      have hne : fs ≠ [] := by
        rintro rfl
        exact absurd hcrc (by decide +kernel)
      have hmin := length_le_lines fs
      have hpos := List.length_pos_iff.mpr hne
      generalize ht : (TagSCTP.withoutNull (frame fs)).take (i + 2) = t at hitems
      have htlen : t.length = i + 2 := by
        rw [← ht, List.length_take]
        omega
      rw [TagSCTP.readItems] at hitems
      have hsuffix := skipNoise_suffix false (t.length - 2) t
      have hskipped : 0 ∉ skipNoise false (t.length - 2) t := by
        intro h0
        rw [← ht] at hsuffix h0
        exact hnull (List.mem_of_mem_take (hsuffix.mem h0))
      obtain ⟨gs, hgs, hbody, hone⟩ := pushFields_oneLine
        (skipNoise false (t.length - 2) t).length (skipNoise false (t.length - 2) t)
        (fresh 255 65535).mInboxBundle.clear hskipped
      obtain rfl : gs = fs := by
        rw [← hitems]
        exact hgs.symm
      rw [frame_length] at hlen
      have hbound := hsuffix.length_le
      obtain ⟨c, hc, halpha⟩ := @skipNoise_whole false (t.length - 2) t (by omega)
        (List.ne_nil_of_length_pos (by omega)) (by omega)
      refine ⟨hone, ⟨?_, fun hv => absurd hv (by decide)⟩, hcrc⟩
      obtain ⟨d, rest, hd⟩ := List.exists_cons_of_ne_nil
        (List.ne_nil_of_length_pos (show 0 < (lines gs).length by omega))
      rw [← ht, frame, hd, TagSCTP.withoutNull, List.cons_append, List.map_cons,
        List.take_succ_cons, List.head?_cons, Option.mem_some_iff] at hc
      rw [hd]
      split_ifs at hc with h0
      · rw [← hc] at halpha
        exact absurd halpha (by decide)
      · exact ⟨d, rfl, by rwa [hc]⟩

/-- The sender tells the truth exactly when there is room for the frame, and its items are such
that they are read back. -/
theorem reportsErrors_iff (s : TagSCTP) : ReportsErrors s ↔ Ready s := by
  constructor
  · rintro ⟨hok, herror⟩
    obtain ⟨hdata, haccept⟩ := hok (createOutboxData_return s)
    obtain ⟨htable, houtbox⟩ := not_or.mp fun h => (herror h).1 (createOutboxData_return s)
    rw [Nat.not_lt] at htable
    rw [Nat.not_le] at houtbox
    have hcount := s.mOutboxBundle.mTotalCount.toNat_lt
    have hbytes := s.mOutbox.mTotalBytes.toNat_lt
    have hmem : ∀ f ∈ s.mOutboxBundle.mItems, f ∈ fields s := fun f hf =>
      List.mem_append_left _ (List.mem_append_left _ hf)
    have hnamed : ∀ f ∈ fields s, f.name ≠ [] := by
      have hlen := congrArg List.length ((outbox_fits htable houtbox).symm.trans hdata)
      have hle := lines_filter_le (fields s)
      rw [frame_length, frame_length] at hlen
      have hnone : (fields s).filter (·.name = []) = [] :=
        List.length_eq_zero_iff.mp (by omega)
      intro f hf
      simpa using List.filter_eq_nil_iff.mp hnone f hf
    rw [hdata] at haccept
    have hwf := accepted_wellFormed haccept (by omega) (by omega)
    refine ⟨htable, houtbox, fun f hf => ⟨hnamed f (hmem f hf), hwf.fields f (hmem f hf)⟩, ?_,
      (checkCrc_fields s).mp hwf.crc⟩
    intro f hf
    obtain ⟨c, hc, halpha⟩ := hwf.starts.1
    obtain ⟨fs, hfs⟩ : ∃ fs, s.mOutboxBundle.mItems = f :: fs := by
      cases hitems : s.mOutboxBundle.mItems with
      | nil => rw [hitems] at hf; cases hf
      | cons g fs =>
          rw [hitems] at hf
          cases hf
          exact ⟨fs, rfl⟩
    obtain ⟨d, rest, hd⟩ := List.exists_cons_of_ne_nil
      (hnamed f (hmem f (by rw [hfs]; exact List.mem_cons_self)))
    rw [fields, numbered, hfs, lines, List.cons_append, List.cons_append, List.flatMap_cons, line,
      hd] at hc
    exact ⟨c, by rw [hd]; exact hc, halpha⟩
  · intro h
    constructor
    · intro _
      rw [h.outbox_eq]
      refine ⟨rfl, fun r hempty hverbose htable hsize => ?_⟩
      have hwf : WellFormed r.m485Verbose (fields s) := by
        rw [hverbose]
        exact h.wellFormed
      have hcut : [frame (fields s)].flatten = frame (fields s) := by simp
      exact delivers_one hempty hwf htable hsize hcut
    · rintro (hfull | hfull)
      · exact absurd h.table (Nat.not_le.mpr hfull)
      · exact absurd h.outbox (Nat.not_lt.mpr hfull)

/-- Fifteen items and the number fill the table, and the checksum is not put in. -/
theorem reportsErrors_full :
    ¬ ReportsErrors { fresh 16 3000 with
        mOutboxBundle := ⟨List.replicate 15 ⟨ascii "a", ascii "1"⟩, 16⟩ } ∧
      TagSCTP.createOutboxData { fresh 16 3000 with
        mOutboxBundle := ⟨List.replicate 15 ⟨ascii "a", ascii "1"⟩, 16⟩ } =
      (0, { fresh 16 3000 with
        mSeq := 1
        mOutbox := ⟨(List.replicate 15 (ascii "a=1" ++ CRLF)).flatten ++
          ascii "seq=1" ++ CRLF ++ CRLF, 3000⟩ }) := by
  constructor
  · intro h
    exact (h.2 (Or.inl (by decide +kernel))).1 rfl
  · decide +kernel

end
end CoreLooper.Sctp
