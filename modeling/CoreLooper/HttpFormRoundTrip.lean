import CoreLooper.HttpFormParts
import CoreLooper.HttpPostRuns

/-!
# A form from end to end

What a post sends behind the header of the request is a form with a part for each text field and
each file. It has the announced length, and the handler finds the fields and files in it.
-/
namespace CoreLooper.Http
open CStrings

namespace HttpPost

variable {files : Bytes → Option Bytes} {p : HttpPost}

/-- A post that has been put together and not yet sent: it has a part, no body of another kind, and
its texts keep to the form. The channel has just been connected. -/
structure Sendable (files : Bytes → Option Bytes) (p : HttpPost) : Prop where
  unsent : p.mStage = .SendNone ∧ p.mFileIndex = -1 ∧ p.mOutbox = {} ∧ p.mDestroyed = false
  is_form : (p.mFields ≠ [] ∨ p.mFiles ≠ []) ∧ p.isJson = false ∧ p.mBodyRawData = []
  boundary : 0 ∉ p.mBoundary ∧ 13 ∉ p.mBoundary ∧ 34 ∉ p.mBoundary
  fields : ∀ item ∈ p.mFields, (0 ∉ item.name ∧ 13 ∉ item.name ∧ 34 ∉ item.name) ∧
    0 ∉ item.value ∧ ¬ delimiter p.mBoundary <:+: item.value
  names : ∀ item ∈ p.mFiles, (0 ∉ item.name ∧ 13 ∉ item.name ∧ 34 ∉ item.name) ∧
    0 ∉ item.getFileTitle ∧ 13 ∉ item.getFileTitle
  on_disk : ∀ item ∈ p.mFiles, ∃ data, files (cstr item.value) = some data ∧
    item.mBytes = data.length ∧ ¬ delimiter p.mBoundary <:+: data

/-- What `PrepareData` puts in front of the form. -/
def requestHeader (files : Bytes → Option Bytes) (p : HttpPost) : Bytes :=
  p.requestHead ++ ascii "Content-Length: " ++ decimal (p.contentLength files) ++ ascii "\r\n" ++
    ascii "\r\n"

/-- The data of a file. -/
def fileData (files : Bytes → Option Bytes) (item : TagItem) : Bytes :=
  (files (cstr item.value)).getD []

/-- Fields and files with their contents. -/
def contents (files : Bytes → Option Bytes) (p : HttpPost) : List (Bytes × Bytes) :=
  p.mFields.map (fun item => (item.name, item.value)) ++
    p.mFiles.map (fun item => (item.name, fileData files item))

/-- The limits of the outbox. -/
structure Fits (files : Bytes → Option Bytes) (p : HttpPost) : Prop where
  head : (p.requestHeader files ++ p.mFields.flatMap (fieldText p.mBoundary)).length ≤
    ByteBuffer.defaultMaxSize
  file_headers : ∀ item ∈ p.mFiles,
    (fileDesc p.mBoundary item).length ≤ ByteBuffer.defaultMaxSize
  closing : (tail p.mBoundary).length ≤ ByteBuffer.defaultMaxSize

theorem fieldsBody_bytes (h : Sendable files p) (hfits : Fits files p) :
    p.fieldsBody.bytes = p.mFields.flatMap (fieldText p.mBoundary) := by
  have hrun : ∀ (items : List TagItem) (q : ByteQueue ByteBuffer.defaultMaxSize),
      q.bytes.length + (items.flatMap (fieldText p.mBoundary)).length ≤
        ByteBuffer.defaultMaxSize →
      (items.foldl (fun body item => body.write (fieldText p.mBoundary item)) q).bytes =
        q.bytes ++ items.flatMap (fieldText p.mBoundary) := by
    intro items
    induction items with
    | nil => simp
    | cons item items ih =>
        intro q hq
        rw [List.flatMap_cons, List.length_append] at hq
        have hwrite := @ByteQueue.write_bytes _ q (fieldText p.mBoundary item) (by omega)
        rw [List.foldl_cons, ih _ (by rw [hwrite, List.length_append]; omega), hwrite,
          List.flatMap_cons, List.append_assoc]
  have hkind : ¬ (p.isJson = true ∨ p.mBodyRawData ≠ []) := by
    simp [h.is_form.2.1, h.is_form.2.2]
  have hlen := hfits.head
  rw [List.length_append] at hlen
  rw [fieldsBody, if_neg hkind, hrun]
  · rfl
  · rw [ByteQueue.clear_bytes, List.length_nil]
    omega

/-- Files add up in an `int` as long as the sum fits. -/
theorem files_sum {start : ℤ} (hstart : 0 ≤ start) {items : List TagItem}
    (hsum : start + (items.flatMap (p.fileText files)).length < 2 ^ 31) :
    items.foldl (fun contentLength item =>
      let contentLength := i32 (contentLength + (fileDesc p.mBoundary item).length)
      let contentLength := i32 (contentLength + getFileLength files item.value)
      i32 (contentLength + (ascii "\r\n").length)) start =
        start + (items.flatMap (p.fileText files)).length := by
  induction items generalizing start with
  | nil => simp
  | cons item items ih =>
      have hlen : (p.fileText files item).length = (fileDesc p.mBoundary item).length +
          getFileLength files item.value + (ascii "\r\n").length := by
        rw [fileText, List.length_append, List.length_append, getFileLength]
      rw [List.flatMap_cons, List.length_append, hlen] at hsum ⊢
      push_cast at hsum ⊢
      have hdesc : i32 (start + (fileDesc p.mBoundary item).length) =
          start + (fileDesc p.mBoundary item).length := i32_eq (by omega) (by omega)
      have hdata : i32 (start + (fileDesc p.mBoundary item).length +
          getFileLength files item.value) =
            start + (fileDesc p.mBoundary item).length + getFileLength files item.value :=
        i32_eq (by omega) (by omega)
      have hline := i32_eq (x := start + (fileDesc p.mBoundary item).length +
        getFileLength files item.value + (ascii "\r\n").length) (by omega) (by omega)
      rw [List.foldl_cons]
      simp only [hdesc, hdata, hline]
      rw [ih (by omega) (by omega)]
      omega

theorem contentLength_eq (h : Sendable files p) (hfits : Fits files p)
    (htotal : (p.formBody files).length < 2 ^ 31) :
    p.contentLength files = (p.formBody files).length := by
  have hkind : ¬ (p.isJson = true ∨ p.mBodyRawData ≠ []) := by
    simp [h.is_form.2.1, h.is_form.2.2]
  have hparts : p.isPostFileFields = true := by
    rw [isPostFileFields, decide_eq_true_eq]
    exact h.is_form.1.symm
  rw [formBody, filesFrom, List.drop_zero, List.length_append, List.length_append] at htotal ⊢
  have hfields := congrArg List.length (fieldsBody_bytes h hfits)
  rw [contentLength]
  simp only [if_neg hkind, if_pos hparts, ByteQueue.length_eq, hfields]
  rw [files_sum (by omega) (by omega), i32_eq (by omega) (by omega)]
  push_cast
  omega

theorem prepared (h : Sendable files p) (hfits : Fits files p) :
    (p.prepareData files).1.Sending files ∧ (p.prepareData files).1.Pending ∧
      (p.prepareData files).1.toSend files = p.requestHeader files ++ p.formBody files := by
  have hhead := hfits.head
  obtain ⟨req, hreq⟩ : ∃ req, req = p.requestHeader files ++
      p.mFields.flatMap (fieldText p.mBoundary) := ⟨_, rfl⟩
  rw [← hreq] at hhead
  have hbox : (((ByteQueue.clear : ByteQueue ByteBuffer.defaultMaxSize).write
      (p.requestHeader files)).write p.fieldsBody.bytes).bytes = req := by
    have hlen := congrArg List.length hreq
    rw [List.length_append] at hlen
    have hfirst : ((ByteQueue.clear : ByteQueue ByteBuffer.defaultMaxSize).write
        (p.requestHeader files)).bytes = p.requestHeader files := by
      rw [ByteQueue.write_bytes]
      · rfl
      · rw [ByteQueue.clear_bytes, List.length_nil]
        omega
    rw [fieldsBody_bytes h hfits, ByteQueue.write_bytes, hfirst, hreq]
    rw [hfirst]
    omega
  have hprepare : (p.prepareData files).1 =
      { p with mStage := .SendHeader, mOutbox := p.mOutbox.append req } := by
    rw [← hbox, prepareData, switchStage, switchTo, if_neg (by simp [h.unsent.1]),
      if_neg (by decide)]
    rfl
  have houtbox : (p.mOutbox.append req).bytes = req := by
    have hempty : p.mOutbox.bytes = [] := by
      rw [h.unsent.2.2.1]
      rfl
    rw [Outbox.append_bytes (by rw [hempty]; simpa using hhead), hempty, List.nil_append]
  have hne : req ≠ [] := by
    have hwords : ascii "Content-Length: " ≠ [] := by decide
    rw [hreq, requestHeader]
    simp [hwords]
  rw [hprepare]
  refine ⟨⟨h.unsent.2.2.2, ?_, ?_, hfits.file_headers, hfits.closing, ?_, ?_⟩, ?_, ?_⟩
  · apply Outbox.append_sized
    rw [h.unsent.2.2.1]
    exact ⟨by decide, by decide⟩
  · rw [isPostFileFields, decide_eq_true_eq]
    exact h.is_form.1.symm
  · intro item hitem
    obtain ⟨data, hdata, hbytes, -⟩ := h.on_disk item hitem
    exact ⟨data, hdata, hbytes⟩
  · exact .inl ⟨rfl, h.unsent.2.1⟩
  · apply iff_of_false
    · exact fun hempty => hne (houtbox.symm.trans hempty)
    · exact fun hfinish => by cases hfinish
  · rw [toSend, formBody, ← List.append_assoc, ← hreq]
    simp only [houtbox, afterOutbox]
    rfl

/-- The types of contents in the table are plain words. -/
theorem getContentType_clean (ext : Bytes) : 0 ∉ getContentType ext ∧ 13 ∉ getContentType ext := by
  have htable : ∀ entry ∈ contentTypes, 0 ∉ entry.2 ∧ 13 ∉ entry.2 := by decide +kernel
  rw [getContentType]
  match hfind : contentTypes.find? fun entry => (cstr ext).map toLower = entry.1 with
  | some entry =>
      simp only [hfind]
      exact htable entry (List.mem_of_find?_eq_some hfind)
  | none =>
      simp only [hfind]
      decide

/-- The part of a text field. -/
def fieldPart (item : TagItem) (hname : 0 ∉ item.name ∧ 13 ∉ item.name ∧ 34 ∉ item.name) :
    FormPart where
  name := item.name
  attrs := []
  lines := []
  content := item.value
  name_clean := hname
  attrs_clean := by simp
  lines_clean := by simp

theorem fieldPart_text (item : TagItem)
    (hname : 0 ∉ item.name ∧ 13 ∉ item.name ∧ 34 ∉ item.name) (hvalue : 0 ∉ item.value)
    {b : Bytes} (hb : 0 ∉ b) : fieldText b item = (fieldPart item hname).text b := by
  have hwords : ascii "\r\n" = [13, 10] ∧ ascii "\"\r\n" = ascii "\"" ++ [13, 10] := by
    decide
  rw [fieldText, FormPart.text, FormPart.header, FormPart.disposition, cstr_eq_self hb,
    cstr_eq_self hname.1, cstr_eq_self hvalue, hwords.1, hwords.2, CRLF2]
  simp [fieldPart, nextLine]

/-- The part of a file. -/
def filePart (item : TagItem) (data : Bytes)
    (hname : 0 ∉ item.name ∧ 13 ∉ item.name ∧ 34 ∉ item.name)
    (htitle : 0 ∉ item.getFileTitle ∧ 13 ∉ item.getFileTitle) : FormPart where
  name := item.name
  attrs := ascii "; filename=\"" ++ item.getFileTitle ++ ascii "\""
  lines := [ascii "Content-Type: " ++ getContentType item.value]
  content := data
  name_clean := hname
  attrs_clean := by
    have hfixed : (0 ∉ ascii "; filename=\"" ∧ 0 ∉ ascii "\"") ∧
      13 ∉ ascii "; filename=\"" ∧ 13 ∉ ascii "\"" := by decide
    simp [hfixed, htitle]
  lines_clean := by
    have hfixed : ascii "Content-Type: " ≠ [] ∧ 0 ∉ ascii "Content-Type: " ∧
      13 ∉ ascii "Content-Type: " := by decide
    intro line hline
    rw [List.mem_singleton.mp hline]
    simp [hfixed, getContentType_clean]

theorem filePart_text (item : TagItem) {data : Bytes}
    (hname : 0 ∉ item.name ∧ 13 ∉ item.name ∧ 34 ∉ item.name)
    (htitle : 0 ∉ item.getFileTitle ∧ 13 ∉ item.getFileTitle)
    (hdata : files (cstr item.value) = some data) (hb : 0 ∉ p.mBoundary) :
    p.fileText files item = (filePart item data hname htitle).text p.mBoundary := by
  have hwords : ascii "\r\n" = [13, 10] ∧ ascii "\"\r\n" = ascii "\"" ++ [13, 10] ∧
      ascii "\"; filename=\"" = ascii "\"" ++ ascii "; filename=\"" := by decide
  rw [fileText, fileDesc, FormPart.text, FormPart.header, FormPart.disposition, cstr_eq_self hb,
    cstr_eq_self hname.1, cstr_eq_self htitle.1, cstr_eq_self (getContentType_clean _).1, hwords.1,
    hwords.2.1, hwords.2.2, hdata, CRLF2]
  simp [filePart, nextLine]

/-- The form has a part for each field and each file. -/
theorem formBody_parts (h : Sendable files p) : ∃ parts : List FormPart,
    p.formBody files = form p.mBoundary parts ∧ parts ≠ [] ∧
      parts.map (fun part => (part.name, part.content)) = p.contents files ∧
      ∀ part ∈ parts, ¬ delimiter p.mBoundary <:+: part.content := by
  have hfields : ∀ items : List TagItem, (∀ item ∈ items, item ∈ p.mFields) →
      ∃ parts : List FormPart,
        items.flatMap (fieldText p.mBoundary) = parts.flatMap (·.text p.mBoundary) ∧
        parts.map (fun part => (part.name, part.content)) =
          items.map (fun item => (item.name, item.value)) ∧
        ∀ part ∈ parts, ¬ delimiter p.mBoundary <:+: part.content := by
    intro items hitems
    induction items with
    | nil => exact ⟨[], rfl, rfl, by simp⟩
    | cons item items ih =>
        obtain ⟨parts, htext, hcontents, hfree⟩ :=
          ih fun i hi => hitems i (List.mem_cons_of_mem _ hi)
        obtain ⟨hname, hvalue, hdelim⟩ := h.fields item (hitems item List.mem_cons_self)
        refine ⟨fieldPart item hname :: parts, ?_, ?_, ?_⟩
        · rw [List.flatMap_cons, List.flatMap_cons, htext,
            fieldPart_text item hname hvalue h.boundary.1]
        · rw [List.map_cons, List.map_cons, hcontents]
          rfl
        · intro part hpart
          rcases List.mem_cons.mp hpart with rfl | hmem
          · exact hdelim
          · exact hfree part hmem
  have hfiles : ∀ items : List TagItem, (∀ item ∈ items, item ∈ p.mFiles) →
      ∃ parts : List FormPart,
        items.flatMap (p.fileText files) = parts.flatMap (·.text p.mBoundary) ∧
        parts.map (fun part => (part.name, part.content)) =
          items.map (fun item => (item.name, fileData files item)) ∧
        ∀ part ∈ parts, ¬ delimiter p.mBoundary <:+: part.content := by
    intro items hitems
    induction items with
    | nil => exact ⟨[], rfl, rfl, by simp⟩
    | cons item items ih =>
        obtain ⟨parts, htext, hcontents, hfree⟩ :=
          ih fun i hi => hitems i (List.mem_cons_of_mem _ hi)
        obtain ⟨hname, htitle⟩ := h.names item (hitems item List.mem_cons_self)
        obtain ⟨data, hdata, -, hdelim⟩ := h.on_disk item (hitems item List.mem_cons_self)
        refine ⟨filePart item data hname htitle :: parts, ?_, ?_, ?_⟩
        · rw [List.flatMap_cons, List.flatMap_cons, htext,
            filePart_text item hname htitle hdata h.boundary.1]
        · rw [List.map_cons, List.map_cons, hcontents, fileData, hdata]
          rfl
        · intro part hpart
          rcases List.mem_cons.mp hpart with rfl | hmem
          · exact hdelim
          · exact hfree part hmem
  obtain ⟨parts, htext, hcontents, hfree⟩ := hfields p.mFields fun _ hitem => hitem
  obtain ⟨parts', htext', hcontents', hfree'⟩ := hfiles p.mFiles fun _ hitem => hitem
  have htail : tail p.mBoundary = closing p.mBoundary := by
    rw [tail, closing, cstr_eq_self h.boundary.1]
  refine ⟨parts ++ parts', ?_, ?_, ?_, ?_⟩
  · rw [formBody, filesFrom, List.drop_zero, htext, htext', htail, form, List.flatMap_append,
      List.append_assoc]
  · intro hnil
    obtain ⟨rfl, rfl⟩ := List.append_eq_nil_iff.mp hnil
    have hnone := h.is_form.1
    simp only [List.map_nil] at hcontents hcontents'
    rw [List.map_eq_nil_iff.mp hcontents.symm, List.map_eq_nil_iff.mp hcontents'.symm] at hnone
    exact hnone.elim (absurd rfl) (absurd rfl)
  · rw [List.map_append, hcontents, hcontents', contents]
  · intro part hpart
    rcases List.mem_append.mp hpart with hmem | hmem
    · exact hfree part hmem
    · exact hfree' part hmem

theorem toSend_nil {q : HttpPost} (hpending : q.Pending) :
    q.toSend files = [] ↔ q.mStage = .SendFinish := by
  constructor
  · intro hnil
    rw [toSend, List.append_eq_nil_iff] at hnil
    exact hpending.mp hnil.1
  · intro hfinish
    rw [toSend, hpending.mpr hfinish, afterOutbox, hfinish]
    rfl

/-- As long as an `int` holds their number, the post sends as many bytes behind its header as it
says there, whatever the channel takes at a time. The handler reads the fields and files from them
in any pieces when each of its fields holds what it gets. -/
theorem form_agrees (h : Sendable files p) (hfits : Fits files p) :
    ((p.formBody files).length < 2 ^ 31 →
      p.contentLength files = (p.formBody files).length) ∧
    (∀ events, ∃ sent p', p.post files events = some (sent, p') ∧
      sent <+: p.requestHeader files ++ p.formBody files ∧
      (p'.mStage = .SendFinish ↔ sent = p.requestHeader files ++ p.formBody files) ∧
      ((∀ rets ∈ events, ∃ ret ∈ rets.head?, ret > 0) →
        (p.requestHeader files ++ p.formBody files).length ≤ events.length →
        p'.mStage = .SendFinish)) ∧
    ((∀ content ∈ p.contents files, content.2.length ≤ ByteBuffer.defaultMaxSize) →
      ∀ chunks : List Bytes, chunks.flatten = p.formBody files →
        ∃ rets fields, HttpPostHandler.inputs chunks [] { boundary := p.mBoundary } =
            some (rets, [], { mState := .Done, boundary := p.mBoundary, mFields := fields }) ∧
          fields.map (fun f => (f.mFieldName, f.mDataBox.bytes)) = p.contents files ∧
          (∀ f ∈ fields, f.mDataReady = true) ∧
          (∀ ret ∈ rets, ret ≠ 400) ∧ ((∀ c ∈ chunks, c ≠ []) → ∀ ret ∈ rets, ret = 0)) := by
  refine ⟨contentLength_eq h hfits, fun events => ?_, fun heach chunks hchunks => ?_⟩
  · obtain ⟨hsending, hpending, htosend⟩ := prepared h hfits
    obtain ⟨sent, p', hrun, ⟨hsending', hpending', hsent⟩, hend⟩ :=
      sends_sent hsending hpending events
    have hnil := @toSend_nil files _ hpending'
    rw [htosend] at hsent hend
    refine ⟨sent, p', hrun, ⟨_, hsent⟩, ?_, fun htakes hlen => hnil.mp (hend htakes hlen)⟩
    rw [← hnil]
    constructor
    · intro hempty
      rw [← hsent, hempty, List.append_nil]
    · intro hall
      rw [hall, List.append_right_eq_self] at hsent
      exact hsent
  · obtain ⟨parts, hform, hne, hcontents, hfree⟩ := formBody_parts h
    have hparts : ∀ part ∈ parts, ¬ delimiter p.mBoundary <:+: part.content ∧
        part.content.length ≤ ByteBuffer.defaultMaxSize := by
      intro part hpart
      refine ⟨hfree part hpart, heach (part.name, part.content) ?_⟩
      rw [← hcontents]
      exact List.mem_map_of_mem hpart
    obtain ⟨rets, fields, hinputs, hfields, hrets, hzero⟩ :=
      HttpPostHandler.inputs_form (h := { boundary := p.mBoundary }) h.boundary hparts hne rfl rfl
        rfl (hchunks.trans hform)
    refine ⟨rets, fields, hinputs, ?_, ?_, hrets, hzero⟩
    · rw [← hcontents]
      clear hinputs hcontents hfree hform hne hparts
      induction hfields with
      | nil => rfl
      | cons hreceived _ ih => rw [List.map_cons, List.map_cons, ih, hreceived.1, hreceived.2.1]
    · clear hinputs hcontents hfree hform hne hparts
      induction hfields with
      | nil => simp
      | cons hreceived _ ih =>
          intro f hf
          rcases List.mem_cons.mp hf with rfl | hmem
          · exact hreceived.2.2
          · exact ih f hmem

/-- A text field and a file. -/
theorem form_agrees_two : ∃ (files : Bytes → Option Bytes) (p : HttpPost),
    p.contents files = [(ascii "n", ascii "a--"), (ascii "f", [0, 13, 10, 45])] ∧
      p.contentLength files = (p.formBody files).length ∧
      (∃ sent p', p.post files [[10], [0, 5], List.replicate 9 999] = some (sent, p') ∧
        sent <+: p.requestHeader files ++ p.formBody files) ∧
      ∃ rets fields, HttpPostHandler.inputs [p.formBody files] [] { boundary := p.mBoundary } =
          some (rets, [], { mState := .Done, boundary := p.mBoundary, mFields := fields }) ∧
        fields.map (fun f => (f.mFieldName, f.mDataBox.bytes)) = p.contents files := by
  let files : Bytes → Option Bytes := fun _ => some [0, 13, 10, 45]
  let p : HttpPost :=
    { mUrl := ascii "/up", mServer := ascii "h", mFields := [⟨ascii "n", ascii "a--", [], 0⟩],
      mFiles := [⟨ascii "f", ascii "/a.htm", [], 4⟩] }
  have hready : Sendable files p :=
    { unsent := by decide
      is_form := by decide
      boundary := by decide
      fields := by decide
      names := by decide
      on_disk := fun item hitem => by
        rw [List.mem_singleton.mp hitem]
        exact ⟨_, rfl, by decide, by decide⟩ }
  have hfits : Fits files p :=
    { head := by decide +kernel
      file_headers := by decide +kernel
      closing := by decide }
  have hagrees := form_agrees hready hfits
  obtain ⟨sent, p', hrun, hstart, -⟩ := hagrees.2.1 [[10], [0, 5], List.replicate 9 999]
  obtain ⟨rets, fields, hinputs, hfields, -⟩ :=
    hagrees.2.2 (by decide +kernel) [p.formBody files] (by simp)
  exact ⟨files, p, by decide, hagrees.1 (by decide +kernel), ⟨sent, p', hrun, hstart⟩, rets, fields,
    hinputs, hfields⟩

/-- A file with one byte more than a field of the handler holds is sent, but not received. -/
theorem form_agrees_large : ∃ (files : Bytes → Option Bytes) (p : HttpPost),
    Sendable files p ∧ p.contents files =
      [(ascii "f", List.replicate (ByteBuffer.defaultMaxSize + 1) 97)] ∧
      ∀ (chunks : List Bytes) rets inbox (h : HttpPostHandler), chunks.flatten = p.formBody files →
        HttpPostHandler.inputs chunks [] { boundary := p.mBoundary } = some (rets, inbox, h) →
        h.mFields.map (fun f => (f.mFieldName, f.mDataBox.bytes)) ≠ p.contents files := by
  obtain ⟨n, hn⟩ : ∃ n, n = ByteBuffer.defaultMaxSize + 1 := ⟨_, rfl⟩
  rw [← hn]
  let files : Bytes → Option Bytes := fun _ => some (List.replicate n 97)
  let p : HttpPost := { mFiles := [⟨ascii "f", ascii "/a", [97], n⟩] }
  have hboundary : 0 ∉ ({} : HttpPost).mBoundary ∧ 13 ∉ ({} : HttpPost).mBoundary ∧
      34 ∉ ({} : HttpPost).mBoundary := by decide
  have hname : (0 ∉ ascii "f" ∧ 13 ∉ ascii "f" ∧ 34 ∉ ascii "f") ∧
      (0 : UInt8) ∉ [97] ∧ (13 : UInt8) ∉ [97] := by decide
  have hcontents : p.contents files = [(ascii "f", List.replicate n 97)] := rfl
  refine ⟨files, p, ⟨⟨rfl, rfl, rfl, rfl⟩, ⟨.inr (by simp [p]), rfl, rfl⟩, hboundary, by simp [p],
    ?_, ?_⟩, hcontents, fun chunks rets inbox h _ _ hall => ?_⟩
  · intro item hitem
    rw [List.mem_singleton.mp hitem]
    exact hname
  · intro item hitem
    rw [List.mem_singleton.mp hitem]
    refine ⟨_, rfl, List.length_replicate.symm, fun hin => ?_⟩
    have hmem : (13 : UInt8) ∈ List.replicate n 97 := hin.subset List.mem_cons_self
    exact absurd (List.eq_of_mem_replicate hmem) (by decide)
  · rw [hcontents, List.map_eq_singleton_iff] at hall
    obtain ⟨f, -, hf⟩ := hall
    have hfits := f.mDataBox.fits
    rw [(Prod.mk.inj hf).2, List.length_replicate, hn] at hfits
    omega

end HttpPost
end CoreLooper.Http
