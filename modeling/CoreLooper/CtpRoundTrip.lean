import CoreLooper.CtpMessages
import CoreLooper.CtpOneFrame

/-!
# A command, there and back

What `AddCommandEx` emits reaches the owner of a fresh peer as it was put in, however it arrives.
The encoder keeps three names for itself and compares them byte by byte; the parser looks for a
length in any case. Without a body there is no length of the encoder in front of such a field.
-/
namespace CoreLooper.CTP
open CStrings

/-- Nothing in the name and the value breaks a line or ends a string. -/
structure IsField (item : Bytes × Bytes) : Prop where
  name_ne : item.1 ≠ []
  name_clean : ∀ c ∈ item.1, c ∉ ([0, 10, 13, 61] : Bytes)
  value_clean : ∀ c ∈ item.2, c ∉ ([0, 10, 13] : Bytes)

theorem fields_of_items {items : List (Bytes × Bytes)} (h : ∀ i ∈ items, IsField i) :
    ∃ fs : List Field, fs.map (fun f => (f.name, f.value)) = items := by
  induction items with
  | nil => exact ⟨[], rfl⟩
  | cons i items ih =>
      obtain ⟨fs, hfs⟩ := ih fun j hj => h j (List.mem_cons_of_mem i hj)
      have hi := h i List.mem_cons_self
      have hname : ∀ c ∈ ([0, 13, 61] : Bytes), c ∉ i.1 := by
        intro c hc hmem
        apply hi.name_clean c hmem
        simp at hc
        rcases hc with rfl | rfl | rfl <;> decide
      have hvalue : ∀ c ∈ ([0, 13] : Bytes), c ∉ i.2 := by
        intro c hc hmem
        apply hi.value_clean c hmem
        simp at hc
        rcases hc with rfl | rfl <;> decide
      have hfield : ∃ f : Field, (f.name, f.value) = i :=
        ⟨{ name := i.1
           value := i.2
           name_ne := hi.name_ne
           name_clean := ⟨hname 0 (by decide), hname 13 (by decide), hname 61 (by decide)⟩
           value_clean := ⟨hvalue 0 (by decide), hvalue 13 (by decide)⟩ }, rfl⟩
      obtain ⟨f, hf⟩ := hfield
      exact ⟨f :: fs, by rw [List.map_cons, hf, hfs]⟩

theorem isField_decimal {name : Bytes} (hne : name ≠ [])
    (hname : ∀ c ∈ name, c ∉ ([0, 10, 13, 61] : Bytes)) (n : ℤ) : IsField (name, decimal n) where
  name_ne := hne
  name_clean := hname
  value_clean := by
    intro c hc hmem
    have hdigit := mem_decimal hc
    simp at hmem
    rcases hmem with rfl | rfl | rfl <;> revert hdigit <;> decide

/-- The number that the parser reads for the length of the body among these fields: the value of
the first length, and what follows as long as that is white space. -/
def statedLength : List (Bytes × Bytes) → ℤ
  | [] => 0
  | item :: items =>
      if item.1.map toLower = CTP_CMD_BODY_LENGTH then
        atoi (item.2 ++ CRLF ++ fieldLines items ++ CRLF)
      else statedLength items

theorem statedLength_fields (fs : List Field) :
    ((lengthText [] fs).map atoi).getD 0 =
      statedLength (fs.map fun f => (f.name, f.value)) := by
  induction fs with
  | nil => rfl
  | cons f fs ih =>
      rw [lengthText, List.map_cons, statedLength]
      by_cases hf : f.isLength = true
      · have hbehind : behind fs [] =
            CRLF ++ fieldLines (fs.map fun f => (f.name, f.value)) ++ CRLF := by
          rw [fieldLines_fields, behind]
          simp
        have hname : f.name.map toLower = CTP_CMD_BODY_LENGTH := of_decide_eq_true hf
        rw [if_pos hf, if_pos hname, hbehind]
        simp
      · have hname : ¬ f.name.map toLower = CTP_CMD_BODY_LENGTH :=
          fun h => hf (decide_eq_true h)
        rw [if_neg hf, if_neg hname]
        exact ih

namespace CommonTextProtocol

/-- A command of which no part breaks a line. -/
structure Command where
  cmd : Bytes
  bundle : Bundle
  body : Bytes
  needAck : Bool
  cmd_ne : cmd ≠ []
  cmd_clean : ∀ c ∈ cmd, c ∉ ([0, 10, 13, 46, 61] : Bytes)
  fields : ∀ i ∈ bundle.items, IsField i

namespace Command

variable (c : Command)

/-- The name as it is sent. -/
def sent : Bytes := c.cmd ++ if c.needAck then [] else ascii ".noAck"

/-- The call on the owner of the peer. -/
def event (inputBundle : Bundle) : Event :=
  if c.needAck then .OnCommand c.cmd inputBundle c.body else .OnNotify c.cmd inputBundle c.body

theorem not_mem_cmd {b : UInt8} (hb : b ∈ ([0, 10, 13, 46, 61] : Bytes)) : b ∉ c.cmd :=
  fun hmem => c.cmd_clean b hmem hb

theorem sent_clean : 0 ∉ c.sent ∧ 13 ∉ c.sent := by
  have h0 : 0 ∉ ascii ".noAck" := by decide
  have h13 : 13 ∉ ascii ".noAck" := by decide
  rw [sent]
  constructor
  · split_ifs <;> simp [c.not_mem_cmd, h0]
  · split_ifs <;> simp [c.not_mem_cmd, h13]

/-- The fields in the order in which they are sent. -/
def items (seq : ℤ) : List (Bytes × Bytes) :=
  (CTP_CMD_SEQ, decimal seq) ::
    (if c.body.length > 0 then [(CTP_CMD_BODY_LENGTH, decimal c.body.length)] else []) ++
      c.bundle.items

theorem items_fields (seq : ℤ) : ∀ i ∈ c.items seq, IsField i := by
  intro i hi
  rw [items, List.cons_append, List.mem_cons, List.mem_append] at hi
  rcases hi with rfl | hi | hi
  · exact isField_decimal (by decide) (by decide +kernel) seq
  · split_ifs at hi
    · rw [List.mem_singleton.mp hi]
      exact isField_decimal (by decide) (by decide +kernel) _
    · cases hi
  · exact c.fields i hi

theorem addCommandHeader_lines (seq : ℤ) : ∃ fs : List Field,
    fs.map (fun f => (f.name, f.value)) = c.items seq ∧
      addCommandHeader c.cmd seq c.bundle c.body c.needAck =
        commandLine c.sent ++ tailLines fs ++ (CRLF ++ CRLF) := by
  obtain ⟨fs, hfs⟩ := fields_of_items (c.items_fields seq)
  refine ⟨fs, hfs, ?_⟩
  have hcmd : cstr c.cmd = c.cmd := cstr_eq_self (c.not_mem_cmd (by decide))
  rw [addCommandHeader, hcmd]
  exact commandHeader_lines c.sent seq c.body.length c.bundle hfs

end Command

variable {mCB : CommonTextProtocolCB} {s s' : CommonTextProtocol} {t : Bytes}

theorem waitAck_mOutbox (seq : ℤ) (bundle : Bundle) (needAck : Bool) (s : CommonTextProtocol) :
    (s.waitAck seq bundle needAck).mOutbox = s.mOutbox := by
  unfold waitAck
  split_ifs <;> rfl

theorem calls_idle (hs : s.mOutbox = .clear) (calls : List Call) :
    (calls.foldl call s).mOutbox = .clear := by
  induction calls generalizing s with
  | nil => exact hs
  | cons c calls ih =>
      apply ih
      cases c with
      | ResetX => rfl
      | AddCommandEx cmd bundle body needAck =>
          rw [call, addCommandEx]
          dsimp only
          split_ifs
          · exact hs
          · rfl

theorem callback_idle (hs : s.mOutbox = .clear) (e : Event) :
    (callback mCB e s).2.mOutbox = .clear :=
  @calls_idle { s with events := s.events ++ [e] } hs _

theorem dispatch_idle (hs : s.mOutbox = .clear) (f : Frame) :
    (dispatch mCB f s).mOutbox = .clear := by
  unfold dispatch
  dsimp only
  split
  · unfold onCommandAck
    dsimp only
    split
    · exact callback_idle (by exact hs) _
    · exact callback_idle (by exact hs) _
  · split
    · exact callback_idle (by exact hs) _
    · unfold onCommand
      split_ifs
      · exact hs
      · rfl

theorem parseInbox_idle {fuel : ℕ} (hs : s.mOutbox = .clear) {p : Parsed CommonTextProtocol}
    (hp : parseInbox mCB fuel s = some p) : p.state.mOutbox = .clear := by
  rw [parseInbox] at hp
  split_ifs at hp with hempty
  · obtain rfl := (Option.some.inj hp).symm
    exact hs
  · dsimp only at hp
    cases hloop : parseLoop pszKey (dispatch mCB) s.mInbox.bytes fuel 0 s with
    | none =>
        rw [hloop] at hp
        cases hp
    | some q =>
        obtain ⟨s', frames, cbLeft⟩ := q
        have hfold : ∀ (fs : List Frame) (s : CommonTextProtocol), s.mOutbox = .clear →
            (fs.foldl (fun s f => dispatch mCB f s) s).mOutbox = .clear := by
          intro fs
          induction fs with
          | nil => exact fun s hs => hs
          | cons f fs ih => exact fun s hs => ih _ (dispatch_idle hs f)
        have hs' : s'.mOutbox = .clear := by
          rw [(parseLoop_frames hloop).1]
          exact hfold _ _ hs
        rw [hloop] at hp
        obtain rfl := (Option.some.inj hp).symm
        rw [eatInbox]
        split_ifs <;> exact hs'

theorem inputLoop_idle {fuel n : ℕ} {eatBytes : ℤ} {d : Bytes} {r : Received}
    (hs : s.mOutbox = .clear) (hr : inputLoop mCB fuel n eatBytes d s = some r) :
    r.state.mOutbox = .clear := by
  induction n generalizing s eatBytes d r with
  | zero =>
      obtain rfl := (Option.some.inj hr).symm
      exact hs
  | succ n ih =>
      rw [inputLoop] at hr
      split_ifs at hr with hstop
      · obtain rfl := (Option.some.inj hr).symm
        exact hs
      · cases hparse : parseInbox mCB fuel
            { s with mInbox := s.mInbox.write (d.take (bufferLimit - s.mInbox.length - 1)) } with
        | none =>
            rw [hparse] at hr
            cases hr
        | some p =>
            have hp := parseInbox_idle (by exact hs) hparse
            rw [hparse] at hr
            dsimp only at hr
            split_ifs at hr
            · obtain rfl := (Option.some.inj hr).symm
              exact hp
            · cases hrest : inputLoop mCB fuel n
                  (eatBytes + (d.take (bufferLimit - s.mInbox.length - 1)).length)
                  (d.drop (bufferLimit - s.mInbox.length - 1)) p.state with
              | none =>
                  rw [hrest] at hr
                  cases hr
              | some q =>
                  rw [hrest] at hr
                  obtain rfl := (Option.some.inj hr).symm
                  exact @ih p.state _ _ q hp hrest

/-- Between the calls on the object its outbox is empty: a call leaves it so, and so does what a
peer sends. -/
theorem outbox_idle (hs : s.mOutbox = .clear) :
    (∀ c, (s.call c).mOutbox = .clear) ∧
      ∀ fuel d r, input mCB fuel d s = some r → r.state.mOutbox = .clear :=
  ⟨fun c => calls_idle hs [c], fun _ _ _ hr =>
    @inputLoop_idle mCB { s with mReset := false } _ _ _ _ _ hs hr⟩

/-- An accepted command is emitted whole if the outbox is empty and what comes out is no longer
than the outbox takes. -/
theorem addCommandEx_emits {cmd : Bytes} {bundle : Bundle} {body : Bytes} {needAck : Bool}
    (hidle : s.mOutbox = .clear) (hadd : addCommandEx cmd bundle body needAck s = (0, s'))
    (hout : s'.events = s.events ++ [.Output t]) (hsize : t.length < bufferLimit) :
    t = addCommandHeader cmd (i32 (s.mSeq + 1)) bundle body needAck ++ body := by
  unfold addCommandEx at hadd
  dsimp only at hadd
  split_ifs at hadd with hreserved
  · cases congrArg Prod.fst hadd
  · generalize addCommandHeader cmd (i32 (s.mSeq + 1)) bundle body needAck = header at hadd ⊢
    have hevents : s'.events =
        s.events ++ [.Output ((s.mOutbox.write header).write body).bytes] := by
      obtain rfl := (Prod.mk.inj hadd).2
      rw [output, (waitAck_events _ _ _ _).1, waitAck_mOutbox]
    rw [hevents] at hout
    have ht : ((s.mOutbox.write header).write body).bytes = t := by
      have hlast := List.append_cancel_left hout
      simpa using hlast
    rw [hidle] at ht
    subst ht
    simp only [ByteQueue.write, ByteQueue.clear_bytes, ByteQueue.length_eq, List.nil_append,
      List.length_append, List.length_take, List.length_nil, Nat.sub_zero] at hsize ⊢
    rw [List.take_of_length_le (by omega), List.take_of_length_le (by omega)]

theorem dispatch_command {f : Frame} {cmd : Bytes} (hne : cmd ≠ []) (hdot : 46 ∉ cmd)
    (hcmd : (parseHeaderItems f.header).getString CTP_CMD = cmd)
    (hbody : f.body.length ≤ bufferLimit) (s : CommonTextProtocol) :
    ∃ others, (∀ o ∈ others, ¬ Event.isCallback o) ∧ (dispatch mCB f s).events =
      s.events ++ .OnCommand cmd (parseHeaderItems f.header) f.body :: others := by
  have hack : strstr cmd (ascii ".Ack") = none := strstr_absent hdot
  have hno : strstr cmd (ascii ".noAck") = none := strstr_absent hdot
  have hwrite : (ByteQueue.clear.write f.body : ByteQueue bufferLimit).bytes = f.body :=
    ByteQueue.write_bytes (by simpa using hbody)
  obtain ⟨others, hothers, hevents, -⟩ := @onCommand_events mCB _ hne (parseHeaderItems f.header)
    { s with mInputBody := ByteQueue.clear.write f.body }
  refine ⟨others, hothers, ?_⟩
  simp only [dispatch, hcmd, hack, hno, hevents, hwrite]

theorem dispatch_notify {f : Frame} {cmd : Bytes} (hdot : 46 ∉ cmd)
    (hcmd : (parseHeaderItems f.header).getString CTP_CMD = cmd ++ ascii ".noAck")
    (hbody : f.body.length ≤ bufferLimit) (s : CommonTextProtocol) :
    ∃ others, (∀ o ∈ others, ¬ Event.isCallback o) ∧ (dispatch mCB f s).events =
      s.events ++ .OnNotify cmd (parseHeaderItems f.header) f.body :: others := by
  have hack : strstr (cmd ++ ascii ".noAck") (ascii ".Ack") = none := by
    have hskip := strstr_skip (n := ascii "Ack") (h := ascii ".noAck") hdot
    rwa [show strstr (ascii ".noAck") (46 :: ascii "Ack") = none by decide, Option.map_none]
      at hskip
  have hno : strstr (cmd ++ ascii ".noAck") (ascii ".noAck") = some cmd.length := by
    have hskip := strstr_skip (n := ascii "noAck") (h := ascii ".noAck") hdot
    rwa [show strstr (ascii ".noAck") (46 :: ascii "noAck") = some 0 by decide, Option.map_some,
      Nat.add_zero] at hskip
  have hwrite : (ByteQueue.clear.write f.body : ByteQueue bufferLimit).bytes = f.body :=
    ByteQueue.write_bytes (by simpa using hbody)
  obtain ⟨⟨others, hothers, hevents⟩, -⟩ := @callback_events mCB
    (.OnNotify cmd (parseHeaderItems f.header) f.body)
    { s with mInputBody := ByteQueue.clear.write f.body }
  refine ⟨others, hothers, ?_⟩
  simp only [dispatch, hcmd, hack, hno, hwrite, List.take_left, hevents]

/-- The lines and their end. -/
def headText (cmd : Bytes) (fs : List Field) : Bytes :=
  commandLine cmd ++ tailLines fs ++ (CRLF ++ CRLF)

section
variable {cmd body : Bytes} {fs : List Field}

theorem headText_append (y : Bytes) : headText cmd fs ++ y = commandLine cmd ++ behind fs y := by
  simp [headText, behind]

theorem headText_length :
    (headText cmd fs).length = (commandLine cmd).length + (tailLines fs).length + 4 := by
  simp [headText, CRLF, Nat.add_assoc]

theorem headText_no_null (hcmd : 0 ∉ cmd) : 0 ∉ headText cmd fs := by
  have h0 : 0 ∉ CTP_CMD := by decide
  simp [headText, commandLine, tailLines_no_null, h0, hcmd, CRLF]

theorem findHeader_headText (hcmd : 13 ∉ cmd) (y : Bytes) :
    findHeader pszKey (headText cmd fs ++ y) =
      some ⟨(headText cmd fs).length, ((lengthText y fs).map atoi).getD 0⟩ := by
  have hnoise : ¬ CRLF ++ CRLF <:+: ([] : Bytes) := by decide
  have hkey : ¬ pszKey <:+: ([] : Bytes).map toLower := by decide
  have hfound := findHeader_lines fs y hcmd hnoise hkey
  rwa [List.nil_append, List.length_nil, Nat.zero_add, ← headText_append, ← headText_length]
    at hfound

/-- The header ends where its lines do, and the length of the body is stated by then. -/
theorem oneFrame_headText (hcmd : 0 ∉ cmd ∧ 13 ∉ cmd)
    (hlength : ∀ y, y <+: body → ((lengthText (cstr y) fs).map atoi).getD 0 = body.length) :
    OneFrame (headText cmd fs ++ body) ⟨(headText cmd fs).length, body.length⟩ where
  length := by simp
  whole := by
    rw [cstr_append (headText_no_null hcmd.1), findHeader_headText hcmd.2,
      hlength body (List.prefix_refl body)]
  starts := by
    intro w hw
    rcases Nat.lt_or_ge w.length (headText cmd fs).length with hlt | hge
    · left
      apply findHeader_none
      have hnoise : ¬ CRLF ++ CRLF <:+: ([] : Bytes) := by decide
      apply strstr_before fs body hcmd.2 hnoise
      · rw [List.nil_append, ← headText_append]
        exact (cstr_starts w).trans hw
      · rw [List.length_nil, Nat.zero_add, ← headText_length]
        exact (cstr_length_le w).trans_lt hlt
    · right
      obtain ⟨y, rfl⟩ := List.prefix_of_prefix_length_le (List.prefix_append _ body) hw hge
      rw [List.prefix_append_right_inj] at hw
      rw [cstr_append (headText_no_null hcmd.1), findHeader_headText hcmd.2, hlength y hw]

theorem frameOf_headText : frameOf ⟨(headText cmd fs).length, body.length⟩ (headText cmd fs ++ body)
    = ⟨(headText cmd fs).length, body.length, commandLine cmd ++ tailLines fs, body⟩ := by
  have hheader : (headText cmd fs ++ body).take ((headText cmd fs).length - 4) =
      commandLine cmd ++ tailLines fs := by
    have hfour : (headText cmd fs).length - 4 = (commandLine cmd ++ tailLines fs).length := by
      rw [headText_length, List.length_append, Nat.add_sub_cancel]
    rw [hfour, headText, List.append_assoc (commandLine cmd ++ tailLines fs), List.take_left]
  simp only [frameOf, hheader, List.drop_left, Int.toNat_natCast, List.take_length]

end

namespace Command

variable (c : Command)

/-- The first length of a command with a body is that of the encoder. -/
theorem stated_body {fs : List Field} {seq : ℤ}
    (hfs : fs.map (fun f => (f.name, f.value)) = c.items seq) (hne : c.body ≠ [])
    (hsize : c.body.length < 2 ^ 31) (y : Bytes) :
    ((lengthText y fs).map atoi).getD 0 = c.body.length := by
  have hpos := List.length_pos_iff.mpr hne
  rw [items, if_pos hpos, List.cons_append, List.singleton_append, List.map_eq_cons_iff] at hfs
  obtain ⟨seqField, fs, rfl, hseq, hfs⟩ := hfs
  obtain ⟨bytesField, fs, rfl, hbytes, -⟩ := List.map_eq_cons_iff.mp hfs
  obtain ⟨hseqName, -⟩ := Prod.mk.inj hseq
  obtain ⟨hname, hvalue⟩ := Prod.mk.inj hbytes
  have hfirst : ¬ seqField.isLength = true := by
    rw [Field.isLength, hseqName]
    decide
  have hsecond : bytesField.isLength = true := by
    rw [Field.isLength, hname]
    decide
  obtain ⟨z, hz⟩ := behind_starts fs y
  have hdigit : ∃ b ∈ decimal c.body.length, isspace b = false := by
    obtain ⟨b, r, hb⟩ := List.exists_cons_of_ne_nil (decimal_ne_nil c.body.length)
    have hmem : b ∈ decimal c.body.length := by
      rw [hb]
      exact List.mem_cons_self
    exact ⟨b, hmem, isspace_of_isdigit ((decimal_digits _).1 b hmem)⟩
  rw [lengthText, if_neg hfirst, lengthText, if_pos hsecond, hvalue, hz, Option.map_some,
    Option.getD_some]
  exact (atoi_stop (by decide) hdigit (10 :: z)).trans (atoi_decimal hsize)

/-- Without a body the fields of the caller are all that may state a length. -/
theorem stated_nil {fs : List Field} {seq : ℤ}
    (hfs : fs.map (fun f => (f.name, f.value)) = c.items seq) (hnil : c.body = []) :
    ((lengthText [] fs).map atoi).getD 0 = statedLength c.bundle.items := by
  have hseq : ¬ CTP_CMD_SEQ.map toLower = CTP_CMD_BODY_LENGTH := by decide
  rw [statedLength_fields, hfs, items, hnil, List.length_nil, if_neg (lt_irrefl 0),
    List.cons_append, List.nil_append, statedLength, if_neg hseq]

theorem lastValue_items {name : Bytes} (seq : ℤ) (hseq : name ≠ CTP_CMD_SEQ)
    (hbytes : name ≠ CTP_CMD_BODY_LENGTH) : lastValue name (c.items seq) = c.bundle.find name := by
  rw [OrderedMap.find_eq_lastValue, items]
  split_ifs
  · simp only [List.cons_append, List.nil_append, lastValue, if_neg hseq.symm, if_neg hbytes.symm,
      Option.or_none]
  · simp only [List.cons_append, List.nil_append, lastValue, if_neg hseq.symm, Option.or_none]

end Command

variable (mCB) in
/-- A frame with the name as it is sent tells the owner of the command. -/
theorem dispatch_sent (c : Command) {f : Frame} (hbody : f.body.length ≤ bufferLimit)
    (hsame : f.body = c.body) (hcmd : (parseHeaderItems f.header).getString CTP_CMD = c.sent)
    (s : CommonTextProtocol) :
    ∃ others, (∀ o ∈ others, ¬ Event.isCallback o) ∧ (dispatch mCB f s).events =
      s.events ++ c.event (parseHeaderItems f.header) :: others := by
  have hdot : 46 ∉ c.cmd := c.not_mem_cmd (by decide)
  rw [Command.sent] at hcmd
  rw [Command.event, ← hsame]
  cases hack : c.needAck with
  | true =>
      rw [hack, if_pos rfl, List.append_nil] at hcmd
      rw [if_pos rfl]
      exact dispatch_command c.cmd_ne hdot hcmd hbody s
  | false =>
      rw [hack, if_neg Bool.false_ne_true] at hcmd
      rw [if_neg Bool.false_ne_true]
      exact dispatch_notify hdot hcmd hbody s

/-- However the bytes arrive at a fresh peer, whatever its owner does: they are one frame, the
owner is told once, of the command, its fields and its body, and nothing is left in the inbox. -/
def RoundTrip (c : Command) (t : Bytes) : Prop :=
  ∀ (mCB : CommonTextProtocolCB) (ds : List Bytes), ds.flatten = t →
    ∃ fuel f r inputBundle others, inputs mCB fuel ds {} = some ([f], r) ∧
      f.headerLength + f.nContentLength = t.length ∧
      r.events = c.event inputBundle :: others ∧ (∀ o ∈ others, ¬ Event.isCallback o) ∧
      (∀ name, name ∉ [CTP_CMD, CTP_CMD_SEQ, CTP_CMD_BODY_LENGTH] →
        inputBundle.find name = c.bundle.find name) ∧
      r.mInbox.bytes = []

section
variable {c : Command} {fs : List Field} {seq : ℤ}

theorem roundTrip_of_stated (hfs : fs.map (fun f => (f.name, f.value)) = c.items seq)
    (hfree : isReserved c.bundle = false)
    (hsize : (headText c.sent fs ++ c.body).length < bufferLimit)
    (hstated : c.body ≠ [] ∨ statedLength c.bundle.items = 0) :
    RoundTrip c (headText c.sent fs ++ c.body) := by
  intro mCB ds hds
  have hbody : c.body.length < bufferLimit := by
    rw [List.length_append] at hsize
    omega
  have hframe : OneFrame (headText c.sent fs ++ c.body)
      ⟨(headText c.sent fs).length, c.body.length⟩ := by
    apply oneFrame_headText c.sent_clean
    intro y hy
    by_cases hnil : c.body = []
    · rw [hnil, List.prefix_nil] at hy
      have hzero := hstated.resolve_left fun hne => hne hnil
      rw [hy, hnil]
      exact (c.stated_nil hfs hnil).trans hzero
    · exact c.stated_body hfs hnil (by unfold bufferLimit at hbody; omega) _
  obtain ⟨r, s', hr, hs', hevents, hinbox⟩ :=
    hframe.inputs mCB (s := {}) hsize hds hframe.pos
  rw [frameOf_headText] at hr hevents
  have hparsed := parseHeaderItems_lines fs c.sent_clean.2
  rw [hfs] at hparsed
  have hcmdNone : c.bundle.find CTP_CMD = none := by
    rw [isReserved, Bool.or_eq_false_iff, Bool.or_eq_false_iff] at hfree
    exact Option.isNone_iff_eq_none.mp (by simpa [Bundle.isKeyExists] using hfree.1.1)
  have hsent : (parseHeaderItems (commandLine c.sent ++ tailLines fs)).getString CTP_CMD =
      c.sent := by
    rw [hparsed, Bundle.getString, OrderedMap.find_insertAll,
      c.lastValue_items seq (by decide) (by decide), hcmdNone, Option.none_or,
      OrderedMap.find_insert, if_pos rfl]
    rfl
  have hfields : ∀ name, name ∉ [CTP_CMD, CTP_CMD_SEQ, CTP_CMD_BODY_LENGTH] →
      (parseHeaderItems (commandLine c.sent ++ tailLines fs)).find name = c.bundle.find name := by
    intro name hname
    simp only [List.mem_cons, List.not_mem_nil, or_false, not_or] at hname
    rw [hparsed, OrderedMap.find_insertAll, c.lastValue_items seq hname.2.1 hname.2.2,
      OrderedMap.find_insert, if_neg hname.1, OrderedMap.find_empty, Option.or_none]
  obtain ⟨others, hothers, htold⟩ := dispatch_sent mCB c
    (f := ⟨(headText c.sent fs).length, c.body.length, commandLine c.sent ++ tailLines fs, c.body⟩)
    hbody.le rfl hsent s'
  refine ⟨2, _, r, _, others, hr, hframe.length, ?_, hothers, hfields, hinbox⟩
  rw [hevents, htold, hs']
  rfl

/-- The one frame of a header alone has the length that is stated. -/
theorem stated_of_roundTrip (hfs : fs.map (fun f => (f.name, f.value)) = c.items seq)
    (hsize : (headText c.sent fs ++ c.body).length < bufferLimit)
    (h : RoundTrip c (headText c.sent fs ++ c.body)) :
    c.body ≠ [] ∨ statedLength c.bundle.items = 0 := by
  by_cases hnil : c.body = []
  · right
    rw [hnil, List.append_nil] at h hsize
    have hnull : 0 ∉ headText c.sent fs := headText_no_null c.sent_clean.1
    have hne : headText c.sent fs ≠ [] := by
      rw [← List.length_pos_iff, headText_length]
      omega
    obtain ⟨fuel, f, r, -, -, hr, hsum, -⟩ := h (fun _ => {}) [headText c.sent fs] (by simp)
    obtain ⟨hd, hheader, rfl⟩ := frame_of_inputs hne hsize rfl hr
    have hfound := @findHeader_headText c.sent fs c.sent_clean.2 []
    rw [List.append_nil, c.stated_nil hfs hnil] at hfound
    rw [cstr_eq_self hnull, hfound] at hheader
    cases hheader
    simpa [frameOf] using hsum
  · exact Or.inl hnil

end

/-- The text of an accepted command is its header and its body. -/
theorem emitted_lines (c : Command) (hidle : s.mOutbox = .clear)
    (hadd : addCommandEx c.cmd c.bundle c.body c.needAck s = (0, s'))
    (hout : s'.events = s.events ++ [.Output t]) (hsize : t.length < bufferLimit) :
    isReserved c.bundle = false ∧ ∃ fs : List Field,
      fs.map (fun f => (f.name, f.value)) = c.items (i32 (s.mSeq + 1)) ∧
        t = headText c.sent fs ++ c.body := by
  obtain ⟨fs, hfs, hheader⟩ := c.addCommandHeader_lines (i32 (s.mSeq + 1))
  have ht := addCommandEx_emits hidle hadd hout hsize
  rw [hheader] at ht
  refine ⟨?_, fs, hfs, ht⟩
  cases hreserved : isReserved c.bundle with
  | false => rfl
  | true =>
      rw [addCommandEx] at hadd
      dsimp only at hadd
      rw [if_pos hreserved] at hadd
      cases congrArg Prod.fst hadd

/-- An accepted command is read back exactly if it has a body or none of its fields states the
length of one. -/
theorem round_trip_iff (c : Command) (hidle : s.mOutbox = .clear)
    (hadd : addCommandEx c.cmd c.bundle c.body c.needAck s = (0, s'))
    (hout : s'.events = s.events ++ [.Output t]) (hsize : t.length < bufferLimit) :
    RoundTrip c t ↔ c.body ≠ [] ∨ statedLength c.bundle.items = 0 := by
  obtain ⟨hfree, fs, hfs, rfl⟩ := emitted_lines c hidle hadd hout hsize
  exact ⟨stated_of_roundTrip hfs hsize, roundTrip_of_stated hfs hfree hsize⟩

theorem oneField_cmd : ascii "a" ≠ [] := by decide

/-- A command with one field. -/
def oneField (name value body : Bytes) (h : IsField (name, value)) : Command where
  cmd := ascii "a"
  bundle := OrderedMap.empty.insert name value
  body := body
  needAck := true
  cmd_ne := oneField_cmd
  cmd_clean := by decide +kernel
  fields := by
    intro i hi
    have hone : i = (name, value) := List.mem_singleton.mp hi
    rw [hone]
    exact h

def hello : Command := oneField (ascii "k") (ascii "v") (ascii "hi")
  ⟨by decide, by decide +kernel, by decide +kernel⟩

/-- The field differs from the name the encoder keeps for itself, but the parser reads it. -/
def fiveBytes : Command := oneField (ascii "_BYTES") (ascii "5") []
  ⟨by decide, by decide +kernel, by decide +kernel⟩

theorem round_trip_iff_hello :
    RoundTrip hello (ascii "_cmd=a\r\n_seq=0\r\n_bytes=2\r\nk=v\r\n\r\nhi") := by
  have hadd : addCommandEx hello.cmd hello.bundle hello.body hello.needAck {} =
      (0, (addCommandEx hello.cmd hello.bundle hello.body hello.needAck {}).2) := by
    decide +kernel
  exact (round_trip_iff hello rfl hadd (by decide +kernel) (by decide +kernel)).mpr
    (Or.inl (by decide))

/-- A fresh peer waits for five bytes more. -/
theorem five_bytes_awaited :
    ¬ ∀ (c : Command) (s s' : CommonTextProtocol) (t : Bytes), s.mOutbox = .clear →
      addCommandEx c.cmd c.bundle c.body c.needAck s = (0, s') →
      s'.events = s.events ++ [.Output t] → t.length < bufferLimit → RoundTrip c t := by
  intro h
  have hadd : addCommandEx fiveBytes.cmd fiveBytes.bundle fiveBytes.body fiveBytes.needAck {} =
      (0, (addCommandEx fiveBytes.cmd fiveBytes.bundle fiveBytes.body fiveBytes.needAck {}).2) := by
    decide +kernel
  have hout : (addCommandEx fiveBytes.cmd fiveBytes.bundle fiveBytes.body fiveBytes.needAck
      {}).2.events =
        [] ++ [.Output (ascii "_cmd=a\r\n_seq=0\r\n_BYTES=5\r\n\r\n")] := by
    decide +kernel
  have hsize : (ascii "_cmd=a\r\n_seq=0\r\n_BYTES=5\r\n\r\n").length < bufferLimit := by
    decide +kernel
  have hback := h fiveBytes {} _ _ rfl hadd hout hsize
  obtain ⟨-, fs, hfs, ht⟩ := emitted_lines fiveBytes rfl hadd hout hsize
  rw [ht] at hback hsize
  have hstated : ¬ (fiveBytes.body ≠ [] ∨ statedLength fiveBytes.bundle.items = 0) := by
    decide +kernel
  exact hstated (stated_of_roundTrip hfs hsize hback)

end CommonTextProtocol
end CoreLooper.CTP
