import CoreLooper.CommonTextProtocol2
import CoreLooper.SilentRuns

/-!
# Resets from inside a callback

The owner may call `ResetX` while `Input` hands it a frame. `Input` takes no more data then and
leaves an empty inbox, but the frames that are already in the inbox are still handed out.
-/
namespace CoreLooper.CTP
open CStrings SilentRuns

/-- The frames the loop of `ParseInbox` finds in the data, whatever is done with them. -/
def inboxFrames (pszKey : Bytes) (fuel : ℕ) (data : Bytes) : List Frame :=
  ((parseLoop pszKey (fun _ (u : Unit) => u) data fuel 0 ()).map fun r =>
    r.2.1.map Prod.snd).getD []

theorem parseLoop_frames {σ : Type} {pszKey data : Bytes} {dispatch : Frame → σ → σ} {fuel : ℕ}
    {ps : ℤ} {s s' : σ} {frames : List (ℤ × Frame)} {cbLeft : ℤ}
    (h : parseLoop pszKey dispatch data fuel ps s = some (s', frames, cbLeft)) :
    s' = (frames.map Prod.snd).foldl (fun s f => dispatch f s) s ∧
      parseLoop pszKey (fun _ (u : Unit) => u) data fuel ps () = some ((), frames, cbLeft) := by
  induction fuel generalizing ps s frames cbLeft with
  | zero => simp [parseLoop] at h
  | succ fuel ih =>
      rw [parseLoop] at h ⊢
      dsimp only at h ⊢
      by_cases hend : (data.length : ℤ) - ps ≤ 0
      · rw [if_pos hend] at h ⊢
        cases h
        exact ⟨rfl, rfl⟩
      · rw [if_neg hend] at h ⊢
        by_cases hfront : ps < 0
        · rw [if_pos hfront] at h
          cases h
        · rw [if_neg hfront] at h ⊢
          cases hheader : findHeader pszKey (cstr (data.drop ps.toNat)) with
          | none =>
              rw [hheader] at h
              cases h
              exact ⟨rfl, rfl⟩
          | some hd =>
              rw [hheader] at h
              dsimp only at h ⊢
              by_cases hshort : (data.length : ℤ) - ps < i32 (hd.headerLength + hd.nContentLength)
              · rw [if_pos hshort] at h ⊢
                cases h
                exact ⟨rfl, rfl⟩
              · rw [if_neg hshort] at h ⊢
                cases hrest : parseLoop pszKey dispatch data fuel
                    (ps + i32 (hd.headerLength + hd.nContentLength))
                    (dispatch (frameOf hd (data.drop ps.toNat)) s) with
                | none =>
                    rw [hrest] at h
                    cases h
                | some r =>
                    obtain ⟨t, fs, left⟩ := r
                    rw [hrest] at h
                    cases h
                    obtain ⟨hstate, hplain⟩ := ih hrest
                    rw [hplain]
                    exact ⟨hstate, rfl⟩

theorem inboxFrames_eq {σ : Type} {pszKey data : Bytes} {dispatch : Frame → σ → σ} {fuel : ℕ}
    {s s' : σ} {frames : List (ℤ × Frame)} {cbLeft : ℤ}
    (h : parseLoop pszKey dispatch data fuel 0 s = some (s', frames, cbLeft)) :
    s' = (inboxFrames pszKey fuel data).foldl (fun s f => dispatch f s) s := by
  obtain ⟨hstate, hplain⟩ := parseLoop_frames h
  rw [inboxFrames, hplain, hstate]
  rfl

namespace CommonTextProtocol

/-- A command, an ack or a notify, not the bytes handed on. -/
def Event.isCallback : Event → Prop
  | .Output _ => False
  | _ => True

/-- The owner calls `ResetX` in the last of these calls. -/
def ResetsAt (mCB : CommonTextProtocolCB) (events : List Event) : Prop :=
  Call.ResetX ∈ (mCB events).calls

/-- A frame with a command is handed to the owner. -/
def HandedOut (f : Frame) : Prop := (parseHeaderItems f.header).getString CTP_CMD ≠ []

variable {mCB : CommonTextProtocolCB} {s : CommonTextProtocol}

theorem waitAck_events (seq : ℤ) (bundle : Bundle) (needAck : Bool) (s : CommonTextProtocol) :
    (s.waitAck seq bundle needAck).events = s.events ∧
      (s.waitAck seq bundle needAck).mReset = s.mReset := by
  unfold waitAck
  split_ifs <;> exact ⟨rfl, rfl⟩

theorem output_events (s : CommonTextProtocol) :
    ∃ o, ¬ Event.isCallback o ∧ s.output.events = s.events ++ [o] ∧
      s.output.mReset = s.mReset :=
  ⟨.Output s.mOutbox.bytes, id, rfl, rfl⟩

/-- A call of the owner makes no callback; `ResetX` sets the flag. -/
theorem call_events (s : CommonTextProtocol) (c : Call) :
    (∃ others, (∀ o ∈ others, ¬ Event.isCallback o) ∧ (s.call c).events = s.events ++ others) ∧
    ((s.call c).mReset = true ↔ s.mReset = true ∨ Call.ResetX = c) := by
  cases c with
  | ResetX => exact ⟨⟨[], by simp, by simp [call, resetX]⟩, by simp [call, resetX]⟩
  | AddCommandEx cmd bundle body needAck =>
      rw [call, addCommandEx]
      dsimp only
      split_ifs
      · exact ⟨⟨[], by simp, by simp⟩, by simp⟩
      · obtain ⟨hevents, hreset⟩ := waitAck_events (i32 (s.mSeq + 1)) bundle needAck
          { s with
            mSeq := i32 (s.mSeq + 1)
            mOutbox := (s.mOutbox.write
              (addCommandHeader cmd (i32 (s.mSeq + 1)) bundle body needAck)).write body }
        obtain ⟨o, ho, houtput, hflag⟩ := output_events (waitAck (i32 (s.mSeq + 1)) bundle needAck
          { s with
            mSeq := i32 (s.mSeq + 1)
            mOutbox := (s.mOutbox.write
              (addCommandHeader cmd (i32 (s.mSeq + 1)) bundle body needAck)).write body })
        refine ⟨⟨[o], by simpa using ho, by rw [houtput, hevents]⟩, ?_⟩
        rw [hflag, hreset]
        simp

theorem calls_events (calls : List Call) (s : CommonTextProtocol) :
    (∃ others, (∀ o ∈ others, ¬ Event.isCallback o) ∧
      (calls.foldl call s).events = s.events ++ others) ∧
    ((calls.foldl call s).mReset = true ↔ s.mReset = true ∨ Call.ResetX ∈ calls) := by
  induction calls generalizing s with
  | nil => exact ⟨⟨[], by simp, by simp⟩, by simp⟩
  | cons c calls ih =>
      obtain ⟨⟨first, hfirst, hevents⟩, hreset⟩ := call_events s c
      obtain ⟨⟨others, hothers, hevents'⟩, hreset'⟩ := ih (s.call c)
      rw [List.foldl_cons]
      refine ⟨⟨first ++ others, ?_, ?_⟩, ?_⟩
      · intro o ho
        rcases List.mem_append.mp ho with ho | ho
        · exact hfirst o ho
        · exact hothers o ho
      · rw [hevents', hevents, List.append_assoc]
      · rw [hreset', hreset, List.mem_cons]
        tauto

theorem callback_events (e : Event) (s : CommonTextProtocol) :
    (∃ others, (∀ o ∈ others, ¬ Event.isCallback o) ∧
      (callback mCB e s).2.events = s.events ++ e :: others) ∧
    ((callback mCB e s).2.mReset = true ↔ s.mReset = true ∨ ResetsAt mCB (s.events ++ [e])) := by
  obtain ⟨⟨others, hothers, hevents⟩, hreset⟩ := calls_events (mCB (s.events ++ [e])).calls
    { s with events := s.events ++ [e] }
  refine ⟨⟨others, hothers, ?_⟩, hreset⟩
  rw [callback, hevents, List.append_assoc]
  rfl

theorem dispatch_quiet (f : Frame) (s : CommonTextProtocol) (h : ¬ HandedOut f) :
    (dispatch mCB f s).events = s.events ∧ (dispatch mCB f s).mReset = s.mReset := by
  have hitem : (parseHeaderItems f.header).getString CTP_CMD = [] := not_not.mp h
  have hack : strstr [] (ascii ".Ack") = none := by decide
  have hno : strstr [] (ascii ".noAck") = none := by decide
  simp only [dispatch, hitem, hack, hno, onCommand, if_true, and_self]

theorem onCommand_events {cmd : Bytes} (hcmd : cmd ≠ []) (inputBundle : Bundle)
    (s : CommonTextProtocol) :
    ∃ others, (∀ o ∈ others, ¬ Event.isCallback o) ∧
      (onCommand mCB cmd inputBundle s).events =
        s.events ++ .OnCommand cmd inputBundle s.mInputBody.bytes :: others ∧
      ((onCommand mCB cmd inputBundle s).mReset = true ↔ s.mReset = true ∨
        ResetsAt mCB (s.events ++ [.OnCommand cmd inputBundle s.mInputBody.bytes])) := by
  obtain ⟨⟨others, hothers, hevents⟩, hreset⟩ :=
    @callback_events mCB (.OnCommand cmd inputBundle s.mInputBody.bytes) s
  rw [onCommand, if_neg hcmd]
  dsimp only
  generalize callback mCB (.OnCommand cmd inputBundle s.mInputBody.bytes) s = t at hevents hreset
  obtain ⟨o, ho, houtput, hflag⟩ := output_events
    { t.2 with
      mOutbox := (t.2.mOutbox.write (ackHeader cmd inputBundle t.1.ackBundle
        t.1.ackBody.length)).write t.1.ackBody }
  refine ⟨others ++ [o], ?_, ?_, ?_⟩
  · intro o' ho'
    rcases List.mem_append.mp ho' with ho' | ho'
    · exact hothers o' ho'
    · rw [List.mem_singleton.mp ho']
      exact ho
  · rw [houtput, hevents, List.append_assoc]
    rfl
  · rw [hflag]
    exact hreset

theorem dispatch_handedOut (f : Frame) (s : CommonTextProtocol) (h : HandedOut f) :
    ∃ e others, Event.isCallback e ∧ (∀ o ∈ others, ¬ Event.isCallback o) ∧
      (dispatch mCB f s).events = s.events ++ e :: others ∧
      ((dispatch mCB f s).mReset = true ↔
        s.mReset = true ∨ ResetsAt mCB (s.events ++ [e])) := by
  unfold dispatch
  dsimp only
  cases hack : strstr ((parseHeaderItems f.header).getString CTP_CMD) (ascii ".Ack") with
  | some pos =>
      unfold onCommandAck
      dsimp only
      cases (s.mWaitAckItems.find ((parseHeaderItems f.header).getInt CTP_CMD_SEQ (-1))) with
      | some reqBundle =>
          obtain ⟨⟨others, hothers, hevents⟩, hreset⟩ := @callback_events mCB _ _
          refine ⟨_, others, ?_, hothers, hevents, hreset⟩
          trivial
      | none =>
          obtain ⟨⟨others, hothers, hevents⟩, hreset⟩ := @callback_events mCB _ _
          refine ⟨_, others, ?_, hothers, hevents, hreset⟩
          trivial
  | none =>
      dsimp only
      cases hno : strstr ((parseHeaderItems f.header).getString CTP_CMD) (ascii ".noAck") with
      | some pos =>
          obtain ⟨⟨others, hothers, hevents⟩, hreset⟩ := @callback_events mCB _ _
          refine ⟨_, others, ?_, hothers, hevents, hreset⟩
          trivial
      | none =>
          obtain ⟨others, hothers, hevents, hreset⟩ := @onCommand_events mCB _ h _ _
          refine ⟨_, others, ?_, hothers, hevents, hreset⟩
          trivial

/-- Frames make callbacks, and a callback may reset the object. -/
def machine (mCB : CommonTextProtocolCB) : Machine CommonTextProtocol Event Frame where
  step s f := dispatch mCB f s
  events s := s.events
  stopped s := s.mReset
  isCall := Event.isCallback
  stops := ResetsAt mCB
  loud := HandedOut
  inv _ := True
  inv_step _ _ _ := trivial
  step_quiet s f _ h := dispatch_quiet f s h
  step_loud s f _ h := dispatch_handedOut f s h

/-- The states in which `Input` calls `ParseInbox`. -/
def parsedStates (mCB : CommonTextProtocolCB) (fuel : ℕ) :
    ℕ → Bytes → CommonTextProtocol → List CommonTextProtocol
  | 0, _, _ => []
  | n + 1, d, s =>
      let maxBytes := bufferLimit - s.mInbox.length - 1
      if d = [] ∨ s.mReset ∨ maxBytes = 0 then []
      else
        let a := { s with mInbox := s.mInbox.write (d.take maxBytes) }
        match parseInbox mCB fuel a with
        | none => []
        | some r => a :: if r.ret ≠ 0 then [] else parsedStates mCB fuel n (d.drop maxBytes) r.state

/-- The calls of this `Input` fall silent with the first that resets, and then the inbox is
empty. -/
def ResetAtOnce (mCB : CommonTextProtocolCB) (s s' : CommonTextProtocol) : Prop :=
  (machine mCB).Silent s.events (s'.events.drop s.events.length) ∧
    ((machine mCB).Stops s.events (s'.events.drop s.events.length) → s'.mInbox = .clear)

/-- Behind the frame whose callback resets, the inbox has no frame that is handed out. -/
def CalmInbox (mCB : CommonTextProtocolCB) (fuel : ℕ) (a : CommonTextProtocol) : Prop :=
  (machine mCB).Calm (inboxFrames pszKey fuel a.mInbox.bytes) a

end CommonTextProtocol

theorem inboxFrames_nil (pszKey : Bytes) (fuel : ℕ) : inboxFrames pszKey fuel [] = [] := by
  cases fuel <;> rfl

namespace CommonTextProtocol
variable {mCB : CommonTextProtocolCB} {fuel : ℕ} {s : CommonTextProtocol}

theorem parseInbox_rounds {a : CommonTextProtocol} {r : Parsed CommonTextProtocol}
    (h : parseInbox mCB fuel a = some r) (hreset : a.mReset = false) :
    (machine mCB).Same ((inboxFrames pszKey fuel a.mInbox.bytes).foldl (machine mCB).step a)
        r.state ∧ (r.state.mReset = true → r.state.mInbox = .clear) := by
  rw [parseInbox] at h
  by_cases hempty : a.mInbox.length = 0
  · rw [if_pos hempty] at h
    obtain rfl := (Option.some.inj h).symm
    rw [ByteQueue.length_eq, List.length_eq_zero_iff] at hempty
    rw [hempty, inboxFrames_nil]
    refine ⟨⟨rfl, rfl⟩, ?_⟩
    intro hset
    rw [hreset] at hset
    cases hset
  · rw [if_neg hempty] at h
    dsimp only at h
    cases hloop : parseLoop pszKey (dispatch mCB) a.mInbox.bytes fuel 0 a with
    | none =>
        rw [hloop] at h
        cases h
    | some t =>
        obtain ⟨t, frames, cbLeft⟩ := t
        rw [hloop] at h
        obtain rfl := (Option.some.inj h).symm
        have hstate := inboxFrames_eq hloop
        have hfold : (inboxFrames pszKey fuel a.mInbox.bytes).foldl (machine mCB).step a = t :=
          hstate.symm
        rw [hfold]
        dsimp only [eatInbox]
        split_ifs with hset hpos
        · exact ⟨⟨rfl, rfl⟩, fun _ => rfl⟩
        · exact ⟨⟨rfl, rfl⟩, fun h => absurd h hset⟩
        · exact ⟨⟨rfl, rfl⟩, fun h => absurd h hset⟩

theorem inputLoop_rounds {n : ℕ} {eatBytes : ℤ} {d : Bytes} {r : Received}
    (h : inputLoop mCB fuel n eatBytes d s = some r)
    (hclear : s.mReset = true → s.mInbox = .clear) :
    (machine mCB).Rounds (fun a => inboxFrames pszKey fuel a.mInbox.bytes) s
        (parsedStates mCB fuel n d s) r.state ∧
      (r.state.mReset = true → r.state.mInbox = .clear) := by
  induction n generalizing eatBytes d s r with
  | zero =>
      obtain rfl := (Option.some.inj h).symm
      exact ⟨.done ⟨rfl, rfl⟩, hclear⟩
  | succ n ih =>
      rw [inputLoop] at h
      rw [parsedStates]
      dsimp only at h ⊢
      by_cases hend : d = [] ∨ s.mReset = true ∨ bufferLimit - s.mInbox.length - 1 = 0
      · rw [if_pos hend] at h ⊢
        obtain rfl := (Option.some.inj h).symm
        exact ⟨.done ⟨rfl, rfl⟩, hclear⟩
      · rw [if_neg hend] at h ⊢
        have hreset : s.mReset = false := by
          simp only [not_or, Bool.not_eq_true] at hend
          exact hend.2.1
        cases hparse : parseInbox mCB fuel
            { s with mInbox := s.mInbox.write (d.take (bufferLimit - s.mInbox.length - 1)) } with
        | none =>
            rw [hparse] at h
            cases h
        | some p =>
            obtain ⟨hround, hempty⟩ := parseInbox_rounds hparse hreset
            rw [hparse] at h
            dsimp only at h ⊢
            by_cases hret : p.ret ≠ 0
            · rw [if_pos hret] at h ⊢
              obtain rfl := (Option.some.inj h).symm
              exact ⟨.round hreset ⟨rfl, rfl⟩ trivial hround (.done ⟨rfl, rfl⟩), hempty⟩
            · rw [if_neg hret] at h ⊢
              cases hrest : inputLoop mCB fuel n
                  (eatBytes + (d.take (bufferLimit - s.mInbox.length - 1)).length)
                  (d.drop (bufferLimit - s.mInbox.length - 1)) p.state with
              | none =>
                  rw [hrest] at h
                  cases h
              | some q =>
                  rw [hrest] at h
                  obtain rfl := (Option.some.inj h).symm
                  obtain ⟨hrounds, hlast⟩ := ih hrest hempty
                  exact ⟨.round hreset ⟨rfl, rfl⟩ trivial hround hrounds, hlast⟩

theorem resetAtOnce_iff {d : Bytes} {r : Received} (h : input mCB fuel d s = some r) :
    ResetAtOnce mCB s r.state ↔
      ∀ a ∈ parsedStates mCB fuel d.length d { s with mReset := false }, CalmInbox mCB fuel a := by
  obtain ⟨hrounds, hlast⟩ := inputLoop_rounds h (fun h => by cases h)
  obtain ⟨new, hnew, hsilent, hstops⟩ := Machine.rounds_silent hrounds rfl
  have hdrop : r.state.events.drop s.events.length = new := by
    have : r.state.events = s.events ++ new := hnew
    rw [this, List.drop_left]
  have hsilent' : (machine mCB).Silent s.events new ↔
      ∀ a ∈ parsedStates mCB fuel d.length d { s with mReset := false }, CalmInbox mCB fuel a :=
    hsilent
  rw [ResetAtOnce, hdrop, ← hsilent', and_iff_left_iff_imp]
  exact fun _ hstop => hlast (hstops.mpr hstop)

end CommonTextProtocol

namespace CommonTextProtocol2

def Event.isCallback : Event → Prop
  | .Output _ => False
  | .OnCommand .. => True

def ResetsAt (mCB : CommonTextProtocolCB2) (events : List Event) : Prop :=
  Call.ResetX ∈ mCB events

/-- A frame with a command, under the name the settings give it. -/
def HandedOut (mStringCmd : Bytes) (f : Frame) : Prop :=
  (parseHeaderItems f.header).getString (cstr mStringCmd) ≠ []

variable {mCB : CommonTextProtocolCB2} {s : CommonTextProtocol2}

/-- The settings are nobody's to change here. -/
theorem call_mStringCmd (s : CommonTextProtocol2) (c : Call) :
    (s.call c).mStringCmd = s.mStringCmd := by
  cases c with
  | ResetX => rfl
  | AddCommand cmd bundle body =>
      rw [call, addCommand]
      dsimp only
      split_ifs <;> rfl

theorem call_events (s : CommonTextProtocol2) (c : Call) :
    (∃ others, (∀ o ∈ others, ¬ Event.isCallback o) ∧ (s.call c).events = s.events ++ others) ∧
    ((s.call c).mReset = true ↔ s.mReset = true ∨ Call.ResetX = c) := by
  cases c with
  | ResetX => exact ⟨⟨[], by simp, by simp [call, resetX]⟩, by simp [call, resetX]⟩
  | AddCommand cmd bundle body =>
      rw [call, addCommand]
      dsimp only
      split_ifs
      · exact ⟨⟨[], by simp, by simp⟩, by simp⟩
      · refine ⟨⟨_, ?_, rfl⟩, by simp [output]⟩
        intro o ho
        rw [List.mem_singleton.mp ho]
        exact id

theorem calls_events (calls : List Call) (s : CommonTextProtocol2) :
    (∃ others, (∀ o ∈ others, ¬ Event.isCallback o) ∧
      (calls.foldl call s).events = s.events ++ others) ∧
    ((calls.foldl call s).mReset = true ↔ s.mReset = true ∨ Call.ResetX ∈ calls) ∧
    (calls.foldl call s).mStringCmd = s.mStringCmd := by
  induction calls generalizing s with
  | nil => exact ⟨⟨[], by simp, by simp⟩, by simp, rfl⟩
  | cons c calls ih =>
      obtain ⟨⟨first, hfirst, hevents⟩, hreset⟩ := call_events s c
      obtain ⟨⟨others, hothers, hevents'⟩, hreset', hname⟩ := ih (s.call c)
      rw [List.foldl_cons]
      refine ⟨⟨first ++ others, ?_, ?_⟩, ?_, hname.trans (call_mStringCmd s c)⟩
      · intro o ho
        rcases List.mem_append.mp ho with ho | ho
        · exact hfirst o ho
        · exact hothers o ho
      · rw [hevents', hevents, List.append_assoc]
      · rw [hreset', hreset, List.mem_cons]
        tauto

theorem dispatch_mStringCmd (f : Frame) (s : CommonTextProtocol2) :
    (dispatch mCB f s).mStringCmd = s.mStringCmd := by
  rw [dispatch, onCommand]
  dsimp only
  split_ifs
  · rfl
  · exact (calls_events _ _).2.2

theorem dispatch_quiet (f : Frame) (s : CommonTextProtocol2) (h : ¬ HandedOut s.mStringCmd f) :
    (dispatch mCB f s).events = s.events ∧ (dispatch mCB f s).mReset = s.mReset := by
  have hitem : (parseHeaderItems f.header).getString (cstr s.mStringCmd) = [] := not_not.mp h
  simp only [dispatch, hitem, onCommand, if_true, and_self]

theorem dispatch_handedOut (f : Frame) (s : CommonTextProtocol2) (h : HandedOut s.mStringCmd f) :
    ∃ e others, Event.isCallback e ∧ (∀ o ∈ others, ¬ Event.isCallback o) ∧
      (dispatch mCB f s).events = s.events ++ e :: others ∧
      ((dispatch mCB f s).mReset = true ↔
        s.mReset = true ∨ ResetsAt mCB (s.events ++ [e])) := by
  unfold dispatch
  dsimp only
  rw [onCommand, if_neg h]
  obtain ⟨⟨others, hothers, hevents⟩, hreset, -⟩ := calls_events _ _
  refine ⟨_, others, ?_, hothers, ?_, hreset⟩
  rotate_left
  · rw [hevents, List.append_assoc]
    rfl
  · trivial

/-- The frames of a run are read with the name the settings give to the command. -/
def machine (mCB : CommonTextProtocolCB2) (mStringCmd : Bytes) :
    Machine CommonTextProtocol2 Event Frame where
  step s f := dispatch mCB f s
  events s := s.events
  stopped s := s.mReset
  isCall := Event.isCallback
  stops := ResetsAt mCB
  loud := HandedOut mStringCmd
  inv s := s.mStringCmd = mStringCmd
  inv_step s f h := (dispatch_mStringCmd f s).trans h
  step_quiet s f h hf := dispatch_quiet f s (h ▸ hf)
  step_loud s f h hf := dispatch_handedOut f s (h ▸ hf)

/-- The states in which the loop of `ParseInbox` begins. -/
def parsedStates (mCB : CommonTextProtocolCB2) (fuel : ℕ) :
    ℕ → Bytes → CommonTextProtocol2 → List CommonTextProtocol2
  | 0, _, _ => []
  | n + 1, d, s =>
      let maxBytes := bufferLimit - s.mInbox.length - 1
      if d = [] ∨ s.mReset ∨ maxBytes = 0 then []
      else
        let a := { s with mInbox := s.mInbox.write (d.take maxBytes) }
        match parseInbox mCB fuel a with
        | none => []
        | some r =>
            { a with mInbox := a.mInbox.eat a.skipped } ::
              if r.ret ≠ 0 then [] else parsedStates mCB fuel n (d.drop maxBytes) r.state

def ResetAtOnce (mCB : CommonTextProtocolCB2) (s s' : CommonTextProtocol2) : Prop :=
  (machine mCB s.mStringCmd).Silent s.events (s'.events.drop s.events.length) ∧
    ((machine mCB s.mStringCmd).Stops s.events (s'.events.drop s.events.length) →
      s'.mInbox = .clear)

def CalmInbox (mCB : CommonTextProtocolCB2) (fuel : ℕ) (a : CommonTextProtocol2) : Prop :=
  (machine mCB a.mStringCmd).Calm (inboxFrames a.pszKey fuel a.mInbox.bytes) a

variable {fuel : ℕ}

theorem parseInbox_rounds {name : Bytes} {a : CommonTextProtocol2} {r : Parsed CommonTextProtocol2}
    (h : parseInbox mCB fuel a = some r) (hreset : a.mReset = false) (hname : a.mStringCmd = name) :
    (machine mCB name).Same
        ((inboxFrames a.pszKey fuel (a.mInbox.eat a.skipped).bytes).foldl (machine mCB name).step
          { a with mInbox := a.mInbox.eat a.skipped }) r.state ∧
      r.state.mStringCmd = name ∧ (r.state.mReset = true → r.state.mInbox = .clear) := by
  rw [parseInbox] at h
  by_cases hempty : a.mInbox.length = 0
  · rw [if_pos hempty] at h
    obtain rfl := (Option.some.inj h).symm
    rw [ByteQueue.length_eq, List.length_eq_zero_iff] at hempty
    have hbytes : (a.mInbox.eat a.skipped).bytes = [] := by
      rw [ByteQueue.eat_bytes, hempty, List.drop_nil]
    rw [hbytes, inboxFrames_nil]
    refine ⟨⟨rfl, rfl⟩, hname, ?_⟩
    intro hset
    rw [hreset] at hset
    cases hset
  · rw [if_neg hempty] at h
    dsimp only at h
    cases hloop : parseLoop a.pszKey (dispatch mCB) (a.mInbox.eat a.skipped).bytes fuel 0
        { a with mInbox := a.mInbox.eat a.skipped } with
    | none =>
        have hloop' : parseLoop (pszKey { a with mInbox := a.mInbox.eat a.skipped })
            (dispatch mCB) (a.mInbox.eat a.skipped).bytes fuel 0
            { a with mInbox := a.mInbox.eat a.skipped } = none := hloop
        rw [hloop'] at h
        cases h
    | some t =>
        obtain ⟨t, frames, cbLeft⟩ := t
        have hloop' : parseLoop (pszKey { a with mInbox := a.mInbox.eat a.skipped })
            (dispatch mCB) (a.mInbox.eat a.skipped).bytes fuel 0
            { a with mInbox := a.mInbox.eat a.skipped } = some (t, frames, cbLeft) := hloop
        rw [hloop'] at h
        obtain rfl := (Option.some.inj h).symm
        have hfold : (inboxFrames a.pszKey fuel (a.mInbox.eat a.skipped).bytes).foldl
            (machine mCB name).step { a with mInbox := a.mInbox.eat a.skipped } = t :=
          (inboxFrames_eq hloop).symm
        have hinv : (machine mCB name).inv { a with mInbox := a.mInbox.eat a.skipped } := hname
        have hkept : t.mStringCmd = name := by
          rw [← hfold]
          exact Machine.inv_foldl hinv _
        rw [hfold]
        dsimp only [eatInbox]
        split_ifs with hset hpos
        · exact ⟨⟨rfl, rfl⟩, hkept, fun _ => rfl⟩
        · exact ⟨⟨rfl, rfl⟩, hkept, fun h => absurd h hset⟩
        · exact ⟨⟨rfl, rfl⟩, hkept, fun h => absurd h hset⟩

theorem inputLoop_rounds {name : Bytes} {n : ℕ} {eatBytes : ℤ} {d : Bytes}
    {r : ℤ × CommonTextProtocol2} (h : inputLoop mCB fuel n eatBytes d s = some r)
    (hclear : s.mReset = true → s.mInbox = .clear) (hname : s.mStringCmd = name) :
    (machine mCB name).Rounds (fun a => inboxFrames a.pszKey fuel a.mInbox.bytes) s
        (parsedStates mCB fuel n d s) r.2 ∧
      (∀ a ∈ parsedStates mCB fuel n d s, a.mStringCmd = name) ∧
      (r.2.mReset = true → r.2.mInbox = .clear) := by
  induction n generalizing eatBytes d s r with
  | zero =>
      obtain rfl := (Option.some.inj h).symm
      exact ⟨.done ⟨rfl, rfl⟩, by simp [parsedStates], hclear⟩
  | succ n ih =>
      rw [inputLoop] at h
      rw [parsedStates]
      dsimp only at h ⊢
      by_cases hend : d = [] ∨ s.mReset = true ∨ bufferLimit - s.mInbox.length - 1 = 0
      · rw [if_pos hend] at h ⊢
        obtain rfl := (Option.some.inj h).symm
        exact ⟨.done ⟨rfl, rfl⟩, by simp, hclear⟩
      · rw [if_neg hend] at h ⊢
        have hreset : s.mReset = false := by
          simp only [not_or, Bool.not_eq_true] at hend
          exact hend.2.1
        cases hparse : parseInbox mCB fuel
            { s with mInbox := s.mInbox.write (d.take (bufferLimit - s.mInbox.length - 1)) } with
        | none =>
            rw [hparse] at h
            cases h
        | some p =>
            obtain ⟨hround, hkept, hempty⟩ := parseInbox_rounds hparse hreset hname
            rw [hparse] at h
            dsimp only at h ⊢
            by_cases hret : p.ret ≠ 0
            · rw [if_pos hret] at h ⊢
              obtain rfl := (Option.some.inj h).symm
              refine ⟨.round hreset ⟨rfl, rfl⟩ hname hround (.done ⟨rfl, rfl⟩), ?_, hempty⟩
              intro a ha
              rw [List.mem_singleton.mp ha]
              exact hname
            · rw [if_neg hret] at h ⊢
              obtain ⟨hrounds, hnames, hlast⟩ := ih h hempty hkept
              refine ⟨.round hreset ⟨rfl, rfl⟩ hname hround hrounds, ?_, hlast⟩
              intro a ha
              rcases List.mem_cons.mp ha with rfl | ha
              · exact hname
              · exact hnames a ha

theorem resetAtOnce_iff {d : Bytes} {r : ℤ × CommonTextProtocol2}
    (h : input mCB fuel d s = some r) : ResetAtOnce mCB s r.2 ↔
      ∀ a ∈ parsedStates mCB fuel d.length d { s with mReset := false }, CalmInbox mCB fuel a := by
  have hname : ({ s with mReset := false } : CommonTextProtocol2).mStringCmd = s.mStringCmd := rfl
  obtain ⟨hrounds, hnames, hlast⟩ := inputLoop_rounds h (fun h => by cases h) hname
  obtain ⟨new, hnew, hsilent, hstops⟩ := Machine.rounds_silent hrounds rfl
  have hdrop : r.2.events.drop s.events.length = new := by
    have : r.2.events = s.events ++ new := hnew
    rw [this, List.drop_left]
  have hsilent' : (machine mCB s.mStringCmd).Silent s.events new ↔
      ∀ a ∈ parsedStates mCB fuel d.length d { s with mReset := false },
        (machine mCB s.mStringCmd).Calm (inboxFrames a.pszKey fuel a.mInbox.bytes) a := hsilent
  have hcalm : (∀ a ∈ parsedStates mCB fuel d.length d { s with mReset := false },
      (machine mCB s.mStringCmd).Calm (inboxFrames a.pszKey fuel a.mInbox.bytes) a) ↔
      ∀ a ∈ parsedStates mCB fuel d.length d { s with mReset := false }, CalmInbox mCB fuel a := by
    apply forall₂_congr
    intro a ha
    rw [CalmInbox, hnames a ha]
  rw [ResetAtOnce, hdrop, ← hcalm, ← hsilent', and_iff_left_iff_imp]
  exact fun _ hstop => hlast (hstops.mpr hstop)

end CommonTextProtocol2

/-- A reset takes effect at once if and only if, in every inbox that is parsed, no frame behind
the one whose callback resets is handed out. -/
theorem reset_at_once_iff (fuel : ℕ) :
    (∀ (mCB : CommonTextProtocolCB) (s : CommonTextProtocol) (d : Bytes)
      (r : CommonTextProtocol.Received), CommonTextProtocol.input mCB fuel d s = some r →
      (CommonTextProtocol.ResetAtOnce mCB s r.state ↔
        ∀ a ∈ CommonTextProtocol.parsedStates mCB fuel d.length d { s with mReset := false },
          CommonTextProtocol.CalmInbox mCB fuel a)) ∧
    (∀ (mCB : CommonTextProtocolCB2) (s : CommonTextProtocol2) (d : Bytes)
      (r : ℤ × CommonTextProtocol2), CommonTextProtocol2.input mCB fuel d s = some r →
      (CommonTextProtocol2.ResetAtOnce mCB s r.2 ↔
        ∀ a ∈ CommonTextProtocol2.parsedStates mCB fuel d.length d { s with mReset := false },
          CommonTextProtocol2.CalmInbox mCB fuel a)) :=
  ⟨fun _ _ _ _ h => CommonTextProtocol.resetAtOnce_iff h,
    fun _ _ _ _ h => CommonTextProtocol2.resetAtOnce_iff h⟩

/-- Owners that reset the object when they are handed the command `a`. -/
def resetOnA : CommonTextProtocolCB := fun events =>
  { calls := if events.getLast? = some (.OnCommand (ascii "a")
      (parseHeaderItems (ascii "_cmd=a")) []) then [.ResetX] else [] }

def resetOnA2 : CommonTextProtocolCB2 := fun events =>
  if events.getLast? = some (.OnCommand (ascii "a") (parseHeaderItems (ascii "_cmd=a")) []) then
    [.ResetX]
  else []

def twoCommands : Bytes := ascii "_cmd=a\r\n\r\n_cmd=b\r\n\r\n"

/-- Two commands in one call of `Input`: the second is handed out behind the reset. -/
theorem second_command_handed_out :
    (∃ r, CommonTextProtocol.input resetOnA 4 twoCommands {} = some r ∧
      ¬ CommonTextProtocol.ResetAtOnce resetOnA {} r.state) ∧
    ∃ r, CommonTextProtocol2.input resetOnA2 4 twoCommands {} = some r ∧
      ¬ CommonTextProtocol2.ResetAtOnce resetOnA2 {} r.2 := by
  have hevents : ((CommonTextProtocol.input resetOnA 4 twoCommands {}).map fun r => r.state.events)
      = some [.OnCommand (ascii "a") (parseHeaderItems (ascii "_cmd=a")) [],
          .Output (ascii "_cmd=a.Ack\r\n\r\n"),
          .OnCommand (ascii "b") (parseHeaderItems (ascii "_cmd=b")) [],
          .Output (ascii "_cmd=b.Ack\r\n\r\n")] := by decide
  have hevents2 : ((CommonTextProtocol2.input resetOnA2 4 twoCommands {}).map fun r => r.2.events)
      = some [.OnCommand (ascii "a") (parseHeaderItems (ascii "_cmd=a")) [],
          .OnCommand (ascii "b") (parseHeaderItems (ascii "_cmd=b")) []] := by decide
  constructor
  · obtain ⟨r, hr, hre⟩ := Option.map_eq_some_iff.mp hevents
    refine ⟨r, hr, fun h => ?_⟩
    rw [CommonTextProtocol.ResetAtOnce, hre] at h
    exact h.1 [] _ _ rfl trivial (by decide : Call.ResetX ∈ (resetOnA _).calls)
      (.OnCommand (ascii "b") (parseHeaderItems (ascii "_cmd=b")) []) (by simp) trivial
  · obtain ⟨r, hr, hre⟩ := Option.map_eq_some_iff.mp hevents2
    refine ⟨r, hr, fun h => ?_⟩
    rw [CommonTextProtocol2.ResetAtOnce, hre] at h
    exact h.1 [] _ _ rfl trivial
      (by decide : CommonTextProtocol2.Call.ResetX ∈ resetOnA2 _)
      (.OnCommand (ascii "b") (parseHeaderItems (ascii "_cmd=b")) []) (by simp) trivial

/-- The first command alone. -/
theorem reset_at_once_iff_alone :
    ∃ r, CommonTextProtocol.input resetOnA 4 (ascii "_cmd=a\r\n\r\n") {} = some r ∧
      CommonTextProtocol.ResetAtOnce resetOnA {} r.state := by
  obtain ⟨r, hr⟩ := Option.isSome_iff_exists.mp
    (by decide : (CommonTextProtocol.input resetOnA 4 (ascii "_cmd=a\r\n\r\n") {}).isSome = true)
  have hshort : ∀ a ∈ CommonTextProtocol.parsedStates resetOnA 4 10 (ascii "_cmd=a\r\n\r\n") {},
      (inboxFrames CommonTextProtocol.pszKey 4 a.mInbox.bytes).tail = [] := by decide
  refine ⟨r, hr, ((reset_at_once_iff 4).1 resetOnA {} _ r hr).mpr ?_⟩
  intro a ha
  have htail := hshort a ha
  rw [CommonTextProtocol.CalmInbox]
  cases hframes : inboxFrames CommonTextProtocol.pszKey 4 a.mInbox.bytes with
  | nil => trivial
  | cons f fs =>
      rw [hframes, List.tail_cons] at htail
      rw [htail, Machine.Calm]
      split
      · simp
      · trivial

end CoreLooper.CTP
