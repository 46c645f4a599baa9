import CoreLooper.LooperImpl

/-!
# Delivery of the messages of a looper

Whatever the threads do, a looper's queue loses, repeats and reorders nothing: the messages
`OnMessage` was called with, followed by what is queued, are those that were accepted, less those
that were cancelled. Only `Run` ends a looper, and only on an empty queue.
-/
namespace CoreLooper.LooperImpl
open Transitions

/-- The call of `OnMessage` that a frame belongs to. -/
def Frame.call : Frame → Option (Handler × Message)
  | .onMessage handler m => some (handler, m)
  | .finish handler m _ => some (handler, m)
  | _ => none

/-- The calls a step begins on the thread of looper `l` where it looked for a message: those of
the frames it leaves in the place of `getMessage`. -/
def begun (l : ThreadId) (s s' : State) : Act → List (Handler × Message)
  | .advance t _ =>
      match s.stack t with
      | .getMessage :: rest =>
          if t = l then
            ((s'.stack l).take ((s'.stack l).length - rest.length)).filterMap Frame.call
          else []
      | _ => []
  | _ => []

/-- The calls of looper `l` in a run. -/
def calls (l : ThreadId) (s : State) : List Act → List (Handler × Message)
  | [] => []
  | a :: as =>
      match step s a with
      | none => []
      | some s' => begun l s s' a ++ calls l s' as

/-- The call that returns with a step on the thread of looper `l`. -/
def ended (l : ThreadId) (s : State) : Act → List (Handler × Message)
  | .advance t _ =>
      match s.stack t with
      | .finish handler m _ :: _ => if t = l then [(handler, m)] else []
      | _ => []
  | _ => []

/-- What one step can do to looper `l`, and the calls that begin with it. -/
inductive Changed (l : ThreadId) (v : Looper) : List (Handler × Message) → Looper → Prop where
  | same : Changed l v [] v
  | accept (m : Message) (hm : m.ticket = v.accepted.length) (hrun : v.mLooperRunning = true) :
      Changed l v []
        { v with mMessageList := v.mMessageList ++ [m], accepted := v.accepted ++ [m] }
  | pop (m : Message) (ms : List Message) (hlist : v.mMessageList = m :: ms) :
      Changed l v [(dispatchTarget l m, m)] { v with mMessageList := ms }
  | cancel (h : Handler) (r : RunnableId) : Changed l v [] (cancelRunnableInQueue v h r)
  | quit : Changed l v [] { v with mBMQuit := true }
  | stop (hlist : v.mMessageList = []) : Changed l v [] { v with mLooperRunning := false }
  | start (hnew : v.started = false) :
      Changed l v [] { v with mLooperRunning := true, mBMQuit := false, started := true }

section
variable {s s' : State} {l t : ThreadId}

@[simp] theorem setStack_looper (fs : List Frame) : (s.setStack t fs).looper = s.looper := rfl

theorem setLooper_changed {v : Looper} (h : Changed t (s.looper t) [] v) :
    Changed l (s.looper l) [] ((s.setLooper t v).looper l) := by
  simp only [State.setLooper, Function.update_apply]
  split_ifs with hl
  · subst hl
    exact h
  · exact .same

theorem accept_changed {m : Message} (hrun : (s.looper t).mLooperRunning = true) :
    Changed l (s.looper l) [] ((s.accept t m).looper l) :=
  setLooper_changed (.accept { m with ticket := (s.looper t).accepted.length } rfl hrun)

theorem finish_looper (m : Message) (ret : ℤ) (rest : List Frame) :
    (finish s t m ret rest).looper = s.looper := by
  unfold finish
  split
  · rfl
  · dsimp only
    split <;> rfl

/-- One call of `OnMessage`, to the target of the message. -/
theorem dispatchMessage_call (l : ThreadId) (m : Message) :
    (dispatchMessage l m).filterMap Frame.call = [(dispatchTarget l m, m)] := by
  unfold dispatchMessage
  dsimp only
  split
  · rfl
  · split_ifs
    · rfl
    · rfl
  · rfl

theorem begun_getMessage {rest fs : List Frame} (hstack : s.stack t = .getMessage :: rest)
    (hs' : s'.stack = Function.update s.stack t (fs ++ rest)) (canQuit : Bool) :
    begun l s s' (.advance t canQuit) = if t = l then fs.filterMap Frame.call else [] := by
  simp only [begun, hstack]
  split_ifs with hl
  · subst hl
    rw [hs', Function.update_self, List.length_append, Nat.add_sub_cancel, List.take_left]
  · rfl

/-- Only where a message was looked for a call begins. -/
theorem begun_other {frame : Frame} {rest : List Frame} (hstack : s.stack t = frame :: rest)
    (hframe : frame ≠ .getMessage) (canQuit : Bool) :
    begun l s s' (.advance t canQuit) = [] := by
  simp only [begun, hstack]
  split
  · next heq => exact absurd (List.cons.inj heq).1 hframe
  · rfl

theorem advance_changed {canQuit : Bool} {frame : Frame} {rest : List Frame}
    (hstack : s.stack t = frame :: rest) (h : advance s t canQuit frame rest = some s') :
    Changed l (s.looper l) (begun l s s' (.advance t canQuit)) (s'.looper l) := by
  by_cases hget : frame = .getMessage
  · subst hget
    simp only [advance] at h
    split at h
    · rename_i m ms hlist
      cases h
      rw [begun_getMessage hstack rfl, dispatchMessage_call]
      simp only [State.setStack, State.setLooper, Function.update_apply]
      by_cases hl : t = l
      · subst hl
        rw [if_pos rfl, if_pos rfl]
        exact .pop m ms hlist
      · rw [if_neg hl, if_neg (Ne.symm hl)]
        exact .same
    · have hnone : ∀ fs : List Frame, fs.filterMap Frame.call = [] →
          s'.stack = Function.update s.stack t (fs ++ rest) →
          begun l s s' (.advance t canQuit) = [] := by
        intro fs hfs hs'
        rw [begun_getMessage hstack hs', hfs, ite_self]
      split_ifs at h <;> cases h
      · rw [hnone [] rfl rfl]
        exact .same
      · rw [hnone [] rfl rfl]
        exact .same
      · rw [hnone [.code, .getMessage] rfl rfl]
        exact .same
  · rw [begun_other hstack hget]
    cases frame with
    | run => cases h; exact .same
    | runCheck =>
        simp only [advance] at h
        split_ifs at h with hstop <;> cases h
        · exact setLooper_changed (.stop hstop.2.2)
        · exact .same
    | getMessage => exact absurd rfl hget
    | code => cases h
    | onMessage handler m => cases h
    | finish handler m ret =>
        cases h
        rw [finish_looper]
        exact .same
    | quit =>
        simp only [advance] at h
        split_ifs at h <;> cases h <;> exact .same
    | onBMQuit => cases h; exact setLooper_changed .quit
    | cancelRunnableInQueue handler r => cases h; exact setLooper_changed (.cancel handler r)
    | posting target m =>
        simp only [advance] at h
        split_ifs at h with hrun <;> cases h
        · exact accept_changed hrun
        · exact .same
    | sending target m =>
        simp only [advance] at h
        split at h
        · cases h
        · split_ifs at h with hrun <;> cases h
          · exact accept_changed hrun
          · exact .same
    | waiting target f =>
        simp only [advance] at h
        split_ifs at h <;> cases h <;> exact .same

theorem step_changed {a : Act} (h : step s a = some s') (l : ThreadId) :
    Changed l (s.looper l) (begun l s s' a) (s'.looper l) := by
  cases a with
  | start l' =>
      simp only [step] at h
      split_ifs at h with hnew
      cases h
      exact setLooper_changed (.start (by simpa using fun hs => hnew (Or.inl hs)))
  | post t l' handler msg wp =>
      simp only [step] at h
      split at h <;> cases h <;> exact .same
  | send t l' handler msg wp =>
      simp only [step] at h
      split at h <;> cases h <;> exact .same
  | ret t result =>
      simp only [step] at h
      split at h <;> cases h <;> exact .same
  | advance t canQuit =>
      simp only [step] at h
      split at h
      · rename_i frame rest hstack
        exact advance_changed hstack h
      · cases h

end

/-- The books of looper `l` agree with the calls so far. -/
structure Balanced (l : ThreadId) (called : List (Handler × Message)) (v : Looper) : Prop where
  in_order : called.map Prod.snd ++ v.mMessageList =
    v.accepted.filter (fun m => m ∉ v.cancelled)
  tickets : v.accepted.map Message.ticket = List.range v.accepted.length
  cancelled_accepted : ∀ m ∈ v.cancelled, m ∈ v.accepted
  target : ∀ d ∈ called, d.1 = dispatchTarget l d.2
  new : v.started = false → v.mLooperRunning = false
  drained : v.mLooperRunning = false → v.mMessageList = []

namespace Balanced
variable {l : ThreadId} {called : List (Handler × Message)} {v : Looper} {s : State}

/-- A looper that was never started. -/
theorem empty (attach : Bool) : Balanced l [] ⟨false, attach, false, [], false, [], []⟩ where
  in_order := rfl
  tickets := rfl
  cancelled_accepted := fun _ hm => absurd hm List.not_mem_nil
  target := fun _ hd => absurd hd List.not_mem_nil
  new := fun _ => rfl
  drained := fun _ => rfl

theorem nodup (h : Balanced l called v) : v.accepted.Nodup := by
  refine List.Nodup.of_map Message.ticket ?_
  rw [h.tickets]
  exact List.nodup_range

theorem ticket_lt (h : Balanced l called v) {m : Message} (hm : m ∈ v.accepted) :
    m.ticket < v.accepted.length := by
  have := List.mem_map_of_mem (f := Message.ticket) hm
  rw [h.tickets] at this
  exact List.mem_range.mp this

/-- A message with the next ticket is not among those accepted. -/
theorem accept (h : Balanced l called v) {m : Message} (hm : m.ticket = v.accepted.length)
    (hrun : v.mLooperRunning = true) : Balanced l called
      { v with mMessageList := v.mMessageList ++ [m], accepted := v.accepted ++ [m] } where
  in_order := by
    have hnew : m ∉ v.cancelled := by
      intro hc
      have := h.ticket_lt (h.cancelled_accepted m hc)
      omega
    rw [List.filter_append, ← h.in_order, List.append_assoc]
    simp [hnew]
  tickets := by simp [h.tickets, hm, List.range_succ]
  cancelled_accepted := fun m' hm' => List.mem_append_left _ (h.cancelled_accepted m' hm')
  target := h.target
  new := h.new
  drained := fun hstop => by simp [hrun] at hstop

theorem pop (h : Balanced l called v) {m : Message} {ms : List Message}
    (hlist : v.mMessageList = m :: ms) :
    Balanced l (called ++ [(dispatchTarget l m, m)]) { v with mMessageList := ms } where
  in_order := by
    rw [← h.in_order, hlist]
    simp
  tickets := h.tickets
  cancelled_accepted := h.cancelled_accepted
  target := by
    intro d hd
    rcases List.mem_append.mp hd with hd | hd
    · exact h.target d hd
    · rw [List.mem_singleton.mp hd]
  new := h.new
  drained := fun hstop => by
    have := h.drained hstop
    rw [hlist] at this
    cases this

/-- Cancelling takes messages out of the queue only, and leaves the others in order. -/
theorem cancel (h : Balanced l called v) (handler : Handler) (r : RunnableId) :
    Balanced l called (cancelRunnableInQueue v handler r) where
  in_order := by
    have hnodup : (called.map Prod.snd ++ v.mMessageList).Nodup := by
      rw [h.in_order]
      exact h.nodup.filter _
    have hdisjoint := (List.nodup_append.mp hnodup).2.2
    have hsplit : v.accepted.filter (fun m => m ∉ v.cancelled ++
        v.mMessageList.filter (isCancelled handler r)) =
        (v.accepted.filter (fun m => m ∉ v.cancelled)).filter
          (fun m => m ∉ v.mMessageList.filter (isCancelled handler r)) := by
      rw [List.filter_filter]
      refine List.filter_congr fun m _ => ?_
      simp only [List.mem_append, not_or, Bool.decide_and, Bool.and_comm]
    show called.map Prod.snd ++ v.mMessageList.filter (fun m => !isCancelled handler r m) =
      v.accepted.filter (fun m => m ∉ v.cancelled ++ v.mMessageList.filter (isCancelled handler r))
    rw [hsplit, ← h.in_order, List.filter_append]
    congr 1
    · refine (List.filter_eq_self.mpr fun m hm => ?_).symm
      simp only [decide_eq_true_eq]
      exact fun hin => hdisjoint m hm m (List.mem_of_mem_filter hin) rfl
    · refine List.filter_congr fun m hm => ?_
      simp [hm]
  tickets := h.tickets
  cancelled_accepted := by
    intro m hm
    rcases List.mem_append.mp hm with hm | hm
    · exact h.cancelled_accepted m hm
    · have hin : m ∈ called.map Prod.snd ++ v.mMessageList :=
        List.mem_append_right _ (List.mem_of_mem_filter hm)
      rw [h.in_order] at hin
      exact List.mem_of_mem_filter hin
  target := h.target
  new := h.new
  drained := fun hstop => by
    show v.mMessageList.filter _ = []
    rw [h.drained hstop, List.filter_nil]

theorem changed (h : Balanced l called v) {new : List (Handler × Message)} {v' : Looper}
    (hc : Changed l v new v') : Balanced l (called ++ new) v' := by
  cases hc with
  | pop m ms hlist => exact h.pop hlist
  | same =>
      rw [List.append_nil]
      exact h
  | accept m hm hrun =>
      rw [List.append_nil]
      exact h.accept hm hrun
  | cancel handler r =>
      rw [List.append_nil]
      exact h.cancel handler r
  | quit =>
      rw [List.append_nil]
      exact ⟨h.in_order, h.tickets, h.cancelled_accepted, h.target, h.new, h.drained⟩
  | stop hlist =>
      rw [List.append_nil]
      exact ⟨h.in_order, h.tickets, h.cancelled_accepted, h.target, fun _ => rfl, fun _ => hlist⟩
  | start hnew =>
      rw [List.append_nil]
      exact ⟨h.in_order, h.tickets, h.cancelled_accepted, h.target, fun hn => (by cases hn),
        fun hn => (by cases hn)⟩

/-- Over a run, what begins is added to what was called before. -/
theorem run (h : Balanced l called (s.looper l)) {as : List Act} {s' : State}
    (hrun : Transitions.run step s as = some s') :
    Balanced l (called ++ calls l s as) (s'.looper l) := by
  induction as generalizing s called with
  | nil =>
      cases hrun
      rw [calls, List.append_nil]
      exact h
  | cons a as ih =>
      obtain ⟨s₁, hs₁, hrest⟩ := Option.bind_eq_some_iff.mp hrun
      rw [calls, hs₁, ← List.append_assoc]
      exact ih (h.changed (step_changed hs₁ l)) hrest

end Balanced

/-- Frames of `Run`. -/
def Frame.IsRun (f : Frame) : Prop := f = .run ∨ f = .runCheck

/-- A running looper is inside `Run`. -/
def RunsInRun (s : State) : Prop :=
  ∀ l, (s.looper l).mLooperRunning = true → ∃ f ∈ s.stack l, f.IsRun

section
variable {s s' : State} {t : ThreadId}

/-- Replacing a frame that is not of `Run` leaves every looper inside `Run`. -/
theorem RunsInRun.replace (h : RunsInRun s) {frame : Frame} {rest : List Frame}
    (fs : List Frame) (hstack : s.stack t = frame :: rest) (hframe : ¬ frame.IsRun)
    (hrun : ∀ l, (s'.looper l).mLooperRunning = (s.looper l).mLooperRunning)
    (hs' : s'.stack = Function.update s.stack t (fs ++ rest)) : RunsInRun s' := by
  intro l hl
  obtain ⟨f, hf, hfr⟩ := h l ((hrun l).symm.trans hl)
  rw [hs', Function.update_apply]
  split_ifs with hlt
  · subst hlt
    rw [hstack] at hf
    rcases List.mem_cons.mp hf with rfl | hf
    · exact absurd hfr hframe
    · exact ⟨f, List.mem_append_right _ hf, hfr⟩
  · exact ⟨f, hf, hfr⟩

/-- Frames pushed on top keep every looper inside `Run`. -/
theorem RunsInRun.push (h : RunsInRun s) (fs : List Frame)
    (hrun : ∀ l, (s'.looper l).mLooperRunning = (s.looper l).mLooperRunning)
    (hs' : s'.stack = Function.update s.stack t (fs ++ s.stack t)) : RunsInRun s' := by
  intro l hl
  obtain ⟨f, hf, hfr⟩ := h l ((hrun l).symm.trans hl)
  rw [hs', Function.update_apply]
  split_ifs with hlt
  · subst hlt
    exact ⟨f, List.mem_append_right _ hf, hfr⟩
  · exact ⟨f, hf, hfr⟩

/-- A looper that has stopped accepts nothing more. -/
theorem Changed.stopped {l : ThreadId} {v v' : Looper} {new : List (Handler × Message)}
    (h : Changed l v new v')
    (hv : v.started = true ∧ v.mLooperRunning = false) :
    (v'.started = true ∧ v'.mLooperRunning = false) ∧ v'.accepted = v.accepted := by
  cases h with
  | accept m hm hrun => simp [hrun] at hv
  | start hnew => simp [hnew] at hv
  | stop hlist => exact ⟨⟨hv.1, rfl⟩, rfl⟩
  | _ => exact ⟨hv, rfl⟩

end

section
variable {s s' : State} {l t : ThreadId}

end

end CoreLooper.LooperImpl
