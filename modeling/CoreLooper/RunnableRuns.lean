import CoreLooper.RunnablePlaces

/-!
# What becomes of a posted runnable

In every run each posted runnable runs at most once, and at the end it has run unless it was
cancelled or its timer was killed. After a cancel none of those posted before runs any more, and
nothing else is touched. A pass leaves no timer behind whose time had come when it began.
-/
namespace CoreLooper.Runnables
open TimerManager (Env HandlerId RunnableId NodeId TimerId TimerExtraInfo)

/-- A cancel that arrives as a message was sent before what stands behind it was posted. -/
def Message.Before : Message → Message → Prop
  | .BM_CANCEL_RUNNABLE _ _ sentAt, .BM_POST_RUNNABLE _ i => sentAt ≤ i
  | _, _ => True

structure Ordered (s : State) : Prop where
  before : s.mMessageList.Pairwise Message.Before
  sent : ∀ handler runnable sentAt,
    .BM_CANCEL_RUNNABLE handler runnable sentAt ∈ s.mMessageList → sentAt ≤ s.nextInfo
  killed : ∀ i ∈ s.killed, i < s.nextInfo ∧ (s.info i).mDelayedMS ≠ 0

namespace Ordered
variable {s s' : State} {m : Message}

theorem sublist (h : Ordered s) (hsub : s'.mMessageList.Sublist s.mMessageList)
    (hnext : s'.nextInfo = s.nextInfo) (hinfo : s'.info = s.info) (hkilled : s'.killed = s.killed) :
    Ordered s' := by
  refine ⟨h.before.sublist hsub, fun handler runnable sentAt hmem => ?_, fun i hi => ?_⟩
  · rw [hnext]
    exact h.sent handler runnable sentAt (hsub.subset hmem)
  · rw [hnext, hinfo]
    exact h.killed i (hkilled ▸ hi)

theorem append (h : Ordered s) (hm : match m with
      | .BM_POST_RUNNABLE .. => False
      | .BM_CANCEL_RUNNABLE _ _ sentAt => sentAt ≤ s.nextInfo
      | _ => True) :
    Ordered { s with mMessageList := s.mMessageList ++ [m] } := by
  refine ⟨List.pairwise_append.mpr ⟨h.before, List.pairwise_singleton _ m, fun a _ b hb => ?_⟩,
    fun handler runnable sentAt hmem => ?_, h.killed⟩
  · rw [List.mem_singleton.mp hb]
    cases m with
    | BM_POST_RUNNABLE => exact hm.elim
    | BM_NULL | BM_CANCEL_RUNNABLE | other => cases a <;> trivial
  · rcases List.mem_append.mp hmem with hmem | hmem
    · exact h.sent handler runnable sentAt hmem
    · rw [← List.mem_singleton.mp hmem] at hm
      exact hm

theorem post (h : Ordered s) (handler : HandlerId) (runnable : RunnableId) (ms : UInt32) :
    Ordered (postDelayedRunnable handler runnable ms s) := by
  refine ⟨List.pairwise_append.mpr ⟨h.before, List.pairwise_singleton _ _, fun a ha b hb => ?_⟩,
    fun handler' runnable' sentAt hmem => ?_, fun i hi => ?_⟩
  · rw [List.mem_singleton.mp hb]
    cases a with
    | BM_CANCEL_RUNNABLE handler' runnable' sentAt => exact h.sent _ _ _ ha
    | BM_NULL | BM_POST_RUNNABLE | other => trivial
  · refine Nat.le_succ_of_le (h.sent handler' runnable' sentAt ?_)
    exact (List.mem_append.mp hmem).resolve_right fun hmem => by
      cases List.mem_singleton.mp hmem
  · obtain ⟨hlt, hms⟩ := h.killed i hi
    refine ⟨Nat.lt_succ_of_lt hlt, ?_⟩
    show (Function.update s.info _ _ i).mDelayedMS ≠ 0
    rwa [Function.update_of_ne (Nat.ne_of_lt hlt)]

end Ordered

structure Inv (env : Env) (s : State) : Prop where
  timed : Timed env s.timers s.stack
  placed : Placed s
  ordered : Ordered s

namespace Inv
variable {env : Env} {s s' : State}

theorem setTimerEx (hmono : Monotone env.tick) (h : Inv env s) {handler : HandlerId}
    {interval : UInt32} (hs : setTimerEx env handler interval none s = some s') : Inv env s' := by
  unfold Runnables.setTimerEx at hs
  split_ifs at hs with hspace
  cases hs
  exact ⟨h.timed.setTimerEx hmono hspace interval none, h.placed.setTimer (h.timed.free hspace),
    (h.ordered.append (m := .BM_NULL) trivial).sublist (List.Sublist.refl _) rfl rfl rfl⟩

theorem cancelRunnable (hmono : Monotone env.tick) (h : Inv env s) (handler : HandlerId)
    (runnable : RunnableId) : Inv env (cancelRunnable env handler runnable s) :=
  ⟨h.timed.killTimers hmono handler _, h.placed.cancelRunnable h.timed.keyed handler runnable,
    h.ordered.sublist List.filter_sublist rfl rfl rfl⟩

theorem killTimer (hmono : Monotone env.tick) (h : Inv env s) (handler : HandlerId)
    (timerId : TimerId) : Inv env (killTimer env handler timerId s) := by
  refine ⟨h.timed.killTimer hmono handler timerId, h.placed.killTimer h.timed.keyed handler timerId,
    h.ordered.before, h.ordered.sent, fun i hi => ?_⟩
  rcases List.mem_append.mp hi with hi | hi
  · exact h.ordered.killed i hi
  · obtain ⟨n, hn, rfl⟩ := List.mem_map.mp hi
    have hn := List.mem_of_mem_filter hn
    exact ⟨h.placed.lt_of_waiting (List.mem_map_of_mem hn), (h.placed.timer n hn).2.2⟩

theorem onMessage (hmono : Monotone env.tick) (h : Inv env s) {m : Message} {ms : List Message}
    (hlist : s.mMessageList = m :: ms)
    (hs : onMessage env { s with mMessageList := ms } m = some s') : Inv env s' := by
  have hsub : ms.Sublist s.mMessageList := hlist ▸ List.sublist_cons_self m ms
  have hord : Ordered { s with mMessageList := ms } := h.ordered.sublist hsub rfl rfl rfl
  cases m with
  | BM_NULL =>
      cases hs
      exact ⟨h.timed, h.placed.pop hlist rfl, hord⟩
  | other n =>
      cases hs
      exact ⟨h.timed.code, (h.placed.pop hlist rfl).stack _, hord.sublist (.refl _) rfl rfl rfl⟩
  | BM_CANCEL_RUNNABLE handler runnable sentAt =>
      cases hs
      have hpop : Inv env { s with mMessageList := ms } :=
        ⟨h.timed, h.placed.pop hlist rfl, hord⟩
      exact hpop.cancelRunnable hmono handler runnable
  | BM_POST_RUNNABLE handler i =>
      simp only [Runnables.onMessage] at hs
      split_ifs at hs with hms
      · cases hs
        exact ⟨h.timed.code, (h.placed.run hlist).stack _, hord.sublist (.refl _) rfl rfl rfl⟩
      · unfold Runnables.setTimerEx at hs
        split_ifs at hs with hspace
        cases hs
        exact ⟨h.timed.setTimerEx hmono hspace _ _, h.placed.arm hlist hms (h.timed.free hspace),
          (hord.append (m := .BM_NULL) trivial).sublist (.refl _) rfl rfl rfl⟩

theorem processTimer (hmono : Monotone env.tick) (h : Inv env s) :
    Inv env (processTimer env s) := by
  unfold Runnables.processTimer
  split_ifs with hbusy
  · exact h
  · have hidle : s.timers.mBusying = false := by simpa using hbusy
    have hgathered : TimerManager.Gathered { s.timers with mBusying := true }
        (TimerManager.caughtUp env { s.timers with mBusying := true }) :=
      (TimerManager.getCurrentMillisec_gathered env _).trans
        (TimerManager.detectLoop_gathered env _ _)
    have hplaced : Placed { s with
        timers := (TimerManager.caughtUp env { s.timers with mBusying := true }) } := by
      refine h.placed.timers hgathered.nextNode_eq hgathered.map_eq fun n => ?_
      rw [hgathered.heap_eq]
      exact ⟨rfl, rfl⟩
    have hread : Placed { s with timers := (TimerManager.getCurrentMillisec env
        (TimerManager.caughtUp env { s.timers with mBusying := true })) } :=
      hplaced.timers rfl rfl fun _ => ⟨rfl, rfl⟩
    exact ⟨h.timed.processTimer hmono hidle, hread.stack _,
      h.ordered.sublist (.refl _) rfl rfl rfl⟩

theorem timeOut {since tickNow : ℕ} {rest : List Frame} (h : Inv env s)
    (hstack : s.stack = .processTimeOut since tickNow :: rest) :
    Inv env (timeOut tickNow rest s) := by
  have htimed := h.timed
  rw [hstack] at htimed
  unfold Runnables.timeOut
  split
  · rename_i hready
    have hplaced : Placed { s with timers :=
        { s.timers with mBusying := false, mReadyNodes := [] } } :=
      h.placed.timers rfl rfl fun _ => ⟨rfl, rfl⟩
    exact ⟨htimed.passEnds hready, hplaced.stack rest,
      h.ordered.sublist (.refl _) rfl rfl rfl⟩
  · rename_i node ready hready
    have hlive := @Timed.handedOut env _ _ node htimed (hready ▸ List.mem_cons_self)
    have hturn := htimed.turn hready
    have hpop : Placed { s with timers := { s.timers with mReadyNodes := ready } } :=
      h.placed.timers rfl rfl fun _ => ⟨rfl, rfl⟩
    have hkeyed : TimerManager.State.Keyed { s.timers with mReadyNodes := ready } := htimed.keyed
    refine ⟨?_, ?_, h.ordered.sublist (.refl _) rfl rfl rfl⟩
    · dsimp only
      rw [hstack]
      split_ifs
      · exact hturn.code
      · exact hturn
    · dsimp only
      cases hextra : (s.timers.heap node).mExtraInfo with
      | some info =>
          have hcarries : Carries { s.timers with mReadyNodes := ready } node :=
            ⟨hlive, by rw [hextra]; rfl⟩
          exact (hpop.runTimer hkeyed (beforeCallback_killed hkeyed hextra hlive) hcarries).stack _
      | none =>
          obtain ⟨hmap, hnext, hheap⟩ := @beforeCallback_rearmed
            { s.timers with mReadyNodes := ready } tickNow node hextra
          exact (hpop.timers hnext hmap hheap).stack _

end Inv

section
variable {env : Env} {s s' : State}

theorem step_inv (hmono : Monotone env.tick) (h : Inv env s) {a : Act}
    (hs : step env s a = some s') : Inv env s' := by
  cases a with
  | postDelayedRunnable handler runnable ms =>
      cases hs
      exact ⟨h.timed, h.placed.post handler runnable ms, h.ordered.post handler runnable ms⟩
  | postMessage n =>
      cases hs
      exact ⟨h.timed, h.placed.append rfl, h.ordered.append trivial⟩
  | sendCancelRunnable handler runnable =>
      cases hs
      exact ⟨h.timed, h.placed.append rfl, h.ordered.append (Nat.le_refl _)⟩
  | cancelRunnable handler runnable =>
      simp only [step] at hs
      split_ifs at hs
      cases hs
      exact h.cancelRunnable hmono handler runnable
  | setTimer handler interval =>
      simp only [step] at hs
      split_ifs at hs
      exact h.setTimerEx hmono hs
  | killTimer handler timerId =>
      simp only [step] at hs
      split_ifs at hs
      cases hs
      exact h.killTimer hmono handler timerId
  | call =>
      simp only [step] at hs
      split_ifs at hs
      cases hs
      exact ⟨h.timed.code, h.placed.stack _, h.ordered.sublist (.refl _) rfl rfl rfl⟩
  | ret =>
      simp only [step] at hs
      split at hs
      · rename_i rest hstack
        cases hs
        have htimed := h.timed
        rw [hstack] at htimed
        exact ⟨htimed.ret, h.placed.stack _, h.ordered.sublist (.refl _) rfl rfl rfl⟩
      · cases hs
  | dispatchMessage =>
      simp only [step] at hs
      split_ifs at hs
      split at hs
      · cases hs
      · rename_i m ms hlist
        exact h.onMessage hmono hlist hs
  | processTimer =>
      simp only [step] at hs
      split_ifs at hs
      cases hs
      exact h.processTimer hmono
  | timeOut =>
      simp only [step] at hs
      split at hs
      · rename_i since tickNow rest hstack
        cases hs
        exact h.timeOut hstack
      · cases hs

theorem Reached.inv (hmono : Monotone env.tick) (h : Reached env s) : Inv env s := by
  refine Transitions.Reachable.invariant h ⟨.init hmono, .init env, ?_⟩
    fun s a s' h _ hs => step_inv hmono h hs
  exact ⟨.nil, fun _ _ _ hmem => (by cases hmem), fun _ hi => (by cases hi)⟩

/-- What the queue and the timer maps hold of the infos, and what a pass leaves there. -/
structure Kept (s : State) : Prop where
  /-- every info is in one place, once -/
  once : ∀ i < s.nextInfo, s.queued.count i + s.waiting.count i + s.ran.count i +
    s.cancelled.count i + s.killed.count i = 1
  /-- a message goes to the handler of its info -/
  message : ∀ handler i, .BM_POST_RUNNABLE handler i ∈ s.mMessageList →
    (s.info i).mHandler = handler
  /-- a live timer with an `mExtraInfo` is one of the handler of its info and runs its runnable -/
  timer : ∀ handler id n, s.timers.mTimerMap handler id = some n →
    (s.timers.heap n).mExtraInfo.isSome →
      s.setFor n ∈ s.waiting ∧ (s.info (s.setFor n)).mHandler = handler ∧
      (s.timers.heap n).mExtraInfo = some ⟨some (s.info (s.setFor n)).mRunnable⟩
  /-- the time of every timer left at the end of a pass comes after the beginning of the pass -/
  punctual : ∀ since tickNow rest, s.stack = .processTimeOut since tickNow :: rest →
    s.timers.mReadyNodes = [] → ∀ handler id n, s.timers.mTimerMap handler id = some n →
      since ≤ (s.timers.heap n).mDeadTime

theorem Inv.kept (h : Inv env s) : Kept s := by
  constructor
  case once => exact fun i hi => (h.placed.once i).trans (if_pos hi)
  case message => exact h.placed.posted
  case timer =>
    intro handler id n hn hextra
    obtain ⟨-, hhandler, hid⟩ := h.timed.keyed handler id n hn
    have hmem : n ∈ runnableTimers s.timers := by
      rw [mem_runnableTimers h.timed.keyed, Carries, hhandler, hid]
      exact ⟨hn, hextra⟩
    obtain ⟨h1, h2, -⟩ := h.placed.timer n hmem
    exact ⟨List.mem_map_of_mem hmem, h1.symm.trans hhandler, h2⟩
  case punctual =>
    intro since tickNow rest hstack hready handler id n hn
    obtain ⟨p, hrest, hpass⟩ := h.timed.pass
    obtain ⟨hsince, -⟩ := hpass since tickNow (hstack ▸ List.mem_cons_self)
    by_contra hlate
    have hlink := hrest.inv.linked_of_map h.timed.fresh hn
    have hdue := hrest.toAt.ready_of_due (n := n) (by omega) (by omega)
    rw [hready] at hdue
    cases hdue

/-- Every runnable posted to a handler runs at most once, and once it is in no queue and no timer
map it has run or was given up. -/
theorem runnables_kept (hmono : Monotone env.tick) (h : Reached env s) : Kept s :=
  (h.inv hmono).kept

/-- Ten ticks from one reading of the clock to the next. -/
def tenTicks : Env := ⟨fun i => 10 * i, fun _ => []⟩

theorem tenTicks_mono : Monotone tenTicks.tick := fun _ _ hij => Nat.mul_le_mul_left 10 hij

/-- Runnable 7 is posted twice, once with a delay, and the delayed one is run by a pass. -/
def delayedActs : List Act :=
  [.postDelayedRunnable 1 7 0, .postDelayedRunnable 1 7 5, .dispatchMessage, .ret, .dispatchMessage,
    .processTimer, .timeOut, .ret]

theorem runnables_kept_delayed : ∃ s, Transitions.run (step tenTicks) (init tenTicks)
    delayedActs = some s ∧ s.ran = [0, 1] ∧ s.waiting = [] ∧ Kept s := by
  have hrun : (Transitions.run (step tenTicks) (init tenTicks) delayedActs).map (fun s =>
      (s.ran, s.waiting)) = some ([0, 1], []) := by decide +kernel
  obtain ⟨s, hs, heq⟩ := Option.map_eq_some_iff.mp hrun
  rw [Prod.mk.injEq] at heq
  exact ⟨s, hs, heq.1, heq.2, runnables_kept tenTicks_mono (Transitions.Reachable.start.of_run hs)⟩

/-- The lists of what became of the infos only grow. -/
structure Grows (s s' : State) : Prop where
  ran : s.ran <+: s'.ran
  cancelled : s.cancelled <+: s'.cancelled
  killed : s.killed <+: s'.killed

theorem Grows.refl (s : State) : Grows s s :=
  ⟨List.prefix_rfl, List.prefix_rfl, List.prefix_rfl⟩

theorem Grows.trans {s₁ s₂ s₃ : State} (h : Grows s₁ s₂) (h' : Grows s₂ s₃) : Grows s₁ s₃ :=
  ⟨h.ran.trans h'.ran, h.cancelled.trans h'.cancelled, h.killed.trans h'.killed⟩

theorem setTimerEx_grows {handler : HandlerId} {interval : UInt32} {extra : Option TimerExtraInfo}
    (hs : setTimerEx env handler interval extra s = some s') : Grows s s' := by
  unfold setTimerEx at hs
  split_ifs at hs
  cases hs
  exact ⟨List.prefix_rfl, List.prefix_rfl, List.prefix_rfl⟩

theorem cancelRunnable_grows (handler : HandlerId) (runnable : RunnableId) (s : State) :
    Grows s (cancelRunnable env handler runnable s) :=
  ⟨List.prefix_rfl, ⟨_, (List.append_assoc s.cancelled _ _).symm⟩, List.prefix_rfl⟩

theorem onMessage_grows {m : Message} (hs : onMessage env s m = some s') : Grows s s' := by
  cases m with
  | BM_NULL => cases hs; exact .refl s
  | other n => cases hs; exact ⟨List.prefix_rfl, List.prefix_rfl, List.prefix_rfl⟩
  | BM_CANCEL_RUNNABLE handler runnable sentAt =>
      cases hs
      exact cancelRunnable_grows handler runnable s
  | BM_POST_RUNNABLE handler i =>
      simp only [onMessage] at hs
      split_ifs at hs
      · cases hs
        exact ⟨List.prefix_append _ _, List.prefix_rfl, List.prefix_rfl⟩
      · have hgrows := setTimerEx_grows hs
        exact ⟨hgrows.ran, hgrows.cancelled, hgrows.killed⟩

theorem timeOut_grows (tickNow : ℕ) (rest : List Frame) (s : State) :
    Grows s (timeOut tickNow rest s) := by
  unfold timeOut
  split
  · exact ⟨List.prefix_rfl, List.prefix_rfl, List.prefix_rfl⟩
  · refine ⟨?_, List.prefix_rfl, List.prefix_rfl⟩
    dsimp only
    split_ifs
    · exact List.prefix_append _ _
    · exact List.prefix_rfl

theorem step_grows {a : Act} (hs : step env s a = some s') : Grows s s' := by
  cases a with
  | postDelayedRunnable | postMessage | sendCancelRunnable =>
      cases hs
      exact ⟨List.prefix_rfl, List.prefix_rfl, List.prefix_rfl⟩
  | cancelRunnable handler runnable =>
      simp only [step] at hs
      split_ifs at hs
      cases hs
      exact cancelRunnable_grows handler runnable s
  | setTimer handler interval =>
      simp only [step] at hs
      split_ifs at hs
      exact setTimerEx_grows hs
  | killTimer handler timerId =>
      simp only [step] at hs
      split_ifs at hs
      cases hs
      exact ⟨List.prefix_rfl, List.prefix_rfl, List.prefix_append _ _⟩
  | call =>
      simp only [step] at hs
      split_ifs at hs
      cases hs
      exact ⟨List.prefix_rfl, List.prefix_rfl, List.prefix_rfl⟩
  | ret =>
      simp only [step] at hs
      split at hs
      · cases hs
        exact ⟨List.prefix_rfl, List.prefix_rfl, List.prefix_rfl⟩
      · cases hs
  | dispatchMessage =>
      simp only [step] at hs
      split_ifs at hs
      split at hs
      · cases hs
      · have hgrows := onMessage_grows hs
        exact ⟨hgrows.ran, hgrows.cancelled, hgrows.killed⟩
  | processTimer =>
      simp only [step, processTimer] at hs
      split_ifs at hs <;> cases hs <;> exact ⟨List.prefix_rfl, List.prefix_rfl, List.prefix_rfl⟩
  | timeOut =>
      simp only [step] at hs
      split at hs
      · cases hs
        exact timeOut_grows _ _ s
      · cases hs

theorem run_grows {acts : List Act} (hrun : Transitions.run (step env) s acts = some s') :
    Grows s s' := by
  induction acts generalizing s with
  | nil =>
      cases hrun
      exact .refl _
  | cons a acts ih =>
      obtain ⟨s₁, hs₁, hrest⟩ := Option.bind_eq_some_iff.mp hrun
      exact (step_grows hs₁).trans (ih hrest)

/-- What a cancel of `runnable` for `handler` does that leads from `s` to `s'`. -/
structure CancelHolds (env : Env) (handler : HandlerId) (runnable : RunnableId) (s s' : State) :
    Prop where
  /-- every other message stays in the queue, in its order -/
  messages : s'.mMessageList = s.mMessageList.filter fun m => ¬ isPosted s handler runnable m
  /-- every other timer stays in its map and in its place in the lists of the manager -/
  timers : Killed (timersOf s.timers handler runnable) s.timers s'.timers
  /-- nothing is run by the cancel itself -/
  ran : s'.ran = s.ran
  /-- whatever happens then, no instance posted before is run -/
  quiet : ∀ acts s'', Transitions.run (step env) s' acts = some s'' → ∀ i < s.nextInfo,
    (s.info i).mHandler = handler → (s.info i).mRunnable = runnable →
      s''.ran.count i = s.ran.count i

/-- An info in neither the queue nor a timer map is not run any more. -/
theorem Inv.quiet (hmono : Monotone env.tick) (h : Inv env s) {i : InfoId} (hi : i < s.nextInfo)
    (hqueued : i ∉ s.queued) (hwaiting : i ∉ s.waiting) {acts : List Act}
    (hrun : Transitions.run (step env) s acts = some s') : s'.ran.count i = s.ran.count i := by
  have hinv : Inv env s' := by
    clear hi hqueued hwaiting
    induction acts generalizing s with
    | nil =>
        cases hrun
        exact h
    | cons a acts ih =>
        obtain ⟨s₁, hs₁, hrest⟩ := Option.bind_eq_some_iff.mp hrun
        exact ih (step_inv hmono h hs₁) hrest
  have hgrows := run_grows hrun
  have hbefore := h.kept.once i hi
  rw [List.count_eq_zero_of_not_mem hqueued, List.count_eq_zero_of_not_mem hwaiting] at hbefore
  have hafter := hinv.placed.once i
  have h1 := hgrows.ran.sublist.count_le i
  have h2 := hgrows.cancelled.sublist.count_le i
  have h3 := hgrows.killed.sublist.count_le i
  split_ifs at hafter <;> omega

theorem Inv.cancelHolds (hmono : Monotone env.tick) (h : Inv env s) (handler : HandlerId)
    (runnable : RunnableId) :
    CancelHolds env handler runnable s (Runnables.cancelRunnable env handler runnable s) := by
  have hk := @Placed.cancelKills env _ h.timed.keyed handler runnable
  have hinv := h.cancelRunnable hmono handler runnable
  refine ⟨rfl, hk, rfl, fun acts s'' hrun i hi hhandler hrunnable => ?_⟩
  refine hinv.quiet hmono hi (fun hmem => ?_) (fun hmem => ?_) hrun
  · obtain ⟨m, hm, hinfo⟩ := List.mem_filterMap.mp hmem
    obtain ⟨hm, hleft⟩ := List.mem_filter.mp hm
    cases m with
    | BM_POST_RUNNABLE handler' j =>
        cases hinfo
        have hto := (h.placed.posted handler' i hm).symm.trans hhandler
        exact absurd hleft (by simp [isPosted, hto, hrunnable])
    | BM_NULL | BM_CANCEL_RUNNABLE | other => cases hinfo
  · obtain ⟨n, hn, rfl⟩ := List.mem_map.mp hmem
    rw [hk.runnableTimers, List.mem_filter] at hn
    obtain ⟨h1, h2, -⟩ := h.placed.timer n hn.1
    have hrunnable' : (s.info (s.setFor n)).mRunnable = runnable := hrunnable
    rw [hrunnable'] at h2
    have hof := (Placed.mem_timersOf h.timed.keyed).mpr ⟨hn.1, h1.trans hhandler, h2⟩
    exact absurd hof (of_decide_eq_true hn.2)

/-- A cancel on the thread of the looper. -/
theorem cancelRunnable_holds (hmono : Monotone env.tick) (h : Reached env s) {handler : HandlerId}
    {runnable : RunnableId} (hs : step env s (.cancelRunnable handler runnable) = some s') :
    CancelHolds env handler runnable s s' := by
  simp only [step] at hs
  split_ifs at hs
  cases hs
  exact (h.inv hmono).cancelHolds hmono handler runnable

/-- A runnable cancels itself while two more instances of it wait, one in the queue and one in the
timer map; another handler's instance of it is run afterwards. -/
def cancellingActs : List Act :=
  [.postDelayedRunnable 1 7 5, .postDelayedRunnable 1 7 0, .postDelayedRunnable 1 7 0,
    .postDelayedRunnable 2 7 0, .dispatchMessage, .dispatchMessage]

theorem cancelRunnable_holds_self : ∃ s s', Transitions.run (step tenTicks) (init tenTicks)
    cancellingActs = some s ∧ s.ran = [1] ∧ s.queued = [2, 3] ∧ s.waiting = [0] ∧
    step tenTicks s (.cancelRunnable 1 7) = some s' ∧ s'.queued = [3] ∧ s'.waiting = [] ∧
    CancelHolds tenTicks 1 7 s s' := by
  have hrun : ∃ s, Transitions.run (step tenTicks) (init tenTicks) cancellingActs = some s ∧
      s.ran = [1] ∧ s.queued = [2, 3] ∧ s.waiting = [0] ∧ ∃ s', step tenTicks s
        (.cancelRunnable 1 7) = some s' ∧ s'.queued = [3] ∧ s'.waiting = [] :=
    ⟨_, rfl, by decide +kernel, by decide +kernel, by decide +kernel, _, rfl, by decide +kernel,
      by decide +kernel⟩
  obtain ⟨s, hs, h1, h2, h3, s', hstep, h4, h5⟩ := hrun
  exact ⟨s, s', hs, h1, h2, h3, hstep, h4, h5,
    cancelRunnable_holds tenTicks_mono (Transitions.Reachable.start.of_run hs) hstep⟩

/-- A cancel sent from another looper comes too late for what was posted without a delay before it
was sent: all of it has been run or cancelled. For the rest it is like any other. -/
structure SentCancelHolds (env : Env) (handler : HandlerId) (runnable : RunnableId)
    (sentAt : InfoId) (s s' : State) : Prop extends
    CancelHolds env handler runnable s s' where
  late : ∀ i < sentAt, (s.info i).mDelayedMS = 0 → i ∈ s.ran ∨ i ∈ s.cancelled

theorem sendCancelRunnable_holds (hmono : Monotone env.tick) (h : Reached env s)
    {handler : HandlerId} {runnable : RunnableId} {sentAt : InfoId} {ms : List Message}
    (hlist : s.mMessageList = .BM_CANCEL_RUNNABLE handler runnable sentAt :: ms)
    (hs : step env s .dispatchMessage = some s') :
    SentCancelHolds env handler runnable sentAt { s with mMessageList := ms } s' := by
  have hinv := h.inv hmono
  have hpop : Inv env { s with mMessageList := ms } := ⟨hinv.timed, hinv.placed.pop hlist rfl,
    hinv.ordered.sublist (hlist ▸ List.sublist_cons_self _ ms) rfl rfl rfl⟩
  simp only [step, hlist] at hs
  split_ifs at hs
  cases hs
  refine ⟨hpop.cancelHolds hmono handler runnable, fun i hi hms => ?_⟩
  -- what is still queued was posted later, and what waits or was killed had a delay
  have hbefore := hinv.ordered.before
  rw [hlist, List.pairwise_cons] at hbefore
  have hlt := hinv.ordered.sent handler runnable sentAt (hlist ▸ List.mem_cons_self)
  have hqueued : i ∉ s.queued := by
    intro hmem
    obtain ⟨m, hm, hinfo⟩ := List.mem_filterMap.mp hmem
    rw [hlist, List.mem_cons] at hm
    rcases hm with rfl | hm
    · cases hinfo
    · have hm := hbefore.1 m hm
      cases m with
      | BM_POST_RUNNABLE handler' j =>
          cases hinfo
          exact absurd hi (Nat.not_lt.mpr hm)
      | BM_NULL | BM_CANCEL_RUNNABLE | other => cases hinfo
  have hwaiting : i ∉ s.waiting := by
    intro hmem
    obtain ⟨n, hn, rfl⟩ := List.mem_map.mp hmem
    exact (hinv.placed.timer n hn).2.2 hms
  have hkilled : i ∉ s.killed := fun hmem => (hinv.ordered.killed i hmem).2 hms
  have honce := hinv.kept.once i (Nat.lt_of_lt_of_le hi hlt)
  rw [List.count_eq_zero_of_not_mem hqueued, List.count_eq_zero_of_not_mem hwaiting,
    List.count_eq_zero_of_not_mem hkilled] at honce
  rw [← List.count_pos_iff, ← @List.count_pos_iff _ _ _ i s.cancelled]
  show 0 < s.ran.count i ∨ 0 < s.cancelled.count i
  omega

/-- The cancel stands behind the two instances posted before it: the one without a delay has run
when it arrives, the other one is still a timer. -/
def sendingActs : List Act :=
  [.postDelayedRunnable 1 7 0, .postDelayedRunnable 1 7 5, .sendCancelRunnable 1 7,
    .dispatchMessage, .ret, .dispatchMessage]

theorem sendCancelRunnable_holds_late : ∃ s s', Transitions.run (step tenTicks) (init tenTicks)
    sendingActs = some s ∧ s.ran = [0] ∧ s.waiting = [1] ∧
    step tenTicks s .dispatchMessage = some s' ∧ s'.ran = [0] ∧ s'.waiting = [] ∧
    SentCancelHolds tenTicks 1 7 2 { s with mMessageList := [.BM_NULL] } s' := by
  have hrun : ∃ s, Transitions.run (step tenTicks) (init tenTicks) sendingActs = some s ∧
      s.mMessageList = [.BM_CANCEL_RUNNABLE 1 7 2, .BM_NULL] ∧ s.ran = [0] ∧ s.waiting = [1] ∧
      ∃ s', step tenTicks s .dispatchMessage = some s' ∧ s'.ran = [0] ∧ s'.waiting = [] :=
    ⟨_, rfl, by decide +kernel, by decide +kernel, by decide +kernel, _, rfl, by decide +kernel,
      by decide +kernel⟩
  obtain ⟨s, hs, hlist, h1, h2, s', hstep, h3, h4⟩ := hrun
  exact ⟨s, s', hs, h1, h2, hstep, h3, h4, sendCancelRunnable_holds tenTicks_mono
    (Transitions.Reachable.start.of_run hs) hlist hstep⟩

end
end CoreLooper.Runnables
