import CoreLooper.RunnableTimers

/-!
# Where the posted runnables are

Two invariants of the thread: the timer manager is at rest between the turns of a pass, and
every info is in one place, the queue, a timer map, or one of the lists of those that ran, were
cancelled or had their timer killed.
-/
namespace CoreLooper.Runnables
open TimerManager (Env HandlerId RunnableId NodeId TimerId TimerExtraInfo)

def Frame.isPass : Frame → Bool
  | .processTimeOut .. => true
  | .code => false

/-- The manager, on whose wheels at most one pass is at work. -/
structure Timed (env : Env) (t : TimerManager.State) (stack : List Frame) : Prop where
  pass : ∃ p, TimerManager.Rest env (env.tick 0) p t ∧ ∀ since tickNow,
    .processTimeOut since tickNow ∈ stack →
      since ≤ env.tick 0 + p ∧ env.tick 0 + p ≤ tickNow ∧ tickNow ≤ t.now
  busy : stack.countP Frame.isPass = if t.mBusying then 1 else 0
  idle : t.mBusying = false → t.mReadyNodes = []
  counted : t.Counted
  fresh : t.Fresh

section
variable {env : Env} {t t' : TimerManager.State} {stack : List Frame}

theorem fresh_append (h : t.Fresh)
    (hlog : ∃ new, t'.log = t.log ++ new ∧ ∀ e ∈ new, TimerManager.Event.Fresh e) : t'.Fresh := by
  obtain ⟨new, hlog, hnew⟩ := hlog
  intro e he
  rw [hlog] at he
  exact (List.mem_append.mp he).elim (h e) (hnew e)

theorem counted_emit (h : t.Counted) (e : TimerManager.Event) : (t.emit e).Counted :=
  h.congr rfl rfl fun _ _ hid => hid

namespace Timed

theorem keyed (h : Timed env t stack) : t.Keyed := by
  obtain ⟨p, hrest, -⟩ := h.pass
  exact hrest.inv.owner

theorem code (h : Timed env t stack) : Timed env t (.code :: stack) := by
  obtain ⟨p, hrest, hpass⟩ := h.pass
  refine ⟨⟨p, hrest, fun since tickNow hmem => ?_⟩, ?_, h.idle, h.counted, h.fresh⟩
  · exact hpass since tickNow ((List.mem_cons.mp hmem).resolve_left (by simp))
  · rw [List.countP_cons_of_neg (by simp [Frame.isPass]), h.busy]

theorem ret (h : Timed env t (.code :: stack)) : Timed env t stack := by
  obtain ⟨p, hrest, hpass⟩ := h.pass
  refine ⟨⟨p, hrest, fun since tickNow hmem => ?_⟩, ?_, h.idle, h.counted, h.fresh⟩
  · exact hpass since tickNow (List.mem_cons_of_mem _ hmem)
  · rw [← h.busy, List.countP_cons_of_neg (by simp [Frame.isPass])]

/-- A call of program code. -/
theorem call (hmono : Monotone env.tick) (h : Timed env t stack) (c : TimerManager.Call)
    (hcounted : (TimerManager.callInside env t c).Counted)
    (hfresh : (TimerManager.callInside env t c).Fresh) :
    Timed env (TimerManager.callInside env t c) stack := by
  obtain ⟨p, hrest, hpass⟩ := h.pass
  obtain ⟨hrest', hcalled⟩ := TimerManager.callInside_keeps hmono hrest c
  have hbusy := @TimerManager.callInside_busy env t c
  refine ⟨⟨p, hrest', fun since tickNow hmem => ?_⟩, by rw [hbusy, h.busy], fun hidle => ?_,
    hcounted, hfresh⟩
  · obtain ⟨h1, h2, h3⟩ := hpass since tickNow hmem
    exact ⟨h1, h2, h3.trans hcalled.now_le⟩
  · have hnil := hcalled.ready
    rw [h.idle (hbusy.symm.trans hidle)] at hnil
    exact List.sublist_nil.mp hnil

theorem killTimer (hmono : Monotone env.tick) (h : Timed env t stack) (handler : HandlerId)
    (timerId : TimerId) :
    Timed env (TimerManager.callInside env t (.killTimer handler timerId)) stack := by
  refine h.call hmono _ ?_ ?_
  · simp only [TimerManager.callInside]
    split
    · exact h.counted.killTimer handler timerId
    · exact (counted_emit h.counted _).killTimer handler timerId
  · refine fresh_append h.fresh ?_
    simp only [TimerManager.callInside]
    split
    · exact ⟨[], by rw [(TimerManager.killTimer_frame handler timerId).2.2.1, List.append_nil],
        fun _ he => (by cases he)⟩
    · rename_i node _
      refine ⟨[.killed node], (TimerManager.killTimer_frame (s := t.emit _) handler timerId).2.2.1,
        fun e he => ?_⟩
      rw [List.mem_singleton.mp he]
      trivial

theorem killTimers (hmono : Monotone env.tick) (h : Timed env t stack) (handler : HandlerId)
    (timerIds : List TimerId) :
    Timed env ((timerIds.map (.killTimer handler)).foldl (TimerManager.callInside env) t)
      stack := by
  induction timerIds generalizing t with
  | nil => exact h
  | cons id ids ih => exact ih (h.killTimer hmono handler id)

/-- The id of a new timer is free. -/
theorem free (h : Timed env t stack) {handler : HandlerId}
    (hspace : TimerManager.timerCount t handler < 2 ^ 64 - 1) :
    t.mTimerMap handler (TimerManager.nextTimerId t handler).1 = none :=
  h.counted.nextTimerId_free h.keyed handler hspace

theorem setTimerEx (hmono : Monotone env.tick) (h : Timed env t stack) {handler : HandlerId}
    (hspace : TimerManager.timerCount t handler < 2 ^ 64 - 1) (interval : UInt32)
    (extra : Option TimerExtraInfo) :
    Timed env (TimerManager.callInside env t (.setTimerEx handler interval extra)) stack := by
  refine h.call hmono _ (h.counted.setTimerEx h.keyed handler _ extra) ?_
  refine fresh_append h.fresh ⟨_, List.append_assoc t.log [_] [_], fun e he => ?_⟩
  rcases List.mem_pair.mp he with rfl | rfl
  · exact h.free hspace
  · trivial

/-- The start of a pass. -/
theorem processTimer (hmono : Monotone env.tick) (h : Timed env t stack)
    (hidle : t.mBusying = false) :
    Timed env (TimerManager.getCurrentMillisec env
        (TimerManager.caughtUp env { t with mBusying := true }))
      (.processTimeOut (env.tick t.reads) (TimerManager.getCurrentMillisec env
        (TimerManager.caughtUp env { t with mBusying := true })).now :: stack) := by
  obtain ⟨p, hrest, -⟩ := h.pass
  obtain ⟨p', hrest', hpast, -, -⟩ := TimerManager.caughtUp_keeps hmono (hrest.setBusying true)
  have hgathered : TimerManager.Gathered { t with mBusying := true }
      (TimerManager.caughtUp env { t with mBusying := true }) :=
    (TimerManager.getCurrentMillisec_gathered env _).trans
      (TimerManager.detectLoop_gathered env _ _)
  have hbusy : (TimerManager.caughtUp env { t with mBusying := true }).mBusying = true :=
    TimerManager.detectLoop_busy env _ _
  have hzero : stack.countP Frame.isPass = 0 := by rw [h.busy, hidle]; rfl
  generalize TimerManager.caughtUp env { t with mBusying := true } = t₁ at *
  refine ⟨⟨p', hrest'.tick hmono, fun since tickNow hmem => ?_⟩, ?_, fun hfalse => ?_, ?_, ?_⟩
  · rcases List.mem_cons.mp hmem with heq | hmem
    · injection heq with h1 h2
      rw [h1, h2]
      exact ⟨hpast, hrest'.reached.trans hrest'.clock, le_rfl⟩
    · exact absurd rfl (List.countP_eq_zero.mp hzero _ hmem)
  · rw [List.countP_cons_of_pos rfl, hzero]
    exact (if_pos hbusy).symm
  · exact absurd hfalse (by simpa [TimerManager.getCurrentMillisec] using hbusy)
  · exact h.counted.congr hgathered.ids_eq hgathered.rewind_eq fun _ _ hid =>
      hgathered.map_eq ▸ hid
  · obtain ⟨new, hlog, hnew⟩ := hgathered.log_new
    refine fresh_append h.fresh ⟨new, hlog, fun e he => ?_⟩
    have hwheel := hnew e he
    cases e <;> first | exact hwheel.elim | trivial

/-- The end of a pass. -/
theorem passEnds {since tickNow : ℕ} (h : Timed env t (.processTimeOut since tickNow :: stack))
    (hready : t.mReadyNodes = []) :
    Timed env { t with mBusying := false, mReadyNodes := [] } stack := by
  obtain ⟨p, hrest, hpass⟩ := h.pass
  have hsame : ({ t with mBusying := false, mReadyNodes := [] } : TimerManager.State) =
      { t with mBusying := false } := by rw [← hready]
  rw [hsame]
  refine ⟨⟨p, hrest.setBusying false, fun s u hmem => hpass s u (List.mem_cons_of_mem _ hmem)⟩,
    ?_, fun _ => hready, h.counted.congr rfl rfl fun _ _ hid => hid, h.fresh⟩
  have hbusy := h.busy
  rw [List.countP_cons_of_pos rfl] at hbusy
  show _ = 0
  split_ifs at hbusy
  omega

/-- What the pass has handed out before the callback. -/
theorem turn {since tickNow : ℕ} {node : NodeId} {ready : List NodeId}
    (h : Timed env t (.processTimeOut since tickNow :: stack))
    (hready : t.mReadyNodes = node :: ready) :
    Timed env (TimerManager.beforeCallback tickNow node { t with mReadyNodes := ready })
      (.processTimeOut since tickNow :: stack) := by
  obtain ⟨p, hrest, hpass⟩ := h.pass
  obtain ⟨-, hreached, hpassed⟩ := hpass since tickNow List.mem_cons_self
  have htaken : TimerManager.Taken env (env.tick 0) p tickNow node
      { t with mReadyNodes := ready } :=
    ⟨hrest.inv.popReady hready, hrest.start, hreached, hpassed, hrest.clock, hrest.index_lt,
      hrest.recorded⟩
  obtain ⟨hrest', hout⟩ := TimerManager.beforeCallback_keeps htaken
  have hbusy := TimerManager.beforeCallback_busy tickNow node { t with mReadyNodes := ready }
  refine ⟨⟨p, hrest', fun s u hmem => ?_⟩, by rw [hbusy]; exact h.busy, fun hidle => ?_, ?_, ?_⟩
  · obtain ⟨h1, h2, h3⟩ := hpass s u hmem
    exact ⟨h1, h2, h3.trans hout.now_le⟩
  · have hnil := h.idle (hbusy.symm.trans hidle)
    rw [hready] at hnil
    cases hnil
  · have hpop : TimerManager.State.Counted { t with mReadyNodes := ready } :=
      h.counted.congr rfl rfl fun _ _ hid => hid
    unfold TimerManager.beforeCallback
    dsimp only
    split
    · exact counted_emit (hpop.killTimer _ _) _
    · exact hpop.congr rfl rfl fun _ _ hid => hid
  · have hpop : TimerManager.State.Fresh { t with mReadyNodes := ready } := h.fresh
    refine fresh_append hpop ?_
    unfold TimerManager.beforeCallback
    dsimp only
    split
    · rename_i info _
      refine ⟨[.run info.mRunnable node], ?_, fun e he => ?_⟩
      · rw [TimerManager.State.emit_log, (TimerManager.killTimer_frame _ _).2.2.1]
      · rw [List.mem_singleton.mp he]
        trivial
    · refine ⟨_, List.append_assoc t.log [_] [_], fun e he => ?_⟩
      rcases List.mem_pair.mp he with rfl | rfl <;> trivial

/-- The node handed out is the one of a live timer. -/
theorem handedOut {node : NodeId} (h : Timed env t stack) (hnode : node ∈ t.mReadyNodes) :
    t.mTimerMap (t.heap node).mHandler (t.heap node).mTimerId = some node := by
  obtain ⟨p, hrest, -⟩ := h.pass
  exact hrest.inv.ready_live h.fresh hnode

theorem init (hmono : Monotone env.tick) : Timed env (TimerManager.init env) [] := by
  refine ⟨⟨0, TimerManager.init_keeps hmono, fun _ _ hmem => (by cases hmem)⟩, rfl, fun _ => rfl,
    .init env, fun _ he => (by cases he)⟩

end Timed
end

/-- Every info is in one place. The queue and the timer maps know for whom it is. -/
structure Placed (s : State) : Prop where
  once : ∀ i, s.queued.count i + s.waiting.count i + s.ran.count i + s.cancelled.count i +
    s.killed.count i = if i < s.nextInfo then 1 else 0
  posted : ∀ handler i, .BM_POST_RUNNABLE handler i ∈ s.mMessageList → (s.info i).mHandler = handler
  timer : ∀ n ∈ runnableTimers s.timers,
    (s.timers.heap n).mHandler = (s.info (s.setFor n)).mHandler ∧
    (s.timers.heap n).mExtraInfo = some ⟨some (s.info (s.setFor n)).mRunnable⟩ ∧
    (s.info (s.setFor n)).mDelayedMS ≠ 0

theorem count_map_filter {α β : Type*} [DecidableEq β] (f : α → β) (p : α → Bool) (l : List α)
    (b : β) : (l.map f).count b =
      ((l.filter p).map f).count b + ((l.filter fun a => !p a).map f).count b := by
  simp only [List.count_eq_countP, List.countP_map]
  exact List.countP_eq_countP_filter_add l _ p

theorem count_filterMap_filter {α β : Type*} [DecidableEq β] (f : α → Option β) (p : α → Bool)
    (l : List α) (b : β) : (l.filterMap f).count b =
      ((l.filter p).filterMap f).count b + ((l.filter fun a => !p a).filterMap f).count b := by
  rw [List.count_filterMap, List.count_filterMap, List.count_filterMap]
  exact List.countP_eq_countP_filter_add l _ p

namespace Placed
variable {env : Env} {s : State} {t' : TimerManager.State} {nodes : List NodeId}

theorem lt_of_queued (h : Placed s) {i : InfoId} (hi : i ∈ s.queued) : i < s.nextInfo := by
  have hpos := List.count_pos_iff.mpr hi
  have := h.once i
  split_ifs at this <;> omega

theorem lt_of_waiting (h : Placed s) {i : InfoId} (hi : i ∈ s.waiting) : i < s.nextInfo := by
  have hpos := List.count_pos_iff.mpr hi
  have := h.once i
  split_ifs at this <;> omega

theorem mem_queued {handler : HandlerId} {i : InfoId}
    (hmem : Message.BM_POST_RUNNABLE handler i ∈ s.mMessageList) : i ∈ s.queued :=
  List.mem_filterMap.mpr ⟨_, hmem, rfl⟩

theorem post (h : Placed s) (handler : HandlerId) (runnable : RunnableId) (ms : UInt32) :
    Placed (postDelayedRunnable handler runnable ms s) := by
  have hold : ∀ i < s.nextInfo, Function.update s.info s.nextInfo ⟨handler, runnable, ms⟩ i =
      s.info i := fun i hi => Function.update_of_ne (Nat.ne_of_lt hi) _ _
  refine ⟨fun i => ?_, fun handler' i hmem => ?_, fun n hn => ?_⟩
  · have hqueued : (postDelayedRunnable handler runnable ms s).queued = s.queued ++ [s.nextInfo] :=
      List.filterMap_append
    have honce := h.once i
    show (postDelayedRunnable handler runnable ms s).queued.count i + s.waiting.count i +
      s.ran.count i + s.cancelled.count i + s.killed.count i = if i < s.nextInfo + 1 then 1 else 0
    rw [hqueued, List.count_append]
    by_cases hi : i = s.nextInfo
    · rw [hi, if_neg (Nat.lt_irrefl _)] at honce
      rw [hi, List.count_singleton_self, if_pos (Nat.lt_succ_self _)]
      omega
    · rw [List.count_eq_zero_of_not_mem (List.mem_singleton.not.mpr hi), Nat.add_zero, honce]
      congr 1
      exact propext ⟨Nat.lt_succ_of_lt, fun hlt => Nat.lt_of_le_of_ne (Nat.le_of_lt_succ hlt) hi⟩
  · show (Function.update s.info _ _ i).mHandler = handler'
    rcases List.mem_append.mp hmem with hmem | hmem
    · rw [hold i (h.lt_of_queued (mem_queued hmem))]
      exact h.posted _ _ hmem
    · rw [List.mem_singleton] at hmem
      injection hmem with h1 h2
      rw [h1, h2, Function.update_self]
  · have hinfo := hold (s.setFor n) (h.lt_of_waiting (List.mem_map_of_mem hn))
    show (s.timers.heap n).mHandler = (Function.update s.info _ _ (s.setFor n)).mHandler ∧
      (s.timers.heap n).mExtraInfo =
        some ⟨some (Function.update s.info _ _ (s.setFor n)).mRunnable⟩ ∧
      (Function.update s.info _ _ (s.setFor n)).mDelayedMS ≠ 0
    rw [hinfo]
    exact h.timer n hn

/-- Another list of messages with the same infos. -/
theorem messages (h : Placed s) {ms : List Message}
    (hqueued : ms.filterMap Message.info? = s.queued)
    (hmem : ∀ handler i, .BM_POST_RUNNABLE handler i ∈ ms →
      .BM_POST_RUNNABLE handler i ∈ s.mMessageList) : Placed { s with mMessageList := ms } := by
  refine ⟨fun i => ?_, fun handler i hi => h.posted _ _ (hmem _ _ hi), h.timer⟩
  show (ms.filterMap Message.info?).count i + _ + _ + _ + _ = _
  rw [hqueued]
  exact h.once i

theorem append (h : Placed s) {m : Message} (hm : m.info? = none) :
    Placed { s with mMessageList := s.mMessageList ++ [m] } := by
  refine h.messages ?_ fun handler i hmem => ?_
  · rw [List.filterMap_append, List.filterMap_cons_none hm, List.filterMap_nil, List.append_nil]
    rfl
  · refine (List.mem_append.mp hmem).resolve_right fun hmem => ?_
    rw [← List.mem_singleton.mp hmem] at hm
    cases hm

theorem pop (h : Placed s) {m : Message} {ms : List Message} (hlist : s.mMessageList = m :: ms)
    (hm : m.info? = none) : Placed { s with mMessageList := ms } := by
  refine h.messages ?_ fun handler i hmem => ?_
  · rw [State.queued, hlist, List.filterMap_cons_none hm]
  · rw [hlist]
    exact List.mem_cons_of_mem m hmem

theorem stack (h : Placed s) (stack : List Frame) : Placed { s with stack := stack } :=
  ⟨h.once, h.posted, h.timer⟩

theorem count_queued {handler : HandlerId} {i : InfoId} {ms : List Message}
    (hlist : s.mMessageList = .BM_POST_RUNNABLE handler i :: ms) (j : InfoId) :
    s.queued.count j = (ms.filterMap Message.info?).count j + [i].count j := by
  rw [State.queued, hlist, List.filterMap_cons_some (f := Message.info?) rfl, List.count_cons,
    List.count_singleton]

/-- A runnable that was not delayed is run. -/
theorem run (h : Placed s) {handler : HandlerId} {i : InfoId} {ms : List Message}
    (hlist : s.mMessageList = .BM_POST_RUNNABLE handler i :: ms) :
    Placed { s with mMessageList := ms, ran := s.ran ++ [i] } := by
  refine ⟨fun j => ?_, fun handler' j hj => h.posted handler' j ?_, h.timer⟩
  · have honce := h.once j
    rw [count_queued hlist] at honce
    show (ms.filterMap Message.info?).count j + s.waiting.count j + (s.ran ++ [i]).count j +
      s.cancelled.count j + s.killed.count j = if j < s.nextInfo then 1 else 0
    rw [List.count_append, ← honce]
    omega
  · rw [hlist]
    exact List.mem_cons_of_mem _ hj

/-- A delayed runnable becomes a timer. -/
theorem arm (h : Placed s) {handler : HandlerId} {i : InfoId} {ms : List Message}
    (hlist : s.mMessageList = .BM_POST_RUNNABLE handler i :: ms) (hms : (s.info i).mDelayedMS ≠ 0)
    (hfree : s.timers.mTimerMap handler
      (TimerManager.nextTimerId s.timers handler).1 = none) :
    Placed { s with
      mMessageList := ms ++ [.BM_NULL]
      setFor := Function.update s.setFor s.timers.nextNode i
      timers := TimerManager.callInside env s.timers (.setTimerEx handler (s.info i).mDelayedMS
        (some ⟨some (s.info i).mRunnable⟩)) } := by
  have htimers := @runnableTimers_setTimerEx env s.timers handler (s.info i).mDelayedMS
    (some ⟨some (s.info i).mRunnable⟩) hfree
  have hheap : ∀ n, (TimerManager.callInside env s.timers (.setTimerEx handler
      (s.info i).mDelayedMS (some ⟨some (s.info i).mRunnable⟩))).heap n =
      if n = s.timers.nextNode then _ else s.timers.heap n :=
    fun n => TimerManager.State.setNode_heap s.timers s.timers.nextNode _ n
  have hold : ∀ n ∈ runnableTimers s.timers, n ≠ s.timers.nextNode := fun n hn => by
    exact Nat.ne_of_lt (List.mem_range.mp (List.mem_of_mem_filter hn))
  generalize TimerManager.callInside env s.timers (.setTimerEx handler (s.info i).mDelayedMS
    (some ⟨some (s.info i).mRunnable⟩)) = t' at *
  rw [Option.isSome_some, if_pos rfl] at htimers
  refine ⟨fun j => ?_, fun handler' j hj => ?_, fun n hn => ?_⟩
  · have hwaiting : (runnableTimers t').map (Function.update s.setFor s.timers.nextNode i) =
        s.waiting ++ [i] := by
      rw [htimers, List.map_append, List.map_singleton, Function.update_self, State.waiting]
      congr 1
      exact List.map_congr_left fun n hn => Function.update_of_ne (hold n hn) _ _
    have hqueued : (ms ++ [Message.BM_NULL]).filterMap Message.info? =
        ms.filterMap Message.info? := by
      rw [List.filterMap_append]
      exact List.append_nil _
    have honce := h.once j
    rw [count_queued hlist] at honce
    show ((ms ++ [Message.BM_NULL]).filterMap Message.info?).count j + ((runnableTimers t').map
      (Function.update s.setFor s.timers.nextNode i)).count j + s.ran.count j +
      s.cancelled.count j + s.killed.count j = if j < s.nextInfo then 1 else 0
    rw [hqueued, hwaiting, List.count_append, ← honce]
    omega
  · refine h.posted handler' j ?_
    rw [hlist]
    refine List.mem_cons_of_mem _ ((List.mem_append.mp hj).resolve_right fun hj => ?_)
    cases List.mem_singleton.mp hj
  · show (t'.heap n).mHandler = (s.info (Function.update s.setFor _ i n)).mHandler ∧
      (t'.heap n).mExtraInfo = some ⟨some (s.info (Function.update s.setFor _ i n)).mRunnable⟩ ∧
      (s.info (Function.update s.setFor _ i n)).mDelayedMS ≠ 0
    rw [htimers] at hn
    rcases List.mem_append.mp hn with hn | hn
    · rw [Function.update_of_ne (hold n hn), hheap, if_neg (hold n hn)]
      exact h.timer n hn
    · rw [List.mem_singleton.mp hn, Function.update_self, hheap, if_pos rfl]
      exact ⟨(h.posted handler i (by rw [hlist]; exact List.mem_cons_self)).symm, rfl, hms⟩

/-- A timer without a runnable. -/
theorem setTimer (h : Placed s) {handler : HandlerId} {interval : UInt32}
    (hfree : s.timers.mTimerMap handler (TimerManager.nextTimerId s.timers handler).1 = none) :
    Placed { s with
      timers := TimerManager.callInside env s.timers (.setTimerEx handler interval none)
      mMessageList := s.mMessageList ++ [.BM_NULL] } := by
  have htimers := @runnableTimers_setTimerEx env s.timers handler interval none hfree
  have hheap : ∀ n, (TimerManager.callInside env s.timers (.setTimerEx handler
      interval none)).heap n = if n = s.timers.nextNode then _ else s.timers.heap n :=
    fun n => TimerManager.State.setNode_heap s.timers s.timers.nextNode _ n
  generalize TimerManager.callInside env s.timers (.setTimerEx handler interval none) = t' at *
  rw [Option.isSome_none, if_neg Bool.false_ne_true, List.append_nil] at htimers
  refine append (s := { s with timers := t' }) ⟨fun j => ?_, h.posted, fun n hn => ?_⟩ rfl
  · show _ + ((runnableTimers t').map s.setFor).count j + _ + _ + _ = _
    rw [htimers]
    exact h.once j
  · show (t'.heap n).mHandler = _ ∧ (t'.heap n).mExtraInfo = _ ∧ _
    rw [htimers] at hn
    rw [hheap, if_neg (Nat.ne_of_lt (List.mem_range.mp (List.mem_of_mem_filter hn)))]
    exact h.timer n hn

/-- What happens to the places when timers are killed. -/
theorem waiting_killed (hk : Killed nodes s.timers t') (i : InfoId) :
    s.waiting.count i = ((runnableTimers t').map s.setFor).count i +
      (((runnableTimers s.timers).filter fun n => n ∈ nodes).map s.setFor).count i := by
  have hleft : runnableTimers t' = (runnableTimers s.timers).filter fun n => !decide (n ∈ nodes) :=
    hk.runnableTimers.trans (List.filter_congr fun n _ => by simp)
  rw [State.waiting, count_map_filter s.setFor (fun n => n ∈ nodes), hleft, add_comm]

theorem timer_killed (h : Placed s) (hk : Killed nodes s.timers t') : ∀ n ∈ runnableTimers t',
    (t'.heap n).mHandler = (s.info (s.setFor n)).mHandler ∧
    (t'.heap n).mExtraInfo = some ⟨some (s.info (s.setFor n)).mRunnable⟩ ∧
    (s.info (s.setFor n)).mDelayedMS ≠ 0 := by
  intro n hn
  rw [hk.runnableTimers] at hn
  rw [hk.heap_eq]
  exact h.timer n (List.mem_of_mem_filter hn)

theorem killTimer (h : Placed s) (hkeyed : s.timers.Keyed) (handler : HandlerId)
    (timerId : TimerId) : Placed (killTimer env handler timerId s) := by
  have hk := @Killed.killTimer env _ hkeyed handler timerId
  refine ⟨fun i => ?_, h.posted, h.timer_killed hk⟩
  have hnodes : ((runnableTimers s.timers).filter fun n =>
      n ∈ (s.timers.mTimerMap handler timerId).toList) =
      (runnableTimers s.timers).filter fun n => s.timers.mTimerMap handler timerId = some n :=
    List.filter_congr fun n _ => by simp [Option.mem_toList]
  have hsplit := waiting_killed hk i
  rw [hnodes] at hsplit
  have honce := h.once i
  show s.queued.count i + ((runnableTimers (TimerManager.callInside env s.timers (.killTimer handler
    timerId))).map s.setFor).count i + s.ran.count i + s.cancelled.count i +
      (s.killed ++ _).count i = if i < s.nextInfo then 1 else 0
  rw [List.count_append, ← honce, hsplit]
  omega

theorem mem_timersOf {t : TimerManager.State} {handler : HandlerId} {runnable : RunnableId}
    (hkeyed : t.Keyed) {n : NodeId} : n ∈ timersOf t handler runnable ↔
      n ∈ runnableTimers t ∧ (t.heap n).mHandler = handler ∧
        (t.heap n).mExtraInfo = some ⟨some runnable⟩ := by
  rw [timersOf, List.mem_filter, TimerManager.mem_timerNodes, mem_runnableTimers hkeyed, Carries,
    decide_eq_true_eq]
  constructor
  · rintro ⟨⟨-, rfl, hlive⟩, hextra⟩
    exact ⟨⟨hlive, by rw [hextra]; rfl⟩, rfl, hextra⟩
  · rintro ⟨⟨hlive, -⟩, rfl, hextra⟩
    exact ⟨⟨(hkeyed _ _ _ hlive).1, rfl, hlive⟩, hextra⟩

theorem filter_timersOf {t : TimerManager.State} (handler : HandlerId) (runnable : RunnableId)
    (hkeyed : t.Keyed) :
    ((runnableTimers t).filter fun n => n ∈ timersOf t handler runnable) =
      timersOf t handler runnable := by
  have hmem := @mem_timersOf t handler runnable hkeyed
  generalize hl : timersOf t handler runnable = l at *
  rw [timersOf, TimerManager.timerNodes, List.filter_filter] at hl
  rw [runnableTimers, List.filter_filter, ← hl]
  refine List.filter_congr fun n hn => ?_
  have hn' : n < t.nextNode := List.mem_range.mp hn
  rw [Bool.eq_iff_iff, Bool.and_eq_true, hl, decide_eq_true_eq, hmem, mem_runnableTimers hkeyed,
    Carries]
  simp only [decide_eq_true_eq, Bool.and_eq_true]
  constructor
  · rintro ⟨⟨⟨hlive, -⟩, rfl, hextra⟩, -⟩
    exact ⟨hextra, rfl, hlive⟩
  · rintro ⟨hextra, rfl, hlive⟩
    have hsome : (t.heap n).mExtraInfo.isSome := by rw [hextra]; rfl
    exact ⟨⟨⟨hlive, hsome⟩, rfl, hextra⟩, hlive, hsome⟩

/-- The timers of the runnable are live, each under its id. -/
theorem cancelKills (hkeyed : s.timers.Keyed) (handler : HandlerId) (runnable : RunnableId) :
    Killed (timersOf s.timers handler runnable) s.timers
      (cancelRunnable env handler runnable s).timers := by
  refine Killed.killTimers hkeyed handler ((List.nodup_range.filter _).filter _) fun n hn => ?_
  obtain ⟨hmem, rfl, -⟩ := (mem_timersOf hkeyed).mp hn
  exact ((mem_runnableTimers hkeyed).mp hmem).1

theorem cancelRunnable (h : Placed s) (hkeyed : s.timers.Keyed) (handler : HandlerId)
    (runnable : RunnableId) : Placed (cancelRunnable env handler runnable s) := by
  have hk := @cancelKills env _ hkeyed handler runnable
  refine ⟨fun i => ?_, fun handler' i hmem => h.posted handler' i (List.mem_of_mem_filter hmem),
    h.timer_killed hk⟩
  have hqueued : (Runnables.cancelRunnable env handler runnable s).queued =
      (s.mMessageList.filter fun m => !isPosted s handler runnable m).filterMap Message.info? := by
    show (s.mMessageList.filter _).filterMap Message.info? = _
    congr 1
    exact List.filter_congr fun m _ => by simp
  have hwaiting := waiting_killed hk i
  rw [filter_timersOf handler runnable hkeyed] at hwaiting
  have hsplit := count_filterMap_filter Message.info? (isPosted s handler runnable) s.mMessageList i
  have honce : (s.mMessageList.filterMap Message.info?).count i + s.waiting.count i +
    s.ran.count i + s.cancelled.count i + s.killed.count i = _ := h.once i
  show (Runnables.cancelRunnable env handler runnable s).queued.count i +
    ((runnableTimers (Runnables.cancelRunnable env handler runnable s).timers).map
      s.setFor).count i + s.ran.count i + (s.cancelled ++ (s.mMessageList.filter (isPosted s handler
        runnable)).filterMap Message.info? ++ (timersOf s.timers handler runnable).map
          s.setFor).count i + s.killed.count i = if i < s.nextInfo then 1 else 0
  rw [hqueued, List.count_append, List.count_append, ← honce, hsplit, hwaiting]
  omega

/-- A timer with a runnable is handed out. -/
theorem runTimer (h : Placed s) (hkeyed : s.timers.Keyed) {node : NodeId}
    (hk : Killed [node] s.timers t') (hcarries : Carries s.timers node) :
    Placed { s with timers := t', ran := s.ran ++ [s.setFor node] } := by
  refine ⟨fun i => ?_, h.posted, h.timer_killed hk⟩
  have hnodes : ((runnableTimers s.timers).filter fun n => n ∈ [node]) = [node] := by
    have heq : ((runnableTimers s.timers).filter fun n => n ∈ [node]) =
        (runnableTimers s.timers).filter fun n => n == node :=
      List.filter_congr fun n _ => by rw [Bool.eq_iff_iff]; simp
    rw [heq, List.filter_beq, (runnableTimers_nodup s.timers).count, if_pos
      ((mem_runnableTimers hkeyed).mpr hcarries), List.replicate_one]
  have hwaiting := waiting_killed hk i
  rw [hnodes, List.map_singleton] at hwaiting
  have honce := h.once i
  show s.queued.count i + ((runnableTimers t').map s.setFor).count i +
    (s.ran ++ [s.setFor node]).count i + s.cancelled.count i + s.killed.count i =
      if i < s.nextInfo then 1 else 0
  rw [List.count_append, ← honce, hwaiting]
  omega

/-- The manager does something else. -/
theorem timers (h : Placed s) (hnext : t'.nextNode = s.timers.nextNode)
    (hmap : t'.mTimerMap = s.timers.mTimerMap) (hheap : ∀ n, (t'.heap n).key =
      (s.timers.heap n).key ∧ (t'.heap n).mExtraInfo = (s.timers.heap n).mExtraInfo) :
    Placed { s with timers := t' } := by
  have hcarries : ∀ n, Carries t' n ↔ Carries s.timers n := fun n => by
    obtain ⟨hkey, hextra⟩ := hheap n
    obtain ⟨h1, h2⟩ := Prod.mk.inj hkey
    rw [Carries, Carries, hmap, h1, h2, hextra]
  have htimers := runnableTimers_congr hnext hcarries
  refine ⟨fun i => ?_, h.posted, fun n hn => ?_⟩
  · show s.queued.count i + ((runnableTimers t').map s.setFor).count i + _ + _ + _ = _
    rw [htimers]
    exact h.once i
  · obtain ⟨hkey, hextra⟩ := hheap n
    obtain ⟨h1, -⟩ := Prod.mk.inj hkey
    show (t'.heap n).mHandler = _ ∧ (t'.heap n).mExtraInfo = _ ∧ _
    rw [h1, hextra]
    exact h.timer n (htimers ▸ hn)

theorem init (env : Env) : Placed (init env) :=
  ⟨fun _ => rfl, fun _ _ hmem => (by cases hmem), fun _ hn => (by cases hn)⟩

end Placed
end CoreLooper.Runnables
