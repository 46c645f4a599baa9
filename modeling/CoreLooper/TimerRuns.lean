import CoreLooper.TimerHandOut

/-!
# Runs of a timer manager

Every sequence of calls on a new manager keeps the wheels in step. Two results about such
runs follow. A pass at tick `T` hands out every live timer whose dead time lies before `T`.
And no timer is handed out early, provided a delay below 256 ticks is only ever armed while
the wheels lag at most one tick behind the clock.
-/
namespace CoreLooper.TimerManager
open WheelSlots

section
variable {env : Env} {b p : ℕ} {s : State}

theorem Rest.setBusying (h : Rest env b p s) (x : Bool) : Rest env b p { s with mBusying := x } :=
  ⟨⟨⟨h.inv.size_eq, h.inv.index_mod, h.inv.slot, h.inv.links, h.inv.live, h.inv.owner,
    h.inv.interval_lt, h.inv.notEarly⟩, h.start, h.reached, h.clock, h.index_lt⟩, h.recorded⟩

/-- A new manager: nothing is linked, and no wheel has turned. -/
theorem init_keeps (hmono : Monotone env.tick) : Rest env (env.tick 0) 0 (init env) := by
  have hzero : ∀ n, (init env).linkCount n = 0 := by
    intro n
    simp [State.linkCount, init, State.spoke, getCurrentMillisec]
  refine ⟨⟨⟨fun k _ => rfl, fun k _ => ?_, fun k j n hn => ?_, fun n => ?_, fun _ n => ?_,
    fun _ _ _ hm => ?_, fun _ => Nat.two_pow_pos 32, fun _ e he => ?_⟩, rfl, Nat.le_refl _,
    hmono (Nat.le_succ _), fun k _ => wheelSize_pos k⟩, fun _ n h id previous hset => ?_⟩
  · show 0 % _ = 0 / _ % _
    rw [Nat.zero_div]
  · cases hn
  · rw [hzero, List.count_nil]
    exact Nat.zero_le _
  · rw [hzero, List.count_nil]
    exact iff_of_false (by decide) fun hm => by cases hm
  · cases hm
  · cases he
  · cases hset

/-- Before its pass over the ready nodes, `ProcessTimeOut` reads the clock. -/
theorem Rest.tick (hmono : Monotone env.tick) (h : Rest env b p s) :
    Rest env b p (getCurrentMillisec env s) :=
  ⟨⟨h.inv.tick h.clock, h.start, Nat.le_trans h.reached h.clock, hmono (Nat.le_succ _),
    h.index_lt⟩, h.recorded⟩

/-- The loop takes all ready nodes off the list, so clearing the list at the end changes nothing. -/
theorem processTimeOut_eq (hmono : Monotone env.tick) (h : Rest env b p s) :
    processTimeOut env s = timeOutLoop env (env.tick s.reads) s.mReadyNodes.length
      (getCurrentMillisec env s) := by
  obtain ⟨-, hnil, -⟩ := timeOutLoop_keeps (t := env.tick s.reads) hmono
    s.mReadyNodes.length (h.tick hmono) ⟨Nat.le_trans h.reached h.clock, Nat.le_refl _⟩
    (Nat.le_refl _)
  show ({ timeOutLoop env (env.tick s.reads) s.mReadyNodes.length (getCurrentMillisec env s) with
    mReadyNodes := [] } : State) = _
  rw [← hnil]

/-- The pass over the ready nodes leaves wheels at rest and the ready list empty. -/
theorem processTimeOut_keeps (hmono : Monotone env.tick) (h : Rest env b p s) :
    Rest env b p (processTimeOut env s) ∧ (processTimeOut env s).mReadyNodes = [] ∧
      ∃ new, (processTimeOut env s).log = s.log ++ new ∧ (s.DistinctReady →
        ∀ n ∈ s.mReadyNodes, (s.heap n).handOut n ∈ new ∨ .killed n ∈ new) := by
  rw [processTimeOut_eq hmono h]
  exact timeOutLoop_keeps (t := env.tick s.reads) hmono s.mReadyNodes.length (h.tick hmono)
    ⟨Nat.le_trans h.reached h.clock, Nat.le_refl _⟩ (Nat.le_refl _)

/-- The catch-up loop ends with the wheels at the tick read, or past it. -/
theorem detect_keeps (hmono : Monotone env.tick) (h : Rest env b p s) :
    ∃ p', Rest env b p' (detectLoop env
        (if env.tick s.reads > s.mStartTick then (env.tick s.reads - s.mStartTick) / granularity
          else 0) (getCurrentMillisec env s)) ∧ env.tick s.reads ≤ b + p' ∧
      Swept s (detectLoop env
        (if env.tick s.reads > s.mStartTick then (env.tick s.reads - s.mStartTick) / granularity
          else 0) (getCurrentMillisec env s)) ∧
      (ServedInTime b (fun k => p / wheelSpan k) s →
        ServedInTime b (fun k => p' / wheelSpan k) (detectLoop env
          (if env.tick s.reads > s.mStartTick then (env.tick s.reads - s.mStartTick) / granularity
            else 0) (getCurrentMillisec env s))) := by
  generalize hloop : (if env.tick s.reads > s.mStartTick then
    (env.tick s.reads - s.mStartTick) / granularity else 0) = loopnum
  have hnum : loopnum = env.tick s.reads - (b + p) := by
    rw [← hloop, h.start, granularity, Nat.div_one]
    split_ifs <;> omega
  have htick : At env b p (getCurrentMillisec env s) :=
    ⟨h.inv.tick h.clock, h.start, Nat.le_trans h.reached h.clock, hmono (Nat.le_succ _),
      h.index_lt⟩
  have hreached : b + p ≤ env.tick s.reads := Nat.le_trans h.reached h.clock
  obtain ⟨hat, hsw, hserved⟩ := detectLoop_keeps hmono loopnum htick (by
    show b + (p + loopnum) ≤ env.tick s.reads
    omega)
  have hsw' := (getCurrentMillisec_swept env s).trans hsw
  exact ⟨p + loopnum, ⟨hat, h.recorded.of_swept hsw'⟩, by omega, hsw',
    fun hs => hserved (hs.congr (fun _ _ => rfl) rfl)⟩

/-- A node whose dead time lies before the position of the wheels lies in no spoke. -/
theorem At.ready_of_due (h : At env b p s) {n : NodeId} (hlink : 0 < s.linkCount n)
    (hdue : (s.heap n).mDeadTime + 1 ≤ b + p) : n ∈ s.mReadyNodes := by
  rcases s.linked_cases n hlink with hready | ⟨k, j, hspoke⟩
  · exact hready
  · obtain ⟨-, q, hq, -, hserved, -⟩ := h.inv.slot k j n hspoke
    have hafter := hq.served_after (wheelSpan_pos k)
    omega

/-- Under fresh ids a timer of the map is linked exactly once. -/
theorem Inv.linked_of_map {c : ℕ → ℕ} (h : Inv b [] c s) (hF : s.Fresh) {handler : HandlerId}
    {timerId : TimerId} {n : NodeId} (hmap : s.mTimerMap handler timerId = some n) :
    s.linkCount n = 1 := by
  obtain ⟨-, hh, hid⟩ := h.owner handler timerId n hmap
  have hone := (h.live hF n).mpr (by rw [hh, hid, hmap])
  rwa [List.count_nil, Nat.add_zero] at hone

/-- Under fresh ids every ready node is the one in the map. -/
theorem Inv.ready_live {c : ℕ → ℕ} (h : Inv b [] c s) (hF : s.Fresh) {n : NodeId}
    (hn : n ∈ s.mReadyNodes) : s.mTimerMap (s.heap n).mHandler (s.heap n).mTimerId = some n := by
  have hpos : 0 < s.mReadyNodes.count n := List.count_pos_iff.mpr hn
  have hle := h.links n
  refine (h.live hF n).mp ?_
  rw [if_pos (h.of_ready hn).1] at hle
  unfold State.linkCount at hle ⊢
  omega

/-- So no two of them have the same key. -/
theorem Inv.distinctReady {c : ℕ → ℕ} (h : Inv b [] c s) (hF : s.Fresh) : s.DistinctReady := by
  intro m hm n hn hh hid
  have hm' := h.ready_live hF hm
  rw [hh, hid, h.ready_live hF hn, Option.some.injEq] at hm'
  exact hm'.symm

/-- One pass: detection followed by the pass over the ready nodes. -/
theorem detectList_keeps (hmono : Monotone env.tick) (h : Rest env b p s) :
    ∃ p', Rest env b p' (detectList env s) ∧ (detectList env s).mReadyNodes = [] ∧
      ∃ new, (detectList env s).log = s.log ++ new ∧ (s.Fresh → ∀ h id n,
        s.mTimerMap h id = some n → (s.heap n).mDeadTime + 1 ≤ env.tick s.reads →
          (s.heap n).handOut n ∈ new ∨ .killed n ∈ new) := by
  obtain ⟨p', hrest, hpast, hsw, -⟩ := detect_keeps hmono h
  have hlist : detectList env s = processTimeOut env (detectLoop env
      (if env.tick s.reads > s.mStartTick then (env.tick s.reads - s.mStartTick) / granularity
        else 0) (getCurrentMillisec env s)) := rfl
  rw [hlist]
  generalize detectLoop env (if env.tick s.reads > s.mStartTick then
    (env.tick s.reads - s.mStartTick) / granularity else 0) (getCurrentMillisec env s) = s' at *
  obtain ⟨hrest', hnil, new', hlog', hall⟩ := processTimeOut_keeps hmono hrest
  obtain ⟨new, hlog, hnew⟩ := hsw.log_new
  refine ⟨p', hrest', hnil, new ++ new', by rw [hlog', hlog, List.append_assoc], ?_⟩
  intro hF handler id n hn hdue
  have hF' : s'.Fresh := by
    intro e he
    rw [hlog] at he
    rcases List.mem_append.mp he with he | he
    · exact hF e he
    · have hwheel := hnew e he
      cases e <;> first | exact hwheel.elim | trivial
  have hlink : 0 < s'.linkCount n := by
    have hone := hrest.inv.linked_of_map hF' (hsw.map_eq ▸ hn)
    omega
  have hready := hrest.toAt.ready_of_due hlink (by rw [hsw.heap_eq]; omega)
  rcases hall (hrest.inv.distinctReady hF') n hready with ho | hk
  · rw [hsw.heap_eq] at ho
    exact Or.inl (List.mem_append_right _ ho)
  · exact Or.inr (List.mem_append_right _ hk)

theorem processTimer_keeps (hmono : Monotone env.tick) (h : Rest env b p s)
    (hidle : s.mBusying = false) (ioIdleTick : ℕ) :
    (∃ p', Rest env b p' (processTimer env ioIdleTick s).2) ∧
      (processTimer env ioIdleTick s).2.mBusying = false ∧
      ∃ new, (processTimer env ioIdleTick s).2.log = s.log ++ new ∧ (s.Fresh → ∀ h id n,
        s.mTimerMap h id = some n → (s.heap n).mDeadTime + 1 ≤ env.tick s.reads →
          (s.heap n).handOut n ∈ new ∨ .killed n ∈ new) := by
  obtain ⟨p', hrest, -, hlog⟩ := detectList_keeps hmono (h.setBusying true)
  simp only [processTimer, hidle, Bool.false_eq_true, if_false]
  exact ⟨⟨p', hrest.setBusying false⟩, trivial, hlog⟩

theorem killTimer_busy (handler : HandlerId) (timerId : TimerId) :
    (killTimer handler timerId s).mBusying = s.mBusying := by
  unfold killTimer
  split <;> rfl

/-- The manager is not busy between two calls from outside. -/
theorem callInside_busy (c : Call) : (callInside env s c).mBusying = s.mBusying := by
  cases c with
  | setTimer handler timerId interval extra => rfl
  | setTimerEx handler interval extra => rfl
  | processTimer io => rfl
  | killTimer handler timerId =>
      simp only [callInside]
      split
      · exact killTimer_busy handler timerId
      · rename_i node _
        exact killTimer_busy (s := s.emit (.killed node)) handler timerId

theorem call_keeps (hmono : Monotone env.tick) (h : Rest env b p s) (hidle : s.mBusying = false)
    (c : Call) : (∃ p', Rest env b p' (call env s c)) ∧ (call env s c).mBusying = false := by
  cases c with
  | processTimer io =>
      obtain ⟨hrest, hbusy, -⟩ := processTimer_keeps hmono h hidle io
      exact ⟨hrest, hbusy⟩
  | setTimer handler timerId interval extra =>
      exact ⟨⟨p, (callInside_keeps hmono h (.setTimer handler timerId interval extra)).1⟩,
        (callInside_busy _).trans hidle⟩
  | setTimerEx handler interval extra =>
      exact ⟨⟨p, (callInside_keeps hmono h (.setTimerEx handler interval extra)).1⟩,
        (callInside_busy _).trans hidle⟩
  | killTimer handler timerId =>
      exact ⟨⟨p, (callInside_keeps hmono h (.killTimer handler timerId)).1⟩,
        (callInside_busy _).trans hidle⟩

/-- Every run keeps the invariant. -/
theorem run_keeps (hmono : Monotone env.tick) (calls : List Call) :
    (∃ p, Rest env (env.tick 0) p (run env calls)) ∧ (run env calls).mBusying = false := by
  have hfold : ∀ (calls : List Call) (s : State) (p : ℕ), Rest env (env.tick 0) p s →
      s.mBusying = false → (∃ p, Rest env (env.tick 0) p (calls.foldl (call env) s)) ∧
        (calls.foldl (call env) s).mBusying = false := by
    intro calls
    induction calls with
    | nil => exact fun s p h hidle => ⟨⟨p, h⟩, hidle⟩
    | cons c calls ih =>
        intro s p h hidle
        obtain ⟨⟨p', h'⟩, hidle'⟩ := call_keeps hmono h hidle c
        exact ih _ p' h' hidle'
  exact hfold calls (init env) 0 (init_keeps hmono) rfl

/-- A timer was set under this key, and neither killed nor run since. -/
def Live (log : List Event) (handler : HandlerId) (timerId : TimerId) (node : NodeId) : Prop :=
  (∃ previous, .set node handler timerId previous ∈ log) ∧ .killed node ∉ log ∧
    ∀ r, .run r node ∉ log

/-- No timer is missed: a pass that reads tick `T` on entry hands out every live timer whose dead
time lies before `T`, unless one of its callbacks killed the timer first. -/
theorem processTimer_hands_out_due (env : Env) (hmono : Monotone env.tick) (calls : List Call)
    (hfresh : (run env calls).Fresh) (ioIdleTick : ℕ) {handler : HandlerId} {timerId : TimerId}
    {node : NodeId} (hlive : Live (run env calls).log handler timerId node)
    (hdue : ((run env calls).heap node).mDeadTime + 1 ≤ env.tick (run env calls).reads) :
    ∃ new, (run env (calls ++ [.processTimer ioIdleTick])).log = (run env calls).log ++ new ∧
      (((run env calls).heap node).handOut node ∈ new ∨ .killed node ∈ new) := by
  obtain ⟨⟨p, hrest⟩, hidle⟩ := run_keeps hmono calls
  obtain ⟨-, -, new, hlog, hall⟩ := processTimer_keeps hmono hrest hidle ioIdleTick
  have hrun : run env (calls ++ [.processTimer ioIdleTick]) =
      (processTimer env ioIdleTick (run env calls)).2 := by
    rw [run, List.foldl_append]
    rfl
  obtain ⟨⟨previous, hset⟩, hkilled, hrun'⟩ := hlive
  have hmap : (run env calls).mTimerMap handler timerId = some node := by
    rcases hrest.recorded hfresh node handler timerId previous hset with hk | ⟨r, hr⟩ | hm
    · exact absurd hk hkilled
    · exact absurd hr (hrun' r)
    · exact hm
  rw [hrun]
  exact ⟨new, hlog, hall hfresh handler timerId node hmap hdue⟩

/-- A clock that reads 0 at first and `t` from reading `m` on; callbacks do nothing. -/
def jumpEnv (m t : ℕ) : Env := ⟨fun i => if i < m then 0 else t, fun _ => []⟩

theorem jumpEnv_monotone (m t : ℕ) : Monotone (jumpEnv m t).tick := by
  intro i j hij
  simp only [jumpEnv]
  split_ifs <;> omega

theorem processTimer_hands_out_due_five :
    ∃ new, (run (jumpEnv 2 6) ([.setTimer 1 7 5 none] ++ [.processTimer 0])).log =
        (run (jumpEnv 2 6) [.setTimer 1 7 5 none]).log ++ new ∧
      (((run (jumpEnv 2 6) [.setTimer 1 7 5 none]).heap 0).handOut 0 ∈ new ∨
        .killed 0 ∈ new) := by
  have hlog : (run (jumpEnv 2 6) [.setTimer 1 7 5 none]).log =
      [.set 0 1 7 none, .armed 0 5 0 0] := by decide
  refine @processTimer_hands_out_due (jumpEnv 2 6) (jumpEnv_monotone 2 6) [.setTimer 1 7 5 none]
    ?_ 0 1 7 0 ⟨⟨none, ?_⟩, ?_, fun r => ?_⟩ (by decide)
  · intro e he
    rw [hlog] at he
    rcases List.mem_pair.mp he with rfl | rfl
    · rfl
    · trivial
  all_goals simp [hlog]

/-- No timer is early in a run whose short delays are armed on wheels at most one tick behind. -/
theorem run_notEarly (env : Env) (hmono : Monotone env.tick) (calls : List Call)
    (htimely : (run env calls).Timely) : ∀ e ∈ (run env calls).log, e.NotEarly := by
  obtain ⟨⟨p, hrest⟩, -⟩ := run_keeps hmono calls
  exact hrest.inv.notEarly htimely

theorem run_notEarly_five :
    (∀ e ∈ (run (jumpEnv 2 6) [.setTimer 1 7 5 none, .processTimer 0]).log, e.NotEarly) ∧
    (run (jumpEnv 2 6) [.setTimer 1 7 5 none, .processTimer 0]).log =
      [.set 0 1 7 none, .armed 0 5 0 0, .ready 0 5 6, .armed 0 5 6 6, .onTimer 1 7 0] := by
  have hlog : (run (jumpEnv 2 6) [.setTimer 1 7 5 none, .processTimer 0]).log =
      [.set 0 1 7 none, .armed 0 5 0 0, .ready 0 5 6, .armed 0 5 6 6, .onTimer 1 7 0] := by
    decide
  refine ⟨run_notEarly (jumpEnv 2 6) (jumpEnv_monotone 2 6) _ fun e he => ?_, hlog⟩
  rw [hlog] at he
  simp only [List.mem_cons, List.not_mem_nil, or_false] at he
  rcases he with rfl | rfl | rfl | rfl | rfl <;> simp [Event.Timely]

/-- A timer of 5 ms set at tick 10, while the wheels still stand at tick 0, is made ready by a
pass at tick 10, although it is due only at tick 15. -/
theorem early_timer : ¬ ∀ env : Env, Monotone env.tick → ∀ calls : List Call,
    ∀ e ∈ (run env calls).log, e.NotEarly := by
  intro hall
  have hready : .ready 0 15 10 ∈
      (run (jumpEnv 1 10) [.setTimer 1 7 5 none, .processTimer 0]).log := by decide
  have hearly : 15 ≤ 10 := hall (jumpEnv 1 10) (jumpEnv_monotone 1 10) _ _ hready
  omega

end
end CoreLooper.TimerManager
