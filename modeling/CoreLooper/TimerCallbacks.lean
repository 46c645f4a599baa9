import CoreLooper.TimerKills

/-!
# The callbacks of one pass

`ProcessTimer` first catches up with the clock and then takes the ready nodes one by one, calling
`OnTimer` or `Run` for each. The states in which these callbacks make their calls are listed by
`processTimerStates`. In each of them the manager is busy and its wheels are at rest, so a nested
`ProcessTimer` does nothing; and the nodes handed out are, in their order, some of those that were
ready when the catch-up loop ended.
-/
namespace CoreLooper.TimerManager

/-- The state of `DetectList` after its loop. -/
def caughtUp (env : Env) (s : State) : State :=
  let s := getCurrentMillisec env s
  let loopnum := if s.now > s.mStartTick then (s.now - s.mStartTick) / granularity else 0
  detectLoop env loopnum s

theorem detectList_eq (env : Env) (s : State) :
    detectList env s = processTimeOut env (caughtUp env s) := rfl

/-- A delayed runnable may be null; then nothing is called. -/
def TimerNode.hasCallback (v : TimerNode) : Bool :=
  match v.mExtraInfo with
  | some info => info.mRunnable.isSome
  | none => true

/-- The state in which the callback of the node is called. -/
def beforeCallback (tickNow : ℕ) (node : NodeId) (s : State) : State :=
  let v := s.heap node
  match v.mExtraInfo with
  | some info => (killTimer v.mHandler v.mTimerId s).emit (.run info.mRunnable node)
  | none =>
      let s := s.setNode node { v with mDeadTime := tickNow + v.mInterval }
      let s := addTimer v.mInterval node
        (s.emit (.armed node v.mInterval tickNow s.mStartTick))
      s.emit (.onTimer v.mHandler v.mTimerId node)

theorem timeOutNode_eq (env : Env) (t : ℕ) (node : NodeId) (s : State) :
    timeOutNode env t node s =
      if (s.heap node).hasCallback then callback env (beforeCallback t node s)
      else beforeCallback t node s := by
  have hcases : ∀ x, (s.heap node).mExtraInfo = x → timeOutNode env t node s =
      if (s.heap node).hasCallback then callback env (beforeCallback t node s)
      else beforeCallback t node s := by
    intro x hx
    simp only [timeOutNode, beforeCallback, TimerNode.hasCallback, hx]
    cases x with
    | none => rfl
    | some info =>
        obtain ⟨runnable⟩ := info
        cases runnable <;> rfl
  exact hcases _ rfl

/-- The states in which a callback makes its calls, and the one it leaves. -/
def callbackStates (env : Env) (s : State) : List State :=
  (env.callback s.callbacks).scanl (callInside env) { s with callbacks := s.callbacks + 1 }

/-- Those of all callbacks of the loop of `ProcessTimeOut`. -/
def timeOutStates (env : Env) (tickNow : ℕ) : ℕ → State → List State
  | 0, _ => []
  | fuel + 1, s =>
      match s.mReadyNodes with
      | [] => []
      | node :: rest =>
          (if (s.heap node).hasCallback then
            callbackStates env (beforeCallback tickNow node { s with mReadyNodes := rest })
          else []) ++ timeOutStates env tickNow fuel
            (timeOutNode env tickNow node { s with mReadyNodes := rest })

def processTimerStates (env : Env) (s : State) : List State :=
  if s.mBusying then []
  else
    let s := getCurrentMillisec env (caughtUp env { s with mBusying := true })
    timeOutStates env s.now s.mReadyNodes.length s

/-- A state of the manager between two calls from outside, or inside a callback. -/
inductive Reached (env : Env) : State → Prop
  | between (calls : List Call) : Reached env (run env calls)
  | inside {s : State} (calls : List Call) (hs : s ∈ processTimerStates env (run env calls)) :
      Reached env s

theorem forall_mem_scanl {α β : Type*} {P : α → Prop} {f : α → β → α}
    (hstep : ∀ a b, P a → P (f a b)) {a : α} (ha : P a) (l : List β) :
    ∀ x ∈ l.scanl f a, P x := by
  induction l generalizing a with
  | nil => exact fun x hx => List.mem_singleton.mp hx ▸ ha
  | cons b l ih =>
      intro x hx
      rw [List.scanl_cons] at hx
      rcases List.mem_cons.mp hx with rfl | hx
      · exact ha
      · exact ih (hstep a b ha) x hx

section
variable {env : Env} {b p t : ℕ} {s : State} {node : NodeId}

theorem cascadeNode_busy (s : State) (n : NodeId) :
    (cascadeNode s n).mBusying = s.mBusying := by
  unfold cascadeNode
  split <;> rfl

theorem foldl_busy {f : State → NodeId → State} (hf : ∀ s n, (f s n).mBusying = s.mBusying)
    (l : List NodeId) (s : State) : (l.foldl f s).mBusying = s.mBusying := by
  induction l generalizing s with
  | nil => rfl
  | cons n l ih => exact (ih (f s n)).trans (hf s n)

theorem cascadeFrom_busy (env : Env) (rest : ℕ) (s : State) :
    (cascadeFrom env rest s).mBusying = s.mBusying := by
  induction rest generalizing s with
  | zero => rfl
  | succ rest ih =>
      simp only [cascadeFrom]
      split
      · exact (ih _).trans (foldl_busy cascadeNode_busy _ _)
      · exact foldl_busy cascadeNode_busy _ _

theorem detectStep_busy (env : Env) (s : State) : (detectStep env s).mBusying = s.mBusying := by
  have hready : ∀ (l : List NodeId) (s : State),
      (l.foldl (fun s node => addToReady node s) s).mBusying = s.mBusying :=
    fun l s => foldl_busy (f := fun s node => addToReady node s) (fun _ _ => rfl) l s
  simp only [detectStep, cascade]
  split_ifs
  · exact hready _ s
  · exact (cascadeFrom_busy env _ _).trans (hready _ s)
  · exact hready _ s

theorem detectLoop_busy (env : Env) (loopnum : ℕ) (s : State) :
    (detectLoop env loopnum s).mBusying = s.mBusying := by
  induction loopnum generalizing s with
  | zero => rfl
  | succ loopnum ih => exact (ih _).trans (detectStep_busy env s)

theorem beforeCallback_busy (t : ℕ) (node : NodeId) (s : State) :
    (beforeCallback t node s).mBusying = s.mBusying := by
  unfold beforeCallback
  dsimp only
  split
  · exact killTimer_busy _ _
  · rfl

theorem callback_busy (s : State) : (callback env s).mBusying = s.mBusying := by
  have hfold : ∀ (calls : List Call) (s : State),
      (calls.foldl (callInside env) s).mBusying = s.mBusying := by
    intro calls
    induction calls with
    | nil => exact fun _ => rfl
    | cons c calls ih => exact fun s => (ih _).trans (callInside_busy c)
  exact hfold _ _

theorem timeOutNode_busy (t : ℕ) (node : NodeId) (s : State) :
    (timeOutNode env t node s).mBusying = s.mBusying := by
  rw [timeOutNode_eq]
  split_ifs
  · exact (callback_busy _).trans (beforeCallback_busy t node s)
  · exact beforeCallback_busy t node s

theorem beforeCallback_keeps (h : Taken env b p t node s) :
    Rest env b p (beforeCallback t node s) ∧ HandedOut node s (beforeCallback t node s) := by
  unfold beforeCallback
  dsimp only
  split
  · rename_i info hinfo
    exact h.killTimer hinfo
  · rename_i hinfo
    exact h.rearm hinfo

theorem Rest.setCallbacks (h : Rest env b p s) (n : ℕ) : Rest env b p { s with callbacks := n } :=
  ⟨⟨⟨h.inv.size_eq, h.inv.index_mod, h.inv.slot, h.inv.links, h.inv.live, h.inv.owner,
    h.inv.interval_lt, h.inv.notEarly⟩, h.start, h.reached, h.clock, h.index_lt⟩, h.recorded⟩

theorem callbackStates_rest (hmono : Monotone env.tick) (h : Rest env b p s) :
    ∀ s' ∈ callbackStates env s, Rest env b p s' ∧ s'.mBusying = s.mBusying := by
  refine forall_mem_scanl (P := fun s' => Rest env b p s' ∧ s'.mBusying = s.mBusying)
    (fun s' c hs' => ?_) ⟨h.setCallbacks (s.callbacks + 1), rfl⟩ _
  exact ⟨(callInside_keeps hmono hs'.1 c).1, (callInside_busy c).trans hs'.2⟩

theorem timeOutStates_rest (hmono : Monotone env.tick) (fuel : ℕ) (h : Rest env b p s)
    (ht : b + p ≤ t ∧ t ≤ s.now) :
    ∀ s' ∈ timeOutStates env t fuel s, Rest env b p s' ∧ s'.mBusying = s.mBusying := by
  induction fuel generalizing s with
  | zero => exact fun s' hs' => by cases hs'
  | succ fuel ih =>
      cases hready : s.mReadyNodes with
      | nil =>
          simp only [timeOutStates, hready]
          exact fun s' hs' => by cases hs'
      | cons node rest =>
          simp only [timeOutStates, hready]
          have htaken : Taken env b p t node { s with mReadyNodes := rest } :=
            ⟨h.inv.popReady hready, h.start, ht.1, ht.2, h.clock, h.index_lt, h.recorded⟩
          obtain ⟨hbefore, -⟩ := beforeCallback_keeps htaken
          obtain ⟨hrest, hout⟩ := timeOutNode_keeps hmono htaken
          intro s' hs'
          rcases List.mem_append.mp hs' with hs' | hs'
          · split_ifs at hs'
            · obtain ⟨h1, h2⟩ := callbackStates_rest hmono hbefore s' hs'
              exact ⟨h1, h2.trans (beforeCallback_busy t node _)⟩
            · cases hs'
          · obtain ⟨h1, h2⟩ := ih hrest ⟨ht.1, Nat.le_trans ht.2 hout.now_le⟩ s' hs'
            exact ⟨h1, h2.trans (timeOutNode_busy t node _)⟩

theorem caughtUp_keeps (hmono : Monotone env.tick) (h : Rest env b p s) :
    ∃ p', Rest env b p' (caughtUp env s) ∧ env.tick s.reads ≤ b + p' ∧ Swept s (caughtUp env s) ∧
      (ServedInTime b (fun k => p / wheelSpan k) s →
        ServedInTime b (fun k => p' / wheelSpan k) (caughtUp env s)) :=
  detect_keeps hmono h

theorem processTimerStates_rest (hmono : Monotone env.tick) (h : Rest env b p s) :
    ∃ p', ∀ s' ∈ processTimerStates env s, Rest env b p' s' ∧ s'.mBusying = true := by
  obtain ⟨p', hrest, -⟩ := caughtUp_keeps hmono (h.setBusying true)
  refine ⟨p', fun s' hs' => ?_⟩
  unfold processTimerStates at hs'
  split_ifs at hs'
  · cases hs'
  obtain ⟨h1, h2⟩ := timeOutStates_rest hmono _ (hrest.tick hmono)
    ⟨Nat.le_trans hrest.reached hrest.clock, Nat.le_refl _⟩ s' hs'
  exact ⟨h1, h2.trans (detectLoop_busy env _ _)⟩

/-- Whatever state the manager is in, its wheels are at rest. -/
theorem Reached.rest (hmono : Monotone env.tick) (h : Reached env s) :
    ∃ p, Rest env (env.tick 0) p s := by
  cases h with
  | between calls => exact (run_keeps hmono calls).1
  | inside calls hs =>
      obtain ⟨p, hrest⟩ := (run_keeps hmono calls).1
      obtain ⟨p', hstates⟩ := processTimerStates_rest hmono hrest
      exact ⟨p', (hstates s hs).1⟩

/-- The node whose callback an event calls. -/
def Event.fires : Event → Option NodeId
  | .onTimer _ _ n => some n
  | .run _ n => some n
  | _ => none

def fired (log : List Event) : List NodeId := log.filterMap Event.fires

/-- The loop of `ProcessTimeOut` from `s` to `s'`, with the events `new`. -/
structure Drained (s s' : State) (new : List Event) : Prop where
  log_eq : s'.log = s.log ++ new
  nextNode_le : s.nextNode ≤ s'.nextNode
  ready : s'.mReadyNodes.Sublist s.mReadyNodes
  set_new : ∀ n h id previous, .set n h id previous ∈ new → s.nextNode ≤ n

theorem Drained.refl (s : State) : Drained s s [] :=
  ⟨(List.append_nil _).symm, Nat.le_refl _, List.Sublist.refl _, fun _ _ _ _ h => by cases h⟩

theorem Drained.trans {s₁ s₂ s₃ : State} {new new' : List Event} (h : Drained s₁ s₂ new)
    (h' : Drained s₂ s₃ new') : Drained s₁ s₃ (new ++ new') := by
  refine ⟨?_, Nat.le_trans h.nextNode_le h'.nextNode_le, h'.ready.trans h.ready,
    fun n hd id previous hn => ?_⟩
  · rw [h'.log_eq, h.log_eq, List.append_assoc]
  · rcases List.mem_append.mp hn with hn | hn
    · exact h.set_new n hd id previous hn
    · exact Nat.le_trans h.nextNode_le (h'.set_new n hd id previous hn)

theorem killTimer_drained (handler : HandlerId) (timerId : TimerId) (s : State) :
    Drained s (killTimer handler timerId s) [] := by
  obtain ⟨-, hnext, hlog, -⟩ := killTimer_frame (s := s) handler timerId
  exact ⟨hlog.trans (List.append_nil _).symm, hnext.ge, (killTimer_ready handler timerId).1,
    fun _ _ _ _ h => by cases h⟩

/-- A call from inside a callback fires nothing. -/
theorem callInside_drained (s : State) (c : Call) :
    ∃ new, Drained s (callInside env s c) new ∧ fired new = [] := by
  have hset : ∀ (s : State) (handler : HandlerId) (timerId : TimerId) (interval : ℕ)
      (extra : Option TimerExtraInfo),
      ∃ new, Drained s (setTimer env handler timerId interval extra s) new ∧ fired new = [] := by
    intro s handler timerId interval extra
    obtain ⟨ms, tick, position, hlog⟩ := setTimer_log env s handler timerId interval extra
    refine ⟨_, ⟨hlog, Nat.le_succ _, List.Sublist.refl _, fun n h id previous hn => ?_⟩, rfl⟩
    rcases List.mem_pair.mp hn with heq | heq
    · injection heq with h1
      exact h1.ge
    · cases heq
  cases c with
  | setTimer handler timerId interval extra => exact hset s handler timerId _ extra
  | setTimerEx handler interval extra =>
      obtain ⟨new, h, hfired⟩ := hset { s with
        mNextTimerId := Function.update s.mNextTimerId handler (nextTimerId s handler).2.1
        mTimerIdRewind := Function.update s.mTimerIdRewind handler (nextTimerId s handler).2.2 }
        handler (nextTimerId s handler).1 interval.toNat extra
      exact ⟨new, ⟨h.log_eq, h.nextNode_le, h.ready, h.set_new⟩, hfired⟩
  | processTimer io => exact ⟨[], .refl s, rfl⟩
  | killTimer handler timerId =>
      simp only [callInside]
      split
      · exact ⟨[], killTimer_drained handler timerId s, rfl⟩
      · rename_i node _
        refine ⟨[.killed node], ?_, rfl⟩
        have hkill := killTimer_drained handler timerId (s.emit (.killed node))
        exact ⟨hkill.log_eq.trans (List.append_nil _), hkill.nextNode_le, hkill.ready,
          fun _ _ _ _ h => by cases List.mem_singleton.mp h⟩

theorem callback_drained (s : State) :
    ∃ new, Drained s (callback env s) new ∧ fired new = [] := by
  have hfold : ∀ (calls : List Call) (s : State),
      ∃ new, Drained s (calls.foldl (callInside env) s) new ∧ fired new = [] := by
    intro calls
    induction calls with
    | nil => exact fun s => ⟨[], .refl s, rfl⟩
    | cons c calls ih =>
        intro s
        obtain ⟨new, h, hfired⟩ := callInside_drained s c
        obtain ⟨new', h', hfired'⟩ := ih (callInside env s c)
        refine ⟨new ++ new', h.trans h', ?_⟩
        rw [fired, List.filterMap_append]
        exact List.append_eq_nil_iff.mpr ⟨hfired, hfired'⟩
  obtain ⟨new, h, hfired⟩ := hfold (env.callback s.callbacks)
    { s with callbacks := s.callbacks + 1 }
  exact ⟨new, ⟨h.log_eq, h.nextNode_le, h.ready, h.set_new⟩, hfired⟩

/-- Handing out a node fires that node only. -/
theorem timeOutNode_drained (t : ℕ) (node : NodeId) (s : State) :
    ∃ new, Drained s (timeOutNode env t node s) new ∧ fired new = [node] := by
  have hbefore : ∃ new, Drained s (beforeCallback t node s) new ∧ fired new = [node] := by
    unfold beforeCallback
    dsimp only
    split
    · rename_i info _
      have hkill := killTimer_drained (s.heap node).mHandler (s.heap node).mTimerId s
      refine ⟨[.run info.mRunnable node], ⟨?_, hkill.nextNode_le, hkill.ready,
        fun _ _ _ _ h => by cases List.mem_singleton.mp h⟩, rfl⟩
      rw [State.emit_log, hkill.log_eq, List.append_nil]
    · refine ⟨_, ⟨List.append_assoc s.log [_] [_], Nat.le_refl _, List.Sublist.refl _,
        fun _ _ _ _ h => ?_⟩, rfl⟩
      rcases List.mem_pair.mp h with heq | heq <;> cases heq
  obtain ⟨new, h, hfired⟩ := hbefore
  rw [timeOutNode_eq]
  split_ifs
  · obtain ⟨new', h', hfired'⟩ := callback_drained (beforeCallback t node s)
    refine ⟨new ++ new', h.trans h', ?_⟩
    rw [fired, List.filterMap_append]
    exact (congrArg₂ (· ++ ·) hfired hfired').trans (List.append_nil _)
  · exact ⟨new, h, hfired⟩

/-- The loop fires only nodes that were ready when it began, each at most once and in order. -/
theorem timeOutLoop_drained (t fuel : ℕ) (s : State) :
    ∃ new, Drained s (timeOutLoop env t fuel s) new ∧ (fired new).Sublist s.mReadyNodes := by
  induction fuel generalizing s with
  | zero => exact ⟨[], .refl s, List.nil_sublist _⟩
  | succ fuel ih =>
      cases hready : s.mReadyNodes with
      | nil =>
          simp only [timeOutLoop, hready]
          exact ⟨[], .refl s, List.nil_sublist _⟩
      | cons node rest =>
          simp only [timeOutLoop, hready]
          obtain ⟨new, h, hfired⟩ :=
            timeOutNode_drained t node { s with mReadyNodes := rest }
          obtain ⟨new', h', hfired'⟩ := ih (timeOutNode env t node { s with mReadyNodes := rest })
          have hpop : Drained s { s with mReadyNodes := rest } [] :=
            ⟨(List.append_nil _).symm, Nat.le_refl _, hready ▸ List.sublist_cons_self node rest,
              fun _ _ _ _ h => by cases h⟩
          refine ⟨new ++ new', (hpop.trans h).trans h', ?_⟩
          rw [fired, List.filterMap_append]
          show (fired new ++ fired new').Sublist (node :: rest)
          rw [hfired]
          exact (hfired'.trans h.ready).cons_cons node

theorem Inv.ready_nodup {D : List NodeId} {c : ℕ → ℕ} (h : Inv b D c s) : s.mReadyNodes.Nodup := by
  refine List.nodup_iff_count_le_one.mpr fun n => ?_
  have hle := h.links n
  unfold State.linkCount at hle
  split_ifs at hle <;> omega

/-- A call of `ProcessTimer` on a manager in state `s`. -/
structure OnePass (env : Env) (ioIdleTick : ℕ) (s : State) : Prop where
  /-- the catch-up loop fires nothing -/
  catchUp : ∃ new, (caughtUp env { s with mBusying := true }).log = s.log ++ new ∧ fired new = []
  /-- no node is ready twice -/
  ready : (caughtUp env { s with mBusying := true }).mReadyNodes.Nodup
  /-- the nodes fired are among those ready then, each once; no timer set meanwhile is fired -/
  once : ∃ new, (processTimer env ioIdleTick s).2.log =
      (caughtUp env { s with mBusying := true }).log ++ new ∧
    (fired new).Sublist (caughtUp env { s with mBusying := true }).mReadyNodes ∧
    ∀ n h id previous, .set n h id previous ∈ new → n ∉ fired new
  /-- the loop ends by itself, on an empty list, after at most so many turns -/
  ends : ∀ t, (timeOutLoop env t (caughtUp env { s with mBusying := true }).mReadyNodes.length
    (getCurrentMillisec env (caughtUp env { s with mBusying := true }))).mReadyNodes = []
  /-- from a callback, `ProcessTimer` returns at once -/
  nested : ∀ s' ∈ processTimerStates env s, ∀ io, processTimer env io s' = (1, s')

theorem timeOutLoop_ends (t fuel : ℕ) (s : State) (hfuel : s.mReadyNodes.length ≤ fuel) :
    (timeOutLoop env t fuel s).mReadyNodes = [] := by
  induction fuel generalizing s with
  | zero => exact List.length_eq_zero_iff.mp (Nat.le_zero.mp hfuel)
  | succ fuel ih =>
      cases hready : s.mReadyNodes with
      | nil => simp only [timeOutLoop, hready]
      | cons node rest =>
          simp only [timeOutLoop, hready]
          obtain ⟨_, h, _⟩ := timeOutNode_drained t node { s with mReadyNodes := rest }
          refine ih _ (Nat.le_trans h.ready.length_le ?_)
          rw [hready] at hfuel
          exact Nat.le_of_succ_le_succ hfuel

theorem Swept.fires_nothing {s s' : State} (h : Swept s s') :
    ∃ new, s'.log = s.log ++ new ∧ fired new = [] := by
  obtain ⟨new, hlog, hnew⟩ := h.log_new
  refine ⟨new, hlog, List.filterMap_eq_nil_iff.mpr fun e he => ?_⟩
  have hwheel := hnew e he
  cases e <;> first | rfl | exact hwheel.elim

/-- Every call of `ProcessTimer` ends and fires each timer at most once. -/
theorem run_onePass (env : Env) (hmono : Monotone env.tick) (calls : List Call)
    (ioIdleTick : ℕ) : OnePass env ioIdleTick (run env calls) := by
  obtain ⟨⟨p, hrest⟩, hidle⟩ := run_keeps hmono calls
  obtain ⟨p', hrest', -, hswept, -⟩ := caughtUp_keeps hmono (hrest.setBusying true)
  obtain ⟨_, hstates⟩ := processTimerStates_rest hmono hrest
  refine ⟨hswept.fires_nothing, hrest'.inv.ready_nodup, ?_,
    fun t => timeOutLoop_ends t _ _ (Nat.le_refl _),
    fun s' hs' io => processTimer_of_busy env io (hstates s' hs').2⟩
  generalize hs₁ : caughtUp env { run env calls with mBusying := true } = s₁ at *
  obtain ⟨new, h, hfired⟩ := timeOutLoop_drained (env.tick s₁.reads)
    s₁.mReadyNodes.length (getCurrentMillisec env s₁)
  refine ⟨new, ?_, hfired, fun n hd id previous hset hn => ?_⟩
  · simp only [processTimer, hidle, Bool.false_eq_true, if_false, detectList_eq, hs₁]
    exact h.log_eq
  · have hold := (hrest'.inv.of_ready (hfired.subset hn)).1
    have hnew := h.set_new n hd id previous hset
    exact absurd hold (Nat.not_lt.mpr hnew)

/-- The first callback calls `ProcessTimer` again, and sets timer 7 of handler 1 anew. -/
def reenterEnv : Env :=
  ⟨fun i => 10 * i,
    fun i => if i = 0 then [.processTimer 0, .killTimer 1 7, .setTimer 1 7 0 none] else []⟩

/-- Two timers are ready, and each is fired once. -/
theorem run_onePass_reentered :
    OnePass reenterEnv 0 (run reenterEnv [.setTimer 1 7 5 none, .setTimer 1 8 5 none]) ∧
    fired (processTimer reenterEnv 0
      (run reenterEnv [.setTimer 1 7 5 none, .setTimer 1 8 5 none])).2.log = [0, 1] :=
  ⟨run_onePass reenterEnv (fun _ _ hij => Nat.mul_le_mul_left 10 hij) _ 0, by decide +kernel⟩

end
end CoreLooper.TimerManager
