import CoreLooper.TimerKills

/-!
# The ids a looper gives to its timers

`SetTimerEx` takes the id from `NextTimerId`. As long as the id counter of a handler has not
wrapped, the ids of its live timers lie between 1 and the counter, so the id is never that of a
live timer: every timer is set under a fresh id.
-/
namespace CoreLooper.TimerManager

/-- The calls of `LooperImpl`; it sets timers with `SetTimerEx` only. -/
def Call.OfLooper : Call → Prop
  | .setTimer .. => False
  | _ => True

/-- An id taken from a counter that has not wrapped. -/
def Event.Unwrapped : Event → Prop
  | .set _ _ timerId _ => 0 < timerId
  | _ => True

instance : DecidablePred Event.Unwrapped
  | .set _ _ timerId _ => inferInstanceAs (Decidable (0 < timerId))
  | .armed .. | .ready .. | .onTimer .. | .run .. | .killed .. => .isTrue trivial

def State.Unwrapped (s : State) : Prop := ∀ e ∈ s.log, e.Unwrapped

/-- Events are only added to the log. -/
def State.Grows (s s' : State) : Prop := s.log <+: s'.log

theorem State.Grows.unwrapped {s s' : State} (h : s.Grows s') (hU : s'.Unwrapped) :
    s.Unwrapped := fun e he => hU e (h.subset he)

theorem State.Grows.fresh {s s' : State} (h : s.Grows s') (hF : s'.Fresh) : s.Fresh :=
  fun e he => hF e (h.subset he)

theorem Gathered.grows {s s' : State} (h : Gathered s s') : s.Grows s' := by
  obtain ⟨new, hlog, -⟩ := h.log_new
  exact ⟨new, hlog.symm⟩

section
variable (env : Env)

theorem setTimer_grows (handler : HandlerId) (timerId : TimerId) (interval : ℕ)
    (extra : Option TimerExtraInfo) (s : State) :
    s.Grows (setTimer env handler timerId interval extra s) := by
  obtain ⟨ms, tick, position, hlog⟩ :=
    setTimer_log env s handler timerId interval extra
  exact ⟨_, hlog.symm⟩

theorem callInside_grows (s : State) (c : Call) : s.Grows (callInside env s c) := by
  cases c with
  | setTimer handler timerId interval extra => exact setTimer_grows env handler timerId _ extra s
  | setTimerEx handler interval extra =>
      exact setTimer_grows env handler (nextTimerId s handler).1 _ extra
        { s with
          mNextTimerId := Function.update s.mNextTimerId handler (nextTimerId s handler).2.1
          mTimerIdRewind := Function.update s.mTimerIdRewind handler (nextTimerId s handler).2.2 }
  | processTimer io => exact List.prefix_rfl
  | killTimer handler timerId =>
      simp only [callInside]
      split
      · exact ⟨[], by rw [(killTimer_frame handler timerId).2.2.1, List.append_nil]⟩
      · rename_i node _
        exact ⟨[.killed node], (killTimer_frame (s := s.emit _) handler timerId).2.2.1.symm⟩

theorem foldl_callInside_grows (calls : List Call) (s : State) :
    s.Grows (calls.foldl (callInside env) s) := by
  induction calls generalizing s with
  | nil => exact List.prefix_rfl
  | cons c calls ih => exact (callInside_grows env s c).trans (ih _)

theorem callback_grows (s : State) : s.Grows (callback env s) :=
  foldl_callInside_grows env _ { s with callbacks := s.callbacks + 1 }

theorem timeOutNode_grows (t : ℕ) (node : NodeId) (s : State) :
    s.Grows (timeOutNode env t node s) := by
  unfold timeOutNode
  dsimp only
  split
  · rename_i info _
    have hrun : s.Grows ((killTimer (s.heap node).mHandler (s.heap node).mTimerId s).emit
        (.run info.mRunnable node)) :=
      ⟨[_], by rw [State.emit_log, (killTimer_frame _ _).2.2.1]⟩
    split
    · exact hrun.trans (callback_grows env _)
    · exact hrun
  · refine List.IsPrefix.trans ?_ (callback_grows env _)
    exact ⟨[_, _], (List.append_assoc s.log [_] [_]).symm⟩

theorem timeOutLoop_grows (t fuel : ℕ) (s : State) : s.Grows (timeOutLoop env t fuel s) := by
  induction fuel generalizing s with
  | zero => exact List.prefix_rfl
  | succ fuel ih =>
      unfold timeOutLoop
      split
      · exact List.prefix_rfl
      · rename_i node rest _
        exact (timeOutNode_grows env t node { s with mReadyNodes := rest }).trans (ih _)

theorem processTimeOut_grows (s : State) : s.Grows (processTimeOut env s) :=
  timeOutLoop_grows env (env.tick s.reads) s.mReadyNodes.length (getCurrentMillisec env s)

theorem call_grows (s : State) (c : Call) : s.Grows (call env s c) := by
  cases c with
  | setTimer handler timerId interval extra => exact callInside_grows env s (.setTimer ..)
  | setTimerEx handler interval extra => exact callInside_grows env s (.setTimerEx ..)
  | killTimer handler timerId => exact callInside_grows env s (.killTimer ..)
  | processTimer io =>
      simp only [call, processTimer]
      split
      · exact List.prefix_rfl
      · exact ((getCurrentMillisec_gathered env { s with mBusying := true }).trans
          (detectLoop_gathered env _ _)).grows.trans (processTimeOut_grows env _)

end

/-- The live ids of a handler lie between 1 and its counter. -/
structure State.Numbered (s : State) : Prop where
  owner : ∀ h id n, s.mTimerMap h id = some n →
    n < s.nextNode ∧ (s.heap n).mHandler = h ∧ (s.heap n).mTimerId = id
  rewind : ∀ h, s.mTimerIdRewind h = false
  counter : ∀ h, 0 ≤ s.mNextTimerId h ∧ s.mNextTimerId h < 2 ^ 63
  ids : ∀ h id n, s.mTimerMap h id = some n → 0 < id ∧ id ≤ s.mNextTimerId h
  fresh : s.Fresh

namespace State.Numbered
variable {env : Env} {s s' : State}

/-- No timer is set, and the keys of the nodes stay. -/
theorem congr (h : s.Numbered) (hnext : s.nextNode ≤ s'.nextNode)
    (hkeys : ∀ n, (s'.heap n).key = (s.heap n).key)
    (hmap : ∀ h id n, s'.mTimerMap h id = some n → s.mTimerMap h id = some n)
    (hids : s'.mNextTimerId = s.mNextTimerId) (hrewind : s'.mTimerIdRewind = s.mTimerIdRewind)
    (hlog : ∃ new, s'.log = s.log ++ new ∧ ∀ e ∈ new, e.Fresh) : s'.Numbered := by
  obtain ⟨new, hlog, hnew⟩ := hlog
  refine ⟨fun hd id n hm => ?_, fun hd => ?_, fun hd => ?_, fun hd id n hm => ?_, fun e he => ?_⟩
  · obtain ⟨hlt, h1, h2⟩ := h.owner hd id n (hmap hd id n hm)
    obtain ⟨k1, k2⟩ := Prod.mk.inj (hkeys n)
    exact ⟨Nat.lt_of_lt_of_le hlt hnext, k1.trans h1, k2.trans h2⟩
  · rw [hrewind]
    exact h.rewind hd
  · rw [hids]
    exact h.counter hd
  · rw [hids]
    exact h.ids hd id n (hmap hd id n hm)
  · rw [hlog] at he
    exact (List.mem_append.mp he).elim (h.fresh e) (hnew e)

theorem gather (h : s.Numbered) (hga : Gathered s s') : s'.Numbered := by
  obtain ⟨new, hlog, hnew⟩ := hga.log_new
  refine h.congr hga.nextNode_eq.ge (fun n => by rw [hga.heap_eq]) (fun _ _ _ hm => hga.map_eq ▸ hm)
    hga.ids_eq hga.rewind_eq ⟨new, hlog, fun e he => ?_⟩
  have hwheel := hnew e he
  cases e <;> first | exact hwheel.elim | trivial

/-- A handler none of whose timers is counted has no timer. -/
theorem map_of_timerCount (h : s.Numbered) {handler : HandlerId} (hzero : timerCount s handler = 0)
    (id : TimerId) : s.mTimerMap handler id = none := by
  by_contra hne
  obtain ⟨n, hn⟩ := Option.ne_none_iff_exists'.mp hne
  obtain ⟨hlt, hh, hid⟩ := h.owner handler id n hn
  rw [timerCount, List.countP_eq_zero] at hzero
  have := hzero n (List.mem_range.mpr hlt)
  simp [hh, hid, hn] at this

theorem toLong_succ {x : ℤ} (h0 : 0 ≤ x) (h1 : x < 2 ^ 63) :
    toLong (x + 1) = if x + 1 < 2 ^ 63 then x + 1 else x + 1 - 2 ^ 64 := by
  have hmod : (x + 1) % (2 ^ 64 : ℤ) = x + 1 := Int.emod_eq_of_lt (by omega) (by omega)
  have hcast : ((2 ^ 64 : ℕ) : ℤ) = 2 ^ 64 := by norm_num
  show Int.bmod (x + 1) (2 ^ 64) = _
  rw [Int.bmod_def, hcast, hmod]
  norm_num

/-- The id that `NextTimerId` returns is free, and becomes the bound of the live ids. -/
theorem nextTimerId (h : s.Numbered) (handler : HandlerId)
    (hpos : 0 < (TimerManager.nextTimerId s handler).1) :
    s.mTimerMap handler (TimerManager.nextTimerId s handler).1 = none ∧
      (TimerManager.nextTimerId s handler).2 = ((TimerManager.nextTimerId s handler).1, false) ∧
      (TimerManager.nextTimerId s handler).1 < 2 ^ 63 ∧
      ∀ id n, s.mTimerMap handler id = some n →
        id ≤ (TimerManager.nextTimerId s handler).1 := by
  obtain ⟨hnonneg, hlt⟩ := h.counter handler
  have hrewind := h.rewind handler
  unfold TimerManager.nextTimerId at hpos ⊢
  dsimp only at hpos ⊢
  by_cases hzero : timerCount s handler = 0
  · rw [if_pos hzero]
    refine ⟨h.map_of_timerCount hzero 1, rfl, by decide, fun id n hn => ?_⟩
    rw [h.map_of_timerCount hzero id] at hn
    cases hn
  · rw [if_neg hzero] at hpos ⊢
    by_cases hfree : s.mNextTimerId handler ≠ 0 ∧
        s.mTimerMap handler (s.mNextTimerId handler) = none
    · rw [if_pos hfree]
      exact ⟨hfree.2, by rw [hrewind], hlt, fun id n hn => (h.ids handler id n hn).2⟩
    · rw [if_neg hfree, hrewind, toLong_succ hnonneg hlt] at hpos ⊢
      -- the counter goes up by one; past the greatest `long` the id would be negative
      by_cases hlast : s.mNextTimerId handler + 1 < 2 ^ 63
      · have hne : (s.mNextTimerId handler + 1 : ℤ) ≠ 0 := (Int.lt_add_one_of_le hnonneg).ne'
        simp only [if_pos hlast, hne, decide_false, Bool.or_self, Bool.false_eq_true,
          not_false_eq_true, if_true, if_false]
        refine ⟨?_, trivial, hlast, fun id n hn => ?_⟩
        · by_contra hsome
          obtain ⟨n, hn⟩ := Option.ne_none_iff_exists'.mp hsome
          exact absurd (h.ids handler _ n hn).2 (Int.not_le.mpr (Int.lt_add_one_of_le le_rfl))
        · exact Int.le_add_one (h.ids handler id n hn).2
      · have hneg : (s.mNextTimerId handler + 1 - 2 ^ 64 : ℤ) < 0 :=
          Int.sub_neg_of_lt (Int.lt_trans (Int.add_lt_add_right hlt 1) (by norm_num))
        simp only [if_neg hlast, hneg.ne, decide_false, Bool.or_self, Bool.false_eq_true,
          not_false_eq_true, if_true, if_false] at hpos
        exact absurd hpos (Int.not_lt.mpr (Int.le_of_lt hneg))

theorem setTimerEx (h : s.Numbered) (handler : HandlerId) (interval : ℕ)
    (extra : Option TimerExtraInfo)
    (hU : (TimerManager.setTimerEx env handler interval extra s).Unwrapped) :
    (TimerManager.setTimerEx env handler interval extra s).Numbered := by
  have hlog : (TimerManager.setTimerEx env handler interval extra s).log = s.log ++
      [.set s.nextNode handler (TimerManager.nextTimerId s handler).1
        (s.mTimerMap handler (TimerManager.nextTimerId s handler).1)] ++ [.armed s.nextNode
          (if interval = 0 then 1 else interval) (env.tick s.reads) s.mStartTick] := rfl
  have hpos : 0 < (TimerManager.nextTimerId s handler).1 := by
    exact hU (.set s.nextNode handler (TimerManager.nextTimerId s handler).1
      (s.mTimerMap handler (TimerManager.nextTimerId s handler).1)) (by simp [hlog])
  obtain ⟨hfree, hids, hlt, hbound⟩ := h.nextTimerId handler hpos
  have hmap : ∀ h' id' n, (TimerManager.setTimerEx env handler interval extra s).mTimerMap h' id' =
      some n → (h' = handler ∧ id' = (TimerManager.nextTimerId s handler).1 ∧ n = s.nextNode) ∨
        s.mTimerMap h' id' = some n := fun h' id' n hm => by
    have hm' : (s.setMap handler (TimerManager.nextTimerId s handler).1
        (some s.nextNode)).mTimerMap h' id' = some n := hm
    rw [State.setMap_map] at hm'
    split_ifs at hm' with hkey
    · exact Or.inl ⟨hkey.1, hkey.2, (Option.some.inj hm').symm⟩
    · exact Or.inr hm'
  have hheap : ∀ n, (TimerManager.setTimerEx env handler interval extra s).heap n =
      if n = s.nextNode then ⟨handler, (TimerManager.nextTimerId s handler).1,
        env.tick s.reads + (if interval = 0 then 1 else interval),
        if interval = 0 then 1 else interval, extra⟩ else s.heap n :=
    fun n => State.setNode_heap s s.nextNode _ n
  have hcounter : ∀ h', (TimerManager.setTimerEx env handler interval extra s).mNextTimerId h' =
      if h' = handler then (TimerManager.nextTimerId s handler).1 else s.mNextTimerId h' :=
    fun h' => by
      show Function.update s.mNextTimerId handler (TimerManager.nextTimerId s handler).2.1 h' = _
      rw [hids, Function.update_apply]
  have hrewind : ∀ h', (TimerManager.setTimerEx env handler interval extra s).mTimerIdRewind h' =
      false := fun h' => by
    show Function.update s.mTimerIdRewind handler (TimerManager.nextTimerId s handler).2.2 h' = _
    rw [hids, Function.update_apply]
    split_ifs
    · rfl
    · exact h.rewind h'
  have hnext : (TimerManager.setTimerEx env handler interval extra s).nextNode =
      s.nextNode + 1 := rfl
  generalize TimerManager.setTimerEx env handler interval extra s = s' at *
  refine ⟨fun h' id' n hm => ?_, hrewind, fun h' => ?_, fun h' id' n hm => ?_, fun e he => ?_⟩
  · rw [hnext, hheap]
    rcases hmap h' id' n hm with ⟨rfl, rfl, rfl⟩ | hm
    · rw [if_pos rfl]
      exact ⟨Nat.lt_succ_self _, rfl, rfl⟩
    · obtain ⟨hlt', hkey⟩ := h.owner h' id' n hm
      rw [if_neg (Nat.ne_of_lt hlt')]
      exact ⟨Nat.lt_succ_of_lt hlt', hkey⟩
  · rw [hcounter]
    split_ifs
    · exact ⟨Int.le_of_lt hpos, hlt⟩
    · exact h.counter h'
  · rw [hcounter]
    rcases hmap h' id' n hm with ⟨rfl, rfl, -⟩ | hm
    · rw [if_pos rfl]
      exact ⟨hpos, le_rfl⟩
    · split_ifs with hh
      · subst hh
        exact ⟨(h.ids h' id' n hm).1, hbound id' n hm⟩
      · exact h.ids h' id' n hm
  · rw [hlog, List.append_assoc] at he
    rcases List.mem_append.mp he with he | he
    · exact h.fresh e he
    · rcases List.mem_pair.mp he with rfl | rfl
      · exact hfree
      · trivial

theorem killTimer (h : s.Numbered) (handler : HandlerId) (timerId : TimerId) :
    (TimerManager.killTimer handler timerId s).Numbered := by
  obtain ⟨hheap, hnext, hlog, -⟩ := killTimer_frame (s := s) handler timerId
  have hids : (TimerManager.killTimer handler timerId s).mNextTimerId = s.mNextTimerId ∧
      (TimerManager.killTimer handler timerId s).mTimerIdRewind = s.mTimerIdRewind := by
    unfold TimerManager.killTimer
    split <;> exact ⟨rfl, rfl⟩
  refine h.congr hnext.ge (fun n => by rw [hheap]) (fun h' id' n hm => ?_) hids.1 hids.2
    ⟨[], by rw [hlog, List.append_nil], fun _ he => (by cases he)⟩
  rw [killTimer_map, State.setMap_map] at hm
  split_ifs at hm
  exact hm

theorem emit (h : s.Numbered) {e : Event} (he : e.Fresh) : (s.emit e).Numbered :=
  h.congr (Nat.le_refl _) (fun _ => rfl) (fun _ _ _ hm => hm) rfl rfl
    ⟨[e], rfl, fun _ hmem => List.mem_singleton.mp hmem ▸ he⟩

variable (env) in
theorem callInside (h : s.Numbered) {c : Call} (hc : c.OfLooper)
    (hU : (TimerManager.callInside env s c).Unwrapped) :
    (TimerManager.callInside env s c).Numbered := by
  cases c with
  | setTimer handler timerId interval extra => exact hc.elim
  | setTimerEx handler interval extra => exact h.setTimerEx handler _ extra hU
  | processTimer io => exact h
  | killTimer handler timerId =>
      unfold TimerManager.callInside
      dsimp only
      split
      · exact h.killTimer handler timerId
      · rename_i node _
        exact (h.emit (e := .killed node) trivial).killTimer handler timerId

theorem callback (h : s.Numbered) (henv : ∀ i, ∀ c ∈ env.callback i, c.OfLooper)
    (hU : (TimerManager.callback env s).Unwrapped) : (TimerManager.callback env s).Numbered := by
  have hfold : ∀ (calls : List Call) (s : State), (∀ c ∈ calls, c.OfLooper) → s.Numbered →
      (calls.foldl (TimerManager.callInside env) s).Unwrapped →
        (calls.foldl (TimerManager.callInside env) s).Numbered := by
    intro calls
    induction calls with
    | nil => exact fun s _ h _ => h
    | cons c calls ih =>
        intro s hcalls h hU
        have hU' := (foldl_callInside_grows env calls _).unwrapped hU
        exact ih _ (fun c' hc' => hcalls c' (List.mem_cons_of_mem _ hc'))
          (h.callInside env (hcalls c List.mem_cons_self) hU') hU
  refine hfold _ { s with callbacks := s.callbacks + 1 } (henv _) ?_ hU
  exact h.congr (Nat.le_refl _) (fun _ => rfl) (fun _ _ _ hm => hm) rfl rfl
    ⟨[], (List.append_nil _).symm, fun _ he => (by cases he)⟩

theorem timeOutNode (h : s.Numbered) (henv : ∀ i, ∀ c ∈ env.callback i, c.OfLooper) {t : ℕ}
    {node : NodeId} (hU : (TimerManager.timeOutNode env t node s).Unwrapped) :
    (TimerManager.timeOutNode env t node s).Numbered := by
  revert hU
  unfold TimerManager.timeOutNode
  dsimp only
  split
  · rename_i info hinfo
    have hrun := (h.killTimer (s.heap node).mHandler (s.heap node).mTimerId).emit
      (e := .run info.mRunnable node) trivial
    split
    · exact hrun.callback henv
    · exact fun _ => hrun
  · refine callback ?_ henv
    refine h.congr (Nat.le_refl _) (fun n => ?_) (fun _ _ _ hm => hm) rfl rfl
      ⟨[_, _], List.append_assoc s.log [_] [_], fun e he => ?_⟩
    · refine (congrArg TimerNode.key (State.setNode_heap s node _ n)).trans ?_
      split_ifs with hn
      · rw [hn]
        rfl
      · rfl
    · rcases List.mem_pair.mp he with rfl | rfl <;> trivial

theorem timeOutLoop (h : s.Numbered) (henv : ∀ i, ∀ c ∈ env.callback i, c.OfLooper) {t : ℕ}
    (fuel : ℕ) (hU : (TimerManager.timeOutLoop env t fuel s).Unwrapped) :
    (TimerManager.timeOutLoop env t fuel s).Numbered := by
  induction fuel generalizing s with
  | zero => exact h
  | succ fuel ih =>
      unfold TimerManager.timeOutLoop at hU ⊢
      split
      · exact h
      · rename_i node rest hready
        simp only [hready] at hU
        have hpop : State.Numbered { s with mReadyNodes := rest } :=
          ⟨h.owner, h.rewind, h.counter, h.ids, h.fresh⟩
        exact ih (hpop.timeOutNode henv ((timeOutLoop_grows env t fuel _).unwrapped hU)) hU

theorem call (h : s.Numbered) (henv : ∀ i, ∀ c ∈ env.callback i, c.OfLooper) {c : Call}
    (hc : c.OfLooper) (hU : (TimerManager.call env s c).Unwrapped) :
    (TimerManager.call env s c).Numbered := by
  cases c with
  | setTimer handler timerId interval extra => exact hc.elim
  | setTimerEx handler interval extra => exact h.setTimerEx handler _ extra hU
  | killTimer handler timerId =>
      exact h.callInside env (c := .killTimer handler timerId) trivial hU
  | processTimer io =>
      simp only [TimerManager.call, processTimer] at hU ⊢
      split
      · exact h
      · rename_i hbusy
        rw [if_neg hbusy] at hU
        have hset : State.Numbered { s with mBusying := true } :=
          ⟨h.owner, h.rewind, h.counter, h.ids, h.fresh⟩
        have hga := (getCurrentMillisec_gathered env { s with mBusying := true }).trans
          (detectLoop_gathered env (if env.tick s.reads > s.mStartTick then
            (env.tick s.reads - s.mStartTick) / granularity else 0) _)
        have hread := (hset.gather hga).gather (getCurrentMillisec_gathered env _)
        have hloop := hread.timeOutLoop henv _ hU
        exact ⟨hloop.owner, hloop.rewind, hloop.counter, hloop.ids, hloop.fresh⟩

theorem init (env : Env) : (TimerManager.init env).Numbered :=
  ⟨fun _ _ _ hm => (by cases hm), fun _ => rfl, fun _ => ⟨le_rfl, Int.pow_pos (by decide)⟩,
    fun _ _ _ hm => (by cases hm), fun _ he => (by cases he)⟩

end State.Numbered

/-- The calls of a looper set every timer under an id that is not live, as long as no counter
wraps. -/
theorem run_fresh (env : Env) (henv : ∀ i, ∀ c ∈ env.callback i, c.OfLooper) (calls : List Call)
    (hcalls : ∀ c ∈ calls, c.OfLooper) (hU : (run env calls).Unwrapped) :
    (run env calls).Fresh := by
  have hgrows : ∀ (calls : List Call) (s : State), s.Grows (calls.foldl (call env) s) := by
    intro calls
    induction calls with
    | nil => exact fun _ => List.prefix_rfl
    | cons c calls ih => exact fun s => (call_grows env s c).trans (ih _)
  have hfold : ∀ (calls : List Call) (s : State), (∀ c ∈ calls, c.OfLooper) → s.Numbered →
      (calls.foldl (call env) s).Unwrapped → (calls.foldl (call env) s).Numbered := by
    intro calls
    induction calls with
    | nil => exact fun _ _ h _ => h
    | cons c calls ih =>
        exact fun s hcalls h hU => ih _ (fun c' hc' => hcalls c' (List.mem_cons_of_mem _ hc'))
          (h.call henv (hcalls c List.mem_cons_self) ((hgrows calls _).unwrapped hU)) hU
  exact (hfold calls (init env) hcalls (.init env) hU).fresh

end CoreLooper.TimerManager
