import CoreLooper.TimerDetect

/-!
# The calls on a timer manager keep its invariant

`SetTimer` and `KillTimer` work on wheels at rest, also from inside a callback, where the
ready list may still hold nodes to be handed out. `Called` says what such calls do to the
ready nodes: they only take nodes off, and only by killing them.
-/
namespace CoreLooper.TimerManager
open WheelSlots

/-- All wheels stand at position `p`, and the log explains which timers are in the map. -/
structure Rest (env : Env) (b p : ℕ) (s : State) : Prop extends At env b p s where
  recorded : s.Recorded

/-- The map and the log agree as long as no timer is set. -/
theorem State.Recorded.append {s s' : State} (h : s.Recorded) (hmap : s'.mTimerMap = s.mTimerMap)
    (hlog : ∃ new, s'.log = s.log ++ new ∧ ∀ n h id previous, .set n h id previous ∉ new) :
    s'.Recorded := by
  obtain ⟨new, hlog, hnew⟩ := hlog
  intro hF n handler timerId previous hset
  rw [hmap]
  rw [hlog] at hset ⊢
  have hF' : s.Fresh := fun e he => hF e (hlog ▸ List.mem_append_left _ he)
  have hset' := (List.mem_append.mp hset).resolve_right (hnew n handler timerId previous)
  rcases h hF' n handler timerId previous hset' with hk | ⟨r, hr⟩ | hm
  · exact Or.inl (List.mem_append_left _ hk)
  · exact Or.inr (Or.inl ⟨r, List.mem_append_left _ hr⟩)
  · exact Or.inr (Or.inr hm)

theorem State.Recorded.of_swept {s s' : State} (h : s.Recorded) (hsw : Swept s s') :
    s'.Recorded := by
  obtain ⟨new, hlog, hnew⟩ := hsw.log_new
  exact h.append hsw.map_eq ⟨new, hlog, fun n _ _ _ he => (hnew _ he).elim⟩

/-- What a call on the manager does to the nodes that exist. -/
structure Called (s s' : State) : Prop where
  now_le : s.now ≤ s'.now
  nextNode_le : s.nextNode ≤ s'.nextNode
  heap_eq : ∀ n < s.nextNode, s'.heap n = s.heap n
  ready : s'.mReadyNodes.Sublist s.mReadyNodes
  log_new : ∃ new, s'.log = s.log ++ new ∧
    ∀ n ∈ s.mReadyNodes, n ∈ s'.mReadyNodes ∨ .killed n ∈ new

theorem Called.refl (s : State) : Called s s :=
  ⟨Nat.le_refl _, Nat.le_refl _, fun _ _ => rfl, List.Sublist.refl _, [], (List.append_nil _).symm,
    fun _ hn => Or.inl hn⟩

theorem Called.trans {s₁ s₂ s₃ : State} (h : Called s₁ s₂) (h' : Called s₂ s₃) :
    Called s₁ s₃ := by
  obtain ⟨new, hlog, hnew⟩ := h.log_new
  obtain ⟨new', hlog', hnew'⟩ := h'.log_new
  refine ⟨Nat.le_trans h.now_le h'.now_le, Nat.le_trans h.nextNode_le h'.nextNode_le,
    fun n hn => ?_, h'.ready.trans h.ready, new ++ new', ?_, fun n hn => ?_⟩
  · rw [h'.heap_eq n (Nat.lt_of_lt_of_le hn h.nextNode_le), h.heap_eq n hn]
  · rw [hlog', hlog, List.append_assoc]
  · rcases hnew n hn with hn | hk
    · rcases hnew' n hn with hn | hk
      · exact Or.inl hn
      · exact Or.inr (List.mem_append_right _ hk)
    · exact Or.inr (List.mem_append_left _ hk)

theorem wheelSpan_five : wheelSpan wheelNum = 2 ^ 32 := by decide

section
variable {env : Env} {b p : ℕ} {s : State}

variable (env s) in
theorem setTimer_map (handler : HandlerId) (timerId : TimerId) (interval : ℕ)
    (extra : Option TimerExtraInfo) :
    (setTimer env handler timerId interval extra s).mTimerMap =
      (s.setMap handler timerId (some s.nextNode)).mTimerMap := rfl

variable (env s) in
theorem setTimer_log (handler : HandlerId) (timerId : TimerId) (interval : ℕ)
    (extra : Option TimerExtraInfo) : ∃ ms tick position,
    (setTimer env handler timerId interval extra s).log =
      s.log ++ [.set s.nextNode handler timerId (s.mTimerMap handler timerId),
        .armed s.nextNode ms tick position] :=
  ⟨_, _, _, List.append_assoc s.log [_] [_]⟩

theorem setTimer_recorded (h : s.Recorded) (handler : HandlerId) (timerId : TimerId)
    (interval : ℕ) (extra : Option TimerExtraInfo) :
    (setTimer env handler timerId interval extra s).Recorded := by
  obtain ⟨ms, tick, position, hlog⟩ :=
    setTimer_log env s handler timerId interval extra
  intro hF n handler' timerId' previous hset
  rw [State.Fresh, hlog] at hF
  rw [hlog] at hset ⊢
  rw [setTimer_map env s handler, State.setMap_map]
  have hfresh : s.mTimerMap handler timerId = none := by
    exact hF (.set s.nextNode handler timerId (s.mTimerMap handler timerId)) (by simp)
  rcases List.mem_append.mp hset with hset | hset
  · have hold := h (fun e he => hF e (List.mem_append_left _ he)) n handler' timerId' previous hset
    rcases hold with hk | ⟨r, hr⟩ | hm
    · exact Or.inl (List.mem_append_left _ hk)
    · exact Or.inr (Or.inl ⟨r, List.mem_append_left _ hr⟩)
    · right; right
      split_ifs with hkey
      · rw [hkey.1, hkey.2, hfresh] at hm
        cases hm
      · exact hm
  · right; right
    rcases List.mem_pair.mp hset with heq | heq
    · injection heq with h1 h2 h3
      rw [if_pos ⟨h2, h3⟩, h1]
    · cases heq

/-- Setting a timer, from inside or outside a callback. -/
theorem setTimer_keeps (hmono : Monotone env.tick) (h : Rest env b p s) (handler : HandlerId)
    (timerId : TimerId) {interval : ℕ} (hlt : interval < 2 ^ 32) (extra : Option TimerExtraInfo) :
    Rest env b p (setTimer env handler timerId interval extra s) ∧
      Called s (setTimer env handler timerId interval extra s) := by
  unfold setTimer
  generalize hi : (if interval = 0 then 1 else interval) = i
  have hi32 : i < 2 ^ 32 := by
    subst hi
    split_ifs
    · decide
    · exact hlt
  have htick := h.inv.tick h.clock
  generalize hv : (⟨handler, timerId, env.tick s.reads + i, i, extra⟩ : TimerNode) = v
  have hset := (htick.emit (.set s.nextNode handler timerId (s.mTimerMap handler timerId))
    fun _ => trivial).allocate handler timerId (v := v)
    (by subst hv; exact ⟨rfl, rfl⟩) (by subst hv; exact hi32) fun hF => hF.of_emit.2
  have harm := (hset.emit (.armed s.nextNode i (env.tick s.reads) s.mStartTick)
    fun _ => trivial).addTimer (t := env.tick s.reads) (p := p) (by decide) (Nat.le_refl wheelNum)
    (fun _ _ => rfl) (wheelSpan_five ▸ hi32)
    (by simp [← hv, State.setNode_heap])
    (Nat.le_trans h.reached h.clock) (Nat.le_refl _) (fun hT hlt => by
      have := hT.of_emit.2 hlt
      rwa [h.start] at this)
  subst hv
  refine ⟨⟨⟨harm, h.start, Nat.le_trans h.reached h.clock, hmono (Nat.le_succ _), fun k hk => ?_⟩,
    ?_⟩, ?_⟩
  · exact ((addTimer_relinked _ _ _).index_eq k).trans_lt (h.index_lt k hk)
  · subst hi
    exact setTimer_recorded h.recorded handler timerId interval extra
  · subst hi
    obtain ⟨ms, tick, position, hlog⟩ :=
      setTimer_log env s handler timerId interval extra
    refine ⟨h.clock, Nat.le_succ _, fun n hn => ?_, List.Sublist.refl _, _, hlog,
      fun n hn => Or.inl hn⟩
    exact (State.setNode_heap s s.nextNode _ n).trans (if_neg (Nat.ne_of_lt hn))

/-- `SetTimerEx` is `SetTimer` with an id of its own choice. -/
theorem setTimerEx_keeps (hmono : Monotone env.tick) (h : Rest env b p s) {handler : HandlerId}
    {interval : ℕ} (hlt : interval < 2 ^ 32) (extra : Option TimerExtraInfo) :
    Rest env b p (setTimerEx env handler interval extra s) ∧
      Called s (setTimerEx env handler interval extra s) := by
  have hrest : ∀ ids rewinds, Rest env b p
      { s with mNextTimerId := ids, mTimerIdRewind := rewinds } := fun ids rewinds =>
    ⟨⟨⟨h.inv.size_eq, h.inv.index_mod, h.inv.slot, h.inv.links, h.inv.live, h.inv.owner,
      h.inv.interval_lt, h.inv.notEarly⟩, h.start, h.reached, h.clock, h.index_lt⟩, h.recorded⟩
  obtain ⟨h1, h2⟩ := setTimer_keeps hmono (hrest _ _) handler (nextTimerId s handler).1 hlt extra
  exact ⟨h1, h2.now_le, h2.nextNode_le, h2.heap_eq, h2.ready, h2.log_new⟩

/-- After a call of `KillTimer` the key is free. -/
theorem killTimer_map (handler : HandlerId) (timerId : TimerId) :
    (killTimer handler timerId s).mTimerMap =
      (s.setMap handler timerId none).mTimerMap := by
  unfold killTimer
  split
  · rename_i hnone
    funext h' id'
    rw [State.setMap_map]
    split_ifs with hkey
    · rw [hkey.1, hkey.2, hnone]
    · rfl
  · rfl

/-- Killing a timer takes no other node off the ready list. -/
theorem killTimer_ready (handler : HandlerId) (timerId : TimerId) :
    (killTimer handler timerId s).mReadyNodes.Sublist s.mReadyNodes ∧
      ∀ n ∈ s.mReadyNodes, s.mTimerMap handler timerId ≠ some n →
        n ∈ (killTimer handler timerId s).mReadyNodes := by
  unfold killTimer
  split
  · exact ⟨List.Sublist.refl _, fun n hn _ => hn⟩
  · rename_i node hnode
    refine ⟨List.filter_sublist, fun n hn hne => List.mem_filter.mpr ⟨hn, ?_⟩⟩
    rw [hnode] at hne
    simpa using fun heq => hne (congrArg some heq.symm)

/-- Killing changes neither the nodes, the clock, nor where the wheels stand. -/
theorem killTimer_frame (handler : HandlerId) (timerId : TimerId) :
    (killTimer handler timerId s).heap = s.heap ∧
      (killTimer handler timerId s).nextNode = s.nextNode ∧
      (killTimer handler timerId s).log = s.log ∧
      (killTimer handler timerId s).mStartTick = s.mStartTick ∧
      (killTimer handler timerId s).now = s.now ∧
      (killTimer handler timerId s).reads = s.reads ∧
      ∀ k, (killTimer handler timerId s).index k = s.index k := by
  unfold killTimer
  split <;> exact ⟨rfl, rfl, rfl, rfl, rfl, rfl, fun _ => rfl⟩

theorem killTimer_inv {c : ℕ → ℕ} {D : List NodeId} (h : Inv b D c s) (handler : HandlerId)
    (timerId : TimerId) : ∃ D', D'.Sublist D ∧ Inv b D' c (killTimer handler timerId s) := by
  unfold killTimer
  split
  · exact ⟨D, List.Sublist.refl D, h⟩
  · rename_i node hnode
    exact ⟨_, List.filter_sublist, h.remove hnode⟩

/-- The state after a kill is at rest if no node is left detached. -/
theorem killTimer_at (handler : HandlerId) (timerId : TimerId) (h : At env b p s) :
    At env b p (killTimer handler timerId s) := by
  obtain ⟨D', hD', hinv⟩ := killTimer_inv h.inv handler timerId
  rw [List.sublist_nil.mp hD'] at hinv
  obtain ⟨-, -, -, hstart, hnow, hreads, hindex⟩ := killTimer_frame (s := s) handler timerId
  exact ⟨hinv, hstart.trans h.start, hnow ▸ h.reached, by rw [hnow, hreads]; exact h.clock,
    fun k hk => (hindex k).trans_lt (h.index_lt k hk)⟩

/-- A kill recorded in the log. -/
theorem killed_recorded {handler : HandlerId} {timerId : TimerId} {node : NodeId} {e : Event}
    (h : s.Recorded) (hnode : s.Fresh → s.mTimerMap handler timerId = some node)
    (he : e = .killed node ∨ ∃ r, e = .run r node) :
    ((killTimer handler timerId s).emit e).Recorded := by
  obtain ⟨-, -, hlog, -⟩ := killTimer_frame (s := s) handler timerId
  intro hF n handler' timerId' previous hset
  have hF' : s.Fresh := fun e he => hF.of_emit.1 e (hlog ▸ he)
  rw [State.emit_log, hlog] at hset ⊢
  show _ ∨ _ ∨ (killTimer handler timerId s).mTimerMap handler' timerId' = some n
  have hset' : .set n handler' timerId' previous ∈ s.log := by
    rcases List.mem_append.mp hset with hset | hset
    · exact hset
    · have heq := List.mem_singleton.mp hset
      rcases he with rfl | ⟨r, rfl⟩ <;> cases heq
  rcases h hF' n handler' timerId' previous hset' with hk | ⟨r, hr⟩ | hm
  · exact Or.inl (List.mem_append_left _ hk)
  · exact Or.inr (Or.inl ⟨r, List.mem_append_left _ hr⟩)
  · by_cases hkey : handler' = handler ∧ timerId' = timerId
    · rw [hkey.1, hkey.2, hnode hF'] at hm
      rw [Option.some.injEq] at hm
      subst hm
      rcases he with rfl | ⟨r, rfl⟩
      · exact Or.inl (List.mem_append_right _ (List.mem_singleton_self _))
      · exact Or.inr (Or.inl ⟨r, List.mem_append_right _ (List.mem_singleton_self _)⟩)
    · right; right
      rw [killTimer_map, State.setMap_map, if_neg hkey]
      exact hm

/-- The order of the record and of the kill does not matter. -/
theorem killTimer_emit (handler : HandlerId) (timerId : TimerId) (e : Event) :
    killTimer handler timerId (s.emit e) = (killTimer handler timerId s).emit e := by
  have hemit : (s.emit e).mTimerMap handler timerId = s.mTimerMap handler timerId := rfl
  cases hmap : s.mTimerMap handler timerId with
  | none => simp only [killTimer, hemit, hmap]
  | some node =>
      simp only [killTimer, hemit, hmap]
      rfl

theorem callInside_keeps (hmono : Monotone env.tick) (h : Rest env b p s) (c : Call) :
    Rest env b p (callInside env s c) ∧ Called s (callInside env s c) := by
  cases c with
  | setTimer handler timerId interval extra =>
      exact setTimer_keeps hmono h handler timerId interval.toNat_lt extra
  | setTimerEx handler interval extra => exact setTimerEx_keeps hmono h interval.toNat_lt extra
  | processTimer io => exact ⟨h, .refl s⟩
  | killTimer handler timerId =>
      obtain ⟨hheap, hnext, hlog, -, hnow, -⟩ := killTimer_frame (s := s) handler timerId
      obtain ⟨hsub, hkept⟩ := killTimer_ready (s := s) handler timerId
      have hat := killTimer_at handler timerId h.toAt
      cases hmap : s.mTimerMap handler timerId with
      | none =>
          simp only [callInside, killTimer, hmap]
          exact ⟨h, .refl s⟩
      | some node =>
          simp only [callInside, hmap, killTimer_emit]
          refine ⟨⟨⟨hat.inv.emit (.killed node) fun _ => trivial, hat.start, hat.reached, hat.clock,
            hat.index_lt⟩, killed_recorded h.recorded (fun _ => hmap) (Or.inl rfl)⟩,
            hnow.ge, hnext.ge, fun n _ => congrFun hheap n, hsub, [.killed node], ?_,
              fun n hn => ?_⟩
          · rw [State.emit_log, hlog]
          · by_cases hne : n = node
            · exact Or.inr (by simp [hne])
            · refine Or.inl (hkept n hn fun heq => hne ?_)
              rw [hmap, Option.some.injEq] at heq
              exact heq.symm

/-- A callback makes any number of calls. -/
theorem callback_keeps (hmono : Monotone env.tick) (h : Rest env b p s) :
    Rest env b p (callback env s) ∧ Called s (callback env s) := by
  have hfold : ∀ (calls : List Call) (s : State), Rest env b p s →
      Rest env b p (calls.foldl (callInside env) s) ∧
        Called s (calls.foldl (callInside env) s) := by
    intro calls
    induction calls with
    | nil => exact fun s h => ⟨h, .refl s⟩
    | cons c calls ih =>
        intro s h
        obtain ⟨h₁, hc₁⟩ := callInside_keeps hmono h c
        obtain ⟨h₂, hc₂⟩ := ih _ h₁
        exact ⟨h₂, hc₁.trans hc₂⟩
  obtain ⟨h₁, hc₁⟩ := hfold (env.callback s.callbacks)
    { s with callbacks := s.callbacks + 1 }
    ⟨⟨⟨h.inv.size_eq, h.inv.index_mod, h.inv.slot, h.inv.links, h.inv.live, h.inv.owner,
      h.inv.interval_lt, h.inv.notEarly⟩, h.start, h.reached, h.clock, h.index_lt⟩, h.recorded⟩
  exact ⟨h₁, hc₁.now_le, hc₁.nextNode_le, hc₁.heap_eq, hc₁.ready, hc₁.log_new⟩

end
end CoreLooper.TimerManager
