import CoreLooper.TimerCalls

/-!
# Handing out the ready nodes

`ProcessTimeOut` takes the ready nodes one by one and calls `OnTimer` or `Run`, which may in
turn set and kill timers. Every node that was ready when the loop began is handed out, unless
it is killed before its turn; the loop ends with the ready list empty.
-/
namespace CoreLooper.TimerManager
open WheelSlots

/-- The event of handing out a node. -/
def TimerNode.handOut (node : NodeId) (v : TimerNode) : Event :=
  match v.mExtraInfo with
  | some info => .run info.mRunnable node
  | none => .onTimer v.mHandler v.mTimerId node

/-- No two ready nodes have the same handler and id. -/
def State.DistinctReady (s : State) : Prop :=
  ∀ m ∈ s.mReadyNodes, ∀ n ∈ s.mReadyNodes, (s.heap m).mHandler = (s.heap n).mHandler →
    (s.heap m).mTimerId = (s.heap n).mTimerId → m = n

/-- A ready node exists and is not detached. -/
theorem Inv.of_ready {b : ℕ} {D : List NodeId} {c : ℕ → ℕ} {s : State} {n : NodeId}
    (h : Inv b D c s) (hn : n ∈ s.mReadyNodes) : n < s.nextNode ∧ n ∉ D := by
  have hpos : 0 < s.mReadyNodes.count n := List.count_pos_iff.mpr hn
  have hle := h.links n
  unfold State.linkCount at hle
  by_cases hlt : n < s.nextNode
  · refine ⟨hlt, fun hD => ?_⟩
    have := List.count_pos_iff.mpr hD
    rw [if_pos hlt] at hle
    omega
  · rw [if_neg hlt] at hle
    omega

section
variable {env : Env} {b p t : ℕ} {s : State} {node : NodeId}

/-- The state in the body of the loop: `node` was taken off the ready list at a pass that began at
tick `t`. -/
structure Taken (env : Env) (b p t : ℕ) (node : NodeId) (s : State) : Prop where
  inv : Inv b [node] (fun k => p / wheelSpan k) s
  start : s.mStartTick = b + p
  reached : b + p ≤ t
  passed : t ≤ s.now
  clock : s.now ≤ env.tick s.reads
  index_lt : ∀ k < wheelNum, s.index k < wheelSize k
  recorded : s.Recorded

/-- What handing out `node` does. -/
structure HandedOut (node : NodeId) (s s' : State) : Prop where
  now_le : s.now ≤ s'.now
  nextNode_le : s.nextNode ≤ s'.nextNode
  heap_eq : ∀ n < s.nextNode, n ≠ node → s'.heap n = s.heap n
  ready : s'.mReadyNodes.Sublist s.mReadyNodes
  log_new : ∃ new, s'.log = s.log ++ new ∧ (s.heap node).handOut node ∈ new ∧
    ((∀ n ∈ s.mReadyNodes, (s.heap node).mHandler = (s.heap n).mHandler →
        (s.heap node).mTimerId ≠ (s.heap n).mTimerId) →
      ∀ n ∈ s.mReadyNodes, n ∈ s'.mReadyNodes ∨ .killed n ∈ new)

/-- The callback only kills further nodes. -/
theorem HandedOut.called {s' s'' : State} (h : HandedOut node s s') (hc : Called s' s'') :
    HandedOut node s s'' := by
  obtain ⟨new, hlog, hout, hkept⟩ := h.log_new
  obtain ⟨new', hlog', hkept'⟩ := hc.log_new
  refine ⟨Nat.le_trans h.now_le hc.now_le, Nat.le_trans h.nextNode_le hc.nextNode_le,
    fun n hn hne => ?_, hc.ready.trans h.ready, new ++ new', ?_, List.mem_append_left _ hout,
    fun hkeys n hn => ?_⟩
  · rw [hc.heap_eq n (Nat.lt_of_lt_of_le hn h.nextNode_le), h.heap_eq n hn hne]
  · rw [hlog', hlog, List.append_assoc]
  · rcases hkept hkeys n hn with hn | hk
    · rcases hkept' n hn with hn | hk
      · exact Or.inl hn
      · exact Or.inr (List.mem_append_right _ hk)
    · exact Or.inr (List.mem_append_left _ hk)

/-- A timer with a runnable is killed before it runs. -/
theorem Taken.killTimer (h : Taken env b p t node s) {info : TimerExtraInfo}
    (hinfo : (s.heap node).mExtraInfo = some info) :
    Rest env b p ((killTimer (s.heap node).mHandler (s.heap node).mTimerId s).emit
      (.run info.mRunnable node)) ∧
    HandedOut node s ((TimerManager.killTimer (s.heap node).mHandler (s.heap node).mTimerId s).emit
      (.run info.mRunnable node)) := by
  generalize hH : (s.heap node).mHandler = handler
  generalize hI : (s.heap node).mTimerId = timerId
  obtain ⟨hheap, hnext, hlog, hstart, hnow, hreads, hindex⟩ :=
    killTimer_frame (s := s) handler timerId
  obtain ⟨hsub, hkept⟩ := killTimer_ready (s := s) handler timerId
  obtain ⟨D', hD', hinv⟩ := killTimer_inv h.inv handler timerId
  have hfree : (TimerManager.killTimer handler timerId s).mTimerMap handler timerId = none := by
    rw [killTimer_map, State.setMap_map, if_pos ⟨rfl, rfl⟩]
  have hinv' : Inv b [] (fun k => p / wheelSpan k) (TimerManager.killTimer handler timerId s) := by
    rcases List.sublist_singleton.mp hD' with rfl | rfl
    · exact hinv
    · refine hinv.forget fun _ => ?_
      rw [hheap, hH, hI, hfree]
      exact fun h => by cases h
  have hlive : s.Fresh → s.mTimerMap handler timerId = some node := by
    intro hF
    have hone : s.linkCount node + [node].count node = 1 := by
      have := h.inv.links node
      rw [List.count_singleton_self] at this ⊢
      split_ifs at this <;> omega
    have := (h.inv.live hF node).mp hone
    rwa [hH, hI] at this
  refine ⟨⟨⟨hinv'.emit (.run _ _) fun _ => trivial, hstart.trans h.start,
    Nat.le_trans h.reached (hnow ▸ h.passed), ?_,
      fun k hk => (hindex k).trans_lt (h.index_lt k hk)⟩,
    killed_recorded h.recorded hlive (Or.inr ⟨_, rfl⟩)⟩, hnow.ge, hnext.ge,
    fun n _ _ => congrFun hheap n, hsub, [.run info.mRunnable node], ?_, ?_, fun hkeys n hn => ?_⟩
  · show (TimerManager.killTimer handler timerId s).now ≤ _
    rw [hnow]
    exact hreads ▸ h.clock
  · rw [State.emit_log, hlog]
  · simp [TimerNode.handOut, hinfo]
  · refine Or.inl (hkept n hn fun heq => ?_)
    obtain ⟨-, hh, hid⟩ := h.inv.owner _ _ _ heq
    exact hkeys n hn (hH.trans hh.symm) (hI.trans hid.symm)

/-- Any other timer is armed again before its handler is called. -/
theorem Taken.rearm (h : Taken env b p t node s) (hinfo : (s.heap node).mExtraInfo = none) :
    Rest env b p ((addTimer (s.heap node).mInterval node
      ((s.setNode node { s.heap node with mDeadTime := t + (s.heap node).mInterval }).emit
        (.armed node (s.heap node).mInterval t s.mStartTick))).emit
          (.onTimer (s.heap node).mHandler (s.heap node).mTimerId node)) ∧
    HandedOut node s ((addTimer (s.heap node).mInterval node
      ((s.setNode node { s.heap node with mDeadTime := t + (s.heap node).mInterval }).emit
        (.armed node (s.heap node).mInterval t s.mStartTick))).emit
          (.onTimer (s.heap node).mHandler (s.heap node).mTimerId node)) := by
  have harm := ((h.inv.rearm (t + (s.heap node).mInterval)).emit
    (.armed node (s.heap node).mInterval t s.mStartTick) fun _ => trivial).addTimer
    (t := t) (p := p) (by decide) (Nat.le_refl wheelNum)
    (fun _ _ => rfl) (wheelSpan_five ▸ h.inv.interval_lt node)
    (by simp [State.setNode_heap]) h.reached h.passed (fun hT hlt => by
      have := hT.of_emit.2 hlt
      rwa [h.start] at this)
  refine ⟨⟨⟨harm.emit (.onTimer _ _ _) fun _ => trivial, h.start,
    Nat.le_trans h.reached h.passed, h.clock, fun k hk => ?_⟩, ?_⟩, Nat.le_refl _, Nat.le_refl _,
    fun n _ hne => ?_, List.Sublist.refl _, _, List.append_assoc s.log [_] [_], ?_,
    fun _ n hn => Or.inl hn⟩
  · exact ((addTimer_relinked _ _ _).index_eq k).trans_lt (h.index_lt k hk)
  · exact h.recorded.append rfl ⟨_, List.append_assoc s.log [_] [_], by simp⟩
  · exact (State.setNode_heap s node _ n).trans (if_neg hne)
  · simp [TimerNode.handOut, hinfo]

theorem timeOutNode_keeps (hmono : Monotone env.tick) (h : Taken env b p t node s) :
    Rest env b p (timeOutNode env t node s) ∧ HandedOut node s (timeOutNode env t node s) := by
  unfold timeOutNode
  dsimp only
  split
  · rename_i info hinfo
    obtain ⟨hrest, hout⟩ := h.killTimer hinfo
    split
    · obtain ⟨hrest', hcalled⟩ := callback_keeps hmono hrest
      exact ⟨hrest', hout.called hcalled⟩
    · exact ⟨hrest, hout⟩
  · rename_i hinfo
    obtain ⟨hrest, hout⟩ := h.rearm hinfo
    obtain ⟨hrest', hcalled⟩ := callback_keeps hmono hrest
    exact ⟨hrest', hout.called hcalled⟩

/-- The loop hands out every node that was ready, or sees it killed, and empties the list. -/
theorem timeOutLoop_keeps (hmono : Monotone env.tick) (fuel : ℕ) (h : Rest env b p s)
    (ht : b + p ≤ t ∧ t ≤ s.now) (hfuel : s.mReadyNodes.length ≤ fuel) :
    Rest env b p (timeOutLoop env t fuel s) ∧ (timeOutLoop env t fuel s).mReadyNodes = [] ∧
      ∃ new, (timeOutLoop env t fuel s).log = s.log ++ new ∧ (s.DistinctReady →
        ∀ n ∈ s.mReadyNodes, (s.heap n).handOut n ∈ new ∨ .killed n ∈ new) := by
  induction fuel generalizing s with
  | zero =>
      have hnil : s.mReadyNodes = [] := List.length_eq_zero_iff.mp (Nat.le_zero.mp hfuel)
      refine ⟨h, hnil, [], (List.append_nil _).symm, fun _ n hn => ?_⟩
      rw [hnil] at hn
      cases hn
  | succ fuel ih =>
      cases hready : s.mReadyNodes with
      | nil =>
          have hstop : timeOutLoop env t (fuel + 1) s = s := by simp only [timeOutLoop, hready]
          rw [hstop]
          exact ⟨h, hready, [], (List.append_nil _).symm, fun _ n hn => (by cases hn)⟩
      | cons node rest =>
          simp only [timeOutLoop, hready]
          have htaken : Taken env b p t node { s with mReadyNodes := rest } :=
            ⟨h.inv.popReady hready, h.start, ht.1, ht.2, h.clock, h.index_lt, h.recorded⟩
          obtain ⟨hrest, hout⟩ := timeOutNode_keeps hmono htaken
          obtain ⟨new, hlog, hthis, hkept⟩ := hout.log_new
          have hlen : (timeOutNode env t node { s with mReadyNodes := rest }).mReadyNodes.length ≤
              fuel := by
            have hle := hout.ready.length_le
            rw [hready] at hfuel
            exact Nat.le_trans hle (Nat.le_of_succ_le_succ hfuel)
          obtain ⟨hrest', hnil, new', hlog', hall⟩ :=
            ih hrest ⟨ht.1, Nat.le_trans ht.2 hout.now_le⟩ hlen
          refine ⟨hrest', hnil, new ++ new', ?_, fun hdistinct => ?_⟩
          · rw [hlog', hlog, List.append_assoc]
          -- a node of the rest is neither the one handed out nor rewritten with it
          have hother : ∀ n ∈ rest, n ≠ node ∧ (timeOutNode env t node
              { s with mReadyNodes := rest }).heap n = s.heap n := by
            intro n hn
            obtain ⟨hlt, hnot⟩ := htaken.inv.of_ready (show n ∈ rest from hn)
            have hne : n ≠ node := fun heq => hnot (heq ▸ List.mem_singleton_self node)
            exact ⟨hne, hout.heap_eq n hlt hne⟩
          have hmem : ∀ n, n ∈ rest → n ∈ s.mReadyNodes := by
            intro n hn
            rw [hready]
            exact List.mem_cons_of_mem node hn
          have hdistinct' : (timeOutNode env t node
              { s with mReadyNodes := rest }).DistinctReady := by
            intro m hm n hn
            have hm' := hout.ready.subset hm
            have hn' := hout.ready.subset hn
            rw [(hother m hm').2, (hother n hn').2]
            exact hdistinct m (hmem m hm') n (hmem n hn')
          have hkeys : ∀ n ∈ rest, (s.heap node).mHandler = (s.heap n).mHandler →
              (s.heap node).mTimerId ≠ (s.heap n).mTimerId := by
            intro n hn hh hid
            have hnode : node ∈ s.mReadyNodes := hready ▸ List.mem_cons_self
            exact (hother n hn).1 (hdistinct node hnode n (hmem n hn) hh hid).symm
          intro n hn
          rcases List.mem_cons.mp hn with rfl | hn
          · exact Or.inl (List.mem_append_left _ hthis)
          · rcases hkept hkeys n hn with hn' | hk
            · rw [← (hother n hn).2]
              rcases hall hdistinct' n hn' with ho | hk
              · exact Or.inl (List.mem_append_right _ ho)
              · exact Or.inr (List.mem_append_right _ hk)
            · exact Or.inr (List.mem_append_left _ hk)

end
end CoreLooper.TimerManager
