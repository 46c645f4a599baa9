import CoreLooper.Runnables

/-!
# The timers that carry runnables

What setting, killing and handing out timers does to the list `runnableTimers`. Killing takes nodes
out of the maps and off the lists of the manager, and leaves all others where they were.
-/
namespace CoreLooper.Runnables
open TimerManager (Env HandlerId RunnableId NodeId TimerId TimerExtraInfo)

/-- `t'` is `t` without the timers of `nodes`. -/
structure Killed (nodes : List NodeId) (t t' : TimerManager.State) : Prop where
  heap_eq : t'.heap = t.heap
  nextNode_eq : t'.nextNode = t.nextNode
  map_iff : ∀ handler id n, t'.mTimerMap handler id = some n ↔
    t.mTimerMap handler id = some n ∧ n ∉ nodes
  spoke_eq : ∀ k j, t'.spoke k j = (t.spoke k j).filter fun n => n ∉ nodes
  ready_eq : t'.mReadyNodes = t.mReadyNodes.filter fun n => n ∉ nodes

namespace Killed
variable {env : Env} {t t' t'' : TimerManager.State} {nodes nodes' : List NodeId}

theorem refl (t : TimerManager.State) : Killed [] t t :=
  ⟨rfl, rfl, fun _ _ _ => by simp, fun _ _ => by simp, by simp⟩

theorem trans (h : Killed nodes t t') (h' : Killed nodes' t' t'') :
    Killed (nodes ++ nodes') t t'' := by
  refine ⟨h'.heap_eq.trans h.heap_eq, h'.nextNode_eq.trans h.nextNode_eq, fun handler id n => ?_,
    fun k j => ?_, ?_⟩
  · rw [h'.map_iff, h.map_iff, List.mem_append, not_or, and_assoc]
  · rw [h'.spoke_eq, h.spoke_eq, List.filter_filter]
    exact List.filter_congr fun n _ => by simp [Bool.and_comm]
  · rw [h'.ready_eq, h.ready_eq, List.filter_filter]
    exact List.filter_congr fun n _ => by simp [Bool.and_comm]

theorem emit (h : Killed nodes t t') (e : TimerManager.Event) : Killed nodes t (t'.emit e) :=
  ⟨h.heap_eq, h.nextNode_eq, h.map_iff, h.spoke_eq, h.ready_eq⟩

/-- `KillTimer` kills the timer under the id. -/
theorem removeTimer (hkeyed : t.Keyed) {handler : HandlerId} {timerId : TimerId} {node : NodeId}
    (hmap : t.mTimerMap handler timerId = some node) :
    Killed [node] t (TimerManager.killTimer handler timerId t) := by
  have hkill : TimerManager.killTimer handler timerId t =
      TimerManager.removeTimer node (t.setMap handler timerId none) := by
    simp only [TimerManager.killTimer, hmap]
  rw [hkill]
  refine ⟨rfl, rfl, fun handler' id n => ?_, fun k j => ?_, ?_⟩
  · show (t.setMap handler timerId none).mTimerMap handler' id = some n ↔ _
    rw [TimerManager.State.setMap_map, List.mem_singleton]
    split_ifs with hkey
    · refine iff_of_false (by simp) fun hn => hn.2 ?_
      rw [hkey.1, hkey.2, hmap, Option.some.injEq] at hn
      exact hn.1.symm
    · refine ⟨fun hn => ⟨hn, fun heq => hkey ?_⟩, And.left⟩
      obtain ⟨-, h1, h2⟩ := hkeyed _ _ _ hn
      obtain ⟨-, h3, h4⟩ := hkeyed _ _ _ hmap
      rw [← h1, ← h2, heq, h3, h4]
      exact ⟨rfl, rfl⟩
  · show (t.spoke k j).filter (fun n => n ≠ node) = _
    exact List.filter_congr fun n _ => by simp
  · show t.mReadyNodes.filter (fun n => n ≠ node) = _
    exact List.filter_congr fun n _ => by simp

theorem killTimer (hkeyed : t.Keyed) (handler : HandlerId) (timerId : TimerId) :
    Killed (t.mTimerMap handler timerId).toList t
      (TimerManager.callInside env t (.killTimer handler timerId)) := by
  cases hmap : t.mTimerMap handler timerId with
  | none =>
      have hsame : TimerManager.callInside env t (.killTimer handler timerId) = t := by
        simp only [TimerManager.callInside, TimerManager.killTimer, hmap]
      rw [hsame]
      exact .refl t
  | some node =>
      simp only [TimerManager.callInside, hmap, TimerManager.killTimer_emit]
      exact (removeTimer hkeyed hmap).emit _

theorem keyed (h : Killed nodes t t') (hkeyed : t.Keyed) : t'.Keyed := by
  intro handler id n hn
  rw [h.nextNode_eq, h.heap_eq]
  exact hkeyed handler id n ((h.map_iff handler id n).mp hn).1

/-- Killing the timers of a list one after the other, each under its id. -/
theorem killTimers (hkeyed : t.Keyed) (handler : HandlerId) (hnodup : nodes.Nodup)
    (hlive : ∀ n ∈ nodes, t.mTimerMap handler (t.heap n).mTimerId = some n) :
    Killed nodes t (((nodes.map fun n => (t.heap n).mTimerId).map (.killTimer handler)).foldl
      (TimerManager.callInside env) t) := by
  induction nodes generalizing t with
  | nil => exact .refl t
  | cons n nodes ih =>
      have hone := @killTimer env _ hkeyed handler (t.heap n).mTimerId
      rw [hlive n List.mem_cons_self, Option.toList_some] at hone
      obtain ⟨hfresh, hnodup⟩ := List.nodup_cons.mp hnodup
      have hrest := ih (hone.keyed hkeyed) hnodup fun m hm => by
        rw [hone.heap_eq, hone.map_iff]
        refine ⟨hlive m (List.mem_cons_of_mem n hm), fun heq => hfresh ?_⟩
        rwa [← List.mem_singleton.mp heq]
      rw [hone.heap_eq] at hrest
      exact hone.trans hrest

end Killed

section
variable {env : Env} {t t' : TimerManager.State}

/-- A live timer that carries a runnable. -/
def Carries (t : TimerManager.State) (n : NodeId) : Prop :=
  t.mTimerMap (t.heap n).mHandler (t.heap n).mTimerId = some n ∧ (t.heap n).mExtraInfo.isSome

theorem mem_runnableTimers (hkeyed : t.Keyed) {n : NodeId} :
    n ∈ runnableTimers t ↔ Carries t n := by
  simp only [runnableTimers, Carries, List.mem_filter, List.mem_range, decide_eq_true_eq]
  exact ⟨And.right, fun h => ⟨(hkeyed _ _ _ h.1).1, h⟩⟩

theorem runnableTimers_nodup (t : TimerManager.State) : (runnableTimers t).Nodup :=
  List.nodup_range.filter _

/-- Some of the timers are left. -/
theorem runnableTimers_filter {p : NodeId → Bool} (hnext : t'.nextNode = t.nextNode)
    (hcarries : ∀ n, Carries t' n ↔ Carries t n ∧ p n) :
    runnableTimers t' = (runnableTimers t).filter p := by
  rw [runnableTimers, runnableTimers, List.filter_filter, hnext]
  refine List.filter_congr fun n _ => ?_
  have hn := hcarries n
  unfold Carries at hn
  rw [Bool.eq_iff_iff, Bool.and_eq_true, decide_eq_true_eq, decide_eq_true_eq, hn, and_comm]

theorem runnableTimers_congr (hnext : t'.nextNode = t.nextNode)
    (hcarries : ∀ n, Carries t' n ↔ Carries t n) : runnableTimers t' = runnableTimers t := by
  rw [runnableTimers_filter (p := fun _ => true) hnext fun n => by rw [hcarries]; simp,
    List.filter_true]

theorem Killed.runnableTimers {nodes : List NodeId} (h : Killed nodes t t') :
    runnableTimers t' = (runnableTimers t).filter fun n => n ∉ nodes := by
  refine runnableTimers_filter h.nextNode_eq fun n => ?_
  rw [Carries, h.heap_eq, h.map_iff, Carries, decide_eq_true_eq]
  exact and_right_comm

/-- A timer set under a free id comes last. -/
theorem runnableTimers_setTimerEx {handler : HandlerId} {interval : UInt32}
    {extra : Option TimerExtraInfo}
    (hfree : t.mTimerMap handler (TimerManager.nextTimerId t handler).1 = none) :
    runnableTimers (TimerManager.callInside env t (.setTimerEx handler interval extra)) =
      runnableTimers t ++ if extra.isSome then [t.nextNode] else [] := by
  generalize ht' : TimerManager.callInside env t (.setTimerEx handler interval extra) = t'
  have hnext : t'.nextNode = t.nextNode + 1 := by rw [← ht']; rfl
  have hheap : ∀ n, t'.heap n = if n = t.nextNode then ⟨handler,
      (TimerManager.nextTimerId t handler).1, env.tick t.reads + (if interval.toNat = 0 then 1 else
        interval.toNat), if interval.toNat = 0 then 1 else interval.toNat, extra⟩
      else t.heap n := fun n => by
    rw [← ht']
    exact TimerManager.State.setNode_heap t t.nextNode _ n
  have hmap : t'.mTimerMap = (t.setMap handler (TimerManager.nextTimerId t handler).1
      (some t.nextNode)).mTimerMap := by
    rw [← ht']
    rfl
  rw [runnableTimers, hnext, List.range_succ, List.filter_append, runnableTimers]
  congr 1
  · refine List.filter_congr fun n hn => ?_
    have hlt := List.mem_range.mp hn
    rw [hheap, if_neg (Nat.ne_of_lt hlt), hmap, TimerManager.State.setMap_map]
    split_ifs with hkey
    · rw [hkey.1, hkey.2, hfree]
      have hne : t.nextNode ≠ n := (Nat.ne_of_lt hlt).symm
      simp [hne]
    · rfl
  · rw [List.filter_singleton, hheap, if_pos rfl, hmap, TimerManager.State.setMap_map]
    cases extra <;> simp

/-- Handing out a timer with a runnable kills it. -/
theorem beforeCallback_killed (hkeyed : t.Keyed) {tickNow : ℕ} {node : NodeId}
    {info : TimerExtraInfo} (hinfo : (t.heap node).mExtraInfo = some info)
    (hlive : t.mTimerMap (t.heap node).mHandler (t.heap node).mTimerId = some node) :
    Killed [node] t (TimerManager.beforeCallback tickNow node t) := by
  simp only [TimerManager.beforeCallback, hinfo]
  exact (Killed.removeTimer hkeyed hlive).emit _

/-- Handing out any other timer leaves the timers with runnables as they are. -/
theorem beforeCallback_rearmed {tickNow : ℕ} {node : NodeId}
    (hinfo : (t.heap node).mExtraInfo = none) :
    (TimerManager.beforeCallback tickNow node t).mTimerMap = t.mTimerMap ∧
    (TimerManager.beforeCallback tickNow node t).nextNode = t.nextNode ∧
    (∀ n, ((TimerManager.beforeCallback tickNow node t).heap n).key = (t.heap n).key ∧
      ((TimerManager.beforeCallback tickNow node t).heap n).mExtraInfo =
        (t.heap n).mExtraInfo) := by
  have hbefore : TimerManager.beforeCallback tickNow node t =
      (TimerManager.addTimer (t.heap node).mInterval node
        ((t.setNode node { t.heap node with mDeadTime := tickNow + (t.heap node).mInterval }).emit
          (.armed node (t.heap node).mInterval tickNow t.mStartTick))).emit
            (.onTimer (t.heap node).mHandler (t.heap node).mTimerId node) := by
    simp only [TimerManager.beforeCallback, hinfo]
    rfl
  rw [hbefore]
  refine ⟨rfl, rfl, fun n => ?_⟩
  show ((t.setNode node _).heap n).key = _ ∧ ((t.setNode node _).heap n).mExtraInfo = _
  rw [TimerManager.State.setNode_heap]
  split_ifs with hn
  · rw [hn]
    exact ⟨rfl, rfl⟩
  · exact ⟨rfl, rfl⟩

end
end CoreLooper.Runnables
