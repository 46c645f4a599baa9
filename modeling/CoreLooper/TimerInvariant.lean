import CoreLooper.TimerSlots

/-!
# The invariant of the timer wheels

Between two calls the wheels stand at position `p`: `mStartTick` is `p` ticks past the tick
`b` of construction, and wheel `k` has turned `p / wheelSpan k` times. Every linked node lies
in an open slot that is served no later than its dead time asks. A node in wheel 0 is moreover
served no earlier than its dead time, provided every delay was computed against a wheel that is
not more than one tick behind.

While a spoke is being moved, its nodes are linked nowhere; the list `D` of the invariant holds
these detached nodes. The conditions of a run are conditions on the entries of its log.
-/
namespace CoreLooper.TimerManager
open WheelSlots

/-- A delay for wheel 0 was computed when that wheel was at most one tick behind. -/
def Event.Timely : Event → Prop
  | .armed _ milliseconds tick position => milliseconds < wheelSize1 → tick ≤ position + 1
  | _ => True

/-- A timer was set under an id that was not live. -/
def Event.Fresh : Event → Prop
  | .set _ _ _ previous => previous = none
  | _ => True

instance : DecidablePred Event.Fresh
  | .set _ _ _ previous => inferInstanceAs (Decidable (previous = none))
  | .armed .. | .ready .. | .onTimer .. | .run .. | .killed .. => .isTrue trivial

/-- A node was made ready at a tick not before its dead time. -/
def Event.NotEarly : Event → Prop
  | .ready _ deadTime tick => deadTime ≤ tick
  | _ => True

namespace State

def Timely (s : State) : Prop := ∀ e ∈ s.log, e.Timely
def Fresh (s : State) : Prop := ∀ e ∈ s.log, e.Fresh

theorem Timely.of_emit {s : State} {e : Event} (h : (s.emit e).Timely) : s.Timely ∧ e.Timely :=
  ⟨fun e' he' => h e' (List.mem_append_left _ he'),
    h e (List.mem_append_right _ (List.mem_singleton_self e))⟩

theorem Fresh.of_emit {s : State} {e : Event} (h : (s.emit e).Fresh) : s.Fresh ∧ e.Fresh :=
  ⟨fun e' he' => h e' (List.mem_append_left _ he'),
    h e (List.mem_append_right _ (List.mem_singleton_self e))⟩

/-- The bounds on the dead time of a node in slot `q` of wheel `k`. -/
def Due (s : State) (b k q : ℕ) (v : TimerNode) : Prop :=
  b + (q + 1) * wheelSpan k ≤ v.mDeadTime + 1 ∧ v.mDeadTime < s.now + wheelSpan (k + 1) ∧
    (s.Timely → k = 0 → v.mDeadTime ≤ b + q + 1)

/-- A timer set under fresh ids and neither killed nor run since is the one in the map. -/
def Recorded (s : State) : Prop :=
  s.Fresh → ∀ n h id previous, .set n h id previous ∈ s.log →
    .killed n ∈ s.log ∨ (∃ r, .run r n ∈ s.log) ∨ s.mTimerMap h id = some n

end State

/-- The links, for wheels that have turned `c` times, with the nodes of `D` detached. -/
structure Inv (b : ℕ) (D : List NodeId) (c : ℕ → ℕ) (s : State) : Prop where
  size_eq : ∀ k < wheelNum, s.size k = wheelSize k
  index_mod : ∀ k < wheelNum, s.index k % wheelSize k = c k % wheelSize k
  slot : ∀ k j n, n ∈ s.spoke k j → k < wheelNum ∧
    ∃ q, Open (wheelSize k) (c k) q ∧ j = q % wheelSize k ∧ s.Due b k q (s.heap n)
  links : ∀ n, s.linkCount n + D.count n ≤ if n < s.nextNode then 1 else 0
  live : s.Fresh → ∀ n, s.linkCount n + D.count n = 1 ↔
    s.mTimerMap (s.heap n).mHandler (s.heap n).mTimerId = some n
  owner : ∀ h id n, s.mTimerMap h id = some n →
    n < s.nextNode ∧ (s.heap n).mHandler = h ∧ (s.heap n).mTimerId = id
  interval_lt : ∀ n, (s.heap n).mInterval < 2 ^ 32
  notEarly : s.Timely → ∀ e ∈ s.log, e.NotEarly

namespace Inv
variable {b : ℕ} {D : List NodeId} {c : ℕ → ℕ} {s : State}

/-- A detached node is linked nowhere. -/
theorem not_mem_spoke {n : NodeId} (h : Inv b D c s) (hn : n ∈ D) (k j : ℕ) :
    n ∉ s.spoke k j := by
  intro hmem
  obtain ⟨hk, q, -, rfl, -⟩ := h.slot k j n hmem
  have hcount := s.count_le_linkCount k (q % wheelSize k) n hk
    (Nat.mod_lt q (wheelSize_pos k))
  have hone := List.count_pos_iff.mpr hmem
  have hD := List.count_pos_iff.mpr hn
  have := h.links n
  split_ifs at this <;> omega

/-- Only the turns of the wheels that exist matter. -/
theorem congr_turns {c' : ℕ → ℕ} (h : Inv b D c s) (hc : ∀ k < wheelNum, c k = c' k) :
    Inv b D c' s where
  size_eq := h.size_eq
  index_mod := fun k hk => hc k hk ▸ h.index_mod k hk
  slot := by
    intro k j n hn
    obtain ⟨hk, q, hq, hrest⟩ := h.slot k j n hn
    exact ⟨hk, q, hc k hk ▸ hq, hrest⟩
  links := h.links
  live := h.live
  owner := h.owner
  interval_lt := h.interval_lt
  notEarly := h.notEarly

theorem emit (h : Inv b D c s) (e : Event) (he : (s.emit e).Timely → e.NotEarly) :
    Inv b D c (s.emit e) where
  size_eq := h.size_eq
  index_mod := h.index_mod
  slot := by
    intro k j n hn
    obtain ⟨hk, q, hq, hj, h1, h2, h3⟩ := h.slot k j n hn
    exact ⟨hk, q, hq, hj, h1, h2, fun hT => h3 hT.of_emit.1⟩
  links := h.links
  live := fun hF => h.live hF.of_emit.1
  owner := h.owner
  interval_lt := h.interval_lt
  notEarly := by
    intro hT e' he'
    rcases List.mem_append.mp he' with he' | he'
    · exact h.notEarly hT.of_emit.1 e' he'
    · rw [List.mem_singleton.mp he']
      exact he hT

/-- A later reading of the clock only relaxes the bounds. -/
theorem tick (h : Inv b D c s) {env : Env} (hclock : s.now ≤ env.tick s.reads) :
    Inv b D c (getCurrentMillisec env s) where
  size_eq := h.size_eq
  index_mod := h.index_mod
  slot := by
    intro k j n hn
    obtain ⟨hk, q, hq, hj, h1, h2, h3⟩ := h.slot k j n hn
    exact ⟨hk, q, hq, hj, h1, Nat.lt_of_lt_of_le h2 (Nat.add_le_add_right hclock _), h3⟩
  links := h.links
  live := h.live
  owner := h.owner
  interval_lt := h.interval_lt
  notEarly := h.notEarly

/-- Linking a detached node at the end of the spoke of an open slot. -/
theorem link {n : NodeId} {k q : ℕ} (h : Inv b (n :: D) c s) (hk : k < wheelNum)
    (hq : Open (wheelSize k) (c k) q) (hdue : s.Due b k q (s.heap n)) :
    Inv b D c (s.setSpoke k (q % wheelSize k) (s.spoke k (q % wheelSize k) ++ [n])) := by
  have hcount : ∀ m, (s.setSpoke k (q % wheelSize k)
      (s.spoke k (q % wheelSize k) ++ [n])).linkCount m + D.count m =
        s.linkCount m + (n :: D).count m := by
    intro m
    have hset := s.setSpoke_linkCount k (q % wheelSize k)
      (s.spoke k (q % wheelSize k) ++ [n]) m hk (Nat.mod_lt q (wheelSize_pos k))
    rw [List.count_append, List.count_singleton] at hset
    rw [List.count_cons]
    omega
  refine ⟨fun k' hk' => ?_, fun k' hk' => ?_, ?_, fun m => ?_, fun hF m => ?_, h.owner,
    h.interval_lt, h.notEarly⟩
  · rw [State.setSpoke_size]
    exact h.size_eq k' hk'
  · rw [State.setSpoke_index]
    exact h.index_mod k' hk'
  · intro k' j m hm
    rw [State.setSpoke_spoke] at hm
    split_ifs at hm with hkj
    · obtain ⟨rfl, rfl⟩ := hkj
      rcases List.mem_append.mp hm with hm | hm
      · exact h.slot _ _ m hm
      · rw [List.mem_singleton.mp hm]
        exact ⟨hk, q, hq, rfl, hdue⟩
    · exact h.slot _ _ m hm
  · rw [hcount]
    exact h.links m
  · rw [hcount]
    exact h.live hF m

/-- Appending a detached node to the ready list. -/
theorem makeReady {n : NodeId} (h : Inv b (n :: D) c s)
    (hdead : s.Timely → (s.heap n).mDeadTime ≤ s.now) : Inv b D c (addToReady n s) := by
  have hcount : ∀ m, ({ s with mReadyNodes := s.mReadyNodes ++ [n] } : State).linkCount m +
      D.count m = s.linkCount m + (n :: D).count m := by
    intro m
    show (s.mReadyNodes ++ [n]).count m + _ + _ = s.mReadyNodes.count m + _ + _
    rw [List.count_append, List.count_singleton, List.count_cons]
    simp only [State.spoke]
    omega
  have hready : Inv b D c { s with mReadyNodes := s.mReadyNodes ++ [n] } := by
    refine ⟨h.size_eq, h.index_mod, h.slot, fun m => ?_, fun hF m => ?_, h.owner,
      h.interval_lt, h.notEarly⟩
    · rw [hcount]
      exact h.links m
    · rw [hcount]
      exact h.live hF m
  exact hready.emit _ fun hT => hdead hT.of_emit.1

/-- The first ready node is taken off the list. -/
theorem popReady {n : NodeId} {rest : List NodeId} (h : Inv b D c s)
    (hr : s.mReadyNodes = n :: rest) : Inv b (n :: D) c { s with mReadyNodes := rest } := by
  have hcount : ∀ m, ({ s with mReadyNodes := rest } : State).linkCount m + (n :: D).count m =
      s.linkCount m + D.count m := by
    intro m
    show rest.count m + _ + _ = s.mReadyNodes.count m + _ + _
    rw [hr, List.count_cons, List.count_cons]
    simp only [State.spoke]
    omega
  refine ⟨h.size_eq, h.index_mod, h.slot, fun m => ?_, fun hF m => ?_, h.owner,
    h.interval_lt, h.notEarly⟩
  · rw [hcount]
    exact h.links m
  · rw [hcount]
    exact h.live hF m

/-- Turning a wheel by one spoke: the spoke served is emptied, and its nodes, now detached, all
come from the slot served. -/
theorem turn (h : Inv b D c s) {k i : ℕ} (hk : k < wheelNum)
    (hi : i % wheelSize k = (c k + 1) % wheelSize k) :
    Inv b (s.spoke k (c k % wheelSize k) ++ D) (Function.update c k (c k + 1))
      ((s.setIndex k i).setSpoke k (c k % wheelSize k) []) ∧
    ∀ n ∈ s.spoke k (c k % wheelSize k), s.Due b k (c k) (s.heap n) := by
  have hcount : ∀ m, ((s.setIndex k i).setSpoke k (c k % wheelSize k) []).linkCount m +
      (s.spoke k (c k % wheelSize k) ++ D).count m = s.linkCount m + D.count m := by
    intro m
    have hset := (s.setIndex k i).setSpoke_linkCount k (c k % wheelSize k) [] m hk
      (Nat.mod_lt (c k) (wheelSize_pos k))
    rw [List.count_nil, State.setIndex_linkCount, State.setIndex_spoke] at hset
    rw [List.count_append]
    omega
  refine ⟨⟨fun k' hk' => ?_, fun k' hk' => ?_, ?_, fun m => ?_, fun hF m => ?_, h.owner,
    h.interval_lt, h.notEarly⟩, ?_⟩
  · rw [State.setSpoke_size, State.setIndex_size]
    exact h.size_eq k' hk'
  · rw [State.setSpoke_index, State.setIndex_index, Function.update_apply]
    split_ifs with hkk
    · rw [hkk, hi]
    · exact h.index_mod k' hk'
  · intro k' j m hm
    rw [State.setSpoke_spoke, State.setIndex_spoke] at hm
    split_ifs at hm with hkj
    · simp at hm
    · obtain ⟨hk', q, hq, hj, hdue⟩ := h.slot k' j m hm
      refine ⟨hk', q, ?_, hj, hdue⟩
      rw [Function.update_apply]
      split_ifs with hkk
      · subst hkk
        exact hq.turn (fun heq => hkj ⟨rfl, by rw [hj, heq]⟩)
      · exact hq
  · rw [hcount]
    exact h.links m
  · rw [hcount]
    exact h.live hF m
  · intro n hn
    obtain ⟨-, q, hq, hj, hdue⟩ := h.slot k _ n hn
    rwa [hq.eq_of_mod_eq hj.symm] at hdue

/-- Rewriting a node that is linked nowhere moves no other node. -/
theorem slot_setNode (h : Inv b D c s) {n : NodeId} (hn : s.linkCount n = 0) (v : TimerNode) :
    ∀ k j m, m ∈ s.spoke k j → k < wheelNum ∧ ∃ q, Open (wheelSize k) (c k) q ∧
      j = q % wheelSize k ∧ s.Due b k q ((s.setNode n v).heap m) := by
  intro k j m hm
  obtain ⟨hk, q, hq, rfl, hdue⟩ := h.slot k j m hm
  have hle := s.count_le_linkCount k _ m hk (Nat.mod_lt q (wheelSize_pos k))
  have hpos := List.count_pos_iff.mpr hm
  have hne : m ≠ n := by
    rintro rfl
    omega
  refine ⟨hk, q, hq, rfl, ?_⟩
  rwa [State.setNode_heap, if_neg hne]

/-- A new node under a key of the map: every link of the old state stays, and the node itself is
detached. -/
theorem allocate (hs : Inv b D c s) (h : HandlerId) (id : TimerId) {v : TimerNode}
    (hv : v.mHandler = h ∧ v.mTimerId = id) (hi : v.mInterval < 2 ^ 32)
    (hfresh : s.Fresh → s.mTimerMap h id = none) :
    Inv b (s.nextNode :: D) c
      { (s.setNode s.nextNode v).setMap h id (some s.nextNode) with
        nextNode := s.nextNode + 1 } := by
  have hnew := hs.links s.nextNode
  rw [if_neg (Nat.lt_irrefl _)] at hnew
  have hcount : ∀ m, m ≠ s.nextNode → (s.nextNode :: D).count m = D.count m :=
    fun m hm => List.count_cons_of_ne (Ne.symm hm)
  have hself : (s.nextNode :: D).count s.nextNode = D.count s.nextNode + 1 :=
    List.count_cons_self
  refine ⟨hs.size_eq, hs.index_mod, hs.slot_setNode (by omega) v, fun m => ?_, fun hF m => ?_,
    fun h' id' m hm => ?_, fun m => ?_, hs.notEarly⟩
  · show s.linkCount m + _ ≤ if m < s.nextNode + 1 then 1 else 0
    by_cases hm : m = s.nextNode
    · rw [hm, hself, if_pos (Nat.lt_succ_self _)]
      omega
    · have hold := hs.links m
      rw [hcount m hm]
      have hlt : m < s.nextNode + 1 ↔ m < s.nextNode := by
        rw [Nat.lt_succ_iff_lt_or_eq, or_iff_left hm]
      simpa only [hlt] using hold
  · show s.linkCount m + _ = 1 ↔ ((s.setNode _ v).setMap h id _).mTimerMap
      ((s.setNode _ v).heap m).mHandler ((s.setNode _ v).heap m).mTimerId = some m
    rw [State.setMap_map, State.setNode_heap, State.setNode_map]
    by_cases hm : m = s.nextNode
    · rw [if_pos hm, if_pos hv, hm, hself]
      simp only [iff_true]
      omega
    · rw [if_neg hm, hcount m hm, hs.live hF m]
      split_ifs with hkey
      · rw [hkey.1, hkey.2, hfresh hF]
        simp only [reduceCtorEq, Option.some.injEq, false_iff]
        exact fun heq => hm heq.symm
      · rfl
  · have hm' : ((s.setNode _ v).setMap h id _).mTimerMap h' id' = some m := hm
    show m < s.nextNode + 1 ∧ ((s.setNode _ v).heap m).mHandler = h' ∧
      ((s.setNode _ v).heap m).mTimerId = id'
    rw [State.setMap_map, State.setNode_map] at hm'
    rw [State.setNode_heap]
    split_ifs at hm' with hkey
    · rw [Option.some.injEq] at hm'
      rw [if_pos hm'.symm, hkey.1, hkey.2, ← hm']
      exact ⟨Nat.lt_succ_self _, hv⟩
    · obtain ⟨hlt, hown⟩ := hs.owner h' id' m hm'
      rw [if_neg (Nat.ne_of_lt hlt)]
      exact ⟨Nat.lt_succ_of_lt hlt, hown⟩
  · show ((s.setNode _ v).heap m).mInterval < 2 ^ 32
    rw [State.setNode_heap]
    split_ifs
    · exact hi
    · exact hs.interval_lt m

/-- A detached node may get a new dead time. -/
theorem rearm {n : NodeId} (hs : Inv b (n :: D) c s) (t : ℕ) :
    Inv b (n :: D) c (s.setNode n { s.heap n with mDeadTime := t }) := by
  have hn : s.linkCount n = 0 := by
    have hle := hs.links n
    rw [List.count_cons_self] at hle
    split_ifs at hle <;> omega
  have hkey : ∀ m, ((s.setNode n { s.heap n with mDeadTime := t }).heap m).mHandler =
      (s.heap m).mHandler ∧ ((s.setNode n { s.heap n with mDeadTime := t }).heap m).mTimerId =
      (s.heap m).mTimerId ∧ ((s.setNode n { s.heap n with mDeadTime := t }).heap m).mInterval =
      (s.heap m).mInterval := by
    intro m
    rw [State.setNode_heap]
    split_ifs with hm
    · rw [hm]
      exact ⟨rfl, rfl, rfl⟩
    · exact ⟨rfl, rfl, rfl⟩
  refine ⟨hs.size_eq, hs.index_mod, hs.slot_setNode hn _, hs.links, fun hF m => ?_,
    fun h id m hm => ?_, fun m => ?_, hs.notEarly⟩
  · rw [(hkey m).1, (hkey m).2.1]
    exact hs.live hF m
  · rw [(hkey m).1, (hkey m).2.1]
    exact hs.owner h id m hm
  · rw [(hkey m).2.2]
    exact hs.interval_lt m

/-- Killing a timer takes its node out of the map and off whatever list it is in. -/
theorem remove {h : HandlerId} {id : TimerId} {n : NodeId} (hs : Inv b D c s)
    (hn : s.mTimerMap h id = some n) :
    Inv b (D.filter (· ≠ n)) c (removeTimer n (s.setMap h id none)) := by
  have hspoke : ∀ k j, (removeTimer n (s.setMap h id none)).spoke k j =
      (s.spoke k j).filter (· ≠ n) := fun _ _ => rfl
  have hzero : (removeTimer n (s.setMap h id none)).linkCount n + (D.filter (· ≠ n)).count n
      = 0 := by
    have hfilter : ∀ l : List NodeId, (l.filter (· ≠ n)).count n = 0 := by
      intro l
      rw [List.count_eq_zero]
      simp
    show ((s.mReadyNodes.filter (· ≠ n)).count n + _) + _ = 0
    simp only [hspoke, hfilter, Finset.sum_const_zero, Nat.add_zero]
  have hother : ∀ m, m ≠ n → (removeTimer n (s.setMap h id none)).linkCount m +
      (D.filter (· ≠ n)).count m = s.linkCount m + D.count m := by
    intro m hm
    have hfilter : ∀ l : List NodeId, (l.filter (· ≠ n)).count m = l.count m :=
      fun l => List.count_filter (by simpa using hm)
    show ((s.mReadyNodes.filter (· ≠ n)).count m + _) + _ = _
    simp only [hspoke, hfilter]
    rfl
  refine ⟨hs.size_eq, hs.index_mod, fun k j m hm => ?_, fun m => ?_, fun hF m => ?_,
    fun h' id' m hm => ?_, hs.interval_lt, hs.notEarly⟩
  · rw [hspoke] at hm
    exact hs.slot k j m (List.mem_of_mem_filter hm)
  · by_cases hm : m = n
    · rw [hm, hzero]
      exact Nat.zero_le _
    · rw [hother m hm]
      exact hs.links m
  · show _ ↔ (s.setMap h id none).mTimerMap (s.heap m).mHandler (s.heap m).mTimerId = some m
    obtain ⟨-, hown⟩ := hs.owner h id n hn
    rw [State.setMap_map]
    by_cases hm : m = n
    · rw [hm, hzero, if_pos hown]
      simp
    · rw [hother m hm, hs.live hF m]
      split_ifs with hkey
      · rw [hkey.1, hkey.2, hn, Option.some.injEq]
        exact iff_of_false (fun heq => hm heq.symm) (by simp)
      · rfl
  · have hm' : (s.setMap h id none).mTimerMap h' id' = some m := hm
    rw [State.setMap_map] at hm'
    split_ifs at hm'
    exact hs.owner h' id' m hm'

/-- A detached node that the map does not name may be forgotten. -/
theorem forget {n : NodeId} (hs : Inv b (n :: D) c s)
    (hn : s.Fresh → s.mTimerMap (s.heap n).mHandler (s.heap n).mTimerId ≠ some n) :
    Inv b D c s where
  size_eq := hs.size_eq
  index_mod := hs.index_mod
  slot := hs.slot
  links := by
    intro m
    have hle := hs.links m
    have hcons := List.count_le_count_cons (a := m) (b := n) (l := D)
    split_ifs at hle ⊢ <;> omega
  live := by
    intro hF m
    have hnot := (hs.live hF n).not.mpr (hn hF)
    have hle := hs.links n
    rw [List.count_cons_self] at hnot hle
    split_ifs at hle <;> omega
  owner := hs.owner
  interval_lt := hs.interval_lt
  notEarly := hs.notEarly

end Inv
end CoreLooper.TimerManager
