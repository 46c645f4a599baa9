import CoreLooper.TimerManager

/-!
# What the operations of the timer manager do to the links

`linkCount` counts the places where a node is linked, over every spoke of every wheel
and the ready list. The operations are described through it, through the spokes they
touch and through the events they append.
-/
namespace CoreLooper.TimerManager

/-- The number of spokes of wheel `k` of a new manager. -/
def wheelSize (k : ℕ) : ℕ := if k = 0 then wheelSize1 else wheelSize2

theorem wheelSize_pos (k : ℕ) : 0 < wheelSize k := by
  unfold wheelSize
  split <;> decide

namespace State

/-- The number of links of a node. -/
def linkCount (s : State) (n : NodeId) : ℕ :=
  s.mReadyNodes.count n +
    ∑ k ∈ Finset.range wheelNum, ∑ j ∈ Finset.range (wheelSize k), (s.spoke k j).count n

variable (s : State) (e : Event) (k k' i j j' : ℕ) (l : List NodeId) (n : NodeId) (v : TimerNode)

@[simp] theorem emit_mWheels : (s.emit e).mWheels = s.mWheels := rfl
@[simp] theorem emit_spoke : (s.emit e).spoke k j = s.spoke k j := rfl
@[simp] theorem emit_index : (s.emit e).index k = s.index k := rfl
@[simp] theorem emit_size : (s.emit e).size k = s.size k := rfl
@[simp] theorem emit_heap : (s.emit e).heap = s.heap := rfl
@[simp] theorem emit_ready : (s.emit e).mReadyNodes = s.mReadyNodes := rfl
@[simp] theorem emit_log : (s.emit e).log = s.log ++ [e] := rfl
@[simp] theorem emit_linkCount : (s.emit e).linkCount n = s.linkCount n := rfl

theorem setSpoke_spoke : (s.setSpoke k j l).spoke k' j' =
    if k' = k ∧ j' = j then l else s.spoke k' j' := by
  simp only [spoke, setSpoke, Function.update_apply]
  by_cases hk : k' = k
  · by_cases hj : j' = j
    · simp [hk, hj]
    · simp [hk, hj]
  · simp [hk]

@[simp] theorem setSpoke_index : (s.setSpoke k j l).index k' = s.index k' := by
  simp only [index, setSpoke, Function.update_apply]
  split_ifs with h <;> simp [h]

@[simp] theorem setSpoke_size : (s.setSpoke k j l).size k' = s.size k' := by
  simp only [size, setSpoke, Function.update_apply]
  split_ifs with h <;> simp [h]

@[simp] theorem setIndex_spoke : (s.setIndex k i).spoke k' j = s.spoke k' j := by
  simp only [spoke, setIndex, Function.update_apply]
  split_ifs with h <;> simp [h]

theorem setIndex_index : (s.setIndex k i).index k' = if k' = k then i else s.index k' := by
  simp only [index, setIndex, Function.update_apply]
  split_ifs <;> rfl

@[simp] theorem setIndex_size : (s.setIndex k i).size k' = s.size k' := by
  simp only [size, setIndex, Function.update_apply]
  split_ifs with h <;> simp [h]

@[simp] theorem setIndex_linkCount : (s.setIndex k i).linkCount n = s.linkCount n := by
  simp only [linkCount, setIndex_spoke]
  rfl

theorem setNode_heap (m : NodeId) :
    (s.setNode n v).heap m = if m = n then v else s.heap m := by
  simp only [setNode, Function.update_apply]

theorem setMap_map (h h' : HandlerId) (id id' : TimerId) (x : Option NodeId) :
    (s.setMap h id x).mTimerMap h' id' = if h' = h ∧ id' = id then x else s.mTimerMap h' id' := by
  simp only [setMap, Function.update_apply]
  by_cases hh : h' = h
  · by_cases hid : id' = id
    · simp [hh, hid]
    · simp [hh, hid]
  · simp [hh]

@[simp] theorem setNode_map : (s.setNode n v).mTimerMap = s.mTimerMap := rfl
@[simp] theorem setNode_linkCount (m : NodeId) : (s.setNode n v).linkCount m = s.linkCount m := rfl
@[simp] theorem setMap_heap (h : HandlerId) (id : TimerId) (x : Option NodeId) :
    (s.setMap h id x).heap = s.heap := rfl
@[simp] theorem setMap_linkCount (h : HandlerId) (id : TimerId) (x : Option NodeId) :
    (s.setMap h id x).linkCount n = s.linkCount n := rfl

/-- Replacing the list of a spoke trades the links of the old list for those of the new. -/
theorem setSpoke_linkCount (hk : k < wheelNum) (hj : j < wheelSize k) :
    (s.setSpoke k j l).linkCount n + (s.spoke k j).count n = s.linkCount n + l.count n := by
  have hrow : ∀ k', k' ≠ k →
      (∑ j' ∈ Finset.range (wheelSize k'), ((s.setSpoke k j l).spoke k' j').count n) =
        ∑ j' ∈ Finset.range (wheelSize k'), (s.spoke k' j').count n := by
    intro k' hne
    refine Finset.sum_congr rfl fun j' _ => ?_
    rw [setSpoke_spoke, if_neg (fun h => hne h.1)]
  have hcell : (∑ j' ∈ (Finset.range (wheelSize k)).erase j,
      ((s.setSpoke k j l).spoke k j').count n) =
        ∑ j' ∈ (Finset.range (wheelSize k)).erase j, (s.spoke k j').count n := by
    refine Finset.sum_congr rfl fun j' hj' => ?_
    rw [setSpoke_spoke, if_neg (fun h => Finset.ne_of_mem_erase hj' h.2)]
  have hother : (∑ k' ∈ (Finset.range wheelNum).erase k, ∑ j' ∈ Finset.range (wheelSize k'),
      ((s.setSpoke k j l).spoke k' j').count n) =
        ∑ k' ∈ (Finset.range wheelNum).erase k, ∑ j' ∈ Finset.range (wheelSize k'),
          (s.spoke k' j').count n :=
    Finset.sum_congr rfl fun k' hk' => hrow k' (Finset.ne_of_mem_erase hk')
  have hkm := Finset.mem_range.mpr hk
  have hjm := Finset.mem_range.mpr hj
  have hready : (s.setSpoke k j l).mReadyNodes = s.mReadyNodes := rfl
  have hself : (s.setSpoke k j l).spoke k j = l := by simp [setSpoke_spoke]
  simp only [linkCount, hready, ← Finset.add_sum_erase _ _ hkm, hother,
    ← Finset.add_sum_erase _ _ hjm, hcell, hself]
  omega

/-- A linked node has a link. -/
theorem count_le_linkCount (hk : k < wheelNum) (hj : j < wheelSize k) :
    (s.spoke k j).count n ≤ s.linkCount n := by
  have hrow : (s.spoke k j).count n ≤
      ∑ j' ∈ Finset.range (wheelSize k), (s.spoke k j').count n :=
    Finset.single_le_sum (f := fun j' => (s.spoke k j').count n) (fun _ _ => Nat.zero_le _)
      (Finset.mem_range.mpr hj)
  have hall : (∑ j' ∈ Finset.range (wheelSize k), (s.spoke k j').count n) ≤
      ∑ k' ∈ Finset.range wheelNum, ∑ j' ∈ Finset.range (wheelSize k'),
        (s.spoke k' j').count n :=
    Finset.single_le_sum
      (f := fun k' => ∑ j' ∈ Finset.range (wheelSize k'), (s.spoke k' j').count n)
      (fun _ _ => Nat.zero_le _) (Finset.mem_range.mpr hk)
  unfold linkCount
  omega

/-- A node with a link is ready or lies in some spoke. -/
theorem linked_cases (h : 0 < s.linkCount n) :
    n ∈ s.mReadyNodes ∨ ∃ k j, n ∈ s.spoke k j := by
  by_cases hready : n ∈ s.mReadyNodes
  · exact Or.inl hready
  · right
    rw [linkCount, List.count_eq_zero_of_not_mem hready, Nat.zero_add] at h
    obtain ⟨k, -, hk⟩ := Finset.exists_ne_zero_of_sum_ne_zero (Nat.pos_iff_ne_zero.mp h)
    obtain ⟨j, -, hj⟩ := Finset.exists_ne_zero_of_sum_ne_zero hk
    exact ⟨k, j, List.count_pos_iff.mp (Nat.pos_of_ne_zero hj)⟩

end State
end CoreLooper.TimerManager
