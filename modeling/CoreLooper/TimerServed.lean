import CoreLooper.TimerInvariant

/-!
# The nodes of the upper wheels are served in time

The invariant of the wheels lets every slot be served up to one tick after the dead times of its
nodes. In wheel 0 that tick is needed. In the upper wheels it is not: delays are rounded down to
whole turns there, so their slots are served no later than the dead times themselves.
-/
namespace CoreLooper.TimerManager
open WheelSlots

def ServedInTime (b : ℕ) (c : ℕ → ℕ) (s : State) : Prop :=
  ∀ k, 0 < k → k < wheelNum → ∀ j, ∀ n ∈ s.spoke k j, ∀ q, Open (wheelSize k) (c k) q →
    j = q % wheelSize k → b + (q + 1) * wheelSpan k ≤ (s.heap n).mDeadTime

namespace ServedInTime
variable {b : ℕ} {c : ℕ → ℕ} {s s' : State}

/-- Nodes may leave the wheels, and nodes outside of them may change. -/
theorem mono (h : ServedInTime b c s)
    (hspoke : ∀ k j, ∀ n ∈ s'.spoke k j, n ∈ s.spoke k j ∧ s'.heap n = s.heap n) :
    ServedInTime b c s' := by
  intro k hk hk5 j n hn q hq hj
  obtain ⟨hn', hheap⟩ := hspoke k j n hn
  rw [hheap]
  exact h k hk hk5 j n hn' q hq hj

theorem congr (h : ServedInTime b c s) (hspoke : ∀ k j, s'.spoke k j = s.spoke k j)
    (hheap : s'.heap = s.heap) : ServedInTime b c s' :=
  h.mono fun k j n hn => ⟨hspoke k j ▸ hn, congrFun hheap n⟩

theorem congr_turns {c' : ℕ → ℕ} (h : ServedInTime b c s)
    (hc : ∀ k, 0 < k → k < wheelNum → c k = c' k) : ServedInTime b c' s := by
  intro k hk hk5 j n hn q hq hj
  exact h k hk hk5 j n hn q (hc k hk hk5 ▸ hq) hj

theorem addTimer {n : NodeId} {m p ms t : ℕ} (h : ServedInTime b c s)
    (hindex : ∀ k < wheelNum, s.index k % wheelSize k = c k % wheelSize k) (hm0 : 0 < m)
      (hm : m ≤ wheelNum) (hturns : ∀ k < m, c k = p / wheelSpan k)
    (hms : ms < wheelSpan m) (hdead : (s.heap n).mDeadTime = t + ms) (ht : b + p ≤ t) :
    ServedInTime b c (TimerManager.addTimer ms n s) := by
  obtain ⟨k, q, hk, hchoose, hopen, -, -, -, hserved⟩ := chooseSpoke_spec (s := s) hm0 hm
    (fun k hk => hindex k (Nat.lt_of_lt_of_le hk hm)) hturns hms
  unfold TimerManager.addTimer
  rw [hchoose]
  intro k' hk' hk5 j n' hn' q' hq' hj
  rw [State.setSpoke_spoke] at hn'
  split_ifs at hn' with hkj
  · obtain ⟨rfl, rfl⟩ := hkj
    rcases List.mem_append.mp hn' with hn' | hn'
    · exact h k' hk' hk5 _ n' hn' q' hq' hj
    · rw [List.mem_singleton.mp hn', ← hopen.inj hq' hj]
      show b + _ ≤ (s.heap n).mDeadTime
      have := hserved hk'
      omega
  · exact h k' hk' hk5 j n' hn' q' hq' hj

/-- A wheel is turned: the spoke served is empty, and the slot that opens has that spoke. -/
theorem turn (h : ServedInTime b c s) (k i : ℕ) :
    ServedInTime b (Function.update c k (c k + 1))
      ((s.setIndex k i).setSpoke k (c k % wheelSize k) []) := by
  intro k' hk' hk5 j n hn q hq hj
  rw [State.setSpoke_spoke, State.setIndex_spoke] at hn
  split_ifs at hn with hkj
  · cases hn
  · rw [Function.update_apply] at hq
    split_ifs at hq with hkk
    · subst hkk
      have hne : q ≠ c k' + wheelSize k' := by
        rintro rfl
        exact hkj ⟨rfl, by rw [hj, Nat.add_mod_right]⟩
      exact h k' hk' hk5 j n hn q ⟨by have := hq.1; omega, by have := hq.2; omega⟩ hj
    · exact h k' hk' hk5 j n hn q hq hj

end ServedInTime
end CoreLooper.TimerManager
