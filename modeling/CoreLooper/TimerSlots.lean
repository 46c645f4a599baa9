import CoreLooper.TimerLinks
import CoreLooper.WheelSlots

/-!
# Where `AddTimer` puts a node

The five wheels have spans of 1, 2 ^ 8, 2 ^ 14, 2 ^ 20 and 2 ^ 26 ticks. `AddTimer`
computes a spoke from the delay and the index of the chosen wheel in `uint32_t`
arithmetic; here the spoke is read as an absolute slot of that wheel.
-/
namespace CoreLooper.TimerManager
open WheelSlots

/-- The ticks one spoke of wheel `k` stands for; one more wheel would hold `2 ^ 32`. -/
def wheelSpan (k : ℕ) : ℕ := if k = 0 then 1 else 1 <<< (wheelBits1 + (k - 1) * wheelBits2)

theorem wheelSpan_pos (k : ℕ) : 0 < wheelSpan k := by
  unfold wheelSpan
  split
  · exact Nat.one_pos
  · rw [Nat.one_shiftLeft]
    exact Nat.two_pow_pos _

/-- A full turn of a wheel is one spoke of the next. -/
theorem wheelSpan_succ (k : ℕ) : wheelSpan (k + 1) = wheelSpan k * wheelSize k := by
  cases k with
  | zero => rfl
  | succ k =>
      simp only [wheelSpan, wheelSize, Nat.add_eq_zero_iff, one_ne_zero, and_false, if_false,
        Nat.add_sub_cancel, Nat.one_shiftLeft, wheelSize2]
      rw [Nat.add_mul, one_mul, ← Nat.add_assoc, Nat.pow_add]

theorem wheelSpan_dvd_succ (k : ℕ) : wheelSpan k ∣ wheelSpan (k + 1) :=
  ⟨wheelSize k, wheelSpan_succ k⟩

theorem wheelSpan_mono : Monotone wheelSpan :=
  monotone_nat_of_le_succ fun k => Nat.le_of_dvd (wheelSpan_pos _) (wheelSpan_dvd_succ k)

/-- The `uint32_t` computation of a spoke of the upper wheels: `span` is the threshold of the
wheel, `index` its spoke index after `c` turns. -/
theorem spoke_of_delay {span ms index c : ℕ} (hspan : 0 < span) (hdvd : span * 64 ∣ 2 ^ 32)
    (hle : span ≤ ms) (hindex : index % 64 = c % 64) :
    u32 (ms - span + index * span) / span % 64 = (c + (ms / span - 1)) % 64 := by
  obtain ⟨d, rfl⟩ := Nat.exists_eq_add_of_le hle
  have hq : (span + d) / span - 1 = d / span := by
    rw [Nat.add_div_left d hspan, Nat.succ_sub_one]
  have hu : u32 (span + d - span + index * span) / span % 64 = (d / span + index) % 64 := by
    rw [Nat.add_sub_cancel_left, u32, ← Nat.mod_mul_right_div_self, Nat.mod_mod_of_dvd _ hdvd,
      Nat.mod_mul_right_div_self, Nat.add_mul_div_right _ _ hspan]
  rw [hu, hq, Nat.add_comm c, Nat.add_mod, hindex, ← Nat.add_mod]

theorem and_wheelMask1 (x : ℕ) : x &&& wheelMask1 = x % 256 :=
  Nat.and_two_pow_sub_one_eq_mod x 8

theorem and_wheelMask2 (x : ℕ) : x &&& wheelMask2 = x % 64 :=
  Nat.and_two_pow_sub_one_eq_mod x 6

theorem chooseSpoke_first {s : State} {ms : ℕ} (h : ms < wheelSpan 1) :
    chooseSpoke s ms = (0, (ms + s.index 0) % 256) := by
  have h0 : ms < wheelSize1 := h
  simp only [chooseSpoke, granularity, Nat.div_one, if_pos h0, and_wheelMask1, u32]
  rw [Nat.mod_mod_of_dvd _ (by decide)]

/-- The four upper wheels differ only in their span. -/
theorem chooseSpoke_upper {s : State} {k ms : ℕ} (hk : 1 ≤ k) (hk5 : k < wheelNum)
    (hle : wheelSpan k ≤ ms) (hlt : ms < wheelSpan (k + 1)) :
    chooseSpoke s ms =
      (k, u32 (ms - wheelSpan k + s.index k * wheelSpan k) / wheelSpan k % 64) := by
  have hspan : wheelSpan 1 = 256 ∧ wheelSpan 2 = 16384 ∧ wheelSpan 3 = 1048576 ∧
      wheelSpan 4 = 67108864 := by decide
  obtain ⟨h1, h2, h3, h4⟩ := hspan
  simp only [chooseSpoke, granularity, Nat.div_one, and_wheelMask2, Nat.shiftRight_eq_div_pow,
    wheelSize1, wheelBits1, wheelBits2, Nat.reduceShiftLeft, Nat.reduceMul, Nat.reduceAdd,
    Nat.reducePow]
  have hcases : k = 1 ∨ k = 2 ∨ k = 3 ∨ k = 4 := by simp only [wheelNum] at hk5; omega
  rcases hcases with rfl | rfl | rfl | rfl
  · rw [h1] at hle ⊢
    rw [h2] at hlt
    rw [if_neg (by omega), if_pos hlt]
  · rw [h2] at hle ⊢
    rw [h3] at hlt
    rw [if_neg (by omega), if_neg (by omega), if_pos hlt]
  · rw [h3] at hle ⊢
    rw [h4] at hlt
    rw [if_neg (by omega), if_neg (by omega), if_neg (by omega), if_pos hlt]
  · rw [h4] at hle ⊢
    rw [if_neg (by omega), if_neg (by omega), if_neg (by omega), if_neg (by omega)]

/-- Every delay that fits the wheels falls between the spans of two neighbouring ones. -/
theorem exists_wheel {m ms : ℕ} (hm : 0 < m) (hms : ms < wheelSpan m) :
    ∃ k < m, ms < wheelSpan (k + 1) ∧ (k = 0 ∨ wheelSpan k ≤ ms) := by
  induction m with
  | zero => omega
  | succ m ih =>
      rcases Nat.eq_zero_or_pos m with rfl | hpos
      · exact ⟨0, Nat.one_pos, hms, Or.inl rfl⟩
      · by_cases h : ms < wheelSpan m
        · obtain ⟨k, hk, hlt, hle⟩ := ih hpos h
          exact ⟨k, by omega, hlt, hle⟩
        · exact ⟨m, by omega, hms, Or.inr (Nat.le_of_not_lt h)⟩

/-- A delay below the span of wheel `m` goes to a wheel below `m`, into a slot that is open there
and is served no later than the delay asks; in wheel 0 it is served exactly then, in an upper wheel
at
least one tick before. Only the wheels below `m` need to stand at position `p`. -/
theorem chooseSpoke_spec {s : State} {c : ℕ → ℕ} {m p ms : ℕ} (hm0 : 0 < m) (hm : m ≤ wheelNum)
    (hindex : ∀ k < m, s.index k % wheelSize k = c k % wheelSize k)
    (hturns : ∀ k < m, c k = p / wheelSpan k) (hms : ms < wheelSpan m) :
    ∃ k q, k < m ∧ chooseSpoke s ms = (k, q % wheelSize k) ∧ Open (wheelSize k) (c k) q ∧
      (q + 1) * wheelSpan k ≤ p + ms + 1 ∧ ms < wheelSpan (k + 1) ∧ (k = 0 → q = p + ms) ∧
      (0 < k → (q + 1) * wheelSpan k ≤ p + ms) := by
  obtain ⟨k, hk, hlt, hle⟩ := exists_wheel hm0 hms
  have hindex := hindex k hk
  have hturns := hturns k hk
  rcases Nat.eq_zero_or_pos k with rfl | hk1
  · have hc : c 0 = p := by rw [hturns]; exact Nat.div_one p
    have hsize : wheelSize 0 = 256 := rfl
    refine ⟨0, p + ms, hk, ?_, ?_, ?_, hlt, fun _ => rfl, fun h => absurd h (Nat.lt_irrefl 0)⟩
    · rw [hsize, hc] at hindex
      rw [chooseSpoke_first hlt, hsize, Nat.add_comm p, Nat.add_mod, hindex, ← Nat.add_mod]
    · rw [hc]
      exact Open.of_offset p hlt
    · show (p + ms + 1) * 1 ≤ p + ms + 1
      omega
  · have hle : wheelSpan k ≤ ms := hle.resolve_left (by omega)
    have hsize : wheelSize k = 64 := by rw [wheelSize, if_neg (by omega)]; rfl
    have hdvd : wheelSpan k * 64 ∣ 2 ^ 32 := by
      have h5 : k < 5 := Nat.lt_of_lt_of_le hk hm
      interval_cases k <;> decide
    have hone : 1 ≤ ms / wheelSpan k := (Nat.one_le_div_iff (wheelSpan_pos k)).mpr hle
    have hturn : ms / wheelSpan k < 64 := by
      rw [Nat.div_lt_iff_lt_mul (wheelSpan_pos k), Nat.mul_comm, ← hsize, ← wheelSpan_succ]
      exact hlt
    have hserved : (c k + (ms / wheelSpan k - 1) + 1) * wheelSpan k ≤ p + ms := by
      have hsum : c k + (ms / wheelSpan k - 1) + 1 = p / wheelSpan k + ms / wheelSpan k := by
        rw [← hturns]; omega
      rw [hsum]
      exact rounded_le (wheelSpan k) p ms
    refine ⟨k, c k + (ms / wheelSpan k - 1), hk, ?_, ?_, Nat.le_succ_of_le hserved, hlt,
      fun h => by omega, fun _ => hserved⟩
    · rw [hsize] at hindex
      rw [chooseSpoke_upper hk1 (Nat.lt_of_lt_of_le hk hm) hle hlt, hsize,
        spoke_of_delay (wheelSpan_pos k) hdvd hle hindex]
    · rw [hsize]
      exact Open.of_offset _ (by omega)

end CoreLooper.TimerManager
