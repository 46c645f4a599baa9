import Mathlib

/-!
# Absolute slot numbers of a rotating wheel

A wheel has `size` spokes, each standing for `span` ticks. After `c` turns by one
spoke the next spoke to be served is `c % size`. Instead of spokes we number slots
absolutely: slot `q` lies in spoke `q % size` and is served by the turn from `q` to
`q + 1`, that is when the position reaches `(q + 1) * span`. At every moment the
wheel holds the `size` slots that are open; a spoke then determines its slot.
-/
namespace CoreLooper.WheelSlots

/-- The slots a wheel of `size` spokes holds after `c` turns. -/
def Open (size c q : ℕ) : Prop := c ≤ q ∧ q < c + size

theorem Open.of_offset {size d : ℕ} (c : ℕ) (hd : d < size) : Open size c (c + d) :=
  ⟨Nat.le_add_right c d, Nat.add_lt_add_left hd c⟩

/-- The spoke of an open slot is served next only when the slot itself is. -/
theorem Open.eq_of_mod_eq {size c q : ℕ} (h : Open size c q) (hm : q % size = c % size) :
    q = c := by
  obtain ⟨hcq, hq⟩ := h
  obtain ⟨d, rfl⟩ := Nat.exists_eq_add_of_le hcq
  have hd : d < size := by omega
  have hz : d % size = 0 % size := by
    have := (Nat.ModEq.add_left_cancel' c (show c + d ≡ c + 0 [MOD size] from hm))
    exact this
  rw [Nat.mod_eq_of_lt hd, Nat.zero_mod] at hz
  omega

/-- Two open slots of one spoke are the same. -/
theorem Open.inj {size c q q' : ℕ} (h : Open size c q) (h' : Open size c q')
    (hm : q % size = q' % size) : q = q' := by
  obtain ⟨hcq, hq⟩ := h
  obtain ⟨hcq', hq'⟩ := h'
  rcases Nat.le_total q q' with hle | hle
  · exact (Open.eq_of_mod_eq (c := q) ⟨hle, by omega⟩ hm.symm).symm
  · exact Open.eq_of_mod_eq (c := q') ⟨hle, by omega⟩ hm

theorem Open.turn {size c q : ℕ} (h : Open size c q) (hne : q ≠ c) : Open size (c + 1) q := by
  obtain ⟨hcq, hq⟩ := h
  exact ⟨by omega, by omega⟩

/-- Moving the position on by one tick turns a wheel exactly at the multiples of its span. -/
theorem turns_succ_of_dvd {span p : ℕ} (h : span ∣ p + 1) : (p + 1) / span = p / span + 1 := by
  rw [Nat.succ_div, if_pos h]

theorem turns_succ_of_not_dvd {span p : ℕ} (h : ¬ span ∣ p + 1) : (p + 1) / span = p / span := by
  rw [Nat.succ_div, if_neg h, Nat.add_zero]

/-- The slot served by a turn is served at the position just reached. -/
theorem served_position {span p : ℕ} (h : span ∣ p + 1) : (p / span + 1) * span = p + 1 := by
  rw [← turns_succ_of_dvd h, Nat.div_mul_cancel h]

/-- A delay of `m` ticks rounded down to whole turns is served no later than `p + m`. -/
theorem rounded_le (span p m : ℕ) : (p / span + m / span) * span ≤ p + m := by
  rw [Nat.add_mul]
  exact Nat.add_le_add (Nat.div_mul_le_self p span) (Nat.div_mul_le_self m span)

/-- A slot that is still open has not been served by position `p`. -/
theorem Open.served_after {size span p q : ℕ} (hspan : 0 < span)
    (h : Open size (p / span) q) : p + 1 ≤ (q + 1) * span :=
  (Nat.div_lt_iff_lt_mul hspan).mp (Nat.lt_succ_of_le h.1)

end CoreLooper.WheelSlots
