import Mathlib

/-!
# The Gregorian calendar

Dates from the year 0 on, their count in days and their order. Years and months are runs of
days that follow one another, so every count is a sum of lengths and an offset in the last run.
-/
namespace CoreLooper.Gregorian
open Finset

theorem offset_lt {len : ℕ → ℕ} {m n r : ℕ} (hmn : m < n) (hr : r < len m) :
    ∑ i ∈ range m, len i + r < ∑ i ∈ range n, len i := by
  have hle : ∑ i ∈ range (m + 1), len i ≤ ∑ i ∈ range n, len i := by
    apply sum_le_sum_of_subset
    exact range_subset_range.mpr hmn
  rw [sum_range_succ] at hle
  omega

def IsLeap (y : ℕ) : Prop := y % 4 = 0 ∧ (y % 100 ≠ 0 ∨ y % 400 = 0)

instance (y : ℕ) : Decidable (IsLeap y) := by unfold IsLeap; infer_instance

def yearLength (y : ℕ) : ℕ := if IsLeap y then 366 else 365

/-- Months are counted from 1. -/
def monthLength (y m : ℕ) : ℕ :=
  if m = 2 then if IsLeap y then 29 else 28
  else if m = 4 ∨ m = 6 ∨ m = 9 ∨ m = 11 then 30 else 31

def daysBeforeYear (y : ℕ) : ℕ := ∑ i ∈ range y, yearLength i

def daysBeforeMonth (y m : ℕ) : ℕ := ∑ i ∈ range (m - 1), monthLength y (i + 1)

theorem daysBeforeYear_succ (y : ℕ) :
    daysBeforeYear (y + 1) = daysBeforeYear y + yearLength y :=
  sum_range_succ _ _

theorem daysBeforeMonth_succ (y : ℕ) {m : ℕ} (h : 1 ≤ m) :
    daysBeforeMonth y (m + 1) = daysBeforeMonth y m + monthLength y m := by
  obtain ⟨m, rfl⟩ := Nat.exists_eq_add_of_le' h
  exact sum_range_succ _ _

theorem months_fill_year (y : ℕ) : daysBeforeMonth y 13 = yearLength y := by
  by_cases h : IsLeap y <;> simp [daysBeforeMonth, sum_range_succ, monthLength, yearLength, h]

theorem yearLength_bounds (y : ℕ) : 365 ≤ yearLength y ∧ yearLength y ≤ 366 := by
  unfold yearLength
  split <;> omega

theorem monthLength_bounds (y m : ℕ) : 28 ≤ monthLength y m ∧ monthLength y m ≤ 31 := by
  unfold monthLength
  split_ifs <;> omega

theorem daysBeforeYear_mono {y z : ℕ} (h : y ≤ z) : daysBeforeYear y ≤ daysBeforeYear z := by
  apply sum_le_sum_of_subset
  exact range_subset_range.mpr h

theorem daysBeforeYear_le (y : ℕ) : daysBeforeYear y ≤ 366 * y := by
  induction y with
  | zero => simp [daysBeforeYear]
  | succ y ih =>
      have := (yearLength_bounds y).2
      rw [daysBeforeYear_succ]
      omega

/-- The leap years are every fourth, without every hundredth, with every four-hundredth. -/
theorem daysBeforeYear_closed (y : ℕ) :
    daysBeforeYear y + y / 100 + (if IsLeap y then 1 else 0)
      = 365 * y + y / 4 + y / 400 + 1 := by
  induction y with
  | zero => simp [daysBeforeYear, IsLeap]
  | succ y ih =>
      rw [daysBeforeYear_succ, yearLength]
      by_cases h : IsLeap y <;> by_cases h' : IsLeap (y + 1) <;>
        simp only [h, h', if_true, if_false] at ih ⊢ <;>
        simp only [IsLeap] at h h' <;> omega

structure Date where
  year : ℕ
  month : ℕ
  day : ℕ
  month_pos : 1 ≤ month
  month_le : month ≤ 12
  day_pos : 1 ≤ day
  day_le : day ≤ monthLength year month

namespace Date

theorem ext_fields {a b : Date} (hy : a.year = b.year) (hm : a.month = b.month)
    (hd : a.day = b.day) : a = b := by
  cases a
  cases b
  simp_all

instance : DecidableEq Date := fun a b =>
  decidable_of_iff (a.year = b.year ∧ a.month = b.month ∧ a.day = b.day)
    ⟨fun h => ext_fields h.1 h.2.1 h.2.2, fun h => h ▸ ⟨rfl, rfl, rfl⟩⟩

def dayOfYear (d : Date) : ℕ := daysBeforeMonth d.year d.month + (d.day - 1)

/-- The days from the first day of the year 0. -/
def dayNumber (d : Date) : ℕ := daysBeforeYear d.year + d.dayOfYear

/-- The order of the calendar: by year, then by month, then by day. -/
def Before (a b : Date) : Prop :=
  a.year < b.year ∨ a.year = b.year ∧ (a.month < b.month ∨ a.month = b.month ∧ a.day < b.day)

theorem dayOfYear_lt (d : Date) : d.dayOfYear < yearLength d.year := by
  have h := @offset_lt (fun i => monthLength d.year (i + 1)) (d.month - 1) 12
    (d.day - 1) (by have := d.month_le; have := d.month_pos; omega) (by
      have := d.day_le
      have := d.day_pos
      have hm : d.month - 1 + 1 = d.month := by have := d.month_pos; omega
      simp only [hm]
      omega)
  rw [← months_fill_year]
  exact h

theorem before_trichotomy (a b : Date) : a.Before b ∨ a = b ∨ b.Before a := by
  by_cases hy : a.year = b.year
  · by_cases hm : a.month = b.month
    · by_cases hd : a.day = b.day
      · exact Or.inr (Or.inl (ext_fields hy hm hd))
      · simp only [Before]
        omega
    · simp only [Before]
      omega
  · simp only [Before]
    omega

theorem dayNumber_lt {a b : Date} (h : a.Before b) : a.dayNumber < b.dayNumber := by
  rcases h with hy | ⟨hy, hm | ⟨hm, hd⟩⟩
  · have hlt : a.dayNumber < daysBeforeYear b.year := offset_lt hy a.dayOfYear_lt
    exact lt_of_lt_of_le hlt (Nat.le_add_right _ _)
  · have hlt := @offset_lt (fun i => monthLength a.year (i + 1)) (a.month - 1)
      (b.month - 1) (a.day - 1) (by have := a.month_pos; omega) (by
        have := a.day_le
        have := a.day_pos
        have hm : a.month - 1 + 1 = a.month := by have := a.month_pos; omega
        simp only [hm]
        omega)
    have hbefore : a.dayOfYear < daysBeforeMonth a.year b.month := hlt
    simp only [dayNumber, dayOfYear, ← hy] at hbefore ⊢
    omega
  · have := a.day_pos
    simp only [dayNumber, dayOfYear, hy, hm]
    omega

theorem dayNumber_injective {a b : Date} (h : a.dayNumber = b.dayNumber) : a = b := by
  rcases before_trichotomy a b with hlt | heq | hlt
  · have := dayNumber_lt hlt
    omega
  · exact heq
  · have := dayNumber_lt hlt
    omega

theorem dayNumber_lt_iff {a b : Date} : a.dayNumber < b.dayNumber ↔ a.Before b := by
  constructor
  · intro h
    rcases before_trichotomy a b with hlt | heq | hlt
    · exact hlt
    · rw [heq] at h
      omega
    · have := dayNumber_lt hlt
      omega
  · exact dayNumber_lt

theorem dayNumber_bound {d : Date} {bound : ℕ} (h : d.year < bound) :
    d.dayNumber < daysBeforeYear bound :=
  offset_lt h d.dayOfYear_lt

def next (d : Date) : Date :=
  if hd : d.day < monthLength d.year d.month then
    { d with day := d.day + 1, day_pos := Nat.le_add_left 1 d.day, day_le := hd }
  else if hm : d.month < 12 then
    ⟨d.year, d.month + 1, 1, Nat.le_add_left 1 d.month, hm, Nat.le_refl 1,
      Nat.le_trans (by decide) (monthLength_bounds _ _).1⟩
  else
    ⟨d.year + 1, 1, 1, Nat.le_refl 1, by decide, Nat.le_refl 1,
      Nat.le_trans (by decide) (monthLength_bounds _ _).1⟩

theorem dayNumber_next (d : Date) : d.next.dayNumber = d.dayNumber + 1 := by
  have hpos := d.day_pos
  have hmonth := d.month_pos
  unfold next
  split_ifs with hd hm
  · simp only [dayNumber, dayOfYear]
    omega
  · have hday : d.day = monthLength d.year d.month := by
      have := d.day_le
      omega
    simp only [dayNumber, dayOfYear, daysBeforeMonth_succ d.year hmonth]
    omega
  · have hday : d.day = monthLength d.year d.month := by
      have := d.day_le
      omega
    have hlast : d.month = 12 := by
      have := d.month_le
      omega
    have hyear : daysBeforeMonth d.year 12 + monthLength d.year 12 = yearLength d.year := by
      rw [← months_fill_year]
      exact (daysBeforeMonth_succ d.year (by decide)).symm
    have hfirst : daysBeforeMonth (d.year + 1) 1 = 0 := by simp [daysBeforeMonth]
    rw [hlast] at hday
    simp only [dayNumber, dayOfYear, daysBeforeYear_succ, hlast, hfirst]
    omega

theorem dayNumber_iterate (d : Date) (n : ℕ) : (next^[n] d).dayNumber = d.dayNumber + n := by
  induction n with
  | zero => rfl
  | succ n ih =>
      rw [Function.iterate_succ_apply', dayNumber_next, ih]
      omega

/-- The difference of the counts is the number of steps from one date to the other. -/
theorem iterate_eq_iff (a b : Date) (n : ℕ) :
    next^[n] b = a ↔ a.dayNumber = b.dayNumber + n := by
  constructor
  · intro h
    rw [← h, dayNumber_iterate]
  · intro h
    apply dayNumber_injective
    rw [dayNumber_iterate, h]

end Date

structure Moment extends Date where
  hour : ℕ
  minute : ℕ
  second : ℕ
  hour_lt : hour < 24
  minute_lt : minute < 60
  second_lt : second < 60

namespace Moment

def secondOfDay (m : Moment) : ℕ := (m.hour * 60 + m.minute) * 60 + m.second

/-- The seconds from the beginning of the year 0. -/
def seconds (m : Moment) : ℕ := 86400 * m.toDate.dayNumber + m.secondOfDay

/-- From the greatest unit to the smallest. -/
def fields (m : Moment) : List ℕ := [m.year, m.month, m.day, m.hour, m.minute, m.second]

theorem secondOfDay_lt (m : Moment) : m.secondOfDay < 86400 := by
  have := m.hour_lt
  have := m.minute_lt
  have := m.second_lt
  simp only [secondOfDay]
  omega

theorem ext_fields {m n : Moment} (hdate : m.toDate = n.toDate) (hh : m.hour = n.hour)
    (hm : m.minute = n.minute) (hs : m.second = n.second) : m = n := by
  cases m
  cases n
  simp_all

theorem fields_lt_iff (m n : Moment) :
    m.fields < n.fields ↔ m.toDate.Before n.toDate ∨ m.toDate = n.toDate ∧
      (m.hour < n.hour ∨ m.hour = n.hour ∧
        (m.minute < n.minute ∨ m.minute = n.minute ∧ m.second < n.second)) := by
  have heq : m.toDate = n.toDate ↔ m.year = n.year ∧ m.month = n.month ∧ m.day = n.day :=
    ⟨fun h => h ▸ ⟨rfl, rfl, rfl⟩, fun h => Date.ext_fields h.1 h.2.1 h.2.2⟩
  simp only [fields, List.cons_lt_cons_iff, List.not_lt_nil, and_false, or_false, Date.Before, heq]
  tauto

theorem seconds_lt_iff (m n : Moment) : m.seconds < n.seconds ↔ m.fields < n.fields := by
  have hm := m.secondOfDay_lt
  have hn := n.secondOfDay_lt
  have hsame : m.secondOfDay < n.secondOfDay ↔ (m.hour < n.hour ∨ m.hour = n.hour ∧
      (m.minute < n.minute ∨ m.minute = n.minute ∧ m.second < n.second)) := by
    have := m.minute_lt
    have := n.minute_lt
    have := m.second_lt
    have := n.second_lt
    simp only [secondOfDay]
    omega
  have heq : m.toDate = n.toDate ↔ m.toDate.dayNumber = n.toDate.dayNumber :=
    ⟨fun h => by rw [h], Date.dayNumber_injective⟩
  rw [fields_lt_iff, ← hsame, ← Date.dayNumber_lt_iff, heq]
  simp only [seconds]
  omega

theorem seconds_injective {m n : Moment} (h : m.seconds = n.seconds) : m = n := by
  have hm := m.secondOfDay_lt
  have hn := n.secondOfDay_lt
  have := m.minute_lt
  have := n.minute_lt
  have := m.second_lt
  have := n.second_lt
  simp only [seconds] at h
  have hday : m.toDate.dayNumber = n.toDate.dayNumber := by omega
  have hsecond : m.secondOfDay = n.secondOfDay := by omega
  simp only [secondOfDay] at hsecond
  apply ext_fields (Date.dayNumber_injective hday) <;> omega

end Moment
end CoreLooper.Gregorian
