import CoreLooper.CStrings
import CoreLooper.Gregorian

/-!
# Calendar time

`DateTime` counts seconds from 1970 for a zone ahead of Greenwich and takes the count apart
again, with its own leap-year arithmetic in each direction.
-/
namespace CoreLooper.DateTime
open CStrings Gregorian

/-- The fields of `struct tm` that are read and written here. -/
structure Tm where
  tm_sec : ℤ
  tm_min : ℤ
  tm_hour : ℤ
  tm_mday : ℤ
  tm_mon : ℤ
  tm_year : ℤ
deriving DecidableEq

def gGmtSecondOffset : ℤ := 8 * 3600

def mon_list : List ℤ := [31, 28, 31, 30, 31, 30, 31, 31, 30, 31, 30, 31]

def leap_mon_list : List ℤ := [31, 29, 31, 30, 31, 30, 31, 31, 30, 31, 30, 31]

/-- The condition that both functions write out for themselves. -/
def leapTest (tm_year : ℤ) : Prop :=
  tm_year.tmod 4 = 0 ∧ (tm_year.tmod 100 ≠ 0 ∨ tm_year.tmod 400 = 0)

instance (tm_year : ℤ) : Decidable (leapTest tm_year) := by unfold leapTest; infer_instance

def pDays (tm_year : ℤ) : List ℤ := if leapTest tm_year then leap_mon_list else mon_list

/-- The count of seconds, and the fields as the call leaves them: the year and the month are
not set back. -/
def mktime (pT : Tm) : ℤ × Tm :=
  let year := i32 (pT.tm_year + 1900)
  let mon := i32 (pT.tm_mon + 1)
  let tmp := (year.tdiv 4 - year.tdiv 100 + year.tdiv 400) - (1970 / 4 - 1970 / 100 + 1970 / 400)
  let tmp :=
    if leapTest year then tmp - 1 + i32 (i32 (year - 1970) * 365)
    else tmp + i32 (i32 (year - 1970) * 365)
  let tmp := tmp + ((pDays year).take (mon - 1).toNat).sum
  let tmp := tmp + pT.tm_mday - 1
  let tmp := tmp * 24 + pT.tm_hour
  let tmp := tmp * 60 + pT.tm_min
  let tmp := tmp * 60 + pT.tm_sec
  (tmp - gGmtSecondOffset, { pT with tm_year := year, tm_mon := mon })

/-- The year to begin with, and the seconds behind its beginning. -/
def initialYear (tim : ℤ) : ℤ × ℤ :=
  if 0x5685C180 ≤ tim then (tim - 0x5685C180, 2016)
  else if 0x4B3D3B00 ≤ tim then (tim - 0x4B3D3B00, 2010)
  else if 0x386D4380 ≤ tim then (tim - 0x386D4380, 2000)
  else (tim, 1970)

def yearLoop (tim tm_year : ℤ) : ℤ × ℤ :=
  if 366 * 24 * 60 * 60 ≤ tim then
    yearLoop (if leapTest tm_year then tim - 366 * 24 * 60 * 60 else tim - 365 * 24 * 60 * 60)
      (i32 (tm_year + 1))
  else (tim, tm_year)
termination_by tim.toNat
decreasing_by split <;> omega

/-- The loop leaves up to 366 days, which is a day too much for most years. -/
def lastYear (tim tm_year : ℤ) : ℤ × ℤ :=
  if ¬ leapTest tm_year ∧ 365 * 24 * 60 * 60 ≤ tim then
    (tim - 365 * 24 * 60 * 60, i32 (tm_year + 1))
  else (tim, tm_year)

/-- No value when the loop would read behind the table. -/
def monthLoop : List ℤ → ℤ → ℤ → Option (ℤ × ℤ)
  | [], _, _ => none
  | days :: pDays, tim, tm_mon =>
      if days * 24 * 60 * 60 ≤ tim then monthLoop pDays (tim - days * 24 * 60 * 60) (tm_mon + 1)
      else some (tim, tm_mon)

def localtime (tim : ℤ) : Option Tm := do
  let (tim, year) := initialYear (tim + gGmtSecondOffset)
  let (tim, year) := yearLoop tim year
  let (tim, year) := lastYear tim year
  let (tim, mon) ← monthLoop (pDays year) tim 0
  let mday := i32 (tim.tdiv (24 * 60 * 60) + 1)
  let tim := tim.tmod (24 * 60 * 60)
  let hour := i32 (tim.tdiv (60 * 60))
  let tim := tim.tmod (60 * 60)
  let min := i32 (tim.tdiv 60)
  let tim := tim.tmod 60
  some ⟨i32 tim, min, hour, mday, mon, i32 (year - 1900)⟩

/-- The days by which the first is later; both are copied, so neither is changed. -/
def spanDays (tm1 tm2 : Tm) : ℤ :=
  i32 (((mktime tm1).1 - (mktime tm2).1).tdiv (3600 * 24))

structure TagTimeMs where
  year : ℤ
  month : ℤ
  day : ℤ
  hour : ℤ
  minute : ℤ
  second : ℤ
  ms : ℤ
deriving DecidableEq

/-- Only the date goes into the count. -/
def TagTimeMs.laterDays (self obj : TagTimeMs) : ℤ :=
  spanDays ⟨0, 0, 0, self.day, i32 (self.month - 1), i32 (self.year - 1900)⟩
    ⟨0, 0, 0, obj.day, i32 (obj.month - 1), i32 (obj.year - 1900)⟩

theorem leapTest_iff (y : ℕ) : leapTest y ↔ IsLeap y := by
  have h4 : (y : ℤ).tmod 4 = (y % 4 : ℕ) := Int.tmod_eq_emod_of_nonneg (Int.natCast_nonneg y)
  have h100 : (y : ℤ).tmod 100 = (y % 100 : ℕ) := Int.tmod_eq_emod_of_nonneg (Int.natCast_nonneg y)
  have h400 : (y : ℤ).tmod 400 = (y % 400 : ℕ) := Int.tmod_eq_emod_of_nonneg (Int.natCast_nonneg y)
  rw [leapTest, IsLeap, h4, h100, h400]
  omega

theorem pDays_eq (y : ℕ) :
    pDays y = (List.range 12).map fun i => (monthLength y (i + 1) : ℤ) := by
  simp only [pDays, leapTest_iff]
  by_cases h : IsLeap y <;> simp [h, monthLength, List.range_succ, leap_mon_list, mon_list]

theorem sum_take_range (len : ℕ → ℕ) {k n : ℕ} (h : k ≤ n) :
    (((List.range n).map fun i => (len i : ℤ)).take k).sum = ∑ i ∈ Finset.range k, len i := by
  rw [← List.map_take, List.take_range, Nat.min_eq_left h]
  induction k with
  | zero => simp
  | succ k ih =>
      rw [List.range_succ, List.map_append, List.sum_append, ih (by omega), Finset.sum_range_succ]
      simp

/-- The fields of a moment of the calendar. -/
def ofMoment (m : Moment) : Tm :=
  ⟨m.second, m.minute, m.hour, m.day, m.month - 1, m.year - 1900⟩

theorem daysBeforeYear_1970 : daysBeforeYear 1970 = 719528 := by
  have h := daysBeforeYear_closed 1970
  have hno : ¬ IsLeap 1970 := by decide
  rw [if_neg hno] at h
  omega

theorem mktime_ofMoment (m : Moment) (hyear : m.year < 1000000) :
    (mktime (ofMoment m)).1 = m.seconds - 86400 * daysBeforeYear 1970 - gGmtSecondOffset := by
  have hm1 := m.month_pos
  have hm12 := m.month_le
  have hd := m.day_pos
  have hy : i32 ((ofMoment m).tm_year + 1900) = m.year := by
    rw [i32_eq] <;> simp only [ofMoment] <;> omega
  have hmon : (i32 ((ofMoment m).tm_mon + 1) - 1).toNat = m.month - 1 := by
    rw [i32_eq] <;> simp only [ofMoment] <;> omega
  have hproduct : i32 (i32 ((m.year : ℤ) - 1970) * 365) = ((m.year : ℤ) - 1970) * 365 := by
    rw [i32_eq (x := (m.year : ℤ) - 1970) (by omega) (by omega), i32_eq (by omega) (by omega)]
  have hsum : ((pDays m.year).take (m.month - 1)).sum = daysBeforeMonth m.year m.month := by
    rw [pDays_eq]
    exact sum_take_range (fun i => monthLength m.year (i + 1)) (by omega)
  have hclosed := daysBeforeYear_closed m.year
  simp only [mktime, hy, hmon, hproduct, hsum, leapTest_iff, Int.tdiv_eq_ediv_of_nonneg,
    Int.natCast_nonneg, daysBeforeYear_1970]
  simp only [ofMoment, Moment.seconds, Moment.secondOfDay, Date.dayNumber, Date.dayOfYear]
  by_cases hleap : IsLeap m.year <;> simp only [hleap, if_true, if_false] at hclosed ⊢ <;> omega

theorem mktime_lt_iff {m n : Moment} (hm : m.year < 1000000) (hn : n.year < 1000000) :
    (mktime (ofMoment m)).1 < (mktime (ofMoment n)).1 ↔ m.fields < n.fields := by
  rw [mktime_ofMoment m hm, mktime_ofMoment n hn, ← Moment.seconds_lt_iff]
  omega

theorem year_of_bound {year bound : ℕ} {tim : ℤ} (h0 : 0 ≤ tim)
    (h : 86400 * (daysBeforeYear year : ℤ) + tim < 86400 * daysBeforeYear bound) :
      year < bound := by
  by_contra hge
  have := daysBeforeYear_mono (Nat.le_of_not_lt hge)
  omega

/-- The count stands for a year and the seconds in it, wherever the year loop is. -/
theorem yearLoop_offset {bound : ℕ} (hb : bound ≤ 1000000) (tim : ℤ) (year : ℕ) (h0 : 0 ≤ tim)
    (hbound : 86400 * (daysBeforeYear year : ℤ) + tim < 86400 * daysBeforeYear bound) :
    ∃ last : ℕ, ∃ rest : ℤ, year ≤ last ∧ 0 ≤ rest ∧ rest < 366 * 86400 ∧
      86400 * (daysBeforeYear year : ℤ) + tim = 86400 * daysBeforeYear last + rest ∧
      yearLoop tim year = (rest, (last : ℤ)) := by
  induction h : tim.toNat using Nat.strong_induction_on generalizing tim year with
  | _ n ih =>
      rw [yearLoop]
      by_cases hmore : 366 * 24 * 60 * 60 ≤ tim
      · have hlt := year_of_bound h0 hbound
        have hnext : i32 ((year : ℤ) + 1) = (year + 1 : ℕ) := by
          rw [i32_eq] <;> omega
        have hlength := daysBeforeYear_succ year
        have hstep : (if leapTest year then tim - 366 * 24 * 60 * 60
            else tim - 365 * 24 * 60 * 60) = tim - 86400 * yearLength year := by
          simp only [leapTest_iff, yearLength]
          split <;> omega
        have hlong := (yearLength_bounds year).2
        have hshort := (yearLength_bounds year).1
        obtain ⟨last, rest, hle, hr0, hr, heq, hloop⟩ := ih _ (by omega)
          (tim - 86400 * yearLength year) (year + 1) (by omega) (by omega) rfl
        rw [if_pos hmore, hstep, hnext]
        exact ⟨last, rest, by omega, hr0, hr, by omega, hloop⟩
      · rw [if_neg hmore]
        exact ⟨year, tim, le_refl _, h0, by omega, rfl, rfl⟩

theorem initialYear_offset {tim : ℤ} (h0 : 0 ≤ tim) :
    ∃ year : ℕ, ∃ rest : ℤ, 1970 ≤ year ∧ 0 ≤ rest ∧
      86400 * (daysBeforeYear 1970 : ℤ) + tim = 86400 * daysBeforeYear year + rest ∧
      initialYear tim = (rest, (year : ℤ)) := by
  have h2000 := daysBeforeYear_closed 2000
  have h2010 := daysBeforeYear_closed 2010
  have h2016 := daysBeforeYear_closed 2016
  rw [if_pos (by decide)] at h2000 h2016
  rw [if_neg (by decide)] at h2010
  rw [daysBeforeYear_1970, initialYear]
  split_ifs with ha hb hc
  · exact ⟨2016, _, by omega, by omega, by omega, rfl⟩
  · exact ⟨2010, _, by omega, by omega, by omega, rfl⟩
  · exact ⟨2000, _, by omega, by omega, by omega, rfl⟩
  · exact ⟨1970, _, by omega, by omega, by rw [daysBeforeYear_1970], rfl⟩

theorem lastYear_offset {tim : ℤ} {year : ℕ} (h0 : 0 ≤ tim) (h : tim < 366 * 86400)
    (hyear : year < 1000000) :
    ∃ last : ℕ, ∃ rest : ℤ, year ≤ last ∧ 0 ≤ rest ∧ rest < 86400 * yearLength last ∧
      86400 * (daysBeforeYear year : ℤ) + tim = 86400 * daysBeforeYear last + rest ∧
      lastYear tim year = (rest, (last : ℤ)) := by
  have hlength := daysBeforeYear_succ year
  have hshort := (yearLength_bounds (year + 1)).1
  have hnext : i32 ((year : ℤ) + 1) = (year + 1 : ℕ) := by
    rw [i32_eq] <;> omega
  simp only [lastYear, leapTest_iff, hnext]
  by_cases hleap : IsLeap year
  · have : yearLength year = 366 := if_pos hleap
    rw [if_neg (fun h => h.1 hleap)]
    exact ⟨year, tim, le_refl _, h0, by omega, rfl, rfl⟩
  · have : yearLength year = 365 := if_neg hleap
    by_cases hover : 365 * 24 * 60 * 60 ≤ tim
    · rw [if_pos ⟨hleap, hover⟩]
      exact ⟨year + 1, _, by omega, by omega, by omega, by omega, rfl⟩
    · rw [if_neg (fun h => hover h.2)]
      exact ⟨year, tim, le_refl _, h0, by omega, rfl, rfl⟩

/-- The table does not end before the month is found. -/
theorem monthLoop_offset (n : ℕ) (len : ℕ → ℕ) (tim mon : ℤ) (h0 : 0 ≤ tim)
    (h : tim < 86400 * (∑ i ∈ Finset.range n, len i : ℕ)) :
    ∃ i < n, ∃ rest : ℤ, 0 ≤ rest ∧ rest < 86400 * len i ∧
      tim = 86400 * (∑ j ∈ Finset.range i, len j : ℕ) + rest ∧
      monthLoop ((List.range n).map fun i => (len i : ℤ)) tim mon = some (rest, mon + i) := by
  induction n generalizing len tim mon with
  | zero => simp at h; omega
  | succ n ih =>
      rw [List.range_succ_eq_map, List.map_cons, List.map_map, monthLoop]
      by_cases hmore : (len 0 : ℤ) * 24 * 60 * 60 ≤ tim
      · rw [Finset.sum_range_succ'] at h
        obtain ⟨i, hi, rest, hr0, hr, heq, hloop⟩ := ih (fun i => len (i + 1))
          (tim - (len 0 : ℤ) * 24 * 60 * 60) (mon + 1) (by omega) (by omega)
        rw [if_pos hmore]
        refine ⟨i + 1, by omega, rest, hr0, hr, ?_, ?_⟩
        · rw [Finset.sum_range_succ']
          omega
        · rw [show mon + ((i + 1 : ℕ) : ℤ) = mon + 1 + i by omega]
          exact hloop
      · rw [if_neg hmore]
        exact ⟨0, by omega, tim, h0, by omega, by simp, by simp⟩

/-- What is left of a month is split into a day and a time of day. -/
theorem rest_fields {rest : ℤ} (h0 : 0 ≤ rest) (h : rest < 31 * 86400) :
    i32 (rest.tdiv (24 * 60 * 60) + 1) = rest / 86400 + 1 ∧
    i32 ((rest.tmod (24 * 60 * 60)).tdiv (60 * 60)) = rest % 86400 / 3600 ∧
    i32 (((rest.tmod (24 * 60 * 60)).tmod (60 * 60)).tdiv 60) = rest % 3600 / 60 ∧
    i32 (((rest.tmod (24 * 60 * 60)).tmod (60 * 60)).tmod 60) = rest % 60 := by
  have hday : rest.tmod (24 * 60 * 60) = rest % 86400 := Int.tmod_eq_emod_of_nonneg h0
  have hhour : (rest % 86400).tmod (60 * 60) = rest % 86400 % 3600 :=
    Int.tmod_eq_emod_of_nonneg (by omega)
  rw [hday, hhour, Int.tdiv_eq_ediv_of_nonneg h0, Int.tdiv_eq_ediv_of_nonneg (by omega),
    Int.tdiv_eq_ediv_of_nonneg (by omega), Int.tmod_eq_emod_of_nonneg (by omega)]
  refine ⟨?_, ?_, ?_, ?_⟩ <;> rw [i32_eq] <;> omega

/-- Every count from 1970 on is taken apart into the fields of the moment it stands for. -/
theorem localtime_moment {bound : ℕ} (hb : bound ≤ 1000000) {t : ℤ}
    (h0 : 0 ≤ t + gGmtSecondOffset)
    (hbound : 86400 * (daysBeforeYear 1970 : ℤ) + (t + gGmtSecondOffset)
      < 86400 * daysBeforeYear bound) :
    ∃ m : Moment, m.year < bound ∧ localtime t = some (ofMoment m) ∧
      (mktime (ofMoment m)).1 = t := by
  obtain ⟨year₀, rest₀, hle₀, hnn₀, heq₀, hrun₀⟩ := initialYear_offset h0
  obtain ⟨year₁, rest₁, hle₁, hnn₁, hlt₁, heq₁, hrun₁⟩ :=
    yearLoop_offset hb rest₀ year₀ hnn₀ (by omega)
  obtain ⟨year, rest₂, hle₂, hnn₂, hlt₂, heq₂, hrun₂⟩ :=
    lastYear_offset hnn₁ hlt₁ (lt_of_lt_of_le (year_of_bound hnn₁ (heq₁ ▸ heq₀ ▸ hbound)) hb)
  have hyear : year < bound := year_of_bound hnn₂ (heq₂ ▸ heq₁ ▸ heq₀ ▸ hbound)
  obtain ⟨i, hi, rest, hnn, hlt, heq, hrun⟩ := monthLoop_offset 12
    (fun i => monthLength year (i + 1)) rest₂ 0 hnn₂ (by
      have hfill : ∑ i ∈ Finset.range 12, monthLength year (i + 1) = yearLength year :=
        months_fill_year year
      rw [hfill]
      exact hlt₂)
  have hday : rest / 86400 < monthLength year (i + 1) := by omega
  have hlong := (monthLength_bounds year (i + 1)).2
  let m : Moment :=
    { year := year, month := i + 1, day := (rest / 86400).toNat + 1
      hour := (rest % 86400 / 3600).toNat, minute := (rest % 3600 / 60).toNat
      second := (rest % 60).toNat
      month_pos := by omega, month_le := by omega, day_pos := by omega, day_le := by omega
      hour_lt := by omega, minute_lt := by omega, second_lt := by omega }
  refine ⟨m, hyear, ?_, ?_⟩
  · have hmon : monthLoop (pDays year) rest₂ 0 = some (rest, 0 + (i : ℤ)) := by
      rw [pDays_eq]
      exact hrun
    simp only [localtime, hrun₀, hrun₁]
    rw [hrun₂]
    simp only [hmon, Option.bind_eq_bind, Option.bind_some]
    obtain ⟨hmday, hhour, hmin, hsec⟩ := rest_fields hnn (by omega)
    rw [hmday, hhour, hmin, hsec, i32_eq (x := (year : ℤ) - 1900) (by omega) (by omega)]
    simp only [ofMoment, m, Option.some.injEq, Tm.mk.injEq, and_true]
    omega
  · rw [mktime_ofMoment m (lt_of_lt_of_le hyear hb)]
    have hbefore : daysBeforeMonth year (i + 1)
        = ∑ j ∈ Finset.range i, monthLength year (j + 1) := rfl
    simp only [m, Moment.seconds, Moment.secondOfDay, Date.dayNumber, Date.dayOfYear, hbefore]
    omega

theorem localtime_mktime (m : Moment) (h1970 : 1970 ≤ m.year) (hyear : m.year < 1000000) :
    localtime (mktime (ofMoment m)).1 = some (ofMoment m) := by
  have hcount := mktime_ofMoment m hyear
  have hfrom := daysBeforeYear_mono h1970
  have hto := Date.dayNumber_bound hyear
  have hday := m.secondOfDay_lt
  have hnumber : m.toDate.dayNumber = daysBeforeYear m.year + m.toDate.dayOfYear := rfl
  simp only [Moment.seconds] at hcount
  obtain ⟨n, hn, hrun, hback⟩ := localtime_moment (le_refl _) (t := (mktime (ofMoment m)).1)
    (by omega) (by omega)
  have heq : n = m := by
    rw [mktime_ofMoment n hn, mktime_ofMoment m hyear] at hback
    apply Moment.seconds_injective
    omega
  rw [hrun, heq]

/-- The time of day may be anything. -/
def TagTimeMs.HasDate (t : TagTimeMs) (d : Date) : Prop :=
  t.year = d.year ∧ t.month = d.month ∧ t.day = d.day

/-- The beginning of a day. -/
def midnight (d : Date) : Moment := ⟨d, 0, 0, 0, by decide, by decide, by decide⟩

theorem ofMoment_midnight {t : TagTimeMs} {d : Date} (ht : t.HasDate d) (hd : d.year < 1000000) :
    (⟨0, 0, 0, t.day, i32 (t.month - 1), i32 (t.year - 1900)⟩ : Tm) = ofMoment (midnight d) := by
  obtain ⟨hyear, hmonth, hday⟩ := ht
  have hm := d.month_le
  rw [hyear, hmonth, hday, i32_eq (by omega) (by omega), i32_eq (by omega) (by omega)]
  rfl

theorem laterDays_eq {a b : TagTimeMs} {d e : Date} (ha : a.HasDate d) (hb : b.HasDate e)
    (hd : d.year < 1000000) (he : e.year < 1000000) :
    a.laterDays b = (d.dayNumber : ℤ) - e.dayNumber := by
  have hlong := daysBeforeYear_le 1000000
  have hda := Date.dayNumber_bound hd
  have heb := Date.dayNumber_bound he
  rw [TagTimeMs.laterDays, spanDays, ofMoment_midnight ha hd, ofMoment_midnight hb he,
    mktime_ofMoment (midnight d) hd, mktime_ofMoment (midnight e) he]
  have hspan : ((midnight d).seconds - 86400 * daysBeforeYear 1970 - gGmtSecondOffset
      - ((midnight e).seconds - 86400 * daysBeforeYear 1970 - gGmtSecondOffset) : ℤ)
      = (d.dayNumber - e.dayNumber) * (3600 * 24) := by
    simp only [Moment.seconds, Moment.secondOfDay, midnight]
    omega
  rw [hspan, Int.mul_tdiv_cancel _ (by decide), i32_eq (by omega) (by omega)]

theorem laterDays_iff {a b : TagTimeMs} {d e : Date} (ha : a.HasDate d) (hb : b.HasDate e)
    (hd : d.year < 1000000) (he : e.year < 1000000) (n : ℕ) :
    a.laterDays b = n ↔ Date.next^[n] e = d := by
  rw [laterDays_eq ha hb hd he, Date.iterate_eq_iff]
  omega

/-- The second with which a year begins, counted from 1970 in the zone itself. -/
def firstSecond (year : ℕ) : ℤ :=
  86400 * (daysBeforeYear year : ℤ) - 86400 * (daysBeforeYear 1970 : ℤ)

/-- The two conversions undo each other, the count follows the order of the fields, and the
days between two dates are the steps from one to the other in the calendar. -/
theorem calendar_inverse :
    (∀ t : ℤ, 0 ≤ t + gGmtSecondOffset → t + gGmtSecondOffset < firstSecond 1000000 →
      ∃ m : Moment, localtime t = some (ofMoment m) ∧ (mktime (ofMoment m)).1 = t) ∧
    (∀ m : Moment, 1970 ≤ m.year → m.year < 1000000 →
      localtime (mktime (ofMoment m)).1 = some (ofMoment m)) ∧
    (∀ m n : Moment, m.year < 1000000 → n.year < 1000000 →
      ((mktime (ofMoment m)).1 < (mktime (ofMoment n)).1 ↔ m.fields < n.fields)) ∧
    (∀ (a b c : TagTimeMs) (d e f : Date), a.HasDate d → b.HasDate e → c.HasDate f →
      d.year < 1000000 → e.year < 1000000 → f.year < 1000000 →
      (∀ n : ℕ, a.laterDays b = n ↔ Date.next^[n] e = d) ∧
      b.laterDays a = -a.laterDays b ∧
      a.laterDays c = a.laterDays b + b.laterDays c) := by
  refine ⟨?_, ?_, ?_, ?_⟩
  · intro t h0 hbound
    simp only [firstSecond] at hbound
    obtain ⟨m, -, hrun, hback⟩ := localtime_moment (le_refl _) h0 (by omega)
    exact ⟨m, hrun, hback⟩
  · intro m h1970 hyear
    exact localtime_mktime m h1970 hyear
  · intro m n hm hn
    exact mktime_lt_iff hm hn
  · intro a b c d e f ha hb hc hd he hf
    have hab := laterDays_eq ha hb hd he
    have hba := laterDays_eq hb ha he hd
    have hac := laterDays_eq ha hc hd hf
    have hbc := laterDays_eq hb hc he hf
    refine ⟨?_, by omega, by omega⟩
    intro n
    exact laterDays_iff ha hb hd he n

/-- The last second of a leap day in a century year. -/
def lastOfLeapDay : Moment :=
  ⟨⟨2000, 2, 29, by decide, by decide, by decide, by decide⟩, 23, 59, 59, by decide, by decide,
    by decide⟩

theorem calendar_inverse_leapDay :
    localtime (mktime (ofMoment lastOfLeapDay)).1 = some (ofMoment lastOfLeapDay) :=
  calendar_inverse.2.1 lastOfLeapDay (by decide) (by decide)

end CoreLooper.DateTime
