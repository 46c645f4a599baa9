import CoreLooper.DateTime

/-!
# Texts of dates and times

`tagTimeMs::from_dt` reads texts of several formats: as digits cut at fixed places, and by
`sscanf` where the first reading finds no year.
-/
namespace CoreLooper.DateTime
open CStrings Gregorian

/-- `%0wd`. -/
def padded (w : ℕ) (n : ℤ) : Bytes :=
  if n < 0 then 45 :: (List.replicate (w - 1 - (decimal (-n)).length) 48 ++ decimal (-n))
  else List.replicate (w - (decimal n).length) 48 ++ decimal n

/-- What `sscanf` is told to read: an `int` of so many places at most, a byte, or white space. -/
inductive Directive
  | int (width : ℕ)
  | byte (c : UInt8)
  | space

/-- White space before the number does not count for the width, a sign does. -/
def scanInt (width : ℕ) (s : Bytes) : Option (ℤ × Bytes) :=
  let s := s.dropWhile isspace
  let sign := (s.take 1).takeWhile fun c => c = 45 ∨ c = 43
  let s := s.drop sign.length
  let digits := (s.take (width - sign.length)).takeWhile isdigit
  if digits = [] then none else some (atoi (sign ++ digits), s.drop digits.length)

/-- The values that are assigned, up to the first directive that fails. -/
def sscanf : Bytes → List Directive → List ℤ
  | _, [] => []
  | s, .int width :: format =>
      match scanInt width s with
      | none => []
      | some (v, s) => v :: sscanf s format
  | s, .byte c :: format => if s.head? = some c then sscanf s.tail format else []
  | s, .space :: format => sscanf (s.dropWhile isspace) format

/-- `std::string::substr`, which throws behind the end of the text. -/
def substr (s : Bytes) (pos n : ℕ) : Option Bytes :=
  if pos ≤ s.length then some ((s.drop pos).take n) else none

namespace TagTimeMs

def clear : TagTimeMs := ⟨0, 0, 0, 0, 0, 0, 0⟩

def stdDateTimeText (t : TagTimeMs) : Bytes :=
  padded 4 t.year ++ 45 :: padded 2 t.month ++ 45 :: padded 2 t.day ++ 32 ::
    padded 2 t.hour ++ 58 :: padded 2 t.minute ++ 58 :: padded 2 t.second

def toDT (t : TagTimeMs) : Bytes :=
  padded 4 t.year ++ padded 2 t.month ++ padded 2 t.day ++
    padded 2 t.hour ++ padded 2 t.minute ++ padded 2 t.second

def toText (t : TagTimeMs) : Bytes :=
  padded 4 t.year ++ 46 :: padded 2 t.month ++ 46 :: padded 2 t.day ++ 32 ::
    padded 2 t.hour ++ 58 :: padded 2 t.minute ++ 58 :: padded 2 t.second

/-- `%04d.%02d.%02d %02d:%02d:%02d`, with the byte between the parts of the date. -/
def format (separator : UInt8) : List Directive :=
  [.int 4, .byte separator, .int 2, .byte separator, .int 2, .space,
    .int 2, .byte 58, .int 2, .byte 58, .int 2]

/-- The fields are assigned one after the other; the others keep what they hold. -/
def assign (t : TagTimeMs) (values : List ℤ) : TagTimeMs :=
  { t with
    year := values.getD 0 t.year
    month := values.getD 1 t.month
    day := values.getD 2 t.day
    hour := values.getD 3 t.hour
    minute := values.getD 4 t.minute
    second := values.getD 5 t.second }

/-- The result of the call and the fields it leaves. -/
def string2TimeMs (text : Bytes) (t : TagTimeMs) : ℤ × TagTimeMs :=
  let values := sscanf text (format 46)
  let t := t.assign values
  if values.length = 6 then (0, t)
  else
    let values := sscanf text (format 45)
    let t := t.assign values
    if values.length = 6 then (0, t)
    else if text.length = 14 then
      let number (off n : ℕ) := atoi ((text.drop off).take n)
      (0, { t with
        year := number 0 4
        month := number 4 2
        day := number 6 2
        hour := number 8 2
        minute := number 10 2
        second := number 12 2 })
    else (-1, t)

def fromDateTime (date time : ℤ) : TagTimeMs where
  year := date.tdiv 10000
  month := (date.tdiv 100).tmod 100
  day := date.tmod 100
  hour := time.tdiv 10000
  minute := (time.tdiv 100).tmod 100
  second := time.tmod 100
  ms := 0

/-- The fields cut out of the digits, before any other format is tried. -/
def fromDigits (dt : Bytes) : Option TagTimeMs := do
  if 8 ≤ dt.length then
    let date := atoi (← substr dt 0 8)
    let time := atoi (← substr dt 8 6)
    let ms_ := atoi (← substr dt 14 3)
    return { fromDateTime date time with ms := ms_ }
  else return clear

/-- No value when the call throws. -/
def fromDt (dt : Bytes) : Option TagTimeMs := do
  let t ← fromDigits dt
  if t.year = 0 then return (string2TimeMs dt t).2
  else return t

end TagTimeMs

/-- The text of a number with exactly so many digits, zeros in front included. -/
structure IsNumber (s : Bytes) (w n : ℕ) : Prop where
  length_eq : s.length = w
  digits : ∀ c ∈ s, isdigit c = true
  value : digitsValue s = n

theorem digitsValue_append {a b : Bytes} (ha : ∀ c ∈ a, isdigit c = true)
    (hb : ∀ c ∈ b, isdigit c = true) :
    digitsValue (a ++ b) = digitsValue a * 10 ^ b.length + digitsValue b := by
  have hfold : ∀ (l : Bytes) (k : ℕ), l.foldl (fun a c => a * 10 + (c.toNat - 48)) k
      = k * 10 ^ l.length + l.foldl (fun a c => a * 10 + (c.toNat - 48)) 0 := by
    intro l
    induction l with
    | nil => intro k; simp
    | cons c l ih =>
        intro k
        rw [List.foldl_cons, List.foldl_cons, ih (k * 10 + (c.toNat - 48)),
          ih (0 * 10 + (c.toNat - 48)), List.length_cons]
        ring
  have hab : ∀ c ∈ a ++ b, isdigit c = true := by
    intro c hc
    rcases List.mem_append.mp hc with h | h
    · exact ha c h
    · exact hb c h
  rw [digitsValue, digitsValue, digitsValue, List.takeWhile_eq_self_iff.mpr hab,
    List.takeWhile_eq_self_iff.mpr ha, List.takeWhile_eq_self_iff.mpr hb, List.foldl_append, hfold]

theorem IsNumber.append {a b : Bytes} {v w m n : ℕ} (ha : IsNumber a v m) (hb : IsNumber b w n) :
    IsNumber (a ++ b) (v + w) (m * 10 ^ w + n) where
  length_eq := by rw [List.length_append, ha.length_eq, hb.length_eq]
  digits := by
    intro c hc
    rcases List.mem_append.mp hc with h | h
    · exact ha.digits c h
    · exact hb.digits c h
  value := by rw [digitsValue_append ha.digits hb.digits, ha.value, hb.value, hb.length_eq]

theorem isNumber_zeros (k : ℕ) : IsNumber (List.replicate k 48) k 0 where
  length_eq := List.length_replicate
  digits := by
    intro c hc
    rw [List.eq_of_mem_replicate hc]
    decide
  value := by
    have hdigits : ∀ c ∈ List.replicate k (48 : UInt8), isdigit c = true := by
      intro c hc
      rw [List.eq_of_mem_replicate hc]
      decide
    rw [digitsValue, List.takeWhile_eq_self_iff.mpr hdigits]
    induction k with
    | zero => rfl
    | succ k ih =>
        rw [List.replicate_succ, List.foldl_cons]
        apply ih
        intro c hc
        exact hdigits c (List.mem_cons_of_mem _ hc)

/-- A number that fits is written with all its places. -/
theorem isNumber_padded {w n : ℕ} (hw : 0 < w) (h : n < 10 ^ w) : IsNumber (padded w n) w n := by
  have hlength : (decimal n).length ≤ w := by
    rw [decimal, if_neg (by omega), Int.natAbs_natCast, List.length_map]
    exact (Nat.length_toDigits_le_iff (by decide) hw).mpr h
  have hnumber : IsNumber (decimal n) (decimal n).length n :=
    ⟨rfl, (decimal_digits n).1, (decimal_digits n).2⟩
  have hall := (isNumber_zeros (w - (decimal n).length)).append hnumber
  rw [padded, if_neg (by omega)]
  rwa [Nat.sub_add_cancel hlength, Nat.zero_mul, Nat.zero_add] at hall

section
variable {s : Bytes} {w n : ℕ} {c : UInt8}

/-- The first byte of a number is no sign and no white space. -/
theorem IsNumber.starts (h : IsNumber s w n) (hw : 0 < w) :
    ∃ d r, s = d :: r ∧ isdigit d = true ∧ isspace d = false ∧ d ≠ 45 ∧ d ≠ 43 := by
  obtain ⟨d, r, rfl⟩ : ∃ d r, s = d :: r := by
    apply List.exists_cons_of_length_pos
    rw [h.length_eq]
    exact hw
  have hd := h.digits d List.mem_cons_self
  refine ⟨d, r, rfl, hd, isspace_of_isdigit hd, ?_, ?_⟩
  · rintro rfl
    revert hd
    decide
  · rintro rfl
    revert hd
    decide

theorem IsNumber.atoi_eq (h : IsNumber s w n) (hn : n < 2 ^ 31) : atoi s = n := by
  rw [atoi_digits h.digits (by rwa [h.value]), h.value]

theorem IsNumber.atoi_stop (h : IsNumber s w n) (hw : 0 < w) (hn : n < 2 ^ 31)
    (hc : isdigit c = false) (t : Bytes) : atoi (s ++ c :: t) = n := by
  obtain ⟨d, r, hs, -, hspace, -, -⟩ := h.starts hw
  rw [CStrings.atoi_stop hc ⟨d, by rw [hs]; exact List.mem_cons_self, hspace⟩, h.atoi_eq hn]

/-- A number with as many digits as the width is read as a whole, and nothing behind it. -/
theorem IsNumber.scanInt_eq (h : IsNumber s w n) (hw : 0 < w) (hn : n < 2 ^ 31) (t : Bytes) :
    scanInt w (s ++ t) = some (↑n, t) := by
  obtain ⟨d, r, hs, hd, hspace, h45, h43⟩ := h.starts hw
  have hdrop : (s ++ t).dropWhile isspace = s ++ t := by
    rw [hs, List.cons_append, List.dropWhile_cons, hspace]
    simp
  have hsign : ((s ++ t).take 1).takeWhile (fun c => decide (c = 45 ∨ c = 43)) = [] := by
    rw [hs, List.cons_append, List.take_succ_cons, List.takeWhile_cons]
    simp [h45, h43]
  have htake : ((s ++ t).take w).takeWhile isdigit = s := by
    rw [List.take_left' h.length_eq, List.takeWhile_eq_self_iff]
    exact h.digits
  have hne : s ≠ [] := by simp [hs]
  simp only [scanInt, hdrop, hsign, List.length_nil, List.drop_zero, Nat.sub_zero, htake,
    List.nil_append, h.atoi_eq hn, List.drop_left, if_neg hne]

end

theorem substr_middle {a b : Bytes} {pos k : ℕ} (ha : a.length = pos) :
    substr (a ++ b) pos k = some (b.take k) := by
  rw [substr, if_pos (by rw [List.length_append]; omega), List.drop_left' ha]

/-- A text that is long enough is cut into a date, a time and the milliseconds. -/
theorem fromDigits_cuts {a b rest : Bytes} (ha : a.length = 8) (hb : b.length = 6) :
    TagTimeMs.fromDigits (a ++ (b ++ rest))
      = some { TagTimeMs.fromDateTime (atoi a) (atoi b) with ms := atoi (rest.take 3) } := by
  have hlong : 8 ≤ (a ++ (b ++ rest)).length := by
    rw [List.length_append, ha]
    omega
  have hdate : substr (a ++ (b ++ rest)) 0 8 = some a := by
    rw [substr, if_pos (Nat.zero_le _), List.drop_zero, List.take_left' ha]
  have htime : substr (a ++ (b ++ rest)) 8 6 = some b := by
    rw [substr_middle ha, List.take_left' hb]
  have hms : substr (a ++ (b ++ rest)) 14 3 = some (rest.take 3) := by
    rw [← List.append_assoc]
    exact substr_middle (by rw [List.length_append, ha, hb])
  simp only [TagTimeMs.fromDigits, if_pos hlong, hdate, htime, hms, Option.bind_eq_bind,
    Option.bind_some, Option.pure_def]

/-- A moment to the millisecond, in a year of four digits. -/
structure Stamp extends Moment where
  ms : ℕ
  year_ge : 1000 ≤ year
  year_le : year ≤ 9999
  ms_lt : ms < 1000

namespace Stamp

def toTimeMs (t : Stamp) : TagTimeMs :=
  ⟨t.year, t.month, t.day, t.hour, t.minute, t.second, t.ms⟩

/-- The digits of the date and of the time of day. -/
def dateNumber (t : Stamp) : ℕ := (t.year * 100 + t.month) * 100 + t.day

def timeNumber (t : Stamp) : ℕ := (t.hour * 100 + t.minute) * 100 + t.second

def dateText (t : Stamp) : Bytes := padded 4 t.year ++ padded 2 t.month ++ padded 2 t.day

def timeText (t : Stamp) : Bytes := padded 2 t.hour ++ padded 2 t.minute ++ padded 2 t.second

end Stamp

inductive Format
  | yyyymmdd
  | yyyymmddhhMMss
  | yyyymmddhhMMssmmm
  | toDT
  | toText
  | stdDateTimeText
deriving DecidableEq

/-- The text of a moment in each format. -/
def Format.text (t : Stamp) : Format → Bytes
  | yyyymmdd => t.dateText
  | yyyymmddhhMMss => t.dateText ++ t.timeText
  | yyyymmddhhMMssmmm => t.dateText ++ t.timeText ++ padded 3 t.ms
  | toDT => t.toTimeMs.toDT
  | toText => t.toTimeMs.toText
  | stdDateTimeText => t.toTimeMs.stdDateTimeText

/-- The fields the text carries, and zero for the others. -/
def Format.carried (t : Stamp) : Format → TagTimeMs
  | yyyymmdd => { t.toTimeMs with hour := 0, minute := 0, second := 0, ms := 0 }
  | yyyymmddhhMMssmmm => t.toTimeMs
  | _ => { t.toTimeMs with ms := 0 }

def ParsesBack (f : Format) (t : Stamp) : Prop :=
  TagTimeMs.fromDt (f.text t) = some (f.carried t)

section
variable (t : Stamp)

theorem day_lt_32 : t.day < 32 :=
  Nat.lt_succ_of_le (Nat.le_trans t.day_le (monthLength_bounds _ _).2)

theorem isNumber_year : IsNumber (padded 4 t.year) 4 t.year := by
  have := t.year_le
  exact isNumber_padded (by decide) (by omega)

theorem isNumber_month : IsNumber (padded 2 t.month) 2 t.month := by
  have := t.month_le
  exact isNumber_padded (by decide) (by omega)

theorem isNumber_day : IsNumber (padded 2 t.day) 2 t.day := by
  have := day_lt_32 t
  exact isNumber_padded (by decide) (by omega)

theorem isNumber_hour : IsNumber (padded 2 t.hour) 2 t.hour := by
  have := t.hour_lt
  exact isNumber_padded (by decide) (by omega)

theorem isNumber_minute : IsNumber (padded 2 t.minute) 2 t.minute := by
  have := t.minute_lt
  exact isNumber_padded (by decide) (by omega)

theorem isNumber_second : IsNumber (padded 2 t.second) 2 t.second := by
  have := t.second_lt
  exact isNumber_padded (by decide) (by omega)

theorem isNumber_ms : IsNumber (padded 3 t.ms) 3 t.ms := by
  have := t.ms_lt
  exact isNumber_padded (by decide) (by omega)

theorem isNumber_date : IsNumber t.dateText 8 t.dateNumber :=
  ((isNumber_year t).append (isNumber_month t)).append (isNumber_day t)

theorem isNumber_time : IsNumber t.timeText 6 t.timeNumber :=
  ((isNumber_hour t).append (isNumber_minute t)).append (isNumber_second t)

theorem dateNumber_lt : t.dateNumber < 2 ^ 31 := by
  have := t.year_le
  have := t.month_le
  have := day_lt_32 t
  simp only [Stamp.dateNumber]
  omega

theorem timeNumber_lt : t.timeNumber < 2 ^ 31 := by
  have := t.hour_lt
  have := t.minute_lt
  have := t.second_lt
  simp only [Stamp.timeNumber]
  omega

/-- The two numbers are taken apart into the fields again. -/
theorem fromDateTime_numbers :
    TagTimeMs.fromDateTime t.dateNumber t.timeNumber = { t.toTimeMs with ms := 0 } := by
  have hparts (n : ℕ) : (n : ℤ).tdiv 10000 = (n / 10000 : ℕ) ∧
      ((n : ℤ).tdiv 100).tmod 100 = (n / 100 % 100 : ℕ) ∧ (n : ℤ).tmod 100 = (n % 100 : ℕ) :=
    ⟨rfl, rfl, rfl⟩
  obtain ⟨hyear, hmonth, hday⟩ := hparts t.dateNumber
  obtain ⟨hhour, hminute, hsecond⟩ := hparts t.timeNumber
  have := t.month_le
  have := day_lt_32 t
  have := t.minute_lt
  have := t.second_lt
  simp only [TagTimeMs.fromDateTime, hyear, hmonth, hday, hhour, hminute, hsecond, Stamp.toTimeMs,
    TagTimeMs.mk.injEq, and_true]
  simp only [Stamp.dateNumber, Stamp.timeNumber]
  omega

/-- Without the digits of a time the cut for the milliseconds is behind the end. -/
theorem fromDt_date : TagTimeMs.fromDt t.dateText = none := by
  have hlength := (isNumber_date t).length_eq
  have hms : substr t.dateText 14 3 = none := by
    rw [substr, if_neg (by omega)]
  simp only [TagTimeMs.fromDt, TagTimeMs.fromDigits, hms, Option.bind_eq_bind, Option.bind_none,
    Option.bind_fun_none, hlength, le_refl, if_true]

theorem fromDt_digits {tail : Bytes} {n : ℤ} (hms : atoi (tail.take 3) = n) :
    TagTimeMs.fromDt (t.dateText ++ (t.timeText ++ tail)) = some { t.toTimeMs with ms := n } := by
  have hdate := isNumber_date t
  have htime := isNumber_time t
  have hyear := t.year_ge
  have hdigits := @fromDigits_cuts _ _ tail hdate.length_eq htime.length_eq
  rw [hdate.atoi_eq (dateNumber_lt t), htime.atoi_eq (timeNumber_lt t),
    fromDateTime_numbers, hms] at hdigits
  have hne : t.toTimeMs.year ≠ 0 := by
    simp only [Stamp.toTimeMs]
    omega
  simp only [TagTimeMs.fromDt, hdigits, Option.bind_eq_bind, Option.bind_some, if_neg hne,
    Option.pure_def]

/-- Both texts with separators. -/
def separated (separator : UInt8) : Bytes :=
  padded 4 t.year ++ separator :: padded 2 t.month ++ separator :: padded 2 t.day ++ 32 ::
    padded 2 t.hour ++ 58 :: padded 2 t.minute ++ 58 :: padded 2 t.second

/-- The places at which the text is cut for digits. -/
theorem separated_cuts (separator : UInt8) : separated t separator =
    (padded 4 t.year ++ separator :: (padded 2 t.month ++ [separator])) ++
      ((padded 2 t.day ++ 32 :: (padded 2 t.hour ++ [58])) ++
        ((padded 2 t.minute ++ [58]) ++ padded 2 t.second)) := by
  simp [separated]

theorem sscanf_separated (separator : UInt8) :
    sscanf (separated t separator) (TagTimeMs.format separator)
      = [(t.year : ℤ), t.month, t.day, t.hour, t.minute, t.second] := by
  have := t.year_le
  have := t.month_le
  have := day_lt_32 t
  have := t.hour_lt
  have := t.minute_lt
  have := t.second_lt
  obtain ⟨d, r, hhour, -, hspace, -, -⟩ := (isNumber_hour t).starts (by decide)
  have hskip (s : Bytes) : (32 :: (padded 2 t.hour ++ s)).dropWhile isspace =
    padded 2 t.hour ++ s := by
    have h32 : isspace 32 = true := by decide
    rw [List.dropWhile_cons, h32, if_pos rfl, hhour, List.cons_append, List.dropWhile_cons, hspace]
    simp
  have hlast := (isNumber_second t).scanInt_eq (by decide) (by omega) []
  rw [List.append_nil] at hlast
  simp only [separated, List.append_assoc, List.cons_append, TagTimeMs.format, sscanf,
    (isNumber_year t).scanInt_eq (by decide) (by omega),
    (isNumber_month t).scanInt_eq (by decide) (by omega),
    (isNumber_day t).scanInt_eq (by decide) (by omega),
    (isNumber_hour t).scanInt_eq (by decide) (by omega),
    (isNumber_minute t).scanInt_eq (by decide) (by omega), hlast, hskip, List.head?_cons,
    List.tail_cons, if_true]

/-- The first attempt takes the text for digits: it finds no year, and keeps the minute as the
milliseconds. -/
theorem fromDigits_separated {separator : UInt8} (hsep : isdigit separator = false) :
    TagTimeMs.fromDigits (separated t separator)
      = some { TagTimeMs.fromDateTime t.year t.day with ms := t.minute } := by
  have hyear := isNumber_year t
  have hday := isNumber_day t
  have hminute := isNumber_minute t
  have hfirst : (padded 4 (t.year : ℤ) ++ separator :: (padded 2 t.month ++ [separator])).length
      = 8 := by
    simp [hyear.length_eq, (isNumber_month t).length_eq]
  have hsecond : (padded 2 (t.day : ℤ) ++ 32 :: (padded 2 t.hour ++ [58])).length = 6 := by
    simp [hday.length_eq, (isNumber_hour t).length_eq]
  have hthird : (padded 2 (t.minute : ℤ) ++ [58]).length = 3 := by
    simp [hminute.length_eq]
  have hms : ((padded 2 (t.minute : ℤ) ++ [58]) ++ padded 2 (t.second : ℤ)).take 3
      = padded 2 (t.minute : ℤ) ++ [58] := List.take_left' hthird
  have := t.year_le
  have := day_lt_32 t
  have := t.minute_lt
  rw [separated_cuts, fromDigits_cuts hfirst hsecond, hms,
    hyear.atoi_stop (by decide) (by omega) hsep, hday.atoi_stop (by decide) (by omega) rfl,
    hminute.atoi_stop (by decide) (by omega) rfl]

theorem fromDateTime_small (date time : ℤ) (h0 : 0 ≤ date) (h : date < 10000) :
    (TagTimeMs.fromDateTime date time).year = 0 :=
  Int.tdiv_eq_zero_of_lt h0 h

/-- The format that fits assigns every field but the milliseconds. -/
theorem string2TimeMs_separated {separator : UInt8} (hsep : separator = 46 ∨ separator = 45)
    (s : TagTimeMs) : (TagTimeMs.string2TimeMs (separated t separator) s).2
      = { t.toTimeMs with ms := s.ms } := by
  rcases hsep with rfl | rfl
  · simp only [TagTimeMs.string2TimeMs, sscanf_separated]
    rfl
  · have hyear := t.year_le
    have hdots : sscanf (separated t 45) (TagTimeMs.format 46) = [(t.year : ℤ)] := by
      simp only [separated, List.append_assoc, TagTimeMs.format, sscanf,
        (isNumber_year t).scanInt_eq (by decide) (by omega)]
      rfl
    simp only [TagTimeMs.string2TimeMs, hdots, sscanf_separated]
    rfl

theorem fromDt_separated {separator : UInt8} (hsep : separator = 46 ∨ separator = 45) :
    TagTimeMs.fromDt (separated t separator) = some { t.toTimeMs with ms := t.minute } := by
  have hdigit : isdigit separator = false := by
    rcases hsep with rfl | rfl <;> decide
  have hyear := t.year_le
  have hzero : (TagTimeMs.fromDateTime t.year t.day).year = 0 :=
    fromDateTime_small _ _ (by omega) (by omega)
  rw [TagTimeMs.fromDt, fromDigits_separated t hdigit]
  simp only [Option.bind_eq_bind, Option.bind_some, Option.pure_def, hzero, if_true,
    string2TimeMs_separated t hsep]

end

/-- A text is read back unless it is a date alone, or has separators and a minute: that is taken
for the milliseconds. -/
theorem parsesBack_iff (f : Format) (t : Stamp) : ParsesBack f t ↔
    f ≠ .yyyymmdd ∧ (f = .toText ∨ f = .stdDateTimeText → t.minute = 0) := by
  have hdt : ParsesBack .yyyymmddhhMMss t := by
    have h := @fromDt_digits t [] 0 rfl
    rw [List.append_nil] at h
    exact h
  have hseparated {separator : UInt8} (hsep : separator = 46 ∨ separator = 45) :
      TagTimeMs.fromDt (separated t separator) = some { t.toTimeMs with ms := 0 } ↔
        t.minute = 0 := by
    rw [fromDt_separated t hsep]
    simp only [Option.some.injEq, TagTimeMs.mk.injEq, true_and]
    omega
  cases f with
  | yyyymmdd => simp [ParsesBack, Format.text, fromDt_date]
  | yyyymmddhhMMss => simpa using hdt
  | yyyymmddhhMMssmmm =>
      have hms := isNumber_ms t
      have hlt := t.ms_lt
      have h := @fromDt_digits t (padded 3 t.ms) t.ms (by
        rw [List.take_of_length_le (by rw [hms.length_eq]), hms.atoi_eq (by omega)])
      rw [← List.append_assoc] at h
      have : ParsesBack .yyyymmddhhMMssmmm t := h
      simpa using this
  | toDT =>
      have : Format.toDT.text t = Format.yyyymmddhhMMss.text t := by
        simp [Format.text, TagTimeMs.toDT, Stamp.dateText, Stamp.timeText, Stamp.toTimeMs]
      have : ParsesBack .toDT t := by
        rw [ParsesBack, this]
        exact hdt
      simpa using this
  | toText =>
      have : ParsesBack .toText t ↔ t.minute = 0 := hseparated (Or.inl rfl)
      simpa using this
  | stdDateTimeText =>
      have : ParsesBack .stdDateTimeText t ↔ t.minute = 0 := hseparated (Or.inr rfl)
      simpa using this

def july : Stamp :=
  ⟨⟨⟨2022, 7, 16, by decide, by decide, by decide, by decide⟩, 12, 34, 56, by decide, by decide,
    by decide⟩, 789, by decide, by decide, by decide⟩

instance (f : Format) (t : Stamp) : Decidable (ParsesBack f t) := by
  unfold ParsesBack
  infer_instance

/-- A date alone throws, and the minutes of the other text turn up as milliseconds. -/
theorem july_texts :
    TagTimeMs.fromDt (ascii "20220716") = none ∧
    TagTimeMs.fromDt (ascii "2022.07.16 12:34:56") = some ⟨2022, 7, 16, 12, 34, 56, 34⟩ ∧
    ¬ ParsesBack .yyyymmdd july ∧ ¬ ParsesBack .toText july := by
  decide

end CoreLooper.DateTime
