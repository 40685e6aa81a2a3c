import Mathlib.Data.Prod.Lex
import Mathlib.Tactic.IntervalCases
import Mathlib.Data.Int.ConditionallyCompleteOrder

/-! The proleptic Gregorian calendar, with astronomical years (year 0 is 1 BC): dates, and their
days counted from 1970-01-01. -/
namespace Calendar

def IsLeap (year : Int) : Prop := year % 4 = 0 ∧ (year % 100 ≠ 0 ∨ year % 400 = 0)

instance : DecidablePred IsLeap := fun _ => inferInstanceAs (Decidable (_ ∧ (_ ∨ _)))

def yearLength (year : Int) : Int := if IsLeap year then 366 else 365

def monthLength (year month : Int) : Int :=
  if month = 2 then if IsLeap year then 29 else 28
  else if month = 4 ∨ month = 6 ∨ month = 9 ∨ month = 11 then 30
  else 31

structure Date where
  year : Int
  month : Int
  day : Int
  isMonth : 1 ≤ month ∧ month ≤ 12
  isDay : 1 ≤ day ∧ day ≤ monthLength year month
  deriving DecidableEq

/-- The days from 1970-01-01 to the first day of a year: 477 leap days came before. -/
def yearStart (year : Int) : Int :=
  365 * (year - 1970) + ((year - 1) / 4 - (year - 1) / 100 + (year - 1) / 400) - 477

def daysBeforeMonth (year month : Int) : Int :=
  ((List.range (month - 1).toNat).map fun before : Nat => monthLength year (before + 1)).sum

def monthStart (year month : Int) : Int := yearStart year + daysBeforeMonth year month

def Date.dayNumber (date : Date) : Int := monthStart date.year date.month + (date.day - 1)

theorem yearStart_succ (year : Int) : yearStart (year + 1) = yearStart year + yearLength year := by
  unfold yearStart yearLength IsLeap
  split_ifs <;> omega

theorem yearLength_bounds (year : Int) : 365 ≤ yearLength year ∧ yearLength year ≤ 366 := by
  unfold yearLength
  split_ifs <;> omega

theorem yearStart_strictMono : StrictMono yearStart := by
  intro a b less
  unfold yearStart
  omega

/-- The months in a closed form: 31 and 30 days alternate, twice. -/
theorem daysBeforeMonth_eq {year month : Int} (isMonth : 1 ≤ month ∧ month ≤ 12) :
    daysBeforeMonth year month = (367 * month - 362) / 12 -
      if month ≤ 2 then 0 else if IsLeap year then 1 else 2 := by
  obtain ⟨low, high⟩ := isMonth
  unfold daysBeforeMonth
  by_cases leap : IsLeap year <;> interval_cases month <;>
    simp [List.range_succ, monthLength, leap]

theorem monthLength_bounds (year month : Int) :
    28 ≤ monthLength year month ∧ monthLength year month ≤ 31 := by
  unfold monthLength
  split_ifs <;> omega

@[simp] theorem monthStart_january (year : Int) : monthStart year 1 = yearStart year := by
  rw [monthStart, daysBeforeMonth_eq (by decide)]
  norm_num

theorem monthStart_succ {year month : Int} (isMonth : 1 ≤ month ∧ month ≤ 11) :
    monthStart year (month + 1) = monthStart year month + monthLength year month := by
  rw [monthStart, monthStart, daysBeforeMonth_eq (by omega), daysBeforeMonth_eq (by omega)]
  obtain ⟨low, high⟩ := isMonth
  unfold monthLength
  by_cases leap : IsLeap year <;> interval_cases month <;> simp [leap] <;> omega

theorem monthStart_december (year : Int) :
    monthStart year 12 + monthLength year 12 = yearStart (year + 1) := by
  rw [monthStart, daysBeforeMonth_eq (by decide), yearStart_succ, monthLength, yearLength]
  split_ifs <;> omega

theorem monthStart_mono (year : Int) {month later : Int} (low : 1 ≤ month) (le : month ≤ later)
    (high : later ≤ 12) : monthStart year month ≤ monthStart year later := by
  rw [monthStart, monthStart, daysBeforeMonth_eq (by omega), daysBeforeMonth_eq (by omega)]
  split_ifs <;> omega

theorem monthStart_le (year : Int) {month later : Int} (low : 1 ≤ month) (less : month < later)
    (high : later ≤ 12) :
    monthStart year month + monthLength year month ≤ monthStart year later := by
  rw [← monthStart_succ (by omega)]
  exact monthStart_mono year (by omega) (by omega) high

namespace Date

variable {a b date : Date}

theorem monthStart_le_dayNumber (date : Date) :
    monthStart date.year date.month ≤ date.dayNumber := by
  have first := date.isDay.1
  unfold dayNumber
  omega

theorem dayNumber_lt_monthEnd (date : Date) :
    date.dayNumber < monthStart date.year date.month + monthLength date.year date.month := by
  have last := date.isDay.2
  unfold dayNumber
  omega

theorem yearStart_le_dayNumber (date : Date) : yearStart date.year ≤ date.dayNumber := by
  have january := monthStart_mono date.year le_rfl date.isMonth.1 date.isMonth.2
  rw [monthStart_january] at january
  exact january.trans date.monthStart_le_dayNumber

theorem dayNumber_lt_yearStart (date : Date) : date.dayNumber < yearStart (date.year + 1) := by
  have inside := date.dayNumber_lt_monthEnd
  have december := monthStart_december date.year
  rcases date.isMonth.2.lt_or_eq with earlier | last
  · have before := monthStart_le date.year date.isMonth.1 earlier le_rfl
    have positive := monthLength_bounds date.year 12
    omega
  · rw [last] at inside
    omega

def place (date : Date) : Int ×ₗ Int ×ₗ Int := toLex (date.year, toLex (date.month, date.day))

theorem dayNumber_lt (before : a.place < b.place) : a.dayNumber < b.dayNumber := by
  simp only [place, Prod.Lex.toLex_lt_toLex] at before
  rcases before with year | ⟨year, month | ⟨month, day⟩⟩
  · have le := yearStart_strictMono.monotone (show a.year + 1 ≤ b.year by omega)
    exact (a.dayNumber_lt_yearStart.trans_le le).trans_le b.yearStart_le_dayNumber
  · have le := monthStart_le a.year a.isMonth.1 month b.isMonth.2
    have start := b.monthStart_le_dayNumber
    rw [← year] at start
    exact (a.dayNumber_lt_monthEnd.trans_le le).trans_le start
  · unfold dayNumber
    rw [year, month]
    omega

theorem place_injective : Function.Injective place := by
  rintro ⟨y, m, d, _, _⟩ ⟨y', m', d', _, _⟩ same
  cases same
  rfl

theorem dayNumber_injective : Function.Injective dayNumber := by
  intro a b same
  apply place_injective
  rcases lt_trichotomy a.place b.place with before | equal | after
  · exact absurd same (dayNumber_lt before).ne
  · exact equal
  · exact absurd same (dayNumber_lt after).ne'

end Date

theorem monthStart_march (year : Int) :
    monthStart year 3 = 365 * year + year / 4 - year / 100 + year / 400 - 719468 := by
  rw [monthStart, daysBeforeMonth_eq (by decide), yearStart]
  unfold IsLeap
  split_ifs <;> omega

/-- The year whose March 1 is the last one not after a month. -/
def marchYear (year month : Int) : Int := if month ≤ 2 then year - 1 else year

def shiftedMonth (month : Int) : Int := if month > 2 then month - 3 else month + 9

theorem monthStart_shifted (year : Int) {month : Int} (isMonth : 1 ≤ month ∧ month ≤ 12) :
    monthStart year month =
      monthStart (marchYear year month) 3 + (153 * shiftedMonth month + 2) / 5 := by
  unfold marchYear shiftedMonth
  rcases le_or_gt month 2 with early | late
  · rw [if_pos early, if_neg early.not_gt, monthStart_march, monthStart,
      daysBeforeMonth_eq isMonth, if_pos early, yearStart]
    omega
  · rw [if_neg late.not_ge, if_pos late, monthStart, monthStart, daysBeforeMonth_eq isMonth,
      daysBeforeMonth_eq (by decide), if_neg late.not_ge]
    split_ifs <;> omega

def yearOfEra (dayOfEra : Int) : Int :=
  (dayOfEra - dayOfEra / 1460 + dayOfEra / 36524 - dayOfEra / 146096) / 365

/-- The day of an era in whole centuries, cycles of four years, years and days; a year has a day
365 where it ends in a leap day. -/
theorem exists_eraDay {dayOfEra : Int} (low : 0 ≤ dayOfEra) (high : dayOfEra ≤ 146096) :
    ∃ c q r k : Int, dayOfEra = 36524 * c + 1461 * q + 365 * r + k ∧ (0 ≤ c ∧ c ≤ 3) ∧
      (0 ≤ q ∧ q ≤ 24) ∧ (0 ≤ r ∧ r ≤ 3) ∧ (0 ≤ k ∧ k ≤ 365) ∧
      (k = 365 → r = 3 ∧ (q = 24 → c = 3)) := by
  obtain ⟨c, isCentury⟩ : ∃ c, c = min (dayOfEra / 36524) 3 := ⟨_, rfl⟩
  obtain ⟨q, isCycle⟩ : ∃ q, q = (dayOfEra - 36524 * c) / 1461 := ⟨_, rfl⟩
  obtain ⟨r, isYear⟩ : ∃ r, r = min ((dayOfEra - 36524 * c - 1461 * q) / 365) 3 := ⟨_, rfl⟩
  refine ⟨c, q, r, dayOfEra - 36524 * c - 1461 * q - 365 * r, ?_, ?_, ?_, ?_, ?_, ?_⟩ <;> omega

theorem yearOfEra_eq {c q r k : Int} (century : 0 ≤ c ∧ c ≤ 3) (cycle : 0 ≤ q ∧ q ≤ 24)
    (year : 0 ≤ r ∧ r ≤ 3) (day : 0 ≤ k ∧ k ≤ 365)
    (leap : k = 365 → r = 3 ∧ (q = 24 → c = 3)) :
    yearOfEra (36524 * c + 1461 * q + 365 * r + k) = 100 * c + 4 * q + r := by
  unfold yearOfEra
  by_cases last : k = 365 ∧ q = 24
  · -- the last day of the era, the only one the division by 146096 is for
    obtain ⟨rfl, rfl⟩ := last
    obtain ⟨rfl, rfl⟩ := (leap rfl).imp_right (· rfl)
    rfl
  · have inCentury : 1461 * q + 365 * r + k < 36524 := by omega
    have centuries : (36524 * c + 1461 * q + 365 * r + k) / 36524 = c := by omega
    have eras : (36524 * c + 1461 * q + 365 * r + k) / 146096 = 0 := by omega
    -- the leap days counted by 1460 are one too many only at the end of a cycle
    obtain ⟨e, extra⟩ : ∃ e, (24 * c + q + 365 * r + k) / 1460 = e := ⟨_, rfl⟩
    have cycles : (36524 * c + 1461 * q + 365 * r + k) / 1460 = 25 * c + q + e := by omega
    rw [centuries, eras, cycles]
    have years : (365 * r + k - e) / 365 = r := by omega
    omega

/-- The month of a March year, from the days since its March 1. -/
def monthOf (days : Int) : Int :=
  if (5 * days + 2) / 153 < 10 then (5 * days + 2) / 153 + 3 else (5 * days + 2) / 153 - 9

def dayOf (days : Int) : Int := days - (153 * ((5 * days + 2) / 153) + 2) / 5 + 1

/-- The year of a day, from the days since the March 1 before. -/
def yearOf (marchYear days : Int) : Int := marchYear + if monthOf days ≤ 2 then 1 else 0

theorem marchYear_yearOf (year days : Int) :
    marchYear (yearOf year days) (monthOf days) = year := by
  unfold marchYear yearOf
  split_ifs <;> omega

section March

variable {year days : Int} (low : 0 ≤ days) (high : days ≤ 365)
include low high

theorem monthOf_isMonth : 1 ≤ monthOf days ∧ monthOf days ≤ 12 := by
  unfold monthOf
  split_ifs <;> omega

theorem shiftedMonth_monthOf : shiftedMonth (monthOf days) = (5 * days + 2) / 153 := by
  unfold shiftedMonth monthOf
  split_ifs <;> omega

theorem dayOf_isDay (leap : days = 365 → IsLeap (year + 1)) :
    1 ≤ dayOf days ∧ dayOf days ≤ monthLength (yearOf year days) (monthOf days) := by
  obtain ⟨shifted, isShifted⟩ : ∃ shifted, shifted = (5 * days + 2) / 153 := ⟨_, rfl⟩
  have first : 0 ≤ shifted := by omega
  have last : shifted ≤ 11 := by omega
  unfold dayOf yearOf monthLength monthOf
  rw [← isShifted]
  by_cases isLeap : IsLeap (year + 1)
  · interval_cases shifted <;> simp [isLeap] <;> omega
  · have short : days ≠ 365 := mt leap isLeap
    interval_cases shifted <;> simp [isLeap] <;> omega

theorem monthStart_monthOf :
    monthStart (yearOf year days) (monthOf days) + (dayOf days - 1) = monthStart year 3 + days := by
  rw [monthStart_shifted _ (monthOf_isMonth low high), marchYear_yearOf,
    shiftedMonth_monthOf low high, dayOf]
  omega

end March

def eraOf (days : Int) : Int := (days + 719468) / 146097

def dayOfEra (days : Int) : Int := (days + 719468) % 146097

def daysOfYears (yearOfEra : Int) : Int := 365 * yearOfEra + yearOfEra / 4 - yearOfEra / 100

def marchYearOf (days : Int) : Int := yearOfEra (dayOfEra days) + 400 * eraOf days

def marchDayOf (days : Int) : Int := dayOfEra days - daysOfYears (yearOfEra (dayOfEra days))

/-- The leap years among the years before one given by centuries and cycles of four years. -/
theorem leapQuotients {e c q r : Int} (century : 0 ≤ c ∧ c ≤ 3) (cycle : 0 ≤ q ∧ q ≤ 24)
    (year : 0 ≤ r ∧ r ≤ 3) :
    (100 * c + 4 * q + r + 400 * e) / 4 = 25 * c + q + 100 * e ∧
      (100 * c + 4 * q + r + 400 * e) / 100 = c + 4 * e ∧
      (100 * c + 4 * q + r + 400 * e) / 400 = e := by
  refine ⟨?_, ?_, ?_⟩ <;> omega

theorem marchDayOf_spec (days : Int) :
    (0 ≤ marchDayOf days ∧ marchDayOf days ≤ 365) ∧
      (marchDayOf days = 365 → IsLeap (marchYearOf days + 1)) ∧
      monthStart (marchYearOf days) 3 + marchDayOf days = days := by
  have split : days + 719468 = 146097 * eraOf days + dayOfEra days :=
    (Int.mul_ediv_add_emod _ _).symm
  obtain ⟨c, q, r, k, place, century, cycle, year, day, leap⟩ :=
    exists_eraDay (Int.emod_nonneg (days + 719468) (by decide))
      (Int.lt_add_one_iff.mp (Int.emod_lt_of_pos (days + 719468) (by decide)))
  change dayOfEra days = _ at place
  have isYear : yearOfEra (dayOfEra days) = 100 * c + 4 * q + r := by
    rw [place, yearOfEra_eq century cycle year day leap]
  have isDay : marchDayOf days = k := by
    have quotients := leapQuotients (e := 0) century cycle year
    rw [mul_zero, add_zero] at quotients
    rw [marchDayOf, isYear, daysOfYears, quotients.1, quotients.2.1, place]
    omega
  obtain ⟨cycles, centuries, eras⟩ := leapQuotients (e := eraOf days) century cycle year
  rw [isDay, monthStart_march, marchYearOf, isYear, cycles, centuries, eras]
  refine ⟨day, fun last => ?_, by omega⟩
  obtain ⟨isLast, isCentury⟩ := leap last
  refine ⟨by omega, ?_⟩
  rcases cycle.2.lt_or_eq with inner | isEnd
  · exact .inl (by omega)
  · rw [isEnd, isCentury isEnd, isLast]
    exact .inr (by omega)

namespace Date

def ofDayNumber (days : Int) : Date where
  year := yearOf (marchYearOf days) (marchDayOf days)
  month := monthOf (marchDayOf days)
  day := dayOf (marchDayOf days)
  isMonth := monthOf_isMonth (marchDayOf_spec days).1.1 (marchDayOf_spec days).1.2
  isDay := dayOf_isDay (marchDayOf_spec days).1.1 (marchDayOf_spec days).1.2
    (marchDayOf_spec days).2.1

@[simp] theorem dayNumber_ofDayNumber (days : Int) : (ofDayNumber days).dayNumber = days := by
  obtain ⟨⟨low, high⟩, _, place⟩ := marchDayOf_spec days
  exact (monthStart_monthOf low high).trans place

@[simp] theorem ofDayNumber_dayNumber (date : Date) : ofDayNumber date.dayNumber = date :=
  dayNumber_injective (dayNumber_ofDayNumber _)

theorem yearStart_le (days : Int) : yearStart (ofDayNumber days).year ≤ days := by
  simpa using (ofDayNumber days).yearStart_le_dayNumber

theorem lt_yearStart (days : Int) : days < yearStart ((ofDayNumber days).year + 1) := by
  simpa using (ofDayNumber days).dayNumber_lt_yearStart

end Date

def weekday (days : Int) : Int := (days + 3) % 7

def monday (days : Int) : Int := days - weekday days

def isoYear (days : Int) : Int := (Date.ofDayNumber (monday days + 3)).year

def isoWeek (days : Int) : Int := (monday days + 3 - yearStart (isoYear days)) / 7 + 1

def isoYearStart (year : Int) : Int := monday (yearStart year + 3)

theorem weekday_bounds (days : Int) : 0 ≤ weekday days ∧ weekday days ≤ 6 := by
  unfold weekday
  omega

/-- The first Thursday of a year is in the week its ISO year starts with. -/
theorem isoYearStart_spec (year : Int) :
    weekday (isoYearStart year) = 0 ∧ yearStart year ≤ isoYearStart year + 3 ∧
      isoYearStart year + 3 ≤ yearStart year + 6 := by
  unfold isoYearStart monday weekday
  omega

theorem isoYearStart_strictMono : StrictMono isoYearStart := by
  intro a b less
  have next := yearStart_strictMono.monotone (show a + 1 ≤ b by omega)
  have length := yearLength_bounds a
  have start := isoYearStart_spec a
  have start' := isoYearStart_spec b
  rw [yearStart_succ] at next
  omega

/-- The ISO year and week of a day, with its weekday, give the day back. -/
theorem isoWeek_spec (days : Int) :
    isoYearStart (isoYear days) + 7 * (isoWeek days - 1) + weekday days = days ∧
      1 ≤ isoWeek days ∧ isoWeek days ≤ 53 := by
  have low := Date.yearStart_le (monday days + 3)
  have high := Date.lt_yearStart (monday days + 3)
  have length := yearLength_bounds (isoYear days)
  have start := isoYearStart_spec (isoYear days)
  rw [yearStart_succ] at high
  change yearStart (isoYear days) ≤ _ at low
  change _ < yearStart (isoYear days) + yearLength (isoYear days) at high
  unfold isoWeek monday at *
  unfold weekday at *
  omega

theorem isoYearStart_le (days : Int) : isoYearStart (isoYear days) ≤ days := by
  have place := isoWeek_spec days
  have bounds := weekday_bounds days
  omega

theorem lt_isoYearStart (days : Int) : days < isoYearStart (isoYear days + 1) := by
  have high := Date.lt_yearStart (monday days + 3)
  have start := isoYearStart_spec (isoYear days + 1)
  change _ < yearStart (isoYear days + 1) at high
  unfold monday at *
  unfold weekday at *
  omega

end Calendar
