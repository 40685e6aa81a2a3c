import Antb1.Common.Checked
import Antb1.Lib.Calendar
import Antb1.Lib.Results

/-! Civil dates in 64-bit arithmetic: the steps that `CivilOf` of `exec/compute.cc` and
`FormatDate` of `plan/literal.cc` have in common. -/
namespace Antb1

open Calendar

structure CivilDate where
  year : Int
  month : Int
  day : Int
  deriving DecidableEq, Repr

/-- The year of a 400-year era, and the day of that year, which starts on March 1. -/
def yearOfEraDay (dayOfEra : Int) : Except Overflow (Int × Int) := do
  let common ← int64 (dayOfEra - dayOfEra.tdiv 1460)
  let centuries ← int64 (common + dayOfEra.tdiv 36524)
  let yearOfEra := (← int64 (centuries - dayOfEra.tdiv 146096)).tdiv 365
  let years ← int64 (365 * yearOfEra)
  let leap ← int64 (years + yearOfEra.tdiv 4)
  let dayOfYear ← int64 (dayOfEra - (← int64 (leap - yearOfEra.tdiv 100)))
  pure (yearOfEra, dayOfYear)

/-- The month and the day of a day of a year that starts on March 1. -/
def monthOfYearDay (dayOfYear : Int) : Except Overflow (Int × Int) := do
  let shiftedMonth := (← int64 ((← int64 (5 * dayOfYear)) + 2)).tdiv 153  -- 0 = March
  let before := (← int64 ((← int64 (153 * shiftedMonth)) + 2)).tdiv 5
  let day ← int64 ((← int64 (dayOfYear - before)) + 1)
  let month ← int64 (if shiftedMonth < 10 then shiftedMonth + 3 else shiftedMonth - 9)
  pure (month, day)

def civilOfEra (z era : Int) : Except Overflow CivilDate := do
  let dayOfEra ← int64 (z - (← int64 (era * 146097)))
  let (yearOfEra, dayOfYear) ← yearOfEraDay dayOfEra
  let (month, day) ← monthOfYearDay dayOfYear
  let year ← int64 (yearOfEra + (← int64 (era * 400)))
  let year ← int64 (year + if month ≤ 2 then 1 else 0)
  pure { year, month, day }

def CivilDate.ofDate (date : Date) : CivilDate := ⟨date.year, date.month, date.day⟩

theorem int64_small {x : Int} (small : -2 ^ 62 ≤ x ∧ x ≤ 2 ^ 62) : int64 x = .ok x :=
  int64_ok ⟨by omega, by omega⟩

theorem int64_bind {α : Type} {x : Int} (small : -2 ^ 62 ≤ x ∧ x ≤ 2 ^ 62)
    (f : Int → Except Overflow α) : (int64 x >>= f) = f x := by
  rw [int64_small small, Lib.ok_bind]

theorem tdiv_nonneg_eq {x : Int} (nonneg : 0 ≤ x) (k : Int) : x.tdiv k = x / k :=
  Int.tdiv_eq_ediv_of_nonneg nonneg

theorem yearOfEraDay_eq {dayOfEra : Int} (low : 0 ≤ dayOfEra) (high : dayOfEra ≤ 146096) :
    yearOfEraDay dayOfEra =
      .ok (yearOfEra dayOfEra, dayOfEra - daysOfYears (yearOfEra dayOfEra)) := by
  have isYear : (dayOfEra - dayOfEra / 1460 + dayOfEra / 36524 - dayOfEra / 146096).tdiv 365 =
      yearOfEra dayOfEra := tdiv_nonneg_eq (by omega) _
  have year : 0 ≤ yearOfEra dayOfEra ∧ yearOfEra dayOfEra ≤ 500 := by
    unfold yearOfEra
    omega
  unfold yearOfEraDay
  rw [tdiv_nonneg_eq low, tdiv_nonneg_eq low, tdiv_nonneg_eq low, int64_bind (by omega), int64_bind (by omega), int64_bind (by omega), isYear]
  dsimp only
  rw [tdiv_nonneg_eq year.1, tdiv_nonneg_eq year.1, int64_bind (by omega), int64_bind (by omega),
    int64_bind (by omega), int64_bind (by omega)]
  rfl

theorem monthOfYearDay_eq {days : Int} (low : 0 ≤ days) (high : days ≤ 365) :
    monthOfYearDay days = .ok (monthOf days, dayOf days) := by
  have shifted : 0 ≤ (5 * days + 2) / 153 ∧ (5 * days + 2) / 153 ≤ 11 := by omega
  have month : (if (5 * days + 2) / 153 < 10 then (5 * days + 2) / 153 + 3
      else (5 * days + 2) / 153 - 9) = monthOf days := rfl
  have isMonth := monthOf_isMonth low high
  unfold monthOfYearDay
  rw [int64_bind (by omega), int64_bind (by omega), tdiv_nonneg_eq (by omega)]
  dsimp only
  rw [int64_bind (by omega), int64_bind (by omega), tdiv_nonneg_eq (by omega),
    int64_bind (by omega), int64_bind (by omega), month, int64_small (by omega)]
  rfl

theorem civilOfEra_eq {days : Int} (low : -2 ^ 40 ≤ days) (high : days ≤ 2 ^ 40) :
    civilOfEra (days + 719468) (eraOf days) = .ok (.ofDate (.ofDayNumber days)) := by
  have place : days + 719468 - eraOf days * 146097 = dayOfEra days := by
    unfold eraOf dayOfEra
    omega
  have inEra : 0 ≤ dayOfEra days ∧ dayOfEra days ≤ 146096 := by
    unfold dayOfEra
    omega
  have year : 0 ≤ yearOfEra (dayOfEra days) ∧ yearOfEra (dayOfEra days) ≤ 500 := by
    unfold yearOfEra
    omega
  have march : yearOfEra (dayOfEra days) + eraOf days * 400 = marchYearOf days := by
    rw [marchYearOf, mul_comm]
  obtain ⟨⟨first, last⟩, _, _⟩ := marchDayOf_spec days
  unfold civilOfEra
  rw [int64_bind (by omega), place, int64_bind (by omega), yearOfEraDay_eq inEra.1 inEra.2,
    Lib.ok_bind]
  change (monthOfYearDay (marchDayOf days) >>= _) = _
  rw [monthOfYearDay_eq first last, Lib.ok_bind]
  dsimp only
  rw [int64_bind (by omega), int64_bind (by omega), march, int64_small (by split_ifs <;> omega)]
  rfl

end Antb1
