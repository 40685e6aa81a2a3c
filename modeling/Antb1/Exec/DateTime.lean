import Antb1.Common.Civil
import Antb1.Common.Status

/-! TIMESTAMP and DATE fields and floors in 64-bit civil arithmetic: `FloorDiv` to `DateTrunc`,
and `DateArith`, of `exec/compute.cc`. A column is the list of its values, NULL as none. -/
namespace Antb1.Exec.DateTime

open Common

def kMicrosPerDay : Int := 86400000000

/-- 290309-12-22 (BC) 00:00:00. -/
def kMinTimestamp : Int := -9223372022400000000

def kTimestampInfinity : Int := 2 ^ 63 - 1

def kDateInfinity : Int := 2 ^ 31 - 1

def floorDiv (a b : Int) : Except Overflow Int := do
  let quotient ← int64 (a.tdiv b)
  int64 (quotient - if a.tmod b ≠ 0 ∧ decide (a < 0) ≠ decide (b < 0) then 1 else 0)

def floorMod (a b : Int) : Except Overflow Int := do
  let multiple ← int64 ((← floorDiv a b) * b)
  int64 (a - multiple)

def civilOf (days : Int) : Except Overflow CivilDate := do
  let z ← int64 (days + 719468)
  civilOfEra z (← floorDiv z 146097)

def daysOf (year month day : Int) : Except Overflow Int := do
  let y ← int64 (if month ≤ 2 then year - 1 else year)
  let era ← floorDiv y 400
  let yearOfEra ← int64 (y - (← int64 (era * 400)))
  let months ← int64 (153 * (← int64 (if month > 2 then month - 3 else month + 9)))
  let dayOfYear ← int64 ((← int64 ((← int64 (months + 2)).tdiv 5 + day)) - 1)
  let years ← int64 ((← int64 (yearOfEra * 365)) + yearOfEra.tdiv 4)
  let dayOfEra ← int64 ((← int64 (years - yearOfEra.tdiv 100)) + dayOfYear)
  int64 ((← int64 ((← int64 (era * 146097)) + dayOfEra)) - 719468)

structure DayTime where
  days : Int
  micros : Int
  deriving DecidableEq, Repr

inductive TimeValue where
  | date (days : Int)
  | timestamp (micros : Int)
  deriving DecidableEq, Repr

/-- What `ForEachDayTime` gives of a value. -/
inductive Instant where
  | finite (time : DayTime)
  | infinity (positive : Bool)
  deriving DecidableEq, Repr

def TimeValue.instant : TimeValue → Except Overflow Instant
  | .date days =>
    if days = kDateInfinity ∨ days = -kDateInfinity then pure (.infinity (days > 0))
    else pure (.finite ⟨days, 0⟩)
  | .timestamp micros =>
    if micros = kTimestampInfinity ∨ micros = -kTimestampInfinity then
      pure (.infinity (micros > 0))
    else do
      let days ← floorDiv micros kMicrosPerDay
      pure (.finite ⟨days, ← int64 (micros - (← int64 (days * kMicrosPerDay)))⟩)

def weekdayFromMonday (days : Int) : Except Overflow Int := do
  floorMod (← int64 (days + 3)) 7

def thursdayOf (days : Int) : Except Overflow Int := do
  int64 ((← int64 (days - (← weekdayFromMonday days))) + 3)

def isoYearOf (days : Int) : Except Overflow Int := do
  return (← civilOf (← thursdayOf days)).year

def isoWeekOf (days : Int) : Except Overflow Int := do
  let thursday ← thursdayOf days
  let january ← daysOf (← civilOf thursday).year 1 1
  int64 ((← int64 (thursday - january)).tdiv 7 + 1)

def isoYearStart (isoYear : Int) : Except Overflow Int := do
  let january4 ← daysOf isoYear 1 4
  int64 (january4 - (← weekdayFromMonday january4))

def centuryLike (year span : Int) : Except Overflow Int :=
  if year > 0 then do int64 ((← int64 (year - 1)).tdiv span + 1) else int64 (year.tdiv span - 1)

inductive Field where
  | year
  | month
  | day
  | hour
  | minute
  | second
  | millisecond
  | microsecond
  | quarter
  | week
  | isoyear
  | dow
  | isodow
  | doy
  | decade
  | century
  | millennium
  deriving DecidableEq, Repr

def integerPart (field : Field) (t : DayTime) : Except Overflow Int := do
  let date ← civilOf t.days
  match field with
  | .year => pure date.year
  | .month => pure date.month
  | .day => pure date.day
  | .hour => pure (t.micros.tdiv 3600000000)
  | .minute => pure ((t.micros.tdiv 60000000).tmod 60)
  | .second => pure ((t.micros.tdiv 1000000).tmod 60)
  | .millisecond => pure ((t.micros.tmod 60000000).tdiv 1000)
  | .microsecond => pure (t.micros.tmod 60000000)
  | .quarter => int64 ((← int64 (date.month - 1)).tdiv 3 + 1)
  | .week => isoWeekOf t.days
  | .isoyear => isoYearOf t.days
  | .dow => floorMod (← int64 (t.days + 4)) 7
  | .isodow => int64 ((← weekdayFromMonday t.days) + 1)
  | .doy => int64 ((← int64 (t.days - (← daysOf date.year 1 1))) + 1)
  | .decade => pure (date.year.tdiv 10)
  | .century => centuryLike date.year 100
  | .millennium => centuryLike date.year 1000

/-- A value of EXTRACT: a BIGINT, or the DOUBLE quotient of two integers. -/
inductive Extracted where
  | bigint (value : Int)
  | double (dividend divisor : Int)
  deriving DecidableEq, Repr

def epochOf : TimeValue → DayTime → Except Overflow Extracted
  | .date _, t => do return .double (← int64 (t.days * 86400)) 1
  | .timestamp _, t => do
    return .double (← int64 ((← int64 (t.days * kMicrosPerDay)) + t.micros)) 1000000

/-- A field of EXTRACT, none for epoch. -/
def extractValue (field : Option Field) (value : TimeValue) :
    Except Overflow (Option Extracted) := do
  match ← value.instant, field with
  | .infinity _, _ => pure none
  | .finite t, none => some <$> epochOf value t
  | .finite t, some field => return some (.bigint (← integerPart field t))

/-- A function of the rows that are not NULL. -/
def forEachRow {α β ε : Type} (each : α → Except ε (Option β)) (rows : List (Option α)) :
    Except ε (List (Option β)) :=
  rows.mapM fun row => row.elim (pure none) each

def extract (values : List (Option TimeValue)) (field : Option Field) :
    Except Overflow (List (Option Extracted)) :=
  forEachRow (extractValue field) values

inductive TruncUnit where
  | microsecond
  | millisecond
  | second
  | minute
  | hour
  | day
  | week
  | month
  | quarter
  | year
  | isoyear
  | decade
  | century
  | millennium
  deriving DecidableEq, Repr

def TruncUnit.step : TruncUnit → Option Int
  | .microsecond => some 1
  | .millisecond => some 1000
  | .second => some 1000000
  | .minute => some 60000000
  | .hour => some 3600000000
  | _ => none

/-- The first day of a unit of a day or longer; decades and longer units truncate the year toward
zero. -/
def TruncUnit.firstDay (unit : TruncUnit) (days : Int) (date : CivilDate) :
    Except Overflow Int := do
  let years := fun span : Int => do daysOf (← int64 (date.year.tdiv span * span)) 1 1
  match unit with
  | .week => int64 (days - (← weekdayFromMonday days))
  | .isoyear => isoYearStart (← isoYearOf days)
  | .decade => years 10
  | .century => years 100
  | .millennium => years 1000
  | .month => daysOf date.year date.month 1
  | .quarter =>
    daysOf date.year (← int64 ((← int64 ((← int64 (date.month - 1)).tdiv 3 * 3)) + 1)) 1
  | .year => daysOf date.year 1 1
  | _ => pure days

/-- A query ends in undefined behaviour or with a status. -/
inductive Fault where
  | overflow (type : Overflow)
  | failed (status : Status)
  deriving DecidableEq, Repr

def liftOverflow {α : Type} : Except Overflow α → Except Fault α
  | .ok a => .ok a
  | .error type => .error (.overflow type)

def outsideTimestamp : Fault :=
  .failed (.executionError "date_trunc: the result is not in the TIMESTAMP range")

/-- A day and a time of day as a TIMESTAMP; the overflows here are tested for. -/
def timestampOf (days micros : Int) : Except Fault Int :=
  let result := days * kMicrosPerDay + micros
  if ¬ InInt64 (days * kMicrosPerDay) ∨ ¬ InInt64 result ∨ result < kMinTimestamp ∨
      result ≥ kTimestampInfinity then .error outsideTimestamp
  else .ok result

/-- The start of the unit a day and time is in, as a day and time. -/
def truncTime (unit : TruncUnit) (t : DayTime) : Except Overflow DayTime := do
  let date ← civilOf t.days
  match unit.step with
  | some step => return ⟨t.days, ← int64 (t.micros - t.micros.tmod step)⟩
  | none => return ⟨← unit.firstDay t.days date, 0⟩

def dateTruncValue (unit : TruncUnit) (value : TimeValue) : Except Fault (Option Int) := do
  match ← liftOverflow value.instant with
  | .infinity positive =>
    pure (some (if positive then kTimestampInfinity else -kTimestampInfinity))
  | .finite t =>
    let start ← liftOverflow (truncTime unit t)
    return some (← timestampOf start.days start.micros)

def dateTrunc (values : List (Option TimeValue)) (unit : TruncUnit) :
    Except Fault (List (Option Int)) :=
  forEachRow (dateTruncValue unit) values

def dateArithValue (subtract : Bool) (row : Int × Int) : Except Fault (Option Int) :=
  if row.1 = kDateInfinity ∨ row.1 = -kDateInfinity then pure (some row.1)
  else do
    let offset ← liftOverflow (int64 (if subtract then -row.2 else row.2))
    let value ← liftOverflow (int64 (row.1 + offset))
    if value < -2 ^ 31 ∨ value ≥ kDateInfinity ∨ value = -kDateInfinity then
      .error (.failed (.executionError "Date out of range"))
    else pure (some value)

def dateArith (subtract : Bool) (rows : List (Option Int × Option Int)) :
    Except Fault (List (Option Int)) :=
  forEachRow (dateArithValue subtract) (rows.map fun row => do return (← row.1, ← row.2))

end Antb1.Exec.DateTime
