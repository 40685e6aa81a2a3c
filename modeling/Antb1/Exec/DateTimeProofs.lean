import Antb1.Exec.DateTime

/-! The civil arithmetic of the TIMESTAMP and DATE functions is the calendar's, and no step of it
overflows on a day number of either range. -/
namespace Antb1.Exec.DateTime

open Calendar Lib

variable {year span : Int} {t : DayTime}

theorem floorDiv_eq {a b : Int} (held : InInt64 a) (large : 2 ≤ b) :
    floorDiv a b = .ok (a / b) := by
  have half := natAbs_tdiv_le_half (x := a) large
  have truncated := Int.tdiv_eq_ediv (a := a) (b := b)
  have exact : a.tmod b = 0 ↔ b ∣ a := Int.dvd_iff_tmod_eq_zero.symm
  have floor : (a.tdiv b - if a.tmod b ≠ 0 ∧ decide (a < 0) ≠ decide (b < 0) then 1 else 0) =
      a / b := by
    rw [truncated, Int.sign_eq_one_of_pos (by omega)]
    by_cases negative : a < 0 <;> by_cases divides : b ∣ a <;>
      simp [exact, negative, divides, show ¬ b < 0 by omega]
    omega
  unfold InInt64 at held
  rw [floorDiv, int64_bind (by omega), floor, int64_ok]
  rw [← floor]
  constructor <;> split_ifs <;> omega

theorem floorMod_eq {a b : Int} (small : -2 ^ 61 ≤ a ∧ a ≤ 2 ^ 61)
    (large : 2 ≤ b ∧ b ≤ 2 ^ 61) : floorMod a b = .ok (a % b) := by
  have split := Int.mul_ediv_add_emod a b
  have low := Int.emod_nonneg a (show b ≠ 0 by omega)
  have high := Int.emod_lt_of_pos a (show 0 < b by omega)
  rw [mul_comm] at split
  rw [floorMod, floorDiv_eq ⟨by omega, by omega⟩ large.1, ok_bind, int64_bind (by omega),
    int64_small (by omega)]
  congr 1
  omega

theorem civilOf_eq {days : Int} (low : -2 ^ 40 ≤ days) (high : days ≤ 2 ^ 40) :
    civilOf days = .ok (.ofDate (.ofDayNumber days)) := by
  rw [civilOf, int64_bind (by omega), floorDiv_eq ⟨by omega, by omega⟩ (by decide), ok_bind]
  exact civilOfEra_eq low high

theorem daysOf_eq {year month day : Int} (small : -2 ^ 40 ≤ year ∧ year ≤ 2 ^ 40)
    (isMonth : 1 ≤ month ∧ month ≤ 12) (isDay : 0 ≤ day ∧ day ≤ 31) :
    daysOf year month day = .ok (monthStart year month + (day - 1)) := by
  have march : (if month ≤ 2 then year - 1 else year) = marchYear year month := rfl
  have shifted : (if month > 2 then month - 3 else month + 9) = shiftedMonth month := rfl
  have years : -2 ^ 41 ≤ marchYear year month ∧ marchYear year month ≤ 2 ^ 41 := by
    unfold marchYear
    split_ifs <;> omega
  have months : 0 ≤ shiftedMonth month ∧ shiftedMonth month ≤ 11 := by
    unfold shiftedMonth
    split_ifs <;> omega
  rw [monthStart_shifted year isMonth, monthStart_march, daysOf, march, shifted]
  generalize marchYear year month = y at *
  generalize shiftedMonth month = m at *
  have yearOfEra : 0 ≤ y - y / 400 * 400 ∧ y - y / 400 * 400 ≤ 399 := by omega
  rw [int64_bind (by omega), floorDiv_eq ⟨by omega, by omega⟩ (by decide), ok_bind,
    int64_bind (by omega), int64_bind (by omega), int64_bind (by omega), int64_bind (by omega),
    int64_bind (by omega), tdiv_nonneg_eq (by omega), int64_bind (by omega), int64_bind (by omega),
    tdiv_nonneg_eq yearOfEra.1, tdiv_nonneg_eq yearOfEra.1, int64_bind (by omega),
    int64_bind (by omega), int64_bind (by omega), int64_bind (by omega), int64_bind (by omega),
    int64_bind (by omega), int64_small (by omega)]
  congr 1
  omega

/-- The day numbers of a DATE, those of a TIMESTAMP among them. -/
def IsDay (days : Int) : Prop := -2 ^ 31 ≤ days ∧ days < 2 ^ 31

instance : DecidablePred IsDay := fun _ => inferInstanceAs (Decidable (_ ∧ _))

theorem year_small {days : Int} (near : -2 ^ 32 ≤ days ∧ days ≤ 2 ^ 32) :
    -2 ^ 33 ≤ (Date.ofDayNumber days).year ∧ (Date.ofDayNumber days).year ≤ 2 ^ 33 := by
  have low := Date.yearStart_le days
  have high := Date.lt_yearStart days
  unfold yearStart at low high
  omega

theorem yearStart_small (small : -2 ^ 33 ≤ year ∧ year ≤ 2 ^ 33) :
    -2 ^ 43 ≤ yearStart year ∧ yearStart year ≤ 2 ^ 43 := by
  unfold yearStart
  omega

theorem daysOf_january (small : -2 ^ 33 ≤ year ∧ year ≤ 2 ^ 33) :
    daysOf year 1 1 = .ok (yearStart year) := by
  rw [daysOf_eq (by omega) (by decide) (by decide), monthStart_january]
  congr 1
  omega

theorem weekdayFromMonday_eq {days : Int} (small : -2 ^ 50 ≤ days ∧ days ≤ 2 ^ 50) :
    weekdayFromMonday days = .ok (weekday days) := by
  rw [weekdayFromMonday, int64_bind (by omega), floorMod_eq (by omega) (by decide)]
  rfl

theorem isoYearStart_eq (small : -2 ^ 33 ≤ year ∧ year ≤ 2 ^ 33) :
    isoYearStart year = .ok (Calendar.isoYearStart year) := by
  have start := yearStart_small small
  have bounds := weekday_bounds (yearStart year + 3)
  rw [isoYearStart, daysOf_eq (by omega) (by decide) (by decide), monthStart_january, ok_bind,
    show yearStart year + (4 - 1) = yearStart year + 3 by omega,
    weekdayFromMonday_eq (by omega), ok_bind, int64_small (by omega)]
  rfl

section Days

variable {days : Int} (isDay : IsDay days)
include isDay

theorem civilOf_day : civilOf days = .ok (.ofDate (.ofDayNumber days)) := by
  unfold IsDay at isDay
  exact civilOf_eq (by omega) (by omega)

theorem weekday_day : weekdayFromMonday days = .ok (weekday days) := by
  unfold IsDay at isDay
  exact weekdayFromMonday_eq (by omega)

theorem year_day :
    -2 ^ 33 ≤ (Date.ofDayNumber days).year ∧ (Date.ofDayNumber days).year ≤ 2 ^ 33 := by
  unfold IsDay at isDay
  exact year_small (by omega)

theorem thursday_small : -2 ^ 32 ≤ monday days + 3 ∧ monday days + 3 ≤ 2 ^ 32 := by
  have bounds := weekday_bounds days
  unfold IsDay at isDay
  unfold monday
  omega

theorem thursdayOf_eq : thursdayOf days = .ok (monday days + 3) := by
  have bounds := weekday_bounds days
  have small := thursday_small isDay
  unfold IsDay at isDay
  rw [thursdayOf, weekdayFromMonday_eq (by omega), ok_bind, int64_bind (by omega)]
  exact int64_small (by omega)

theorem civilOf_thursday :
    civilOf (monday days + 3) = .ok (.ofDate (.ofDayNumber (monday days + 3))) := by
  have small := thursday_small isDay
  exact civilOf_eq (by omega) (by omega)

theorem isoYear_small : -2 ^ 33 ≤ isoYear days ∧ isoYear days ≤ 2 ^ 33 :=
  year_small (thursday_small isDay)

theorem isoYearOf_eq : isoYearOf days = .ok (isoYear days) := by
  rw [isoYearOf, thursdayOf_eq isDay, ok_bind, civilOf_thursday isDay, ok_bind]
  rfl

theorem isoWeekOf_eq : isoWeekOf days = .ok (isoWeek days) := by
  have low := Date.yearStart_le (monday days + 3)
  have high := thursday_small isDay
  have year := isoYear_small isDay
  have start := yearStart_small year
  have january : daysOf (isoYear days) 1 1 = _ := daysOf_january year
  change yearStart (isoYear days) ≤ _ at low
  rw [isoWeekOf, thursdayOf_eq isDay, ok_bind, civilOf_thursday isDay, ok_bind]
  change (daysOf (isoYear days) 1 1 >>= _) = _
  rw [january, ok_bind, int64_bind (by omega), tdiv_nonneg_eq (by omega)]
  exact int64_small (by omega)

end Days

structure IsTime (t : DayTime) : Prop where
  isDay : IsDay t.days
  micros : 0 ≤ t.micros ∧ t.micros < kMicrosPerDay

/-- Years in spans, as DuckDB counts them: no span 0. -/
def spanOf (year span : Int) : Int :=
  if year > 0 then (year - 1) / span + 1 else year.tdiv span - 1

def Field.value (field : Field) (t : DayTime) : Int :=
  let date := Date.ofDayNumber t.days
  match field with
  | .year => date.year
  | .month => date.month
  | .day => date.day
  | .hour => t.micros / 3600000000
  | .minute => t.micros / 60000000 % 60
  | .second => t.micros / 1000000 % 60
  | .millisecond => t.micros % 60000000 / 1000
  | .microsecond => t.micros % 60000000
  | .quarter => (date.month - 1) / 3 + 1
  | .week => isoWeek t.days
  | .isoyear => isoYear t.days
  | .dow => (t.days + 4) % 7
  | .isodow => weekday t.days + 1
  | .doy => t.days - yearStart date.year + 1
  | .decade => date.year.tdiv 10
  | .century => spanOf date.year 100
  | .millennium => spanOf date.year 1000

theorem centuryLike_eq (small : -2 ^ 33 ≤ year ∧ year ≤ 2 ^ 33) (large : 2 ≤ span) :
    centuryLike year span = .ok (spanOf year span) := by
  unfold centuryLike spanOf
  split_ifs with positive
  · have half := natAbs_tdiv_le_half (x := year - 1) large
    rw [int64_bind (by omega), int64_small (by omega), tdiv_nonneg_eq (by omega)]
  · have half := natAbs_tdiv_le_half (x := year) large
    exact int64_small (by omega)

theorem tmod_nonneg_eq {x : Int} (nonneg : 0 ≤ x) (k : Int) : x.tmod k = x % k :=
  Int.tmod_eq_emod_of_nonneg nonneg

theorem integerPart_eq (field : Field) (isTime : IsTime t) :
    integerPart field t = .ok (field.value t) := by
  obtain ⟨isDay, low, high⟩ := isTime
  have year := year_day isDay
  have start := yearStart_small year
  have month := (Date.ofDayNumber t.days).isMonth
  have bounds := weekday_bounds t.days
  have small : -2 ^ 31 ≤ t.days ∧ t.days < 2 ^ 31 := isDay
  rw [integerPart, civilOf_day isDay, ok_bind]
  cases field
  case year | month | day | decade => rfl
  case hour => exact congrArg Except.ok (tdiv_nonneg_eq low _)
  case minute | second =>
    apply congrArg Except.ok
    rw [tdiv_nonneg_eq low, tmod_nonneg_eq (by omega)]
    rfl
  case millisecond =>
    apply congrArg Except.ok
    rw [tmod_nonneg_eq low, tdiv_nonneg_eq (by omega)]
    rfl
  case microsecond => exact congrArg Except.ok (tmod_nonneg_eq low _)
  case quarter =>
    dsimp only [CivilDate.ofDate]
    rw [int64_bind (by omega), tdiv_nonneg_eq (by omega)]
    exact int64_small (by omega)
  case week => exact isoWeekOf_eq isDay
  case isoyear => exact isoYearOf_eq isDay
  case dow =>
    dsimp only
    rw [int64_bind (by omega)]
    exact floorMod_eq (by omega) (by decide)
  case isodow =>
    dsimp only
    rw [weekday_day isDay, ok_bind]
    exact int64_small (by omega)
  case doy =>
    dsimp only [CivilDate.ofDate]
    rw [daysOf_january year, ok_bind, int64_bind (by omega)]
    exact int64_small (by omega)
  case century | millennium => exact centuryLike_eq year (by decide)

/-- The first day of the unit a day is in; decades and longer units truncate the year toward
zero. -/
def TruncUnit.startDay (unit : TruncUnit) (days : Int) : Int :=
  let date := Date.ofDayNumber days
  match unit with
  | .week => monday days
  | .isoyear => Calendar.isoYearStart (isoYear days)
  | .decade => yearStart (date.year.tdiv 10 * 10)
  | .century => yearStart (date.year.tdiv 100 * 100)
  | .millennium => yearStart (date.year.tdiv 1000 * 1000)
  | .month => monthStart date.year date.month
  | .quarter => monthStart date.year ((date.month - 1) / 3 * 3 + 1)
  | .year => yearStart date.year
  | _ => days

def TruncUnit.start (unit : TruncUnit) (t : DayTime) : DayTime :=
  match unit.step with
  | some step => ⟨t.days, t.micros - t.micros % step⟩
  | none => ⟨unit.startDay t.days, 0⟩

theorem tdiv_mul_small (small : -2 ^ 33 ≤ year ∧ year ≤ 2 ^ 33) (positive : 0 < span) :
    -2 ^ 33 ≤ year.tdiv span * span ∧ year.tdiv span * span ≤ 2 ^ 33 := by
  have split := Int.tdiv_mul_add_tmod year span
  rcases le_or_gt 0 year with nonneg | negative
  · have low := Int.tmod_nonneg span nonneg
    have quotient := Int.tdiv_nonneg nonneg positive.le
    have product := Int.mul_nonneg quotient positive.le
    omega
  · have high := Int.tmod_nonneg span (show 0 ≤ -year by omega)
    rw [Int.neg_tmod] at high
    have quotient := Int.tdiv_nonneg (show 0 ≤ -year by omega) positive.le
    have product := Int.mul_nonneg quotient positive.le
    rw [Int.neg_tdiv, Int.neg_mul] at product
    omega

theorem firstDay_eq (unit : TruncUnit) {days : Int} (isDay : IsDay days) :
    unit.firstDay days (.ofDate (.ofDayNumber days)) = .ok (unit.startDay days) := by
  have year := year_day isDay
  have month := (Date.ofDayNumber days).isMonth
  have bounds := weekday_bounds days
  have small : -2 ^ 31 ≤ days ∧ days < 2 ^ 31 := isDay
  have spans : ∀ span, 0 < span → (do
      daysOf (← int64 ((Date.ofDayNumber days).year.tdiv span * span)) 1 1) =
        .ok (yearStart ((Date.ofDayNumber days).year.tdiv span * span)) := by
    intro span positive
    have first := tdiv_mul_small year positive
    rw [int64_bind (by omega), daysOf_january first]
  cases unit
  case microsecond | millisecond | second | minute | hour | day => rfl
  case week =>
    dsimp only [TruncUnit.firstDay]
    rw [weekday_day isDay, ok_bind]
    exact int64_small (by omega)
  case isoyear =>
    dsimp only [TruncUnit.firstDay]
    rw [isoYearOf_eq isDay, ok_bind]
    exact isoYearStart_eq (isoYear_small isDay)
  case decade | century | millennium => exact spans _ (by decide)
  case month =>
    dsimp only [TruncUnit.firstDay, CivilDate.ofDate]
    rw [daysOf_eq (by omega) month (by decide), sub_self, add_zero]
    rfl
  case quarter =>
    dsimp only [TruncUnit.firstDay, CivilDate.ofDate]
    rw [int64_bind (by omega), tdiv_nonneg_eq (by omega), int64_bind (by omega),
      int64_bind (by omega), daysOf_eq (by omega) (by omega) (by decide), sub_self, add_zero]
    rfl
  case year => exact daysOf_january year

theorem TruncUnit.step_bounds {unit : TruncUnit} {step : Int} (isStep : unit.step = some step) :
    0 < step ∧ step ∣ 3600000000 := by
  cases unit <;> cases isStep <;> decide

theorem truncTime_eq (unit : TruncUnit) (isTime : IsTime t) :
    truncTime unit t = .ok (unit.start t) := by
  obtain ⟨isDay, low, high⟩ := isTime
  unfold kMicrosPerDay at high
  rw [truncTime, civilOf_day isDay, ok_bind, TruncUnit.start]
  cases isStep : unit.step with
  | none =>
    dsimp only
    rw [firstDay_eq unit isDay]
    rfl
  | some step =>
    obtain ⟨positive, divides⟩ := TruncUnit.step_bounds isStep
    have most := Int.le_of_dvd (by decide) divides
    have first := Int.emod_nonneg t.micros positive.ne'
    have last := Int.emod_lt_of_pos t.micros positive
    dsimp only
    rw [tmod_nonneg_eq low, int64_small (by omega)]
    rfl

def TimeValue.Held : TimeValue → Prop
  | .date days => IsDay days
  | .timestamp micros => InInt64 micros

/-- A TIMESTAMP that is an infinity or not below the lowest one. -/
def TimeValue.InRange : TimeValue → Prop
  | .date _ => True
  | .timestamp micros => kMinTimestamp ≤ micros ∨ micros = -kTimestampInfinity

def TimeValue.exact : TimeValue → Instant
  | .date days =>
    if days = kDateInfinity ∨ days = -kDateInfinity then .infinity (days > 0)
    else .finite ⟨days, 0⟩
  | .timestamp micros =>
    if micros = kTimestampInfinity ∨ micros = -kTimestampInfinity then .infinity (micros > 0)
    else .finite ⟨micros / kMicrosPerDay, micros % kMicrosPerDay⟩

theorem instant_eq {value : TimeValue} (held : value.Held) (inRange : value.InRange) :
    value.instant = .ok value.exact := by
  cases value with
  | date days =>
    dsimp only [TimeValue.instant, TimeValue.exact]
    split_ifs <;> rfl
  | timestamp micros =>
    dsimp only [TimeValue.instant, TimeValue.exact]
    split_ifs with infinite
    · rfl
    · have least : kMinTimestamp ≤ micros := inRange.resolve_right fun same => infinite (.inr same)
      dsimp only [TimeValue.Held, InInt64] at held
      unfold kMinTimestamp at least
      unfold kMicrosPerDay
      rw [floorDiv_eq held (by decide), ok_bind, int64_ok ⟨by omega, by omega⟩, ok_bind,
        int64_bind (by omega)]
      apply congrArg Except.ok
      congr 2
      omega

theorem exact_isTime {value : TimeValue} (held : value.Held) (finite : value.exact = .finite t) :
    IsTime t := by
  cases value with
  | date days =>
    dsimp only [TimeValue.exact] at finite
    split_ifs at finite
    cases finite
    exact ⟨held, le_rfl, show (0 : Int) < kMicrosPerDay by decide⟩
  | timestamp micros =>
    dsimp only [TimeValue.exact] at finite
    split_ifs at finite
    cases finite
    dsimp only [TimeValue.Held, InInt64] at held
    unfold kMicrosPerDay
    constructor
    case isDay => constructor <;> dsimp only <;> omega
    case micros =>
      dsimp only [kMicrosPerDay]
      omega

/-- The value of an EXTRACT field, or NULL; epoch is the seconds since 1970. -/
def extracted (field : Option Field) (value : TimeValue) : Option Extracted :=
  match value.exact, field, value with
  | .infinity _, _, _ => none
  | .finite t, some field, _ => some (.bigint (field.value t))
  | .finite _, none, .date days => some (.double (days * 86400) 1)
  | .finite _, none, .timestamp micros => some (.double micros 1000000)

/-- The start of the value's unit, or the infinity itself; a query fails outside the range of a
TIMESTAMP. -/
def truncated (unit : TruncUnit) (value : TimeValue) : Except Fault (Option Int) :=
  match value.exact with
  | .infinity positive => .ok (some (if positive then kTimestampInfinity else -kTimestampInfinity))
  | .finite t =>
    let start := (unit.start t).days * kMicrosPerDay + (unit.start t).micros
    if kMinTimestamp ≤ start ∧ start < kTimestampInfinity then .ok (some start)
    else .error outsideTimestamp

/-- A DATE some days later or earlier, or the infinity itself; a query fails outside the finite
DATEs. -/
def shifted (subtract : Bool) (row : Int × Int) : Except Fault (Option Int) :=
  let day := if subtract then row.1 - row.2 else row.1 + row.2
  if row.1 = kDateInfinity ∨ row.1 = -kDateInfinity then .ok (some row.1)
  else if IsDay day ∧ day ≠ kDateInfinity ∧ day ≠ -kDateInfinity then .ok (some day)
  else .error (.failed (.executionError "Date out of range"))

theorem start_micros (unit : TruncUnit) (isTime : IsTime t) :
    0 ≤ (unit.start t).micros ∧ (unit.start t).micros < kMicrosPerDay := by
  obtain ⟨_, low, high⟩ := isTime
  unfold TruncUnit.start
  cases isStep : unit.step with
  | none => exact ⟨le_rfl, show (0 : Int) < kMicrosPerDay by decide⟩
  | some step =>
    have positive := (TruncUnit.step_bounds isStep).1
    have first := Int.emod_nonneg t.micros positive.ne'
    have quotient := Int.mul_nonneg positive.le (Int.ediv_nonneg low positive.le)
    have split := Int.mul_ediv_add_emod t.micros step
    dsimp only
    omega

theorem timestampOf_eq {days micros : Int} (low : 0 ≤ micros) (high : micros < kMicrosPerDay) :
    timestampOf days micros =
      if kMinTimestamp ≤ days * kMicrosPerDay + micros ∧
        days * kMicrosPerDay + micros < kTimestampInfinity then
          .ok (days * kMicrosPerDay + micros)
      else .error outsideTimestamp := by
  unfold timestampOf InInt64 kTimestampInfinity kMinTimestamp
  unfold kMicrosPerDay at *
  dsimp only
  split_ifs <;> first | rfl | omega

section Values

variable {value : TimeValue} (held : value.Held) (inRange : value.InRange)
include held inRange

theorem extractValue_eq (field : Option Field) :
    extractValue field value = .ok (extracted field value) := by
  rw [extractValue, instant_eq held inRange, ok_bind]
  unfold extracted
  cases isExact : value.exact with
  | infinity positive => rfl
  | finite t =>
    have isTime := exact_isTime held isExact
    cases field with
    | some field =>
      dsimp only
      rw [integerPart_eq field isTime]
      rfl
    | none =>
      obtain ⟨low, high⟩ := isTime.isDay
      cases value with
      | date days =>
        dsimp only [TimeValue.exact] at isExact
        split_ifs at isExact
        cases isExact
        dsimp only at low high
        dsimp only [epochOf]
        rw [int64_small (by omega)]
        rfl
      | timestamp micros =>
        dsimp only [TimeValue.exact] at isExact
        split_ifs at isExact with infinite
        cases isExact
        have least : kMinTimestamp ≤ micros :=
          inRange.resolve_right fun same => infinite (.inr same)
        dsimp only [TimeValue.Held, InInt64] at held
        unfold kMinTimestamp at least
        unfold kMicrosPerDay at *
        have whole : micros / 86400000000 * 86400000000 + micros % 86400000000 = micros := by omega
        dsimp only [epochOf]
        unfold kMicrosPerDay
        rw [int64_ok ⟨by omega, by omega⟩, ok_bind, whole, int64_ok held]
        rfl

theorem dateTruncValue_eq (unit : TruncUnit) : dateTruncValue unit value = truncated unit value := by
  rw [dateTruncValue, instant_eq held inRange]
  unfold truncated
  change (Except.ok value.exact >>= _) = _
  rw [ok_bind]
  cases isExact : value.exact with
  | infinity positive => rfl
  | finite t =>
    have isTime := exact_isTime held isExact
    have micros := start_micros unit isTime
    dsimp only
    rw [truncTime_eq unit isTime]
    change (timestampOf _ _ >>= _) = _
    rw [timestampOf_eq micros.1 micros.2]
    split_ifs <;> rfl

end Values

theorem dateArithValue_eq {subtract : Bool} {row : Int × Int} (isDate : IsDay row.1)
    (isCount : IsDay row.2) : dateArithValue subtract row = shifted subtract row := by
  unfold IsDay at isDate isCount
  have day : row.1 + (if subtract then -row.2 else row.2) =
      if subtract then row.1 - row.2 else row.1 + row.2 := by
    split_ifs <;> omega
  unfold dateArithValue shifted
  refine if_congr Iff.rfl rfl ?_
  rw [int64_small (by split_ifs <;> omega)]
  change (liftOverflow (int64 (row.1 + _)) >>= _) = _
  rw [day, int64_small (by split_ifs <;> omega)]
  generalize (if subtract then row.1 - row.2 else row.1 + row.2) = value
  change (if _ then _ else _) = if _ then _ else _
  unfold IsDay kDateInfinity
  split_ifs <;> first | rfl | omega

theorem instant_below {value : TimeValue} (held : value.Held) (below : ¬ value.InRange) :
    value.instant = .error .int64 := by
  cases value with
  | date days => exact absurd trivial below
  | timestamp micros =>
    obtain ⟨less, finite⟩ := not_or.mp below
    dsimp only [TimeValue.Held, InInt64] at held
    unfold kMinTimestamp at less
    dsimp only [TimeValue.instant]
    rw [if_neg (by unfold kTimestampInfinity at *; omega)]
    unfold kMicrosPerDay
    rw [floorDiv_eq held (by decide), ok_bind, int64, if_neg (by unfold InInt64; omega)]
    rfl

theorem truncated_ne_overflow (unit : TruncUnit) (value : TimeValue) (type : Overflow) :
    truncated unit value ≠ .error (.overflow type) := by
  unfold truncated
  cases value.exact with
  | infinity positive => nofun
  | finite t =>
    dsimp only
    split_ifs
    · nofun
    · nofun

section Rows

variable {α β ε : Type} {f g : α → Except ε (Option β)} {rows : List (Option α)}

theorem forEachRow_none (f : α → Except ε (Option β)) (rows : List (Option α)) :
    forEachRow f (none :: rows) = (none :: ·) <$> forEachRow f rows := by
  simp [forEachRow]

theorem forEachRow_some (f : α → Except ε (Option β)) (value : α) (rows : List (Option α)) :
    forEachRow f (some value :: rows) =
      f value >>= fun result => (result :: ·) <$> forEachRow f rows := by
  simp [forEachRow]

theorem forEachRow_congr (same : ∀ value, some value ∈ rows → f value = g value) :
    forEachRow f rows = forEachRow g rows := by
  apply mapM_congr
  intro row among
  cases row with
  | none => rfl
  | some value => exact same value among

theorem forEachRow_ok (f : α → Option β) (rows : List (Option α)) :
    forEachRow (fun value => (.ok (f value) : Except ε (Option β))) rows =
      .ok (rows.map (Option.bind · f)) := by
  rw [← mapM_ok]
  apply mapM_congr
  intro row _
  cases row <;> rfl

theorem forEachRow_ne_error {error : ε} (never : ∀ value, g value ≠ .error error)
    (rows : List (Option α)) : forEachRow g rows ≠ .error error := by
  intro fails
  obtain ⟨row, -, isRow⟩ := mapM_error fails
  cases row with
  | none => cases isRow
  | some value => exact never value isRow

/-- The rows that a function comes to, as it fails at none of the rows before. -/
def Reached (g : α → Except ε (Option β)) (rows : List (Option α)) (value : α) : Prop :=
  ∃ before after, rows = before ++ some value :: after ∧
    ∀ earlier, some earlier ∈ before → ∃ result, g earlier = .ok result

theorem Reached.none_cons {value : α} : Reached g (none :: rows) value ↔ Reached g rows value := by
  constructor
  · rintro ⟨_ | ⟨row, before⟩, after, isRows, fine⟩
    · cases isRows
    · cases isRows
      exact ⟨before, after, rfl, fun earlier among => fine earlier (.tail _ among)⟩
  · rintro ⟨before, after, rfl, fine⟩
    refine ⟨none :: before, after, rfl, fun earlier among => ?_⟩
    rcases List.mem_cons.mp among with same | among
    · cases same
    · exact fine earlier among

theorem Reached.some_cons {first : α} {value : α} :
    Reached g (some first :: rows) value ↔
      value = first ∨ (∃ result, g first = .ok result) ∧ Reached g rows value := by
  constructor
  · rintro ⟨_ | ⟨row, before⟩, after, isRows, fine⟩
    · cases isRows
      exact .inl rfl
    · cases isRows
      exact .inr ⟨fine first (.head _), before, after, rfl,
        fun earlier among => fine earlier (.tail _ among)⟩
  · rintro (rfl | ⟨passes, before, after, rfl, fine⟩)
    · exact ⟨[], rows, rfl, nofun⟩
    · refine ⟨some first :: before, after, rfl, fun earlier among => ?_⟩
      rcases List.mem_cons.mp among with same | among
      · cases same
        exact passes
      · exact fine earlier among

/-- Two functions that differ only where the first fails as the second never does give the same
column just when the second comes to no row where they differ. -/
theorem forEachRow_eq_iff {Good : α → Prop} {error : ε} (never : ∀ value, g value ≠ .error error)
    (good : ∀ value, some value ∈ rows → Good value → f value = g value)
    (bad : ∀ value, some value ∈ rows → ¬ Good value → f value = .error error) :
    forEachRow f rows = forEachRow g rows ↔ ∀ value, Reached g rows value → Good value := by
  induction rows with
  | nil =>
    refine ⟨?_, fun _ => rfl⟩
    rintro _ value ⟨before, after, isRows, _⟩
    simp at isRows
  | cons row rows ih =>
    have tail := ih (fun value among => good value (.tail _ among))
      fun value among => bad value (.tail _ among)
    have mapped (result : Option β) :
        (result :: ·) <$> forEachRow f rows = (result :: ·) <$> forEachRow g rows ↔
          forEachRow f rows = forEachRow g rows := by
      cases forEachRow f rows <;> cases forEachRow g rows <;> simp
    cases row with
    | none =>
      simp only [forEachRow_none, mapped, tail, Reached.none_cons]
    | some first =>
      simp only [Reached.some_cons, forall_eq_or_imp, forEachRow_some]
      by_cases is : Good first
      · rw [good first (.head _) is]
        cases result : g first with
        | error other => exact ⟨fun _ => ⟨is, nofun⟩, fun _ => rfl⟩
        | ok result =>
          rw [ok_bind, ok_bind, mapped, tail]
          simp [is]
      · rw [bad first (.head _) is]
        refine ⟨fun same => ?_, fun all => absurd all.1 is⟩
        refine absurd ?_ (forEachRow_ne_error never (some first :: rows))
        rw [forEachRow_some]
        exact same.symm

end Rows

/-- EXTRACT is defined on a column just when its finite TIMESTAMPs are not below the lowest one,
date_trunc just when those it comes to are not, and the days added to a column of DATEs always
are. -/
theorem dateTime_defined (values : List (Option TimeValue))
    (held : ∀ value, some value ∈ values → value.Held)
    (subtract : Bool) (rows : List (Option Int × Option Int))
    (days : ∀ row ∈ rows, (∀ date ∈ row.1, IsDay date) ∧ ∀ count ∈ row.2, IsDay count) :
    (∀ field, extract values field = .ok (values.map (Option.bind · (extracted field))) ↔
        ∀ value, some value ∈ values → value.InRange) ∧
      (∀ unit, dateTrunc values unit = forEachRow (truncated unit) values ↔
        ∀ value, Reached (truncated unit) values value → value.InRange) ∧
      dateArith subtract rows =
        forEachRow (shifted subtract) (rows.map fun row => do return (← row.1, ← row.2)) := by
  refine ⟨fun field => ?_, fun unit => ?_, ?_⟩
  · rw [← forEachRow_ok]
    have never (value : TimeValue) :
        (.ok (extracted field value) : Except Overflow (Option Extracted)) ≠ .error .int64 := nofun
    refine (forEachRow_eq_iff never
      (fun value among inRange => extractValue_eq (held value among) inRange field)
      fun value among below => ?_).trans ⟨fun all value among => ?_, fun all value reached => ?_⟩
    · rw [extractValue, instant_below (held value among) below]
      rfl
    · obtain ⟨before, after, isRows⟩ := List.append_of_mem among
      exact all value ⟨before, after, isRows, fun earlier _ => ⟨_, rfl⟩⟩
    · obtain ⟨before, after, rfl, _⟩ := reached
      exact all value (List.mem_append_right _ (.head _))
  · refine forEachRow_eq_iff (fun value => truncated_ne_overflow unit value .int64)
      (fun value among inRange => dateTruncValue_eq (held value among) inRange unit)
      fun value among below => ?_
    rw [dateTruncValue, instant_below (held value among) below]
    rfl
  · apply forEachRow_congr
    intro value among
    obtain ⟨⟨date, count⟩, inRows, isRow⟩ := List.mem_map.mp among
    cases date with
    | none => cases isRow
    | some date =>
      cases count with
      | none => cases isRow
      | some count =>
        cases isRow
        exact dateArithValue_eq ((days _ inRows).1 date rfl) ((days _ inRows).2 count rfl)

/-- The lowest TIMESTAMP's year, a month whose start fails before a value below it, and a DATE one
day from infinity. -/
theorem dateTime_defined_lowest :
    extract [some (.timestamp kMinTimestamp)] (some .year) = .ok [some (.bigint (-290308))] ∧
      dateTrunc [some (.timestamp kMinTimestamp), some (.timestamp (-2 ^ 63))] .month =
        .error outsideTimestamp ∧
      dateArith false [(some (2 ^ 31 - 2), some 1)] =
        .error (.failed (.executionError "Date out of range")) := by
  have dates : ∀ row ∈ [((some (2 ^ 31 - 2) : Option Int), (some 1 : Option Int))],
      (∀ date ∈ row.1, IsDay date) ∧ ∀ count ∈ row.2, IsDay count := by
    intro row among
    cases List.mem_singleton.mp among
    decide +kernel
  have lowest : (TimeValue.timestamp kMinTimestamp).Held := show InInt64 kMinTimestamp by decide
  refine ⟨?_, ?_, ?_⟩
  · refine (((dateTime_defined [some (.timestamp kMinTimestamp)] ?_ false [] nofun).1 _).mpr
      ?_).trans (by decide +kernel)
    · intro value among
      cases List.mem_singleton.mp among
      exact lowest
    · intro value among
      cases List.mem_singleton.mp among
      exact .inl le_rfl
  · refine (((dateTime_defined [some (.timestamp kMinTimestamp), some (.timestamp (-2 ^ 63))] ?_ false
      [] nofun).2.1 _).mpr ?_).trans (by decide +kernel)
    · simp only [List.mem_cons, List.not_mem_nil, or_false, Option.some.injEq, forall_eq_or_imp,
        forall_eq]
      exact ⟨lowest, show InInt64 (-2 ^ 63) by decide⟩
    · intro value reached
      rcases Reached.some_cons.mp reached with rfl | ⟨⟨result, fails⟩, _⟩
      · exact .inl le_rfl
      · cases (show truncated .month (.timestamp kMinTimestamp) = .error outsideTimestamp by
          decide +kernel).symm.trans fails
  · exact (dateTime_defined [] nofun false _ dates).2.2.trans (by decide +kernel)

/-- The multiplication back to microseconds overflows below the lowest TIMESTAMP. -/
theorem instant_overflows :
    (TimeValue.timestamp (-2 ^ 63)).Held ∧
      extract [some (.timestamp (-2 ^ 63))] (some .year) = .error .int64 ∧
      dateTrunc [some (.timestamp (-2 ^ 63))] .day = .error (.overflow .int64) := by
  refine ⟨show InInt64 (-2 ^ 63) by decide, ?_, ?_⟩ <;> decide +kernel

end Antb1.Exec.DateTime
