import Antb1.Exec.DateTimeProofs

/-! The calendar fields of a day determine it, and date_trunc is the latest start of a unit, or
the truncated year's for decades and longer units. -/
namespace Antb1.Exec.DateTime

open Calendar Lib

variable {unit : TruncUnit} {t : DayTime}

def TruncUnit.StartsDay (unit : TruncUnit) (day : Int) : Prop :=
  match unit with
  | .week => weekday day = 0
  | .isoyear => ∃ year, day = Calendar.isoYearStart year
  | .decade => ∃ n, day = yearStart (10 * n)
  | .century => ∃ n, day = yearStart (100 * n)
  | .millennium => ∃ n, day = yearStart (1000 * n)
  | .month => ∃ year month, (1 ≤ month ∧ month ≤ 12) ∧ day = monthStart year month
  | .quarter => ∃ year n, (0 ≤ n ∧ n ≤ 3) ∧ day = monthStart year (n * 3 + 1)
  | .year => ∃ year, day = yearStart year
  | _ => True

def TruncUnit.Starts (unit : TruncUnit) (micros : Int) : Prop :=
  match unit.step with
  | some step => step ∣ micros
  | none => ∃ day, unit.StartsDay day ∧ micros = day * kMicrosPerDay

def TruncUnit.span : TruncUnit → Option Int
  | .decade => some 10
  | .century => some 100
  | .millennium => some 1000
  | _ => none

theorem monday_greatest (days : Int) :
    IsGreatest {day | weekday day = 0 ∧ day ≤ days} (monday days) := by
  unfold monday weekday
  refine ⟨⟨by omega, by omega⟩, ?_⟩
  rintro day ⟨isMonday, le⟩
  omega

theorem monthStart_le_yearStart {year month later : Int} (isMonth : 1 ≤ month ∧ month ≤ 12)
    (less : year < later) : monthStart year month ≤ yearStart later := by
  have last := monthStart_mono year isMonth.1 isMonth.2 le_rfl
  have next := yearStart_strictMono.monotone (show year + 1 ≤ later by omega)
  have december := monthStart_december year
  have length := monthLength_bounds year 12
  omega

/-- A month that starts not after a day is that day's month or an earlier one. -/
theorem month_le {year month days : Int} (isMonth : 1 ≤ month ∧ month ≤ 12)
    (le : monthStart year month ≤ days) :
    year < (Date.ofDayNumber days).year ∨
      year = (Date.ofDayNumber days).year ∧ month ≤ (Date.ofDayNumber days).month := by
  have inside := (Date.ofDayNumber days).dayNumber_lt_monthEnd
  have inYear := Date.lt_yearStart days
  rw [Date.dayNumber_ofDayNumber] at inside
  rcases lt_trichotomy year (Date.ofDayNumber days).year with less | same | more
  · exact .inl less
  · refine .inr ⟨same, ?_⟩
    by_contra later
    have start := monthStart_le year (Date.ofDayNumber days).isMonth.1 (not_le.mp later) isMonth.2
    rw [← same] at inside
    omega
  · have next := yearStart_strictMono.monotone
      (show (Date.ofDayNumber days).year + 1 ≤ year by omega)
    have first := monthStart_mono year le_rfl isMonth.1 isMonth.2
    rw [monthStart_january] at first
    omega

theorem startDay_greatest (short : unit.span = none) (days : Int) :
    IsGreatest {day | unit.StartsDay day ∧ day ≤ days} (unit.startDay days) := by
  have month := (Date.ofDayNumber days).isMonth
  have inMonth := (Date.ofDayNumber days).monthStart_le_dayNumber
  rw [Date.dayNumber_ofDayNumber] at inMonth
  cases unit
  case decade | century | millennium => cases short
  case microsecond | millisecond | second | minute | hour | day =>
    exact ⟨⟨trivial, le_rfl⟩, fun day starts => starts.2⟩
  case week => exact monday_greatest days
  case isoyear =>
    refine ⟨⟨⟨_, rfl⟩, isoYearStart_le days⟩, ?_⟩
    rintro day ⟨⟨year, rfl⟩, le⟩
    have less := isoYearStart_strictMono.lt_iff_lt.mp (le.trans_lt (lt_isoYearStart days))
    exact isoYearStart_strictMono.monotone (show year ≤ isoYear days by omega)
  case year =>
    refine ⟨⟨⟨_, rfl⟩, Date.yearStart_le days⟩, ?_⟩
    rintro day ⟨⟨year, rfl⟩, le⟩
    have less := yearStart_strictMono.lt_iff_lt.mp (le.trans_lt (Date.lt_yearStart days))
    exact yearStart_strictMono.monotone (show year ≤ (Date.ofDayNumber days).year by omega)
  case month =>
    refine ⟨⟨⟨_, _, month, rfl⟩, inMonth⟩, ?_⟩
    rintro day ⟨⟨year, m, isMonth, rfl⟩, le⟩
    rcases month_le isMonth le with less | ⟨rfl, before⟩
    · have first := monthStart_mono (Date.ofDayNumber days).year le_rfl month.1 month.2
      rw [monthStart_january] at first
      exact (monthStart_le_yearStart isMonth less).trans first
    · exact monthStart_mono _ isMonth.1 before month.2
  case quarter =>
    have first : monthStart (Date.ofDayNumber days).year
        (((Date.ofDayNumber days).month - 1) / 3 * 3 + 1) ≤ days :=
      (monthStart_mono _ (by omega) (by omega) month.2).trans inMonth
    refine ⟨⟨⟨_, _, by omega, rfl⟩, first⟩, ?_⟩
    rintro day ⟨⟨year, n, isQuarter, rfl⟩, le⟩
    rcases month_le (by omega) le with less | ⟨rfl, before⟩
    · have january := monthStart_mono (Date.ofDayNumber days).year le_rfl
        (show 1 ≤ ((Date.ofDayNumber days).month - 1) / 3 * 3 + 1 by omega) (by omega)
      rw [monthStart_january] at january
      exact (monthStart_le_yearStart (by omega) less).trans january
    · exact monthStart_mono _ (by omega) (by omega) (by omega)

def DayTime.total (t : DayTime) : Int := t.days * kMicrosPerDay + t.micros

theorem start_greatest (short : unit.span = none) (isTime : IsTime t) :
    IsGreatest {micros | unit.Starts micros ∧ micros ≤ t.total} (unit.start t).total := by
  obtain ⟨_, low, high⟩ := isTime
  unfold TruncUnit.Starts TruncUnit.start DayTime.total
  cases isStep : unit.step with
  | some step =>
    obtain ⟨positive, divides⟩ := TruncUnit.step_bounds isStep
    have whole : step ∣ t.days * kMicrosPerDay :=
      (divides.trans (by decide)).mul_left _
    have split := Int.mul_ediv_add_emod t.micros step
    have rest := Int.emod_nonneg t.micros positive.ne'
    dsimp only
    refine ⟨⟨?_, by omega⟩, ?_⟩
    · rw [show t.micros - t.micros % step = step * (t.micros / step) by omega]
      exact Int.dvd_add whole (dvd_mul_right _ _)
    · rintro micros ⟨starts, le⟩
      obtain ⟨n, rfl⟩ := starts
      obtain ⟨d, isDays⟩ := whole
      rw [isDays] at le ⊢
      have below : step * (n - d) ≤ t.micros := by linarith [mul_sub step n d]
      have quotient : n - d ≤ t.micros / step := by
        rw [Int.le_ediv_iff_mul_le positive, mul_comm]
        exact below
      have scaled := Int.mul_le_mul_of_nonneg_left quotient positive.le
      linarith [mul_sub step n d]
  | none =>
    obtain ⟨⟨starts, le⟩, latest⟩ := startDay_greatest short t.days
    unfold kMicrosPerDay at *
    dsimp only
    refine ⟨⟨⟨_, starts, add_zero _⟩, by omega⟩, ?_⟩
    rintro micros ⟨⟨day, isDay, rfl⟩, before⟩
    have first := latest ⟨isDay, (show day ≤ t.days by omega)⟩
    omega

theorem year_mono {a b : Int} (le : a ≤ b) :
    (Date.ofDayNumber a).year ≤ (Date.ofDayNumber b).year := by
  have less := yearStart_strictMono.lt_iff_lt.mp
    ((Date.yearStart_le a).trans_lt (le.trans_lt (Date.lt_yearStart b)))
  omega

theorem year_yearStart (year : Int) : (Date.ofDayNumber (yearStart year)).year = year := by
  have low := yearStart_strictMono.le_iff_le.mp (Date.yearStart_le (yearStart year))
  have high := yearStart_strictMono.lt_iff_lt.mp (Date.lt_yearStart (yearStart year))
  omega

theorem startDay_span {span : Int} (long : unit.span = some span) (days : Int) :
    unit.startDay days = yearStart ((Date.ofDayNumber days).year.tdiv span * span) := by
  cases unit <;> cases long <;> rfl

theorem span_step {span : Int} (long : unit.span = some span) : unit.step = none ∧ 0 < span := by
  cases unit <;> cases long <;> decide

theorem start_span {span : Int} (long : unit.span = some span) (t : DayTime) :
    unit.start t = ⟨yearStart ((Date.ofDayNumber t.days).year.tdiv span * span), 0⟩ := by
  unfold TruncUnit.start
  rw [(span_step long).1, ← startDay_span long]

theorem days_le_of_total {t u : DayTime} (isTime : IsTime t) (isTime' : IsTime u)
    (le : t.total ≤ u.total) : t.days ≤ u.days := by
  obtain ⟨_, low, _⟩ := isTime
  obtain ⟨_, _, high⟩ := isTime'
  unfold DayTime.total at le
  unfold kMicrosPerDay at *
  omega

theorem start_mono (unit : TruncUnit) {t u : DayTime} (isTime : IsTime t) (isTime' : IsTime u)
    (le : t.total ≤ u.total) : (unit.start t).total ≤ (unit.start u).total := by
  cases isSpan : unit.span with
  | none =>
    apply (start_greatest isSpan isTime).mono (start_greatest isSpan isTime')
    exact fun micros starts => ⟨starts.1, starts.2.trans le⟩
  | some span =>
    have positive := (span_step isSpan).2
    have years := Int.tdiv_le_tdiv positive (year_mono (days_le_of_total isTime isTime' le))
    have starts := yearStart_strictMono.monotone (Int.mul_le_mul_of_nonneg_right years positive.le)
    rw [start_span isSpan, start_span isSpan]
    unfold DayTime.total kMicrosPerDay
    dsimp only
    omega

theorem start_start (unit : TruncUnit) (isTime : IsTime t) (isStart : IsTime (unit.start t)) :
    (unit.start (unit.start t)).total = (unit.start t).total := by
  cases isSpan : unit.span with
  | none =>
    apply (start_greatest isSpan isStart).unique
    exact ⟨⟨(start_greatest isSpan isTime).1.1, le_rfl⟩, fun micros starts => starts.2⟩
  | some span =>
    have positive := (span_step isSpan).2
    rw [start_span isSpan, start_span isSpan t]
    dsimp only
    rw [year_yearStart, Int.mul_tdiv_cancel _ positive.ne']

theorem dateTruncValue_finite {value : TimeValue} (held : value.Held) (inRange : value.InRange)
    (finite : value.exact = .finite t) :
    dateTruncValue unit value =
      if kMinTimestamp ≤ (unit.start t).total ∧ (unit.start t).total < kTimestampInfinity then
        .ok (some (unit.start t).total)
      else .error outsideTimestamp := by
  rw [dateTruncValue_eq held inRange, truncated, finite]
  rfl

theorem dateTruncValue_ok {value : TimeValue} {r : Int} (held : value.Held)
    (finite : value.exact = .finite t) (ok : dateTruncValue unit value = .ok (some r)) :
    r = (unit.start t).total ∧ kMinTimestamp ≤ r ∧ r < kTimestampInfinity := by
  have inRange : value.InRange := by
    by_contra below
    rw [dateTruncValue, instant_below held below] at ok
    cases ok
  rw [dateTruncValue_finite held inRange finite] at ok
  split_ifs at ok with inside
  cases ok
  exact ⟨rfl, inside⟩

theorem exact_timestamp {r : Int} (low : kMinTimestamp ≤ r) (high : r < kTimestampInfinity) :
    (TimeValue.timestamp r).Held ∧ (TimeValue.timestamp r).InRange ∧
      (TimeValue.timestamp r).exact = .finite ⟨r / kMicrosPerDay, r % kMicrosPerDay⟩ := by
  have finite : ¬ (r = kTimestampInfinity ∨ r = -kTimestampInfinity) := by
    unfold kMinTimestamp at low
    unfold kTimestampInfinity at *
    omega
  refine ⟨?_, .inl low, if_neg finite⟩
  unfold kMinTimestamp at low
  unfold kTimestampInfinity at high
  exact ⟨by omega, by omega⟩

theorem dateTruncValue_timestamp {r : Int} (isTime : IsTime t) (isResult : r = (unit.start t).total)
    (low : kMinTimestamp ≤ r) (high : r < kTimestampInfinity) :
    dateTruncValue unit (.timestamp r) = .ok (some r) := by
  obtain ⟨held, inRange, finite⟩ := exact_timestamp low high
  have micros := start_micros unit isTime
  have place : unit.start t = ⟨r / kMicrosPerDay, r % kMicrosPerDay⟩ := by
    rw [isResult, DayTime.total]
    generalize unit.start t = start at micros
    cases start
    unfold kMicrosPerDay at *
    dsimp only at *
    congr 1 <;> omega
  rw [← place] at finite
  have again := start_start unit isTime (exact_isTime held finite)
  unfold DayTime.total at again isResult
  rw [dateTruncValue_eq held inRange, truncated, finite]
  dsimp only
  rw [again, ← isResult, if_pos ⟨low, high⟩]

/-- The laws of date_trunc by a unit on finite values: it has a result unless the start of the
value's unit is outside the range of a TIMESTAMP. -/
structure TruncUnit.IsFloor (unit : TruncUnit) : Prop where
  found : ∀ {value : TimeValue} {t : DayTime}, value.Held → value.InRange →
    value.exact = .finite t → dateTruncValue unit value =
      if kMinTimestamp ≤ (unit.start t).total ∧ (unit.start t).total < kTimestampInfinity then
        .ok (some (unit.start t).total)
      else .error outsideTimestamp
  idempotent : ∀ {value : TimeValue} {t : DayTime} {r : Int}, value.Held →
    value.exact = .finite t → dateTruncValue unit value = .ok (some r) →
      dateTruncValue unit (.timestamp r) = .ok (some r)
  monotone : ∀ {value later : TimeValue} {t u : DayTime} {r s : Int}, value.Held → later.Held →
    value.exact = .finite t → later.exact = .finite u → t.total ≤ u.total →
      dateTruncValue unit value = .ok (some r) → dateTruncValue unit later = .ok (some s) → r ≤ s
  latest : unit.span = none → ∀ {value : TimeValue} {t : DayTime} {r : Int}, value.Held →
    value.exact = .finite t → dateTruncValue unit value = .ok (some r) →
      IsGreatest {micros | unit.Starts micros ∧ micros ≤ t.total} r

/-- The fields of a day and time give its day back. -/
structure FieldsDetermine (t : DayTime) : Prop where
  civil : ∃ date : CivilDate, civilOf t.days = .ok date ∧
    daysOf date.year date.month date.day = .ok t.days ∧ (1 ≤ date.month ∧ date.month ≤ 12) ∧
      1 ≤ date.day ∧ date.day ≤ monthLength date.year date.month
  iso : ∃ year week isodow start, integerPart .isoyear t = .ok year ∧
    integerPart .week t = .ok week ∧ integerPart .isodow t = .ok isodow ∧
      isoYearStart year = .ok start ∧ start + 7 * (week - 1) + (isodow - 1) = t.days ∧
        1 ≤ week ∧ week ≤ 53
  january : integerPart .month t = .ok 1 → integerPart .day t = .ok 1 →
    integerPart .doy t = .ok 1
  nextDay : ∀ {u : DayTime}, IsTime u → u.days = t.days + 1 →
    integerPart .year u = integerPart .year t →
      ∃ n, integerPart .doy t = .ok n ∧ integerPart .doy u = .ok (n + 1)

theorem daysOf_civil {days : Int} (isDay : IsDay days) :
    daysOf (Date.ofDayNumber days).year (Date.ofDayNumber days).month
      (Date.ofDayNumber days).day = .ok days := by
  have year := year_day isDay
  have day := (Date.ofDayNumber days).isDay
  have length := monthLength_bounds (Date.ofDayNumber days).year (Date.ofDayNumber days).month
  rw [daysOf_eq (by omega) (Date.ofDayNumber days).isMonth (by omega)]
  exact congrArg Except.ok (Date.dayNumber_ofDayNumber days)

theorem fieldsDetermine (isTime : IsTime t) : FieldsDetermine t := by
  have isDay := isTime.isDay
  have place := isoWeek_spec t.days
  constructor
  case civil =>
    exact ⟨_, civilOf_day isDay, daysOf_civil isDay, (Date.ofDayNumber t.days).isMonth,
      (Date.ofDayNumber t.days).isDay⟩
  case iso =>
    refine ⟨_, _, _, _, integerPart_eq _ isTime, integerPart_eq _ isTime, integerPart_eq _ isTime,
      isoYearStart_eq (isoYear_small isDay), ?_, place.2⟩
    dsimp only [Field.value]
    omega
  case january =>
    intro isJanuary isFirst
    rw [integerPart_eq _ isTime] at isJanuary isFirst ⊢
    have number := Date.dayNumber_ofDayNumber t.days
    simp only [Field.value, Except.ok.injEq] at isJanuary isFirst ⊢
    rw [Date.dayNumber, isJanuary, isFirst, monthStart_january] at number
    omega
  case nextDay =>
    intro u isTime' next sameYear
    rw [integerPart_eq _ isTime, integerPart_eq _ isTime'] at sameYear
    simp only [Field.value, Except.ok.injEq] at sameYear
    refine ⟨_, integerPart_eq _ isTime, (integerPart_eq _ isTime').trans ?_⟩
    simp only [Field.value, Except.ok.injEq]
    rw [sameYear]
    omega

theorem isFloor (unit : TruncUnit) : unit.IsFloor := by
  constructor
  case found => exact dateTruncValue_finite
  case idempotent =>
    intro value t r held finite ok
    obtain ⟨isResult, low, high⟩ := dateTruncValue_ok held finite ok
    exact dateTruncValue_timestamp (exact_isTime held finite) isResult low high
  case monotone =>
    intro value later t u r s held held' finite finite' le ok ok'
    rw [(dateTruncValue_ok held finite ok).1, (dateTruncValue_ok held' finite' ok').1]
    exact start_mono unit (exact_isTime held finite) (exact_isTime held' finite') le
  case latest =>
    intro short value t r held finite ok
    rw [(dateTruncValue_ok held finite ok).1]
    exact start_greatest short (exact_isTime held finite)

/-- The calendar fields of every day and time determine the day, and date_trunc is a floor. -/
theorem calendar_exact :
    (∀ t : DayTime, IsTime t → FieldsDetermine t) ∧ ∀ unit : TruncUnit, unit.IsFloor :=
  ⟨fun _ => fieldsDetermine, isFloor⟩

/-- The last microsecond of 1999, and its month. -/
theorem calendar_exact_century :
    FieldsDetermine ⟨10956, 86399999999⟩ ∧
      dateTruncValue .month (.timestamp (10956 * kMicrosPerDay + 86399999999)) =
        .ok (some (10926 * kMicrosPerDay)) ∧
      IsGreatest
        {micros | TruncUnit.month.Starts micros ∧ micros ≤ 10956 * kMicrosPerDay + 86399999999}
        (10926 * kMicrosPerDay) := by
  have held : (TimeValue.timestamp (10956 * kMicrosPerDay + 86399999999)).Held :=
    show InInt64 _ by decide
  have finite : (TimeValue.timestamp (10956 * kMicrosPerDay + 86399999999)).exact =
      .finite ⟨10956, 86399999999⟩ := by decide +kernel
  have month := ((calendar_exact.2 .month).found held (.inl (by decide)) finite).trans
    (show _ = .ok (some (10926 * kMicrosPerDay)) by decide +kernel)
  exact ⟨calendar_exact.1 _ ⟨by decide, by decide⟩, month,
    (calendar_exact.2 .month).latest rfl held finite month⟩

/-- Truncation rolls up: where a unit's starts are starts of a finer one, values truncated to the
finer unit first truncate to the same. -/
theorem dateTruncValue_rollUp {fine coarse : TruncUnit}
    (nested : ∀ micros, coarse.Starts micros → fine.Starts micros) (short : fine.span = none)
    (short' : coarse.span = none) {value : TimeValue} {r s : Int} (held : value.Held)
    (finite : value.exact = .finite t) (ok : dateTruncValue fine value = .ok (some r))
    (ok' : dateTruncValue coarse value = .ok (some s)) :
    dateTruncValue coarse (.timestamp r) = .ok (some s) := by
  obtain ⟨isFine, low, high⟩ := dateTruncValue_ok held finite ok
  obtain ⟨isCoarse, inside⟩ := dateTruncValue_ok held finite ok'
  obtain ⟨held', inRange, finite'⟩ := exact_timestamp low high
  have isTime := exact_isTime held finite
  have floor := start_greatest short isTime
  have floor' := start_greatest short' isTime
  have again := start_greatest short' (exact_isTime held' finite')
  rw [← isFine] at floor
  rw [← isCoarse] at floor'
  have whole : DayTime.total ⟨r / kMicrosPerDay, r % kMicrosPerDay⟩ = r := Int.ediv_mul_add_emod r _
  rw [whole] at again
  have same := again.unique ⟨⟨floor'.1.1, floor.2 ⟨nested s floor'.1.1, floor'.1.2⟩⟩,
    fun micros starts => floor'.2 ⟨starts.1, starts.2.trans floor.1.2⟩⟩
  rw [dateTruncValue_eq held' inRange, truncated, finite']
  unfold DayTime.total at same
  dsimp only
  rw [same, if_pos inside]

/-- The month and then the year of 1999-12-31. -/
theorem dateTruncValue_rollUp_month :
    dateTruncValue .month (.date 10956) = .ok (some (10926 * kMicrosPerDay)) ∧
      dateTruncValue .year (.timestamp (10926 * kMicrosPerDay)) =
        .ok (some (10592 * kMicrosPerDay)) := by
  have held : (TimeValue.date 10956).Held := ⟨by decide, by decide⟩
  have month : dateTruncValue .month (.date 10956) = .ok (some (10926 * kMicrosPerDay)) := rfl
  refine ⟨month, dateTruncValue_rollUp ?_ rfl rfl held rfl month rfl⟩
  rintro _ ⟨_, ⟨year, rfl⟩, rfl⟩
  exact ⟨_, ⟨year, 1, by decide, (monthStart_january year).symm⟩, rfl⟩

end Antb1.Exec.DateTime
