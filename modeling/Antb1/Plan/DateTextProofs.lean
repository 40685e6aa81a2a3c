import Antb1.Plan.DateText
import Mathlib.Data.List.TakeWhile

/-! The text of a DATE names the one date of its day, dates and timestamps of the years 1 to 9999
read back as they were written, and no step overflows. -/
namespace Antb1.Plan.DateText

open Calendar Digits Lib List

variable {days day micros : Int} {date : Date}

/-- A date as it is printed: a year before 1 as BC. -/
def dateText (date : Date) : List Char :=
  if date.year ≤ 0 then
    dashed (1 - date.year).toNat date.month.toNat date.day.toNat ++ " (BC)".toList
  else dashed date.year.toNat date.month.toNat date.day.toNat

theorem step_small {x : Int} (small : -2 ^ 62 ≤ x ∧ x ≤ 2 ^ 62) : step x = .ok x := by
  rw [step, int64_small small]
  rfl

theorem year_bounds (low : -2 ^ 31 ≤ days) (high : days < 2 ^ 31) :
    -2 ^ 33 ≤ (Date.ofDayNumber days).year := by
  have start := Date.lt_yearStart days
  unfold yearStart at start
  omega

theorem formatDate_eq (low : -2 ^ 31 ≤ days) (high : days < 2 ^ 31)
    (finite : days ≠ 2 ^ 31 - 1 ∧ days ≠ -(2 ^ 31 - 1)) :
    formatDate days = .ok (dateText (.ofDayNumber days)) := by
  have year := year_bounds low high
  have floor : (if days + 719468 ≥ 0 then days + 719468
      else days + 719468 - 146096).tdiv 146097 = eraOf days := by
    unfold eraOf
    split_ifs with nonneg
    · exact tdiv_nonneg_eq nonneg _
    · rw [Int.tdiv_eq_ediv, show Int.sign 146097 = 1 from rfl]
      split_ifs <;> omega
  rw [formatDate, if_neg finite.1, if_neg finite.2, step_small (by omega), ok_bind,
    step_small (by split_ifs <;> omega), ok_bind]
  dsimp only
  rw [floor, civilOfEra_eq (by omega) (by omega)]
  change (if (Date.ofDayNumber days).year ≤ 0 then _ else _) = _
  unfold dateText
  split_ifs
  · change (step (1 - (Date.ofDayNumber days).year) >>= _) = _
    rw [step_small (by omega)]
    rfl
  · rfl

structure IsDated (text years months days : List Char) : Prop where
  text : text = years ++ '-' :: months ++ '-' :: days
  years : Decimal years ∧ years.length = 4
  months : Decimal months ∧ months.length = 2
  days : Decimal days ∧ days.length = 2

theorem all_isDigit {digits : List Char} : digits.all Char.isDigit = true ↔ Decimal digits := by
  rw [all_eq_true]
  rfl

theorem parseDate_dated {text years months days : List Char}
    (dated : IsDated text years months days) :
    parseDate text = (dateOf (value years) (value months) (value days)).map Date.dayNumber := by
  obtain ⟨rfl, ⟨decimal₁, length₁⟩, ⟨decimal₂, length₂⟩, ⟨decimal₃, length₃⟩⟩ := dated
  rcases years with _ | ⟨a, _ | ⟨b, _ | ⟨c, _ | ⟨d, _ | ⟨_, _⟩⟩⟩⟩⟩ <;> try cases length₁
  rcases months with _ | ⟨e, _ | ⟨f, _ | ⟨_, _⟩⟩⟩ <;> try cases length₂
  rcases days with _ | ⟨g, _ | ⟨h, _ | ⟨_, _⟩⟩⟩ <;> try cases length₃
  have year : field [a, b, c, d, '-', e, f, '-', g, h] 0 4 = some (value [a, b, c, d]) :=
    if_pos (all_isDigit.mpr decimal₁)
  have month : field [a, b, c, d, '-', e, f, '-', g, h] 5 2 = some (value [e, f]) :=
    if_pos (all_isDigit.mpr decimal₂)
  have day : field [a, b, c, d, '-', e, f, '-', g, h] 8 2 = some (value [g, h]) :=
    if_pos (all_isDigit.mpr decimal₃)
  have whole : ¬ ([a, b, c, d, '-', e, f, '-', g, h].length ≠ 10 ∨
      [a, b, c, d, '-', e, f, '-', g, h][4]? ≠ some '-' ∨
        [a, b, c, d, '-', e, f, '-', g, h][7]? ≠ some '-') := by simp
  simp only [cons_append, nil_append]
  rw [parseDate, if_neg whole, year, month, day]
  change (dateOf (value [a, b, c, d]) (value [e, f]) (value [g, h]) >>= _) = _
  cases dateOf (value [a, b, c, d]) (value [e, f]) (value [g, h]) <;> rfl

theorem exists_dated {text : List Char} (parsed : parseDate text = some day) :
    ∃ years months days, IsDated text years months days := by
  unfold parseDate at parsed
  split_ifs at parsed with whole
  simp only [not_or, not_not] at whole
  obtain ⟨length, dash, dash'⟩ := whole
  rcases text with _ | ⟨a, _ | ⟨b, _ | ⟨c, _ | ⟨d, _ | ⟨x, _ | ⟨e, _ | ⟨f, _ | ⟨y, _ | ⟨g, _ | ⟨h, _ |
    ⟨_, _⟩⟩⟩⟩⟩⟩⟩⟩⟩⟩⟩ <;> try cases length
  cases dash
  cases dash'
  obtain ⟨year, isYear, parsed⟩ := Option.bind_eq_some_iff.mp parsed
  obtain ⟨month, isMonth, parsed⟩ := Option.bind_eq_some_iff.mp parsed
  obtain ⟨day, isDay, _⟩ := Option.bind_eq_some_iff.mp parsed
  unfold field at isYear isMonth isDay
  dsimp only at isYear isMonth isDay
  split_ifs at isYear with decimal₁
  split_ifs at isMonth with decimal₂
  split_ifs at isDay with decimal₃
  exact ⟨[a, b, c, d], [e, f], [g, h], rfl, ⟨all_isDigit.mp decimal₁, rfl⟩,
    ⟨all_isDigit.mp decimal₂, rfl⟩, ⟨all_isDigit.mp decimal₃, rfl⟩⟩

theorem dashed_dated {year month day : Nat} (isYear : year < 10000) (isMonth : month < 100)
    (isDay : day < 100) :
    IsDated (dashed year month day) (padded 4 year) (padded 2 month) (padded 2 day) where
  text := rfl
  years := ⟨(padded_spec 4 year).1, padded_length (by decide) isYear⟩
  months := ⟨(padded_spec 2 month).1, padded_length (by decide) isMonth⟩
  days := ⟨(padded_spec 2 day).1, padded_length (by decide) isDay⟩

theorem dateOf_date (date : Date) : dateOf date.year date.month date.day = some date :=
  dif_pos ⟨date.isMonth, date.isDay⟩

theorem dateOf_eq_some {year month day : Int} (isDate : dateOf year month day = some date) :
    date.year = year ∧ date.month = month ∧ date.day = day := by
  unfold dateOf at isDate
  split_ifs at isDate
  cases isDate
  exact ⟨rfl, rfl, rfl⟩

def IsCommon (date : Date) : Prop := 1 ≤ date.year ∧ date.year ≤ 9999

theorem dateText_common (common : IsCommon date) :
    dateText date = dashed date.year.toNat date.month.toNat date.day.toNat := by
  unfold IsCommon at common
  exact if_neg (by omega)

theorem date_digits (common : IsCommon date) :
    date.year.toNat < 10000 ∧ date.month.toNat < 100 ∧ date.day.toNat < 100 := by
  have month := date.isMonth
  have day := date.isDay
  have length := monthLength_bounds date.year date.month
  unfold IsCommon at common
  omega

theorem parseDate_dateText (common : IsCommon date) :
    parseDate (dateText date) = some date.dayNumber := by
  obtain ⟨isYear, isMonth, isDay⟩ := date_digits common
  have month := date.isMonth
  have day := date.isDay
  unfold IsCommon at common
  rw [dateText_common common, parseDate_dated (dashed_dated isYear isMonth isDay),
    (padded_spec _ _).2, (padded_spec _ _).2, (padded_spec _ _).2, Int.toNat_of_nonneg (by omega),
    Int.toNat_of_nonneg (by omega), Int.toNat_of_nonneg (by omega), dateOf_date]
  rfl

theorem dateText_parseDate {text : List Char} (parsed : parseDate text = some day)
    (common : IsCommon (.ofDayNumber day)) : dateText (.ofDayNumber day) = text := by
  obtain ⟨years, months, days, dated⟩ := exists_dated parsed
  rw [parseDate_dated dated] at parsed
  obtain ⟨date, isDate, rfl⟩ := Option.map_eq_some_iff.mp parsed
  obtain ⟨year, month, day⟩ := dateOf_eq_some isDate
  obtain ⟨rfl, ⟨decimal₁, length₁⟩, ⟨decimal₂, length₂⟩, ⟨decimal₃, length₃⟩⟩ := dated
  have written : ∀ {digits : List Char} {n : Nat}, Decimal digits → digits.length = n + 1 →
      padded (n + 1) (value digits) = digits := fun decimal length =>
    length ▸ padded_value decimal (ne_nil_of_length_eq_add_one length)
  rw [Date.ofDayNumber_dayNumber] at common ⊢
  rw [dateText_common common, year, month, day, Int.toNat_natCast, Int.toNat_natCast,
    Int.toNat_natCast, dashed, written decimal₁ length₁, written decimal₂ length₂,
    written decimal₃ length₃]

def timestampText (micros : Int) : List Char :=
  dateText (.ofDayNumber (micros / kMicrosPerDay)) ++
    ' ' :: clockText (micros % kMicrosPerDay / 1000000).toNat ++
      fractionText (micros % kMicrosPerDay % 1000000).toNat

theorem formatTimestamp_eq (held : InInt64 micros)
    (finite : micros ≠ 2 ^ 63 - 1 ∧ micros ≠ -(2 ^ 63 - 1)) :
    formatTimestamp micros = .ok (timestampText micros) := by
  have days : (if micros.tmod kMicrosPerDay < 0 then micros.tdiv kMicrosPerDay - 1
      else micros.tdiv kMicrosPerDay) = micros / kMicrosPerDay := by
    rw [Int.tmod_eq_emod, Int.tdiv_eq_ediv, show kMicrosPerDay.sign = 1 from rfl]
    unfold kMicrosPerDay
    split_ifs <;> omega
  have rest : (if micros.tmod kMicrosPerDay < 0 then micros.tmod kMicrosPerDay + kMicrosPerDay
      else micros.tmod kMicrosPerDay) = micros % kMicrosPerDay := by
    rw [Int.tmod_eq_emod]
    unfold kMicrosPerDay
    split_ifs <;> omega
  have nonneg : 0 ≤ micros % kMicrosPerDay := Int.emod_nonneg _ (by decide)
  have below : micros % kMicrosPerDay < 86400000000 := Int.emod_lt_of_pos _ (by decide)
  unfold InInt64 at held
  have day : -106751992 ≤ micros / kMicrosPerDay ∧ micros / kMicrosPerDay ≤ 106751992 := by
    unfold kMicrosPerDay
    omega
  have narrowed : narrow (micros / kMicrosPerDay) = .ok (micros / kMicrosPerDay) :=
    if_pos (by omega)
  rw [formatTimestamp, if_neg finite.1, if_neg finite.2]
  dsimp only
  rw [days, step_small (by omega), ok_bind, rest, step_small (by omega), ok_bind, narrowed, ok_bind,
    formatDate_eq (by omega) (by omega) (by omega), ok_bind, tdiv_nonneg_eq nonneg,
    Int.tmod_eq_emod_of_nonneg nonneg]
  rfl

theorem twoDigits_padded {n most : Nat} (le : n ≤ most) (small : n < 100) (rest : List Char) :
    twoDigits most (padded 2 n ++ rest) = some (n, rest) := by
  obtain ⟨decimal, isValue⟩ := padded_spec 2 n
  have length : (padded 2 n).length = 2 := padded_length (by decide) small
  obtain ⟨a, b, isPair⟩ := length_eq_two.mp length
  rw [isPair] at decimal isValue ⊢
  have value : digit a * 10 + digit b = n := by simpa [Digits.value] using isValue
  have isDigit := decimal a mem_cons_self
  have isDigit' := decimal b (mem_cons_of_mem _ mem_cons_self)
  simp [twoDigits, isDigit, isDigit', value, le]

theorem parseClock_clockText {seconds : Nat} (inDay : seconds < 86400) (rest : List Char) :
    parseClock (clockText seconds ++ rest) = some (seconds, true, rest) := by
  have hours : seconds / 3600 ≤ 23 := by omega
  have minutes : seconds / 60 % 60 ≤ 59 := by omega
  have last : seconds % 60 ≤ 59 := by omega
  have whole : seconds / 3600 * 3600 + seconds / 60 % 60 * 60 + seconds % 60 = seconds := by omega
  simp [parseClock, clockText, twoDigits_padded hours (by omega),
    twoDigits_padded minutes (by omega), twoDigits_padded last (by omega), whole]

theorem trimmed_zeros (digits : List Char) :
    ∃ n, digits = (digits.reverse.dropWhile (· = '0')).reverse ++ List.replicate n '0' := by
  have zeros : ∀ c ∈ digits.reverse.takeWhile (· = '0'), c = '0' := by
    intro c member
    simpa using mem_takeWhile_imp member
  refine ⟨(digits.reverse.takeWhile (· = '0')).length, ?_⟩
  rw [← reverse_replicate, ← eq_replicate_of_mem zeros, ← reverse_append,
    takeWhile_append_dropWhile, reverse_reverse]

theorem parseFraction_fractionText {micros : Nat} (positive : micros ≠ 0)
    (small : micros < 1000000) : parseFraction (fractionText micros) = some micros := by
  obtain ⟨decimal, isValue⟩ := padded_spec 6 micros
  have length : (padded 6 micros).length = 6 := padded_length (by decide) small
  obtain ⟨n, split⟩ := trimmed_zeros (padded 6 micros)
  unfold fractionText
  rw [if_neg positive]
  generalize ((padded 6 micros).reverse.dropWhile (· = '0')).reverse = digits at split ⊢
  rw [split] at decimal isValue length
  rw [length_append, length_replicate] at length
  have zeros : value (List.replicate n '0') = 0 :=
    (value_eq_zero (decimal.sublist (sublist_append_right _ _))).mpr fun c member =>
      eq_of_mem_replicate member
  rw [value_append, zeros, length_replicate, Nat.add_zero] at isValue
  have nonempty : digits.length ≠ 0 := by
    intro isNil
    rw [length_eq_zero_iff.mp isNil] at isValue
    exact positive (isValue.symm.trans (Nat.zero_mul _))
  have isDecimal : digits.all Char.isDigit = true :=
    all_isDigit.mpr (decimal.sublist (sublist_append_left _ _))
  have whole : ¬ (('.' :: digits).head? ≠ some '.' ∨ ('.' :: digits).length < 2 ∨
      ('.' :: digits).length > 10) := by
    rw [length_cons]
    simp only [head?_cons, ne_eq, not_true_eq_false, false_or]
    omega
  rw [parseFraction, if_neg whole, tail_cons, if_pos isDecimal,
    take_of_length_le (by omega), show 6 - digits.length = n by omega, isValue]

theorem common_days (common : IsCommon (.ofDayNumber days)) : -719162 ≤ days ∧ days ≤ 2932896 := by
  have low := Date.yearStart_le days
  have high := Date.lt_yearStart days
  unfold IsCommon at common
  unfold yearStart at low high
  omega

theorem parseTime_text {seconds fraction : Nat} (inDay : seconds < 86400)
    (small : fraction < 1000000) (common : -2 ^ 61 ≤ micros ∧ micros ≤ 2 ^ 61) :
    parseTime micros (clockText seconds ++ fractionText fraction) =
      .ok (some (micros + seconds * 1000000 + fraction)) := by
  rw [parseTime, parseClock_clockText inDay]
  dsimp only
  rw [step_small (by omega), ok_bind]
  by_cases whole : fraction = 0
  · rw [whole, fractionText, if_pos rfl, if_pos rfl, Int.natCast_zero, add_zero]
    rfl
  · have written : fractionText fraction ≠ [] := by
      rw [fractionText, if_neg whole]
      exact cons_ne_nil _ _
    rw [if_neg written, parseFraction_fractionText whole small]
    change (step _ >>= _) = _
    rw [step_small (by omega)]
    rfl

theorem dateText_length (common : IsCommon date) : (dateText date).length = 10 := by
  obtain ⟨isYear, isMonth, isDay⟩ := date_digits common
  obtain ⟨_, ⟨_, length₁⟩, ⟨_, length₂⟩, ⟨_, length₃⟩⟩ := dashed_dated isYear isMonth isDay
  rw [dateText_common common, dashed]
  simp only [length_append, length_cons, length₁, length₂, length₃]

theorem parseTimestamp_timestampText (common : IsCommon (.ofDayNumber (micros / kMicrosPerDay))) :
    parseTimestamp (timestampText micros) = .ok (some micros) := by
  have length := dateText_length common
  have days := common_days common
  have parsed := parseDate_dateText common
  have nonneg : 0 ≤ micros % kMicrosPerDay := Int.emod_nonneg _ (by decide)
  have below : micros % kMicrosPerDay < 86400000000 := Int.emod_lt_of_pos _ (by decide)
  have split : micros / kMicrosPerDay * 86400000000 + micros % kMicrosPerDay = micros :=
    Int.ediv_mul_add_emod micros kMicrosPerDay
  rw [Date.dayNumber_ofDayNumber] at parsed
  unfold timestampText
  rw [append_assoc]
  generalize dateText (.ofDayNumber (micros / kMicrosPerDay)) = text at length parsed ⊢
  have long : ¬ (text ++ (' ' :: clockText (micros % kMicrosPerDay / 1000000).toNat ++
      fractionText (micros % kMicrosPerDay % 1000000).toNat)).length < 10 := by
    rw [length_append]
    omega
  rw [parseTimestamp, if_neg long, take_left' length, parsed, drop_left' length]
  change (step (micros / kMicrosPerDay * 86400000000) >>= _) = _
  rw [step_small (by omega), ok_bind]
  change parseTime _ (clockText _ ++ fractionText _) = _
  rw [parseTime_text (by omega) (by omega) (by omega)]
  congr 2
  omega

/-- Dates and timestamps and their texts. -/
theorem dateText_roundTrips :
    (∀ days : Int, -2 ^ 31 ≤ days → days < 2 ^ 31 → days ≠ 2 ^ 31 - 1 → days ≠ -(2 ^ 31 - 1) →
      ∃ date : Date, (∀ other : Date, other.dayNumber = days ↔ other = date) ∧
        formatDate days = .ok (dateText date) ∧
          (IsCommon date → parseDate (dateText date) = some days)) ∧
      (∀ (text : List Char) (days : Int), parseDate text = some days →
        IsCommon (.ofDayNumber days) → formatDate days = .ok text) ∧
      ∀ micros : Int, InInt64 micros → ∃ text, formatTimestamp micros = .ok text ∧
        (IsCommon (.ofDayNumber (micros / kMicrosPerDay)) →
          parseTimestamp text = .ok (some micros)) := by
  refine ⟨fun days low high finite finite' => ?_, fun text days parsed common => ?_,
    fun micros held => ?_⟩
  · refine ⟨.ofDayNumber days, fun other => ⟨?_, ?_⟩, formatDate_eq low high ⟨finite, finite'⟩, ?_⟩
    · rintro rfl
      exact (Date.ofDayNumber_dayNumber other).symm
    · rintro rfl
      exact Date.dayNumber_ofDayNumber days
    · intro common
      rw [parseDate_dateText common, Date.dayNumber_ofDayNumber]
  · have bounds := common_days common
    rw [formatDate_eq (by omega) (by omega) (by omega), dateText_parseDate parsed common]
  · by_cases finite : micros ≠ 2 ^ 63 - 1 ∧ micros ≠ -(2 ^ 63 - 1)
    · exact ⟨_, formatTimestamp_eq held finite, parseTimestamp_timestampText⟩
    · have infinite : ∃ text, formatTimestamp micros = .ok text := by
        unfold formatTimestamp
        split_ifs
        · exact ⟨_, rfl⟩
        · exact ⟨_, rfl⟩
        · omega
      obtain ⟨text, isText⟩ := infinite
      refine ⟨text, isText, fun common => ?_⟩
      have bounds := common_days common
      unfold kMicrosPerDay at bounds
      omega

/-- The day before year 1, and the last microsecond of year 9999. -/
theorem dateText_roundTrips_ends :
    (∃ date : Date, date.dayNumber = -719163 ∧ formatDate (-719163) = .ok (dateText date)) ∧
      ∃ text, formatTimestamp 253402300799999999 = .ok text ∧
        parseTimestamp text = .ok (some 253402300799999999) := by
  obtain ⟨dates, _, timestamps⟩ := dateText_roundTrips
  obtain ⟨date, unique, printed, _⟩ :=
    dates (-719163) (by decide) (by decide) (by decide) (by decide)
  obtain ⟨text, isText, parsed⟩ := timestamps 253402300799999999 (by decide)
  have common : IsCommon (.ofDayNumber (253402300799999999 / kMicrosPerDay)) :=
    ⟨by decide +kernel, by decide +kernel⟩
  exact ⟨⟨date, (unique date).mpr rfl, printed⟩, text, isText, parsed common⟩

end Antb1.Plan.DateText
