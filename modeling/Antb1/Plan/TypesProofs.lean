import Antb1.Plan.Expr
import Mathlib.Data.Nat.Digits.Lemmas

/-! Exact widenings: they compose, keep a type's values inside the wider type, and
never merge two values. -/
namespace Antb1.Plan

open LogicalType

variable {a b c source target type : LogicalType}

/-- The value a widening makes of a value; only the scale changes. -/
def widenValue (source target : LogicalType) : Value → Value
  | .int x => .int (x * 10 ^ (target.scale - source.scale))
  | other => other

def Value.InType (type : LogicalType) : Value → Prop
  | .int x => type.isExactNumber → (rangeOf type).min ≤ x ∧ x ≤ (rangeOf type).max
  | _ => True

@[simp] theorem decimal_scale (width scale : Nat) : (decimal width scale).scale = scale := rfl

@[simp] theorem decimal_isDecimal (width scale : Nat) :
    (decimal width scale).isDecimal = true := rfl

@[simp] theorem decimal_isInteger (width scale : Nat) :
    (decimal width scale).isInteger = false := rfl

theorem integer_cases (integer : type.isInteger = true) :
    type = .smallInt ∨ type = .integer ∨ type = .bigInt ∨ type = .uSmallInt ∨
      type = .hugeInt := by
  cases type <;> simp_all [isInteger]

theorem decimal_cases (decimal : type.isDecimal = true) :
    ∃ width scale, type = .decimal width scale := by
  cases type <;> simp_all [isDecimal]

theorem integer_scale (integer : type.isInteger = true) : type.scale = 0 := by
  rcases integer_cases integer with rfl | rfl | rfl | rfl | rfl <;> rfl

@[simp] theorem integer_not_decimal (integer : type.isInteger = true) : type.isDecimal = false := by
  rcases integer_cases integer with rfl | rfl | rfl | rfl | rfl <;> rfl

def magnitude (type : LogicalType) : Nat := (max (rangeOf type).max (-(rangeOf type).min)).toNat

theorem le_magnitude {x : Int} (low : (rangeOf type).min ≤ x) (high : x ≤ (rangeOf type).max) :
    x.natAbs ≤ magnitude type := by
  unfold magnitude
  omega

theorem magnitude_lt (type : LogicalType) : magnitude type < 10 ^ integerDigits type :=
  Nat.lt_base_pow_length_digits (by decide)

theorem integerDigits_mono (within : magnitude a ≤ magnitude b) :
    integerDigits a ≤ integerDigits b :=
  Nat.le_length_digits_le 10 _ _ within

theorem magnitude_mono (within : (rangeOf a).within (rangeOf b) = true) :
    magnitude a ≤ magnitude b := by
  simp only [IntegerRange.within, Bool.and_eq_true, decide_eq_true_eq] at within
  unfold magnitude
  omega

inductive Widens : LogicalType → LogicalType → Prop
  | refl (type : LogicalType) : Widens type type
  | integer {source target : LogicalType} : source.isInteger = true → target.isInteger = true →
      (rangeOf source).within (rangeOf target) = true → Widens source target
  | toDecimal {source : LogicalType} {width scale} : source.isInteger = true →
      integerDigits source + scale ≤ width → Widens source (.decimal width scale)
  | decimal {width scale width' scale'} : scale ≤ scale' → width + scale' ≤ width' + scale →
      Widens (.decimal width scale) (.decimal width' scale')

theorem isExactWidening_iff : isExactWidening source target = true ↔ Widens source target := by
  constructor
  · intro exact_
    unfold isExactWidening at exact_
    split_ifs at exact_ with same integers notDecimal integer
    · exact same ▸ .refl source
    · rw [Bool.and_eq_true] at integers
      exact .integer integers.1 integers.2 exact_
    · obtain ⟨width, scale, rfl⟩ := decimal_cases (by simpa using notDecimal)
      have digits : (integerDigits source : Int) ≤ width - scale := of_decide_eq_true exact_
      exact .toDecimal integer (by omega)
    · obtain ⟨width, scale, rfl⟩ := decimal_cases (by simpa using notDecimal)
      simp only [Bool.and_eq_true] at exact_
      obtain ⟨⟨decimal, scales⟩, digits⟩ := exact_
      obtain ⟨width', scale', rfl⟩ := decimal_cases decimal
      have scales : scale' ≤ scale := of_decide_eq_true scales
      have digits : (width' : Int) - scale' ≤ width - scale := of_decide_eq_true digits
      exact .decimal scales (by omega)
  · intro widens
    cases widens with
    | refl => simp [isExactWidening]
    | integer source target within => simp [isExactWidening, source, target, within]
    | @toDecimal _ width scale integer digits =>
      have different : source ≠ .decimal width scale := by
        rintro rfl
        cases integer
      have fits : (integerDigits source : Int) ≤ width - scale := by omega
      simp only [isExactWidening, different, integer, decimal_isInteger, decimal_isDecimal,
        Bool.and_false, Bool.false_eq_true, if_false, if_true, Bool.not_true]
      exact decide_eq_true fits
    | @decimal width scale width' scale' scales digits =>
      have fits : (width : Int) - scale ≤ width' - scale' := by omega
      unfold isExactWidening
      split
      · rfl
      · simp only [decimal_isInteger, decimal_isDecimal, Bool.and_self, Bool.false_eq_true,
          if_false, Bool.not_true, Bool.true_and, Bool.and_eq_true]
        exact ⟨decide_eq_true scales, decide_eq_true fits⟩

theorem Widens.trans (first : Widens a b) (second : Widens b c) : Widens a c := by
  cases first with
  | refl => exact second
  | integer source _ within =>
    cases second with
    | refl => exact .integer source ‹_› within
    | integer _ target within' =>
      refine .integer source target ?_
      simp only [IntegerRange.within, Bool.and_eq_true, decide_eq_true_eq] at within within' ⊢
      omega
    | toDecimal _ digits =>
      have fewer := integerDigits_mono (magnitude_mono within)
      exact .toDecimal source (by omega)
    | decimal => contradiction
  | toDecimal source digits =>
    cases second with
    | refl => exact .toDecimal source digits
    | integer decimal => cases decimal
    | toDecimal decimal => cases decimal
    | decimal scales digits' => exact .toDecimal source (by omega)
  | decimal scales digits =>
    cases second with
    | refl => exact .decimal scales digits
    | integer decimal => cases decimal
    | toDecimal decimal => cases decimal
    | decimal scales' digits' => exact .decimal (by omega) (by omega)

theorem Widens.scale_le (widens : Widens source target) : source.scale ≤ target.scale := by
  cases widens with
  | refl => exact le_rfl
  | integer source _ _ => simp [integer_scale source]
  | toDecimal source _ => simp [integer_scale source]
  | decimal scales _ => exact scales

theorem Widens.source_exact (widens : Widens source target) (different : source ≠ target) :
    source.isExactNumber = true := by
  cases widens with
  | refl => exact absurd rfl different
  | integer source _ _ => simp [isExactNumber, source]
  | toDecimal source _ => simp [isExactNumber, source]
  | decimal _ _ => rfl

theorem widenValue_widenValue (first : Widens a b) (second : Widens b c) (value : Value) :
    widenValue b c (widenValue a b value) = widenValue a c value := by
  have scales := first.scale_le
  have scales' := second.scale_le
  cases value with
  | int x =>
    have exponent : b.scale - a.scale + (c.scale - b.scale) = c.scale - a.scale := by omega
    simp only [widenValue]
    rw [mul_assoc, ← pow_add, exponent]
  | null | double _ | text _ | bool _ => rfl

theorem widenValue_injective (source target : LogicalType) :
    Function.Injective (widenValue source target) := by
  intro a b same
  have scale : (10 : Int) ^ (target.scale - source.scale) ≠ 0 := pow_ne_zero _ (by decide)
  cases a <;> cases b <;> simp_all [widenValue]

theorem widenValue_normalized (source target : LogicalType) (value : Value) :
    (widenValue source target value).normalized = widenValue source target value.normalized := by
  cases value <;> rfl

@[simp] theorem widenValue_self (type : LogicalType) (value : Value) :
    widenValue type type value = value := by
  cases value <;> simp [widenValue]

theorem decimal_range {width scale : Nat} {x : Int} :
    (rangeOf (.decimal width scale)).min ≤ x ∧ x ≤ (rangeOf (.decimal width scale)).max ↔
      x.natAbs < 10 ^ width := by
  have cast : ((10 ^ width : Nat) : Int) = 10 ^ width := by push_cast; rfl
  have positive : 0 < 10 ^ width := by positivity
  simp only [rangeOf, ← cast]
  omega

theorem Widens.natAbs_lt {width scale : Nat} (widens : Widens source (.decimal width scale))
    {x : Int} (low : (rangeOf source).min ≤ x) (high : x ≤ (rangeOf source).max) :
    x.natAbs * 10 ^ (scale - source.scale) < 10 ^ width := by
  -- `digits` digits hold every source value, and as many are left above the scale.
  suffices ∃ digits, x.natAbs < 10 ^ digits ∧ digits + (scale - source.scale) ≤ width by
    obtain ⟨digits, below, fits⟩ := this
    calc x.natAbs * 10 ^ (scale - source.scale)
        < 10 ^ digits * 10 ^ (scale - source.scale) :=
          Nat.mul_lt_mul_of_pos_right below (by positivity)
      _ = 10 ^ (digits + (scale - source.scale)) := (pow_add ..).symm
      _ ≤ 10 ^ width := Nat.pow_le_pow_right (by decide) fits
  cases widens with
  | refl => exact ⟨width, decimal_range.mp ⟨low, high⟩, by simp⟩
  | integer _ decimal => cases decimal
  | toDecimal integer digits =>
    refine ⟨integerDigits source, (le_magnitude low high).trans_lt (magnitude_lt source), ?_⟩
    simpa [integer_scale integer] using digits
  | @decimal width' scale' _ _ scales digits =>
    exact ⟨width', decimal_range.mp ⟨low, high⟩, by simp only [decimal_scale]; omega⟩

/-- A cast that is an exact widening keeps every value of its source type. -/
theorem castValue_widens (k : Kernels) (widens : Widens source target) {value : Value}
    (typed : value.InType source) :
    castValue k source target value = some (widenValue source target value) := by
  have exact_ := isExactWidening_iff.mpr widens
  have executable : isExecutableCast source target = true := by simp [isExecutableCast, exact_]
  unfold castValue convert
  rw [if_pos executable]
  split_ifs with unchanged
  · rcases unchanged with rfl | rfl
    · rfl
    · rw [widenValue_self]
  cases value with
  | int x =>
    have different : source ≠ target := fun same => unchanged (.inr same)
    have inRange : ¬ (target.isDecimal = true ∧
        ¬ ((rangeOf target).min ≤ x * 10 ^ (target.scale - source.scale) ∧
          x * 10 ^ (target.scale - source.scale) ≤ (rangeOf target).max)) := by
      rintro ⟨decimal, outside⟩
      obtain ⟨width, scale, rfl⟩ := decimal_cases decimal
      obtain ⟨low, high⟩ := typed (widens.source_exact different)
      rw [decimal_range, Int.natAbs_mul, Int.natAbs_pow] at outside
      exact outside (widens.natAbs_lt low high)
    simp only [if_neg inRange, widenValue]
  | null | double _ | text _ | bool _ => rfl

/-- An exact widening that does not fail keeps the value, also one beyond its type. -/
theorem castValue_exact (k : Kernels) (widens : isExactWidening source target = true)
    {value result : Value} (cast : castValue k source target value = some result) :
    result = widenValue source target value := by
  unfold castValue convert at cast
  rw [if_pos widens] at cast
  split_ifs at cast with executable unchanged
  · cases cast
    rcases unchanged with rfl | rfl
    · rfl
    · rw [widenValue_self]
  · cases value with
    | int x =>
      dsimp only at cast
      split_ifs at cast
      exact (Option.some.inj cast).symm
    | null | double _ | text _ | bool _ => exact (Option.some.inj cast).symm

end Antb1.Plan
