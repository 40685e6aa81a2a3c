import Mathlib.Algebra.Order.Field.Power
import Mathlib.Data.List.TakeWhile
import Antb1.Lib.Results
import Antb1.Plan.Literal

/-! Comparisons with a numeric literal, folded, are exact: the parsed number is the literal's
rational value up to its integer part, and the folded predicate is the comparison with it. -/
namespace Antb1.Plan

open LogicalType Lib List Digits

variable {literal : ExactNumber} {parts : NumberParts} (op : CompareOp) {digits : List Char}

namespace NumberParts

def Point (parts : NumberParts) (point : List Char) : Prop :=
  (point = [] ∧ parts.fraction = []) ∨ point = '.' :: parts.fraction

def Mark (parts : NumberParts) (mark : List Char) : Prop :=
  (mark = [] ∧ parts.exponent = [] ∧ parts.negativeExponent = false) ∨
    ∃ e sign, (e = 'e' ∨ e = 'E') ∧ mark = e :: (sign ++ parts.exponent) ∧ parts.exponent ≠ [] ∧
      ((sign = ['-'] ∧ parts.negativeExponent = true) ∨
        ((sign = [] ∨ sign = ['+']) ∧ parts.negativeExponent = false))

/-- The text writes the parts: digits, a point and digits, an exponent. -/
structure Spells (parts : NumberParts) (text : List Char) : Prop where
  integer : Digits.Decimal parts.integer
  fraction : Digits.Decimal parts.fraction
  exponent : Digits.Decimal parts.exponent
  some_ : ¬ (parts.integer = [] ∧ parts.fraction = [])
  spelled : ∃ point mark, text = parts.integer ++ (point ++ mark) ∧ parts.Point point ∧
    parts.Mark mark

def exponentValue (parts : NumberParts) : Int :=
  if parts.negativeExponent then -Digits.value parts.exponent else Digits.value parts.exponent

def value (parts : NumberParts) : ℚ :=
  Digits.value (parts.integer ++ parts.fraction) *
    10 ^ (parts.exponentValue - parts.fraction.length)

end NumberParts

/-- `x <op> y`. -/
def CompareOp.Relates {α : Type} [LinearOrder α] : CompareOp → α → α → Prop
  | .eq, x, y => x = y
  | .ne, x, y => x ≠ y
  | .lt, x, y => x < y
  | .le, x, y => x ≤ y
  | .gt, x, y => x > y
  | .ge, x, y => x ≥ y

theorem span_digits {digits rest : List Char} (decimal : Digits.Decimal digits)
    (stops : ∀ c ∈ rest.head?, c.isDigit = false) :
    (digits ++ rest).takeWhile Char.isDigit = digits ∧
      (digits ++ rest).dropWhile Char.isDigit = rest := by
  rw [takeWhile_append_of_pos decimal, dropWhile_append_of_pos decimal]
  cases rest with
  | nil => simp
  | cons c rest => simp [stops c rfl]

theorem takeWhile_decimal (text : List Char) : Digits.Decimal (text.takeWhile Char.isDigit) :=
  fun _ member => mem_takeWhile_imp member

theorem takeSign_sign {sign digits : List Char} (decimal : Digits.Decimal digits)
    (isSign : sign = ['-'] ∨ sign = [] ∨ sign = ['+']) : takeSign (sign ++ digits) = digits := by
  rcases isSign with rfl | rfl | rfl
  · rfl
  · cases digits with
    | nil => rfl
    | cons c rest =>
      have isDigit := decimal c mem_cons_self
      simp only [nil_append]
      unfold takeSign
      split
      · simp_all
      · simp_all
      · rfl
  · rfl

theorem exists_sign (text : List Char) : ∃ sign, text = sign ++ takeSign text ∧
    ((sign = ['-'] ∧ text.head? = some '-') ∨
      ((sign = [] ∨ sign = ['+']) ∧ text.head? ≠ some '-')) := by
  fun_cases takeSign text with
  | case1 rest => exact ⟨['-'], rfl, .inl ⟨rfl, rfl⟩⟩
  | case2 rest => exact ⟨['+'], rfl, .inr ⟨.inr rfl, by simp⟩⟩
  | case3 text noMinus noPlus =>
    refine ⟨[], rfl, .inr ⟨.inl rfl, fun minus => ?_⟩⟩
    obtain ⟨rest, rfl⟩ := head?_eq_some_iff.mp minus
    exact noMinus rest rfl

theorem splitExponent_iff {integer fraction text : List Char} :
    splitExponent integer fraction text = some parts ↔
      parts.integer = integer ∧ parts.fraction = fraction ∧ Digits.Decimal parts.exponent ∧
        parts.Mark text := by
  cases text with
  | nil =>
    simp only [splitExponent, Option.some.injEq]
    constructor
    · rintro rfl
      exact ⟨rfl, rfl, nofun, .inl ⟨rfl, rfl, rfl⟩⟩
    · rintro ⟨rfl, rfl, -, ⟨-, none_, positive⟩ | ⟨e, sign, -, empty, -⟩⟩
      · cases parts
        simp_all
      · cases empty
  | cons mark rest =>
    constructor
    · intro split
      simp only [splitExponent] at split
      split_ifs at split with isMark bad
      cases split
      obtain ⟨sign, written, isSign⟩ := exists_sign rest
      rw [not_or, not_not] at bad
      refine ⟨rfl, rfl, takeWhile_decimal _, .inr ⟨mark, sign, isMark, ?_, bad.1, ?_⟩⟩
      · have digits := takeWhile_append_dropWhile (p := Char.isDigit) (l := takeSign rest)
        rw [bad.2, append_nil] at digits
        rw [digits, ← written]
      · rcases isSign with ⟨minus, first⟩ | ⟨plus, first⟩
        · exact .inl ⟨minus, by simpa using first⟩
        · exact .inr ⟨plus, by simpa using first⟩
    · rintro ⟨rfl, rfl, decimal, ⟨empty, -⟩ | ⟨e, sign, isMark, written, present, isSign⟩⟩
      · cases empty
      · cases written
        have taken : takeSign (sign ++ parts.exponent) = parts.exponent :=
          takeSign_sign decimal (isSign.imp And.left And.left)
        have spans := @span_digits parts.exponent [] decimal (by simp)
        rw [append_nil] at spans
        obtain ⟨digits, ends⟩ := spans
        simp only [splitExponent, if_pos isMark, taken, digits, ends, present, ne_eq, not_true,
          or_self, if_false, Option.some.injEq]
        cases parts with
        | mk integer fraction negativeExponent exponent =>
          simp only [NumberParts.mk.injEq, true_and, and_true]
          rcases isSign with ⟨rfl, minus⟩ | ⟨rfl | rfl, plus⟩
          · simpa using minus.symm
          · cases exponent with
            | nil => exact absurd rfl present
            | cons c rest =>
              have isDigit := decimal c mem_cons_self
              simp only at plus
              rw [plus]
              refine decide_eq_false fun first => ?_
              cases first
              exact absurd isDigit (by decide)
          · simpa using plus.symm

theorem NumberParts.Mark.head {mark : List Char} (isMark : parts.Mark mark) :
    ∀ c ∈ mark.head?, c.isDigit = false ∧ c ≠ '.' := by
  rcases isMark with ⟨rfl, -⟩ | ⟨e, sign, rfl | rfl, rfl, -⟩
  · simp
  · rintro c ⟨⟩
    decide
  · rintro c ⟨⟩
    decide

theorem splitNumber_iff {text : List Char} : splitNumber text = some parts ↔ parts.Spells text := by
  constructor
  · intro split
    have whole := takeWhile_append_dropWhile (p := Char.isDigit) (l := text)
    simp only [splitNumber] at split
    split_ifs at split with point empty empty
    · obtain ⟨after, isAfter⟩ := head?_eq_some_iff.mp point
      obtain ⟨integer, fraction, exponent, mark⟩ := splitExponent_iff.mp split
      rw [isAfter, tail_cons] at fraction mark
      rw [isAfter, tail_cons, ← integer, ← fraction] at empty
      refine ⟨integer ▸ takeWhile_decimal _, fraction ▸ takeWhile_decimal _, exponent, empty,
        '.' :: parts.fraction, _, ?_, .inr rfl, mark⟩
      rw [integer, fraction, cons_append, takeWhile_append_dropWhile, ← isAfter, whole]
    · obtain ⟨integer, fraction, exponent, mark⟩ := splitExponent_iff.mp split
      refine ⟨integer ▸ takeWhile_decimal _, fraction ▸ nofun, exponent,
        fun both => empty ⟨integer.symm.trans both.1, rfl⟩, [], _, ?_, .inl ⟨rfl, fraction⟩, mark⟩
      rw [integer, nil_append, whole]
  · rintro ⟨integer, fraction, exponent, present, point, mark, rfl, isPoint, isMark⟩
    have cut : splitExponent parts.integer parts.fraction mark = some parts :=
      splitExponent_iff.mpr ⟨rfl, rfl, exponent, isMark⟩
    have stops : ∀ c ∈ mark.head?, c.isDigit = false := fun c first => (isMark.head c first).1
    rcases isPoint with ⟨rfl, none_⟩ | rfl
    · obtain ⟨digits, ends⟩ := span_digits integer stops
      have noPoint : mark.head? ≠ some '.' := fun first => (isMark.head '.' first).2 rfl
      have some_ : parts.integer ≠ [] := fun empty => present ⟨empty, none_⟩
      rw [none_] at cut
      simp only [splitNumber, nil_append, digits, ends, if_neg noPoint, some_, false_and,
        if_false, cut]
    · obtain ⟨digits, ends⟩ := @span_digits parts.integer ('.' :: (parts.fraction ++ mark)) integer
        (by simp)
      obtain ⟨digits', ends'⟩ := span_digits fraction stops
      simp only [splitNumber, cons_append, digits, ends, head?_cons, tail_cons,
        if_true, digits', ends', if_neg present, cut]

theorem inInt128_of_le {x : Int} (least : -10 ^ 38 ≤ x) (most : x ≤ 10 ^ 38) : InInt128 x := by
  constructor <;> omega

theorem pow10_ok {n : Nat} (few : n ≤ 38) : pow10 n = .ok (10 ^ n) := by
  induction n with
  | zero => rfl
  | succ n ih =>
    have bound : (10 : Int) ^ (n + 1) ≤ 10 ^ 38 := pow_le_pow_right₀ (by decide) few
    have positive : (0 : Int) < 10 ^ (n + 1) := by positivity
    rw [pow10, ih (by omega), ok_bind, ← pow_succ,
      int128_ok (inInt128_of_le (le_trans (by norm_num) positive.le) bound)]

theorem addDigit_ok {n : Nat} {c : Char} (bound : n * 10 + Digits.digit c < 10 ^ 38) :
    addDigit n c = .ok ((n * 10 + Digits.digit c : Nat) : Int) := by
  have tens : int128 ((n : Int) * 10) = .ok ((n : Int) * 10) := by
    apply int128_ok
    constructor <;> omega
  have sum : int128 ((n : Int) * 10 + Digits.digit c) = .ok ((n * 10 + Digits.digit c : Nat) : Int) := by
    rw [int128_ok (by constructor <;> omega)]
    push_cast
    rfl
  rw [addDigit, tens, ok_bind, sum]

theorem digitsValue_ok (decimal : Digits.Decimal digits) (few : digits.length ≤ 38) :
    digitsValue digits = .ok (Digits.value digits) := by
  have bound := value_lt decimal
  have most : 10 ^ digits.length ≤ 10 ^ 38 := Nat.pow_le_pow_right (by decide) few
  exact @foldlM_value digits _ Int addDigit (fun n => n) fun c _ n le => addDigit_ok (by omega)

theorem addExponentDigit_ok (n : Nat) {c : Char} (isDigit : c.isDigit = true) :
    addExponentDigit (min (n : Int) kMaxExponent) c =
      .ok (min ((n * 10 + Digits.digit c : Nat) : Int) kMaxExponent) := by
  have most := digit_le isDigit
  have limit : kMaxExponent = 1000000000 := rfl
  have tens : int64 (min (n : Int) kMaxExponent * 10) = .ok (min (n : Int) kMaxExponent * 10) :=
    int64_ok (by constructor <;> omega)
  have sum : int64 (min (n : Int) kMaxExponent * 10 + Digits.digit c) =
      .ok (min (n : Int) kMaxExponent * 10 + Digits.digit c) := int64_ok (by constructor <;> omega)
  have same : min (min (n : Int) kMaxExponent * 10 + Digits.digit c) kMaxExponent =
      min ((n * 10 + Digits.digit c : Nat) : Int) kMaxExponent := by omega
  rw [addExponentDigit, tens, ok_bind, sum, ok_bind, same]
  rfl

/-- The exponent is exact below the limit, and the limit beyond it. -/
theorem saturated_ok (decimal : Digits.Decimal parts.exponent) :
    parts.saturated = .ok (if parts.negativeExponent
      then -min (Digits.value parts.exponent : Int) kMaxExponent
      else min (Digits.value parts.exponent : Int) kMaxExponent) := by
  have start : parts.exponent.foldlM addExponentDigit 0 =
      .ok (min (Digits.value parts.exponent : Int) kMaxExponent) :=
    @foldlM_value parts.exponent _ Int addExponentDigit (fun n => min (n : Int) kMaxExponent)
      fun c member n _ => addExponentDigit_ok n (decimal c member)
  rw [NumberParts.saturated, start]
  cases parts.negativeExponent <;> rfl

/-- A parsed number measures a magnitude: at least `10 ^ 38`, or its integer part and whether
there is more. -/
structure ExactNumber.Measures (number : ExactNumber) (size : ℚ) : Prop where
  huge : number.huge = true → 10 ^ 38 ≤ size
  bounds : 0 ≤ number.magnitude ∧ number.magnitude < 10 ^ 38
  integer : number.huge = false → number.fraction = false → size = number.magnitude
  between : number.huge = false → number.fraction = true →
    (number.magnitude : ℚ) < size ∧ size < number.magnitude + 1

structure ExactNumber.Denotes (number : ExactNumber) (x : ℚ) : Prop where
  negative : number.negative = true → x < 0
  nonnegative : number.negative = false → 0 ≤ x
  measures : number.Measures |x|

def NumberParts.signed (parts : NumberParts) (negative : Bool) : ℚ :=
  if negative then -parts.value else parts.value

theorem ExactNumber.Measures.denotes {number : ExactNumber} {size : ℚ} (measures : number.Measures size)
    (positive : 0 < size) : number.Denotes (if number.negative then -size else size) := by
  constructor
  case negative =>
    intro negative
    rw [if_pos negative]
    linarith
  case nonnegative =>
    intro nonnegative
    rw [nonnegative]
    exact positive.le
  case measures =>
    split_ifs
    · rwa [abs_neg, abs_of_pos positive]
    · rwa [abs_of_pos positive]

theorem NumberParts.Spells.length_le {text : List Char} (spells : parts.Spells text) :
    (parts.integer ++ parts.fraction).length ≤ text.length := by
  obtain ⟨point, mark, rfl, isPoint, -⟩ := spells.spelled
  have fraction : parts.fraction.length ≤ point.length := by
    rcases isPoint with ⟨rfl, none_⟩ | rfl
    · simp [none_]
    · simp
  simp only [length_append]
  omega

section Size

variable {sig : List Char} (decimal : Digits.Decimal sig) {t : Int}

include decimal

theorem huge_size (leading : ∀ c ∈ sig.head?, c ≠ '0') (some_ : sig ≠ [])
    (many : 38 < sig.length + t) : (10 : ℚ) ^ 38 ≤ Digits.value sig * 10 ^ t := by
  obtain ⟨c, rest, rfl⟩ := exists_cons_of_ne_nil some_
  have least : (10 : ℚ) ^ rest.length ≤ Digits.value (c :: rest) := by
    exact_mod_cast le_value (decimal c mem_cons_self) (leading c rfl)
  rw [length_cons] at many
  calc (10 : ℚ) ^ 38 = 10 ^ (38 : Int) := by norm_cast
    _ ≤ 10 ^ ((rest.length : Int) + t) := zpow_le_zpow_right₀ (by norm_num) (by push_cast at many; omega)
    _ = 10 ^ rest.length * 10 ^ t := by rw [zpow_add₀ (by norm_num), zpow_natCast]
    _ ≤ Digits.value (c :: rest) * 10 ^ t := by gcongr

theorem small_size (few : sig.length + t ≤ 0) : (Digits.value sig : ℚ) * 10 ^ t < 1 := by
  have most : (Digits.value sig : ℚ) < 10 ^ sig.length := by exact_mod_cast value_lt decimal
  calc (Digits.value sig : ℚ) * 10 ^ t < 10 ^ sig.length * 10 ^ t := by gcongr
    _ = 10 ^ ((sig.length : Int) + t) := by rw [zpow_add₀ (by norm_num), zpow_natCast]
    _ ≤ 10 ^ (0 : Int) := zpow_le_zpow_right₀ (by norm_num) few
    _ = 1 := zpow_zero _

end Size

/-- A number cut at its point: the digits before it and a fraction. -/
theorem split_size (sig : List Char) {k : Nat} (few : k ≤ sig.length) :
    (Digits.value sig : ℚ) * 10 ^ (-(k : Int)) =
      Digits.value (sig.take (sig.length - k)) +
        Digits.value (sig.drop (sig.length - k)) * 10 ^ (-(k : Int)) := by
  have cut := value_append (sig.take (sig.length - k)) (sig.drop (sig.length - k))
  rw [take_append_drop, length_drop, Nat.sub_sub_self few] at cut
  rw [cut]
  push_cast
  rw [add_mul, mul_assoc, zpow_neg, zpow_natCast, mul_inv_cancel₀ (by positivity), mul_one]

/-- A saturated scale against the true one: equal, or both far on one side. -/
def Saturates (scale t : Int) : Prop :=
  scale = t ∨ (scale ≤ t ∧ 9 * 10 ^ 8 ≤ scale) ∨ (t ≤ scale ∧ scale ≤ -(9 * 10 ^ 8))

theorem any_nonzero (decimal : Digits.Decimal digits) :
    (digits.any (· ≠ '0')) = true ↔ 0 < Digits.value digits := by
  rw [Nat.pos_iff_ne_zero, ne_eq, Digits.value_eq_zero decimal]
  simp

theorem exactNumberOf_measures (negative : Bool) {sig : List Char} {scale t : Int}
    (decimal : Digits.Decimal sig) (leading : ∀ c ∈ sig.head?, c ≠ '0') (some_ : sig ≠ [])
    (short : sig.length < 10 ^ 8) (near : -(2 * 10 ^ 9) ≤ scale ∧ scale ≤ 2 * 10 ^ 9)
    (saturates : Saturates scale t) :
    ∃ number, exactNumberOf negative sig scale = .ok number ∧ number.negative = negative ∧
      number.Measures (Digits.value sig * 10 ^ t) := by
  have digits : int64 (sig.length + scale) = .ok (sig.length + scale) := by
    apply int64_ok
    constructor <;> omega
  have limit : kMaxIntegerDigits = 38 := rfl
  rw [exactNumberOf, digits, ok_bind]
  unfold Saturates at saturates
  by_cases many : (sig.length : Int) + scale > kMaxIntegerDigits
  · rw [if_pos many]
    refine ⟨_, rfl, rfl, fun _ => ?_, ⟨le_rfl, by norm_num⟩, nofun, nofun⟩
    exact huge_size decimal leading some_ (by omega)
  rw [if_neg many]
  by_cases whole : scale ≥ 0
  · have same : t = (scale.toNat : Int) := by omega
    have product : ((Digits.value sig * 10 ^ scale.toNat : Nat) : Int) < 10 ^ 38 := by
      have most := value_lt decimal
      have power : 0 < 10 ^ scale.toNat := by positivity
      calc ((Digits.value sig * 10 ^ scale.toNat : Nat) : Int)
          < ((10 ^ sig.length * 10 ^ scale.toNat : Nat) : Int) := by
            exact_mod_cast Nat.mul_lt_mul_of_pos_right most power
        _ = ((10 ^ (sig.length + scale.toNat) : Nat) : Int) := by rw [pow_add]
        _ ≤ ((10 ^ 38 : Nat) : Int) := by
            exact_mod_cast Nat.pow_le_pow_right (by decide) (by omega)
        _ = 10 ^ 38 := by norm_cast
    have step : int128 ((Digits.value sig : Int) * 10 ^ scale.toNat) =
        .ok ((Digits.value sig * 10 ^ scale.toNat : Nat) : Int) := by
      rw [int128_ok]
      · push_cast
        rfl
      · push_cast at product
        exact inInt128_of_le (le_trans (by norm_num) (by positivity : (0 : Int) ≤ _)) product.le
    rw [if_pos whole, digitsValue_ok decimal (by omega), ok_bind, pow10_ok (by omega), ok_bind,
      step, ok_bind]
    refine ⟨_, rfl, rfl, nofun, ⟨by positivity, product⟩, fun _ _ => ?_, nofun⟩
    rw [same, zpow_natCast]
    push_cast
    rfl
  rw [if_neg whole]
  by_cases before : (sig.length : Int) + scale > 0
  · rw [if_pos before]
    obtain ⟨k, isK⟩ : ∃ k : Nat, scale = -(k : Int) := ⟨(-scale).toNat, by omega⟩
    have same : t = -(k : Int) := by omega
    have split : ((sig.length : Int) + scale).toNat = sig.length - k := by omega
    have few : k ≤ sig.length := by omega
    have left : Digits.Decimal (sig.take (sig.length - k)) := decimal.sublist (take_sublist _ _)
    have right : Digits.Decimal (sig.drop (sig.length - k)) := decimal.sublist (drop_sublist _ _)
    have fewLeft : (sig.take (sig.length - k)).length ≤ 38 := by
      rw [length_take]
      omega
    have power : (0 : ℚ) < 10 ^ (-(k : Int)) := by positivity
    rw [split]
    dsimp only
    rw [digitsValue_ok left fewLeft, ok_bind, same, split_size sig few]
    refine ⟨_, rfl, rfl, nofun, ⟨by positivity, ?_⟩, fun _ none_ => ?_, fun _ more => ?_⟩
    · have most := value_lt left
      have bound : 10 ^ (sig.take (sig.length - k)).length ≤ 10 ^ 38 :=
        Nat.pow_le_pow_right (by decide) fewLeft
      change ((Digits.value (sig.take (sig.length - k)) : Nat) : Int) < 10 ^ 38
      exact_mod_cast most.trans_le bound
    · have zero : Digits.value (sig.drop (sig.length - k)) = 0 := by
        by_contra positive
        exact absurd ((any_nonzero right).mpr (Nat.pos_of_ne_zero positive)) (by simpa using none_)
      rw [zero]
      simp
    · have positive := (any_nonzero right).mp more
      have below : (Digits.value (sig.drop (sig.length - k)) : ℚ) * 10 ^ (-(k : Int)) < 1 := by
        apply small_size right
        rw [length_drop]
        omega
      have above : (0 : ℚ) < Digits.value (sig.drop (sig.length - k)) * 10 ^ (-(k : Int)) :=
        mul_pos (by exact_mod_cast positive) power
      push_cast
      constructor <;> linarith
  · rw [if_neg before]
    refine ⟨_, rfl, rfl, nofun, ⟨le_rfl, by norm_num⟩, nofun, fun _ _ => ?_⟩
    obtain ⟨c, rest, rfl⟩ := exists_cons_of_ne_nil some_
    have least := @le_value c rest (decimal c mem_cons_self) (leading c rfl)
    have positive : 0 < Digits.value (c :: rest) := lt_of_lt_of_le (by positivity) least
    have below := small_size decimal (t := t) (by omega)
    constructor
    · have : (0 : ℚ) < Digits.value (c :: rest) := by exact_mod_cast positive
      push_cast
      positivity
    · simpa using below

theorem parseExactNumber_denotes {text : List Char} (spells : parts.Spells text)
    (short : text.length < 10 ^ 8) (negative : Bool) {shift : Nat} (small : shift ≤ 38) :
    ∃ number, parseExactNumber text negative shift = .ok (some number) ∧
      number.Denotes (parts.signed negative * 10 ^ shift) := by
  have length := spells.length_le
  rw [length_append] at length
  have limit : kMaxExponent = 10 ^ 9 := rfl
  obtain ⟨exponent, isExponent, bounds, saturates⟩ : ∃ exponent : Int,
      parts.saturated = .ok exponent ∧ (-10 ^ 9 ≤ exponent ∧ exponent ≤ 10 ^ 9) ∧
        (exponent = parts.exponentValue ∨ (exponent = 10 ^ 9 ∧ 10 ^ 9 ≤ parts.exponentValue) ∨
          (exponent = -10 ^ 9 ∧ parts.exponentValue ≤ -10 ^ 9)) := by
    refine ⟨_, saturated_ok spells.exponent, ?_⟩
    rw [NumberParts.exponentValue, limit]
    split_ifs <;> constructor <;> omega
  have size : parts.value * 10 ^ shift = Digits.value (parts.integer ++ parts.fraction) *
      10 ^ (parts.exponentValue + shift - parts.fraction.length) := by
    rw [NumberParts.value, mul_assoc, ← zpow_natCast, ← zpow_add₀ (by norm_num)]
    congr 2
    ring
  have signed : parts.signed negative * 10 ^ shift =
      if negative then -(parts.value * 10 ^ shift) else parts.value * 10 ^ shift := by
    rw [NumberParts.signed]
    split_ifs <;> ring
  rw [parseExactNumber, splitNumber_iff.mpr spells]
  dsimp only
  rw [isExponent, ok_bind, signed, size, ← value_dropWhile_zero]
  have decimal : Digits.Decimal ((parts.integer ++ parts.fraction).dropWhile (· = '0')) :=
    (spells.integer.append spells.fraction).sublist (dropWhile_sublist _)
  have few : ((parts.integer ++ parts.fraction).dropWhile (· = '0')).length ≤ text.length :=
    (dropWhile_sublist _).length_le.trans spells.length_le
  have leading : ∀ c ∈ ((parts.integer ++ parts.fraction).dropWhile (· = '0')).head?, c ≠ '0' := by
    intro c first
    have stops := head?_dropWhile_not (· = '0') (parts.integer ++ parts.fraction)
    rw [first] at stops
    simpa using stops
  generalize (parts.integer ++ parts.fraction).dropWhile (· = '0') = sig at decimal few leading ⊢
  by_cases empty : sig = []
  · rw [if_pos empty, empty]
    refine ⟨_, rfl, nofun, fun _ => ?_, nofun, ⟨le_rfl, by norm_num⟩, fun _ _ => ?_, nofun⟩
    · simp [Digits.value]
    · simp [Digits.value]
  rw [if_neg empty, int64_ok (by constructor <;> omega), ok_bind,
    int64_ok (by constructor <;> omega), ok_bind]
  have near : Saturates (exponent + shift - parts.fraction.length)
      (parts.exponentValue + shift - parts.fraction.length) := by
    unfold Saturates
    omega
  obtain ⟨number, isNumber, sign, measures⟩ := exactNumberOf_measures negative decimal leading empty
    (by omega) (by constructor <;> omega) near
  rw [isNumber, ok_bind]
  refine ⟨number, rfl, ?_⟩
  rw [← sign]
  apply measures.denotes
  obtain ⟨c, rest, rfl⟩ := exists_cons_of_ne_nil empty
  have least := @le_value c rest (decimal c mem_cons_self) (leading c rfl)
  have positive : (0 : ℚ) < Digits.value (c :: rest) := by
    exact_mod_cast lt_of_lt_of_le (by positivity) least
  positivity

theorem CompareOp.holds_compare (x y : Int) : op.holds (compare x y) = true ↔ op.Relates x y := by
  rcases lt_trichotomy x y with less | rfl | more
  · rw [compare_lt_iff_lt.mpr less]
    cases op <;> simp [CompareOp.holds, CompareOp.Relates] <;> omega
  · rw [compare_eq_iff_eq.mpr rfl]
    cases op <;> simp [CompareOp.holds, CompareOp.Relates]
  · rw [compare_gt_iff_gt.mpr more]
    cases op <;> simp [CompareOp.holds, CompareOp.Relates] <;> omega

theorem CompareOp.relates_cast (x y : Int) : op.Relates (x : ℚ) (y : ℚ) ↔ op.Relates x y := by
  cases op <;> simp [CompareOp.Relates]

section Fold

variable {range : IntegerRange} {v : Int} {x : ℚ}

theorem foldBound_accepts (small : literal.huge = false) (op : CompareOp) (value : Int)
    (inside : range.min ≤ v ∧ v ≤ range.max) :
    (foldBound op value literal range).accepts v = true ↔ op.Relates v value := by
  simp only [foldBound, small, Bool.false_eq_true, if_false]
  by_cases below : value < range.min
  · have notAbove : ¬ value > range.max := by omega
    cases op <;> simp [below, notAbove, FoldedComparison.accepts, CompareOp.Relates] <;> omega
  by_cases above : value > range.max
  · cases op <;> simp [below, above, FoldedComparison.accepts, CompareOp.Relates] <;> omega
  · simp only [below, above, decide_false, Bool.not_false, Bool.and_self, if_true]
    exact op.holds_compare v value

/-- A literal beyond every value of the column decides every comparison. -/
theorem foldBound_huge (huge : literal.huge = true) (denotes : literal.Denotes x) (op : CompareOp)
    (value : Int) (size : |(v : ℚ)| < 10 ^ 38) :
    (foldBound op value literal range).accepts v = true ↔ op.Relates (v : ℚ) x := by
  have large := denotes.measures.huge huge
  obtain ⟨least, most⟩ := abs_lt.mp size
  simp only [foldBound, huge, if_true]
  cases negative : literal.negative with
  | true =>
    have less : x < v := by
      rw [abs_of_neg (denotes.negative negative)] at large
      linarith
    cases op <;> simp [FoldedComparison.accepts, CompareOp.Relates, less, less.le, less.ne',
      less.not_gt, less.not_ge]
  | false =>
    have more : (v : ℚ) < x := by
      rw [abs_of_nonneg (denotes.nonnegative negative)] at large
      linarith
    cases op <;> simp [FoldedComparison.accepts, CompareOp.Relates, more, more.le, more.ne,
      more.not_gt, more.not_ge]

/-- What folding leaves to compare with lies inside the range. -/
def FoldedComparison.Inside (folded : FoldedComparison) (range : IntegerRange) : Prop :=
  folded.kind = .compare → range.min ≤ folded.value ∧ folded.value ≤ range.max

theorem foldBound_inside (value : Int) (literal : ExactNumber) :
    (foldBound op value literal range).Inside range := by
  intro compares
  dsimp only [foldBound] at compares ⊢
  by_cases outside : (if literal.huge then literal.negative else decide (value < range.min)) = false ∧
      (if literal.huge then !literal.negative else decide (value > range.max)) = false
  · rw [outside.1, outside.2]
    cases huge : literal.huge with
    | true =>
      simp only [huge, if_true, Bool.not_eq_false'] at outside
      simp [outside.1] at outside
    | false =>
      simp only [huge, Bool.false_eq_true, if_false, decide_eq_false_iff_not] at outside
      simp only [Bool.not_false, Bool.and_self, if_true]
      omega
  · rw [if_neg (by simpa using outside)] at compares
    dsimp only at compares
    split_ifs at compares

/-- A comparison with a number between two integers compares with the nearer one that the
operator keeps. -/
theorem relates_between {lower : Int} {x : ℚ} (above : (lower : ℚ) < x) (below : x < lower + 1) :
    (v : ℚ) ≠ x ∧ ((v : ℚ) < x ↔ v ≤ lower) ∧ ((x : ℚ) < v ↔ lower + 1 ≤ v) := by
  have less : v ≤ lower → (v : ℚ) < x := fun le => lt_of_le_of_lt (by exact_mod_cast le) above
  have more : lower + 1 ≤ v → x < (v : ℚ) := fun le => lt_of_lt_of_le below (by exact_mod_cast le)
  rcases lt_or_ge lower v with greater | le
  · have greater' := more (by omega)
    refine ⟨greater'.ne', ⟨fun contra => absurd contra greater'.not_gt, less⟩, fun _ => by omega, more⟩
  · have less' := less le
    refine ⟨less'.ne, ⟨fun _ => le, less⟩, fun contra => absurd contra less'.not_gt, more⟩

/-- The integer just below a number that is none. -/
def ExactNumber.lower (literal : ExactNumber) : Int :=
  if literal.negative then -(literal.magnitude + 1) else literal.magnitude

theorem ExactNumber.Denotes.between (denotes : literal.Denotes x) (small : literal.huge = false)
    (fraction : literal.fraction = true) : (literal.lower : ℚ) < x ∧ x < literal.lower + 1 := by
  obtain ⟨above, below⟩ := denotes.measures.between small fraction
  rw [ExactNumber.lower]
  cases negative : literal.negative with
  | true =>
    rw [abs_of_neg (denotes.negative negative)] at above below
    simp only [if_true]
    push_cast
    constructor <;> linarith
  | false =>
    rw [abs_of_nonneg (denotes.nonnegative negative)] at above below
    exact ⟨above, below⟩

theorem ceiling_ok (bounds : 0 ≤ literal.magnitude ∧ literal.magnitude < 10 ^ 38) :
    literal.ceiling = .ok (literal.lower + 1) := by
  rw [ExactNumber.ceiling, ExactNumber.lower, int128_ok (inInt128_of_le (by omega) (by omega)),
    int128_ok (inInt128_of_le (by omega) (by omega))]
  split_ifs
  · congr 1
    ring
  · rfl

theorem floor_ok (bounds : 0 ≤ literal.magnitude ∧ literal.magnitude < 10 ^ 38) :
    literal.floor = .ok literal.lower := by
  rw [ExactNumber.floor, ExactNumber.lower, int128_ok (inInt128_of_le (by omega) (by omega)), ok_bind,
    int128_ok (inInt128_of_le (by omega) (by omega)), apply_ite Except.ok]

theorem signed_ok (bounds : 0 ≤ literal.magnitude ∧ literal.magnitude < 10 ^ 38) :
    literal.signed = .ok (if literal.negative then -literal.magnitude else literal.magnitude) := by
  rw [ExactNumber.signed, int128_ok (inInt128_of_le (by omega) (by omega)), apply_ite Except.ok]

/-- A folded comparison is the comparison with a number, on the values of a column. -/
structure Folds (range : IntegerRange) (op : CompareOp) (x : ℚ) (folded : FoldedComparison) :
    Prop where
  inside : folded.Inside range
  exact : ∀ v, range.min ≤ v ∧ v ≤ range.max →
    (folded.accepts v = true ↔ op.Relates (v : ℚ) x)

theorem fold_between (denotes : literal.Denotes x) (small : literal.huge = false)
    (fraction : literal.fraction = true) (op : CompareOp) :
    ∃ folded, foldIntegerComparison op literal range = .ok folded ∧ Folds range op x folded := by
  have bounds := denotes.measures.bounds
  obtain ⟨above, below⟩ := denotes.between small fraction
  rw [foldIntegerComparison, signed_ok bounds, ok_bind, small, fraction]
  cases op with
  | eq =>
    refine ⟨_, rfl, nofun, fun v _ => ?_⟩
    simp [FoldedComparison.accepts, CompareOp.Relates, (relates_between above below).1]
  | ne =>
    refine ⟨_, rfl, nofun, fun v _ => ?_⟩
    simp [FoldedComparison.accepts, CompareOp.Relates, (relates_between above below).1]
  | gt | ge =>
    rw [nearestBound, ceiling_ok bounds]
    refine ⟨_, rfl, foldBound_inside _ _ _, fun v inside => ?_⟩
    obtain ⟨other, -, more⟩ := @relates_between v _ _ above below
    rw [foldBound_accepts small _ _ inside]
    first
    | exact more.symm
    | exact more.symm.trans ⟨le_of_lt, fun le => lt_of_le_of_ne le other.symm⟩
  | lt | le =>
    rw [nearestBound, floor_ok bounds]
    refine ⟨_, rfl, foldBound_inside _ _ _, fun v inside => ?_⟩
    obtain ⟨other, less, -⟩ := @relates_between v _ _ above below
    rw [foldBound_accepts small _ _ inside]
    first
    | exact less.symm
    | exact less.symm.trans ⟨le_of_lt, fun le => lt_of_le_of_ne le other⟩

/-- Folding is the comparison with the number that a literal denotes. -/
theorem foldIntegerComparison_folds (denotes : literal.Denotes x) (op : CompareOp)
    (least : -10 ^ 38 < range.min) (most : range.max < 10 ^ 38) :
    ∃ folded, foldIntegerComparison op literal range = .ok folded ∧ Folds range op x folded := by
  have bounds := denotes.measures.bounds
  cases huge : literal.huge with
  | true =>
    rw [foldIntegerComparison, signed_ok bounds, ok_bind, huge, Bool.not_true, Bool.and_false]
    refine ⟨_, rfl, foldBound_inside _ _ _, fun v inside => foldBound_huge huge denotes _ _ ?_⟩
    have small : |v| < 10 ^ 38 := abs_lt.mpr (by omega)
    exact_mod_cast small
  | false =>
    cases fraction : literal.fraction with
    | true => exact fold_between denotes huge fraction op
    | false =>
      rw [foldIntegerComparison, signed_ok bounds, ok_bind, fraction, Bool.false_and]
      refine ⟨_, rfl, foldBound_inside _ _ _, fun v inside => ?_⟩
      have size := denotes.measures.integer huge fraction
      have same : x = ((if literal.negative then -literal.magnitude else literal.magnitude : Int) : ℚ) := by
        cases negative : literal.negative with
        | true =>
          rw [abs_of_neg (denotes.negative negative)] at size
          simp only [if_true]
          push_cast
          linarith
        | false => rwa [abs_of_nonneg (denotes.nonnegative negative)] at size
      rw [foldBound_accepts huge _ _ inside, same, op.relates_cast]

end Fold

theorem rangeOf_bounds {type : LogicalType} (exact : type.isExactNumber = true)
    (valid : type.Valid) : -10 ^ 38 < (rangeOf type).min ∧ (rangeOf type).max < 10 ^ 38 := by
  cases type with
  | decimal width scale =>
    have power : (10 : Int) ^ width ≤ 10 ^ 38 := pow_le_pow_right₀ (by norm_num) valid.2.1
    constructor
    · change (-10 ^ 38 : Int) < -(10 ^ width - 1)
      omega
    · change (10 : Int) ^ width - 1 < 10 ^ 38
      omega
  | smallInt | integer | bigInt | uSmallInt | hugeInt => constructor <;> simp [rangeOf]
  | _ => cases exact

theorem scale_le {type : LogicalType} (valid : type.Valid) : type.scale ≤ 38 := by
  cases type with
  | decimal width scale => exact valid.2.2.trans valid.2.1
  | _ => exact Nat.zero_le _

/-- A literal compared with an integer or DECIMAL column: the text is read without overflow,
exactly the numbers are accepted, and the folded comparison is the one with the literal's value. -/
theorem foldIntegerComparison_exact {text : List Char} (short : text.length < 10 ^ 8)
    (negative : Bool) (op : CompareOp) {type : LogicalType} (exact : type.isExactNumber = true)
    (valid : type.Valid) :
    ∃ read, parseExactNumber text negative type.scale = .ok read ∧
      (read.isSome = true ↔ ∃ parts : NumberParts, parts.Spells text) ∧
      ∀ number, read = some number → ∀ parts : NumberParts, parts.Spells text →
        ∃ folded, foldIntegerComparison op number (rangeOf type) = .ok folded ∧
          (folded.kind = .compare →
            (rangeOf type).min ≤ folded.value ∧ folded.value ≤ (rangeOf type).max) ∧
          ∀ v : Int, (rangeOf type).min ≤ v ∧ v ≤ (rangeOf type).max →
            (folded.accepts v = true ↔
              op.Relates (v : ℚ) (parts.signed negative * 10 ^ type.scale)) := by
  obtain ⟨least, most⟩ := rangeOf_bounds exact valid
  by_cases written : ∃ parts : NumberParts, parts.Spells text
  · obtain ⟨parts, spells⟩ := written
    obtain ⟨number, isNumber, denotes⟩ :=
      parseExactNumber_denotes spells short negative (scale_le valid)
    refine ⟨some number, isNumber, iff_of_true rfl ⟨parts, spells⟩, ?_⟩
    rintro _ ⟨⟩ parts' spells'
    cases Option.some.inj ((splitNumber_iff.mpr spells).symm.trans (splitNumber_iff.mpr spells'))
    obtain ⟨folded, isFolded, folds⟩ := foldIntegerComparison_folds denotes op least most
    exact ⟨folded, isFolded, folds.inside, folds.exact⟩
  · have rejected : splitNumber text = none :=
      Option.eq_none_iff_forall_ne_some.mpr fun parts split =>
        written ⟨parts, splitNumber_iff.mp split⟩
    refine ⟨none, ?_, iff_of_false (by simp) written, nofun⟩
    rw [parseExactNumber, rejected]

/-- `c > -1.5` on a SMALLINT column. -/
theorem foldIntegerComparison_exact_half :
    ∃ number folded, parseExactNumber ['1', '.', '5'] true 0 = .ok (some number) ∧
      foldIntegerComparison .gt number (rangeOf .smallInt) = .ok folded ∧
      ∀ v : Int, -2 ^ 15 ≤ v ∧ v ≤ 2 ^ 15 - 1 →
        (folded.accepts v = true ↔ (v : ℚ) > -(15 * 10 ^ (-1 : Int))) := by
  have spells : (NumberParts.mk ['1'] ['5'] false []).Spells ['1', '.', '5'] :=
    splitNumber_iff.mp (by decide)
  obtain ⟨read, isRead, accepts, exact⟩ := foldIntegerComparison_exact
    (show ['1', '.', '5'].length < 10 ^ 8 by decide) true .gt (show smallInt.isExactNumber from rfl)
    trivial
  obtain ⟨number, rfl⟩ := Option.isSome_iff_exists.mp (accepts.mpr ⟨_, spells⟩)
  obtain ⟨folded, isFolded, -, same⟩ := exact number rfl _ spells
  refine ⟨number, folded, isRead, isFolded, fun v inside => (same v inside).trans ?_⟩
  have literal : (NumberParts.mk ['1'] ['5'] false []).signed true * 10 ^ smallInt.scale =
      -(15 * 10 ^ (-1 : Int)) := by
    rw [show smallInt.scale = 0 from rfl, pow_zero, mul_one]
    rfl
  rw [literal]
  rfl

end Antb1.Plan
