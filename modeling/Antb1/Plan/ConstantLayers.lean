import Antb1.Plan.LiteralProofs
import Antb1.Sql.Expr

/-! Constants in an operand (`ConstantValue` and `ReadsColumn` of `plan/binder.cc`): a constant
integer expression folds to its value or to nothing, and no step of it overflows 128 bits. -/
namespace Antb1.Plan

open Lib

def LogicalType.isSignedInteger (type : LogicalType) : Bool :=
  type = .smallInt || type = .integer || type = .bigInt

/-- The value of an integer literal; none beyond 38 digits. -/
def exactInteger (negative : Bool) (text : Sql.IntegerText) : Except Overflow (Option Int) :=
  if isApproximateNumber text.digits then .ok none
  else do
    match ← parseExactNumber text.digits negative 0 with
    | none => return none
    | some exact => if exact.huge then return none else return some (← exact.signed)

/-- A checked 128-bit step. -/
def checked128 (x : Int) : Option Int := if InInt128 x then some x else none

def foldBinary (op : Sql.BinaryOp) (l r : Int) : Option Int :=
  match op with
  | .add => checked128 (l + r)
  | .subtract => checked128 (l - r)
  | .multiply => checked128 (l * r)
  | _ => none

variable {Node : Type}

/-- The value of a constant integer expression: integer literals under `+`, `-`, `*` and
unary minus. -/
def constantValue : Sql.Operand Node → Except Overflow (Option Int)
  | .integer negative text => exactInteger negative text
  | .negate operand => do return (← constantValue operand).bind fun v => checked128 (0 - v)
  | .binary op left right => do
    let l ← constantValue left
    let r ← constantValue right
    return l.bind fun l => r.bind fun r => foldBinary op l r
  | .node _ => .ok none

/-- Whether an operand reads a column (in HAVING, or calls an aggregate): what a node reads is
given. -/
def readsColumn (reads : Node → Bool) : Sql.Operand Node → Bool
  | .integer _ _ => false
  | .negate operand => readsColumn reads operand
  | .binary _ left right => readsColumn reads left || readsColumn reads right
  | .node node => reads node

theorem isApproximateNumber_integer (text : Sql.IntegerText) :
    isApproximateNumber text.digits = false := by
  have plain : ∀ c ∈ text.digits, c ≠ 'e' ∧ c ≠ 'E' ∧ c ≠ '.' := by
    intro c among
    have isDigit := text.decimal c among
    refine ⟨?_, ?_, ?_⟩ <;>
      · rintro rfl
        revert isDigit
        decide
  simp only [isApproximateNumber, Bool.or_eq_false_iff, Bool.and_eq_false_iff, List.any_eq_false,
    decide_eq_true_eq]
  exact ⟨fun c among => by simp [plain c among], .inl fun c among => (plain c among).2.2⟩

theorem splitNumber_integer (text : Sql.IntegerText) :
    splitNumber text.digits = some ⟨text.digits, [], false, []⟩ := by
  rw [splitNumber_iff]
  exact ⟨text.decimal, nofun, nofun, fun none_ => text.some_ none_.1, [], [], by simp,
    .inl ⟨rfl, rfl⟩, .inl ⟨rfl, rfl, rfl⟩⟩

/-- Digits without leading zeros are at most 38 exactly where the value is below `10 ^ 38`. -/
theorem length_le_iff {sig : List Char} (decimal : Digits.Decimal sig)
    (leading : ∀ c ∈ sig.head?, c ≠ '0') : sig.length ≤ 38 ↔ Digits.value sig < 10 ^ 38 := by
  constructor
  · intro few
    exact (Digits.value_lt decimal).trans_le (Nat.pow_le_pow_right (by decide) few)
  · intro small
    cases sig with
    | nil => exact Nat.zero_le _
    | cons c rest =>
      have least := @Digits.le_value c rest (decimal c List.mem_cons_self) (leading c rfl)
      have power := (Nat.pow_lt_pow_iff_right (by decide)).mp (least.trans_lt small)
      exact power

theorem exactNumberOf_integer (negative : Bool) {sig : List Char} (decimal : Digits.Decimal sig)
    (short : sig.length < 2 ^ 63) :
    exactNumberOf negative sig 0 = .ok (if sig.length ≤ 38
      then { negative, magnitude := Digits.value sig } else { negative, huge := true }) := by
  have digits : int64 ((sig.length : Int) + 0) = .ok (sig.length : Int) := by
    rw [Int.add_zero]
    exact int64_ok ⟨by omega, by exact_mod_cast short⟩
  rw [exactNumberOf, digits, ok_bind]
  by_cases few : sig.length ≤ 38
  · have most : (Digits.value sig : Int) < 10 ^ 38 := by
      exact_mod_cast (Digits.value_lt decimal).trans_le (Nat.pow_le_pow_right (by decide) few)
    have one : pow10 (0 : Int).toNat = .ok 1 := rfl
    rw [if_neg (by simp only [kMaxIntegerDigits]; omega), if_pos le_rfl, digitsValue_ok decimal few,
      ok_bind, one, ok_bind, Int.mul_one, int128_ok (inInt128_of_le (by omega) (by omega)), if_pos few]
    rfl
  · rw [if_pos (by simp only [kMaxIntegerDigits]; omega), if_neg few]
    rfl

theorem exactInteger_eq (negative : Bool) (text : Sql.IntegerText) :
    exactInteger negative text =
      .ok (if Digits.value text.digits < 10 ^ 38 then some (text.signed negative) else none) := by
  have same := Digits.value_dropWhile_zero text.digits
  have noExponent : NumberParts.saturated ⟨text.digits, [], false, []⟩ = .ok 0 := rfl
  rw [exactInteger, isApproximateNumber_integer, if_neg (by decide), parseExactNumber,
    splitNumber_integer]
  simp only [noExponent, ok_bind, List.append_nil, List.length_nil]
  by_cases zero : text.digits.dropWhile (· = '0') = []
  · rw [zero] at same
    have isZero : Digits.value text.digits = 0 := same.symm
    simp [zero, isZero, ExactNumber.signed, Sql.IntegerText.signed]
  · have suffix : (text.digits.dropWhile (· = '0')) <:+ text.digits := List.dropWhile_suffix _
    have decimal : Digits.Decimal (text.digits.dropWhile (· = '0')) :=
      fun c among => text.decimal c (suffix.subset among)
    have leading : ∀ c ∈ (text.digits.dropWhile (· = '0')).head?, c ≠ '0' := by
      intro c first
      have stops := List.head?_dropWhile_not (· = '0') text.digits
      rw [first] at stops
      simpa using stops
    have noScale : int64 (0 + 0) = .ok 0 ∧ int64 (0 - ((0 : Nat) : Int)) = .ok 0 := ⟨rfl, rfl⟩
    have fits := length_le_iff decimal leading
    rw [same] at fits
    rw [if_neg zero, noScale.1, ok_bind, noScale.2, ok_bind,
      exactNumberOf_integer negative decimal (suffix.length_le.trans_lt text.short), same]
    by_cases few : Digits.value text.digits < 10 ^ 38
    · rw [if_pos few, if_pos (fits.mpr few)]
      have most : (Digits.value text.digits : Int) < 10 ^ 38 := by exact_mod_cast few
      have signed : ExactNumber.signed { negative, magnitude := Digits.value text.digits } =
          .ok (text.signed negative) :=
        @signed_ok { negative, magnitude := Digits.value text.digits }
          ⟨Int.natCast_nonneg _, most⟩
      simp [signed]
    · rw [if_neg few, if_neg (mt fits.mp few)]
      rfl

theorem checked128_eq_some {x y : Int} (is : checked128 x = some y) : InInt128 x ∧ y = x := by
  unfold checked128 at is
  split_ifs at is with fits
  exact ⟨fits, (Option.some.inj is).symm⟩

theorem foldBinary_value {op : Sql.BinaryOp} {left right : Sql.Operand Node} {l r c : Int}
    {other : Sql.Operand Node → Option Int} (isLeft : left.value other = some l)
    (isRight : right.value other = some r) (folded : foldBinary op l r = some c) :
    InInt128 c ∧ (Sql.Operand.binary op left right).value other = some c := by
  cases op with
  | add | subtract | multiply =>
    obtain ⟨fits, rfl⟩ := checked128_eq_some folded
    exact ⟨fits, by simp [Sql.Operand.value, isLeft, isRight]⟩
  | _ => cases folded

/-- Folding a constant expression never overflows, and gives its value, within 128 bits. -/
theorem constantValue_spec (operand : Sql.Operand Node) :
    ∃ folded, constantValue operand = .ok folded ∧
      ∀ c ∈ folded, InInt128 c ∧ ∀ other, operand.value other = some c := by
  induction operand with
  | integer negative text =>
    refine ⟨_, exactInteger_eq negative text, ?_⟩
    intro c isValue
    split_ifs at isValue with small
    · obtain rfl := Option.mem_some_iff.mp isValue
      have most : (Digits.value text.digits : Int) < 10 ^ 38 := by exact_mod_cast small
      refine ⟨inInt128_of_le ?_ ?_, fun other => rfl⟩ <;>
        · unfold Sql.IntegerText.signed
          split_ifs <;> omega
    · cases isValue
  | negate operand ih =>
    obtain ⟨folded, isFolded, values⟩ := ih
    refine ⟨_, by rw [constantValue, isFolded]; rfl, ?_⟩
    intro c isValue
    obtain ⟨v, isInner, isValue⟩ := Option.bind_eq_some_iff.mp isValue
    obtain ⟨fits, rfl⟩ := checked128_eq_some isValue
    refine ⟨fits, fun other => ?_⟩
    simp [Sql.Operand.value, (values v isInner).2 other]
  | binary op left right leftFolds rightFolds =>
    obtain ⟨l, isLeft, leftValues⟩ := leftFolds
    obtain ⟨r, isRight, rightValues⟩ := rightFolds
    refine ⟨_, by rw [constantValue, isLeft, isRight]; rfl, ?_⟩
    intro c isValue
    obtain ⟨x, isX, isValue⟩ := Option.bind_eq_some_iff.mp isValue
    obtain ⟨y, isY, isValue⟩ := Option.bind_eq_some_iff.mp isValue
    have value := fun other => foldBinary_value ((leftValues x isX).2 other)
      ((rightValues y isY).2 other) isValue
    exact ⟨(value fun _ => none).1, fun other => (value other).2⟩
  | node _ => exact ⟨none, rfl, nofun⟩

end Antb1.Plan
