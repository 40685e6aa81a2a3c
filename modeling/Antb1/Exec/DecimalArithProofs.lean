import Antb1.Exec.DecimalProgram
import Antb1.Exec.DecimalProofs

/-! DECIMAL arithmetic by what it does to each row: an operation over whole columns computes every
row, or fails for a constant or a row of them, and what it computes of a row is exact. -/
namespace Antb1.Exec.Decimal

open Lib Plan LogicalType List

variable {operand : DecimalOperand} {numRows : Nat} {x y : Int} {op : ArithOp} {input : Input}
  {left right source result : LogicalType}

def combine (op : ArithOp) (x y : Int) : Int :=
  match op with
  | .add => x + y
  | .subtract => x - y
  | .modulo => x.tmod y
  | _ => x * y

/-- The result of an operation in a row, NULL for a NULL operand or a zero divisor. -/
def rowValue (op : ArithOp) (left right result : LogicalType) (x y : Option Int) : Option Int :=
  x.bind fun v => y.bind fun w =>
    if op = .modulo ∧ w * stepFactor right result op = 0 then none
    else some (combine op (v * stepFactor left result op) (w * stepFactor right result op))

/-- An operand that has to be brought to the scale of the result and does not fit there. -/
def Unfit (op : ArithOp) (source result : LogicalType) (x : Option Int) : Prop :=
  op ≠ .multiply ∧ source.scale ≠ result.scale ∧
    ∃ v ∈ x, ¬(rangeOf result).Holds (v * scaleFactor source result)

/-- A constant beside an operand that is none, which does not fit the scale of the result. -/
def ConstantUnfit (op : ArithOp) (operand other : Expr) (result : LogicalType) : Prop :=
  unscaledConstant other = none ∧
    ∃ v, unscaledConstant operand = some v ∧ Unfit op operand.type result (some v)

/-- Two operands at the scale of the result, one of which, or the result, is no value of its type;
the other divisions are none of DECIMAL. -/
def Exceeds (op : ArithOp) (result : LogicalType) (v w : Int) : Prop :=
  (op = .divide ∨ op = .integerDivide) ∨
    (op ≠ .multiply ∧ ¬((rangeOf result).Holds v ∧ (rangeOf result).Holds w)) ∨
    ¬(rangeOf result).Holds (combine op v w)

/-- An operation that goes beyond its type: an operand does not fit its scale, whatever the other
is, or neither is NULL and they exceed it. -/
def Beyond (op : ArithOp) (left right result : LogicalType) (x y : Option Int) : Prop :=
  Unfit op left result x ∨ Unfit op right result y ∨ ∃ v ∈ x, ∃ w ∈ y,
    Exceeds op result (v * stepFactor left result op) (w * stepFactor right result op)

/-- A row that the operation computes. -/
structure Gives (op : ArithOp) (left right result : LogicalType) (x y out : Option Int) : Prop where
  kept : ¬Beyond op left right result x y
  value : out = rowValue op left right result x y

theorem holds_inInt128 {type : LogicalType} (exact : type.isExactNumber = true) (valid : type.Valid)
    (held : (rangeOf type).Holds x) : InInt128 x :=
  (stored_of_holds exact valid held).inInt128 exact

theorem stepFactor_same (same : op = .multiply ∨ source.scale = result.scale) :
    stepFactor source result op = 1 := by
  unfold stepFactor
  split
  · rfl
  · rw [scaleFactor, same.resolve_left ‹_›, Nat.sub_self, pow_zero]

theorem stepFactor_scaled (other : op ≠ .multiply) :
    stepFactor source result op = scaleFactor source result := if_neg other

/-- Of two values only their values at the scale of the result matter. -/
theorem beyond_some : Beyond op left right result (some x) (some y) ↔
    Exceeds op result (x * stepFactor left result op) (y * stepFactor right result op) := by
  constructor
  · rintro (⟨other, -, _, ⟨⟩, beyond⟩ | ⟨other, -, _, ⟨⟩, beyond⟩ | ⟨_, ⟨⟩, _, ⟨⟩, exceeds⟩)
    · rw [← stepFactor_scaled other] at beyond
      exact .inr (.inl ⟨other, fun both => beyond both.1⟩)
    · rw [← stepFactor_scaled other] at beyond
      exact .inr (.inl ⟨other, fun both => beyond both.2⟩)
    · exact exceeds
  · exact fun exceeds => .inr (.inr ⟨x, rfl, y, rfl, exceeds⟩)

theorem Gives.holds {x y : Option Int} {z : Int}
    (gives : Gives op left right result x y (some z)) : (rangeOf result).Holds z := by
  obtain ⟨kept, value⟩ := gives
  rcases x with _ | x
  · cases value
  rcases y with _ | y
  · cases value
  rw [beyond_some] at kept
  by_contra beyond
  refine kept (.inr (.inr ?_))
  dsimp only [rowValue, Option.bind_some] at value
  split at value
  · cases value
  · rwa [← Option.some.inj value]

theorem number_rescaled (le : source.scale ≤ result.scale) (x : Int) :
    number result (x * scaleFactor source result) = number source x := by
  obtain ⟨n, exact⟩ := Nat.exists_eq_add_of_le le
  rw [number, number, scaleFactor, exact, Nat.add_sub_cancel_left]
  push_cast
  field_simp
  ring

theorem number_add (type : LogicalType) (x y : Int) :
    number type (x + y) = number type x + number type y := by
  rw [number, number, number, Int.cast_add, add_div]

theorem number_sub (type : LogicalType) (x y : Int) :
    number type (x - y) = number type x - number type y := by
  rw [number, number, number, Int.cast_sub, sub_div]

theorem number_product (scales : result.scale = left.scale + right.scale) (x y : Int) :
    number result (x * y) = number left x * number right y := by
  rw [number, number, number, scales, pow_add, Int.cast_mul, mul_div_mul_comm]

theorem tmod_remainder (result : LogicalType) (x : Int) (nonzero : y ≠ 0) :
    Remainder (number result x) (number result y) (number result (x.tmod y)) := by
  have power : (0 : ℚ) < 10 ^ result.scale := by positivity
  constructor
  case multiple =>
    refine ⟨x.tdiv y, ?_⟩
    have division : (x : ℚ) = y * (x.tdiv y : ℤ) + (x.tmod y : ℤ) := by
      exact_mod_cast (Int.mul_tdiv_add_tmod x y).symm
    rw [number, number, number, division]
    ring
  case small =>
    have less : |x.tmod y| < |y| := by
      rw [Int.abs_eq_natAbs, Int.abs_eq_natAbs, Int.natAbs_tmod]
      exact_mod_cast Nat.mod_lt _ (Int.natAbs_pos.mpr nonzero)
    rw [number_abs, number_abs, number, number]
    exact div_lt_div_of_pos_right (by exact_mod_cast less) power
  case sign =>
    have sign : 0 ≤ x * x.tmod y := by
      rcases le_total 0 x with nonneg | nonpos
      · exact mul_nonneg nonneg (Int.tmod_nonneg y nonneg)
      · exact mul_nonneg_of_nonpos_of_nonpos nonpos (by
          have := Int.tmod_nonneg y (neg_nonneg.mpr nonpos)
          rw [Int.neg_tmod] at this
          omega)
    rw [number, number, div_mul_div_comm]
    exact div_nonneg (by exact_mod_cast sign) (by positivity)

theorem tdiv_inInt128 {type : LogicalType} (decimal : type.isDecimal = true) (valid : type.Valid)
    (held : (rangeOf type).Holds x) (y : Int) : InInt128 (x.tdiv y) := by
  obtain ⟨width, scale, rfl⟩ := decimal_cases decimal
  have smaller := Int.natAbs_tdiv_le_natAbs x y
  have bound := power_le valid.2.1
  rw [decimal_holds] at held
  simp only [kMaxDecimalWidth] at bound
  exact ⟨by omega, by omega⟩

theorem number_zero : number result y = 0 ↔ y = 0 := by
  have power : (10 : ℚ) ^ result.scale ≠ 0 := by positivity
  rw [number, div_eq_zero_iff, or_iff_left power, Int.cast_eq_zero]

/-- The result of a row is exact, also where it is beyond its type. -/
theorem rowValue_exact (exactLeft : left.isExactNumber = true)
    (exactRight : right.isExactNumber = true)
    (aligned : op ≠ .multiply → Aligned left result ∧ Aligned right result)
    (isType : decimalArithType op left right = .ok result) {x y : Option Int}
    (known : ∀ v ∈ x, ∀ w ∈ y, ¬(op = .divide ∨ op = .integerDivide)) :
    ArithRowExact op left right result x y (rowValue op left right result x y) := by
  rcases x with _ | x
  · rfl
  rcases y with _ | y
  · rfl
  by_cases product : op = .multiply
  · subst product
    obtain ⟨_, scales⟩ := decimalArithType_product exactLeft exactRight isType
    simp only [rowValue, stepFactor_same (.inl rfl), mul_one]
    exact congrArg some (number_product scales x y)
  obtain ⟨alignedLeft, alignedRight⟩ := aligned product
  simp only [ArithRowExact, rowValue, stepFactor_scaled product, Option.bind_some,
    ← number_rescaled alignedLeft.scale_le x, ← number_rescaled alignedRight.scale_le y]
  generalize x * scaleFactor left result = v, y * scaleFactor right result = w
  cases op with
  | add => exact congrArg some (number_add result v w)
  | subtract => exact congrArg some (number_sub result v w)
  | modulo =>
    by_cases zero : w = 0
    · rw [if_pos ⟨rfl, zero⟩, ArithExact, if_pos (number_zero.mpr zero)]
      rfl
    · rw [if_neg fun isZero => zero isZero.2, ArithExact, if_neg (mt number_zero.mp zero)]
      exact ⟨_, rfl, tmod_remainder result v zero⟩
  | multiply => exact absurd rfl product
  | divide => exact absurd (.inl rfl) (known x rfl y rfl)
  | integerDivide => exact absurd (.inr rfl) (known x rfl y rfl)

/-- The shape of an operand's values: one value, or one for each row. -/
def Values.Shaped (numRows : Nat) (isScalar : Bool) : Values → Prop
  | .scalar _ => isScalar = true
  | .array values => isScalar = false ∧ values.length = numRows

theorem rowsOf_shaped {left right : Values} {leftScalar rightScalar : Bool}
    (shapedLeft : left.Shaped numRows leftScalar) (shapedRight : right.Shaped numRows rightScalar)
    (oneArray : (leftScalar && rightScalar) = false) : rowsOf left right = numRows := by
  rcases left with _ | values
  · rcases right with _ | values
    · rw [show leftScalar = true from shapedLeft, show rightScalar = true from shapedRight]
        at oneArray
      cases oneArray
    · exact shapedRight.2
  · exact shapedLeft.2

/-- An operand read from its input: the values are unchanged, and those that need no check are
values of the type. -/
structure Reads (numRows : Nat) (isScalar : Bool) (input : Input) (operand : DecimalOperand) :
    Prop where
  type : operand.type = input.type
  shaped : operand.values.Shaped numRows isScalar
  rows : ∀ row < numRows, operand.values.at row = input.values.at row
  checked : operand.checked = true → ∀ row < numRows, ∀ x, input.values.at row = some x →
    (rangeOf input.type).Holds x

theorem mem_of_getD {values : Column} {row : Nat} (isRow : values.getD row none = some x) :
    some x ∈ values := by
  rw [getD_eq_getElem?_getD] at isRow
  cases found : values[row]? with
  | none =>
    rw [found] at isRow
    cases isRow
  | some value =>
    rw [found] at isRow
    exact isRow ▸ mem_of_getElem? found

theorem read_reads (exact : input.type.isExactNumber = true) (held : input.Held numRows)
    (bothConstant : Bool) :
    Reads numRows (input.isConstant && !bothConstant) input (input.read numRows bothConstant) := by
  rcases input with ⟨value | values, type, column⟩
  · have bounds : ∀ x, some value = some x → (rangeOf type).Holds x := by
      rintro _ ⟨⟩
      exact held
    cases bothConstant
    · exact ⟨rfl, rfl, fun _ _ => rfl, fun _ _ _ => bounds⟩
    · exact ⟨rfl, ⟨rfl, length_replicate⟩, fun row => getD_replicate _,
        fun _ _ _ => bounds⟩
  · have column : HeldColumn numRows type values := held
    refine ⟨rfl, ⟨rfl, column.length⟩, fun _ _ => rfl, fun checked row _ x isRow => ?_⟩
    have stored := column.stored x (mem_of_getD isRow)
    -- only an integer column that is no HUGEINT needs no check
    have notDecimal : isArrowDecimal type = false := Bool.not_eq_true' _ ▸ checked
    rcases column_cases exact with narrow | ⟨_, decimal⟩ | ⟨integer, small⟩
    · obtain ⟨width, scale, rfl, _⟩ := narrow_cases narrow
      cases notDecimal
    · rw [decimal] at notDecimal
      cases notDecimal
    · exact (stored_integer integer small).mp stored

theorem read_scalar {bothConstant : Bool} {v : Int} :
    (input.read numRows bothConstant).values = .scalar v ↔
      input.values = .scalar v ∧ bothConstant = false := by
  rcases input with ⟨value | values, type, column⟩ <;> cases bothConstant <;>
    simp [Input.read, readDecimalOperand, scalarDecimalOperand]

theorem forall₂_getD {R : Int → Int → Prop} {values results : Column}
    (each : List.Forall₂ (Option.Rel R) values results) (row : Nat) :
    Option.Rel R (values.getD row none) (results.getD row none) := by
  induction each generalizing row with
  | nil => exact .none
  | cons first _ ih =>
    cases row with
    | zero => exact first
    | succ row => exact ih row

theorem rescaleRow_follows (exact : result.isExactNumber = true) (valid : result.Valid)
    (operand : DecimalOperand) (x : Int) :
    Follows (fun y => y = x * scaleFactor operand.type result ∧ (rangeOf result).Holds y)
      (¬(rangeOf result).Holds (x * scaleFactor operand.type result))
      (rescaleRow operand result x) := by
  unfold rescaleRow rescaled
  by_cases holds : (rangeOf result).Holds (x * scaleFactor operand.type result)
  · rw [if_pos ⟨holds_inInt128 exact valid holds, holds⟩]
    exact ⟨rfl, holds⟩
  · rw [if_neg fun fits => holds fits.2]
    exact holds

/-- Rescaling brings every row to the result's scale, or fails for the constant or some row. -/
theorem rescaleOperand_follows {isScalar : Bool} (exact : result.isExactNumber = true)
    (valid : result.Valid) (shaped : operand.values.Shaped numRows isScalar)
    (scaled : operand.type.scale ≠ result.scale) :
    Follows (fun out : DecimalOperand => out.values.Shaped numRows isScalar ∧ ∀ row,
        out.values.at row = (operand.values.at row).map (· * scaleFactor operand.type result) ∧
          ∀ x, out.values.at row = some x → (rangeOf result).Holds x)
      ((∃ v, operand.values = .scalar v ∧
          ¬(rangeOf result).Holds (v * scaleFactor operand.type result)) ∨
        ∃ row < numRows, ∃ v ∈ operand.values.at row,
          ¬(rangeOf result).Holds (v * scaleFactor operand.type result))
      (rescaleOperand operand result) := by
  rw [rescaleOperand, if_neg scaled]
  have rescales := rescaleRow_follows exact valid operand
  rcases operand with ⟨value | values, type, column, checked⟩
  · refine follows_map.mpr ((rescales value).imp ?_ fun fails => .inl ⟨value, rfl, fails⟩)
    rintro y ⟨rfl, holds⟩
    refine ⟨shaped, fun row => ⟨rfl, ?_⟩⟩
    rintro _ ⟨⟩
    exact holds
  · refine follows_map.mpr ((follows_eachRow fun x _ => rescales x).imp ?_ ?_)
    · intro out each
      refine ⟨⟨shaped.1, each.length_eq.symm.trans shaped.2⟩, fun row => ?_⟩
      have related := forall₂_getD each row
      change out.getD row none = (values.getD row none).map _ ∧
        ∀ x, out.getD row none = some x → _
      generalize values.getD row none = value, out.getD row none = value' at related
      cases related with
      | none => exact ⟨rfl, nofun⟩
      | some both =>
        refine ⟨congrArg some both.1, ?_⟩
        rintro _ ⟨⟩
        exact both.2
    · rintro ⟨x, among, fails⟩
      obtain ⟨row, bound, same⟩ := getElem_of_mem among
      refine .inr ⟨row, shaped.2 ▸ bound, x, ?_, fails⟩
      change values.getD row none = some x
      rw [getD_eq_getElem _ _ bound, same]

/-- An operand at the result's scale, and what the operation still rejects of it. -/
structure Operates (numRows : Nat) (isScalar : Bool) (op : ArithOp) (input : Input)
    (result : LogicalType) (operand : DecimalOperand) : Prop where
  shaped : operand.values.Shaped numRows isScalar
  rows : ∀ row < numRows, ¬Unfit op input.type result (input.values.at row) ∧
    operand.values.at row = (input.values.at row).map (· * stepFactor input.type result op)
  rejects : ∀ row < numRows, ∀ x, operand.values.at row = some x →
    (operand.rejects op result x = true ↔ op ≠ .multiply ∧ ¬ (rangeOf result).Holds x)
  fit : isScalar = true → ∀ v, input.values = .scalar v → ¬Unfit op input.type result (some v)

/-- A value that is known to fit is not rejected, and any other is where it does not. -/
theorem rejects_iff
    (checked : operand.checked = true → op ≠ .multiply → (rangeOf result).Holds x) :
    operand.rejects op result x = true ↔ op ≠ .multiply ∧ ¬ (rangeOf result).Holds x := by
  unfold DecimalOperand.rejects
  cases isChecked : operand.checked
  case false => simp
  case true =>
    simp only [Bool.not_true, Bool.and_false, Bool.false_and, Bool.false_eq_true, false_iff,
      not_and, not_not]
    exact checked isChecked

theorem Reads.operates {isScalar : Bool} (reads : Reads numRows isScalar input operand)
    (same : op = .multiply ∨ input.type.scale = result.scale)
    (aligned : op ≠ .multiply → Aligned input.type result) :
    Operates numRows isScalar op input result operand where
  shaped := reads.shaped
  rows row bound := by
    refine ⟨fun unfit => same.elim unfit.1 unfit.2.1, ?_⟩
    simp [stepFactor_same same, reads.rows row bound]
  rejects row bound x isRow := by
    rw [reads.rows row bound] at isRow
    exact rejects_iff fun checked other =>
      (aligned other).nested (same.resolve_left other) x (reads.checked checked row bound x isRow)
  fit _ _ _ unfit := same.elim unfit.1 unfit.2.1

/-- The operand an operation reads, or what of it does not fit the result. -/
theorem operand_follows (exact : input.type.isExactNumber = true) (held : input.Held numRows)
    (aligned : op ≠ .multiply → Aligned input.type result)
    (exactResult : result.isExactNumber = true) (validResult : result.Valid)
    (bothConstant : Bool) :
    Follows (Operates numRows (input.isConstant && !bothConstant) op input result)
      ((bothConstant = false ∧
          ∃ v, input.values = .scalar v ∧ Unfit op input.type result (some v)) ∨
        ∃ row < numRows, Unfit op input.type result (input.values.at row))
      (input.operand numRows bothConstant op result) := by
  have reads := read_reads exact held bothConstant
  unfold Input.operand
  by_cases product : op = .multiply
  · rw [if_pos product]
    exact reads.operates (.inl product) aligned
  rw [if_neg product]
  by_cases same : input.type.scale = result.scale
  · rw [rescaleOperand, if_pos (reads.type ▸ same)]
    exact reads.operates (.inr same) aligned
  have rescales := rescaleOperand_follows exactResult validResult reads.shaped (reads.type ▸ same)
  rw [reads.type] at rescales
  refine rescales.imp ?_ ?_
  · rintro operand ⟨shaped, rows⟩
    have fits : ∀ row v, (input.read numRows bothConstant).values.at row = some v →
        (rangeOf result).Holds (v * scaleFactor input.type result) := by
      intro row v isRow
      apply (rows row).2
      rw [(rows row).1, isRow]
      rfl
    constructor
    case shaped => exact shaped
    case rows =>
      intro row bound
      rw [← reads.rows row bound, stepFactor_scaled product]
      refine ⟨?_, (rows row).1⟩
      rintro ⟨-, -, v, isRow, beyond⟩
      exact beyond (fits row v isRow)
    case rejects =>
      intro row bound x isRow
      exact rejects_iff fun _ _ => (rows row).2 x isRow
    case fit =>
      rintro alone v isScalar ⟨-, -, _, ⟨⟩, beyond⟩
      apply beyond (fits 0 v _)
      rw [read_scalar.mpr ⟨isScalar, by simpa using (Bool.and_eq_true_iff.mp alone).2⟩]
      rfl
  · rintro (⟨v, isScalar, fails⟩ | ⟨row, bound, v, isRow, fails⟩)
    · obtain ⟨isInput, alone⟩ := read_scalar.mp isScalar
      exact .inl ⟨alone, v, isInput, product, same, v, rfl, fails⟩
    · exact .inr ⟨row, bound, product, same, v, reads.rows row bound ▸ isRow, fails⟩

section Row

variable (decimal : result.isDecimal = true) (valid : result.Valid)
include decimal valid

theorem appendChecked_follows (op : ArithOp) (x y value : Int) :
    Follows (fun out => (rangeOf result).Holds value ∧ out = some value)
      (¬(rangeOf result).Holds value) (appendChecked op x y result value) := by
  have exact := exactNumber_of_decimal decimal
  unfold appendChecked
  by_cases holds : (rangeOf result).Holds value
  · rw [if_pos ⟨holds_inInt128 exact valid holds, holds⟩,
      append_stored exact (stored_of_holds exact valid holds)]
    exact ⟨holds, rfl⟩
  · rw [if_neg fun fits => holds fits.2]
    exact holds

theorem computeRow_follows
    (good : ¬(op ≠ .multiply ∧ ¬((rangeOf result).Holds x ∧ (rangeOf result).Holds y))) :
    Follows (fun out => ¬Exceeds op result x y ∧
        out = if op = .modulo ∧ y = 0 then none else some (combine op x y))
      (Exceeds op result x y) (computeRow op result x y) := by
  have finish : ¬(op = .divide ∨ op = .integerDivide) → ¬(op = .modulo ∧ y = 0) →
      Follows (fun out => ¬Exceeds op result x y ∧
          out = if op = .modulo ∧ y = 0 then none else some (combine op x y))
        (Exceeds op result x y) (appendChecked op x y result (combine op x y)) := by
    intro known nonzero
    refine (appendChecked_follows decimal valid op x y _).imp ?_ fun beyond => .inr (.inr beyond)
    rintro out ⟨holds, rfl⟩
    rw [if_neg nonzero]
    exact ⟨fun exceeds => exceeds.elim known fun rest => rest.elim good (absurd holds), rfl⟩
  cases op with
  | add | subtract | multiply => exact finish (by decide) fun zero => nomatch zero.1
  | modulo =>
    have held : (rangeOf result).Holds x := by
      by_contra beyond
      exact good ⟨by decide, fun both => beyond both.1⟩
    rw [computeRow]
    by_cases zero : y = 0
    · rw [if_pos zero]
      refine ⟨?_, (if_pos ⟨rfl, zero⟩).symm⟩
      rintro (division | rejected | beyond)
      · simp at division
      · exact good rejected
      · rw [zero, combine, Int.tmod_zero] at beyond
        exact beyond held
    · rw [if_neg zero, int128_ok (tdiv_inInt128 decimal valid held y)]
      exact finish (by decide) fun isZero => zero isZero.2
  | divide => exact .inl (.inl rfl)
  | integerDivide => exact .inl (.inr rfl)

theorem arithRow_follows {l r : DecimalOperand} {x y : Option Int}
    (fitLeft : ¬Unfit op left result x) (fitRight : ¬Unfit op right result y)
    (rejectsLeft : ∀ v, x.map (· * stepFactor left result op) = some v →
      (l.rejects op result v = true ↔ op ≠ .multiply ∧ ¬ (rangeOf result).Holds v))
    (rejectsRight : ∀ v, y.map (· * stepFactor right result op) = some v →
      (r.rejects op result v = true ↔ op ≠ .multiply ∧ ¬ (rangeOf result).Holds v)) :
    Follows (Gives op left right result x y) (Beyond op left right result x y)
      (arithRow op l r result (x.map (· * stepFactor left result op))
        (y.map (· * stepFactor right result op))) := by
  rcases x with _ | x
  · exact ⟨by simp [Beyond, fitLeft, fitRight], rfl⟩
  rcases y with _ | y
  · exact ⟨by simp [Beyond, fitLeft, fitRight], rfl⟩
  suffices row : Follows (fun out => ¬Exceeds op result (x * stepFactor left result op)
        (y * stepFactor right result op) ∧ out = rowValue op left right result (some x) (some y))
      (Exceeds op result (x * stepFactor left result op) (y * stepFactor right result op))
      (arithRow op l r result (some (x * stepFactor left result op))
        (some (y * stepFactor right result op))) from
    row.imp (fun _ kept => ⟨mt beyond_some.mp kept.1, kept.2⟩) beyond_some.mpr
  have left := rejectsLeft _ rfl
  have right := rejectsRight _ rfl
  rw [arithRow]
  split
  case isTrue bad => exact .inr (.inl ⟨(left.mp bad).1, fun both => (left.mp bad).2 both.1⟩)
  case isFalse goodLeft =>
  split
  case isTrue bad => exact .inr (.inl ⟨(right.mp bad).1, fun both => (right.mp bad).2 both.2⟩)
  case isFalse goodRight =>
    apply computeRow_follows decimal valid
    rintro ⟨other, beyond⟩
    apply beyond
    constructor
    · exact by_contra fun not => goodLeft (left.mpr ⟨other, not⟩)
    · exact by_contra fun not => goodRight (right.mpr ⟨other, not⟩)

theorem decimalArith_follows {x y : Input} {l r : DecimalOperand} {leftScalar rightScalar : Bool}
    (isLeft : Operates numRows leftScalar op x result l)
    (isRight : Operates numRows rightScalar op y result r)
    (single : (leftScalar && rightScalar) = false) :
    Follows (fun out => out.length = numRows ∧ ∀ row < numRows,
        Gives op x.type y.type result (x.values.at row) (y.values.at row) (out.getD row none))
      (∃ row < numRows, Beyond op x.type y.type result (x.values.at row) (y.values.at row))
      (decimalArith l r op result) := by
  rw [decimalArith, rowsOf_shaped isLeft.shaped isRight.shaped single]
  refine (follows_mapM (F := fun row =>
    Beyond op x.type y.type result (x.values.at row) (y.values.at row)) fun row inRows => ?_).imp
    (fun out related => forall₂_range.mp related) fun ⟨row, inRows, beyond⟩ =>
      ⟨row, mem_range.mp inRows, beyond⟩
  obtain ⟨fitLeft, rowLeft⟩ := isLeft.rows row (mem_range.mp inRows)
  obtain ⟨fitRight, rowRight⟩ := isRight.rows row (mem_range.mp inRows)
  have rejectsLeft := isLeft.rejects row (mem_range.mp inRows)
  have rejectsRight := isRight.rejects row (mem_range.mp inRows)
  rw [rowLeft] at rejectsLeft
  rw [rowRight] at rejectsRight
  rw [rowLeft, rowRight]
  exact arithRow_follows decimal valid fitLeft fitRight rejectsLeft rejectsRight

end Row

theorem oneArray (a b : Bool) : ((a && !(a && b)) && (b && !(a && b))) = false := by
  cases a <;> cases b <;> rfl

/-- What is known once an expression is computed, and of each row of it. -/
structure Knowledge where
  whole : Prop := True
  Row : Nat → Option Int → Prop

/-- A column of a type with what is known of it. -/
structure EachRow (numRows : Nat) (type : LogicalType) (known : Knowledge) (out : Column) :
    Prop where
  held : HeldColumn numRows type out
  whole : known.whole
  rows : ∀ row < numRows, known.Row row (out.getD row none)

/-- An operand's input: a constant or a computed column, with what is known of it. -/
structure Supplies (numRows : Nat) (expr : Expr) (known : Knowledge) (input : Input) : Prop where
  type : input.type = expr.type
  isConstant : input.isConstant = (unscaledConstant expr).isSome
  scalar : ∀ v, input.values = .scalar v → unscaledConstant expr = some v
  held : input.Held numRows
  whole : known.whole
  rows : ∀ row < numRows, known.Row row (input.values.at row)

section Arith

variable {evaluator : Evaluator} {left right : Expr} {ofLeft ofRight : Knowledge}
  {failsLeft failsRight : Prop} {leftValues rightValues : Except Fault Column}

theorem inputOf_supplies {expr : Expr} {values : Except Fault Column}
    (constant : ∀ v, unscaledConstant expr = some v → (rangeOf expr.type).Holds v ∧
      ofLeft.whole ∧ ∀ row < evaluator.numRows, ofLeft.Row row (some v))
    (follows : Follows (EachRow evaluator.numRows expr.type ofLeft) failsLeft values) :
    Follows (Supplies evaluator.numRows expr ofLeft) failsLeft
      (evaluator.inputOf expr values) := by
  unfold Evaluator.inputOf
  cases isConstant : unscaledConstant expr with
  | some v =>
    obtain ⟨holds, rows⟩ := constant v isConstant
    refine ⟨rfl, isConstant ▸ rfl, ?_, holds, rows.1, rows.2⟩
    rintro _ ⟨⟩
    exact isConstant
  | none =>
    exact follows_map.mpr (follows.mono fun out each =>
      ⟨rfl, isConstant ▸ rfl, nofun, each.held, each.whole, each.rows⟩)

theorem not_constantUnfit {expr other : Expr} (supplies : Supplies numRows expr ofLeft input)
    {bothConstant : Bool} (single : unscaledConstant other = none → bothConstant = false)
    (operates : Operates numRows (input.isConstant && !bothConstant) op input result operand) :
    ¬ConstantUnfit op expr other result := by
  rintro ⟨alone, v, isConstant, unfit⟩
  have constant := supplies.isConstant
  rw [isConstant] at constant
  have isScalar : input.values = .scalar v := by
    cases isInput : input.values with
    | scalar w => rw [Option.some.inj (isConstant.symm.trans (supplies.scalar w isInput))]
    | array _ =>
      rw [Input.isConstant, isInput] at constant
      cases constant
  refine operates.fit ?_ v isScalar (supplies.type ▸ unfit)
  rw [single alone, constant]
  rfl

/-- What an operation computes of two operands, and that their constants fit it. -/
structure Combines (numRows : Nat) (op : ArithOp) (left right : Expr) (result : LogicalType)
    (ofLeft ofRight : Knowledge) (out : Column) : Prop where
  held : HeldColumn numRows result out
  wholeLeft : ofLeft.whole
  wholeRight : ofRight.whole
  rows : ∀ row < numRows, ∃ x y, ofLeft.Row row x ∧ ofRight.Row row y ∧
    Gives op left.type right.type result x y (out.getD row none)
  fitLeft : ¬ConstantUnfit op left right result
  fitRight : ¬ConstantUnfit op right left result

/-- Why an operation fails: an operand does, a constant does not fit it, or some row fails, the
left operand's rescale before the right operand is computed. -/
def CombineFails (numRows : Nat) (op : ArithOp) (left right : Expr) (result : LogicalType)
    (failsLeft failsRight : Prop) (ofLeft ofRight : Knowledge) : Prop :=
  failsLeft ∨ failsRight ∨ ConstantUnfit op left right result ∨
    ConstantUnfit op right left result ∨ ∃ row < numRows, ∃ x, ofLeft.Row row x ∧
      (Unfit op left.type result x ∨
        ∃ y, ofRight.Row row y ∧ Beyond op left.type right.type result x y)

/-- An operation over whole columns does on every row what it does on the row. -/
theorem arithValues_follows (exactLeft : left.type.isExactNumber = true)
    (exactRight : right.type.isExactNumber = true)
    (aligned : op ≠ .multiply → Aligned left.type result ∧ Aligned right.type result)
    (decimal : result.isDecimal = true) (valid : result.Valid)
    (suppliesLeft : Follows (Supplies evaluator.numRows left ofLeft) failsLeft
      (evaluator.inputOf left leftValues))
    (suppliesRight : Follows (Supplies evaluator.numRows right ofRight) failsRight
      (evaluator.inputOf right rightValues)) :
    Follows (Combines evaluator.numRows op left right result ofLeft ofRight)
      (CombineFails evaluator.numRows op left right result failsLeft failsRight ofLeft ofRight)
      (evaluator.arithValues op left right result leftValues rightValues) := by
  have exact := exactNumber_of_decimal decimal
  have single := oneArray (unscaledConstant left).isSome (unscaledConstant right).isSome
  unfold Evaluator.arithValues
  refine (suppliesLeft.imp (fun _ => id) .inl).bind fun x isLeft => ?_
  have typeLeft := isLeft.type
  refine ((operand_follows (typeLeft ▸ exactLeft) isLeft.held
    (fun other => typeLeft ▸ (aligned other).1) exact valid _).imp (fun _ => id) ?_).bind
    fun l operatesLeft => ?_
  · rintro (⟨alone, v, isScalar, unfit⟩ | ⟨row, bound, unfit⟩)
    · have isConstant := isLeft.scalar v isScalar
      rw [isConstant] at alone
      exact .inr (.inr (.inl ⟨by simpa using alone, v, isConstant, typeLeft ▸ unfit⟩))
    · exact .inr (.inr (.inr (.inr
        ⟨row, bound, _, isLeft.rows row bound, .inl (typeLeft ▸ unfit)⟩)))
  refine (suppliesRight.imp (fun _ => id) fun fails => .inr (.inl fails)).bind fun y isRight => ?_
  have typeRight := isRight.type
  have fails : (∃ row < evaluator.numRows, Beyond op x.type y.type result (x.values.at row)
      (y.values.at row)) → CombineFails evaluator.numRows op left right result failsLeft
        failsRight ofLeft ofRight := by
    rintro ⟨row, bound, beyond⟩
    rw [typeLeft, typeRight] at beyond
    exact .inr (.inr (.inr (.inr ⟨row, bound, _, isLeft.rows row bound,
      .inr ⟨_, isRight.rows row bound, beyond⟩⟩)))
  refine ((operand_follows (typeRight ▸ exactRight) isRight.held
    (fun other => typeRight ▸ (aligned other).2) exact valid _).imp (fun _ => id) ?_).bind
    fun r operatesRight => ?_
  · rintro (⟨alone, v, isScalar, unfit⟩ | ⟨row, bound, unfit⟩)
    · have isConstant := isRight.scalar v isScalar
      rw [isConstant] at alone
      exact .inr (.inr (.inr (.inl ⟨by simpa using alone, v, isConstant, typeRight ▸ unfit⟩)))
    · exact fails ⟨row, bound, .inr (.inl unfit)⟩
  have fitLeft : ¬ConstantUnfit op left right result :=
    not_constantUnfit isLeft (fun alone => by simp [alone]) operatesLeft
  have fitRight : ¬ConstantUnfit op right left result :=
    not_constantUnfit isRight (fun alone => by simp [alone]) operatesRight
  rw [isLeft.isConstant] at operatesLeft
  rw [isRight.isConstant] at operatesRight
  refine (decimalArith_follows decimal valid operatesLeft operatesRight single).imp ?_ fails
  rintro out ⟨length, rows⟩
  rw [typeLeft, typeRight] at rows
  constructor
  case held =>
    refine ⟨length, fun z among => ?_⟩
    obtain ⟨row, bound, same⟩ := getElem_of_mem among
    have isRow := rows row (length ▸ bound)
    rw [getD_eq_getElem _ _ bound, same] at isRow
    exact stored_of_holds exact valid isRow.holds
  case rows =>
    exact fun row bound => ⟨_, _, isLeft.rows row bound, isRight.rows row bound, rows row bound⟩
  case wholeLeft => exact isLeft.whole
  case wholeRight => exact isRight.whole
  case fitLeft => exact fitLeft
  case fitRight => exact fitRight

end Arith

end Antb1.Exec.Decimal
