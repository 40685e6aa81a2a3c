import Antb1.Exec.Decimal
import Antb1.Plan.SameExpr

/-! DECIMAL arithmetic trees (`exec/compute.cc`): the evaluation of one operation after the other
over whole columns, and the program a tree of `+`, `-` and `*` is compiled to and run by, row by
row. -/
namespace Antb1.Exec.Decimal

open Plan

/-- An expression of the node that is already computed, with its values. -/
structure ComputedExpr where
  expr : Expr
  values : Column

/-- `Evaluator`: the batch, by position, and the node's earlier expressions. -/
structure Evaluator where
  numRows : Nat
  columns : List Column
  computed : List ComputedExpr := []
  /-- The name of a column, as a failed cast prints it. -/
  nameOf : ColumnExpr → String := fun _ => ""
  /-- The values of an expression outside DECIMAL arithmetic. -/
  other : Expr → Except Fault Column := fun _ => invalid "no DECIMAL arithmetic"

/-- `UnscaledConstant`: the value of a constant of an exact type. -/
def unscaledConstant : Expr → Option Int
  | .constant ⟨_, .int value⟩ type => if type.isExactNumber then some value else none
  | _ => none

namespace Evaluator

variable (evaluator : Evaluator)

/-- `Reused`: the values of an earlier expression that is this one. -/
def reused (expr : Expr) : Option Column :=
  if expr.type.isDecimal then
    (evaluator.computed.find? fun done => done.expr.same expr).map (·.values)
  else none

def columnName : Expr → String
  | .column column _ => evaluator.nameOf column
  | _ => ""

def columnValues (column : ColumnExpr) : Option Column :=
  if column.index < 0 then none else evaluator.columns[column.index.toNat]?

/-- An operand's expression, computed unless it is a constant. -/
def inputOf (expr : Expr) (values : Except Fault Column) : Except Fault Input :=
  match unscaledConstant expr with
  | some value => .ok ⟨.scalar value, expr.type, ""⟩
  | none => values.map fun values => ⟨.array values, expr.type, evaluator.columnName expr⟩

/-- `Evaluate(ArithExpr)` in DECIMAL without a program: the left operand is computed and rescaled
before the right one is computed. -/
def arithValues (op : ArithOp) (left right : Expr) (result : LogicalType)
    (leftValues rightValues : Except Fault Column) : Except Fault Column := do
  let bothConstant := (unscaledConstant left).isSome && (unscaledConstant right).isSome
  let x ← evaluator.inputOf left leftValues
  let l ← x.operand evaluator.numRows bothConstant op result
  let y ← evaluator.inputOf right rightValues
  let r ← y.operand evaluator.numRows bothConstant op result
  decimalArith l r op result

/-- The values of an expression, one operation at a time over whole columns. -/
def nodeByNode : Expr → Except Fault Column
  | .arith op left right type =>
    match evaluator.reused (.arith op left right type) with
    | some values => .ok values
    | none =>
      if type.isDecimal then
        evaluator.arithValues op left right type (nodeByNode left) (nodeByNode right)
      else evaluator.other (.arith op left right type)
  | .column column type =>
    match evaluator.reused (.column column type) with
    | some values => .ok values
    | none =>
      match evaluator.columnValues column with
      | some values => .ok values
      | none => invalid "expression reads a column the input does not have"
  | .constant ⟨s, .int value⟩ type =>
    match evaluator.reused (.constant ⟨s, .int value⟩ type) with
    | some values => .ok values
    | none => .ok (List.replicate evaluator.numRows (some value))
  | expr =>
    match evaluator.reused expr with
    | some values => .ok values
    | none => evaluator.other expr

end Evaluator

def kMaxNarrowDigits : Nat := 18

def kMaxProgramSteps : Nat := 16

inductive Source where
  | column (at_ : Nat)
  | constant (at_ : Nat)
  | step (at_ : Nat)
  deriving DecidableEq, Repr

/-- One side of a step: where it is read, the factor to the step's scale, and whether the value
still has to be checked against the step's range. -/
structure Side where
  source : Source
  factor : Int := 1
  factor64 : Int := 1
  check : Bool := false
  column : String := ""
  type : LogicalType
  deriving DecidableEq, Repr

structure Step where
  left : Side
  right : Side
  op : ArithOp
  type : LogicalType
  range : IntegerRange
  min64 : Int := 0
  max64 : Int := 0
  /-- The step has an int64 form. -/
  narrow : Bool := false
  deriving DecidableEq, Repr

structure DecimalProgram where
  columns : List DecimalOperand := []
  constants : List Int := []
  steps : List Step := []
  deriving DecidableEq, Repr

/-- `ScaleFactor`: `*` rescales nothing. -/
def stepFactor (source target : LogicalType) (op : ArithOp) : Int :=
  if op = .multiply then 1 else scaleFactor source target

def DecimalProgram.unchecked (program : DecimalProgram) (op : ArithOp) (source : Source)
    (factor : Int) : Bool :=
  match source with
  | .column at_ =>
    op ≠ .multiply && factor = 1 && !((program.columns[at_]?.map (·.checked)).getD true)
  | _ => false

def DecimalProgram.side (program : DecimalProgram) (op : ArithOp) (source : Source)
    (operand : LogicalType) (column : String) (result : LogicalType) : Side :=
  let factor := stepFactor operand result op
  { source, factor, check := program.unchecked op source factor, column, type := operand }

/-- The int64 form of a step, where its range and factors have one. -/
def Step.narrowed (step : Step) : Step :=
  if step.type.isDecimal && step.type.width ≤ kMaxNarrowDigits && InInt64 step.range.min &&
      InInt64 step.range.max && InInt64 step.left.factor && InInt64 step.right.factor then
    { step with
      min64 := step.range.min
      max64 := step.range.max
      left := { step.left with factor64 := step.left.factor }
      right := { step.right with factor64 := step.right.factor }
      narrow := true }
  else step

section Compile

variable (evaluator : Evaluator)

/-- An expression that is read as it is: an earlier expression of the node, a constant or a
column. -/
def compileLeaf (expr : Expr) (program : DecimalProgram) : Option (Source × DecimalProgram) :=
  match evaluator.reused expr with
  | some values =>
    -- only an arithmetic result is known to be within its type
    let operand := { readDecimalOperand values expr.type "" with checked := expr.isArith }
    some (.column program.columns.length, { program with columns := program.columns ++ [operand] })
  | none =>
    match unscaledConstant expr with
    | some value =>
      some (.constant program.constants.length,
        { program with constants := program.constants ++ [value] })
    | none =>
      match expr with
      | .column column type =>
        if type.isDecimal then
          (evaluator.columnValues column).map fun values =>
            (.column program.columns.length, { program with
              columns := program.columns ++
                [readDecimalOperand values type (evaluator.columnName expr)] })
        else none
      | _ => none

/-- `Compile`: the steps of a tree after those of the program, and where its result is read. -/
def compile : Expr → DecimalProgram → Option (Source × DecimalProgram)
  | .arith op left right type, program =>
    match compileLeaf evaluator (.arith op left right type) program with
    | some leaf => some leaf
    | none =>
      if !type.isDecimal || program.steps.length + 1 > kMaxProgramSteps then none
      else if op ≠ .add && op ≠ .subtract && op ≠ .multiply then none
      else
        (compile left program).bind fun x => (compile right x.2).bind fun y =>
          if y.2.steps.length + 1 > kMaxProgramSteps then none
          else
            let step : Step := {
              left := y.2.side op x.1 left.type (evaluator.columnName left) type
              right := y.2.side op y.1 right.type (evaluator.columnName right) type
              op
              type
              range := rangeOf type }
            some (.step y.2.steps.length,
              { y.2 with steps := y.2.steps ++ [step.narrowed] })
  | expr, program => compileLeaf evaluator expr program

end Compile

/-- The value a step reads; slots are the results of the steps before it. -/
def DecimalProgram.read (program : DecimalProgram) (row : Nat) (slots : List Int) : Source → Int
  | .column at_ => ((program.columns[at_]?.bind fun operand => operand.values.at row)).getD 0
  | .constant at_ => program.constants.getD at_ 0
  | .step at_ => slots.getD at_ 0

/-- `NarrowStep`'s checked multiplication and range test of one operand. -/
def Side.narrowValue (side : Side) (step : Step) (x : Int) : Option Int :=
  let scaled := if side.factor64 ≠ 1 then x * side.factor64 else x
  if !InInt64 scaled then none
  else if (side.factor64 ≠ 1 || side.check) && (scaled < step.min64 || scaled > step.max64) then none
  else some scaled

/-- The checked operation of `NarrowStep`; `%` has none. -/
def narrowResult (op : ArithOp) (x y : Int) : Option Int :=
  let value := match op with
    | .add => some (x + y)
    | .subtract => some (x - y)
    | .multiply => some (x * y)
    | _ => none
  value.bind fun value => if InInt64 value then some value else none

/-- `FitsInt64` of both operands and `NarrowStep`: a value, or none and the Int128 form decides. -/
def Step.narrowStep (step : Step) (x y : Int) : Option Int :=
  if !InInt64 x || !InInt64 y then none
  else
    (step.left.narrowValue step x).bind fun x => (step.right.narrowValue step y).bind fun y =>
      (narrowResult step.op x y).bind fun value =>
        if value < step.min64 || value > step.max64 then none else some value

/-- An operand rescaled to the step and checked against its range. -/
def Side.value (side : Side) (step : Step) (x : Int) : Except Fault Int :=
  if side.factor ≠ 1 then
    if InInt128 (x * side.factor) ∧ step.range.Holds (x * side.factor) then .ok (x * side.factor)
    else raise (decimalCastError x side.type step.type side.column)
  else if side.check ∧ ¬ step.range.Holds x then
    raise (decimalCastError x side.type step.type side.column)
  else .ok x

def Step.finish (step : Step) (x y value : Int) : Except Fault (Option Int) :=
  if InInt128 value ∧ step.range.Holds value then .ok (some value)
  else raise (decimalOverflow step.op x y step.type)

/-- A step in Int128; none is NULL, for a `%` by zero. -/
def Step.wideStep (step : Step) (x y : Int) : Except Fault (Option Int) := do
  let x ← step.left.value step x
  let y ← step.right.value step y
  match step.op with
  | .add => step.finish x y (x + y)
  | .subtract => step.finish x y (x - y)
  | .multiply => step.finish x y (x * y)
  | _ =>
    if y = 0 then .ok none
    else (signed (int128 (x.tdiv y))).bind fun _ => step.finish x y (x.tmod y)

def Step.run (step : Step) (x y : Int) : Except Fault (Option Int) :=
  if step.narrow then
    match step.narrowStep x y with
    | some value => .ok (some value)
    | none => step.wideStep x y
  else step.wideStep x y

/-- The steps of a row after those that filled the slots; none is a row that is NULL. -/
def DecimalProgram.runSteps (program : DecimalProgram) (row : Nat) :
    List Step → List Int → Except Fault (Option (List Int))
  | [], slots => .ok (some slots)
  | step :: rest, slots =>
    (step.run (program.read row slots step.left.source)
      (program.read row slots step.right.source)).bind fun result =>
        match result with
        | some value => program.runSteps row rest (slots ++ [value])
        | none => .ok none

/-- `ProgramValidity`: every column the program reads has a value in the row. -/
def DecimalProgram.validRow (program : DecimalProgram) (row : Nat) : Bool :=
  program.columns.all fun operand => (operand.values.at row).isSome

/-- One row of `RunProgramInto`: the last step's result, if the row is valid. -/
def DecimalProgram.runRow (program : DecimalProgram) (result : LogicalType) (row : Nat) :
    Except Fault (Option Int) :=
  if program.validRow row then
    (program.runSteps row program.steps []).map fun slots =>
      slots.map fun slots => append result (slots.getD (program.steps.length - 1) 0)
  else .ok none

/-- `RunDecimalProgram`. -/
def DecimalProgram.run (program : DecimalProgram) (numRows : Nat) (result : LogicalType) :
    Except Fault Column :=
  (List.range numRows).mapM (program.runRow result)

/-- The program of a tree that has one: its result is a step and it reads a column. -/
def Evaluator.programOf (evaluator : Evaluator) (expr : Expr) : Option DecimalProgram :=
  match compile evaluator expr {} with
  | some (.step _, program) => if program.columns.isEmpty then none else some program
  | _ => none

/-- `Evaluator`'s call: an earlier expression's values, and for DECIMAL arithmetic the program of the
whole tree or else the operation on its operands. -/
def Evaluator.evaluate (evaluator : Evaluator) : Expr → Except Fault Column
  | .arith op left right type =>
    match evaluator.reused (.arith op left right type) with
    | some values => .ok values
    | none =>
      if type.isDecimal then
        match evaluator.programOf (.arith op left right type) with
        | some program => program.run evaluator.numRows type
        | none => evaluator.arithValues op left right type (evaluator.evaluate left)
            (evaluator.evaluate right)
      else evaluator.other (.arith op left right type)
  | expr => evaluator.nodeByNode expr

end Antb1.Exec.Decimal
