import Antb1.Exec.PredicateEvaluator
import Antb1.Lib.Masked

/-! Column-wise evaluation of expressions (`Evaluator` of `exec/compute.cc`): every node is
computed over a whole batch, AND, OR and CASE over the rows their earlier parts leave open. Arrow's
kernels and the executor's loops over one column are taken row by row (`Kernels`). -/
namespace Antb1.Exec.Compute

open Plan Masked

/-- A record batch: its columns by position. -/
structure RecordBatch where
  columns : List (List Value)
  numRows : Nat
  deriving DecidableEq, Repr

/-- The columns an expression reads, by their position in the batch. -/
def byPosition (expr : Expr) : Expr := expr.mapColumns fun c => { c with id := c.index.toNat }

/-- `CollectColumns`. -/
def collectColumns (expr : Expr) : List Nat := (byPosition expr).columnIds

/-- The selected rows of the columns that are read; the others are NULL placeholders. -/
def RecordBatch.filter (batch : RecordBatch) (reads : List Nat) (mask : List Bool) :
    RecordBatch where
  columns := batch.columns.zipIdx.map fun column =>
    if column.2 ∈ reads then select mask column.1
    else List.replicate (mask.count true) .null
  numRows := mask.count true

/-- An expression with its values over any batch; none where its evaluation fails. -/
structure Part where
  expr : Expr
  run : RecordBatch → Option (List Value)

/-- The rows of columns of `numRows` values. -/
def transpose (numRows : Nat) (columns : List (List Value)) : List (List Value) :=
  (List.range numRows).map fun row => columns.map fun column => column.getD row .null

/-- Arrow's checked integer kernels and the executor's own for HUGEINT: the result within the
type's range. -/
def checkedInteger (type : LogicalType) (result : Int) : Option Value :=
  if (rangeOf type).min ≤ result ∧ result ≤ (rangeOf type).max then some (.int result) else none

/-- `//` and `%` of two integers: NULL for a zero divisor, an overflow for the least value and -1;
HUGEINT has none. -/
def divideOrModulo (op : ArithOp) (type : LogicalType) (x y : Int) : Option Value :=
  if type = .hugeInt then none
  else if y = 0 then some .null
  else if x = (rangeOf type).min ∧ y = -1 then none
  else some (.int (if op = .modulo then x.tmod y else x.tdiv y))

/-- Integer arithmetic of the values of two operands, in the result's type. -/
def integerArith (op : ArithOp) (type : LogicalType) : Value → Value → Option Value
  | .int x, .int y =>
    match op with
    | .add => checkedInteger type (x + y)
    | .subtract => checkedInteger type (x - y)
    | .multiply => checkedInteger type (x * y)
    | .divide => none
    | .integerDivide | .modulo => divideOrModulo op type x y
  | _, _ => none

def integerKernels : Kernels where
  arith op type x y := integerArith op type x.2 y.2
  negate type
    | .int x => checkedInteger type (-x)
    | _ => none
  function _ _ _ := none
  cast _ _ _ := none
  like _ _ := false
  toDouble _ _ := 0

section Evaluator

variable (k : Kernels)

/-- `Convert`, row by row. -/
def convertEach (source target : LogicalType) (values : List Value) : Option (List Value) :=
  values.mapM (convert k source target)

/-- The values of an expression in the rows of a mask, as `target`: only those rows are computed
and converted. -/
def evaluateSelected (batch : RecordBatch) (part : Part) (mask : List Bool) (target : LogicalType) :
    Option (List Value) :=
  let selected := mask.count true
  if selected = batch.numRows then
    (part.run batch).bind (convertEach k part.expr.type target)
  else if selected = 0 then some []
  else
    (part.run (batch.filter (collectColumns part.expr) mask)).bind
      (convertEach k part.expr.type target)

/-- The rows AND or OR leave undecided: `coalesce` with the operator's own truth, inverted for
OR. -/
def undecided (isAnd : Bool) (value : Value) : Bool :=
  let filled := value.truth.getD isAnd
  if isAnd then filled else !filled

def kleene (isAnd : Bool) (left right : Value) : Value :=
  .ofTruth (if isAnd then kleeneAnd left.truth right.truth else kleeneOr left.truth right.truth)

def evaluateConnected (isAnd : Bool) (batch : RecordBatch) :
    List Part → List Value → Option (List Value)
  | [], result => some result
  | part :: rest, result => do
    let openRows := result.map (undecided isAnd)
    let compact ← evaluateSelected k batch part openRows .boolean
    -- decided rows get NULL, which the decided side absorbs
    let next := scatter (List.replicate batch.numRows .null) openRows compact
    evaluateConnected isAnd batch rest (result.zipWith (kleene isAnd) next)

def invert (value : Value) : Value := .ofTruth (value.truth.map (!·))

def evaluateBool (batch : RecordBatch) : BoolOp → List Part → Option (List Value)
  | _, [] => none
  | .not, first :: _ => (first.run batch).map fun result => result.map invert
  | .and, first :: rest => (first.run batch).bind (evaluateConnected k true batch rest)
  | .or, first :: rest => (first.run batch).bind (evaluateConnected k false batch rest)

/-- The result so far of a CASE and the rows no branch took. -/
structure CaseState where
  result : List Value
  remaining : List Bool

/-- COALESCE's argument: it answers the open rows where it is not NULL. -/
def evaluateArgument (batch : RecordBatch) (type : LogicalType) (part : Part) (state : CaseState) :
    Option CaseState := do
  let values ← evaluateSelected k batch part state.remaining type
  let result := scatter state.result state.remaining values
  let taken := result.zipWith (fun value remaining => value ≠ .null && remaining) state.remaining
  return ⟨result, state.remaining.zipWith (fun remaining taken => remaining && !taken) taken⟩

/-- The rows a condition takes: it is true, on an open row. -/
def evaluateCondition (batch : RecordBatch) (part : Part) (remaining : List Bool) :
    Option (List Bool) := do
  let compact ← evaluateSelected k batch part remaining .boolean
  let condition := scatter (List.replicate batch.numRows .null) remaining compact
  return condition.zipWith (fun value remaining => value.truth.getD false && remaining) remaining

/-- The rows taken get the value of THEN; a null THEN leaves them NULL. -/
def evaluateThen (batch : RecordBatch) (type : LogicalType) (part : Part) (taken : List Bool)
    (result : List Value) : Option (List Value) :=
  if part.expr.isNull then some result
  else (evaluateSelected k batch part taken type).map (scatter result taken)

def evaluateBranch (batch : RecordBatch) (type : LogicalType) (branch : Part × Part)
    (state : CaseState) : Option CaseState :=
  if branch.1.expr.isNull then
    if branch.2.expr.isNull then none else evaluateArgument k batch type branch.2 state
  else do
    let taken ← evaluateCondition k batch branch.1 state.remaining
    let result ← evaluateThen k batch type branch.2 taken state.result
    return ⟨result, state.remaining.zipWith (fun remaining taken => remaining && !taken) taken⟩

def evaluateCase (batch : RecordBatch) (type : LogicalType) (branches : List (Part × Part))
    (otherwise : Part) : Option (List Value) := do
  let state ← branches.foldlM (fun state branch => evaluateBranch k batch type branch state)
    ⟨List.replicate batch.numRows .null, List.replicate batch.numRows true⟩
  evaluateThen k batch type otherwise state.remaining state.result

mutual

/-- `Evaluator::operator()`. -/
def evaluate : Expr → RecordBatch → Option (List Value)
  | .null, _ => none
  | .column column _, batch =>
    if column.index < 0 then none else batch.columns[column.index.toNat]?
  | .constant constant _, batch => some (List.replicate batch.numRows constant.value)
  | .arith op left right type, batch =>
    (evaluate left batch).bind fun xs => (evaluate right batch).bind fun ys =>
      (xs.zip ys).mapM fun p => arithValue k op type (left.type, p.1) (right.type, p.2)
  | .negate operand type, batch =>
    (evaluate operand batch).bind fun xs =>
      xs.mapM fun x => if x = .null then some .null else k.negate type x
  | .function function args type, batch =>
    ((evaluateEach args).mapM fun (part : Part) => part.run batch).bind fun columns =>
      (transpose batch.numRows columns).mapM fun values =>
        k.function function type ((args.map Expr.type).zip values)
  | .predicate predicate operands _, batch =>
    ((evaluateEach operands).mapM fun (part : Part) => part.run batch).bind fun columns =>
      (PredicateEvaluator.make (operands.map Expr.type) predicate).toOption.map fun _ =>
        (transpose batch.numRows columns).map fun values =>
          .ofTruth (predicate.truth k true (values.getD 0 .null) (values.getD 1 .null))
  | .bool op args _, batch => evaluateBool k batch op (evaluateEach args)
  | .caseWhen whens thens otherwise type, batch =>
    if whens.length ≠ thens.length then none
    else evaluateCase k batch type ((evaluateEach whens).zip (evaluateEach thens))
      ⟨otherwise, evaluate otherwise⟩
  | .cast operand type, batch =>
    if isExecutableCast operand.type type then
      (evaluate operand batch).bind (convertEach k operand.type type)
    else none

def evaluateEach : List Expr → List Part
  | [] => []
  | expr :: rest => ⟨expr, evaluate expr⟩ :: evaluateEach rest

end

end Evaluator

end Antb1.Exec.Compute
