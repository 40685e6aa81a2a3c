import Antb1.Plan.Types

/-! Values, predicates and scalar expressions (`plan/logical_plan.h`) and their value
on one row, as `exec/compute.cc` and `exec/filter.cc` compute it. Names and spans
are left out. Arithmetic, functions, checked casts, LIKE and conversions to DOUBLE
are parameters (`Kernels`); `none` is an expression that fails. -/
namespace Antb1.Plan

abbrev ColumnId := Nat

def kNoColumnId : ColumnId := 0

/-- Integers, DATEs and TIMESTAMPs are their integer, a DECIMAL its unscaled value,
a DOUBLE its bits. -/
inductive Value where
  | null
  | int (value : Int)
  | double (bits : BitVec 64)
  | text (bytes : List UInt8)
  | bool (value : Bool)
  deriving DecidableEq, Repr

/-! DOUBLE values by their IEEE 754 bits. -/

def doubleMagnitude (bits : BitVec 64) : Nat := bits.toNat % 2 ^ 63

def isNan (bits : BitVec 64) : Bool := doubleMagnitude bits > 0x7ff0000000000000

/-- A number that orders the DOUBLEs that are no NaN; both zeros are 0. -/
def doubleOrder (bits : BitVec 64) : Int :=
  if bits.msb then -(doubleMagnitude bits : Int) else doubleMagnitude bits

/-- `NormalizeDoubleKey`: one NaN and one zero. -/
def normalizeDouble (bits : BitVec 64) : BitVec 64 :=
  if isNan bits then 0x7ff8000000000000#64 else if doubleMagnitude bits = 0 then 0#64 else bits

def Value.normalized : Value → Value
  | .double bits => .double (normalizeDouble bits)
  | other => other

/-- A row in its environment: a value for every column that can be read. -/
abbrev Row := ColumnId → Value

structure Constant where
  type : LogicalType := .bigInt
  value : Value := .int 0
  deriving DecidableEq, Repr

structure BoundColumn where
  index : Int := 0
  id : ColumnId := kNoColumnId
  type : LogicalType := .bigInt
  deriving DecidableEq, Repr

structure ColumnExpr where
  index : Int := 0
  id : ColumnId := kNoColumnId
  deriving DecidableEq, Repr

inductive CompareOp where
  | eq
  | ne
  | lt
  | le
  | gt
  | ge
  deriving DecidableEq, Repr

def CompareOp.holds : CompareOp → Ordering → Bool
  | .eq, order => order = .eq
  | .ne, order => order ≠ .eq
  | .lt, order => order = .lt
  | .le, order => order ≠ .gt
  | .gt, order => order = .gt
  | .ge, order => order ≠ .lt

inductive PredicateKind where
  | compare
  | compareColumns
  | like
  | notLike
  | isIn
  | notIn
  | isNotNull
  | isNull
  | isFalse
  | isTrue
  deriving DecidableEq, Repr

structure Predicate where
  kind : PredicateKind := .compare
  column : Option BoundColumn := none
  other : Option BoundColumn := none
  op : CompareOp := .eq
  constant : Constant := {}
  values : List Constant := []
  deriving DecidableEq, Repr

inductive ArithOp where
  | add
  | subtract
  | multiply
  | divide
  | integerDivide
  | modulo
  deriving DecidableEq, Repr

inductive Function where
  | strlen
  | regexpReplace
  | epochMs
  | extract
  | dateTrunc
  | substring
  | round
  | abs
  | upper
  | lower
  | concat
  deriving DecidableEq, Repr

inductive BoolOp where
  | and
  | or
  | not
  deriving DecidableEq, Repr

/-- A scalar expression; `null` is a CASE's null pointer. -/
inductive Expr where
  | null
  | column (column : ColumnExpr) (type : LogicalType)
  | constant (value : Constant) (type : LogicalType)
  | arith (op : ArithOp) (left right : Expr) (type : LogicalType)
  | negate (operand : Expr) (type : LogicalType)
  | function (function : Function) (args : List Expr) (type : LogicalType)
  | predicate (predicate : Predicate) (operands : List Expr) (type : LogicalType)
  | bool (op : BoolOp) (args : List Expr) (type : LogicalType)
  | caseWhen (whens thens : List Expr) (otherwise : Expr) (type : LogicalType)
  | cast (operand : Expr) (type : LogicalType)

def Expr.type : Expr → LogicalType
  | .null => .bigInt
  | .column _ type | .constant _ type | .arith _ _ _ type | .negate _ type | .function _ _ type
  | .predicate _ _ type | .bool _ _ type | .caseWhen _ _ _ type | .cast _ type => type

def Expr.isNull : Expr → Bool
  | .null => true
  | _ => false

/-- The executor's scalar kernels, on values that are not NULL where the name does
not say otherwise. -/
structure Kernels where
  arith : ArithOp → LogicalType → LogicalType × Value → LogicalType × Value → Option Value
  negate : LogicalType → Value → Option Value
  /-- A function of its arguments, NULLs included. -/
  function : Function → LogicalType → List (LogicalType × Value) → Option Value
  /-- A cast that is no exact widening. -/
  cast : LogicalType → LogicalType → Value → Option Value
  like : (pattern text : List UInt8) → Bool
  /-- An integer or a DECIMAL as a DOUBLE. -/
  toDouble : LogicalType → Int → BitVec 64

section Evaluation

variable (k : Kernels)

/-- IEEE 754 comparison: a NaN is only unequal. -/
def compareDouble (op : CompareOp) (x y : BitVec 64) : Bool :=
  if isNan x || isNan y then op = .ne else op.holds (compare (doubleOrder x) (doubleOrder y))

/-- Two values of their types; `none` is NULL. -/
def compareValues (op : CompareOp) (leftType rightType : LogicalType) :
    Value → Value → Option Bool
  | .int x, .int y =>
    some (op.holds (compare (x * 10 ^ rightType.scale) (y * 10 ^ leftType.scale)))
  | .int x, .double y => some (compareDouble op (k.toDouble leftType x) y)
  | .double x, .int y => some (compareDouble op x (k.toDouble rightType y))
  | .double x, .double y => some (compareDouble op x y)
  | .text x, .text y => some (op.holds (compare x y))
  | .bool x, .bool y => some (op.holds (compare x.toNat y.toNat))
  | _, _ => none

def kleeneOr : Option Bool → Option Bool → Option Bool
  | some true, _ => some true
  | _, some true => some true
  | some false, some false => some false
  | _, _ => none

def kleeneAnd : Option Bool → Option Bool → Option Bool
  | some false, _ => some false
  | _, some false => some false
  | some true, some true => some true
  | _, _ => none

theorem kleeneOr_true {x y : Option Bool} :
    kleeneOr x y = some true ↔ x = some true ∨ y = some true := by
  rcases x with _ | _ | _ <;> rcases y with _ | _ | _ <;> decide

theorem kleeneAnd_true {x y : Option Bool} :
    kleeneAnd x y = some true ↔ x = some true ∧ y = some true := by
  rcases x with _ | _ | _ <;> rcases y with _ | _ | _ <;> decide

section Kleene

variable {α : Type} {f : α → Option Bool} {list : List α} {start : Option Bool}

/-- A list's OR is TRUE where one of it is. -/
theorem foldl_kleeneOr_true : list.foldl (fun any a => kleeneOr any (f a)) start = some true ↔
    start = some true ∨ ∃ a ∈ list, f a = some true := by
  induction list generalizing start with
  | nil => simp
  | cons first rest ih => simp [ih, kleeneOr_true, or_assoc]

theorem foldl_kleeneAnd_true : list.foldl (fun all a => kleeneAnd all (f a)) start = some true ↔
    start = some true ∧ ∀ a ∈ list, f a = some true := by
  induction list generalizing start with
  | nil => simp
  | cons first rest ih => simp [ih, kleeneAnd_true, and_assoc]

end Kleene

def Value.truth : Value → Option Bool
  | .bool value => some value
  | _ => none

def Value.ofTruth : Option Bool → Value
  | some value => .bool value
  | none => .null

/-- `column IN (values)`: equal to any value. -/
def inValues (type : LogicalType) (value : Value) (values : List Constant) : Option Bool :=
  values.foldl (fun any constant =>
    kleeneOr any (compareValues k .eq type constant.type value constant.value)) (some false)

def likeValue : Value → Value → Option Bool
  | .text text, .text pattern => some (k.like pattern text)
  | _, _ => none

/-- `PredicateEvaluator::Evaluate` on one row's value of the column and of the other
column. With `kleene` (inside an expression) a folded predicate is NULL for NULL. -/
def Predicate.truth (kleene : Bool) (p : Predicate) (value other : Value) : Option Bool :=
  match p.column with
  | none => if p.kind = .isFalse then some false else none
  | some column =>
    match p.kind with
    | .compare => compareValues k p.op column.type p.constant.type value p.constant.value
    | .compareColumns =>
      p.other.bind fun second => compareValues k p.op column.type second.type value other
    | .like => likeValue k value p.constant.value
    | .notLike => (likeValue k value p.constant.value).map (!·)
    | .isIn => inValues k column.type value p.values
    | .notIn => (inValues k column.type value p.values).map (!·)
    | .isTrue => value.truth
    | .isNull => some (value = .null)
    | .isNotNull => if kleene && value = .null then none else some (value ≠ .null)
    | .isFalse => if kleene && value = .null then none else some false

/-- `Convert`: a value as another type. An exact widening keeps the value and fails
only on one beyond its declared width. -/
def convert (source target : LogicalType) (value : Value) : Option Value :=
  if value = .null ∨ source = target then some value
  else if isExactWidening source target then
    match value with
    | .int x =>
      let scaled := x * 10 ^ (target.scale - source.scale)
      if target.isDecimal ∧ ¬ ((rangeOf target).min ≤ scaled ∧ scaled ≤ (rangeOf target).max)
      then none else some (.int scaled)
    | other => some other
  else k.cast source target value

def castValue (source target : LogicalType) (value : Value) : Option Value :=
  if isExecutableCast source target then convert k source target value else none

/-- One branch of a CASE: no condition is COALESCE's, no value is THEN NULL. Each
part is what its expression evaluates to, looked at only where it is needed. -/
structure CaseBranch where
  condition : Option (Option Value)
  value : Option (LogicalType × Option Value)

def branchValue (target : LogicalType) : Option (LogicalType × Option Value) → Option Value
  | none => some .null
  | some (source, value) => value.bind (convert k source target)

def caseValue (target : LogicalType) (otherwise : Option (LogicalType × Option Value)) :
    List CaseBranch → Option Value
  | [] => branchValue k target otherwise
  | branch :: rest =>
    match branch.condition with
    | none =>
      if branch.value.isNone then none
      else (branchValue k target branch.value).bind fun value =>
        if value = .null then caseValue target otherwise rest else some value
    | some condition => condition.bind fun truth =>
        if truth = .bool true then branchValue k target branch.value
        else caseValue target otherwise rest

/-- AND or OR of the arguments, each computed only while the result is open. -/
def connectValues (isAnd : Bool) : Option Bool → List (Option Value) → Option Value
  | result, [] => some (.ofTruth result)
  | result, next :: rest =>
    if result = some (!isAnd) then connectValues isAnd result rest
    else next.bind fun value =>
      let both := if isAnd then kleeneAnd result value.truth else kleeneOr result value.truth
      connectValues isAnd both rest

def boolValue : BoolOp → List (Option Value) → Option Value
  | _, [] => none
  | .not, first :: _ => first.map fun value => .ofTruth (value.truth.map (!·))
  | .and, first :: rest => first.bind fun value => connectValues true value.truth rest
  | .or, first :: rest => first.bind fun value => connectValues false value.truth rest

def arithValue (op : ArithOp) (type : LogicalType) (left right : LogicalType × Value) :
    Option Value :=
  if left.2 = .null ∨ right.2 = .null then some .null else k.arith op type left right

variable (row : Row)

mutual

def Expr.eval : Expr → Option Value
  | .null => none
  | .column column _ => some (row column.id)
  | .constant constant _ => some constant.value
  | .arith op left right type =>
    left.eval.bind fun x => right.eval.bind fun y =>
      arithValue k op type (left.type, x) (right.type, y)
  | .negate operand type =>
    operand.eval.bind fun x => if x = .null then some .null else k.negate type x
  | .function function args type =>
    (evalEach args).mapM id |>.bind fun values =>
      k.function function type ((args.map Expr.type).zip values)
  | .predicate predicate operands _ =>
    (evalEach operands).mapM id |>.map fun values =>
      .ofTruth (predicate.truth k true (values.getD 0 .null) (values.getD 1 .null))
  | .bool op args _ => boolValue op (evalEach args)
  | .caseWhen whens thens otherwise type =>
    if whens.length ≠ thens.length then none
    else
      let conditions := (whens.map Expr.isNull).zipWith
        (fun absent value => if absent then none else some value) (evalEach whens)
      let values := (thens.map fun e => (e.isNull, e.type)).zipWith
        (fun then_ value => if then_.1 then none else some (then_.2, value)) (evalEach thens)
      caseValue k type
        (if otherwise.isNull then none else some (otherwise.type, otherwise.eval))
        (conditions.zipWith CaseBranch.mk values)
  | .cast operand type => operand.eval.bind (castValue k operand.type type)

def evalEach : List Expr → List (Option Value)
  | [] => []
  | expr :: rest => expr.eval :: evalEach rest

end

def Predicate.holds (p : Predicate) : Bool :=
  p.truth k false (row ((p.column.map BoundColumn.id).getD kNoColumnId))
    (row ((p.other.map BoundColumn.id).getD kNoColumnId)) = some true

end Evaluation

mutual

/-- `CollectColumnIds`. -/
def Expr.columnIds : Expr → List ColumnId
  | .null | .constant _ _ => []
  | .column column _ => [column.id]
  | .arith _ left right _ => left.columnIds ++ right.columnIds
  | .negate operand _ | .cast operand _ => operand.columnIds
  | .function _ args _ | .bool _ args _ => columnIdsEach args
  | .predicate _ operands _ => columnIdsEach operands
  | .caseWhen whens thens otherwise _ =>
    columnIdsEach whens ++ columnIdsEach thens ++ otherwise.columnIds

def columnIdsEach : List Expr → List ColumnId
  | [] => []
  | expr :: rest => expr.columnIds ++ columnIdsEach rest

end

mutual

/-- `MapColumns`. -/
def Expr.mapColumns (f : ColumnExpr → ColumnExpr) : Expr → Expr
  | .null => .null
  | .constant value type => .constant value type
  | .column column type => .column (f column) type
  | .arith op left right type => .arith op (left.mapColumns f) (right.mapColumns f) type
  | .negate operand type => .negate (operand.mapColumns f) type
  | .cast operand type => .cast (operand.mapColumns f) type
  | .function function args type => .function function (mapColumnsEach f args) type
  | .bool op args type => .bool op (mapColumnsEach f args) type
  | .predicate predicate operands type => .predicate predicate (mapColumnsEach f operands) type
  | .caseWhen whens thens otherwise type =>
    .caseWhen (mapColumnsEach f whens) (mapColumnsEach f thens) (otherwise.mapColumns f) type

def mapColumnsEach (f : ColumnExpr → ColumnExpr) : List Expr → List Expr
  | [] => []
  | expr :: rest => expr.mapColumns f :: mapColumnsEach f rest

end

end Antb1.Plan
