import Antb1.Common.Status
import Antb1.Exec.ArrowType
import Antb1.Exec.NestedLoopJoin

/-! Predicates over a batch's columns and the operator that keeps the rows they hold of
(`PredicateEvaluator` and `FilterOperator` of `exec/filter.cc`). A predicate is checked against the
types of its input before the first row. -/
namespace Antb1.Exec

open Common Plan

namespace PredicateEvaluator

/-- The type of an input column; none outside the input. -/
def fieldType (types : List LogicalType) (index : Int) : Option LogicalType :=
  if index < 0 then none else types[index.toNat]?

/-- Whether a constant is a DOUBLE that a DECIMAL column is compared with in DOUBLE. -/
def inDouble (column : BoundColumn) (type : LogicalType) (constant : Constant) : Bool :=
  (toArrow type).isDecimal && column.type.isDecimal && constant.type = .double

def checkOther (types : List LogicalType) (p : Predicate) : Except Status Unit :=
  if p.kind = .compareColumns && (p.other.bind fun other => fieldType types other.index).isNone then
    .error (.invalid "filter compares a column outside its input")
  else .ok ()

def checkTruth (type : LogicalType) (p : Predicate) : Except Status Unit :=
  if p.kind = .isTrue && toArrow type ≠ .boolean then
    .error (.invalid ("IS TRUE of a " ++ (toArrow type).name ++ " column"))
  else .ok ()

/-- A constant has the column's own type, but for a DOUBLE on a DECIMAL column. -/
def checkConstant (column : BoundColumn) (type : LogicalType) (what : String)
    (constant : Constant) : Except Status Unit :=
  if inDouble column type constant then .ok ()
  else if toArrow constant.type ≠ toArrow type then
    .error (.invalid ("filter compares a " ++ (toArrow type).name ++ " column with a " ++
      (toArrow constant.type).name ++ what))
  else .ok ()

def checkCompare (column : BoundColumn) (type : LogicalType) (p : Predicate) : Except Status Unit :=
  if p.kind = .compare then checkConstant column type " constant" p.constant else .ok ()

def isText : Value → Bool
  | .text _ => true
  | _ => false

def checkPattern (type : LogicalType) (p : Predicate) : Except Status Unit :=
  if (p.kind = .like || p.kind = .notLike) &&
      (!isText p.constant.value || toArrow type ≠ .binary) then
    .error (.invalid "LIKE needs a VARCHAR column and a VARCHAR pattern")
  else .ok ()

def checkMixed (column : BoundColumn) (type : LogicalType) (values : List Constant) :
    Except Status Unit :=
  let doubles := values.countP (inDouble column type)
  if doubles ≠ 0 && doubles ≠ values.length then
    .error (.invalid ("an IN list mixes DOUBLE values with " ++ (toArrow type).name ++ " values"))
  else .ok ()

def checkValues (column : BoundColumn) (type : LogicalType) (p : Predicate) : Except Status Unit :=
  if p.kind = .isIn || p.kind = .notIn then
    if p.values.isEmpty then .error (.invalid "IN without values")
    else do
      p.values.forM (checkConstant column type " IN value")
      checkMixed column type p.values
  else .ok ()

/-- `PredicateEvaluator::Make`. -/
def make (types : List LogicalType) (p : Predicate) : Except Status Unit :=
  match p.column with
  | none =>
    if p.kind = .isFalse then .ok () else .error (.invalid "filter predicate without a column")
  | some column =>
    match fieldType types column.index with
    | none => .error (.invalid "filter predicate on a column outside its input")
    | some type => do
      checkOther types p
      checkTruth type p
      checkCompare column type p
      checkPattern type p
      checkValues column type p

def typedBy (types : List LogicalType) (column : BoundColumn) : BoundColumn :=
  { column with type := (fieldType types column.index).getD column.type }

def valueAt (row : Tuple) (column : Option BoundColumn) : Value :=
  match column with
  | none => .null
  | some column => row.getD column.index.toNat .null

/-- `PredicateEvaluator::Evaluate` on one row. -/
def evaluate (kernels : Kernels) (types : List LogicalType) (p : Predicate) (row : Tuple) :
    Option Bool :=
  Predicate.truth kernels false
    { p with column := p.column.map (typedBy types), other := p.other.map (typedBy types) }
    (valueAt row p.column) (valueAt row p.other)

end PredicateEvaluator

namespace FilterOperator

open PredicateEvaluator

def neverTrue (predicates : List Predicate) : Bool := predicates.any (·.kind = .isFalse)

/-- `FilterOperator::Open`, but for its input's. -/
def start (types : List LogicalType) (predicates : List Predicate) : Except Status Unit :=
  if neverTrue predicates then .ok () else predicates.forM (make types)

/-- The mask of a row: the predicates' AND. -/
def mask (kernels : Kernels) (types : List LogicalType) (predicates : List Predicate)
    (row : Tuple) : Option Bool :=
  predicates.foldl (fun mask p => kleeneAnd mask (PredicateEvaluator.evaluate kernels types p row))
    (some true)

def keep (kernels : Kernels) (types : List LogicalType) (predicates : List Predicate)
    (rows : List Tuple) : List Tuple :=
  if neverTrue predicates then []
  else rows.filter fun row => mask kernels types predicates row = some true

/-- A chain of filters over a part's rows, the lowest first: opened from the top, then run. -/
def runChain (kernels : Kernels) (types : List LogicalType) (filters : List (List Predicate))
    (rows : List Tuple) : Except Status (List Tuple) := do
  filters.reverse.forM (start types)
  return filters.foldl (fun rows predicates => keep kernels types predicates rows) rows

end FilterOperator

end Antb1.Exec
