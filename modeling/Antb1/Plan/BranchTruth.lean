import Antb1.Common.Int128
import Antb1.Plan.Expr

/-! What a predicate is over rows that hold constants in the columns it reads:
`plan/branch_truth.cc`. -/
namespace Antb1.Plan

inductive BranchTruth where
  | never
  | always
  | unknown
  deriving DecidableEq, Repr

def Constant.isNull (constant : Constant) : Bool := constant.value = .null

/-- The domain in which two constants compare exactly. -/
inductive Domain where
  | number
  | date
  | timestamp
  | text
  deriving DecidableEq, Repr

def domainOf : LogicalType → Option Domain
  | .smallInt | .integer | .bigInt | .uSmallInt | .hugeInt | .decimal _ _ => some .number
  | .date => some .date
  | .timestamp => some .timestamp
  | .varchar => some .text
  | .double | .boolean => none

/-- `a <=> b`; none where the two do not compare exactly. -/
def Constant.order (a b : Constant) : Option Ordering :=
  match domainOf a.type with
  | none => none
  | some domain =>
    if domainOf b.type ≠ some domain then none
    else match a.value, b.value with
    | .int x, .int y =>
      if domain = .text then none
      else if domain = .number then some (compareScaled x a.type.scale y b.type.scale)
      else some (compare x y)
    | .text x, .text y => if domain = .text then some (compare x y) else none
    | _, _ => none

namespace BranchTruth

def ofBool (holds : Bool) : BranchTruth := if holds then .always else .never

def ofOrder (op : CompareOp) (order : Option Ordering) : BranchTruth :=
  match order with
  | some order => ofBool (op.holds order)
  | none => .unknown

def negated : BranchTruth → BranchTruth
  | .never => .always
  | .always => .never
  | .unknown => .unknown

end BranchTruth

/-- The value where it is a constant of the column's own type. -/
def ofItsType (column : Option BoundColumn) (value : Option Constant) : Option Constant :=
  match column, value with
  | some column, some value => if value.type = column.type then some value else none
  | _, _ => none

/-- The loop of `InList`: unknown at the first value that does not compare. -/
def inListFrom (value : Constant) (equal : Bool) : List Constant → BranchTruth
  | [] => .ofBool equal
  | candidate :: rest =>
    match if candidate.type = value.type then value.order candidate else none with
    | none => .unknown
    | some order => inListFrom value (equal || order = .eq) rest

def inList (values : List Constant) (value : Constant) : BranchTruth :=
  if values = [] then .unknown else inListFrom value false values

/-- What a predicate is over rows whose column and other column hold these constants. -/
def truthOver (p : Predicate) (columnValue otherValue : Option Constant) : BranchTruth :=
  if p.kind = .isNull then
    if columnValue.any Constant.isNull then .always
    else if (ofItsType p.column columnValue).isSome then .never else .unknown
  else if p.kind ≠ .isFalse ∧
      ((p.column.isSome ∧ columnValue.any Constant.isNull) ∨
        (p.other.isSome ∧ otherValue.any Constant.isNull)) then .never
  else match p.kind with
  | .compare =>
    match ofItsType p.column columnValue with
    | some value =>
      if p.constant.type ≠ value.type then .unknown
      else .ofOrder p.op (value.order p.constant)
    | none => .unknown
  | .compareColumns =>
    match ofItsType p.column columnValue, ofItsType p.other otherValue with
    | some value, some other => .ofOrder p.op (value.order other)
    | _, _ => .unknown
  | .isIn =>
    match ofItsType p.column columnValue with
    | some value => inList p.values value
    | none => .unknown
  | .notIn =>
    match ofItsType p.column columnValue with
    | some value => (inList p.values value).negated
    | none => .unknown
  | .isNotNull => if (ofItsType p.column columnValue).isSome then .always else .unknown
  | .isFalse => .never
  | .isNull | .like | .notLike | .isTrue => .unknown

end Antb1.Plan
