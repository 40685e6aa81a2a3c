import Antb1.Plan.ConstantLayers
import Antb1.Plan.TypesProofs

/-! How the binder types arithmetic (`BindInput`, `Negate` and `ArithType` of `plan/binder.cc`)
over columns of integer types and DOUBLE: an integer literal takes the other operand's type where
it fits. -/
namespace Antb1.Plan

open Lib

/-- An operand as the binder types it; `literal` is the value of an integer literal. -/
structure Typed where
  type : LogicalType
  literal : Option Int := none
  deriving DecidableEq, Repr

def asValue : Option Int → Value
  | none => .null
  | some x => .int x

/-- The type of an integer literal: INTEGER by its magnitude, else by its value. -/
def literalType (value : Int) : LogicalType :=
  if (value.natAbs : Int) ≤ (rangeOf .integer).max then .integer
  else if (rangeOf .bigInt).Holds value then .bigInt
  else .hugeInt

def literalOperand (negative : Bool) (text : Sql.IntegerText) : Except String Typed :=
  match exactInteger negative text with
  | .ok (some value) => .ok { type := literalType value, literal := some value }
  | _ => .error "integer constants outside HUGEINT's range (38 digits) are not supported"

def integerArithType (l r : Typed) : LogicalType :=
  match l.literal, r.literal with
  | some value, none =>
    if (rangeOf r.type).Holds value then r.type else combineIntegers l.type r.type
  | none, some value =>
    if (rangeOf l.type).Holds value then l.type else combineIntegers l.type r.type
  | _, _ => combineIntegers l.type r.type

def arithType (op : Sql.BinaryOp) (l r : Typed) : Except String LogicalType :=
  let type := integerArithType l r
  match op with
  | .add | .subtract | .multiply =>
    if l.type = .double ∨ r.type = .double then .ok .double else .ok type
  | .divide => .ok .double
  | .integerDivide =>
    if l.type = .double ∨ r.type = .double then .ok .double
    else if type = .hugeInt then .error "'//' in HUGEINT (integer SUM results) is not supported"
    else .ok type
  | .modulo =>
    if l.type = .double ∨ r.type = .double then .ok .double
    else if type = .hugeInt then .error "'%' in HUGEINT (integer SUM results) is not supported"
    else .ok type
  | _ => .error "this operator is not supported here"

def negateType (operand : Typed) : Except String Typed :=
  if operand.type = .uSmallInt then .error "negating a USMALLINT is not supported"
  else .ok { type := operand.type }

variable {Node : Type}

/-- `BindInput` over numeric columns. -/
def bindInput (column : Node → LogicalType) : Sql.Operand Node → Except String Typed
  | .integer negative text => literalOperand negative text
  | .negate operand => do negateType (← bindInput column operand)
  | .binary op left right => do
    let l ← bindInput column left
    let r ← bindInput column right
    return { type := ← arithType op l r }
  | .node node => .ok { type := column node }

section

variable {constant : Typed} {c : Int} (value : ∀ v ∈ constant.literal, v = c ∧
  constant.type.isInteger = true ∧ (rangeOf constant.type).Holds v)
  {other : Typed} (computed : other.literal = none)
include value computed

end

end Antb1.Plan
