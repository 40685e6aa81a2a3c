import Mathlib.Data.Nat.Digits.Defs

/-! Logical types and the rules that combine them: `plan/types.h`, `RangeOf` of
`plan/literal.cc`, `plan/key_type.cc`, `plan/type_fold.cc`, `IsExactWidening` and
`IsExecutableCast` of `plan/logical_plan.cc` and `UnionAllType` of
`plan/binder.cc`. Only a DECIMAL has a width and a scale. -/
namespace Antb1.Plan

inductive LogicalType where
  | smallInt
  | integer
  | bigInt
  | uSmallInt
  | hugeInt
  | decimal (width scale : Nat)
  | double
  | varchar
  | date
  | timestamp
  | boolean
  deriving DecidableEq, Repr

namespace LogicalType

def kMaxDecimalWidth : Nat := 38

def width : LogicalType → Nat
  | .decimal width _ => width
  | _ => 0

def scale : LogicalType → Nat
  | .decimal _ scale => scale
  | _ => 0

def isDecimal : LogicalType → Bool
  | .decimal _ _ => true
  | _ => false

def isInteger : LogicalType → Bool
  | .smallInt | .integer | .bigInt | .uSmallInt | .hugeInt => true
  | _ => false

def isExactNumber (type : LogicalType) : Bool := type.isInteger || type.isDecimal

def name : LogicalType → String
  | .smallInt => "SMALLINT"
  | .integer => "INTEGER"
  | .bigInt => "BIGINT"
  | .uSmallInt => "USMALLINT"
  | .hugeInt => "HUGEINT"
  | .decimal width scale => s!"DECIMAL({width},{scale})"
  | .double => "DOUBLE"
  | .varchar => "VARCHAR"
  | .date => "DATE"
  | .timestamp => "TIMESTAMP"
  | .boolean => "BOOLEAN"

def Valid : LogicalType → Prop
  | .decimal width scale => 1 ≤ width ∧ width ≤ kMaxDecimalWidth ∧ scale ≤ width
  | _ => True

instance : DecidablePred Valid := fun type =>
  match type with
  | .decimal _ _ => inferInstanceAs (Decidable (_ ∧ _ ∧ _))
  | .smallInt | .integer | .bigInt | .uSmallInt | .hugeInt | .double | .varchar | .date
  | .timestamp | .boolean => isTrue trivial

end LogicalType

open LogicalType

structure IntegerRange where
  min : Int
  max : Int
  deriving DecidableEq, Repr

/-- The values of an integer type or the unscaled values of a DECIMAL; the source
stops the program for another type. -/
def rangeOf : LogicalType → IntegerRange
  | .smallInt => ⟨-2 ^ 15, 2 ^ 15 - 1⟩
  | .integer => ⟨-2 ^ 31, 2 ^ 31 - 1⟩
  | .bigInt => ⟨-2 ^ 63, 2 ^ 63 - 1⟩
  | .uSmallInt => ⟨0, 2 ^ 16 - 1⟩
  | .hugeInt => ⟨-(10 ^ 38 - 1), 10 ^ 38 - 1⟩
  | .decimal width _ => ⟨-(10 ^ width - 1), 10 ^ width - 1⟩
  | _ => ⟨0, 0⟩

def IntegerRange.Holds (range : IntegerRange) (x : Int) : Prop := range.min ≤ x ∧ x ≤ range.max

instance (range : IntegerRange) : DecidablePred range.Holds :=
  fun _ => inferInstanceAs (Decidable (_ ∧ _))

def IntegerRange.within (inner outer : IntegerRange) : Bool :=
  inner.min ≥ outer.min && inner.max ≤ outer.max

def integerDigits (type : LogicalType) : Nat :=
  (Nat.digits 10 (max (rangeOf type).max (-(rangeOf type).min)).toNat).length

/-- Whether every value of `source` is a value of `target`. -/
def isExactWidening (source target : LogicalType) : Bool :=
  if source = target then true
  else if source.isInteger && target.isInteger then (rangeOf source).within (rangeOf target)
  else if !target.isDecimal then false
  else
    let digits : Int := target.width - target.scale
    if source.isInteger then (integerDigits source : Int) ≤ digits
    else source.isDecimal && source.scale ≤ target.scale &&
      (source.width : Int) - source.scale ≤ digits

/-- Whether the executor casts `source` to `target`. -/
def isExecutableCast (source target : LogicalType) : Bool :=
  isExactWidening source target || (target.isDecimal && source.isExactNumber) ||
    (target.isInteger && (source.isExactNumber || (source = .double && target ≠ .hugeInt)))

def signedRank : LogicalType → Nat
  | .smallInt => 1
  | .integer => 2
  | .bigInt => 3
  | .hugeInt => 4
  | _ => 0

def combineIntegers (a b : LogicalType) : LogicalType :=
  if a = b then a
  else if a = .uSmallInt ∨ b = .uSmallInt then
    let other := if a = .uSmallInt then b else a
    if other = .smallInt then .bigInt else other
  else if signedRank a ≥ signedRank b then a else b

/-- An integer type as the DECIMAL it is computed in next to a DECIMAL. -/
def decimalOfInteger : LogicalType → LogicalType
  | .smallInt | .uSmallInt => .decimal 5 0
  | .integer => .decimal 10 0
  | .bigInt => .decimal 19 0
  | _ => .decimal kMaxDecimalWidth 0

def commonInteger (a b : LogicalType) : LogicalType :=
  if (a = .uSmallInt ∧ b = .smallInt) ∨ (a = .smallInt ∧ b = .uSmallInt) then .integer
  else combineIntegers a b

def commonDecimal (decimal other : LogicalType) : LogicalType :=
  let p := decimal.width
  let s := decimal.scale
  if !other.isDecimal then
    let digits := (decimalOfInteger other).width
    if digits ≤ p - s then decimal else .decimal (min kMaxDecimalWidth (digits + s)) s
  else
    let integers := max (p - s) (other.width - other.scale)
    let scale := max s other.scale
    if integers + scale ≤ kMaxDecimalWidth then .decimal (integers + scale) scale
    else .decimal kMaxDecimalWidth (kMaxDecimalWidth - integers)

def isTemporal (type : LogicalType) : Bool := type = .date || type = .timestamp

/-- The type two types' values have together; `none` is NULL's. -/
def commonValueType : Option LogicalType → Option LogicalType → Option LogicalType
  | none, b => b
  | a, none => a
  | some x, some y =>
    if x = y then some x
    else if x = .varchar ∨ y = .varchar then some .varchar
    else if isTemporal x && isTemporal y then some .timestamp
    else if isTemporal x || isTemporal y then some (if isTemporal x then x else y)
    else if x = .boolean ∨ y = .boolean then some (if x = .boolean then y else x)
    else if x = .double ∨ y = .double then some .double
    else if x.isDecimal || y.isDecimal then
      some (if x.isDecimal then commonDecimal x y else commonDecimal y x)
    else some (commonInteger x y)

/-- The type of a compound's column so far and the next operand's; `none` where no
type widens both exactly. -/
def unionAllType (soFar next : LogicalType) : Option LogicalType :=
  if soFar ≠ next ∧ !(soFar.isExactNumber && next.isExactNumber) then none
  else commonValueType (some soFar) (some next)

end Antb1.Plan
