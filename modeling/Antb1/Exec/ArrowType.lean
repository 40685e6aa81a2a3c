import Antb1.Plan.Types

/-! The Arrow types of columns (`plan::ToArrow` of `plan/types.cc`). -/
namespace Antb1.Exec

open Plan

/-- The physical types `plan::ToArrow` gives. -/
inductive ArrowType where
  | int16
  | int32
  | int64
  | uint16
  | decimal64 (width scale : Nat)
  | decimal128 (width scale : Nat)
  | float64
  | binary
  | date32
  | timestampMicros
  | boolean
  deriving DecidableEq, Repr

def kMaxNarrowDecimalWidth : Nat := 18

def toArrow : LogicalType → ArrowType
  | .smallInt => .int16
  | .integer => .int32
  | .bigInt => .int64
  | .uSmallInt => .uint16
  | .hugeInt => .decimal128 38 0
  | .decimal width scale =>
    if width ≤ kMaxNarrowDecimalWidth then .decimal64 width scale else .decimal128 width scale
  | .double => .float64
  | .varchar => .binary
  | .date => .date32
  | .timestamp => .timestampMicros
  | .boolean => .boolean

namespace ArrowType

def name : ArrowType → String
  | .int16 => "int16"
  | .int32 => "int32"
  | .int64 => "int64"
  | .uint16 => "uint16"
  | .decimal64 width scale => "decimal64(" ++ toString width ++ ", " ++ toString scale ++ ")"
  | .decimal128 width scale => "decimal128(" ++ toString width ++ ", " ++ toString scale ++ ")"
  | .float64 => "double"
  | .binary => "binary"
  | .date32 => "date32[day]"
  | .timestampMicros => "timestamp[us]"
  | .boolean => "bool"

def isDecimal : ArrowType → Bool
  | .decimal64 _ _ | .decimal128 _ _ => true
  | _ => false

end ArrowType

end Antb1.Exec
