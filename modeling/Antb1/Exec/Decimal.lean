import Antb1.Common.Rescale
import Antb1.Common.Status
import Antb1.Plan.DecimalArith
import Antb1.Plan.Literal

/-! Operations over columns of exact numbers (`exec/decimal.cc` and the DECIMAL branches of
`exec/compute.cc`): negation, abs, `+`, `-`, `*`, `%` and casts. A value is an unscaled integer; a
file's values are not checked on read, so a column may hold any value of its physical width. -/
namespace Antb1.Exec.Decimal

open Common Plan LogicalType

/-- A column's values; none is NULL. -/
abbrev Column := List (Option Int)

/-- How an operation without a result ends: the query fails, or a signed step leaves its type. -/
inductive Fault where
  | failed (status : Status)
  | undefined (step : Overflow)
  deriving DecidableEq, Repr

def raise {T : Type} (message : String) : Except Fault T :=
  .error (.failed (.executionError message))

def invalid {T : Type} (message : String) : Except Fault T := .error (.failed (.invalid message))

/-- A step of the source on Int128. -/
def signed {T : Type} (step : Except Overflow T) : Except Fault T := step.mapError .undefined

/-- Whether a column of the type is an Arrow decimal64: a DECIMAL of at most 18 digits. -/
def isNarrow (type : LogicalType) : Bool := type.isDecimal && type.width ≤ kSmall

/-- Whether a column of the type is an Arrow decimal of either width. -/
def isArrowDecimal (type : LogicalType) : Bool := type.isDecimal || type = .hugeInt

/-- The value a column holds once a value is appended to it: the conversion to its physical type,
for a DECIMAL `DecimalColumnBuilder::UnsafeAppend`. -/
def append (type : LogicalType) (x : Int) : Int :=
  match type with
  | .smallInt => x.bmod (2 ^ 16)
  | .integer => x.bmod (2 ^ 32)
  | .bigInt => x.bmod (2 ^ 64)
  | .uSmallInt => x % 2 ^ 16
  | _ => if isNarrow type then x.bmod (2 ^ 64) else x

def Stored (type : LogicalType) (x : Int) : Prop :=
  if isNarrow type then InInt64 x
  else if isArrowDecimal type then InInt128 x
  else (rangeOf type).Holds x

instance (type : LogicalType) : DecidablePred (Stored type) :=
  fun _ => inferInstanceAs (Decidable (ite _ _ _))

/-- An operation on a row; a NULL stays NULL. -/
def onRow (operation : Int → Except Fault Int) : Option Int → Except Fault (Option Int)
  | none => .ok none
  | some x => (operation x).map some

def eachRow (operation : Int → Except Fault Int) (values : Column) : Except Fault Column :=
  values.mapM (onRow operation)

def sourceSuffix (column : String) : String :=
  if column.isEmpty then "" else s!" when casting from source column {column}"

def decimalCastError (value : Int) (source target : LogicalType) (column : String) : String :=
  let targetName := s!"DECIMAL({target.width},{target.scale})"
  let suffix := sourceSuffix column
  if source.isDecimal then
    let text := String.ofList (formatDecimal value source.width source.scale)
    s!"Casting value \"{text}\" to type {targetName} failed: value is out of range!{suffix}"
  else s!"Could not cast value {value} to {targetName}{suffix}"

/-- `Overflow`. -/
def overflow (what : String) (type : LogicalType) : String :=
  let typeName := type.name
  s!"Overflow in {what} of {typeName}"

def decimalOverflow (op : ArithOp) (x y : Int) (result : LogicalType) : String :=
  let width := if result.width ≤ kSmall then kSmall else kMaxDecimalWidth
  let verb := match op with
    | .subtract => "subtract"
    | .multiply => "multiplication"
    | _ => "addition"
  let symbol := match op with
    | .subtract => "-"
    | .multiply => "*"
    | _ => "+"
  let hint :=
    if width = kSmall then ". You might want to add an explicit cast to a bigger decimal."
    else if op = .multiply then
      ". You might want to add an explicit cast to a decimal with a smaller scale."
    else ";"
  s!"Overflow in {verb} of DECIMAL({width}) ({x} {symbol} {y}){hint}"

/-- DuckDB's physical name of an integer type. -/
def physicalName : LogicalType → String
  | .smallInt => "INT16"
  | .integer => "INT32"
  | .bigInt => "INT64"
  | .hugeInt => "INT128"
  | .uSmallInt => "UINT16"
  | _ => "?"

/-- Negation of a DECIMAL: `0 - x`, checked in 128 bits. -/
def negateRow (type : LogicalType) (x : Int) : Except Fault Int :=
  if InInt128 (0 - x) then .ok (append type (0 - x)) else raise (overflow "negation" type)

def negate (type : LogicalType) (values : Column) : Except Fault Column :=
  eachRow (negateRow type) values

/-- `Abs` of a row: `-value` is a signed step for a DECIMAL and a HUGEINT, and checked against the
type for another integer, whose magnitude Arrow computes. -/
def absRow (type : LogicalType) (x : Int) : Except Fault Int :=
  if type.isDecimal ∨ type = .hugeInt then
    if x < 0 then (signed (int128 (-x))).map (append type) else .ok (append type x)
  else if !type.isInteger then invalid s!"abs of a {type.name}"
  else if x < 0 ∧ -x > (rangeOf type).max then raise s!"Overflow on abs({x})"
  else .ok (if x < 0 then -x else x)

def abs (type : LogicalType) (values : Column) : Except Fault Column :=
  eachRow (absRow type) values

/-- The values of an operand: one for every row, or a row's own. -/
inductive Values where
  | scalar (value : Int)
  | array (values : Column)
  deriving DecidableEq, Repr

def Values.at (values : Values) (row : Nat) : Option Int :=
  match values with
  | .scalar value => some value
  | .array values => values.getD row none

/-- `DecimalOperand`. -/
structure DecimalOperand where
  values : Values
  type : LogicalType
  /-- The operand's name when it is a column. -/
  column : String := ""
  /-- Every value is known to fit the result. -/
  checked : Bool := false
  deriving DecidableEq, Repr

def readDecimalOperand (values : Column) (type : LogicalType) (column : String) :
    DecimalOperand where
  values := .array values
  type := type
  column := column
  checked := !isArrowDecimal type

def scalarDecimalOperand (value : Int) (type : LogicalType) : DecimalOperand where
  values := .scalar value
  type := type
  checked := true

/-- The factor from the scale of `source` to that of `result`, at most 10^38. -/
def scaleFactor (source result : LogicalType) : Int := 10 ^ (result.scale - source.scale)

def rescaled (factor : Int) (result : LogicalType) (x : Int) : Option Int :=
  if InInt128 (x * factor) ∧ (rangeOf result).Holds (x * factor) then some (x * factor) else none

/-- A value of an operand at the result's scale, or the operand's cast error. -/
def rescaleRow (operand : DecimalOperand) (result : LogicalType) (x : Int) : Except Fault Int :=
  match rescaled (scaleFactor operand.type result) result x with
  | some scaled => .ok scaled
  | none => raise (decimalCastError x operand.type result operand.column)

def rescaleOperand (operand : DecimalOperand) (result : LogicalType) :
    Except Fault DecimalOperand :=
  if operand.type.scale = result.scale then .ok operand
  else
    match operand.values with
    | .scalar value => (rescaleRow operand result value).map fun scaled =>
        { operand with values := .scalar scaled, checked := true }
    | .array values => (eachRow (rescaleRow operand result) values).map fun scaled =>
        { operand with values := .array scaled, checked := true }

def appendChecked (op : ArithOp) (x y : Int) (result : LogicalType) (value : Int) :
    Except Fault (Option Int) :=
  if InInt128 value ∧ (rangeOf result).Holds value then .ok (some (append result value))
  else raise (decimalOverflow op x y result)

/-- `x <op> y` in the result's type. -/
def computeRow (op : ArithOp) (result : LogicalType) (x y : Int) : Except Fault (Option Int) :=
  match op with
  | .add => appendChecked op x y result (x + y)
  | .subtract => appendChecked op x y result (x - y)
  | .multiply => appendChecked op x y result (x * y)
  | .modulo =>
    if y = 0 then .ok none
    -- the remainder is undefined where the quotient overflows
    else (signed (int128 (x.tdiv y))).bind fun _ => appendChecked op x y result (x.tmod y)
  | .divide => invalid "DECIMAL arithmetic has no operator 3"
  | .integerDivide => invalid "DECIMAL arithmetic has no operator 4"

/-- Whether a value still has to be checked, and does not fit. -/
def DecimalOperand.rejects (operand : DecimalOperand) (op : ArithOp) (result : LogicalType)
    (x : Int) : Bool :=
  op ≠ .multiply && !operand.checked && !(rangeOf result).Holds x

/-- One row of `DecimalArith`. -/
def arithRow (op : ArithOp) (left right : DecimalOperand) (result : LogicalType) :
    Option Int → Option Int → Except Fault (Option Int)
  | some x, some y =>
    if left.rejects op result x then raise (decimalCastError x left.type result left.column)
    else if right.rejects op result y then
      raise (decimalCastError y right.type result right.column)
    else computeRow op result x y
  | _, _ => .ok none

/-- The rows of an operation: those of the operand that is an array. -/
def rowsOf : Values → Values → Nat
  | .array values, _ => values.length
  | .scalar _, .array values => values.length
  | .scalar _, .scalar _ => 0

def decimalArith (left right : DecimalOperand) (op : ArithOp) (result : LogicalType) :
    Except Fault Column :=
  (List.range (rowsOf left.values right.values)).mapM fun row =>
    arithRow op left right result (left.values.at row) (right.values.at row)

/-- An operand's expression once it is computed: a constant of an exact type is a scalar. -/
structure Input where
  values : Values
  type : LogicalType
  column : String := ""
  deriving DecidableEq, Repr

def Input.isConstant (input : Input) : Bool :=
  match input.values with
  | .scalar _ => true
  | .array _ => false

/-- An operand as the operation reads it: a constant is an array where both are. -/
def Input.read (input : Input) (numRows : Nat) (bothConstant : Bool) : DecimalOperand :=
  match input.values with
  | .scalar value =>
    if bothConstant then readDecimalOperand (List.replicate numRows (some value)) input.type ""
    else scalarDecimalOperand value input.type
  | .array values => readDecimalOperand values input.type input.column

/-- An operand at the result's scale; `*` takes the unscaled values. -/
def Input.operand (input : Input) (numRows : Nat) (bothConstant : Bool) (op : ArithOp)
    (result : LogicalType) : Except Fault DecimalOperand :=
  if op = .multiply then .ok (input.read numRows bothConstant)
  else rescaleOperand (input.read numRows bothConstant) result

def castToDecimalRow (source target : LogicalType) (column : String) (x : Int) :
    Except Fault Int := do
  match ← signed (rescale x source.scale target.scale) with
  | some cast =>
    if (rangeOf target).Holds cast then .ok (append target cast)
    else raise (decimalCastError x source target column)
  | none => raise (decimalCastError x source target column)

def castToIntegerRow (source target : LogicalType) (column : String) (x : Int) :
    Except Fault Int := do
  let integer ← signed (rescale x source.scale 0)
  let value := integer.getD x
  if integer.isSome ∧ (rangeOf target).Holds value then .ok (append target value)
  else
    let suffix := sourceSuffix column
    let targetName := physicalName target
    if source.isDecimal then
      raise s!"Failed to cast decimal value {value} to type {targetName}{suffix}"
    else
      let sourceName := physicalName source
      raise (s!"Type {sourceName} with value {x} can't be cast because the value is out of range " ++
        s!"for the destination type {targetName}{suffix}")

/-- `Convert` of exact numbers: an integer widens by Arrow's own cast, which keeps it. -/
def convert (source target : LogicalType) (column : String) (values : Column) :
    Except Fault Column :=
  if target.isDecimal ∧ source ≠ target then eachRow (castToDecimalRow source target column) values
  else if target.isInteger ∧ !isExactWidening source target then
    eachRow (castToIntegerRow source target column) values
  else .ok values

def castTo (source target : LogicalType) (column : String) (values : Column) :
    Except Fault Column :=
  if isExecutableCast source target then convert source target column values
  else
    let sourceName := source.name
    let targetName := target.name
    invalid s!"a cast of {sourceName} to {targetName} is not one the executor runs"

end Antb1.Exec.Decimal
