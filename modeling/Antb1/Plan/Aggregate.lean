import Antb1.Lib.Grouping
import Antb1.Plan.LogicalPlan

/-! The value of an aggregate call over the rows of a group, in the order the rows
are taken (`exec/grouped_aggregate_state.cc`). AVG, the variance family and SUM of
DOUBLE values are parameters. -/
namespace Antb1.Plan

/-- The order of two values of one type that are not NULL; a NaN is above every number. -/
def Value.order : Value → Value → Ordering
  | .int x, .int y => compare x y
  | .double x, .double y =>
    if isNan x || isNan y then compare (isNan x).toNat (isNan y).toNat
    else compare (doubleOrder x) (doubleOrder y)
  | .text x, .text y => compare x y
  | .bool x, .bool y => compare x.toNat y.toNat
  | _, _ => .eq

def Value.isNaN : Value → Bool
  | .double bits => isNan bits
  | _ => false

def quietNaN : Value := .double 0x7ff8000000000000#64

/-- `GroupedMinMax::Offer`: any value replaces a NaN, a NaN no value, and ties keep
the value seen first. -/
def offer (isMin : Bool) (best : Option Value) (value : Value) : Option Value :=
  if value.isNaN then some (best.getD quietNaN)
  else match best with
  | none => some value
  | some old =>
    if old.isNaN then some value
    else if (if isMin then value.order old = .lt else old.order value = .lt) then some value
    else some old

def Value.asInt : Value → Int
  | .int x => x
  | _ => 0

/-- Every addition within 128 bits. -/
def checkedSum (start : Int) : List Int → Option Int
  | [] => some start
  | x :: rest =>
    if -2 ^ 127 ≤ start + x ∧ start + x < 2 ^ 127 then checkedSum (start + x) rest else none

def sumValue (type : LogicalType) (values : List Int) : Option Value :=
  let total :=
    if type = .hugeInt ∨ type.isDecimal then checkedSum 0 values else some values.sum
  total.bind fun sum =>
    if (rangeOf .hugeInt).min ≤ sum ∧ sum ≤ (rangeOf .hugeInt).max then some (.int sum) else none

/-- SUM, AVG and the variance family where they are computed in DOUBLE. -/
abbrev DoubleAggregates := AggKind → LogicalType → List Value → Option Value

def aggregateValues (doubles : DoubleAggregates) (kind : AggKind) (type : LogicalType)
    (values : List Value) : Option Value :=
  let present := values.filter (· ≠ .null)
  match kind with
  | .countStar => some (.int values.length)
  | .count => some (.int present.length)
  | .countDistinct => some (.int (Grouping.distinct (present.map Value.normalized)).length)
  | .sumCounts =>
    let total := (present.map Value.asInt).sum
    if -2 ^ 63 ≤ total ∧ total < 2 ^ 63 then some (.int total) else none
  | .min => some ((present.foldl (offer true) none).getD .null)
  | .max => some ((present.foldl (offer false) none).getD .null)
  | .sum =>
    if present = [] then some .null
    else if type = .double then doubles .sum type present
    else sumValue type (present.map Value.asInt)
  | .avg | .stddevSamp | .stddevPop | .varSamp | .varPop =>
    if present = [] then some .null else doubles kind type present

def AggregateCall.value (doubles : DoubleAggregates) (call : AggregateCall) (rows : List Row) :
    Option Value :=
  match call.arg with
  | none => if call.kind = .countStar then some (.int rows.length) else none
  | some arg =>
    if call.kind = .countStar then none
    else aggregateValues doubles call.kind arg.type (rows.map fun row => row arg.id)

def groupKey (keys : List BoundColumn) (row : Row) : List Value :=
  keys.map fun key => (row key.id).normalized

def firstKeys (keys : List BoundColumn) : List Row → List Value
  | [] => keys.map fun _ => .null
  | row :: _ => keys.map fun key => row key.id

end Antb1.Plan
