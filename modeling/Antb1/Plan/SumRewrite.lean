import Antb1.Plan.Aggregate
import Antb1.Plan.OperandType

/-! The SUM rewrite (`RewritableSum` and `AggregateOutput` of `plan/binder.cc`): in a query without
GROUP BY `SUM(x + c)` is `SUM(x) + c * COUNT(x)` in HUGEINT, layer by layer. How the binder types an
operand is a parameter. -/
namespace Antb1.Plan.SumRewrite

structure Call (Node : Type) where
  kind : AggKind
  arg : Sql.Operand Node
  distinct : Bool := false

/-- An aggregate as an output column, or a rewritten SUM over a SUM and a COUNT. -/
inductive Output (Node : Type) where
  | column (call : Call Node)
  | plus (sum : Output Node) (constant : Int) (count : Call Node)

/-- A sum taken apart: whether the constant stands on the right, its value, and the other operand
without its layers. -/
structure Rewrite (Node : Type) where
  constantRight : Bool
  constant : Int
  counted : Sql.Operand Node

section

variable {Node : Type} (reads : Node → Bool)

/-- The constant side of a sum whose other side reads a column. -/
def split (left right : Sql.Operand Node) : Except Overflow (Option (Bool × Int)) := do
  match ← constantValue right, readsColumn reads left with
  | some c, true => return some (true, c)
  | _, _ =>
    match ← constantValue left, readsColumn reads right with
    | some c, true => return some (false, c)
    | _, _ => return none

/-- An operand without its `+ constant` layers. -/
def withoutLayers : Sql.Operand Node → Except Overflow (Sql.Operand Node)
  | .binary .add left right => do
    match ← split reads left right with
    | some (true, _) => withoutLayers left
    | some (false, _) => withoutLayers right
    | none => return .binary .add left right
  | operand => .ok operand

variable {ε : Type} (bind : Sql.Operand Node → Except ε Typed)

/-- Whether both types are signed integers, or how typing one of them fails. -/
def bothSigned (whole other : Sql.Operand Node) : Except ε Bool := do
  let wholeTyped ← bind whole
  let otherTyped ← bind other
  return wholeTyped.type.isSignedInteger && otherTyped.type.isSignedInteger

/-- `RewritableSum` of `SUM(left + right)`. -/
def rewritableSum (left right : Sql.Operand Node) :
    Except Overflow (Except ε (Option (Rewrite Node))) := do
  match ← split reads left right with
  | none => return .ok none
  | some (constantRight, constant) =>
    let other := if constantRight then left else right
    let counted ← withoutLayers reads other
    return (bothSigned bind (.binary .add left right) other).map fun signed =>
      if signed then some { constantRight, constant, counted } else none

/-- `AggregateOutput` of a SUM that is not DISTINCT, in a query without GROUP BY. -/
def sumOutput : Sql.Operand Node → Except Overflow (Except ε (Output Node))
  | .binary .add left right => do
    match ← rewritableSum reads bind left right with
    | .error e => return .error e
    | .ok none => return .ok (.column ⟨.sum, .binary .add left right, false⟩)
    | .ok (some rewrite) =>
      let inner ← (if rewrite.constantRight then sumOutput left else sumOutput right)
      return inner.map fun sum => .plus sum rewrite.constant ⟨.count, rewrite.counted, false⟩
  | operand => .ok (.ok (.column ⟨.sum, operand, false⟩))

/-- `AggregateOutput` of a call with an argument. -/
def aggregateOutput (grouped : Bool) (call : Call Node) :
    Except Overflow (Except ε (Output Node)) :=
  if grouped || call.kind ≠ .sum || call.distinct then .ok (.ok (.column call))
  else sumOutput reads bind call.arg

end

/-- What a row gives the operands that are no arithmetic; none fails, and NULL is no integer. -/
abbrev OperandRow (Node : Type) := Sql.Operand Node → Option (Option Int)

section

variable {Node ε : Type} (bind : Sql.Operand Node → Except ε Typed)

/-- A computed integer: an overflow of its type fails. -/
def checkedAs (operand : Sql.Operand Node) : Option Int → Option (Option Int)
  | none => some none
  | some x =>
    match bind operand with
    | .ok typed =>
      if typed.type.isInteger && decide ((rangeOf typed.type).Holds x) then some (some x) else none
    | .error _ => none

/-- An integer operand's value on a row, computed in the types of its parts. -/
def computed (row : OperandRow Node) : Sql.Operand Node → Option (Option Int)
  | .integer negative text => some (some (text.signed negative))
  | .negate operand => do checkedAs bind (.negate operand) ((← computed row operand).map (- ·))
  | .binary .add left right => do
    checkedAs bind (.binary .add left right)
      (Option.map₂ (· + ·) (← computed row left) (← computed row right))
  | .binary .subtract left right => do
    checkedAs bind (.binary .subtract left right)
      (Option.map₂ (· - ·) (← computed row left) (← computed row right))
  | .binary .multiply left right => do
    checkedAs bind (.binary .multiply left right)
      (Option.map₂ (· * ·) (← computed row left) (← computed row right))
  | operand => row operand

/-- `+`, `-` or `*` in HUGEINT. -/
def hugeArith (f : Int → Int → Int) : Value → Value → Option Value
  | .int x, .int y => if (rangeOf .hugeInt).Holds (f x y) then some (.int (f x y)) else none
  | _, _ => some .null

/-- An aggregate over the rows of a query, in the type of its argument. -/
def Call.value (doubles : DoubleAggregates) (rows : List (OperandRow Node)) (call : Call Node) :
    Option Value := do
  let typed ← (bind call.arg).toOption
  let values ← rows.mapM fun row => computed bind row call.arg
  aggregateValues doubles call.kind typed.type
    ((if call.distinct then Grouping.distinct values else values).map asValue)

def Output.value (doubles : DoubleAggregates) (rows : List (OperandRow Node)) :
    Output Node → Option Value
  | .column call => call.value bind doubles rows
  | .plus sum constant count => do
    let sum ← sum.value doubles rows
    let product ← hugeArith (· * ·) (.int constant) (← count.value bind doubles rows)
    hugeArith (· + ·) sum product

end

end Antb1.Plan.SumRewrite
