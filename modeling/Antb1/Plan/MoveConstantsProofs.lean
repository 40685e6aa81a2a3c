import Antb1.Plan.MoveConstants

/-! Moving constants across a comparison is exact: layer by layer the comparison keeps its truth
over the unbounded integers, its constant stays a value of the layer's type, and no 128-bit step
overflows. -/
namespace Antb1.Plan

open Lib

variable {operation : Sql.BinaryOp} {constantRight : Bool} {op : CompareOp} {type : LogicalType}

/-- `v <op> k`, where none is NULL. -/
def CompareOp.truth (op : CompareOp) (v : Option Int) (k : Int) : Option Bool :=
  v.map fun x => op.holds (compare x k)

namespace MoveConstants

variable {k c : Int} {op' : CompareOp}

/-- The value of an operation with a constant, by its other operand's. -/
def applied (operation : Sql.BinaryOp) (constantRight : Bool) (c x : Int) : Int :=
  match operation with
  | .add => x + c
  | .subtract => if constantRight then x - c else c - x
  | .multiply => x * c
  | _ => 0

/-- The truth of an outcome that compares nothing, on a value that is not NULL. -/
def Outcome.verdict (outcome : Outcome) : Bool := outcome ≠ .isFalse

/-- A layer taken off leaves the truth of `y <op> k`, where `y` is the operation's value. -/
def Layer.Keeps (operation : Sql.BinaryOp) (constantRight : Bool) (op : CompareOp) (k c : Int) :
    Layer → Prop
  | .stays => True
  | .decided outcome => outcome ≠ .compare ∧
      ∀ x, op.holds (compare (applied operation constantRight c x) k) = outcome.verdict
  | .becomes next op' => op'.ordered = op.ordered ∧ InInt128 next ∧
      ∀ x, op.holds (compare (applied operation constantRight c x) k) = op'.holds (compare x next)

variable {Node ε : Type} {reads : Node → Bool} {bind : Sql.Operand Node → Except ε Typed}
  {left right : Sql.Operand Node}

def inner (constantRight : Bool) (left right : Sql.Operand Node) : Sql.Operand Node :=
  if constantRight then left else right

theorem value_applied
    (arithmetic : operation = .add ∨ operation = .subtract ∨ operation = .multiply)
    (folds : constantValue (inner (!constantRight) left right) = .ok (some c))
    (other : Sql.Operand Node → Option Int) :
    (Sql.Operand.binary operation left right).value other =
      ((inner constantRight left right).value other).map (applied operation constantRight c) := by
  obtain ⟨folded, isFolded, values⟩ := constantValue_spec (inner (!constantRight) left right)
  rw [folds] at isFolded
  cases isFolded
  have value := (values c rfl).2 other
  cases constantRight with
  | true =>
    have isConstant : right.value other = some c := value
    rcases arithmetic with rfl | rfl | rfl <;> cases isInner : left.value other <;>
      simp [Sql.Operand.value, isConstant, isInner, inner, applied]
  | false =>
    have isConstant : left.value other = some c := value
    rcases arithmetic with rfl | rfl | rfl <;> cases isInner : right.value other <;>
      simp [Sql.Operand.value, isConstant, isInner, inner, applied, Int.add_comm, Int.mul_comm]

variable (reads) in
/-- What one step of the loop establishes where it takes a layer off. -/
structure Step.Takes (type : LogicalType) (operation : Sql.BinaryOp)
    (left right : Sql.Operand Node) (op : CompareOp) (k : Int) (constantRight : Bool)
    (result : Layer) (c : Int) : Prop where
  signed : type.isSignedInteger = true
  held : (rangeOf type).Holds k
  folds : constantValue (inner (!constantRight) left right) = .ok (some c)
  readsInner : readsColumn reads (inner constantRight left right) = true
  arithmetic : operation = .add ∨ operation = .subtract ∨ operation = .multiply
  keeps : result.Keeps operation constantRight op k c
  becomes : ∀ next op', result = .becomes next op' → (rangeOf type).Holds next

/-- The truth of what is left, which NULL leaves NULL. -/
def Moved.truth (moved : Moved Node) (other : Sql.Operand Node → Option Int) : Option Bool :=
  match moved.outcome with
  | .compare => moved.op.truth (moved.operand.value other) moved.k
  | outcome => (moved.operand.value other).map fun _ => outcome.verdict

/-- An operation with a constant side, the other left. -/
structure Operation (Node : Type) where
  operation : Sql.BinaryOp
  left : Sql.Operand Node
  right : Sql.Operand Node
  constantRight : Bool
  c : Int
  type : LogicalType

theorem Step.Takes.truth {k c next : Int}
    (takes : Step.Takes reads type operation left right op k constantRight (.becomes next op') c)
    (other : Sql.Operand Node → Option Int) :
    op'.truth ((inner constantRight left right).value other) next =
      op.truth ((Sql.Operand.binary operation left right).value other) k := by
  rw [value_applied takes.arithmetic takes.folds, CompareOp.truth, CompareOp.truth, Option.map_map]
  congr 1
  funext x
  exact (takes.keeps.2.2 x).symm

theorem Step.Takes.decided {k c k' : Int} {outcome : Outcome}
    (takes : Step.Takes reads type operation left right op k constantRight (.decided outcome) c)
    (other : Sql.Operand Node → Option Int) :
    Moved.truth ⟨⟨inner constantRight left right, op, k'⟩, outcome⟩ other =
      op.truth ((Sql.Operand.binary operation left right).value other) k := by
  obtain ⟨decides, verdict⟩ := takes.keeps
  rw [value_applied takes.arithmetic takes.folds, CompareOp.truth, Option.map_map]
  have left : Moved.truth ⟨⟨inner constantRight left right, op, k'⟩, outcome⟩ other =
      ((inner constantRight left right).value other).map fun _ => outcome.verdict := by
    cases outcome with
    | compare => exact absurd rfl decides
    | isFalse | notNull => rfl
  rw [left]
  congr 1
  funext x
  exact (verdict x).symm

end MoveConstants

end Antb1.Plan
