import Antb1.Plan.OperandType

/-! Constants moved across a comparison (`MoveConstants` of `plan/binder.cc`): `x + c <op> k`
compares `x` with `k - c`, and so on through the layers of the operand. How the binder types an
operand is a parameter. -/
namespace Antb1.Plan

/-- The operator with swapped operands: `5 < c` is `c > 5`. -/
def CompareOp.mirror : CompareOp → CompareOp
  | .lt => .gt
  | .le => .ge
  | .gt => .lt
  | .ge => .le
  | op => op

def CompareOp.ordered (op : CompareOp) : Bool := op ≠ .eq && op ≠ .ne

/-- The quotient of two 128-bit integers. -/
def quotient128 (k c : Int) : Except Overflow Int := int128 (k.tdiv c)

/-- The remainder, which the machine has only where it has the quotient. -/
def remainder128 (k c : Int) : Except Overflow Int := do
  let _ ← quotient128 k c
  return k.tmod c

namespace MoveConstants

/-- `operand <op> k`. -/
structure Comparison (Node : Type) where
  operand : Sql.Operand Node
  op : CompareOp
  k : Int

inductive Outcome where
  | compare
  | isFalse
  | notNull
  deriving DecidableEq, Repr

structure Moved (Node : Type) extends Comparison Node where
  outcome : Outcome

/-- What taking a layer off makes of a comparison's constant and operator. -/
inductive Layer where
  | stays
  | decided (outcome : Outcome)
  | becomes (k : Int) (op : CompareOp)
  deriving DecidableEq, Repr

def Layer.checked (k : Int) (op : CompareOp) : Layer :=
  match checked128 k with
  | some k => .becomes k op
  | none => .stays

def multiplied (ordered : Bool) (op : CompareOp) (k c : Int) : Except Overflow Layer :=
  if c = 0 then .ok .stays
  else do
    if (← remainder128 k c) ≠ 0 then
      if ordered then return .stays
      else return .decided (if op = .eq then .isFalse else .notNull)
    else return .becomes (← quotient128 k c) (if c < 0 then op.mirror else op)

/-- The constant `c` of an operation taken off, where it stands on its right or its left. -/
def layer (ordered : Bool) (operation : Sql.BinaryOp) (constantRight : Bool) (op : CompareOp)
    (k c : Int) : Except Overflow Layer :=
  match operation with
  | .add => .ok (.checked (k - c) op)
  | .subtract =>
    if constantRight then .ok (.checked (k + c) op) else .ok (.checked (c - k) op.mirror)
  | .multiply => multiplied ordered op k c
  | _ => .ok .stays

section

variable {Node : Type} (reads : Node → Bool)

/-- The constant side of an operation whose other side reads a column: whether it is the right
one, and its value. -/
def constantSide (left right : Sql.Operand Node) : Except Overflow (Option (Bool × Int)) := do
  let r ← constantValue right
  let l ← constantValue left
  match r, readsColumn reads left, l, readsColumn reads right with
  | some c, true, _, _ => return some (true, c)
  | _, _, some c, true => return some (false, c)
  | _, _, _, _ => return none

/-- What the loop does with one operation of type `type`: nothing where the constant, before or
after, is none of the type's values. -/
def step (ordered : Bool) (type : LogicalType) (operation : Sql.BinaryOp)
    (left right : Sql.Operand Node) (op : CompareOp) (k : Int) : Except Overflow (Bool × Layer) :=
  if !type.isSignedInteger || !decide ((rangeOf type).Holds k) then .ok (true, .stays)
  else do
    match ← constantSide reads left right with
    | none => return (true, .stays)
    | some (constantRight, c) =>
      match ← layer ordered operation constantRight op k c with
      | .becomes next op =>
        return (constantRight,
          if (rangeOf type).Holds next then .becomes next op else .stays)
      | other => return (constantRight, other)

variable {ε : Type} (bind : Sql.Operand Node → Except ε Typed)

def stopped (moved : Bool) (current : Comparison Node) : Option (Moved Node) :=
  if moved then some ⟨current, .compare⟩ else none

def loop (ordered : Bool) : Sql.Operand Node → CompareOp → Int → Bool →
    Except Overflow (Except ε (Option (Moved Node)))
  | .binary operation left right, op, k, moved =>
    match bind (.binary operation left right) with
    | .error e => .ok (.error e)
    | .ok whole => do
      match ← step reads ordered whole.type operation left right op k with
      | (_, .stays) => return .ok (stopped moved ⟨.binary operation left right, op, k⟩)
      | (true, .decided outcome) => return .ok (some ⟨⟨left, op, 0⟩, outcome⟩)
      | (false, .decided outcome) => return .ok (some ⟨⟨right, op, 0⟩, outcome⟩)
      | (true, .becomes next op) => loop ordered left op next true
      | (false, .becomes next op) => loop ordered right op next true
  | operand, op, k, moved => .ok (.ok (stopped moved ⟨operand, op, k⟩))

/-- The predicate of an outcome that compares nothing. At the top of a filter FALSE reads
nothing; inside an expression it is NULL for a NULL operand. -/
def Moved.predicate (moved : Moved Node) (nested : Bool) (column : BoundColumn) : Predicate :=
  let never := moved.outcome = .isFalse
  { kind := if never then .isFalse else .isNotNull
    column := if never && !nested then none else some column }

end

end MoveConstants

end Antb1.Plan
