import Antb1.Lib.Postfix
import Mathlib.Algebra.Order.Ring.Nat

/-! Postfix formulas of a set operation (`plan/logical_plan.cc`): the check, the
tree, which inputs start groups and whose counts are read, and the value a
formula gives a row from its count in each input. -/
namespace Antb1.Plan

inductive SetTermKind where
  | input
  | union
  | intersect
  | intersectAll
  | except
  | exceptAll
  deriving DecidableEq, Repr

structure SetTerm where
  kind : SetTermKind := .input
  input : Nat := 0
  operands : Nat := 2
  deriving DecidableEq, Repr

def SetTerm.action (term : SetTerm) : Postfix.Term Nat SetTermKind :=
  if term.kind = .input then .leaf term.input else .node term.kind term.operands

inductive SetTreeNode where
  | mk (kind : SetTermKind) (input : Nat) (operands : List SetTreeNode)

/-- `SetTreeOf`; `none` where one of its checks stops the program. -/
def setTreeOf (formula : List SetTerm) : Option SetTreeNode :=
  match Postfix.run (fun input => .mk .input input []) (fun kind operands => .mk kind 0 operands)
      (formula.map SetTerm.action) [] with
  | some [root] => some root
  | _ => none

mutual

def markStarters : SetTreeNode → List Bool → List Bool
  | .mk .input input _, starters => starters.set input true
  | .mk .union _ operands, starters => markAllStarters operands starters
  | .mk _ _ operands, starters => markFirstStarters operands starters

def markAllStarters : List SetTreeNode → List Bool → List Bool
  | [], starters => starters
  | operand :: rest, starters => markAllStarters rest (markStarters operand starters)

def markFirstStarters : List SetTreeNode → List Bool → List Bool
  | [], starters => starters
  | first :: _, starters => markStarters first starters

end

/-- Whether a term reads its operands' counts, `read` being whether its own is. -/
def operandsRead : SetTermKind → Bool → Bool
  | .exceptAll, _ => true
  | .intersectAll, read => read
  | _, _ => false

mutual

def markCounted : SetTreeNode → Bool → List Bool → List Bool
  | .mk .input input _, read, counted => counted.set input read
  | .mk kind _ operands, read, counted => markAllCounted operands (operandsRead kind read) counted

def markAllCounted : List SetTreeNode → Bool → List Bool → List Bool
  | [], _, counted => counted
  | operand :: rest, read, counted => markAllCounted rest read (markCounted operand read counted)

end

/-- One term of the check: `depth` terms are on the stack, input `next` comes next. -/
def checkTerm (t : Nat) (term : SetTerm) (depth next : Nat) : Except String (Nat × Nat) :=
  if term.kind = .input then
    if term.input ≠ next then
      .error s!"term {t} reads input {term.input} where input {next} comes next"
    else .ok (depth + 1, next + 1)
  else if term.operands = 0 ∨ term.operands > depth then
    .error s!"term {t} has {term.operands} operands of the {depth} terms before it"
  else .ok (depth - (term.operands - 1), next)

def checkTerms : Nat → List SetTerm → Nat → Nat → Except String (Nat × Nat)
  | _, [], depth, next => .ok (depth, next)
  | t, term :: rest, depth, next =>
    match checkTerm t term depth next with
    | .error problem => .error problem
    | .ok (depth, next) => checkTerms (t + 1) rest depth next

/-- Why `formula` is not one tree over `inputs` inputs, if it is not. -/
def checkSetFormula (formula : List SetTerm) (inputs : Nat) : Option String :=
  if formula = [] then some "an empty formula"
  else match checkTerms 0 formula 0 0 with
  | .error problem => some problem
  | .ok (depth, next) =>
    if next ≠ inputs then some s!"the formula reads {next} of {inputs} inputs"
    else if depth ≠ 1 then some s!"the formula leaves {depth} terms, not one root"
    else if formula.getLast?.map SetTerm.kind = some .input then
      some "the root is an input, not an operator"
    else none

def setStarters (formula : List SetTerm) (inputs : Nat) : List Bool :=
  match setTreeOf formula with
  | some root => markStarters root (List.replicate inputs false)
  | none => List.replicate inputs false

def setCounted (formula : List SetTerm) (inputs : Nat) : List Bool :=
  match setTreeOf formula with
  | some root => markCounted root true (List.replicate inputs false)
  | none => List.replicate inputs false

/-! ## What a formula means

A row's value from its count `X1` to `Xn` in each operand, as the node's
declaration states it; `[x]` is 1 for `x > 0`. -/

def termValue : SetTermKind → List Nat → Nat
  | .input, _ => 0
  | .union, values => if ∃ x ∈ values, 0 < x then 1 else 0
  | .intersect, values => if ∀ x ∈ values, 0 < x then 1 else 0
  | .intersectAll, values => values.min?.getD 0
  | .except, [] => 0
  | .except, first :: rest => if 0 < first ∧ ∀ x ∈ rest, x = 0 then 1 else 0
  | .exceptAll, [] => 0
  | .exceptAll, first :: rest => first - rest.sum

def SetTreeNode.value (count : Nat → Nat) : SetTreeNode → Nat
  | .mk .input input _ => count input
  | .mk kind _ operands => termValue kind (operands.map (SetTreeNode.value count))

end Antb1.Plan
