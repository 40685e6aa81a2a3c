import Antb1.Plan.SetOperationBinder
import Antb1.Plan.SetOperationRows
import Antb1.Plan.TypesProofs

/-! What the plan of a compound has to answer: the compound's bag computed run by
run, each run in its own folded types; and how the plan is made of its leaves. -/
namespace Antb1.Sql

/-- Every run has two or more operands, and every leaf has a property. -/
inductive SetTree.Wide {Query : Type} (leaf : Query → Prop) : SetTree Query → Prop
  | leaf {query} : leaf query → Wide leaf (.leaf query)
  | run {op all operands} : 2 ≤ operands.length → (∀ operand ∈ operands, Wide leaf operand) →
      Wide leaf (.run op all operands)

end Antb1.Sql

namespace Antb1.Plan.SetOperationBinder

open Sql Outcomes

abbrev RowBag := Multiset (List Value)

/-- The type of a tree's column; NULL's is none. -/
def foldedType (tree : SetTree Leaf) (i : Nat) : Option LogicalType :=
  match fold i tree with
  | .ok column => column.type
  | .error _ => none

def widenCell : Option LogicalType → Option LogicalType → Value → Value
  | some source, some target, value => widenValue source target value
  | _, _, value => value

/-- A row of values of one type per column, widened to other types. -/
def widenRow (source target : Nat → Option LogicalType) (row : List Value) : List Value :=
  row.mapIdx fun i value => widenCell (source i) (target i) value

/-- The rows under a query's output, as GROUP BY keys; a NULL item is NULL. -/
def outputBag (output : List OutputColumn) (rows : List Row) : RowBag :=
  (rows.map fun row => output.map fun out =>
    if out.nullItem then .null else (row out.id).normalized : List (List Value))

section Answers

variable (ctx : Context) (env : Row)

def planAnswers (plan : LogicalPlan) : Outcomes RowBag :=
  map (outputBag plan.output) (plan.root.eval ctx env)

mutual

def compoundAnswers : SetTree Leaf → Outcomes RowBag
  | .leaf leaf => planAnswers ctx env leaf.plan
  | .run op all operands =>
    map (foldRun op all) (operandAnswers (foldedType (.run op all operands)) operands)

/-- The answers of a run's operands, widened to the run's types. -/
def operandAnswers (types : Nat → Option LogicalType) : List (SetTree Leaf) →
    Outcomes (List RowBag)
  | [] => pure []
  | operand :: rest =>
    Outcomes.bind (map (Multiset.map (widenRow (foldedType operand) types))
      (compoundAnswers operand)) fun bag =>
        Outcomes.bind (operandAnswers types rest) fun bags => pure (bag :: bags)

end

end Answers

/-- A NULL of a type, or an exact widening of a column of the leaf. -/
def IsWidening (output : List OutputColumn) (expr : Expr) : Prop :=
  (∃ type, expr = .constant ⟨type, .null⟩ type) ∨
    ∃ out ∈ output, ∃ type, expr = .cast (.column { id := out.id } out.type) type ∧
      isExactWidening out.type type = true

/-- What the compound reads of a leaf: its plan, or a Compute of widenings over it. -/
inductive ReadsLeaf (plan : LogicalPlan) : LogicalNode → List ColumnId → Prop
  | root : ReadsLeaf plan plan.root []
  | compute {exprs ids} : (∀ expr ∈ exprs, IsWidening plan.output expr) →
      ReadsLeaf plan (.compute plan.root exprs ids) ids

mutual

/-- A node over `leaves`, each read once and in order; `ids` are the ids of the
nodes above the leaves. -/
inductive BuiltOver : LogicalNode → List LogicalNode → List ColumnId → Prop
  | leaf (node) : BuiltOver node [node] []
  | unionAll {inputs columns own leaves ids} : AllBuiltOver inputs leaves ids →
      BuiltOver (.unionAll inputs columns own) leaves (ids ++ own)
  | setOperation {inputs columns own formula leaves ids} :
      checkSetFormula formula inputs.length = none → AllBuiltOver inputs leaves ids →
      BuiltOver (.setOperation inputs columns own formula) leaves (ids ++ own)

inductive AllBuiltOver : List LogicalNode → List LogicalNode → List ColumnId → Prop
  | nil : AllBuiltOver [] [] []
  | cons {node rest leaves ids leaves' ids'} : BuiltOver node leaves ids →
      AllBuiltOver rest leaves' ids' → AllBuiltOver (node :: rest) (leaves ++ leaves') (ids ++ ids')

end

/-- A node that reads every leaf once, in written order, with ids all new. -/
structure IsPlanOf (leaves : List LogicalPlan) (last : ColumnId) (node : LogicalNode) : Prop where
  built : ∃ inputs : List (LogicalNode × List ColumnId), ∃ ids,
    List.Forall₂ (fun plan input => ReadsLeaf plan input.1 input.2) leaves inputs ∧
      BuiltOver node (inputs.map Prod.fst) ids ∧ (inputs.flatMap Prod.snd ++ ids).Nodup ∧
        ∀ id ∈ inputs.flatMap Prod.snd ++ ids, last < id

/-- What `BindBlock` gives: ids minted from the source, and columns that hold values
of their types. -/
structure BindsBlocks {Query : Type} (ctx : Context) (env : Row)
    (bindBlock : Query → ColumnId → Except BindFailure (LogicalPlan × ColumnId)) : Prop where
  minted : ∀ {query last plan last'}, bindBlock query last = .ok (plan, last') → last ≤ last'
  ids : ∀ {query last plan last'}, bindBlock query last = .ok (plan, last') →
    ∀ out ∈ plan.output, out.id ≤ last'
  typed : ∀ {query last plan last'}, bindBlock query last = .ok (plan, last') →
    ∀ rows, (plan.root.eval ctx env).Yields rows → ∀ row ∈ rows, ∀ out ∈ plan.output,
      (row out.id).InType out.type

end Antb1.Plan.SetOperationBinder
