import Antb1.Sql.SetOperationTree
import Antb1.Plan.LogicalPlan

/-! `SetOperationBinder` of `plan/binder.cc`: the plan of a compound's tree, in its
four passes. `BindBlock`, which binds a leaf's query, is a parameter; spans and
column names are left out. Every pass takes the last column id minted so far. -/
namespace Antb1.Plan

open Sql

/-- A bind error, or a query that is understood and not supported. -/
inductive BindFailure where
  | error (message : String)
  | rejected (message : String)
  deriving DecidableEq, Repr

namespace SetOperationBinder

/-- A bound leaf and its place in written order. -/
structure Leaf where
  index : Nat
  plan : LogicalPlan

/-- The leaves bound and the ids minted so far. -/
structure Counters where
  leaves : Nat
  last : ColumnId
  deriving DecidableEq, Repr

def widthError : BindFailure :=
  .error "Set operations can only apply to expressions with the same number of result columns"

section Bind

variable {Query : Type}
  (bindBlock : Query → ColumnId → Except BindFailure (LogicalPlan × ColumnId))

mutual

/-- `BindLeaves`: the tree over bound leaves, and its column count. -/
def bindLeaves : SetTree Query → Counters → Except BindFailure ((SetTree Leaf × Nat) × Counters)
  | .leaf query, counters => do
    let (plan, last) ← bindBlock query counters.last
    .ok ((.leaf ⟨counters.leaves, plan⟩, plan.output.length), ⟨counters.leaves + 1, last⟩)
  | .run op all operands, counters => do
    let (bound, counters) ← bindOperands op none operands counters
    let widths := bound.map Prod.snd
    -- DuckDB splices a run of UNION, so its widths are checked after all operands.
    if op = .union ∧ ∃ width ∈ widths, width ≠ widths.headD 0 then .error widthError
    else .ok ((.run op all (bound.map Prod.fst), widths.headD 0), counters)

/-- A run's operands; `first` is the first one's width. -/
def bindOperands (op : SetOp) : Option Nat → List (SetTree Query) → Counters →
    Except BindFailure (List (SetTree Leaf × Nat) × Counters)
  | _, [], counters => .ok ([], counters)
  | first, operand :: rest, counters => do
    let (bound, counters) ← bindLeaves operand counters
    if op ≠ .union ∧ bound.2 ≠ first.getD bound.2 then .error widthError
    else do
      let (others, counters) ← bindOperands op (some (first.getD bound.2)) rest counters
      .ok (bound :: others, counters)

end

end Bind

/-- A column folded along the tree; no type is NULL so far. -/
structure Column where
  type : Option LogicalType := none
  storedAsFloat : Bool := true
  deriving DecidableEq, Repr

structure Refusal where
  leaf : Nat
  column : Nat
  message : String
  deriving DecidableEq, Repr

def setOpName : SetOp → String
  | .union => "UNION"
  | .intersect => "INTERSECT"
  | .except => "EXCEPT"

def setOperatorName (op : SetOp) (all : Bool) : String :=
  setOpName op ++ if all then " ALL" else ""

def setTypeName (type : LogicalType) (storedAsFloat : Bool) : String :=
  if storedAsFloat then "FLOAT" else type.name

mutual

/-- `LeafIndex`: the place of a tree's first leaf. -/
def leafIndex : SetTree Leaf → Nat
  | .leaf leaf => leaf.index
  | .run _ _ operands => firstIndex operands

def firstIndex : List (SetTree Leaf) → Nat
  | [] => 0
  | operand :: _ => leafIndex operand

end

def notExact (op : SetOp) (all : Bool) (i leaf : Nat) (source target : LogicalType) : Refusal :=
  ⟨leaf, i, s!"{setOperatorName op all} of {target.name} and {source.name} values is not supported" ++
    s!" ({source.name} does not widen exactly to {target.name})"⟩

def noCommonType (op : SetOp) (all : Bool) (i leaf : Nat) (soFar next : LogicalType)
    (soFarFloat nextFloat : Bool) : Refusal :=
  let d11 := (soFarFloat && next.isExactNumber) || (nextFloat && soFar.isExactNumber)
  ⟨leaf, i, s!"{setOperatorName op all} of {setTypeName soFar soFarFloat} and " ++
    s!"{setTypeName next nextFloat} values is not supported" ++
      if d11 then " (antb1 reads FLOAT as DOUBLE, divergence D11)" else ""⟩

/-- A run's fold: the column so far, the leaf of the operand that first gave it a
type, and every operand's leaf and column. -/
structure RunFold where
  column : Column := {}
  typed : Nat := 0
  parts : List (Nat × Column) := []

/-- The next operand of a run. INTERSECT and EXCEPT are binary nodes, so each step's
two sides widen exactly to that step's type. -/
def RunFold.add (op : SetOp) (all : Bool) (i : Nat) (run : RunFold) (leaf : Nat) (next : Column) :
    Except Refusal RunFold :=
  let parts := run.parts ++ [(leaf, next)]
  match next.type, run.column.type with
  | none, _ => .ok { run with parts := parts }
  | some _, none => .ok ⟨next, leaf, parts⟩
  | some nextType, some soFar =>
    match unionAllType soFar nextType with
    | none => .error (noCommonType op all i leaf soFar nextType run.column.storedAsFloat
        next.storedAsFloat)
    | some type =>
      if op ≠ .union ∧ !isExactWidening soFar type then
        .error (notExact op all i run.typed soFar type)
      else if op ≠ .union ∧ !isExactWidening nextType type then
        .error (notExact op all i leaf nextType type)
      else .ok ⟨⟨some type, run.column.storedAsFloat && next.storedAsFloat⟩, run.typed, parts⟩

def checkParts (op : SetOp) (all : Bool) (i : Nat) (target : LogicalType) :
    List (Nat × Column) → Except Refusal Unit
  | [] => .ok ()
  | (leaf, part) :: rest =>
    match part.type with
    | none => checkParts op all i target rest
    | some source =>
      if isExactWidening source target then checkParts op all i target rest
      else .error (notExact op all i leaf source target)

mutual

/-- `Fold`: column `i` of a tree. A column that is refused below is not folded
further. -/
def fold (i : Nat) : SetTree Leaf → Except Refusal Column
  | .leaf leaf =>
    let out := leaf.plan.output.getD i {}
    .ok (if out.nullItem then {} else ⟨some out.type, out.storedAsFloat⟩)
  | .run op all operands => do
    let run ← foldOperands op all i {} operands
    match run.column.type with
    | none => .ok run.column
    | some target => do
      checkParts op all i target run.parts
      .ok run.column

def foldOperands (op : SetOp) (all : Bool) (i : Nat) : RunFold → List (SetTree Leaf) →
    Except Refusal RunFold
  | run, [] => .ok run
  | run, operand :: rest => do
    let next ← fold i operand
    let run ← run.add op all i (leafIndex operand) next
    foldOperands op all i run rest

end

def rootName : SetTree Leaf → String
  | .leaf _ => ""
  | .run op all _ => setOperatorName op all

/-- Column `i` of the compound, which needs a type. -/
def foldRoot (tree : SetTree Leaf) (i : Nat) : Except Refusal Column :=
  match fold i tree with
  | .error refusal => .error refusal
  | .ok column =>
    if column.type.isNone then
      .error ⟨0, i, s!"a {rootName tree} column whose values are all NULL is not supported"⟩
    else .ok column

/-- `Refuse` keeps the first item in the query. -/
def refuse (first : Option Refusal) (next : Refusal) : Option Refusal :=
  match first with
  | none => some next
  | some kept =>
    if next.leaf < kept.leaf ∨ (next.leaf = kept.leaf ∧ next.column < kept.column) then some next
    else some kept

def addResult (first : Option Refusal) : Except Refusal Column → Option Refusal
  | .error refusal => refuse first refusal
  | .ok _ => first

def firstRefusal (results : List (Except Refusal Column)) : Option Refusal :=
  results.foldl addResult none

def foldColumns (tree : SetTree Leaf) (width : Nat) : Except BindFailure (List Column) :=
  let results := (List.range width).map (foldRoot tree)
  match firstRefusal results with
  | some refusal => .error (.rejected refusal.message)
  | none => .ok (results.filterMap Except.toOption)

/-- A node of the plan and the columns to read from it. -/
structure Built where
  node : LogicalNode
  columns : List BoundColumn

def widenTo (expr : Expr) (type : LogicalType) : Expr :=
  if expr.type = type then expr else .cast expr type

/-- A column as the compound's type; a NULL item is a NULL of that type, and the
leaf's own NULL column is not read. -/
def castExpr (out : OutputColumn) (type : LogicalType) : Expr :=
  if out.nullItem then .constant ⟨type, .null⟩ type
  else widenTo (.column { id := out.id } out.type) type

/-- The expressions a leaf computes for the compound, and what the compound reads. -/
structure Casts where
  exprs : List Expr := []
  ids : List ColumnId := []
  reads : List BoundColumn := []

def castColumns : List OutputColumn → List LogicalType → ColumnId → Casts × ColumnId
  | out :: outs, type :: types, last =>
    if out.nullItem ∨ out.type ≠ type then
      let (rest, last') := castColumns outs types (last + 1)
      (⟨castExpr out type :: rest.exprs, (last + 1) :: rest.ids,
        { id := last + 1, type := type } :: rest.reads⟩, last')
    else
      let (rest, last') := castColumns outs types last
      ({ rest with reads := { id := out.id, type := type } :: rest.reads }, last')
  | _, _, last => ({}, last)

/-- `Cast`. -/
def castLeaf (types : List LogicalType) (plan : LogicalPlan) (last : ColumnId) : Built × ColumnId :=
  let (casts, last) := castColumns plan.output types last
  (⟨if casts.exprs.isEmpty then plan.root else .compute plan.root casts.exprs casts.ids,
    casts.reads⟩, last)

mutual

def castLeaves (types : List LogicalType) : SetTree Leaf → ColumnId → SetTree Built × ColumnId
  | .leaf leaf, last =>
    let (built, last) := castLeaf types leaf.plan last
    (.leaf built, last)
  | .run op all operands, last =>
    let (cast, last) := castEach types operands last
    (.run op all cast, last)

def castEach (types : List LogicalType) : List (SetTree Leaf) → ColumnId →
    List (SetTree Built) × ColumnId
  | [], last => ([], last)
  | operand :: rest, last =>
    let (first, last) := castLeaves types operand last
    let (others, last) := castEach types rest last
    (first :: others, last)

end

structure Region where
  inputs : List Built := []
  formula : List SetTerm := []

def Region.input (region : Region) (built : Built) : Region :=
  { inputs := region.inputs ++ [built]
    formula := region.formula ++ [{ kind := .input, input := region.inputs.length, operands := 0 }] }

/-- `TermKind`; UNION ALL has no term. -/
def termKind : SetOp → Bool → SetTermKind
  | .union, _ => .union
  | .intersect, all => if all then .intersectAll else .intersect
  | .except, all => if all then .exceptAll else .except

def Region.operator (region : Region) (op : SetOp) (all : Bool) (operands : Nat) : Region :=
  { region with
    formula := region.formula ++ [{ kind := termKind op all, input := 0, operands := operands }] }

def newIds (last : ColumnId) (count : Nat) : List ColumnId := (List.range count).map (last + 1 + ·)

def newColumns (last : ColumnId) (first : List BoundColumn) : List BoundColumn :=
  ((newIds last first.length).zip first).map fun column =>
    { id := column.1, type := column.2.type }

/-- `Finish`: a node over its inputs, with new ids for its first input's columns. -/
def finish (make : List LogicalNode → List (List BoundColumn) → List ColumnId → LogicalNode)
    (inputs : List Built) (last : ColumnId) : Built × ColumnId :=
  let first := (inputs.map Built.columns).headD []
  (⟨make (inputs.map Built.node) (inputs.map Built.columns) (newIds last first.length),
    newColumns last first⟩, last + first.length)

def finishUnionAll (inputs : List Built) (last : ColumnId) : Built × ColumnId :=
  finish LogicalNode.unionAll inputs last

def finishRegion (region : Region) (last : ColumnId) : Built × ColumnId :=
  finish (fun inputs columns ids => .setOperation inputs columns ids region.formula)
    region.inputs last

mutual

/-- `Build`. -/
def build : SetTree Built → ColumnId → Built × ColumnId
  | .leaf built, last => (built, last)
  | .run op all operands, last =>
    if op = .union ∧ all then
      let (inputs, last) := buildEach operands last
      finishUnionAll inputs last
    else
      let (region, last) := regionOperands operands {} last
      finishRegion (region.operator op all operands.length) last

def buildEach : List (SetTree Built) → ColumnId → List Built × ColumnId
  | [], last => ([], last)
  | operand :: rest, last =>
    let (first, last) := build operand last
    let (others, last) := buildEach rest last
    (first :: others, last)

/-- `Region` over a run's operands: a run other than UNION ALL adds its own terms,
any other operand is an input. -/
def regionOperands : List (SetTree Built) → Region → ColumnId → Region × ColumnId
  | [], region, last => (region, last)
  | operand :: rest, region, last =>
    let (region, last) := regionOperand operand region last
    regionOperands rest region last

def regionOperand : SetTree Built → Region → ColumnId → Region × ColumnId
  | .leaf built, region, last => (region.input built, last)
  | .run op all operands, region, last =>
    if op = .union ∧ all then
      let (inputs, last) := buildEach operands last
      let (built, last) := finishUnionAll inputs last
      (region.input built, last)
    else
      let (region, last) := regionOperands operands region last
      (region.operator op all operands.length, last)

end

/-- `Bind`: the plan of a compound and the last id minted. -/
def bind {Query : Type}
    (bindBlock : Query → ColumnId → Except BindFailure (LogicalPlan × ColumnId))
    (tree : SetTree Query) (last : ColumnId) : Except BindFailure (LogicalPlan × ColumnId) := do
  let ((leaves, width), counters) ← bindLeaves bindBlock tree ⟨0, last⟩
  let columns ← foldColumns leaves width
  let types := columns.map fun column => column.type.getD .integer
  let (cast, last) := castLeaves types leaves counters.last
  let (root, last) := build cast last
  let output := (root.columns.zip columns).map fun column =>
    { type := column.1.type, id := column.1.id, storedAsFloat := column.2.storedAsFloat }
  .ok (⟨root.node, output⟩, last)

end SetOperationBinder

end Antb1.Plan
