import Antb1.Common.Status
import Antb1.Exec.KeyFilter
import Antb1.Exec.NestedLoopJoin

/-! Dynamic join filters (`exec/physical_planner.cc`): a join of a part pipeline offers the filter
of its build's keys to the scan at the bottom, which then leaves out rows and whole parts. Whether
a filter pays (`CanFilterRows`) is a parameter. -/
namespace Antb1.Exec

open Common Plan Join

structure JoinNode where
  spec : JoinSpec
  left : LogicalNode
  right : LogicalNode

namespace JoinNode

def probe (join : JoinNode) : LogicalNode :=
  match join.spec.build with
  | .left => join.right
  | .right => join.left

def build (join : JoinNode) : LogicalNode :=
  match join.spec.build with
  | .left => join.left
  | .right => join.right

def probeKey (join : JoinNode) (key : JoinKey) : BoundColumn :=
  match join.spec.build with
  | .left => key.right
  | .right => key.left

def buildKey (join : JoinNode) (key : JoinKey) : BoundColumn :=
  match join.spec.build with
  | .left => key.left
  | .right => key.right

end JoinNode

/-- The joins of a part pipeline, outermost first (`PipelineBuildsOf`). -/
def pipelineJoins : LogicalNode → List JoinNode
  | .filter input _ _ | .compute input _ _ | .project input _ _ _ => pipelineJoins input
  | .join spec left right =>
    ⟨spec, left, right⟩ ::
      match spec.build with
      | .left => pipelineJoins right
      | .right => pipelineJoins left
  | _ => []

structure ScanNode where
  fields : List Nat
  ids : List ColumnId

def pipelineScan : LogicalNode → Option ScanNode
  | .scan _ fields ids => some ⟨fields, ids⟩
  | .filter input _ _ | .compute input _ _ | .project input _ _ _ => pipelineScan input
  | .join spec left right =>
    match spec.build with
    | .left => pipelineScan right
    | .right => pipelineScan left
  | _ => none

structure JoinShape where
  probeKeys : List BoundColumn
  buildKeys : List BoundColumn

def checkKey (key : JoinKey) : Except Status Unit :=
  if key.left.type ≠ key.right.type then
    .error (.invalid ("a join key of two types: " ++ key.left.type.name ++ " and " ++
      key.right.type.name))
  else if key.left.type = .double ∨ key.left.type = .boolean then
    .error (.invalid ("a hash join key of type " ++ key.left.type.name))
  else .ok ()

def shapeOf (join : JoinNode) : Except Status JoinShape := do
  let kind := join.spec.kind
  if kind.traits.keyless then
    if join.spec.keys ≠ [] ∨ join.spec.residual.length ≠ 0 then
      throw (.invalid "a ONE-ROW join with keys or residuals")
  else if join.spec.keys = [] then
    throw (.invalid ("a " ++ kind.name ++ " hash join without keys"))
  if kind.traits.nullAware ∧ (join.spec.keys.length ≠ 1 ∨ join.spec.residual.length ≠ 0) then
    throw (.invalid ("a NULL-AWARE ANTI join of " ++ toString join.spec.keys.length ++
      " keys and " ++ toString join.spec.residual.length ++ " residuals"))
  if join.spec.residual.any fun residual => match residual with | .null => true | _ => false then
    throw (.invalid "a join residual that is missing")
  if join.spec.residual.any (·.type ≠ .boolean) then
    throw (.invalid "a join residual that is not BOOLEAN")
  join.spec.keys.forM checkKey
  return ⟨join.spec.keys.map join.probeKey, join.spec.keys.map join.buildKey⟩

/-- The position of a column of a node's output at the scan below, as far as the walk carries it. -/
def scanPosition : LogicalNode → Int → Option Int
  | .scan _ _ _, column => some column
  | .filter input _ _, column => scanPosition input column
  | .join spec left right, column =>
    if emitsBuildRows spec.kind spec.build then none
    else
      match spec.build with
      | .right => scanPosition left column
      | .left =>
        let before := left.outputIds
        if !spec.kind.traits.outputsRight then none
        else if before.isEmpty || before.contains kNoColumnId then none
        else if column - before.length < 0 then none
        else scanPosition right (column - before.length)
  | _, _ => none

structure ProbeKey where
  /-- The join, by its place in the pipeline. -/
  join : Nat
  /-- A position in the scan's fields. -/
  column : Nat
  joinsBelow : Bool
  deriving DecidableEq, Repr

def keyColumns (keys : List BoundColumn) : List KeyColumn :=
  keys.map fun key => ⟨key.index.toNat, key.type⟩

/-- The probe key of a join, where its filter may reach the scan. -/
def probeColumn (join : JoinNode) : Option Int :=
  if !probeDropsUnmatchedRows join.spec.kind join.spec.build then none
  else
    match shapeOf join with
    | .error _ => none
    | .ok shape =>
      if !canPublishKeyFilter (keyColumns shape.buildKeys) then none
      else
        match shape.probeKeys with
        | [key] => if key.index < 0 then none else scanPosition join.probe key.index
        | _ => none

/-- `ProbeKeyAt`: the probe key of the join `fromInnermost` levels above the deepest. -/
def probeKeyAt (top : LogicalNode) (late : Bool) (fromInnermost : Nat) : Option ProbeKey :=
  let joins := pipelineJoins top
  if late || fromInnermost ≥ joins.length then none
  else
    let at_ := joins.length - 1 - fromInnermost
    match joins[at_]?.bind probeColumn, pipelineScan top with
    | some column, some scan =>
      if column ≥ scan.fields.length then none
      else some ⟨at_, column.toNat, fromInnermost > 0⟩
    | _, _ => none

/-- `PartHasNoKey`: a part that matches nothing, by its statistics of the key. -/
def partHasNoKey (filter : KeyFilter) (stats : Option PartStats) : Bool :=
  if !filter.prunesParts then false
  else
    match stats with
    | none => false
    | some stats =>
      if stats.rows = 0 then false
      else
        match stats.min, stats.max with
        | some min, some max => !filter.mayHoldAKeyIn min max
        | _, _ => stats.nullCount ≥ stats.rows

/-- A part of a table, with its statistics of one column. -/
structure TablePart where
  rows : List Tuple
  stats : Option PartStats

def scanPart (filter : KeyFilter) (hash : List Value → Nat) (column : Nat) (filtersRows : Bool)
    (part : TablePart) : List Tuple :=
  if partHasNoKey filter part.stats then []
  else if filtersRows then part.rows.filter fun row => filter.mayContain (hash (keyAt [column] row))
  else part.rows

structure Evaluator where
  predicate : Predicate → Condition
  residual : Expr → Condition

def equiJoin (evaluator : Evaluator) (join : JoinNode) : EquiJoin where
  kind := join.spec.kind
  side := join.spec.build
  probeKeys := join.spec.keys.map fun key => (join.probeKey key).index.toNat
  buildKeys := join.spec.keys.map fun key => (join.buildKey key).index.toNat
  residual := join.spec.residual.map evaluator.residual
  probeWidth := join.probe.outputIds.length
  buildWidth := join.build.outputIds.length

/-- The rows of a part pipeline of filters and joins over the scan's rows, with each join's build
rows, outermost first. -/
def runPipeline (evaluator : Evaluator) :
    LogicalNode → List (List Tuple) → List Tuple → Option (List Tuple)
  | .scan _ _ _, _, rows => some rows
  | .filter input predicates _, builds, rows =>
    (runPipeline evaluator input builds rows).bind
      (keepM fun row => passes row (predicates.map evaluator.predicate))
  | .join spec left right, build :: builds, rows =>
    (match spec.build with
      | .left => runPipeline evaluator right builds rows
      | .right => runPipeline evaluator left builds rows).bind
      ((equiJoin evaluator ⟨spec, left, right⟩).rows build)
  | _, _, _ => none

def buildTuples (batches : List Batch) : List Tuple :=
  batches.flatMap fun batch => (batch.filter (·.selected)).map (·.row)

end Antb1.Exec
