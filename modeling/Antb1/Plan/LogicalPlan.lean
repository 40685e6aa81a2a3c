import Antb1.Plan.Expr
import Antb1.Plan.SetFormula

/-! Logical plans (`plan/logical_plan.h`, `plan/join_kind.h`) and the walks over
their column ids. Names and spans are left out; a table is a number that the
database maps to its rows. -/
namespace Antb1.Plan

inductive AggKind where
  | countStar
  | count
  | sum
  | avg
  | min
  | max
  | countDistinct
  | sumCounts
  | stddevSamp
  | stddevPop
  | varSamp
  | varPop
  deriving DecidableEq, Repr

structure AggregateCall where
  kind : AggKind := .countStar
  arg : Option BoundColumn := none
  type : LogicalType := .bigInt
  id : ColumnId := kNoColumnId
  deriving DecidableEq, Repr

structure SortKey where
  column : BoundColumn := {}
  descending : Bool := false
  nullsFirst : Bool := false
  deriving DecidableEq, Repr

structure GroupingCall where
  args : List Nat := []
  id : ColumnId := kNoColumnId
  deriving DecidableEq, Repr

inductive JoinKind where
  | inner
  | left
  | semi
  | anti
  | nullAwareAnti
  | oneRow
  | full
  deriving DecidableEq, Repr

def JoinKind.name : JoinKind → String
  | .inner => "INNER"
  | .left => "LEFT"
  | .semi => "SEMI"
  | .anti => "ANTI"
  | .nullAwareAnti => "NULL-AWARE ANTI"
  | .oneRow => "ONE-ROW"
  | .full => "FULL"

structure JoinKindTraits where
  outputsRight : Bool := false
  filtersLeft : Bool := false
  padsRight : Bool := false
  padsLeft : Bool := false
  dropsUnmatchedLeft : Bool := false
  keyless : Bool := false
  nullAware : Bool := false
  deriving DecidableEq, Repr

def JoinKind.traits : JoinKind → JoinKindTraits
  | .inner => { outputsRight := true, dropsUnmatchedLeft := true }
  | .left => { outputsRight := true, padsRight := true }
  | .semi => { filtersLeft := true, dropsUnmatchedLeft := true }
  | .anti => { filtersLeft := true }
  | .nullAwareAnti => { filtersLeft := true, nullAware := true }
  | .oneRow => { outputsRight := true, keyless := true }
  | .full => { outputsRight := true, padsRight := true, padsLeft := true }

inductive BuildSide where
  | left
  | right
  deriving DecidableEq, Repr

/-- Whether a join outputs its build's rows, or those without a match, after the probe. -/
def emitsBuildRows (kind : JoinKind) (side : BuildSide) : Bool :=
  match side with
  | .left => kind.traits.filtersLeft || kind.traits.padsRight
  | .right => kind.traits.padsLeft

def emitsUnmatchedBuildRows (kind : JoinKind) (side : BuildSide) : Bool :=
  match side with
  | .left =>
    kind.traits.padsRight || (kind.traits.filtersLeft && !kind.traits.dropsUnmatchedLeft)
  | .right => kind.traits.padsLeft

/-- Whether no probe row without a match comes out of a join. -/
def probeDropsUnmatchedRows (kind : JoinKind) (build : BuildSide) : Bool :=
  if kind.traits.nullAware || kind.traits.keyless then false
  else
    match build with
    | .right => kind.traits.dropsUnmatchedLeft
    | .left => !kind.traits.padsLeft

structure JoinKey where
  left : BoundColumn := {}
  right : BoundColumn := {}
  deriving DecidableEq, Repr

structure JoinSpec where
  kind : JoinKind := .inner
  keys : List JoinKey := []
  residual : List Expr := []
  build : BuildSide := .right

abbrev TableId := Nat

inductive LogicalNode where
  | scan (table : TableId) (fields : List Nat) (ids : List ColumnId)
  | filter (input : LogicalNode) (predicates : List Predicate)
      (neededAbove : Option (List ColumnId))
  | compute (input : LogicalNode) (exprs : List Expr) (ids : List ColumnId)
  | project (input : LogicalNode) (columns : List BoundColumn)
      (constants : List (Option Constant)) (ids : List ColumnId)
  | aggregate (input : LogicalNode) (aggregates : List AggregateCall)
  | groupAggregate (input : LogicalNode) (keys : List BoundColumn) (keyIds : List ColumnId)
      (aggregates : List AggregateCall)
  | sort (input : LogicalNode) (keys : List SortKey)
  | limit (input : LogicalNode) (limit : Option Nat) (offset : Nat)
  | rowCount (table : TableId) (id : ColumnId)
  | join (spec : JoinSpec) (left right : LogicalNode)
  | dependentJoin (kind : JoinKind) (left right : LogicalNode) (mark : ColumnId)
  | unionAll (inputs : List LogicalNode) (columns : List (List BoundColumn))
      (ids : List ColumnId)
  | groupingSets (input : LogicalNode) (keys : List BoundColumn) (keyIds : List ColumnId)
      (sets : List (List Nat)) (aggregates : List AggregateCall) (grouping : List GroupingCall)
  | setOperation (inputs : List LogicalNode) (columns : List (List BoundColumn))
      (ids : List ColumnId) (formula : List SetTerm)

namespace LogicalNode

def inputsOf : LogicalNode → List LogicalNode
  | .scan _ _ _ | .rowCount _ _ => []
  | .filter input _ _ | .compute input _ _ | .project input _ _ _ | .aggregate input _
  | .groupAggregate input _ _ _ | .sort input _ | .limit input _ _
  | .groupingSets input _ _ _ _ _ => [input]
  | .join _ left right | .dependentJoin _ left right _ => [left, right]
  | .unionAll inputs _ _ | .setOperation inputs _ _ _ => inputs

def callIds (ids : List ColumnId) (calls : List AggregateCall) : List ColumnId :=
  ids ++ calls.map AggregateCall.id

/-- The output ids of a join over inputs with these, then the node's own column. -/
def joinIds (kind : JoinKind) (left right : List ColumnId) (own : ColumnId) : List ColumnId :=
  left ++ (if kind.traits.outputsRight then right else []) ++
    (if own ≠ kNoColumnId then [own] else [])

def outputIds : LogicalNode → List ColumnId
  | .scan _ _ ids | .project _ _ _ ids | .unionAll _ _ ids | .setOperation _ _ ids _ => ids
  | .filter input _ _ | .sort input _ | .limit input _ _ => input.outputIds
  | .compute input _ ids => input.outputIds ++ ids
  | .aggregate _ aggregates => callIds [] aggregates
  | .groupAggregate _ _ keyIds aggregates => callIds keyIds aggregates
  | .rowCount _ id => [id]
  | .join spec left right => joinIds spec.kind left.outputIds right.outputIds kNoColumnId
  | .dependentJoin kind left right mark => joinIds kind left.outputIds right.outputIds mark
  | .groupingSets _ _ keyIds _ aggregates grouping =>
    callIds keyIds aggregates ++ grouping.map GroupingCall.id

end LogicalNode

structure OutputColumn where
  type : LogicalType := .bigInt
  id : ColumnId := kNoColumnId
  storedAsFloat : Bool := false
  nullItem : Bool := false
  deriving DecidableEq, Repr

structure LogicalPlan where
  root : LogicalNode
  output : List OutputColumn

end Antb1.Plan
