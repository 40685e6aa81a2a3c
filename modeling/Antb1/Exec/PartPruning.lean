import Antb1.Exec.PredicateEvaluator
import Antb1.Plan.Table

/-! Parts left out by their statistics (`exec/part_pruning.cc`), for the predicates of the filters
directly on a scan (`FiltersOnScan` of `exec/physical_planner.cc`), and the statistics of a Parquet
table's parts (`ParquetTable::part_stats`). -/
namespace Antb1.Exec

open Plan

def hasComparableStatistics (type : LogicalType) : Bool :=
  (type.isInteger && type ≠ .hugeInt) || type = .date || type.isDecimal

structure PartTable where
  types : Nat → LogicalType
  parts : List (List Tuple)
  partStats : Nat → Nat → Option PartStats

namespace PartPruning

/-- A constant as the number the statistics of a column can be compared with. -/
def comparableWith (constant : Constant) (column : LogicalType) : Option Int :=
  if !hasComparableStatistics constant.type then none
  else if constant.type.isDecimal && constant.type ≠ column then none
  else
    match constant.value with
    | .int value => some value
    | _ => none

/-- Whether no value between the bounds compares so with `c`. -/
def outside (op : CompareOp) (c lo hi : Int) : Bool :=
  match op with
  | .eq => c < lo || c > hi
  | .ne => lo = c && hi = c
  | .lt => lo ≥ c
  | .le => lo > c
  | .gt => hi ≤ c
  | .ge => hi < c

/-- Whether a predicate is false for every row of a part with these statistics of its column. -/
def neverTrue (p : Predicate) (stats : PartStats) : Bool :=
  let column := (p.column.map (·.type)).getD .varchar
  let allNull := stats.nullCount ≥ stats.rows
  if stats.rows = 0 then false
  else
    match p.kind with
    | .compare =>
      if allNull then true
      else
        match comparableWith p.constant column, stats.min, stats.max with
        | some c, some lo, some hi => outside p.op c lo hi
        | _, _, _ => false
    | .isIn =>
      if allNull then true
      else
        match stats.min, stats.max with
        | some lo, some hi => p.values.all fun value =>
          match comparableWith value column with
          | some v => v < lo || v > hi
          | none => false
        | _, _ => false
    | .isNotNull => allNull
    | _ => false

variable (table : PartTable)

/-- Whether a predicate leaves a part out; its column is one of the scan's output. -/
def leavesOut (part : Nat) (fields : List Nat) (p : Predicate) : Bool :=
  if p.kind = .isFalse then true
  else
    match p.column with
    | none => false
    | some column =>
      if column.index < 0 then false
      else
        match fields[column.index.toNat]? with
        | none => false
        | some field =>
          match table.partStats part field with
          | none => false
          | some stats => neverTrue p stats

def partMayMatch (part : Nat) (fields : List Nat) (predicates : List Predicate) : Bool :=
  !predicates.any (leavesOut table part fields)

def keptParts (fields : List Nat) (predicates : List Predicate) : List Nat :=
  (List.range table.parts.length).filter fun part =>
    predicates.isEmpty || partMayMatch table part fields predicates

def scanned (fields : List Nat) (parts : List Nat) : List Tuple :=
  parts.flatMap fun part =>
    (table.parts.getD part []).map fun row => fields.map fun field => row.getD field .null

/-- Filters on the scan over some of the parts: each part has a pipeline of its own, which is
opened when it is run (`PartUnionOperator`). -/
def runParts (kernels : Kernels) (fields : List Nat) (filters : List (List Predicate)) :
    List Nat → Except Common.Status (List Tuple)
  | [] => .ok []
  | part :: rest => do
    let rows ← FilterOperator.runChain kernels (fields.map table.types) filters
      (scanned table fields [part])
    return rows ++ (← runParts kernels fields filters rest)

end PartPruning

/-- The nodes of a part pipeline, from its top to the scan: each goes on through its input, a join
through the one it does not build on (`PipelineInput`). -/
def pipelineChain : LogicalNode → List LogicalNode
  | .filter input predicates needed => .filter input predicates needed :: pipelineChain input
  | .compute input exprs ids => .compute input exprs ids :: pipelineChain input
  | .project input columns a b => .project input columns a b :: pipelineChain input
  | .join spec left right =>
    .join spec left right ::
      match spec.build with
      | .left => pipelineChain right
      | .right => pipelineChain left
  | node => [node]

/-- The predicates of a Filter; none for another node. -/
def filterPredicates : LogicalNode → Option (List Predicate)
  | .filter _ predicates _ => some predicates
  | _ => none

/-- The Filters directly on the scan of a part pipeline, the lowest first. -/
def directFilters (node : LogicalNode) : List (List Predicate) :=
  (((pipelineChain node).reverse.tail.map filterPredicates).takeWhile (·.isSome)).reduceOption

def filtersOnScan (node : LogicalNode) : List Predicate := (directFilters node).flatten

inductive PhysicalType where
  | int32
  | int64
  | other
  deriving DecidableEq, Repr

/-- The statistics of a column chunk: the bounds are those its scalars convert to, if any. -/
structure ChunkStatistics where
  nullCount : Option Nat
  min : Option Int
  max : Option Int
  deriving DecidableEq, Repr

/-- A column of a Parquet table: its leaf in the file, if it is one. -/
structure ParquetField where
  leaf : Option Nat
  engine : LogicalType
  physical : PhysicalType
  deriving DecidableEq, Repr

/-- A row group: its rows and the usable statistics of its leaves. -/
structure RowGroup where
  rows : Nat
  statistics : Nat → Option ChunkStatistics

def ParquetField.comparable (field : ParquetField) : Bool :=
  hasComparableStatistics field.engine &&
    (!field.engine.isDecimal || field.physical = .int32 || field.physical = .int64)

def ChunkStatistics.partStats (chunk : ChunkStatistics) (rows : Nat) : Option PartStats :=
  match chunk.nullCount with
  | none => none
  | some nullCount =>
    if nullCount ≥ rows then some { min := none, max := none, nullCount, rows }
    else
      match chunk.min, chunk.max with
      | some lo, some hi =>
        if lo ≤ hi then some { min := some lo, max := some hi, nullCount, rows } else none
      | _, _ => none

/-- `ParquetTable::part_stats`. -/
def parquetPartStats (fields : List ParquetField) (parts : List RowGroup) (part field : Nat) :
    Option PartStats := do
  let group ← parts[part]?
  let column ← fields[field]?
  let leaf ← column.leaf
  if !column.comparable then none
  else (← group.statistics leaf).partStats group.rows

end Antb1.Exec
