import Antb1.Exec.Sort
import Antb1.Plan.Table

/-! The top-N over a table's parts (`PartTopNOperator` of `exec/part_operators.cc`): the parts run
ahead of the thread that merges them in order, and skip their input where the bound published so
far rules them out. Late columns, memory and the scheduler's window are left out. -/
namespace Antb1.Exec

open Common Plan

/-- `PartMayBeat` of `exec/part_pruning.cc`. -/
def partMayBeat (stats : PartStats) (key : SortKey) (bound : Int) : Bool :=
  if key.nullsFirst ∧ stats.nullCount > 0 then true
  else
    match stats.min, stats.max with
    | some min, some max => if key.descending then max ≥ bound else min ≤ bound
    | _, _ => false

structure PartTopN (schema : List ArrowType) where
  /-- The batches of each part's pipeline. -/
  parts : List (List (List (Record schema)))
  keys : List SortKey
  limit : Int
  offset : Int
  /-- The statistics of the first key's column, for the parts that have some. -/
  pruning : Option (Nat → Option PartStats) := none
  /-- The `batch_size` of the context. -/
  batchSize : Int

namespace PartTopN

variable {schema : List ArrowType}

inductive State (schema : List ArrowType) where
  /-- Before the first batch: the rows merged so far and the bound they publish, the parts that
  have run, and the next part to merge. -/
  | merging (merged : SortBuffer schema) (bound : Option Int)
      (results : Nat → Option (Except Stop (SortBuffer schema))) (next : Nat)
  /-- The sorted rows, the next one to emit and the end, and the batches emitted. -/
  | emitting (merged : SortBuffer schema) (next stop : Nat) (emitted : List (List (Record schema)))
  | failed (stop : Stop)

/-- `limit + offset`, or the largest `int64_t` where that overflows. -/
def keep (op : PartTopN schema) : Nat :=
  if op.limit + op.offset > kMaxInt64 then kMaxInt64 else (op.limit + op.offset).toNat

def «open» (op : PartTopN schema) : Except Status (State schema) :=
  if op.keys.isEmpty then .error (.invalid "sort without keys")
  else if op.limit < 1 ∨ op.offset < 0 then
    .error (.invalid "a top-N needs a positive LIMIT and no negative OFFSET")
  else do
    let comparator ← RowComparator.make schema op.keys
    .ok (.merging { comparator, keep := some op.keep } none (fun _ => none) 0)

/-- Whether a part is not read at all, with the bound it sees. -/
def skips (op : PartTopN schema) (bound : Option Int) (part : Nat) : Bool :=
  match bound, op.pruning.bind (· part), op.keys with
  | some worst, some stats, key :: _ => !partMayBeat stats key worst
  | _, _, _ => false

/-- The task of a part: its first rows. -/
def runPart (op : PartTopN schema) (bound : Option Int) (part : Nat) :
    Except Stop (SortBuffer schema) := do
  let comparator ← (RowComparator.make schema op.keys).mapError Stop.status
  let buffer : SortBuffer schema := { comparator, keep := some op.keep }
  if op.skips bound part then .ok buffer
  else
    let buffer ← (op.parts.getD part []).foldlM SortBuffer.add buffer
    buffer.sort

/-- One turn of the merge loop of `Next`: the rows and the bound after a part. -/
def mergePart (op : PartTopN schema) (merged : SortBuffer schema)
    (part : Except Stop (SortBuffer schema)) : Except Stop (SortBuffer schema × Option Int) := do
  let part ← part
  let merged ← merged.merge part
  if op.pruning.isSome then
    let merged ← merged.tighten
    .ok (merged, merged.thresholdKey)
  else .ok (merged, none)

/-- The window of the sorted rows that `Next` emits. -/
def window (op : PartTopN schema) (rows : Nat) : Nat × Nat :=
  let next := min op.offset.toNat rows
  (next, if next + op.limit > kMaxInt64 then rows else min rows (next + op.limit.toNat))

def batchEnd (op : PartTopN schema) (next stop : Nat) : Nat :=
  let batchSize := (max op.batchSize 1).toNat
  if stop - next > batchSize then next + batchSize else stop

/-- The state after a result of `Next`'s work. -/
def settle {β : Type} (outcome : Except Stop β) (state : β → State schema) : State schema :=
  match outcome with
  | .ok value => state value
  | .error stop => .failed stop

/-- The parts run in any order, ahead of the merging thread. -/
inductive Step (op : PartTopN schema) : State schema → State schema → Prop where
  | run {merged bound results next} (part : Nat) (inside : part < op.parts.length)
      (ahead : next ≤ part) (first : results part = none) :
      Step op (.merging merged bound results next)
        (.merging merged bound (Function.update results part (some (op.runPart bound part))) next)
  | merge {merged bound results next part} (inside : next < op.parts.length)
      (done : results next = some part) :
      Step op (.merging merged bound results next)
        (settle (op.mergePart merged part) fun (merged, bound) =>
          .merging merged bound results (next + 1))
  | finish {merged bound results} :
      Step op (.merging merged bound results op.parts.length)
        (settle merged.sort fun sorted =>
          .emitting sorted (op.window sorted.rows).1 (op.window sorted.rows).2 [])
  | emit {merged next stop emitted} (more : next < stop) :
      Step op (.emitting merged next stop emitted)
        (settle (merged.slice next (op.batchEnd next stop)) fun rows =>
          .emitting merged (op.batchEnd next stop) stop (emitted ++ [rows]))

/-- The states a run from `open` comes to. -/
def Reachable (op : PartTopN schema) (state : State schema) : Prop :=
  ∃ start, op.open = .ok start ∧ Relation.ReflTransGen op.Step start state

def rows (op : PartTopN schema) : List (Record schema) := op.parts.flatten.flatten

/-- Statistics that are true of a column's values in the part, those of its rows among them. -/
def StatsTrue (op : PartTopN schema) : Prop :=
  ∀ key rest part stats, op.keys = key :: rest → part < op.parts.length →
    op.pruning.bind (· part) = some stats →
    ∃ values, stats.TrueOf values ∧
      ∀ row ∈ (op.parts.getD part []).flatten, row.at_ key.column.index.toNat ∈ values

end PartTopN

end Antb1.Exec
