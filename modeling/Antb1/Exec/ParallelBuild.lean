import Antb1.Exec.JoinTable
import Antb1.Exec.PartitionLanes

/-! A join build whose parts arrive in any order (`JoinTableBuilder`, `exec/join_table.cc`): `Add`
releases the parts in order to the partition lanes, which merge them on an executor. -/
namespace Antb1.Exec

open Common Join PartitionLanes

/-- What a builder is made for. Parts are known by their number. -/
structure PartsBuild where
  numParts : Nat
  parts : Int → JoinBuildPart
  /-- Whether the merge function of a part can be made: `std::bad_alloc` where not. -/
  room : Int → Bool
  maxPending : Int
  /-- How a partition merges a part, after the parts it has merged before. -/
  merge : Nat → List Int → Int → MergeOutcome

namespace PartsBuild

variable (build : PartsBuild)

def merges : Merges := ⟨kJoinPartitions, build.maxPending, build.merge⟩

/-- `Release` up to the lanes: the counts after a part. -/
def release (counts : JoinTableBuilder) (part : Int) : Result JoinTableBuilder :=
  match Join.release machineWords counts (build.parts part) with
  | .error error => .error (.outOfMemory error.text)
  | .ok counts =>
    if (build.parts part).pieces ≠ [] ∧ build.room part = false then
      .error (.outOfMemory "out of memory in a join build")
    else .ok counts

end PartsBuild

namespace ParallelBuild

inductive Call where
  | add (part : Int)
  | finish

/-- Where the consumer is; it has the last call's status when it is idle. -/
inductive Pc where
  | idle (last : Option (Call × Option Status))
  /-- In the loop of `Add`. -/
  | looping (call : Call)
  /-- In `Add` of the lanes, which `Release` ends in. -/
  | adding (call : Call)
  /-- In `Finish` of the lanes, which `Merged` waits for. -/
  | merging (call : Call)

end ParallelBuild

structure ParallelBuild where
  arrived : Int → Bool := fun _ => false
  nextPart : Nat := 0
  /-- The segments are the lanes'. -/
  counts : JoinTableBuilder := { segments := [] }
  /-- The first chunk that the merge function of a part holds. -/
  firstChunk : Int → Nat := fun _ => 0
  failed : Option Status := none
  finished : Bool := false
  lanes : PartitionLanes := {}
  pc : ParallelBuild.Pc := .idle none
  /-- The parts `Add` was called with, and those that were released. -/
  called : List Int := []
  released : List Nat := []

namespace ParallelBuild

variable (build : PartsBuild)

def reply (s : ParallelBuild) (call : Call) (status : Option Status) : ParallelBuild :=
  { s with pc := .idle (some (call, status)) }

def merged (s : ParallelBuild) (call : Call) : ParallelBuild :=
  { s with lanes := { s.lanes with pc := .waiting .finish false }, pc := .merging call }

/-- One turn of the loop of `Add`. -/
def turn (s : ParallelBuild) (call : Call) : ParallelBuild :=
  if s.nextPart < build.numParts ∧ s.arrived s.nextPart = true then
    let t := { s with nextPart := s.nextPart + 1, released := s.released ++ [s.nextPart] }
    match build.release s.counts s.nextPart with
    | .error status => { t with failed := some status }.merged call
    | .ok counts =>
      if (build.parts s.nextPart).pieces = [] then { t with counts, pc := .looping call }
      else
        { t with
          counts
          firstChunk := Function.update s.firstChunk s.nextPart
            (s.counts.numChunks % machineWords.narrow)
          lanes := { s.lanes with pc := .adding s.nextPart false }
          pc := .adding call }
  else s.reply call none

/-- What a call returns once `Merged` has. -/
def answer (s : ParallelBuild) : Call → Option Status
  | .add _ => s.failed
  | .finish =>
    s.failed.or (if s.nextPart < build.numParts then
      some (.invalid s!"join build part {s.nextPart} was not added") else none)

/-- One step of the consumer in a call, beside those of the lanes' calls. -/
def advance (s : ParallelBuild) : Option ParallelBuild :=
  match s.pc, s.lanes.pc with
  | .looping call, _ => some (s.turn build call)
  | .adding call, .idle (some (.add none)) => some { s with pc := .looping call }
  | .adding call, .idle (some (.add (some status))) =>
    some ({ s with failed := some status }.merged call)
  | .merging call, .idle (some (.finish status)) =>
    let t := { s with failed := status.or s.failed }
    some (t.reply call (t.answer build call))
  | _, _ => none

/-- `Add`, as far as its loop. -/
def add (s : ParallelBuild) (part : Int) : ParallelBuild :=
  let s := { s with called := s.called ++ [part] }
  match s.failed with
  | some status => s.reply (.add part) (some status)
  | none =>
    if s.lanes.failure.isSome then s.merged (.add part)
    else
      let invalid := fun message => s.reply (.add part) (some (.invalid message))
      if s.finished then invalid s!"join build part {part} added after the build finished"
      else if part < 0 ∨ part ≥ build.numParts then
        invalid s!"join build part {part} of {build.numParts} parts"
      else if s.arrived part then invalid s!"join build part {part} added twice"
      else
        { s with
          arrived := Function.update s.arrived part true
          pc := .looping (.add part) }

def finish (s : ParallelBuild) : ParallelBuild :=
  if s.finished then s.reply .finish (some (.invalid "a join build finished twice"))
  else { s with finished := true }.merged .finish

/-- A step of a call in progress, or of a task. -/
inductive Works : ParallelBuild → ParallelBuild → Prop
  | lanes (s : ParallelBuild) (t : PartitionLanes)
      (works : PartitionLanes.Works build.merges s.lanes t) : Works s { s with lanes := t }
  | consumer (s t : ParallelBuild) (advanced : s.advance build = some t) : Works s t

/-- A step of the whole: each part is added once, in any order and before the last call. -/
inductive Step : ParallelBuild → ParallelBuild → Prop
  | add (s : ParallelBuild) (last : Option (Call × Option Status)) (part : Int)
      (idle : s.pc = .idle last) (unfinished : s.finished = false)
      (within : 0 ≤ part ∧ part < build.numParts) (once : part ∉ s.called) :
      Step s (s.add build part)
  | finish (s : ParallelBuild) (last : Option (Call × Option Status)) (idle : s.pc = .idle last)
      (unfinished : s.finished = false) : Step s s.finish
  | spurious (s : ParallelBuild) : Step s { s with lanes := s.lanes.notifyAll }
  | works (s t : ParallelBuild) (works : Works build s t) : Step s t

def Reachable (s : ParallelBuild) : Prop := Relation.ReflTransGen (Step build) {} s

def segments (s : ParallelBuild) (partition : Nat) : List Segment :=
  (s.lanes.lanes partition).merged.flatMap fun part =>
    mergePieces machineWords partition (s.firstChunk part) (build.parts part).pieces

end ParallelBuild

/-- A build whose parts come in order and are merged on the calling thread. -/
structure SerialBuild where
  builder : JoinTableBuilder := {}
  lanes : Serial := {}
  failed : Option Status := none

namespace SerialBuild

variable (build : PartsBuild) (outcome : Nat → List Int → Int → Option Status)

def add (s : SerialBuild) (part : Nat) : SerialBuild :=
  match s.failed with
  | some _ => s
  | none =>
    match build.release s.builder part with
    | .error status => { s with failed := some status }
    | .ok builder =>
      if (build.parts part).pieces = [] then { s with builder }
      else
        let lanes := s.lanes.add outcome kJoinPartitions part
        ⟨builder, lanes, lanes.failure.map Failure.status⟩

def run (parts : Nat) : SerialBuild := (List.range parts).foldl (add build outcome) {}

end SerialBuild

end Antb1.Exec
