import Antb1.Common.Status
import Mathlib.Logic.Relation
import Mathlib.Data.Int.Basic

/-! The partition lanes (`exec/partition_lanes.cc`): the calls of the consumer and the lanes'
tasks on an executor, interleaved in any order. What runs under the mutex is one step. A status
is `none` where it is OK. -/
namespace Antb1.Exec

open Common

inductive MergeOutcome where
  | returns (status : Option Status)
  | badAlloc

/-- What lanes are made for. Parts come in increasing order and are known by their number. -/
structure Merges where
  lanes : Nat
  maxPending : Int
  /-- How a lane merges a part, after the parts it has merged before. -/
  merge : Nat → List Int → Int → MergeOutcome

namespace PartitionLanes

/-- `Run`. -/
def run : MergeOutcome → Option Status
  | .returns status => status
  | .badAlloc => some (.outOfMemory "out of memory while merging partitions")

/-- Where the task of a lane is, in `Drain`. -/
inductive Phase where
  /-- Submitted: it waits for the mutex. -/
  | start
  | merging (part : Int)
  | merged (part : Int) (status : Option Status)

structure Lane where
  queue : List Int := []
  running : Bool := false
  failed : Bool := false
  /-- The tasks of the lane that were submitted and have not ended. -/
  tasks : List Phase := []
  /-- The parts the lane has merged, or failed to. -/
  merged : List Int := []

structure Failure where
  part : Int
  lane : Nat
  status : Status

/-- The calls that wait for the lanes: an `Add` that fails ends in `Finish`. -/
inductive Call where
  | add
  | finish
  | wait

inductive Reply where
  | add (status : Option Status)
  | finish (status : Option Status)
  | wait

def Call.reply (status : Option Status) : Call → Reply
  | .add => .add status
  | .finish => .finish status
  | .wait => .wait

/-- Where the consumer is. It is blocked while it sleeps on the condition variable. -/
inductive Pc where
  | idle (last : Option Reply)
  | adding (part : Int) (blocked : Bool)
  | waiting (call : Call) (blocked : Bool)
  /-- `Finish` has waited. -/
  | reading (call : Call)

def Pc.wake : Pc → Pc
  | .adding part _ => .adding part false
  | .waiting call _ => .waiting call false
  | pc => pc

def Pc.blocked : Pc → Bool
  | .adding _ blocked | .waiting _ blocked => blocked
  | _ => false

end PartitionLanes

open PartitionLanes

structure PartitionLanes where
  lanes : Nat → Lane := fun _ => {}
  pending : Int := 0
  /-- The lanes with a task. -/
  running : Nat := 0
  failure : Option Failure := none
  /-- The lanes yet to merge a part. -/
  remaining : Int → Nat := fun _ => 0
  pc : Pc := .idle none
  /-- The parts the lanes were given. -/
  added : List Int := []
  /-- The part that could not be queued at all. -/
  lost : List Int := []
  /-- Why a lane could not take a part. -/
  refused : Int → Nat → Option Status := fun _ _ => none

namespace PartitionLanes

def returns (s : PartitionLanes) (reply : Reply) : PartitionLanes :=
  { s with pc := .idle (some reply) }

def notifyAll (s : PartitionLanes) : PartitionLanes := { s with pc := s.pc.wake }

def setLane (s : PartitionLanes) (lane : Nat) (state : Lane) : PartitionLanes :=
  { s with lanes := Function.update s.lanes lane state }

def fail (s : PartitionLanes) (part : Int) (lane : Nat) (status : Status) : PartitionLanes :=
  match s.failure with
  | none => { s with failure := some ⟨part, lane, status⟩ }
  | some failure =>
    if part < failure.part ∨ part = failure.part ∧ lane < failure.lane then
      { s with failure := some ⟨part, lane, status⟩ }
    else s

def done (s : PartitionLanes) (part : Int) : PartitionLanes :=
  let left : PartitionLanes :=
    { s with remaining := Function.update s.remaining part (s.remaining part - 1) }
  if s.remaining part - 1 = 0 then
    { left with pending := s.pending - 1, pc := s.pc.wake }
  else left

inductive Queuing where
  | queued
  /-- `std::bad_alloc` in `push_back`. -/
  | noRoom
  | notSubmitted (status : Status)
  /-- `std::bad_alloc` in `Submit`. -/
  | noTask

/-- The status of `Queue`: a lane that runs submits no task. -/
def queueStatus (lane : Lane) : Queuing → Option Status
  | .queued => none
  | .noRoom => some (.outOfMemory "out of memory while queuing a part")
  | .notSubmitted status => if lane.running then none else some status
  | .noTask =>
    if lane.running then none
    else some (.outOfMemory "out of memory while starting a partition lane")

def Lane.give (lane : Lane) (part : Int) : Lane :=
  { lane with
    queue := lane.queue ++ [part]
    running := true
    tasks := if lane.running then lane.tasks else lane.tasks ++ [.start] }

/-- `Queue`, where it succeeds. -/
def queue (s : PartitionLanes) (lane : Nat) (part : Int) : PartitionLanes :=
  { s.setLane lane ((s.lanes lane).give part) with
    running := if (s.lanes lane).running then s.running else s.running + 1 }

/-- A lane that cannot take a part fails as if it had failed to merge it. -/
def refuse (s : PartitionLanes) (lane : Nat) (part : Int) (status : Status) : PartitionLanes :=
  { s.setLane lane { s.lanes lane with failed := true } with
    refused := Function.update s.refused part
      (Function.update (s.refused part) lane (some status)) }

/-- One turn of the loop of `Add`. -/
def addLane (part : Int) (queuing : Nat → Queuing) (state : PartitionLanes × Bool) (lane : Nat) :
    PartitionLanes × Bool :=
  let s := state.1
  if (s.lanes lane).failed then (s.done part, state.2)
  else
    match queueStatus (s.lanes lane) (queuing lane) with
    | none => (s.queue lane part, state.2)
    | some status => (((s.refuse lane part status).fail part lane status).done part, true)

/-- `Add` once it has waited. `room` is whether the part itself can be made. -/
def add (merges : Merges) (room : Bool) (queuing : Nat → Queuing) (part : Int)
    (s : PartitionLanes) : PartitionLanes :=
  if s.failure.isSome then { s with pc := .waiting .add false }
  else if merges.lanes = 0 then s.returns (.add none)
  else if room then
    let made : PartitionLanes :=
      { s with
        pending := s.pending + 1
        remaining := Function.update s.remaining part merges.lanes
        added := s.added ++ [part] }
    let (t, failed) := (List.range merges.lanes).foldl (addLane part queuing) (made, false)
    if failed then { t with pc := .waiting .add false } else t.returns (.add none)
  else
    let status := Status.outOfMemory "out of memory while queuing a part"
    { s.fail part 0 status with
      lost := [part]
      refused := Function.update s.refused part
        (Function.update (s.refused part) 0 (some status))
      pc := .waiting .add false }

def limit (merges : Merges) (pressure : Bool) : Int :=
  if pressure then 1 else if merges.maxPending < 1 then 1 else merges.maxPending

/-- One step of the consumer in a call: `none` where it sleeps. `pressure` is the budget's
answer. -/
def advance (merges : Merges) (pressure room : Bool) (queuing : Nat → Queuing)
    (s : PartitionLanes) : Option PartitionLanes :=
  match s.pc with
  | .idle _ | .adding _ true | .waiting _ true => none
  | .adding part false =>
    if s.failure.isSome || decide (s.pending < limit merges pressure) then
      some (s.add merges room queuing part)
    else some { s with pc := .adding part true }
  | .waiting call false =>
    if s.running = 0 then
      match call with
      | .wait => some (s.returns .wait)
      | call => some { s with pc := .reading call }
    else some { s with pc := .waiting call true }
  | .reading call => some (s.returns (call.reply (s.failure.map Failure.status)))

/-- The head of the loop of `Drain`, for a task between the other tasks of its lane. -/
def drain (s : PartitionLanes) (lane : Nat) (before after : List Phase) : PartitionLanes :=
  match (s.lanes lane).queue with
  | [] =>
    { s.setLane lane { s.lanes lane with running := false, tasks := before ++ after } with
      running := s.running - 1
      pc := s.pc.wake }
  | part :: rest =>
    s.setLane lane
      { s.lanes lane with queue := rest, tasks := before ++ .merging part :: after }

/-- The lane is done with a part it merged, or stops at its failure. -/
def settle (s : PartitionLanes) (lane : Nat) (part : Int) : Option Status → PartitionLanes
  | none => s.done part
  | some status =>
    let failed := (s.setLane lane { s.lanes lane with failed := true }).fail part lane status
    let dropped := (s.lanes lane).queue.foldl done failed
    (dropped.setLane lane { dropped.lanes lane with queue := [] }).done part

def work (merges : Merges) (s : PartitionLanes) (lane : Nat) (before after : List Phase) :
    Phase → PartitionLanes
  | .start => s.drain lane before after
  | .merging part =>
    let status := run (merges.merge lane (s.lanes lane).merged part)
    s.setLane lane
      { s.lanes lane with
        tasks := before ++ .merged part status :: after
        merged := (s.lanes lane).merged ++ [part] }
  | .merged part status => (s.settle lane part status).drain lane before after

/-- A step of a call in progress, or of a task. -/
inductive Works (merges : Merges) : PartitionLanes → PartitionLanes → Prop
  | consumer (s t : PartitionLanes) (pressure room : Bool) (queuing : Nat → Queuing)
      (advanced : s.advance merges pressure room queuing = some t) : Works merges s t
  | task (s : PartitionLanes) (lane : Nat) (before after : List Phase) (phase : Phase)
      (within : lane < merges.lanes)
      (live : (s.lanes lane).tasks = before ++ phase :: after) :
      Works merges s (s.work merges lane before after phase)

/-- The calls of `Add` as the consumer made them: the part of the one in progress, and those that
returned, each with what it returned. -/
structure Calls where
  current : Option Int := none
  returned : List (Int × Option Status) := []

namespace Calls

def parts (calls : Calls) : List Int := calls.returned.map Prod.fst ++ calls.current.toList

/-- The parts whose `Add` returned OK. -/
def accepted (calls : Calls) : List Int :=
  (calls.returned.filter fun call => call.2.isNone).map Prod.fst

/-- The calls once the consumer is at `pc`. -/
def after (calls : Calls) (pc : Pc) : Calls :=
  match calls.current, pc with
  | some part, .idle (some (.add status)) => ⟨none, calls.returned ++ [(part, status)]⟩
  | _, _ => calls

end Calls

/-- A run from new lanes: calls, and wake-ups nobody asked for. -/
inductive Run (merges : Merges) : Calls → PartitionLanes → Prop
  | new : Run merges {} {}
  | add {calls : Calls} {s : PartitionLanes} {last : Option Reply} {part : Int}
      (run : Run merges calls s) (idle : s.pc = .idle last) (above : ∀ q ∈ calls.parts, q < part) :
      Run merges { calls with current := some part } { s with pc := .adding part false }
  | finish {calls : Calls} {s : PartitionLanes} {last : Option Reply} (run : Run merges calls s)
      (idle : s.pc = .idle last) : Run merges calls { s with pc := .waiting .finish false }
  | wait {calls : Calls} {s : PartitionLanes} {last : Option Reply} (run : Run merges calls s)
      (idle : s.pc = .idle last) : Run merges calls { s with pc := .waiting .wait false }
  | spurious {calls : Calls} {s : PartitionLanes} (run : Run merges calls s) :
      Run merges calls s.notifyAll
  | works {calls : Calls} {s t : PartitionLanes} (run : Run merges calls s)
      (works : Works merges s t) : Run merges (calls.after t.pc) t

structure Serial where
  merged : Nat → List Int := fun _ => []
  failure : Option Failure := none

namespace Serial

variable (outcome : Nat → List Int → Int → Option Status)

/-- One turn of the loop of `Add`: none follows a failure. -/
def mergeLane (part : Int) (s : Serial) (lane : Nat) : Serial :=
  match s.failure with
  | some _ => s
  | none =>
    { merged := Function.update s.merged lane (s.merged lane ++ [part])
      failure := (outcome lane (s.merged lane) part).map (⟨part, lane, ·⟩) }

/-- `Add`: it returns the status of the failure. -/
def add (lanes : Nat) (s : Serial) (part : Int) : Serial :=
  (List.range lanes).foldl (mergeLane outcome part) s

def run (lanes : Nat) (parts : List Int) : Serial := parts.foldl (add outcome lanes) {}

/-- The part at which a lane of its own stops, after `before`. -/
def laneFailureFrom (lane : Nat) (before : List Int) : List Int → Option (Int × Status)
  | [] => none
  | part :: rest =>
    match outcome lane before part with
    | some status => some (part, status)
    | none => laneFailureFrom lane (before ++ [part]) rest

def laneFailure (lane : Nat) (parts : List Int) : Option (Int × Status) :=
  laneFailureFrom outcome lane [] parts

end Serial

/-- How a lane fares with a part: it may not be able to take it. -/
def outcome (merges : Merges) (s : PartitionLanes) (lane : Nat) (before : List Int) (part : Int) :
    Option Status :=
  (s.refused part lane).or (PartitionLanes.run (merges.merge lane before part))

end PartitionLanes

end Antb1.Exec
