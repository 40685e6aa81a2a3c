import Antb1.Common.Checked
import Antb1.Common.Status
import Mathlib.Logic.Relation
import Mathlib.Data.Int.Basic

/-! The part scheduler (`exec/part_scheduler.h`): the steps of its thread and those of the
tasks it submits to an executor, interleaved in any order. Every submission succeeds. -/
namespace Antb1.Exec

open Common

structure Parts (T : Type) where
  numParts : Nat
  window : Int
  /-- The result of a part's task; a run may run out of memory instead. -/
  result : Nat → Result T

namespace PartScheduler

variable {T : Type}

inductive Outcome (T : Type) where
  | returns (result : Result T)
  | badAlloc

/-- `Shared::Run`. -/
def run (part : Nat) : Outcome T → Result T
  | .returns result => result
  | .badAlloc => .error (.outOfMemory ("out of memory while reading part " ++ toString part))

/-- A result of a part that no stop flag changed. -/
def Honest (parts : Parts T) (part : Nat) (result : Result T) : Prop :=
  result = parts.result part ∨ result.isOutOfMemory = true

def Allows (parts : Parts T) (sawStop : Bool) (part : Nat) (outcome : Outcome T) : Prop :=
  sawStop = true ∨ Honest parts part (run part outcome)

/-- Where a submitted task is, in `RunIntoSlot`. -/
inductive Phase (T : Type) where
  | queued
  | running (sawStop : Bool)
  | ran (result : Result T)
  | stored
  /-- Its future is completed. -/
  | completed

/-- One step of the thread that runs a task. A read of the stop flag that finds it false changes
nothing. -/
inductive Phase.Moves (parts : Parts T) (stop : Bool) (part : Nat) : Phase T → Phase T → Prop
  | start : Moves parts stop part .queued (.running false)
  | observe (raised : stop = true) : Moves parts stop part (.running false) (.running true)
  | finish (sawStop : Bool) (outcome : Outcome T) (allowed : Allows parts sawStop part outcome) :
      Moves parts stop part (.running sawStop) (.ran (run part outcome))
  | store (result : Result T) : Moves parts stop part (.ran result) .stored
  | complete : Moves parts stop part .stored .completed

structure PartTask (T : Type) where
  part : Nat
  phase : Phase T

inductive Reply (T : Type) where
  | next (result : Result T)
  | stop

/-- The result of a call of `Next`. -/
def Reply.result? : Reply T → Option (Result T)
  | .next result => some result
  | .stop => none

/-- Why the parts in flight are dropped: to run the next part again alone, or in `Stop`, with
what the call returns then. -/
inductive Reason (T : Type) where
  | retry
  | reply (reply : Reply T)

inductive Pc (T : Type) where
  | idle
  /-- In `Submit`: of `Take`, or of `Next` once it has its part's value. -/
  | submitting (taken : Option T)
  /-- `Take` waits for the future it took off the front. -/
  | waiting (future : Nat)
  | taking
  /-- About to raise the stop flag. -/
  | stopping (reason : Reason T)
  | dropping (reason : Reason T)
  | retrying
  /-- `Take` has returned. -/
  | delivering (result : Result T)
  /-- A signed overflow: what follows is undefined. -/
  | overflowed

end PartScheduler

open PartScheduler

structure PartScheduler (T : Type) where
  window : Int
  nextSubmit : Nat := 0
  nextResult : Nat := 0
  stopped : Bool := false
  /-- The futures of the parts in flight. -/
  inFlight : List Nat := []
  /-- `Shared::stop`. -/
  stop : Bool := false
  /-- `Shared::slots`. -/
  slots : Nat → Option (Result T) := fun _ => none
  /-- Every task submitted so far, by its future. -/
  tasks : List (PartTask T) := []
  pc : Pc T := .idle
  /-- What the calls returned so far. -/
  replies : List (Reply T) := []
  /-- What the parts run again alone returned. -/
  alone : Nat → Option (Result T) := fun _ => none

namespace PartScheduler

variable {T : Type}

def maxWindow (parts : Parts T) : Int := if parts.window < 1 then 1 else parts.window

def make (parts : Parts T) : PartScheduler T := { window := maxWindow parts }

def noPartsLeft : Result T := .error (.invalid "part scheduler: no parts left")

def done (parts : Parts T) (s : PartScheduler T) : Bool :=
  s.stopped || decide (s.nextResult ≥ parts.numParts)

def returns (s : PartScheduler T) (reply : Reply T) : PartScheduler T :=
  { s with pc := .idle, replies := s.replies ++ [reply] }

/-- `Next` is called. -/
def next (parts : Parts T) (s : PartScheduler T) : PartScheduler T :=
  if s.done parts then s.returns (.next noPartsLeft) else { s with pc := .submitting none }

/-- `Stop` is called. -/
def stopCall (s : PartScheduler T) : PartScheduler T :=
  { s with stopped := true, pc := .stopping (.reply .stop) }

/-- Whether `Submit` submits another part, where the budget is under pressure or not. -/
def submitsMore (parts : Parts T) (pressure : Bool) (s : PartScheduler T) : Bool :=
  !s.stopped && decide (s.nextSubmit < parts.numParts) && decide (s.inFlight.length < s.window) &&
    !(!s.inFlight.isEmpty && pressure)

/-- One turn of the loop of `Submit`. -/
def submitPart (s : PartScheduler T) : PartScheduler T :=
  { s with
    inFlight := s.inFlight ++ [s.tasks.length]
    tasks := s.tasks ++ [⟨s.nextSubmit, .queued⟩]
    nextSubmit := s.nextSubmit + 1 }

/-- `Shared::TakeSlot`: the result, and the slots left. -/
def takeSlot (s : PartScheduler T) (part : Nat) : Result T × (Nat → Option (Result T)) :=
  match s.slots part with
  | some result => (result, Function.update s.slots part none)
  | none =>
    (.error (.invalid ("part scheduler: no result for part " ++ toString part)), s.slots)

def completed (s : PartScheduler T) (future : Nat) : Bool :=
  match s.tasks[future]? with
  | some ⟨_, .completed⟩ => true
  | _ => false

/-- `Take` takes its part's slot: out of memory in parallel is tried again. -/
def take (s : PartScheduler T) : PartScheduler T :=
  let taken := s.takeSlot s.nextResult
  { s with
    slots := taken.2
    pc := if taken.1.isOutOfMemory then .stopping .retry else .delivering taken.1 }

/-- The end of `Drop`: nothing is in flight any more. -/
def dropped (s : PartScheduler T) : PartScheduler T :=
  { s with inFlight := [], slots := fun _ => none }

/-- What follows a `Drop`. -/
def resume (s : PartScheduler T) : Reason T → PartScheduler T
  | .retry =>
    { s with stop := false, nextSubmit := s.nextResult + 1, window := 1, pc := .retrying }
  | .reply reply => s.returns reply

/-- `Next` has its part's result. -/
def deliver (parts : Parts T) (pressure : Bool) (s : PartScheduler T) :
    Result T → PartScheduler T
  | .error status =>
    { s with
      nextResult := s.nextResult + 1
      stopped := true
      pc := .stopping (.reply (.next (.error status))) }
  | .ok value =>
    let taken := { s with nextResult := s.nextResult + 1, pc := .submitting (some value) }
    if pressure then { taken with window := max 1 (s.window / 2) }
    else
      match int64 (s.window + 1) with
      | .ok wider => { taken with window := min (maxWindow parts) wider }
      | .error _ => { taken with pc := .overflowed }

/-- One step of the scheduler's thread: `none` where it waits. `pressure` is the budget's answer,
`outcome` how a run on this thread ends. -/
def advance (parts : Parts T) (pressure : Bool) (outcome : Outcome T) (s : PartScheduler T) :
    Option (PartScheduler T) :=
  match s.pc with
  | .idle | .overflowed => none
  | .submitting taken =>
    if s.submitsMore parts pressure then some s.submitPart
    else
      match taken, s.inFlight with
      | some value, _ => some (s.returns (.next (.ok value)))
      | none, future :: rest => some { s with inFlight := rest, pc := .waiting future }
      -- the front of an empty deque
      | none, [] => none
  | .waiting future => if s.completed future then some { s with pc := .taking } else none
  | .taking => some s.take
  | .stopping reason => some { s with stop := true, pc := .dropping reason }
  | .dropping reason =>
    if s.inFlight.all s.completed then some (s.dropped.resume reason) else none
  | .retrying =>
    some { s with
      alone := Function.update s.alone s.nextResult (some (run s.nextResult outcome))
      pc := .delivering (run s.nextResult outcome) }
  | .delivering result => some (s.deliver parts pressure result)

/-- The slots after a task's step: `RunIntoSlot` stores its result. -/
def slotsAfter (slots : Nat → Option (Result T)) (task : PartTask T) : Nat → Option (Result T) :=
  match task.phase with
  | .ran result => Function.update slots task.part (some result)
  | _ => slots

def move (s : PartScheduler T) (future : Nat) (task : PartTask T) (phase : Phase T) :
    PartScheduler T :=
  { s with
    tasks := s.tasks.set future ⟨task.part, phase⟩
    slots := slotsAfter s.slots task }

/-- A step of a call in progress, or of a task. -/
inductive Works (parts : Parts T) : PartScheduler T → PartScheduler T → Prop
  | scheduler (s t : PartScheduler T) (pressure : Bool) (outcome : Outcome T)
      (allowed : s.pc = .retrying → Allows parts s.stop s.nextResult outcome)
      (advanced : s.advance parts pressure outcome = some t) : Works parts s t
  | task (s : PartScheduler T) (future : Nat) (task : PartTask T) (phase : Phase T)
      (submitted : s.tasks[future]? = some task)
      (moves : Phase.Moves parts s.stop task.part task.phase phase) :
      Works parts s (s.move future task phase)

/-- A step of the whole: the consumer calls `Next` or `Stop` when no call is in progress. -/
inductive Step (parts : Parts T) : PartScheduler T → PartScheduler T → Prop
  | next (s : PartScheduler T) (idle : s.pc = .idle) : Step parts s (s.next parts)
  | stop (s : PartScheduler T) (idle : s.pc = .idle) : Step parts s s.stopCall
  | works (s t : PartScheduler T) (works : Works parts s t) : Step parts s t

def Reachable (parts : Parts T) (s : PartScheduler T) : Prop :=
  Relation.ReflTransGen (Step parts) (make parts) s

/-- A scheduler that runs each part when `Next` reaches it. -/
structure Serial where
  nextResult : Nat := 0
  stopped : Bool := false

namespace Serial

def done (parts : Parts T) (s : Serial) : Bool :=
  s.stopped || decide (s.nextResult ≥ parts.numParts)

/-- `Next` without an executor, where the run of a part returns its outcome. -/
def next (parts : Parts T) (outcome : Nat → Result T) (s : Serial) : Serial × Result T :=
  if s.done parts then (s, noPartsLeft)
  else
    match outcome s.nextResult with
    | .ok value => (⟨s.nextResult + 1, s.stopped⟩, .ok value)
    | .error status => (⟨s.nextResult + 1, true⟩, .error status)

/-- A call as the reply says it was made, and what it returns. -/
def call (parts : Parts T) (outcome : Nat → Result T) (s : Serial) : Reply T → Serial × Reply T
  | .next _ => let (s, result) := s.next parts outcome; (s, .next result)
  | .stop => (⟨s.nextResult, true⟩, .stop)

/-- The scheduler after the calls that got `replies`, if it gives the same ones. -/
inductive Replies (parts : Parts T) (outcome : Nat → Result T) : List (Reply T) → Serial → Prop
  | none : Replies parts outcome [] {}
  | call (replies : List (Reply T)) (s : Serial) (reply : Reply T)
      (before : Replies parts outcome replies s) (same : (s.call parts outcome reply).2 = reply) :
      Replies parts outcome (replies ++ [reply]) (s.call parts outcome reply).1

end Serial

/-- What each part returned when it was run without others, or else its fixed result. -/
def outcome (parts : Parts T) (s : PartScheduler T) (part : Nat) : Result T :=
  (s.alone part).getD (parts.result part)

/-- The part `Take` has taken off the front and `Next` has not returned yet. -/
def inHand (s : PartScheduler T) : Nat :=
  match s.pc with
  | .waiting _ | .taking | .stopping .retry | .dropping .retry | .retrying | .delivering _ => 1
  | _ => 0

def partOf (tasks : List (PartTask T)) (future : Nat) : Option Nat :=
  (tasks[future]?).map PartTask.part

/-- A part is in flight, or finished and not taken. -/
def Untaken (s : PartScheduler T) (part : Nat) : Prop :=
  (∃ task ∈ s.tasks, task.part = part ∧ task.phase ≠ .completed) ∨ (s.slots part).isSome

/-- What `Next` returned, call by call. -/
def results (replies : List (Reply T)) : List (Result T) := replies.filterMap Reply.result?

/-- The scheduler is as good as running the parts one after another. -/
structure RunsSerially (parts : Parts T) (s : PartScheduler T) : Prop where
  defined : s.pc ≠ .overflowed
  /-- Between calls, a scheduler without an executor has given the same replies. -/
  serial : s.pc = .idle →
    Serial.Replies parts (s.outcome parts) s.replies ⟨s.nextResult, s.stopped⟩
  /-- Up to the first failure, the i-th result is that of part i, and out of memory only where it
  was so when the part ran alone; `Next` fails otherwise only where there is no part i. -/
  inOrder : ∀ i result, (results s.replies)[i]? = some result →
    (∀ earlier ∈ (results s.replies).take i, earlier.isOk = true) →
    i < parts.numParts ∧ Honest parts i result ∧
      (result.isOutOfMemory = true → s.alone i = some result) ∨
    result = noPartsLeft ∧ (i = parts.numParts ∨ .stop ∈ s.replies)
  window : ((s.inHand + s.inFlight.length : Nat) : Int) ≤ max 1 parts.window
  untaken : ∀ part, s.Untaken part →
    s.nextResult ≤ part ∧ part < s.nextResult + (s.inHand + s.inFlight.length)
  tracked : ∀ future task, s.tasks[future]? = some task → task.phase ≠ .completed →
    future ∈ s.inFlight ∨ s.pc = .waiting future
  consecutive : s.inFlight.map (partOf s.tasks) =
    (List.range' (s.nextResult + s.inHand) s.inFlight.length).map some
  /-- Once `Stop` has returned, on its own or in a `Next` that failed. -/
  stopped : s.pc = .idle → s.stopped = true →
    (∀ task ∈ s.tasks, task.phase = .completed) ∧ s.inFlight = [] ∧ ∀ part, s.slots part = none
  stopReply : .stop ∈ s.replies → s.stopped = true
  /-- However the call in progress goes on, it returns. -/
  ends : Acc (fun t s => Works parts s t) s
  returns : ∃ t, Relation.ReflTransGen (Works parts) s t ∧ t.pc = .idle

end PartScheduler

end Antb1.Exec
