import Mathlib.Algebra.BigOperators.Group.Finset.Basic

/-! The memory budget of a session and the reservations charged to it
(`exec/memory_budget.cc`), used by concurrent callers. A call is the sequence of its
atomic steps; the texts of its errors are left out. -/
namespace Antb1.Exec

/-- A budget's limit and its two atomic counters. -/
structure MemoryBudget where
  limit : Option Int
  used : Int := 0
  peak : Int := 0
  deriving DecidableEq, Repr

namespace MemoryBudget

def wrap (x : Int) : Int := x.bmod (2 ^ 64)

inductive Phase where
  /-- `used_.fetch_add` of Charge, for a backend's allocation or a reservation. -/
  | add (bytes : Int) (forBackend : Bool)
  /-- Charge passed the limit. -/
  | takeBack (bytes : Int)
  | loadPeak (bytes now : Int) (forBackend : Bool)
  | raisePeak (bytes now peak : Int) (forBackend : Bool)
  /-- The backend's turn, with the bytes to uncharge after it. -/
  | backend (onFailure onSuccess : Option Int)
  | uncharge (bytes : Int) (ok : Bool)
  | returned (ok : Bool)
  deriving DecidableEq, Repr

def charged (bytes : Int) (forBackend : Bool) : Phase :=
  if forBackend then .backend (some bytes) none else .returned true

/-- One atomic step. `choice` is the backend's answer, and whether a weak compare-exchange that
may succeed does. -/
def advance (budget : MemoryBudget) (choice : Bool) : Phase → MemoryBudget × Phase
  | .add bytes forBackend =>
    let now := wrap (budget.used + bytes)
    ({ budget with used := now },
      if budget.limit.any (now > ·) then .takeBack bytes else .loadPeak bytes now forBackend)
  | .takeBack bytes => ({ budget with used := wrap (budget.used - bytes) }, .returned false)
  | .loadPeak bytes now forBackend => (budget, .raisePeak bytes now budget.peak forBackend)
  | .raisePeak bytes now peak forBackend =>
    if now > peak then
      if budget.peak = peak ∧ choice then
        ({ budget with peak := now }, charged bytes forBackend)
      else (budget, .raisePeak bytes now budget.peak forBackend)
    else (budget, charged bytes forBackend)
  | .backend onFailure onSuccess =>
    (budget, match if choice then onSuccess else onFailure with
      | some bytes => .uncharge bytes choice
      | none => .returned choice)
  | .uncharge bytes ok => ({ budget with used := wrap (budget.used - bytes) }, .returned ok)
  | .returned ok => (budget, .returned ok)

/-- The calls of `MemoryBudget`, then those of `MemoryReservation`. -/
inductive Call where
  | allocate (size : Int)
  | reallocate (oldSize newSize : Int)
  | free (size : Int)
  | reserve (bytes : Int)
  | release (bytes : Int)
  | resize (bytes : Int)
  | releaseAll
  deriving DecidableEq, Repr

/-- One that calls the budget: the bytes granted to it directly and not given back, and the
reservation it owns. -/
structure Caller where
  granted : Int := 0
  /-- `bytes_` of the reservation. -/
  reservation : Int := 0
  /-- Whether the reservation has a budget. -/
  hasBudget : Bool := true
  /-- The call in progress. -/
  running : Option (Call × Phase) := none
  deriving DecidableEq, Repr

def reserve (bytes : Int) : Phase := if bytes ≤ 0 then .returned true else .add bytes false

def release (bytes : Int) : Phase := if bytes > 0 then .uncharge bytes true else .returned true

namespace Caller

def start (caller : Caller) : Call → Phase
  | .allocate size => .add size true
  | .reallocate oldSize newSize =>
    let growth := newSize - oldSize
    if growth > 0 then .add growth true
    else .backend none (if growth < 0 then some (-growth) else none)
  | .free size => .uncharge size true
  | .reserve bytes => MemoryBudget.reserve bytes
  | .release bytes => MemoryBudget.release bytes
  | .resize bytes =>
    if caller.hasBudget then
      if bytes > caller.reservation then MemoryBudget.reserve (bytes - caller.reservation)
      else MemoryBudget.release (caller.reservation - bytes)
    else .returned true
  | .releaseAll =>
    if caller.hasBudget then MemoryBudget.release caller.reservation else .returned true

def settled (caller : Caller) : Call → Caller
  | .allocate size => { caller with granted := caller.granted + size }
  | .reallocate oldSize newSize => { caller with granted := caller.granted + (newSize - oldSize) }
  | .free size => { caller with granted := caller.granted - size }
  | .reserve bytes => { caller with granted := caller.granted + bytes }
  | .release bytes => { caller with granted := caller.granted - bytes }
  | .resize bytes => { caller with reservation := bytes }
  | .releaseAll => { caller with reservation := 0 }

def place (caller : Caller) (call : Call) : Phase → Caller
  | .returned ok => { (if ok then caller.settled call else caller) with running := none }
  | phase => { caller with running := some (call, phase) }

/-- The bytes granted to a caller: a reservation without a budget is charged nowhere. -/
def held (caller : Caller) : Int :=
  caller.granted + if caller.hasBudget then caller.reservation else 0

/-- Sizes are not negative, and what is given back was granted before. -/
def Allows (caller : Caller) : Call → Prop
  | .allocate size => 0 ≤ size
  | .reallocate oldSize newSize => 0 ≤ oldSize ∧ 0 ≤ newSize ∧ oldSize ≤ caller.granted
  | .free size => 0 ≤ size ∧ size ≤ caller.granted
  | .reserve bytes => 0 ≤ bytes
  | .release bytes => 0 ≤ bytes ∧ bytes ≤ caller.granted
  | .resize bytes => 0 ≤ bytes
  | .releaseAll => True

def gain (caller : Caller) (call : Call) : Int := (caller.settled call).held - caller.held

end Caller

/-- The bytes of a call in progress that the counter holds beside the granted ones. -/
def Phase.pending : Phase → Int
  | .add _ _ | .returned _ => 0
  | .takeBack bytes | .loadPeak bytes _ _ | .raisePeak bytes _ _ _ => bytes
  | .backend onFailure _ => onFailure.getD 0
  | .uncharge bytes ok => if ok then 0 else bytes

def Phase.accepted : Phase → Int
  | .takeBack _ => 0
  | phase => phase.pending

def Phase.demand : Phase → Int
  | .add bytes _ => bytes
  | phase => phase.pending

def Caller.weigh (caller : Caller) (weight : Phase → Int) : Int :=
  caller.held + (caller.running.map fun call => weight call.2).getD 0

end MemoryBudget

open MemoryBudget

structure BudgetState (C : Type) where
  budget : MemoryBudget
  callers : C → Caller

namespace BudgetState

variable {C : Type} [DecidableEq C]

def begin_ (s : BudgetState C) (c : C) (call : Call) : BudgetState C :=
  ⟨s.budget, Function.update s.callers c
    ((s.callers c).place call ((s.callers c).start call))⟩

def work (s : BudgetState C) (c : C) (call : Call) (phase : Phase) (choice : Bool) :
    BudgetState C :=
  let next := s.budget.advance choice phase
  ⟨next.1, Function.update s.callers c ((s.callers c).place call next.2)⟩

/-- Granted bytes pass from one caller to another, as a buffer does. -/
def hand (s : BudgetState C) (giver taker : C) (bytes : Int) : BudgetState C :=
  let given := Function.update s.callers giver
    { s.callers giver with granted := (s.callers giver).granted - bytes }
  ⟨s.budget, Function.update given taker
    { given taker with granted := (given taker).granted + bytes }⟩

variable [Fintype C]

/-- The bytes granted and not given back. -/
def granted (s : BudgetState C) : Int := ∑ c, (s.callers c).held

/-- The bytes of the calls in progress that the counter holds. -/
def inProgress (s : BudgetState C) : Int :=
  ∑ c, ((s.callers c).running.map fun call => call.2.pending).getD 0

/-- The bytes every charge the limit let pass holds, also where its call has not returned. -/
def charges (s : BudgetState C) : Int := ∑ c, (s.callers c).weigh Phase.accepted

def demand (s : BudgetState C) : Int := ∑ c, (s.callers c).weigh Phase.demand

inductive Event (C : Type) where
  | begins (c : C) (call : Call)
  | works (c : C) (call : Call) (next : Phase)
  | hands

/-- One atomic step of the system. All sizes together stay below `2 ^ 63`. -/
inductive Step : BudgetState C → Event C → BudgetState C → Prop
  | begins (s : BudgetState C) (c : C) (call : Call) (idle : (s.callers c).running = none)
      (allowed : (s.callers c).Allows call)
      (fits : s.demand + max ((s.callers c).gain call) 0 < 2 ^ 63) :
      Step s (.begins c call) (s.begin_ c call)
  | works (s : BudgetState C) (c : C) (call : Call) (phase : Phase) (choice : Bool)
      (running : (s.callers c).running = some (call, phase)) :
      Step s (.works c call (s.budget.advance choice phase).2) (s.work c call phase choice)
  | hands (s : BudgetState C) (giver taker : C) (bytes : Int)
      (idle : (s.callers giver).running = none) (idle' : (s.callers taker).running = none)
      (positive : 0 ≤ bytes) (owned : bytes ≤ (s.callers giver).granted) :
      Step s .hands (s.hand giver taker bytes)

structure Initial (s : BudgetState C) : Prop where
  used : s.budget.used = 0
  peak : s.budget.peak = 0
  idle : ∀ c, (s.callers c).running = none
  granted : ∀ c, (s.callers c).granted = 0
  reservation : ∀ c, (s.callers c).reservation = 0

def Runs : BudgetState C → BudgetState C → Prop :=
  Relation.ReflTransGen fun s t => ∃ event, Step s event t

end BudgetState

end Antb1.Exec
