import Mathlib.Data.List.Dedup
import Antb1.Plan.SetFormula

/-! The one-pass set operation (`exec/set_operation.cc`). A row is its normalized
keys. The group table is a parameter: it numbers new keys after the ones it has, in
an order of its own. Memory accounting, profiling and the output batches are left
out. -/
namespace Antb1.Exec

open Plan

/-- The order in which a group table numbers the new keys of a batch. -/
structure Numbering (Key : Type) where
  fresh : List Key → List Key → List Key
  nodup : ∀ groups rows, (fresh groups rows).Nodup
  mem_iff : ∀ groups rows key, key ∈ fresh groups rows ↔ key ∈ rows ∧ key ∉ groups

def Numbering.firstSeen (Key : Type) [DecidableEq Key] : Numbering Key where
  fresh groups rows := (rows.filter (· ∉ groups)).dedup
  nodup _ _ := List.nodup_dedup _
  mem_iff groups rows key := by simp

/-- The groups in group order and, per input, the membership of each group: a
presence bit or a count. -/
structure SetOperationState (Key : Type) where
  groups : List Key := []
  bits : Nat → List Int := fun _ => []
  counts : Nat → List Int := fun _ => []

section Build

variable {Key : Type} [DecidableEq Key] (numbering : Numbering Key) (starters counted : List Bool)

def isSet (marks : List Bool) (k : Nat) : Bool := marks.getD k false

def resize (groups : Nat) (values : List Int) : List Int :=
  values ++ List.replicate (groups - values.length) 0

/-- `Grow`: every membership gets room for the new groups. -/
def grow (state : SetOperationState Key) : SetOperationState Key :=
  let room (values : List Int) := resize state.groups.length values
  { state with
    bits := fun k => if isSet counted k then state.bits k else room (state.bits k)
    counts := fun k => if isSet counted k then room (state.counts k) else state.counts k }

def lookup (groups rows : List Key) : List Nat := rows.filterMap groups.idxOf?

/-- Counts or marks groups `ids` of input `k`. -/
def mark (k : Nat) (ids : List Nat) (state : SetOperationState Key) : SetOperationState Key :=
  if isSet counted k then
    let counts := ids.foldl (fun values group => values.modify group (· + 1)) (state.counts k)
    { state with counts := Function.update state.counts k counts }
  else
    let bits := ids.foldl (fun values group => values.set group 1) (state.bits k)
    { state with bits := Function.update state.bits k bits }

/-- One batch of input `k`: a starter inserts its rows' groups, another input looks
its rows up in the groups there are. -/
def readBatch (k : Nat) (state : SetOperationState Key) (rows : List Key) :
    SetOperationState Key :=
  if rows = [] then state
  else if isSet starters k then
    let groups := state.groups ++ numbering.fresh state.groups rows
    mark counted k (lookup groups rows) (grow counted { state with groups := groups })
  else mark counted k (lookup state.groups rows) state

def readInputs : Nat → List (List (List Key)) → SetOperationState Key → SetOperationState Key
  | _, [], state => state
  | k, batches :: rest, state =>
    readInputs (k + 1) rest (batches.foldl (readBatch numbering starters counted k) state)

/-- `Build` up to `Evaluate`: the inputs are read in written order. -/
def buildGroups (inputs : List (List (List Key))) : SetOperationState Key :=
  grow counted (readInputs numbering starters counted 0 inputs {})

end Build

section Evaluate

def startValue (kind : SetTermKind) (x : Int) : Int :=
  match kind with
  | .union | .intersect | .except => if x > 0 then 1 else 0
  | .intersectAll | .exceptAll | .input => x

def combineValue (kind : SetTermKind) (out x : Int) : Int :=
  match kind with
  | .union => if out ≠ 0 ∨ x > 0 then 1 else 0
  | .intersect => if out ≠ 0 ∧ x > 0 then 1 else 0
  | .except => if out ≠ 0 ∧ x = 0 then 1 else 0
  | .intersectAll => min out x
  | .exceptAll => max (out - x) 0
  | .input => out

/-- `Combine`, one operand at a time over all of a chunk's groups. -/
def combine {n : Nat} (kind : SetTermKind) : List (Vector Int n) → Vector Int n
  | [] => Vector.replicate n 0
  | first :: rest => rest.foldl (Vector.zipWith (combineValue kind)) (first.map (startValue kind))

def kMaxMergeChunk : Nat := 64 * 1024

variable {Key : Type} (formula : List SetTerm) (counted : List Bool)

def memberships (state : SetOperationState Key) (k : Nat) : List Int :=
  if isSet counted k then state.counts k else state.bits k

/-- The copies of `n` groups from group `first` on. -/
def evaluateChunk (state : SetOperationState Key) (first n : Nat) : Vector Int n :=
  let leaf (input : Nat) : Vector Int n :=
    Vector.ofFn fun i => (memberships counted state input).getD (first + i) 0
  match Postfix.run leaf combine (formula.map SetTerm.action) [] with
  | some stack => stack.getLast?.getD (Vector.replicate n 0)
  | none => Vector.replicate n 0

/-- `Evaluate`: the copies of the groups from `first` on, chunk by chunk. -/
def evaluate (state : SetOperationState Key) (first : Nat) : List Int :=
  if first < state.groups.length then
    (evaluateChunk formula counted state first
      (min state.groups.length (first + kMaxMergeChunk) - first)).toList ++
      evaluate state (first + kMaxMergeChunk)
  else []
termination_by state.groups.length - first
decreasing_by
  have : 0 < kMaxMergeChunk := by decide
  omega

end Evaluate

/-- `SetOperationOperator::Build`: the groups and the copies of each. -/
def build {Key : Type} [DecidableEq Key] (numbering : Numbering Key) (formula : List SetTerm)
    (inputs : List (List (List Key))) : List Key × List Int :=
  let starters := setStarters formula inputs.length
  let counted := setCounted formula inputs.length
  let state := buildGroups numbering starters counted inputs
  (state.groups, evaluate formula counted state 0)

end Antb1.Exec
