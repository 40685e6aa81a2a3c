import Antb1.Lib.Subsets
import Antb1.Plan.SameExpr
import Antb1.Plan.SetOperationBinder

/-! GROUP BY in grouping-set syntax: the elements of `sql/ast.h`, and how `BindGroupBy`
(`plan/binder.cc`) expands them to sets of key numbers. How an expression binds is a
parameter: to what it is as a key, to nothing for a constant, or to an error. -/
namespace Antb1.Sql

/-- An element of ROLLUP or CUBE: an expression or a composite. -/
inductive GroupingItem (Expr : Type) where
  | expr (expr : Expr)
  | row (exprs : List Expr)

def GroupingItem.exprs {Expr : Type} : GroupingItem Expr → List Expr
  | .expr one => [one]
  | .row exprs => exprs

/-- An item of a GROUP BY list; GROUPING SETS has one member or more. -/
inductive GroupingElement (Expr : Type) where
  | expr (expr : Expr)
  | row (exprs : List Expr)
  | empty
  | rollup (items : List (GroupingItem Expr))
  | cube (items : List (GroupingItem Expr))
  | sets (first : GroupingElement Expr) (rest : List (GroupingElement Expr))

mutual

/-- `CollectGroupingExprs`. -/
def GroupingElement.exprs {Expr : Type} : GroupingElement Expr → List Expr
  | .expr one => [one]
  | .row exprs => exprs
  | .empty => []
  | .rollup items | .cube items => items.flatMap GroupingItem.exprs
  | .sets first rest => first.exprs ++ groupingExprs rest

/-- `GroupingExprs`: every expression of a list, in order. -/
def groupingExprs {Expr : Type} : List (GroupingElement Expr) → List Expr
  | [] => []
  | element :: rest => element.exprs ++ groupingExprs rest

end

end Antb1.Sql

namespace Antb1.Plan.GroupingSets

open Sql Lib

def kMaxGroupingSets : Nat := 65535

def limitError : BindFailure :=
  .error s!"Maximum grouping set count of {kMaxGroupingSets} exceeded"

/-- The key of a bound expression: a new one, or the earlier key of the same expression. -/
def add (keys : List Expr) (t : Expr) : Nat × List Expr :=
  match keys.findIdx? fun key => key.same t with
  | some k => (k, keys)
  | none => (keys.length, keys ++ [t])

/-- Every subset of CUBE's elements after the keys taken so far, depth first: the loop over
the elements left, each first taken and then passed by. -/
def subsetsFrom (current : List Nat) : List (List Nat) → List (List Nat)
  | [] => []
  | element :: rest =>
    normalized (current ++ element) :: subsetsFrom (current ++ element) rest ++
      subsetsFrom current rest

def subsets (elements : List (List Nat)) : List (List Nat) :=
  normalized [] :: subsetsFrom [] elements

def product (sets items : List (List Nat)) : List (List Nat) :=
  sets.flatMap fun set => items.map fun item => normalized (set ++ item)

section Binder

variable {α : Type} (bindItem : α → Except BindFailure (Option Expr))

/-- `key_of`: the number of an item's key, nothing for a constant. -/
def keyOf (expr : α) (keys : List Expr) : Except BindFailure (Option Nat × List Expr) := do
  match ← bindItem expr with
  | none => .ok (none, keys)
  | some t => .ok (some (add keys t).1, (add keys t).2)

def keysOf (place : String) : List α → List Expr → Except BindFailure (List Nat × List Expr)
  | [], keys => .ok ([], keys)
  | expr :: rest, keys => do
    match ← keyOf bindItem expr keys with
    | (none, _) => .error (.rejected s!"a constant {place} is not supported")
    | (some key, keys) =>
      let (others, keys) ← keysOf place rest keys
      .ok (key :: others, keys)

/-- ROLLUP's sets after the empty one, `taken` being the keys of the items before. -/
def rollupSets (taken : List Nat) : List (GroupingItem α) → List Expr →
    Except BindFailure (List (List Nat) × List Expr)
  | [], keys => .ok ([], keys)
  | item :: rest, keys => do
    let (numbers, keys) ← keysOf bindItem "in ROLLUP" item.exprs keys
    let (sets, keys) ← rollupSets (taken ++ numbers) rest keys
    .ok (normalized (taken ++ numbers) :: sets, keys)

def cubeElements : List (GroupingItem α) → List Expr →
    Except BindFailure (List (List Nat) × List Expr)
  | [], keys => .ok ([], keys)
  | item :: rest, keys => do
    let (numbers, keys) ← keysOf bindItem "in CUBE" item.exprs keys
    let (elements, keys) ← cubeElements rest keys
    .ok (numbers :: elements, keys)

mutual

/-- `expand`: the sets of one element. -/
def expand (place : String) : GroupingElement α → List Expr →
    Except BindFailure (List (List Nat) × List Expr)
  | .expr one, keys => do
    let (numbers, keys) ← keysOf bindItem place [one] keys
    .ok ([normalized numbers], keys)
  | .row exprs, keys => do
    let (numbers, keys) ← keysOf bindItem "in a composite grouping set" exprs keys
    .ok ([normalized numbers], keys)
  | .empty, keys => .ok ([normalized []], keys)
  | .rollup items, keys => do
    let (sets, keys) ← rollupSets bindItem [] items keys
    .ok ([] :: sets, keys)
  | .cube items, keys => do
    let (elements, keys) ← cubeElements bindItem items keys
    if 16 ≤ elements.length then .error limitError else .ok (subsets elements, keys)
  | .sets first rest, keys => do
    let (inner, keys) ← expand "in GROUPING SETS" first keys
    if kMaxGroupingSets < inner.length then .error limitError
    else expandSets inner rest keys

/-- The members of GROUPING SETS after `sets`. -/
def expandSets (sets : List (List Nat)) : List (GroupingElement α) → List Expr →
    Except BindFailure (List (List Nat) × List Expr)
  | [], keys => .ok (sets, keys)
  | element :: rest, keys => do
    let (inner, keys) ← expand "in GROUPING SETS" element keys
    if kMaxGroupingSets < sets.length + inner.length then .error limitError
    else expandSets (sets ++ inner) rest keys

end

def expandItems (sets : List (List Nat)) : List (GroupingElement α) → List Expr →
    Except BindFailure (List (List Nat) × List Expr)
  | [], keys => .ok (sets, keys)
  | element :: rest, keys => do
    let (items, keys) ← expand bindItem "GROUP BY item next to grouping sets" element keys
    if kMaxGroupingSets < sets.length * items.length then .error limitError
    else expandItems (product sets items) rest keys

/-- One set of every key is a plain GROUP BY, which has no grouping sets. -/
def unlessPlain (sets : List (List Nat)) : List (List Nat) :=
  if sets.length = 1 ∧ sets ≠ [[]] then [] else sets

/-- `BindGroupBy` of a list in grouping-set syntax: `grouping_sets_` and the keys. -/
def bindGroupBy (elements : List (GroupingElement α)) :
    Except BindFailure (List (List Nat) × List Expr) := do
  let (sets, keys) ← expandItems bindItem [[]] elements []
  .ok (unlessPlain sets, keys)

end Binder

end Antb1.Plan.GroupingSets
