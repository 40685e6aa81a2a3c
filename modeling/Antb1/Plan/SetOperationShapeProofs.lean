import Antb1.Plan.SetOperationMeaning

/-! The shape of what the Build pass makes: a node over leaves that are read once and in written
order, with formulas that pass the check and new ids. -/
namespace Antb1.Plan.SetOperationBinder

open Sql List

theorem newIds_nodup (last : ColumnId) (count : Nat) : (newIds last count).Nodup :=
  nodup_range.map fun a b same => by simpa using same

theorem length_newIds (last : ColumnId) (count : Nat) : (newIds last count).length = count := by
  simp [newIds]

theorem mem_newIds {last id count : Nat} :
    id ∈ newIds last count ↔ last < id ∧ id ≤ last + count := by
  simp only [newIds, mem_map, mem_range]
  constructor
  · rintro ⟨i, bound, rfl⟩
    omega
  · rintro ⟨low, high⟩
    exact ⟨id - last - 1, by omega, by omega⟩

/-- New ids between two states of the id source. -/
structure Minted (last last' : Nat) (ids : List ColumnId) : Prop where
  le : last ≤ last'
  nodup : ids.Nodup
  new : ∀ id ∈ ids, last < id
  old : ∀ id ∈ ids, id ≤ last'

theorem Minted.nil (last : Nat) : Minted last last [] := ⟨le_rfl, nodup_nil, by simp, by simp⟩

theorem Minted.append {a b c : Nat} {ids ids' : List ColumnId} (first : Minted a b ids)
    (second : Minted b c ids') : Minted a c (ids ++ ids') where
  le := first.le.trans second.le
  nodup := nodup_append.mpr ⟨first.nodup, second.nodup, fun id inFirst id' inSecond => by
    rintro rfl
    exact absurd (first.old id inFirst) (not_le.mpr (second.new id inSecond))⟩
  new id member := by
    rcases mem_append.mp member with inside | inside
    · exact first.new id inside
    · exact lt_of_le_of_lt first.le (second.new id inside)
  old id member := by
    rcases mem_append.mp member with inside | inside
    · exact (first.old id inside).trans second.le
    · exact second.old id inside

theorem Minted.newIds (last count : Nat) : Minted last (last + count) (newIds last count) where
  le := Nat.le_add_right ..
  nodup := newIds_nodup ..
  new _ member := (mem_newIds.mp member).1
  old _ member := (mem_newIds.mp member).2

theorem AllBuiltOver.append {nodes nodes' leaves leaves' : List LogicalNode}
    {ids ids' : List ColumnId} (first : AllBuiltOver nodes leaves ids)
    (second : AllBuiltOver nodes' leaves' ids') :
    AllBuiltOver (nodes ++ nodes') (leaves ++ leaves') (ids ++ ids') := by
  match first with
  | .nil => exact second
  | .cons head tail =>
    rw [cons_append, append_assoc, append_assoc]
    exact .cons head (tail.append second)

def leafNodes (operands : List (SetTree Built)) : List LogicalNode :=
  (operands.flatMap SetTree.leaves).map Built.node

theorem leafNodes_run (op : SetOp) (all : Bool) (operands : List (SetTree Built)) :
    leafNodes [.run op all operands] = leafNodes operands := by
  simp [leafNodes, SetTree.leaves]

theorem leafNodes_append (operands operands' : List (SetTree Built)) :
    leafNodes (operands ++ operands') = leafNodes operands ++ leafNodes operands' := by
  simp [leafNodes]

/-- What the operands of a run add to a region with `first` inputs: terms the check
accepts, and inputs that read the operands' leaves in order. -/
structure Adds (first : Nat) (operands : List (SetTree Built)) (added : List Built)
    (terms : List SetTerm) (last last' : ColumnId) : Prop where
  enough : operands.length ≤ added.length
  checks : ∀ t depth, checkTerms t terms depth first =
    .ok (depth + operands.length, first + added.length)
  shaped : ∃ ids, AllBuiltOver (added.map Built.node) (leafNodes operands) ids ∧
    Minted last last' ids

theorem Adds.nil (first : Nat) (last : ColumnId) : Adds first [] [] [] last last where
  enough := le_rfl
  checks := fun _ _ => rfl
  shaped := ⟨[], .nil, .nil last⟩

theorem Adds.append {first : Nat} {operands operands' : List (SetTree Built)}
    {added added' : List Built} {terms terms' : List SetTerm} {a b c : ColumnId}
    (left : Adds first operands added terms a b)
    (right : Adds (first + added.length) operands' added' terms' b c) :
    Adds first (operands ++ operands') (added ++ added') (terms ++ terms') a c where
  enough := by simpa using Nat.add_le_add left.enough right.enough
  checks t depth := by
    rw [checkTerms_append, left.checks]
    simp only [right.checks, length_append, Nat.add_assoc]
  shaped := by
    obtain ⟨ids, shaped, minted⟩ := left.shaped
    obtain ⟨ids', shaped', minted'⟩ := right.shaped
    rw [map_append, leafNodes_append]
    exact ⟨ids ++ ids', shaped.append shaped', minted.append minted'⟩

theorem Adds.input {operand : SetTree Built} {built : Built} {last last' : ColumnId}
    (whole : ∃ ids, BuiltOver built.node (leafNodes [operand]) ids ∧ Minted last last' ids)
    (first : Nat) : Adds first [operand] [built] [⟨.input, first, 0⟩] last last' where
  enough := le_rfl
  checks t depth := by simp [checkTerms, checkTerm]
  shaped := by
    obtain ⟨ids, shaped, minted⟩ := whole
    exact ⟨ids, by simpa using AllBuiltOver.cons shaped .nil, minted⟩

theorem termKind_operator (op : SetOp) (all : Bool) : termKind op all ≠ .input := by
  cases op <;> cases all <;> simp [termKind]

theorem Adds.operator {first : Nat} {operands : List (SetTree Built)} {added : List Built}
    {terms : List SetTerm} {last last' : ColumnId}
    (adds : Adds first operands added terms last last') (two : 2 ≤ operands.length) (op : SetOp)
    (all : Bool) :
    Adds first [.run op all operands] added (terms ++ [⟨termKind op all, 0, operands.length⟩])
      last last' where
  enough := by
    have := adds.enough
    simp only [length_singleton]
    omega
  checks t depth := by
    have some : operands.length ≠ 0 := by omega
    have left : depth + operands.length - (operands.length - 1) = depth + 1 := by omega
    rw [checkTerms_append, adds.checks]
    simp [checkTerms, checkTerm, termKind_operator, some, left]
  shaped := by
    rw [leafNodes_run]
    exact adds.shaped

/-- The formula of a region that holds exactly one run is accepted. -/
theorem Adds.checked {operands : List (SetTree Built)} {added : List Built}
    {terms : List SetTerm} {last last' : ColumnId} (adds : Adds 0 operands added terms last last')
    (two : 2 ≤ operands.length) (op : SetOp) (all : Bool) :
    added ≠ [] ∧ checkSetFormula (terms ++ [⟨termKind op all, 0, operands.length⟩])
      added.length = none := by
  have check := (adds.operator two op all).checks 0 0
  simp only [length_singleton, Nat.zero_add] at check
  refine ⟨?_, by simp [checkSetFormula, check, termKind_operator]⟩
  rintro rfl
  have := adds.enough
  simp only [length_nil] at this
  omega

/-- A node that `Finish` makes over inputs mints its own ids after theirs. -/
theorem Minted.finish {last last' : ColumnId} {ids : List ColumnId} (minted : Minted last last' ids)
    (make : List LogicalNode → List (List BoundColumn) → List ColumnId → LogicalNode)
    (inputs : List Built) :
    Minted last (SetOperationBinder.finish make inputs last').2
      (ids ++ SetOperationBinder.newIds last' ((inputs.map Built.columns).headD []).length) :=
  minted.append (.newIds _ _)

end Antb1.Plan.SetOperationBinder
