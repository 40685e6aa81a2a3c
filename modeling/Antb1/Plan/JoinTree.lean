import Antb1.Plan.JoinEnumerationProofs

/-! What a join order is: steps that form a tree over the relations, each joining its inputs by
every edge between them; and the trees that such steps stand for. -/
namespace Antb1.Plan.JoinOrder

open Graph Finset

def operands (steps : List JoinStep) : List JoinOperand :=
  steps.flatMap fun step => [step.left, step.right]

/-- A relation, or a step before the `k`th. -/
def Known (n k : Nat) (operand : JoinOperand) : Prop :=
  if operand.step then operand.index < k else operand.index < n

/-- The steps are a tree in dependency order: one join less than there are relations, each of two
inputs that are there and that no other join takes. -/
structure IsTree (n : Nat) (steps : List JoinStep) : Prop where
  count : steps.length + 1 = n
  earlier : ∀ k step, steps[k]? = some step → Known n k step.left ∧ Known n k step.right
  once : (operands steps).Nodup

/-- The relations below each step, after those below earlier ones. -/
def belowFrom (below : List RelationSet) : List JoinStep → List RelationSet
  | [] => below
  | step :: steps => belowFrom (below ++ [setOf below step.left ∪ setOf below step.right]) steps

def inputsFrom (below : List RelationSet) : List JoinStep → List (RelationSet × RelationSet)
  | [] => []
  | step :: steps =>
    (setOf below step.left, setOf below step.right) ::
      inputsFrom (below ++ [setOf below step.left ∪ setOf below step.right]) steps

def inputs (steps : List JoinStep) : List (RelationSet × RelationSet) := inputsFrom [] steps

def JoinGraph.between (g : JoinGraph) (l r : RelationSet) : List Nat :=
  (List.range g.edges.length).filter fun e =>
    ((g.edgeAt e).a ∈ l ∧ (g.edgeAt e).b ∈ r) ∨ ((g.edgeAt e).b ∈ l ∧ (g.edgeAt e).a ∈ r)

/-- A tree of the relations in which every step joins its inputs by all the edges between them, and
by one at least. -/
structure IsOrder (g : JoinGraph) (steps : List JoinStep) : Prop
    extends IsTree g.relations.length steps where
  keys : List.Forall₂ (fun step sets => step.edges = g.between sets.1 sets.2) steps (inputs steps)
  linked : ∀ step ∈ steps, step.edges ≠ []

/-- What a join of two sets costs: the rows it produces, and those of its smaller input. -/
def JoinGraph.stepRows (g : JoinGraph) (l r : RelationSet) : Int :=
  g.subsetRows (l ∪ r) + min (g.subsetRows l) (g.subsetRows r)

def JoinGraph.totalRows (g : JoinGraph) (sets : List (RelationSet × RelationSet)) : Int :=
  (sets.map fun set => g.stepRows set.1 set.2).sum

inductive JoinTree where
  | leaf (r : Nat)
  | node (left right : JoinTree)
  deriving DecidableEq, Repr

namespace JoinTree

def relations : JoinTree → RelationSet
  | .leaf r => {r}
  | .node l r => l.relations ∪ r.relations

def leaves : JoinTree → Multiset Nat
  | .leaf r => {r}
  | .node l r => l.leaves + r.leaves

def cost (g : JoinGraph) : JoinTree → Int
  | .leaf _ => 0
  | .node l r => l.cost g + r.cost g + g.stepRows l.relations r.relations

/-- Every join of the tree is one of disjoint sets that an edge joins. -/
def Joined (g : JoinGraph) : JoinTree → Prop
  | .leaf r => r < g.relations.length
  | .node l r => l.Joined g ∧ r.Joined g ∧ Disjoint l.relations r.relations ∧
      Linked g.Adj l.relations r.relations

def joins : JoinTree → List (RelationSet × RelationSet)
  | .leaf _ => []
  | .node l r => l.joins ++ r.joins ++ [(l.relations, r.relations)]

variable {g : JoinGraph} {t : JoinTree}

theorem Joined.connected (joined : t.Joined g) : Connected g.Adj t.relations := by
  induction t with
  | leaf r => exact connected_singleton r
  | node l r ihl ihr =>
    obtain ⟨left, right, -, linked⟩ := joined
    exact (ihl left).union adj_symm (ihr right) linked

theorem Joined.lt (joined : t.Joined g) : ∀ r ∈ t.relations, r < g.relations.length := by
  induction t with
  | leaf r =>
    intro i among
    rwa [mem_singleton.mp among]
  | node l r ihl ihr =>
    intro i among
    rcases mem_union.mp among with isLeft | isRight
    · exact ihl joined.1 i isLeft
    · exact ihr joined.2.1 i isRight

/-- A tree of a part of connected relations is a subtree of one of all of them. -/
theorem Joined.grow (joined : t.Joined g) {s : RelationSet} (connected : Connected g.Adj s)
    (part : t.relations ⊆ s) (inside : ∀ r ∈ s, r < g.relations.length) :
    ∃ whole : JoinTree, whole.Joined g ∧ whole.relations = s ∧ t.joins ⊆ whole.joins := by
  induction left : (s \ t.relations).card generalizing t with
  | zero =>
    have all : s ⊆ t.relations := sdiff_eq_empty_iff_subset.mp (card_eq_zero.mp left)
    exact ⟨t, joined, part.antisymm all, List.Subset.refl _⟩
  | succ left_ ih =>
    have proper : t.relations ⊂ s := by
      refine part.ssubset_of_ne fun same => ?_
      rw [same, sdiff_self] at left
      cases left
    obtain ⟨u, isU, v, outside, link⟩ := connected.linked proper joined.connected.1
    obtain ⟨isV, apart⟩ := mem_sdiff.mp outside
    have node : (JoinTree.node t (.leaf v)).Joined g :=
      ⟨joined, inside v isV, disjoint_singleton_right.mpr apart,
        u, isU, v, mem_singleton_self v, link⟩
    have less : (s \ (t.relations ∪ {v})).card = left_ := by
      have fewer : s \ (t.relations ∪ {v}) = (s \ t.relations).erase v := by
        ext r
        simp only [mem_sdiff, mem_union, mem_singleton, mem_erase]
        tauto
      rw [fewer, card_erase_of_mem outside, left]
      rfl
    obtain ⟨whole, isJoined, isWhole, within⟩ := ih node
      (union_subset part (singleton_subset_iff.mpr isV)) less
    refine ⟨whole, isJoined, isWhole, fun pair among => within ?_⟩
    exact List.mem_append_left _ (List.mem_append_left _ among)

theorem mem_leaves {r : Nat} : r ∈ t.leaves ↔ r ∈ t.relations := by
  induction t with
  | leaf i => simp [leaves, relations]
  | node l r ihl ihr => simp [leaves, relations, ihl, ihr]

end JoinTree

variable {g : JoinGraph}

theorem saturated_eq_min {count : Int} (nonneg : 0 ≤ count) : saturated count = min count kLargest := by
  unfold saturated InInt64 kLargest
  split_ifs <;> omega

theorem subsetRows_nonneg (set : RelationSet) : 0 ≤ g.subsetRows set := by
  unfold JoinGraph.subsetRows
  dsimp only
  split_ifs <;> omega

theorem stepRows_nonneg (l r : RelationSet) : 0 ≤ g.stepRows l r := by
  have whole := @subsetRows_nonneg g (l ∪ r)
  have left := @subsetRows_nonneg g l
  have right := @subsetRows_nonneg g r
  unfold JoinGraph.stepRows
  omega

theorem stepRows_comm (l r : RelationSet) : g.stepRows l r = g.stepRows r l := by
  rw [JoinGraph.stepRows, JoinGraph.stepRows, union_comm, min_comm]

theorem JoinTree.cost_nonneg (t : JoinTree) : 0 ≤ t.cost g := by
  induction t with
  | leaf r => exact le_rfl
  | node l r ihl ihr =>
    have step := @stepRows_nonneg g l.relations r.relations
    rw [cost]
    omega

theorem totalRows_append (first rest : List (RelationSet × RelationSet)) :
    g.totalRows (first ++ rest) = g.totalRows first + g.totalRows rest := by
  rw [JoinGraph.totalRows, List.map_append, List.sum_append]
  rfl

theorem totalRows_cons (set : RelationSet × RelationSet) (rest : List (RelationSet × RelationSet)) :
    g.totalRows (set :: rest) = g.stepRows set.1 set.2 + g.totalRows rest := rfl

theorem totalRows_nonneg (sets : List (RelationSet × RelationSet)) : 0 ≤ g.totalRows sets := by
  induction sets with
  | nil => exact le_rfl
  | cons set rest ih =>
    rw [totalRows_cons]
    exact add_nonneg (stepRows_nonneg _ _) ih

section

variable (below : List RelationSet)

theorem belowFrom_append (first rest : List JoinStep) :
    belowFrom below (first ++ rest) = belowFrom (belowFrom below first) rest := by
  induction first generalizing below with
  | nil => rfl
  | cons step first ih => exact ih _

theorem inputsFrom_append (first rest : List JoinStep) :
    inputsFrom below (first ++ rest) =
      inputsFrom below first ++ inputsFrom (belowFrom below first) rest := by
  induction first generalizing below with
  | nil => rfl
  | cons step first ih => exact congrArg _ (ih _)

theorem length_belowFrom (steps : List JoinStep) :
    (belowFrom below steps).length = below.length + steps.length := by
  induction steps generalizing below with
  | nil => rfl
  | cons step steps ih =>
    rw [belowFrom, ih, List.length_append, List.length_cons]
    exact Nat.add_right_comm _ _ _

theorem belowFrom_prefix (steps : List JoinStep) : below <+: belowFrom below steps := by
  induction steps generalizing below with
  | nil => exact List.prefix_rfl
  | cons step steps ih => exact (List.prefix_append _ _).trans (ih _)

end

theorem setOf_belowFrom {n : Nat} {below : List RelationSet} {operand : JoinOperand}
    (known : Known n below.length operand) (steps : List JoinStep) :
    setOf (belowFrom below steps) operand = setOf below operand := by
  unfold Known at known
  unfold setOf
  split_ifs at known ⊢
  · obtain ⟨more, isLater⟩ := belowFrom_prefix below steps
    rw [← isLater, List.getD_append _ _ _ _ known]
  · rfl

end Antb1.Plan.JoinOrder
