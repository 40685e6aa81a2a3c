import Antb1.Plan.JoinTreeProofs

/-! The steps that a tree is emitted as, children before parents, are an order. -/
namespace Antb1.Plan.JoinOrder

open Graph Finset
open scoped List

variable {g : JoinGraph} {t : JoinTree} {operand : JoinOperand}

/-- An operand of the steps that emit a tree: one of its relations, or one of those steps. -/
def Own (t : JoinTree) (first last : Nat) (operand : JoinOperand) : Prop :=
  if operand.step then first ≤ operand.index ∧ operand.index < last
  else operand.index ∈ t.relations

/-- Steps `new` after `steps` that join a tree, with `operand` naming the result. -/
structure Emission (g : JoinGraph) (t : JoinTree) (steps new : List JoinStep)
    (operand : JoinOperand) : Prop where
  count : new.length + 1 = t.relations.card
  once : (operand :: operands new).Nodup
  own : ∀ other ∈ operand :: operands new, Own t steps.length (steps.length + new.length) other
  earlier : ∀ k step, new[k]? = some step →
    Known g.relations.length (steps.length + k) step.left ∧
      Known g.relations.length (steps.length + k) step.right
  set : setOf (belowFrom [] (steps ++ new)) operand = t.relations
  keys : List.Forall₂ (fun step sets => step.edges = g.between sets.1 sets.2) new
    (inputsFrom (belowFrom [] steps) new)
  linked : ∀ step ∈ new, step.edges ≠ []
  total : g.totalRows (inputsFrom (belowFrom [] steps) new) = t.cost g
  edges : ∀ e, (new.flatMap (·.edges)).count e =
    if e < g.edges.length ∧ (g.edgeAt e).a ∈ t.relations ∧ (g.edgeAt e).b ∈ t.relations then 1 else 0

theorem mem_between {l r : RelationSet} {e : Nat} : e ∈ g.between l r ↔ e < g.edges.length ∧
    (((g.edgeAt e).a ∈ l ∧ (g.edgeAt e).b ∈ r) ∨ ((g.edgeAt e).b ∈ l ∧ (g.edgeAt e).a ∈ r)) := by
  rw [JoinGraph.between, List.mem_filter, List.mem_range, decide_eq_true_eq]

theorem between_comm (l r : RelationSet) : g.between l r = g.between r l := by
  refine List.filter_congr fun e _ => ?_
  rw [decide_eq_decide]
  tauto

theorem edgeAt_mem {e : Nat} (inside : e < g.edges.length) : g.edgeAt e ∈ g.edges := by
  rw [JoinGraph.edgeAt, List.getD_eq_getElem _ _ inside]
  exact List.getElem_mem inside

theorem between_of_linked {l r : RelationSet} (linked : Linked g.Adj l r) : g.between l r ≠ [] := by
  obtain ⟨u, inLeft, v, inRight, edge, among, ends⟩ := linked
  obtain ⟨e, inside, rfl⟩ := List.mem_iff_getElem.mp among
  have isEdge : g.edgeAt e = g.edges[e] := List.getD_eq_getElem _ _ inside
  refine List.ne_nil_of_mem (a := e) (mem_between.mpr ⟨inside, ?_⟩)
  rw [isEdge]
  rcases ends with ⟨rfl, rfl⟩ | ⟨rfl, rfl⟩
  · exact .inl ⟨inLeft, inRight⟩
  · exact .inr ⟨inLeft, inRight⟩

theorem Emission.leaf (g : JoinGraph) (r : Nat) (steps : List JoinStep) :
    Emission g (.leaf r) steps [] ⟨false, r⟩ where
  count := rfl
  once := List.nodup_singleton _
  own := by
    intro other among
    rw [List.mem_singleton.mp among]
    exact mem_singleton_self r
  earlier := by simp
  set := rfl
  keys := .nil
  linked := by simp
  total := rfl
  edges := by
    intro e
    rw [if_neg]
    · rfl
    · rintro ⟨inside, left, right⟩
      have apart := (g.ends _ (edgeAt_mem inside)).2.2
      rw [JoinTree.relations, mem_singleton] at left right
      exact apart (left.trans right.symm)

theorem Own.known (inside : ∀ r ∈ t.relations, r < g.relations.length) {first last : Nat}
    (own : Own t first last operand) : Known g.relations.length last operand := by
  unfold Own at own
  unfold Known
  split_ifs at own ⊢
  · exact own.2
  · exact inside _ own

theorem Own.mono {first last last' : Nat} (own : Own t first last operand) (later : last ≤ last') :
    Own t first last' operand := by
  unfold Own at own ⊢
  split_ifs at own ⊢
  · exact ⟨own.1, own.2.trans_le later⟩
  · exact own

section Node

variable {l r : JoinTree} {steps newL newR : List JoinStep} {first second : JoinOperand}

theorem own_node {operand : JoinOperand} :
    (Own l steps.length (steps.length + newL.length) operand →
      Own (.node l r) steps.length (steps.length + (newL ++ newR).length) operand) ∧
    (Own r (steps ++ newL).length ((steps ++ newL).length + newR.length) operand →
      Own (.node l r) steps.length (steps.length + (newL ++ newR).length) operand) := by
  unfold Own
  simp only [List.length_append, JoinTree.relations, mem_union]
  split_ifs
  · omega
  · exact ⟨.inl, .inr⟩

theorem once_node (apart : Disjoint l.relations r.relations)
    (left : Emission g l steps newL first) (right : Emission g r (steps ++ newL) newR second) :
    ((first :: operands newL) ++ (second :: operands newR)).Nodup := by
  refine List.nodup_append'.mpr ⟨left.once, right.once, fun operand inLeft inRight => ?_⟩
  have ownLeft := left.own operand inLeft
  have ownRight := right.own operand inRight
  unfold Own at ownLeft ownRight
  rw [List.length_append] at ownRight
  split_ifs at ownLeft ownRight
  · omega
  · exact disjoint_left.mp apart ownLeft ownRight

theorem count_between (apart : Disjoint l.relations r.relations) (e : Nat) :
    (if e < g.edges.length ∧ (g.edgeAt e).a ∈ l.relations ∧ (g.edgeAt e).b ∈ l.relations
      then 1 else 0) +
    (if e < g.edges.length ∧ (g.edgeAt e).a ∈ r.relations ∧ (g.edgeAt e).b ∈ r.relations
      then 1 else 0) + (g.between l.relations r.relations).count e =
    if e < g.edges.length ∧ (g.edgeAt e).a ∈ l.relations ∪ r.relations ∧
      (g.edgeAt e).b ∈ l.relations ∪ r.relations then 1 else 0 := by
  have nodup : (g.between l.relations r.relations).Nodup := List.nodup_range.filter _
  rw [nodup.count]
  simp only [mem_between, mem_union]
  have notA : (g.edgeAt e).a ∈ l.relations → (g.edgeAt e).a ∉ r.relations :=
    fun inLeft => disjoint_left.mp apart inLeft
  have notB : (g.edgeAt e).b ∈ l.relations → (g.edgeAt e).b ∉ r.relations :=
    fun inLeft => disjoint_left.mp apart inLeft
  grind

/-- What the steps of a node take: the results of its sides, and what their own steps take. -/
theorem operands_node {step : JoinStep}
    (inputs_ : (step.left = first ∧ step.right = second) ∨ (step.left = second ∧ step.right = first)) :
    (operands (newL ++ newR ++ [step])).Perm
      ((first :: operands newL) ++ (second :: operands newR)) := by
  have two : [step.left, step.right].Perm [first, second] := by
    rcases inputs_ with ⟨rfl, rfl⟩ | ⟨rfl, rfl⟩
    · rfl
    · exact List.Perm.swap _ _ _
  have sides : operands (newL ++ newR) = operands newL ++ operands newR := List.flatMap_append
  rw [operands_append, sides]
  calc operands newL ++ operands newR ++ [step.left, step.right]
    _ ~ operands newL ++ operands newR ++ [first, second] := two.append_left _
    _ ~ [first, second] ++ (operands newL ++ operands newR) := List.perm_append_comm
    _ = first :: second :: (operands newL ++ operands newR) := rfl
    _ ~ first :: (operands newL ++ second :: operands newR) := List.perm_middle.symm.cons first

theorem inputsFrom_node (step : JoinStep) :
    inputsFrom (belowFrom [] steps) (newL ++ newR ++ [step]) =
      inputsFrom (belowFrom [] steps) newL ++ inputsFrom (belowFrom [] (steps ++ newL)) newR ++
        [(setOf (belowFrom [] (steps ++ newL ++ newR)) step.left,
          setOf (belowFrom [] (steps ++ newL ++ newR)) step.right)] := by
  rw [inputsFrom_append, inputsFrom_append, ← belowFrom_append, ← belowFrom_append,
    ← List.append_assoc]
  rfl

/-- What is below the results of the two sides, once both are emitted. -/
theorem below_node (joined : l.Joined g) (left : Emission g l steps newL first)
    (right : Emission g r (steps ++ newL) newR second) :
    setOf (belowFrom [] (steps ++ newL ++ newR)) first = l.relations ∧
      setOf (belowFrom [] (steps ++ newL ++ newR)) second = r.relations := by
  refine ⟨?_, right.set⟩
  have known : Known g.relations.length (belowFrom [] (steps ++ newL)).length first := by
    rw [length_belowFrom, List.length_append, List.length_nil, Nat.zero_add]
    exact (left.own first List.mem_cons_self).known joined.lt
  rw [belowFrom_append, setOf_belowFrom known, left.set]

theorem Emission.node (joined : (JoinTree.node l r).Joined g) (left : Emission g l steps newL first)
    (right : Emission g r (steps ++ newL) newR second) {step : JoinStep}
    (inputs_ : (step.left = first ∧ step.right = second) ∨ (step.left = second ∧ step.right = first))
    (keys : step.edges = g.between l.relations r.relations) :
    Emission g (.node l r) steps (newL ++ newR ++ [step])
      ⟨true, steps.length + (newL ++ newR).length⟩ := by
  have inside := JoinTree.Joined.lt joined
  obtain ⟨joinedL, joinedR, apart, linked⟩ := joined
  have taken := @operands_node newL newR first second step inputs_
  have own : ∀ operand ∈ operands (newL ++ newR ++ [step]),
      Own (.node l r) steps.length (steps.length + (newL ++ newR).length) operand := by
    intro operand among
    rcases List.mem_append.mp (taken.mem_iff.mp among) with among | among
    · exact own_node.1 (left.own operand among)
    · exact own_node.2 (right.own operand among)
  have below := below_node joinedL left right
  have sets : (setOf (belowFrom [] (steps ++ newL ++ newR)) step.left = l.relations ∧
      setOf (belowFrom [] (steps ++ newL ++ newR)) step.right = r.relations) ∨
      (setOf (belowFrom [] (steps ++ newL ++ newR)) step.left = r.relations ∧
      setOf (belowFrom [] (steps ++ newL ++ newR)) step.right = l.relations) := by
    rcases inputs_ with ⟨rfl, rfl⟩ | ⟨rfl, rfl⟩
    · exact .inl below
    · exact .inr below.symm
  have input := @inputsFrom_node steps newL newR step
  constructor
  case count =>
    have countL := left.count
    have countR := right.count
    rw [JoinTree.relations, card_union_of_disjoint apart]
    simp only [List.length_append, List.length_cons, List.length_nil]
    omega
  case once =>
    refine List.nodup_cons.mpr ⟨fun among => ?_, taken.nodup_iff.mpr (once_node apart left right)⟩
    have bound := own _ among
    exact lt_irrefl _ bound.2
  case own =>
    intro operand among
    rcases List.mem_cons.mp among with rfl | among
    · exact ⟨Nat.le_add_right _ _, by simp⟩
    · exact (own operand among).mono (by simp)
  case earlier =>
    intro k other found
    by_cases isLast : k = (newL ++ newR).length
    · rw [isLast, List.getElem?_concat_length] at found
      cases found
      rw [isLast]
      exact ⟨(own _ (by simp [operands])).known inside, (own _ (by simp [operands])).known inside⟩
    have bound := (List.getElem?_eq_some_iff.mp found).1
    rw [List.length_append, List.length_singleton] at bound
    rw [List.getElem?_append_left (by omega)] at found
    by_cases isLeft : k < newL.length
    · rw [List.getElem?_append_left isLeft] at found
      exact left.earlier k other found
    · rw [List.getElem?_append_right (not_lt.mp isLeft)] at found
      have known := right.earlier _ other found
      rw [List.length_append, Nat.add_assoc, Nat.add_sub_cancel' (not_lt.mp isLeft)] at known
      exact known
  case set =>
    have size : (belowFrom [] (steps ++ newL ++ newR)).length = steps.length + (newL ++ newR).length := by
      rw [length_belowFrom, List.append_assoc, List.length_append, List.length_nil, Nat.zero_add]
    rw [← List.append_assoc, ← List.append_assoc, belowFrom_append, ← size, belowFrom, belowFrom,
      setOf_last, JoinTree.relations]
    rcases sets with ⟨isLeft, isRight⟩ | ⟨isLeft, isRight⟩
    · rw [isLeft, isRight]
    · rw [isLeft, isRight, union_comm]
  case keys =>
    rw [input]
    refine List.rel_append (List.rel_append left.keys right.keys) (.cons ?_ .nil)
    rcases sets with ⟨isLeft, isRight⟩ | ⟨isLeft, isRight⟩
    · rw [isLeft, isRight, keys]
    · rw [isLeft, isRight, keys, between_comm]
  case linked =>
    intro other among
    rcases List.mem_append.mp among with among | among
    · rcases List.mem_append.mp among with among | among
      · exact left.linked other among
      · exact right.linked other among
    · rw [List.mem_singleton.mp among, keys]
      exact between_of_linked linked
  case total =>
    rw [input, totalRows_append, totalRows_append, left.total, right.total, JoinTree.cost]
    rcases sets with ⟨isLeft, isRight⟩ | ⟨isLeft, isRight⟩
    · rw [isLeft, isRight, totalRows_cons]
      exact congrArg _ (Int.add_zero _)
    · rw [isLeft, isRight, totalRows_cons, stepRows_comm]
      exact congrArg _ (Int.add_zero _)
  case edges =>
    intro e
    rw [List.flatMap_append, List.flatMap_append, List.count_append, List.count_append, left.edges,
      right.edges, List.flatMap_singleton, keys, count_between apart]
    rfl

end Node

/-- Every tree without a cross product is emitted by some steps, with the joins of the tree. -/
theorem JoinTree.Joined.exists_emission (joined : t.Joined g) (steps : List JoinStep) :
    ∃ new operand, Emission g t steps new operand ∧
      t.joins ⊆ inputsFrom (belowFrom [] steps) new := by
  induction t generalizing steps with
  | leaf r => exact ⟨[], _, .leaf g r steps, List.Subset.refl _⟩
  | node l r ihl ihr =>
    obtain ⟨newL, first, left, isLeft⟩ := ihl joined.1 steps
    obtain ⟨newR, second, right, isRight⟩ := ihr joined.2.1 (steps ++ newL)
    let step : JoinStep := ⟨first, second, g.between l.relations r.relations, .right, 0⟩
    refine ⟨newL ++ newR ++ [step], _, left.node joined right (.inl ⟨rfl, rfl⟩) rfl, ?_⟩
    obtain ⟨below, below'⟩ := below_node joined.1 left right
    rw [inputsFrom_node, below, below']
    intro pair among
    simp only [JoinTree.joins, List.mem_append] at among ⊢
    exact among.imp_left (Or.imp (fun isJoin => isLeft isJoin) fun isJoin => isRight isJoin)

theorem IsOrder.links {steps : List JoinStep} (order : IsOrder g steps) :
    ∀ sets ∈ inputs steps, Linked g.Adj sets.1 sets.2 := by
  have linked := order.linked
  have keys := order.keys
  generalize inputs steps = sets at keys ⊢
  clear order
  induction keys with
  | nil => exact nofun
  | cons isKeys _ ih =>
    obtain ⟨some_, others⟩ := List.forall_mem_cons.mp linked
    exact List.forall_mem_cons.mpr ⟨between_ne_nil (isKeys ▸ some_), ih others⟩

theorem Emission.isOrder {steps : List JoinStep} (emission : Emission g t [] steps operand)
    (whole : t.relations = Finset.range g.relations.length) : IsOrder g steps where
  count := by rw [emission.count, whole, card_range]
  earlier := by
    intro k step found
    have known := emission.earlier k step found
    rwa [List.length_nil, Nat.zero_add] at known
  once := emission.once.of_cons
  keys := emission.keys
  linked := emission.linked

theorem Emission.count_edges {steps : List JoinStep} (emission : Emission g t [] steps operand)
    (whole : t.relations = Finset.range g.relations.length) (e : Nat) :
    (steps.flatMap (·.edges)).count e = if e < g.edges.length then 1 else 0 := by
  rw [emission.edges, whole]
  refine if_congr (and_iff_left_of_imp fun inside => ?_) rfl rfl
  obtain ⟨left, right, -⟩ := g.ends _ (edgeAt_mem inside)
  exact ⟨mem_range.mpr left, mem_range.mpr right⟩

end Antb1.Plan.JoinOrder
