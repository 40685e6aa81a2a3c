import Antb1.Lib.Results
import Antb1.Plan.JoinTree

/-! Steps and trees: the steps of an order build one tree of the same cost, and the steps that a
tree is emitted as are an order. -/
namespace Antb1.Plan.JoinOrder

open Graph List

variable {g : JoinGraph} {below : List RelationSet} {cost : Int}

/-- No step's rows and those of its smaller input exceed int64_t together. -/
def Fits (g : JoinGraph) (steps : List JoinStep) : Prop :=
  ∀ sets ∈ inputs steps, g.stepRows sets.1 sets.2 ≤ kLargest

theorem totalRows_le {sets : List (RelationSet × RelationSet)}
    (fits : ∀ set ∈ sets, g.stepRows set.1 set.2 ≤ kLargest) :
    g.totalRows sets ≤ sets.length * kLargest := by
  induction sets with
  | nil => exact le_rfl
  | cons set rest ih =>
    obtain ⟨first, others⟩ := forall_mem_cons.mp fits
    have most := ih others
    rw [totalRows_cons, length_cons]
    push_cast
    linarith

theorem length_inputsFrom (below : List RelationSet) (steps : List JoinStep) :
    (inputsFrom below steps).length = steps.length := by
  induction steps generalizing below with
  | nil => rfl
  | cons step steps ih => exact congrArg (· + 1) (ih _)

theorem foldlM_costStep {steps : List JoinStep}
    (fits : ∀ set ∈ inputsFrom below steps, g.stepRows set.1 set.2 ≤ kLargest) (nonneg : 0 ≤ cost)
    (small : cost + g.totalRows (inputsFrom below steps) < 2 ^ 127) :
    steps.foldlM (costStep g) (below, cost) =
      .ok (belowFrom below steps, cost + g.totalRows (inputsFrom below steps)) := by
  induction steps generalizing below cost with
  | nil => simp [inputsFrom, belowFrom, JoinGraph.totalRows, pure, Except.pure]
  | cons step steps ih =>
    rw [inputsFrom] at fits small
    obtain ⟨first, others⟩ := forall_mem_cons.mp fits
    have least := @stepRows_nonneg g (setOf below step.left) (setOf below step.right)
    rw [totalRows_cons] at small
    dsimp only at first small
    have rest := @totalRows_nonneg g (inputsFrom
      (below ++ [setOf below step.left ∪ setOf below step.right]) steps)
    have stepped : costStep g (below, cost) step =
        .ok (below ++ [setOf below step.left ∪ setOf below step.right],
          cost + g.stepRows (setOf below step.left) (setOf below step.right)) := by
      have held : InInt64 (g.stepRows (setOf below step.left) (setOf below step.right)) := by
        unfold InInt64
        unfold kLargest at first
        omega
      have held128 : InInt128 (cost + g.stepRows (setOf below step.left) (setOf below step.right)) := by
        unfold InInt128
        omega
      have isStep : costStep g (below, cost) step =
          int64 (g.stepRows (setOf below step.left) (setOf below step.right)) >>= fun added =>
            int128 (cost + added) >>= fun cost =>
              .ok (below ++ [setOf below step.left ∪ setOf below step.right], cost) := rfl
      rw [isStep, int64_ok held, Lib.ok_bind, int128_ok held128, Lib.ok_bind]
    rw [foldlM_cons, stepped, Lib.ok_bind, ih others (by omega) (by omega), belowFrom, inputsFrom,
      totalRows_cons, Int.add_assoc]

/-- Where no step overflows, the cost is the saturated sum of the steps'. -/
theorem orderCost_eq {steps : List JoinStep} (fits : Fits g steps) (few : steps.length ≤ 32) :
    orderCost g steps = .ok (saturated (g.totalRows (inputs steps))) := by
  have most := totalRows_le fits
  have length := length_inputsFrom [] steps
  have small : 0 + g.totalRows (inputsFrom [] steps) < 2 ^ 127 := by
    unfold inputs at most
    unfold kLargest at most
    rw [length] at most
    omega
  rw [orderCost, foldlM_costStep fits le_rfl small, Lib.ok_bind, Int.zero_add]
  rfl

theorem fits_of_foldlM {steps : List JoinStep} {state : List RelationSet × Int}
    (ok : steps.foldlM (costStep g) (below, cost) = .ok state) :
    ∀ sets ∈ inputsFrom below steps, g.stepRows sets.1 sets.2 ≤ kLargest := by
  induction steps generalizing below cost with
  | nil => exact nofun
  | cons step steps ih =>
    rw [foldlM_cons] at ok
    obtain ⟨⟨_, _⟩, stepped, rest⟩ := Lib.bind_ok ok
    obtain ⟨added, isAdded, stepped⟩ := Lib.bind_ok stepped
    obtain ⟨_, _, stepped⟩ := Lib.bind_ok stepped
    cases stepped
    refine forall_mem_cons.mpr ⟨?_, ih rest⟩
    have held := int64_held isAdded
    unfold InInt64 at held
    unfold kLargest JoinGraph.stepRows
    dsimp only at held ⊢
    omega

/-- A cost that is defined is one of steps none of which overflows. -/
theorem fits_of_orderCost {steps : List JoinStep} (ok : orderCost g steps = .ok cost) :
    Fits g steps := by
  obtain ⟨state, folded, -⟩ := Lib.bind_ok ok
  exact fits_of_foldlM folded

/-- The trees that steps have built so far, by the operands that name them: each step takes two and
gives one. -/
inductive Forest (n : Nat) : List JoinStep → List (JoinOperand × JoinTree) → Prop where
  | start : Forest n [] ((List.range n).map fun r => (⟨false, r⟩, .leaf r))
  | join {steps : List JoinStep} {step : JoinStep} {forest rest : List (JoinOperand × JoinTree)}
      {l r : JoinTree} (built : Forest n steps forest)
      (takes : forest.Perm ((step.left, l) :: (step.right, r) :: rest)) :
      Forest n (steps ++ [step]) ((⟨true, steps.length⟩, .node l r) :: rest)

theorem operands_append (steps : List JoinStep) (step : JoinStep) :
    operands (steps ++ [step]) = operands steps ++ [step.left, step.right] := by
  rw [operands, flatMap_append]
  rfl

theorem known_succ {n k : Nat} {operand : JoinOperand} (known : Known n (k + 1) operand) :
    operand = ⟨true, k⟩ ∨ Known n k operand := by
  obtain ⟨step, index⟩ := operand
  unfold Known at known ⊢
  cases step with
  | false => exact .inr known
  | true =>
    simp only [if_true] at known ⊢
    rcases Nat.lt_succ_iff_lt_or_eq.mp known with less | rfl
    · exact .inr less
    · exact .inl rfl

theorem exists_forest {n : Nat} {steps : List JoinStep}
    (earlier : ∀ k step, steps[k]? = some step → Known n k step.left ∧ Known n k step.right)
    (once : (operands steps).Nodup) :
    ∃ forest, Forest n steps forest ∧
      ∀ operand, Known n steps.length operand → operand ∈ operands steps ∨ ∃ t, (operand, t) ∈ forest := by
  induction steps using List.reverseRecOn with
  | nil =>
    refine ⟨_, .start, fun operand known => .inr ?_⟩
    obtain ⟨step, index⟩ := operand
    cases step with
    | false =>
      have inside : index < n := known
      exact ⟨.leaf index, mem_map.mpr ⟨index, mem_range.mpr inside, rfl⟩⟩
    | true => exact absurd known (Nat.not_lt_zero _)
  | append_singleton steps step ih =>
    rw [operands_append, nodup_append'] at once
    obtain ⟨before, two, apart⟩ := once
    have known := earlier steps.length step getElem?_concat_length
    obtain ⟨forest, built, complete⟩ := ih (fun k other found => earlier k other (by
      rw [List.getElem?_append_left (List.getElem?_eq_some_iff.mp found).1, found])) before
    obtain ⟨l, isLeft⟩ := (complete _ known.1).resolve_left fun used =>
      apart used mem_cons_self
    obtain ⟨r, isRight⟩ := (complete _ known.2).resolve_left fun used =>
      apart used (mem_cons_of_mem _ mem_cons_self)
    -- The two inputs differ, so the forest has a place for each.
    have first := perm_cons_erase isLeft
    have second : (step.right, r) ∈ forest.erase (step.left, l) := by
      rcases mem_cons.mp (first.mem_iff.mp isRight) with same | among
      · have clash : step.right = step.left := (Prod.ext_iff.mp same).1
        simp [clash] at two
      · exact among
    have takes := first.trans ((perm_cons_erase second).cons _)
    refine ⟨_, .join built takes, fun operand isKnown => ?_⟩
    rw [length_append] at isKnown
    rw [operands_append, mem_append]
    rcases known_succ isKnown with rfl | isKnown
    · exact .inr ⟨_, mem_cons_self⟩
    rcases complete operand isKnown with used | ⟨t, among⟩
    · exact .inl (.inl used)
    · rcases mem_cons.mp (takes.mem_iff.mp among) with same | among
      · cases same
        exact .inl (.inr mem_cons_self)
      rcases mem_cons.mp among with same | among
      · cases same
        exact .inl (.inr (mem_cons_of_mem _ mem_cons_self))
      · exact .inr ⟨t, mem_cons_of_mem _ among⟩

section Forest

variable {n : Nat} {steps : List JoinStep} {forest : List (JoinOperand × JoinTree)}
  {operand : JoinOperand}

theorem Forest.length (built : Forest n steps forest) : forest.length + steps.length = n := by
  induction built with
  | start => simp
  | join _ takes ih =>
    have size := takes.length_eq
    simp only [length_cons, length_append, length_nil] at size ⊢
    omega

theorem Forest.leaves (built : Forest n steps forest) :
    (forest.map (·.2.leaves)).sum = Multiset.range n := by
  induction built with
  | start =>
    have singles : ∀ list : List Nat, (list.map fun r => ({r} : Multiset Nat)).sum = list := by
      intro list
      induction list with
      | nil => rfl
      | cons r list ih => rw [map_cons, sum_cons, ih, ← Multiset.cons_coe, Multiset.singleton_add]
    rw [List.map_map]
    exact singles (List.range n)
  | join _ takes ih =>
    rw [← ih, (takes.map _).sum_eq]
    simp [JoinTree.leaves, add_assoc]

theorem inputs_append (steps : List JoinStep) (step : JoinStep) :
    inputs (steps ++ [step]) = inputs steps ++
      [(setOf (belowFrom [] steps) step.left, setOf (belowFrom [] steps) step.right)] := by
  rw [inputs, inputsFrom_append]
  rfl

theorem setOf_last (below : List RelationSet) (set : RelationSet) :
    setOf (below ++ [set]) ⟨true, below.length⟩ = set := by
  simp [setOf]

theorem Forest.sets (built : Forest n steps forest) {t : JoinTree} (among : (operand, t) ∈ forest) :
    setOf (belowFrom [] steps) operand = t.relations ∧ Known n steps.length operand := by
  induction built generalizing operand t with
  | start =>
    obtain ⟨r, inside, same⟩ := mem_map.mp among
    cases same
    exact ⟨rfl, mem_range.mp inside⟩
  | @join steps step forest rest l r built takes ih =>
    have size : (belowFrom [] steps).length = steps.length := by
      rw [length_belowFrom]
      exact Nat.zero_add _
    have after : belowFrom [] (steps ++ [step]) = belowFrom [] steps ++
        [setOf (belowFrom [] steps) step.left ∪ setOf (belowFrom [] steps) step.right] := by
      rw [belowFrom_append]
      rfl
    have left := (ih (takes.mem_iff.mpr mem_cons_self)).1
    have right := (ih (takes.mem_iff.mpr (mem_cons_of_mem _ mem_cons_self))).1
    rcases mem_cons.mp among with same | among
    · cases same
      rw [after, ← size, setOf_last, left, right]
      refine ⟨rfl, ?_⟩
      rw [length_append, size]
      exact Nat.lt_succ_self _
    · obtain ⟨isSet, known⟩ := ih (takes.mem_iff.mpr (mem_cons_of_mem _ (mem_cons_of_mem _ among)))
      constructor
      · rw [belowFrom_append, setOf_belowFrom (by rwa [size]), isSet]
      · unfold Known at known ⊢
        rw [length_append]
        split_ifs at known ⊢
        · exact known.trans (Nat.lt_succ_self _)
        · exact known

theorem Forest.total (built : Forest n steps forest) :
    (forest.map (·.2.cost g)).sum = g.totalRows (inputs steps) := by
  induction built with
  | start =>
    rw [List.map_map]
    exact sum_eq_zero fun cost among => by
      obtain ⟨r, -, rfl⟩ := mem_map.mp among
      rfl
  | @join steps step forest rest l r built takes ih =>
    have left := (built.sets (takes.mem_iff.mpr mem_cons_self)).1
    have right := (built.sets (takes.mem_iff.mpr (mem_cons_of_mem _ mem_cons_self))).1
    rw [inputs_append, totalRows_append, ← ih, (takes.map _).sum_eq, left, right]
    simp only [map_cons, sum_cons, JoinTree.cost, JoinGraph.totalRows, map_nil,
      sum_nil]
    omega

/-- Where an edge joins the inputs of every step, the trees have no cross product. -/
theorem Forest.joined (built : Forest g.relations.length steps forest)
    (linked : ∀ sets ∈ inputs steps, Linked g.Adj sets.1 sets.2) {t : JoinTree}
    (among : (operand, t) ∈ forest) : t.Joined g := by
  induction built generalizing operand t with
  | start =>
    obtain ⟨r, inside, same⟩ := mem_map.mp among
    cases same
    exact mem_range.mp inside
  | @join steps step forest rest l r built takes ih =>
    have isLeft := takes.mem_iff.mpr (mem_cons_self (a := (step.left, l)))
    have isRight : (step.right, r) ∈ forest :=
      takes.mem_iff.mpr (mem_cons_of_mem _ mem_cons_self)
    have earlier : ∀ sets ∈ inputs steps, Linked g.Adj sets.1 sets.2 := fun sets isSets =>
      linked sets (by rw [inputs_append]; exact mem_append_left _ isSets)
    rcases mem_cons.mp among with same | among
    · cases same
      refine ⟨ih earlier isLeft, ih earlier isRight, ?_, ?_⟩
      · have nodup : Multiset.Nodup (forest.map (·.2.leaves)).sum := by
          rw [built.leaves]
          exact Multiset.nodup_range _
        rw [(takes.map _).sum_eq, map_cons, map_cons, sum_cons, sum_cons,
          ← add_assoc, Multiset.nodup_add] at nodup
        have apart := (Multiset.nodup_add.mp nodup.1).2.2
        rw [Finset.disjoint_left]
        intro i inLeft inRight
        exact Multiset.disjoint_left.mp apart (JoinTree.mem_leaves.mpr inLeft)
          (JoinTree.mem_leaves.mpr inRight)
      · have last := linked (_, _) (by rw [inputs_append]; exact mem_append_right _ mem_cons_self)
        rwa [(built.sets isLeft).1, (built.sets isRight).1] at last
    · exact ih earlier (takes.mem_iff.mpr (mem_cons_of_mem _ (mem_cons_of_mem _ among)))

theorem Forest.inputs_joined (built : Forest g.relations.length steps forest)
    (linked : ∀ sets ∈ inputs steps, Linked g.Adj sets.1 sets.2) :
    ∀ sets ∈ inputs steps, ∃ l r : JoinTree, (JoinTree.node l r).Joined g ∧
      sets = (l.relations, r.relations) := by
  induction built with
  | start => exact nofun
  | @join steps step forest rest l r built takes ih =>
    intro sets among
    rw [inputs_append] at among linked
    rcases mem_append.mp among with earlier | last
    · exact ih (fun sets among => linked sets (mem_append_left _ among)) sets earlier
    · refine ⟨l, r, (built.join takes).joined (by rwa [inputs_append]) mem_cons_self, ?_⟩
      rw [mem_singleton.mp last, (built.sets (takes.mem_iff.mpr mem_cons_self)).1,
        (built.sets (takes.mem_iff.mpr (mem_cons_of_mem _ mem_cons_self))).1]

end Forest

theorem between_ne_nil {l r : RelationSet} (some_ : g.between l r ≠ []) : Linked g.Adj l r := by
  obtain ⟨e, among⟩ := exists_mem_of_ne_nil _ some_
  obtain ⟨inside, ends⟩ := mem_filter.mp among
  rw [mem_range] at inside
  have isEdge : g.edgeAt e ∈ g.edges := by
    rw [JoinGraph.edgeAt, getD_eq_getElem _ _ inside]
    exact getElem_mem inside
  rcases of_decide_eq_true ends with ⟨left, right⟩ | ⟨left, right⟩
  · exact ⟨_, left, _, right, _, isEdge, .inl ⟨rfl, rfl⟩⟩
  · exact ⟨_, left, _, right, _, isEdge, .inr ⟨rfl, rfl⟩⟩

/-- Steps that are a tree, each joining linked inputs, cost what some tree of the relations without
a cross product does. -/
theorem IsTree.exists_tree {steps : List JoinStep} (order : IsTree g.relations.length steps)
    (links : ∀ sets ∈ inputs steps, Linked g.Adj sets.1 sets.2) :
    ∃ t : JoinTree, t.Joined g ∧ t.relations = Finset.range g.relations.length ∧
      t.cost g = g.totalRows (inputs steps) := by
  obtain ⟨forest, built, -⟩ := exists_forest order.earlier order.once
  have size := built.length
  have count := order.count
  obtain ⟨⟨operand, t⟩, rfl⟩ := length_eq_one_iff.mp (show forest.length = 1 by omega)
  refine ⟨t, built.joined links mem_cons_self, ?_, ?_⟩
  · have leaves := built.leaves
    simp only [map_cons, map_nil, sum_cons, sum_nil, add_zero] at leaves
    ext r
    rw [← JoinTree.mem_leaves, leaves, Multiset.mem_range, Finset.mem_range]
  · have total := built.total (g := g)
    simpa using total

theorem IsTree.count_relation {n : Nat} {steps : List JoinStep} (tree : IsTree n steps) (two : 2 ≤ n)
    {r : Nat} (inside : r < n) : (operands steps).count ⟨false, r⟩ = 1 := by
  obtain ⟨forest, built, complete⟩ := exists_forest tree.earlier tree.once
  have size := built.length
  have count := tree.count
  rw [tree.once.count, if_pos]
  refine (complete ⟨false, r⟩ inside).resolve_right ?_
  rintro ⟨t, among⟩
  -- The one tree that is left is the last step's.
  cases built with
  | start => simp at count; omega
  | @join _ _ _ rest _ _ _ takes =>
    rw [length_cons] at size
    obtain rfl := length_eq_zero_iff.mp (show rest.length = 0 by omega)
    simp at among

end Antb1.Plan.JoinOrder
