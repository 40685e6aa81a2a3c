import Antb1.Plan.JoinSearchProofs

/-! Both walks of `OrderJoins` end with an order of the relations, and the search's is a cheapest
one. -/
namespace Antb1.Plan.JoinOrder.Orderer

open Masks Graph Finset

variable {g : JoinGraph} {steps : List JoinStep}

/-- The relations joined so far are those of a tree that the steps emit. -/
def Walks (g : JoinGraph) (walk : Walk) : Prop :=
  ∃ t : JoinTree, Emission g t [] walk.steps walk.left ∧ t.Joined g ∧ t.relations = walk.joined

theorem crossing_eq {joined : RelationSet} {c : Nat} :
    crossing g joined c = g.between joined {c} := by
  rw [crossing, edgesOf, List.filter_filter, JoinGraph.between]
  refine List.filter_congr fun e inside => ?_
  have apart := (g.ends _ (edgeAt_mem (List.mem_range.mp inside))).2.2
  rw [Bool.eq_iff_iff]
  simp only [Bool.and_eq_true, decide_eq_true_eq, mem_singleton]
  constructor
  · rintro ⟨among, isA | isB⟩
    · rw [if_pos isA] at among
      exact .inr ⟨among, isA⟩
    · rw [if_neg fun isA => apart (isA.trans isB.symm)] at among
      exact .inl ⟨among, isB⟩
  · rintro (⟨among, isB⟩ | ⟨among, isA⟩)
    · refine ⟨?_, .inr isB⟩
      rwa [if_neg fun isA => apart (isA.trans isB.symm)]
    · refine ⟨?_, .inl isA⟩
      rwa [if_pos isA]

theorem estimate_isSome {joined : RelationSet} {c : Nat} {rows : Int} :
    (estimate g joined c rows).isSome = true ↔ Linked g.Adj joined {c} := by
  rw [estimate, crossing_eq]
  constructor
  · intro some_
    refine between_ne_nil fun none_ => ?_
    rw [if_pos none_] at some_
    cases some_
  · intro linked
    rw [if_neg (between_of_linked linked)]
    rfl

theorem pick_spec (walk : Walk) (found : Option (Nat × Int)) (c : Nat) :
    (pick g walk found c = found ∧ (c ∈ walk.joined ∨ found.isSome = true ∨
      (estimate g walk.joined c walk.rows).isSome = false)) ∨
    ∃ rows, pick g walk found c = some (c, rows) ∧ c ∉ walk.joined ∧
      (estimate g walk.joined c walk.rows).isSome = true := by
  unfold pick
  by_cases among : c ∈ walk.joined
  · exact .inl ⟨if_pos among, .inl among⟩
  · rw [if_neg among]
    cases estimated : estimate g walk.joined c walk.rows with
    | none => exact .inl ⟨rfl, .inr (.inr rfl)⟩
    | some rows =>
      cases found with
      | none => exact .inr ⟨rows, rfl, among, rfl⟩
      | some best =>
        dsimp only
        split_ifs
        · exact .inr ⟨rows, rfl, among, rfl⟩
        · exact .inl ⟨rfl, .inr (.inl rfl)⟩

theorem foldl_pick (walk : Walk) (list : List Nat) (found : Option (Nat × Int)) :
    (list.foldl (pick g walk) found = found ∧ (found.isSome = true ∨ ∀ c ∈ list, c ∉ walk.joined →
      (estimate g walk.joined c walk.rows).isSome = false)) ∨
    ∃ c ∈ list, ∃ rows, list.foldl (pick g walk) found = some (c, rows) ∧ c ∉ walk.joined ∧
      (estimate g walk.joined c walk.rows).isSome = true := by
  induction list generalizing found with
  | nil => exact .inl ⟨rfl, .inr (by simp)⟩
  | cons c list ih =>
    rw [List.foldl_cons]
    rcases pick_spec (g := g) walk found c with ⟨kept, why⟩ | ⟨rows, picked, outside, estimated⟩
    · rw [kept]
      rcases ih found with ⟨same, rest⟩ | ⟨other, among, later⟩
      · refine .inl ⟨same, ?_⟩
        rcases rest with some_ | none_
        · exact .inl some_
        · rcases why with among | some_ | unlinked
          · exact .inr (List.forall_mem_cons.mpr ⟨fun outside => absurd among outside, none_⟩)
          · exact .inl some_
          · exact .inr (List.forall_mem_cons.mpr ⟨fun _ => unlinked, none_⟩)
      · exact .inr ⟨other, List.mem_cons_of_mem _ among, later⟩
    · rw [picked]
      rcases ih (some (c, rows)) with ⟨same, -⟩ | ⟨other, among, later⟩
      · exact .inr ⟨c, List.mem_cons_self, rows, same, outside, estimated⟩
      · exact .inr ⟨other, List.mem_cons_of_mem _ among, later⟩

section

variable (connected : Connected g.Adj (Finset.range g.relations.length)) (ratio : Int)

include connected in
/-- While relations are left, one of them has an edge to those joined. -/
theorem next_spec {walk : Walk}
    (nonempty : walk.joined.Nonempty) (part : walk.joined ⊂ Finset.range g.relations.length) :
    ∃ c rows, next g walk = some (c, rows) ∧ c < g.relations.length ∧ c ∉ walk.joined ∧
      Linked g.Adj walk.joined {c} := by
  obtain ⟨u, inside, v, outside, link⟩ := connected.linked part nonempty
  obtain ⟨isRelation, isLeft⟩ := mem_sdiff.mp outside
  have linked : Linked g.Adj walk.joined {v} := ⟨u, inside, v, mem_singleton_self v, link⟩
  rcases foldl_pick (g := g) walk (List.range g.relations.length) none with ⟨-, none_⟩ | found
  · have unlinked := none_.resolve_left nofun v (List.mem_range.mpr (Finset.mem_range.mp isRelation)) isLeft
    rw [estimate_isSome.mpr linked] at unlinked
    cases unlinked
  · obtain ⟨c, among, rows, isNext, isOutside, estimated⟩ := found
    exact ⟨c, rows, isNext, List.mem_range.mp among, isOutside, estimate_isSome.mp estimated⟩

theorem add_walks {walk : Walk} (walks : Walks g walk) {c : Nat} (estimate : Int)
    (inside : c < g.relations.length) (outside : c ∉ walk.joined)
    (linked : Linked g.Adj walk.joined {c}) : Walks g (add g ratio walk c estimate) := by
  obtain ⟨t, emission, joined, isJoined⟩ := walks
  have node : (JoinTree.node t (.leaf c)).Joined g := by
    refine ⟨joined, inside, ?_, ?_⟩ <;> rw [isJoined]
    · exact disjoint_singleton_right.mpr outside
    · exact linked
  refine ⟨.node t (.leaf c), ?_, node, ?_⟩
  · let step : JoinStep :=
      { left := walk.left, right := ⟨false, c⟩, edges := crossing g walk.joined c,
        build := chooseBuildSide (some walk.rows) (g.relations.getD c ⟨none⟩).rows ratio, estimate }
    have keys : step.edges = g.between t.relations (JoinTree.leaf c).relations := by
      rw [isJoined]
      exact crossing_eq
    have emitted := emission.node node (Emission.leaf g c ([] ++ walk.steps)) (.inl ⟨rfl, rfl⟩) keys
    have after : Emission g (.node t (.leaf c)) [] (walk.steps ++ [step]) ⟨true, walk.steps.length⟩ := by
      simpa using emitted
    exact after
  · rw [JoinTree.relations, isJoined, add, insert_eq, union_comm]
    rfl

include connected in
theorem walkOn_spec {left : Nat} {walk : Walk} (walks : Walks g walk)
    (size : walk.joined.card + left = g.relations.length) :
    ∃ final, walkOn g ratio left walk = some final ∧ Walks g final ∧
      final.joined = Finset.range g.relations.length := by
  induction left generalizing walk with
  | zero =>
    obtain ⟨t, emission, joined, isJoined⟩ := walks
    refine ⟨walk, rfl, ⟨t, emission, joined, isJoined⟩, ?_⟩
    refine eq_of_subset_of_card_le (fun r among => ?_) ?_
    · rw [← isJoined] at among
      exact Finset.mem_range.mpr (joined.lt r among)
    · rw [card_range]
      omega
  | succ left ih =>
    obtain ⟨t, emission, joined, isJoined⟩ := walks
    have part : walk.joined ⊂ Finset.range g.relations.length := by
      refine Finset.ssubset_iff_subset_ne.mpr ⟨fun r among => ?_, fun same => ?_⟩
      · rw [← isJoined] at among
        exact Finset.mem_range.mpr (joined.lt r among)
      · rw [same, card_range] at size
        omega
    obtain ⟨c, rows, isNext, inside, outside, linked⟩ :=
      next_spec connected (isJoined ▸ joined.connected.1) part
    rw [walkOn, isNext]
    refine ih (add_walks ratio ⟨t, emission, joined, isJoined⟩ rows inside outside linked) ?_
    rw [add, card_insert_of_notMem outside]
    omega

theorem probe_lt (some_ : 0 < g.relations.length) : probe g < g.relations.length := by
  have folded : ∀ (list : List Nat) (first : Nat), (∀ r ∈ list, r < g.relations.length) →
      first < g.relations.length → list.foldl
        (fun probe r => if g.blockRows r > g.blockRows probe then r else probe) first <
          g.relations.length := by
    intro list
    induction list with
    | nil => exact fun _ _ inside => inside
    | cons r list ih =>
      intro first others inside
      obtain ⟨isRelation, others⟩ := List.forall_mem_cons.mp others
      refine ih _ others ?_
      dsimp only
      split_ifs
      · exact isRelation
      · exact inside
  refine folded _ 0 (fun r among => ?_) some_
  rw [List.mem_range'_1] at among
  omega

include connected in
theorem greedy_spec :
    ∃ t steps operand, greedy g ratio = some steps ∧ Emission g t [] steps operand ∧
      t.relations = Finset.range g.relations.length := by
  obtain ⟨r, isRelation⟩ := connected.1
  rw [mem_range] at isRelation
  unfold greedy
  by_cases one : g.relations.length < 2
  · have length : g.relations.length = 1 := by omega
    rw [if_pos one]
    refine ⟨.leaf 0, [], _, rfl, .leaf g 0 [], ?_⟩
    rw [length]
    rfl
  · have inside := probe_lt (g := g) (by omega)
    rw [if_neg one]
    dsimp only
    obtain ⟨final, walked, ⟨t, emission, -, isJoined⟩, whole⟩ :=
      @walkOn_spec g connected ratio (g.relations.length - 1)
        ⟨[], {probe g}, ⟨false, probe g⟩, g.blockRows (probe g)⟩
        ⟨.leaf (probe g), .leaf g _ [], inside, rfl⟩ (by
          rw [card_singleton]
          omega)
    rw [walked]
    exact ⟨t, final.steps, final.left, rfl, emission, isJoined.trans whole⟩

include connected in
theorem searched_spec (fits : g.relations.length ≤ 32) :
    ∃ t steps operand, searched g ratio = some steps ∧ Emission g t [] steps operand ∧
      t.relations = Finset.range g.relations.length ∧
      ∀ other : JoinTree, other.Joined g → other.relations = Finset.range g.relations.length →
        saturated (t.cost g) ≤ saturated (other.cost g) := by
  obtain ⟨memo, solved, entries⟩ := Searcher.solve_spec fits
  have whole := Searcher.members_all fits
  have isConnected : Connected g.Adj (members (Searcher.all g)) := by rwa [whole]
  have inside : ∀ r ∈ members (Searcher.all g), r < g.relations.length := fun r among =>
    Finset.mem_range.mp (whole ▸ among)
  have enough : popcount (Searcher.all g) ≤ g.relations.length := by
    rw [popcount, whole, card_range]
  obtain ⟨t, new, operand, rows, emitted, emission, -, isTree, cost⟩ :=
    Searcher.emit_spec fits entries ratio enough isConnected inside []
  have found := entries.solved fits isConnected inside fun _ isPair _ =>
    Searcher.mem_sortedPairs.mpr isPair
  refine ⟨t, new, operand, ?_, emission, isTree.trans whole, fun other joined same => ?_⟩
  · rw [searched, solved, Option.bind_eq_bind, Option.bind_some, if_pos found, emitted]
    rfl
  · rw [cost]
    exact Searcher.cost_le fits entries joined (whole.trans same.symm)

/-- The enumeration pairs every two disjoint connected sets that an edge joins, once. -/
structure Enumerates (g : JoinGraph) : Prop where
  joinable : ∀ pair ∈ Searcher.pairs g, Searcher.Joinable g pair.1 pair.2
  once : ∀ s t, Searcher.Joinable g s t →
    (Searcher.pairs g).count (s, t) + (Searcher.pairs g).count (t, s) = 1

/-- An order of relations and edges each of which is used once. -/
structure Orders (g : JoinGraph) (steps : List JoinStep) : Prop extends IsOrder g steps where
  relations : 2 ≤ g.relations.length → ∀ r < g.relations.length,
    (operands steps).count ⟨false, r⟩ = 1
  edges : ∀ e < g.edges.length, (steps.flatMap (·.edges)).count e = 1

/-- The steps' cost is the least of those of all trees without a cross product. -/
def Optimal (g : JoinGraph) (steps : List JoinStep) : Prop :=
  ∃ cost, orderCost g steps = .ok cost ∧
    ∀ others, IsTree g.relations.length others →
      (∀ sets ∈ inputs others, Linked g.Adj sets.1 sets.2) →
      ∃ cost', orderCost g others = .ok cost' ∧ cost ≤ cost'

/-- What a join of two disjoint connected sets that an edge joins adds to a cost is an int64_t. -/
def JoinsFit (g : JoinGraph) : Prop :=
  ∀ l r : RelationSet, Connected g.Adj l → Connected g.Adj r → Disjoint l r →
    Linked g.Adj l r → g.stepRows l r ≤ kLargest

theorem JoinsFit.fits (joinsFit : JoinsFit g) (tree : IsTree g.relations.length steps)
    (links : ∀ sets ∈ inputs steps, Linked g.Adj sets.1 sets.2) : Fits g steps := by
  obtain ⟨forest, built, -⟩ := exists_forest tree.earlier tree.once
  intro sets among
  obtain ⟨l, r, ⟨left, right, apart, linked⟩, rfl⟩ := built.inputs_joined links sets among
  exact joinsFit _ _ left.connected right.connected apart linked

include connected in
/-- Every join of connected sets is one of some tree of all the relations. -/
theorem exists_tree_with {l r : RelationSet} (left : Connected g.Adj l) (right : Connected g.Adj r) (apart : Disjoint l r)
    (linked : Linked g.Adj l r) :
    ∃ steps, IsTree g.relations.length steps ∧
      (∀ sets ∈ inputs steps, Linked g.Adj sets.1 sets.2) ∧ (l, r) ∈ inputs steps := by
  obtain ⟨u, isU, v, isV, link⟩ := linked
  have insideL := connected_lt left isU (adj_lt (adj_symm u v link))
  have insideR := connected_lt right isV (adj_lt link)
  have single : ∀ {s : RelationSet} {w : Nat}, Connected g.Adj s → w ∈ s →
      (∀ r ∈ s, r < g.relations.length) → ∃ t : JoinTree, t.Joined g ∧ t.relations = s := by
    intro s w isConnected isW inside
    obtain ⟨t, joined, isTree, -⟩ := JoinTree.Joined.grow (t := .leaf w) (inside w isW) isConnected
      (singleton_subset_iff.mpr isW) inside
    exact ⟨t, joined, isTree⟩
  obtain ⟨tl, joinedL, rfl⟩ := single left isU insideL
  obtain ⟨tr, joinedR, rfl⟩ := single right isV insideR
  have node : (JoinTree.node tl tr).Joined g := ⟨joinedL, joinedR, apart, u, isU, v, isV, link⟩
  obtain ⟨whole, joined, isWhole, within⟩ := node.grow connected
    (fun r among => Finset.mem_range.mpr (node.lt r among)) fun r => Finset.mem_range.mp
  obtain ⟨steps, operand, emission, joins⟩ := joined.exists_emission []
  have order := emission.isOrder isWhole
  exact ⟨steps, order.toIsTree, order.links, joins (within (by simp [JoinTree.joins]))⟩

include connected in
theorem Optimal.joinsFit (optimal : Optimal g steps) : JoinsFit g := by
  intro l r left right apart linked
  obtain ⟨others, tree, links, among⟩ := exists_tree_with connected left right apart linked
  obtain ⟨cost, -, least⟩ := optimal
  obtain ⟨cost', isCost, -⟩ := least others tree links
  exact fits_of_orderCost isCost (l, r) among

theorem orders_of_emission {t : JoinTree} {operand : JoinOperand}
    (emission : Emission g t [] steps operand)
    (whole : t.relations = Finset.range g.relations.length) : Orders g steps := by
  have order := emission.isOrder whole
  exact { order with
    relations := fun two r inside => order.count_relation two inside
    edges := fun e inside => by rw [emission.count_edges whole, if_pos inside] }

include connected

theorem searched_optimal (fits : g.relations.length ≤ 32) :
    ∃ steps, searched g ratio = some steps ∧ Orders g steps ∧
      (Optimal g steps ↔ JoinsFit g) := by
  obtain ⟨t, steps, operand, found, emission, whole, cheapest⟩ := searched_spec connected ratio fits
  have order := emission.isOrder whole
  have few : ∀ others, IsTree g.relations.length others → others.length ≤ 32 := by
    intro others tree
    have count := tree.count
    omega
  refine ⟨steps, found, orders_of_emission emission whole, Optimal.joinsFit connected,
    fun joinsFit => ?_⟩
  refine ⟨_, orderCost_eq (joinsFit.fits order.toIsTree order.links) (few steps order.toIsTree),
    fun others tree links => ?_⟩
  obtain ⟨other, joined, same, cost⟩ := tree.exists_tree links
  refine ⟨_, orderCost_eq (joinsFit.fits tree links) (few others tree), ?_⟩
  have mine : g.totalRows (inputs steps) = t.cost g := emission.total
  rw [mine, ← cost]
  exact cheapest other joined same

theorem greedy_orders : ∃ steps, greedy g ratio = some steps ∧ Orders g steps := by
  obtain ⟨t, steps, operand, walked, emission, whole⟩ := greedy_spec connected ratio
  exact ⟨steps, walked, orders_of_emission emission whole⟩

end

/-- Of connected relations the search finds every pair once and ends with an order, of the least
cost exactly where no join's rows overflow; the greedy walk ends with an order; and so does
`OrderJoins`, by the one or the other. -/
theorem orders_spec (g : JoinGraph) (connected : Connected g.Adj (Finset.range g.relations.length))
    (ratio : Int) :
    (g.relations.length ≤ 32 → Enumerates g ∧ ∃ steps, searched g ratio = some steps ∧
      Orders g steps ∧ (Optimal g steps ↔ JoinsFit g)) ∧
    (∃ steps, greedy g ratio = some steps ∧ Orders g steps) ∧
    (100 ≤ ratio → ∀ search, ∃ steps, orderJoins g ratio search = some steps ∧ Orders g steps ∧
      (search = .cost → 2 ≤ g.relations.length → g.relations.length ≤ kSearchRelations →
        (Optimal g steps ↔ JoinsFit g))) := by
  refine ⟨fun fits => ⟨⟨fun pair among => ((Searcher.mem_pairs_iff fits).mp among).1,
    fun s t joinable => Searcher.pairs_count fits joinable⟩, searched_optimal connected ratio fits⟩,
    greedy_orders connected ratio, fun enough search => ?_⟩
  rw [orderJoins, if_neg (not_lt.mpr enough)]
  by_cases searches : search = .cost ∧ 2 ≤ g.relations.length ∧ g.relations.length ≤ kSearchRelations
  · rw [if_pos searches]
    obtain ⟨steps, found, orders, optimal⟩ := searched_optimal connected ratio
      (searches.2.2.trans (by decide))
    exact ⟨steps, found, orders, fun _ _ _ => optimal⟩
  · rw [if_neg searches]
    obtain ⟨steps, walked, orders⟩ := greedy_orders connected ratio
    exact ⟨steps, walked, orders, fun isCost two few => absurd ⟨isCost, two, few⟩ searches⟩

def pairGraph (rows domain : Option Int) : JoinGraph where
  relations := [⟨rows⟩, ⟨rows⟩]
  edges := [⟨0, 1, domain, domain⟩]
  ends := by simp

theorem pairGraph_connected (rows domain : Option Int) :
    Connected (pairGraph rows domain).Adj (Finset.range 2) :=
  (connected_singleton 0).union adj_symm (connected_singleton 1)
    ⟨0, mem_singleton_self 0, 1, mem_singleton_self 1, _, List.mem_cons_self, .inl ⟨rfl, rfl⟩⟩

/-- The one join of two relations with ten rows and ten values each. -/
theorem orders_spec_pair : ∃ steps cost,
    orderJoins (pairGraph (some 10) (some 10)) 400 .cost = some steps ∧
      Orders (pairGraph (some 10) (some 10)) steps ∧
      orderCost (pairGraph (some 10) (some 10)) steps = .ok cost ∧
      (Optimal (pairGraph (some 10) (some 10)) steps ↔ JoinsFit (pairGraph (some 10) (some 10))) := by
  obtain ⟨steps, found, orders, optimal⟩ :=
    (orders_spec (pairGraph (some 10) (some 10)) (pairGraph_connected _ _) 400).2.2 (by decide) .cost
  have joined : orderJoins (pairGraph (some 10) (some 10)) 400 .cost =
      some [⟨⟨false, 0⟩, ⟨false, 1⟩, [0], .right, 10⟩] := by decide +kernel
  cases found.symm.trans joined
  exact ⟨_, 20, joined, orders, by decide +kernel, optimal rfl (by decide) (by decide)⟩

/-- Of two relations of unknown rows the only join has the largest cost, but its rows and those of
its smaller input overflow before they are widened. -/
theorem orderCost_overflows :
    Connected (pairGraph none none).Adj (Finset.range 2) ∧
    searched (pairGraph none none) 400 = some [⟨⟨false, 0⟩, ⟨false, 1⟩, [0], .right, kLargest⟩] ∧
    saturated ((pairGraph none none).totalRows
      (inputs [⟨⟨false, 0⟩, ⟨false, 1⟩, [0], .right, kLargest⟩])) = kLargest ∧
    orderCost (pairGraph none none) [⟨⟨false, 0⟩, ⟨false, 1⟩, [0], .right, kLargest⟩] =
      .error .int64 := by
  refine ⟨pairGraph_connected _ _, ?_, ?_, ?_⟩ <;> decide +kernel

end Antb1.Plan.JoinOrder.Orderer
