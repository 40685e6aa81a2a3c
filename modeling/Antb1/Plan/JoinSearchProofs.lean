import Antb1.Plan.JoinEmissionProofs

/-! The search finds a cheapest tree: the pairs of a set are all applied before any pair that reads
the set, so that each entry is the cheapest of its splits. -/
namespace Antb1.Plan.JoinOrder.Searcher

open Masks Graph List

variable {g : JoinGraph}

theorem saturated_add {a b c : Int} (nonnegA : 0 ≤ a) (nonnegB : 0 ≤ b) (nonnegC : 0 ≤ c) :
    saturated (saturated a + saturated b + c) = saturated (a + b + c) := by
  have positive : 0 ≤ kLargest := by decide
  rw [saturated_eq_min nonnegA, saturated_eq_min nonnegB, saturated_eq_min (by omega),
    saturated_eq_min (by omega)]
  omega

theorem saturated_mono {a b : Int} (nonneg : 0 ≤ a) (le : a ≤ b) : saturated a ≤ saturated b := by
  rw [saturated_eq_min nonneg, saturated_eq_min (nonneg.trans le)]
  omega

theorem saturated_nonneg {a : Int} (nonneg : 0 ≤ a) : 0 ≤ saturated a := by
  have positive : 0 ≤ kLargest := by decide
  rw [saturated_eq_min nonneg]
  omega

def value (g : JoinGraph) (memo : Memo) (pair : Mask × Mask) : Int :=
  saturated ((memo pair.1).cost + (memo pair.2).cost + g.stepRows (members pair.1) (members pair.2))

theorem rows_eq (fits : g.relations.length ≤ 32) {s : Mask}
    (inside : ∀ r ∈ members s, r < g.relations.length) : rows g s = g.subsetRows (members s) := by
  rw [rows]
  congr 1
  ext r
  rw [Finset.mem_filter, Finset.mem_range]
  constructor
  · rintro ⟨bound, among⟩
    exact (and_bit_ne_zero (bound.trans_le fits)).mp among
  · intro among
    exact ⟨inside r among, (and_bit_ne_zero ((inside r among).trans_le fits)).mpr among⟩

section Joinable

variable {s t : Mask} (joinable : Joinable g s t)
include joinable

theorem Joinable.part : members s ⊂ members (s ||| t) := by
  rw [members_or, Finset.ssubset_iff_of_subset Finset.subset_union_left]
  obtain ⟨r, isT⟩ := joinable.right.1
  exact ⟨r, Finset.mem_union_right _ isT, Finset.disjoint_right.mp joinable.apart isT⟩

theorem Joinable.popcount_lt : popcount s < popcount (s ||| t) ∧ popcount t < popcount (s ||| t) := by
  have other := joinable.symm.part
  rw [BitVec.or_comm] at other
  exact ⟨Masks.popcount_lt joinable.part, Masks.popcount_lt other⟩

theorem Joinable.two_le : 2 ≤ popcount (s ||| t) := by
  have positive := Finset.card_pos.mpr joinable.left.1
  have more := joinable.popcount_lt.1
  unfold popcount at more ⊢
  omega

theorem Joinable.value_eq (fits : g.relations.length ≤ 32) (memo : Memo) :
    saturated ((memo s).cost + (memo t).cost + rows g (s ||| t) + min (rows g s) (rows g t)) =
      value g memo (s, t) := by
  have insideS := joinable_inside joinable
  have insideT := joinable_inside joinable.symm
  have insideU : ∀ r ∈ members (s ||| t), r < g.relations.length := by
    intro r among
    rw [members_or] at among
    exact (Finset.mem_union.mp among).elim (insideS r) (insideT r)
  rw [rows_eq fits insideS, rows_eq fits insideT, rows_eq fits insideU, value, JoinGraph.stepRows,
    members_or, Int.add_assoc]

end Joinable

theorem value_comm (memo : Memo) (s t : Mask) : value g memo (s, t) = value g memo (t, s) := by
  rw [value, value, stepRows_comm, Int.add_comm (memo s).cost]

theorem exists_joinable {a b : RelationSet} (left : Connected g.Adj a) (right : Connected g.Adj b)
    (apart : Disjoint a b) (linked : Linked g.Adj a b) (inside : ∀ r ∈ a ∪ b, r < 32) :
    ∃ s t : Mask, members s = a ∧ members t = b ∧ Joinable g s t := by
  obtain ⟨s, rfl⟩ := @exists_members 32 a fun r among => inside r (Finset.mem_union_left _ among)
  obtain ⟨t, rfl⟩ := @exists_members 32 b fun r among => inside r (Finset.mem_union_right _ among)
  exact ⟨s, t, rfl, rfl, left, right, apart, linked⟩

/-- A connected set of two or more relations is the union of a pair. -/
theorem exists_pair (fits : g.relations.length ≤ 32) {s : Mask}
    (connected : Connected g.Adj (members s)) (two : 2 ≤ popcount s) :
    ∃ pair ∈ pairs g, pair.1 ||| pair.2 = s := by
  obtain ⟨a, v, isConnected, apart, whole, linked⟩ := connected.exists_split adj_symm two
  obtain ⟨left, right, rfl, isRight, joinable⟩ := exists_joinable isConnected (connected_singleton v)
    (Finset.disjoint_singleton_right.mpr apart) linked fun r among => members_lt (whole ▸ among)
  have union : left ||| right = s := by
    rw [← members_inj, members_or, isRight, whole]
  rcases Nat.lt_or_gt_of_ne joinable.lowest_ne with less | more
  · exact ⟨(left, right), (mem_pairs_iff fits).mpr ⟨joinable, less⟩, union⟩
  · exact ⟨(right, left), (mem_pairs_iff fits).mpr ⟨joinable.symm, more⟩, by rw [BitVec.or_comm, union]⟩

theorem mem_sortedPairs {pair : Mask × Mask} : pair ∈ sortedPairs g ↔ pair ∈ pairs g :=
  (mergeSort_perm _ _).mem_iff

theorem before_popcount {x y : Mask × Mask} (notBefore : (!before y x) = true) :
    popcount (x.1 ||| x.2) ≤ popcount (y.1 ||| y.2) := by
  unfold before at notBefore
  dsimp only at notBefore
  split_ifs at notBefore with differ
  · simpa using notBefore
  · exact (not_not.mp differ).ge

theorem sortedPairs_sorted : (sortedPairs g).Pairwise fun x y =>
    popcount (x.1 ||| x.2) ≤ popcount (y.1 ||| y.2) := by
  have sorted := @pairwise_mergeSort (Mask × Mask) (fun x y => !before y x) ?_ ?_ (pairs g)
  · exact sorted.imp before_popcount
  · intro a b c
    unfold before
    dsimp only
    split_ifs <;> simp <;> grind
  · intro a b
    unfold before
    dsimp only
    split_ifs <;> simp <;> grind

/-- What the entries hold once some pairs have been applied: of each set the cheapest pair so far. -/
structure Entries (g : JoinGraph) (done : List (Mask × Mask)) (memo : Memo) : Prop where
  single : ∀ r < g.relations.length, (memo (bit r)).cost = 0
  untouched : ∀ s, 2 ≤ popcount s → (∀ pair ∈ done, pair.1 ||| pair.2 ≠ s) → (memo s).cost < 0
  nonneg : ∀ pair ∈ done, 0 ≤ (memo (pair.1 ||| pair.2)).cost
  attained : ∀ s, (∃ pair ∈ done, pair.1 ||| pair.2 = s) → ∃ pair ∈ done, pair.1 ||| pair.2 = s ∧
    (memo s).cost = value g memo pair ∧
    (((memo s).left = pair.1 ∧ (memo s).right = pair.2) ∨
      ((memo s).left = pair.2 ∧ (memo s).right = pair.1))
  least : ∀ pair ∈ done, (memo (pair.1 ||| pair.2)).cost ≤ value g memo pair

theorem foldl_single (list : List Nat) (memo : Memo) (s : Mask) :
    (list.foldl (fun memo r => Function.update memo (bit r) { memo (bit r) with cost := 0 }) memo) s =
      if s ∈ list.map bit then { memo s with cost := 0 } else memo s := by
  induction list generalizing memo with
  | nil => rfl
  | cons r list ih =>
    rw [foldl_cons, ih, map_cons]
    by_cases here : s = bit r
    · subst here
      simp
    · simp [here]

theorem singles_spec (fits : g.relations.length ≤ 32) : Entries g [] (singles g) where
  single := by
    intro r inside
    rw [singles, foldl_single, if_pos (mem_map.mpr ⟨r, mem_range.mpr inside, rfl⟩)]
  untouched := by
    intro s two _
    rw [singles, foldl_single, if_neg]
    · exact Int.negSucc_lt_zero 0
    · intro among
      obtain ⟨r, inside, rfl⟩ := mem_map.mp among
      rw [mem_range] at inside
      rw [popcount, members_bit (inside.trans_le fits), Finset.card_singleton] at two
      omega
  nonneg := by simp
  attained := by simp
  least := by simp

theorem Entries.solved (fits : g.relations.length ≤ 32) {done : List (Mask × Mask)} {memo : Memo}
    (entries : Entries g done memo) {s : Mask} (connected : Connected g.Adj (members s))
    (inside : ∀ r ∈ members s, r < g.relations.length)
    (applied : ∀ pair ∈ pairs g, pair.1 ||| pair.2 = s → pair ∈ done) : 0 ≤ (memo s).cost := by
  have positive := Finset.card_pos.mpr connected.1
  by_cases one : (members s).card = 1
  · obtain ⟨r, isSingle⟩ := Finset.card_eq_one.mp one
    have bound : r < g.relations.length := inside r (by rw [isSingle]; exact Finset.mem_singleton_self r)
    have isBit : s = bit r := by
      rw [← members_inj, isSingle, members_bit (bound.trans_le fits)]
    rw [isBit, entries.single r bound]
  · obtain ⟨other, isPair, union⟩ := exists_pair fits connected (show 2 ≤ (members s).card by omega)
    rw [← union]
    exact entries.nonneg other (applied other isPair union)

section Consider

variable {done rest : List (Mask × Mask)} {pair : Mask × Mask} {memo : Memo}
  (sorted : sortedPairs g = done ++ pair :: rest)
include sorted

theorem done_popcount : ∀ other ∈ done ++ [pair],
    popcount (other.1 ||| other.2) ≤ popcount (pair.1 ||| pair.2) := by
  intro other among
  have ordered := @sortedPairs_sorted g
  rw [sorted] at ordered
  rcases mem_append.mp among with among | among
  · exact (pairwise_append.mp ordered).2.2 other among pair mem_cons_self
  · rw [mem_singleton.mp among]

theorem mem_done {other : Mask × Mask} (isPair : other ∈ pairs g)
    (smaller : popcount (other.1 ||| other.2) < popcount (pair.1 ||| pair.2)) : other ∈ done := by
  have ordered := @sortedPairs_sorted g
  rw [← mem_sortedPairs, sorted] at isPair
  rw [sorted] at ordered
  rcases mem_append.mp isPair with among | among
  · exact among
  rcases mem_cons.mp among with rfl | among
  · exact absurd smaller (lt_irrefl _)
  · have later := (pairwise_cons.mp (pairwise_append.mp ordered).2.1).1 other among
    omega

variable (fits : g.relations.length ≤ 32)
include fits

theorem done_joinable : ∀ other ∈ done ++ [pair], Joinable g other.1 other.2 := by
  intro other among
  have isPair : other ∈ pairs g := by
    rw [← mem_sortedPairs, sorted]
    rcases mem_append.mp among with among | among
    · exact mem_append_left _ among
    · exact mem_append_right _ (mem_singleton.mp among ▸ mem_cons_self)
  exact ((mem_pairs_iff fits).mp isPair).1

/-- The sides of the pairs applied so far are smaller than the union that is considered: their
entries stay. -/
theorem value_update (entry : Entry) {other : Mask × Mask} (among : other ∈ done ++ [pair]) :
    value g (Function.update memo (pair.1 ||| pair.2) entry) other = value g memo other := by
  have bound := done_popcount sorted other among
  obtain ⟨left, right⟩ := (done_joinable sorted fits other among).popcount_lt
  have apart : ∀ s, popcount s < popcount (other.1 ||| other.2) → s ≠ pair.1 ||| pair.2 := by
    rintro s less rfl
    omega
  rw [value, value, Function.update_of_ne (apart _ left), Function.update_of_ne (apart _ right)]

theorem Entries.keep (entries : Entries g done memo)
    (kept : 0 ≤ (memo (pair.1 ||| pair.2)).cost ∧ (memo (pair.1 ||| pair.2)).cost ≤ value g memo pair) :
    Entries g (done ++ [pair]) memo where
  single := entries.single
  untouched s two none_ := entries.untouched s two fun other among =>
    none_ other (mem_append_left _ among)
  nonneg := forall_mem_append.mpr ⟨entries.nonneg, forall_mem_singleton.mpr kept.1⟩
  attained := by
    have isLast : pair ∈ done ++ [pair] := mem_append_right _ mem_cons_self
    -- The union has a pair already, since its entry has been set.
    have earlier : ∃ other ∈ done, other.1 ||| other.2 = pair.1 ||| pair.2 := by
      by_contra none_
      have unset := entries.untouched _ (done_joinable sorted fits pair isLast).two_le
        fun other among union => none_ ⟨other, among, union⟩
      omega
    rintro s ⟨other, among, union⟩
    have some_ : ∃ other ∈ done, other.1 ||| other.2 = s := by
      rcases mem_append.mp among with among | among
      · exact ⟨other, among, union⟩
      · rwa [← union, mem_singleton.mp among]
    obtain ⟨best, isBest, rest⟩ := entries.attained s some_
    exact ⟨best, mem_append_left _ isBest, rest⟩
  least := forall_mem_append.mpr ⟨entries.least, forall_mem_singleton.mpr kept.2⟩

theorem Entries.replace (entries : Entries g done memo)
    (dearer : ¬ (0 ≤ (memo (pair.1 ||| pair.2)).cost ∧
      (memo (pair.1 ||| pair.2)).cost ≤ value g memo pair))
    {entry : Entry} (cost : entry.cost = value g memo pair) (nonneg : 0 ≤ entry.cost)
    (sides : (entry.left = pair.1 ∧ entry.right = pair.2) ∨
      (entry.left = pair.2 ∧ entry.right = pair.1)) :
    Entries g (done ++ [pair]) (Function.update memo (pair.1 ||| pair.2) entry) := by
  have isLast : pair ∈ done ++ [pair] := mem_append_right _ mem_cons_self
  have two := (done_joinable sorted fits pair isLast).two_le
  have earlier : ∀ other ∈ done ++ [pair], other.1 ||| other.2 ≠ pair.1 ||| pair.2 → other ∈ done := by
    intro other among differ
    exact (mem_append.mp among).resolve_right fun last => differ (by rw [mem_singleton.mp last])
  have values := fun other among => @value_update g done rest pair memo sorted fits entry other among
  constructor
  case single =>
    intro r inside
    rw [Function.update_of_ne, entries.single r inside]
    intro same
    rw [← same, popcount, members_bit (inside.trans_le fits), Finset.card_singleton] at two
    omega
  case untouched =>
    intro s isTwo none_
    rw [Function.update_of_ne (Ne.symm (none_ pair isLast))]
    exact entries.untouched s isTwo fun other among => none_ other (mem_append_left _ among)
  case nonneg =>
    intro other among
    by_cases same : other.1 ||| other.2 = pair.1 ||| pair.2
    · rwa [same, Function.update_self]
    · rw [Function.update_of_ne same]
      exact entries.nonneg other (earlier other among same)
  case attained =>
    rintro s ⟨other, among, union⟩
    by_cases same : s = pair.1 ||| pair.2
    · refine ⟨pair, isLast, same.symm, ?_⟩
      rw [same, Function.update_self, values pair isLast]
      exact ⟨cost, sides⟩
    · obtain ⟨best, isBest, isUnion, isCost, isSides⟩ :=
        entries.attained s ⟨other, earlier other among (union ▸ same), union⟩
      refine ⟨best, mem_append_left _ isBest, isUnion, ?_⟩
      rw [Function.update_of_ne same, values best (mem_append_left _ isBest)]
      exact ⟨isCost, isSides⟩
  case least =>
    intro other among
    rw [values other among]
    by_cases same : other.1 ||| other.2 = pair.1 ||| pair.2
    · rw [same, Function.update_self, cost]
      rcases mem_append.mp among with among | among
      · have old := entries.least other among
        have set := entries.nonneg other among
        rw [same] at old set
        omega
      · rw [mem_singleton.mp among]
    · rw [Function.update_of_ne same]
      exact entries.least other (earlier other among same)

theorem consider_spec (entries : Entries g done memo) :
    ∃ memo', consider g memo pair = some memo' ∧ Entries g (done ++ [pair]) memo' := by
  have isLast : pair ∈ done ++ [pair] := mem_append_right _ mem_cons_self
  have joinable := done_joinable sorted fits pair isLast
  have left := entries.solved fits joinable.left (joinable_inside joinable) fun other isPair union =>
    mem_done sorted isPair (by rw [union]; exact joinable.popcount_lt.1)
  have right := entries.solved fits joinable.right (joinable_inside joinable.symm)
    fun other isPair union => mem_done sorted isPair (by rw [union]; exact joinable.popcount_lt.2)
  have total : 0 ≤ value g memo pair := saturated_nonneg (by
    have step := @stepRows_nonneg g (members pair.1) (members pair.2)
    omega)
  unfold consider
  dsimp only
  rw [if_neg (by omega), joinable.value_eq fits memo]
  by_cases kept : 0 ≤ (memo (pair.1 ||| pair.2)).cost ∧
      (memo (pair.1 ||| pair.2)).cost ≤ value g memo pair
  · exact ⟨memo, if_pos kept, entries.keep sorted fits kept⟩
  · refine ⟨_, if_neg kept, entries.replace sorted fits kept rfl total ?_⟩
    dsimp only
    split_ifs
    · exact .inr ⟨rfl, rfl⟩
    · exact .inl ⟨rfl, rfl⟩

end Consider

theorem solve_spec (fits : g.relations.length ≤ 32) :
    ∃ memo, solve g = some memo ∧ Entries g (sortedPairs g) memo :=
  Lib.foldlM_invariant (singles_spec fits) fun _ _ _ _ sorted entries => consider_spec sorted fits entries

theorem crossing_eq (fits : g.relations.length ≤ 32) {s t : Mask} :
    ((List.range g.edges.length).filter fun e => joins (g.edgeAt e) s t) =
      g.between (members s) (members t) := by
  refine filter_congr fun e inside => ?_
  rw [Bool.eq_iff_iff, joins_iff fits (edgeAt_mem (mem_range.mp inside)), decide_eq_true_iff]

/-- The step that joins the two sides of an entry, one way round. -/
theorem emit_node (fits : g.relations.length ≤ 32) {memo : Memo} {ratio : Int} {fuel : Nat} {s : Mask}
    {steps stepsL stepsR : List JoinStep} {first second : Emitted} (several : popcount s ≠ 1)
    (left : emit g memo ratio fuel (memo s).left steps = some (first, stepsL))
    (right : emit g memo ratio fuel (memo s).right stepsL = some (second, stepsR)) :
    ∃ step rows, emit g memo ratio (fuel + 1) s steps =
        some (⟨⟨true, stepsR.length⟩, rows⟩, stepsR ++ [step]) ∧
      ((step.left = first.operand ∧ step.right = second.operand) ∨
        (step.left = second.operand ∧ step.right = first.operand)) ∧
      step.edges = g.between (members (memo s).left) (members (memo s).right) := by
  rw [emit, if_neg several]
  dsimp only
  rw [left, Option.bind_eq_bind, Option.bind_some]
  dsimp only
  rw [right, Option.bind_some]
  dsimp only
  refine ⟨_, _, rfl, ?_, ?_⟩
  · cases second.rows.isNone && first.rows.isSome
    · exact .inl ⟨rfl, rfl⟩
    · exact .inr ⟨rfl, rfl⟩
  · rw [crossing_eq fits]
    cases second.rows.isNone && first.rows.isSome
    · rfl
    · exact between_comm _ _

section Optimal

variable (fits : g.relations.length ≤ 32) {memo : Memo} (entries : Entries g (sortedPairs g) memo)
include fits entries

theorem least_joinable {s t : Mask} (joinable : Joinable g s t) :
    (memo (s ||| t)).cost ≤ value g memo (s, t) := by
  rcases Nat.lt_or_gt_of_ne joinable.lowest_ne with less | more
  · exact entries.least (s, t) (mem_sortedPairs.mpr ((mem_pairs_iff fits).mpr ⟨joinable, less⟩))
  · rw [BitVec.or_comm, value_comm]
    exact entries.least (t, s) (mem_sortedPairs.mpr ((mem_pairs_iff fits).mpr ⟨joinable.symm, more⟩))

/-- No tree of a set's relations without a cross product is cheaper than the set's entry. -/
theorem cost_le {t : JoinTree} (joined : t.Joined g) {s : Mask} (same : members s = t.relations) :
    (memo s).cost ≤ saturated (t.cost g) := by
  induction t generalizing s with
  | leaf r =>
    have bound : r < g.relations.length := joined
    have isBit : s = bit r := by
      rw [← members_inj, same, members_bit (bound.trans_le fits)]
      rfl
    rw [isBit, entries.single r bound]
    exact saturated_nonneg le_rfl
  | node l r ihl ihr =>
    have inside := fun i among => (joined.lt i among).trans_le fits
    obtain ⟨joinedL, joinedR, apart, linked⟩ := joined
    obtain ⟨left, right, isLeft, isRight, joinable⟩ :=
      exists_joinable joinedL.connected joinedR.connected apart linked inside
    have union : s = left ||| right := by
      rw [← members_inj, members_or, isLeft, isRight, same]
      rfl
    have nonnegL := entries.solved fits joinable.left (joinable_inside joinable) fun _ isPair _ =>
      mem_sortedPairs.mpr isPair
    have nonnegR := entries.solved fits joinable.right (joinable_inside joinable.symm)
      fun _ isPair _ => mem_sortedPairs.mpr isPair
    have step := @stepRows_nonneg g l.relations r.relations
    have costL := ihl joinedL isLeft
    have costR := ihr joinedR isRight
    rw [union, JoinTree.cost, ← saturated_add l.cost_nonneg r.cost_nonneg step]
    refine (least_joinable fits entries joinable).trans ?_
    rw [value, isLeft, isRight]
    dsimp only
    exact saturated_mono (by omega) (by omega)

theorem exists_sides {s : Mask} (connected : Connected g.Adj (members s)) (two : 2 ≤ popcount s) :
    Joinable g (memo s).left (memo s).right ∧ (memo s).left ||| (memo s).right = s ∧
      (memo s).cost = value g memo ((memo s).left, (memo s).right) := by
  obtain ⟨some_, isPair, union⟩ := exists_pair fits connected two
  obtain ⟨best, isBest, isUnion, cost, sides⟩ :=
    entries.attained s ⟨some_, mem_sortedPairs.mpr isPair, union⟩
  have joinable := ((mem_pairs_iff fits).mp (mem_sortedPairs.mp isBest)).1
  rcases sides with ⟨isLeft, isRight⟩ | ⟨isLeft, isRight⟩
  · rw [isLeft, isRight]
    exact ⟨joinable, isUnion, cost⟩
  · rw [isLeft, isRight, BitVec.or_comm, value_comm]
    exact ⟨joinable.symm, isUnion, cost⟩

theorem emit_spec (ratio : Int) {fuel : Nat} {s : Mask} (enough : popcount s ≤ fuel)
    (connected : Connected g.Adj (members s)) (inside : ∀ r ∈ members s, r < g.relations.length)
    (steps : List JoinStep) :
    ∃ t new operand rows, emit g memo ratio fuel s steps = some (⟨operand, rows⟩, steps ++ new) ∧
      Emission g t steps new operand ∧ t.Joined g ∧ t.relations = members s ∧
      saturated (t.cost g) = (memo s).cost := by
  have positive := Finset.card_pos.mpr connected.1
  induction fuel generalizing s steps with
  | zero =>
    unfold popcount at enough
    omega
  | succ fuel ih =>
    by_cases one : popcount s = 1
    · obtain ⟨r, isSingle⟩ := Finset.card_eq_one.mp one
      have isLowest : lowest s = r := by
        have least := (lowest_spec (members_nonempty.mp connected.1)).1
        rwa [isSingle, Finset.mem_singleton] at least
      have bound : r < g.relations.length := inside r (by rw [isSingle]; exact Finset.mem_singleton_self r)
      have isBit : s = bit r := by
        rw [← members_inj, isSingle, members_bit (bound.trans_le fits)]
      rw [emit, if_pos one, isLowest]
      refine ⟨.leaf r, [], ⟨false, r⟩, _, by rw [append_nil], .leaf g r steps, bound,
        isSingle.symm, ?_⟩
      rw [isBit, entries.single r bound]
      rfl
    · have two : 2 ≤ popcount s := by
        unfold popcount at one ⊢
        omega
      obtain ⟨joinable, union, cost⟩ := exists_sides fits entries connected two
      have smaller := joinable.popcount_lt
      rw [union] at smaller
      obtain ⟨l, newL, first, rowsL, emittedL, emissionL, joinedL, isLeft, costL⟩ :=
        ih (by omega) joinable.left (joinable_inside joinable) steps
          (Finset.card_pos.mpr joinable.left.1)
      obtain ⟨r, newR, second, rowsR, emittedR, emissionR, joinedR, isRight, costR⟩ :=
        ih (by omega) joinable.right (joinable_inside joinable.symm) (steps ++ newL)
          (Finset.card_pos.mpr joinable.right.1)
      have joined : (JoinTree.node l r).Joined g := by
        refine ⟨joinedL, joinedR, ?_, ?_⟩ <;> rw [isLeft, isRight]
        · exact joinable.apart
        · exact joinable.linked
      obtain ⟨step, rows, emitted, sides, keys⟩ := emit_node fits one emittedL emittedR
      refine ⟨.node l r, newL ++ newR ++ [step], _, rows, ?_,
        emissionL.node joined emissionR sides (by rw [keys, isLeft, isRight]), joined, ?_, ?_⟩
      · have after : steps ++ newL ++ newR = steps ++ (newL ++ newR) := append_assoc _ _ _
        rw [emitted, after, length_append, append_assoc steps]
      · rw [JoinTree.relations, isLeft, isRight, ← members_or, union]
      · have step := @stepRows_nonneg g l.relations r.relations
        rw [cost, value, ← costL, ← costR, ← isLeft, ← isRight,
          saturated_add l.cost_nonneg r.cost_nonneg step, JoinTree.cost]

end Optimal

theorem members_all (fits : g.relations.length ≤ 32) :
    members (all g) = Finset.range g.relations.length := by
  ext r
  have small : 2 ^ g.relations.length - 1 < 2 ^ 32 :=
    (Nat.sub_lt (Nat.two_pow_pos _) Nat.one_pos).trans_le (Nat.pow_le_pow_right Nat.two_pos fits)
  rw [mem_members, Finset.mem_range, ← BitVec.testBit_toNat, all, BitVec.toNat_ofNat,
    Nat.mod_eq_of_lt small, Nat.testBit_two_pow_sub_one, decide_eq_true_eq]

end Antb1.Plan.JoinOrder.Searcher
