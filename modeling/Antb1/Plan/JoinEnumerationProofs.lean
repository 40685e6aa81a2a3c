import Antb1.Lib.Connected
import Antb1.Plan.JoinOrder

/-! The enumeration of connected subsets and their complements: what grows from a set is every
connected set around it that avoids what is forbidden, each once. -/
namespace Antb1.Plan.JoinOrder

open Masks Graph List

def JoinGraph.Adj (g : JoinGraph) (u v : Nat) : Prop :=
  ∃ edge ∈ g.edges, (edge.a = u ∧ edge.b = v) ∨ (edge.a = v ∧ edge.b = u)

variable {g : JoinGraph}

theorem adj_symm (u v : Nat) (adj : g.Adj u v) : g.Adj v u := by
  obtain ⟨edge, among, ends⟩ := adj
  exact ⟨edge, among, ends.symm⟩

theorem adj_lt {u v : Nat} (adj : g.Adj u v) : v < g.relations.length := by
  obtain ⟨edge, among, ⟨rfl, rfl⟩ | ⟨rfl, rfl⟩⟩ := adj
  · exact (g.ends edge among).2.1
  · exact (g.ends edge among).1

/-- A connected set lies among the relations as soon as one of its members does. -/
theorem connected_lt {s : Finset Nat} (connected : Connected g.Adj s) {i : Nat} (among : i ∈ s)
    (inside : i < g.relations.length) : ∀ r ∈ s, r < g.relations.length := by
  intro r isMember
  cases connected.2 i among r isMember with
  | refl => exact inside
  | tail _ link => exact adj_lt link.2

namespace Searcher

section Masks

variable (fits : g.relations.length ≤ 32)
include fits

theorem edge_inside {edge : JoinEdge} (among : edge ∈ g.edges) : edge.a < 32 ∧ edge.b < 32 := by
  obtain ⟨left, right, -⟩ := g.ends edge among
  exact ⟨left.trans_le fits, right.trans_le fits⟩

theorem mem_adjacent {r v : Nat} : v ∈ members (adjacent g r) ↔ g.Adj r v := by
  have folded : ∀ (edges : List JoinEdge) (out : Mask), (∀ edge ∈ edges, edge ∈ g.edges) →
      (v ∈ members (edges.foldl (fun out edge =>
        let out := if edge.a = r then out ||| bit edge.b else out
        if edge.b = r then out ||| bit edge.a else out) out) ↔ v ∈ members out ∨
          ∃ edge ∈ edges, (edge.a = r ∧ edge.b = v) ∨ (edge.a = v ∧ edge.b = r)) := by
    intro edges
    induction edges with
    | nil => simp
    | cons edge edges ih =>
      intro out inside
      obtain ⟨left, right⟩ := edge_inside fits (inside edge mem_cons_self)
      rw [foldl_cons, ih _ fun other among => inside other (mem_cons_of_mem _ among)]
      rw [exists_mem_cons_iff, mem_members_ite_or, mem_members_ite_or, members_bit left,
        members_bit right, Finset.mem_singleton, Finset.mem_singleton]
      grind
  rw [adjacent, folded g.edges 0 fun _ among => among, members_zero]
  simp [JoinGraph.Adj]

theorem mem_neighbours {s forbidden : Mask} {v : Nat} :
    v ∈ members (neighbours g s forbidden) ↔
      (∃ u ∈ members s, g.Adj u v) ∧ v ∉ members s ∧ v ∉ members forbidden := by
  rw [neighbours, members_and_not, members_and_not, Finset.mem_sdiff, Finset.mem_sdiff, and_assoc,
    mem_members_foldl, members_zero]
  refine and_congr_left fun _ => ?_
  simp only [Finset.notMem_empty, false_or, mem_range, mem_adjacent fits]
  constructor
  · rintro ⟨u, inside, among, adj⟩
    exact ⟨u, (and_bit_ne_zero (inside.trans_le fits)).mp among, adj⟩
  · rintro ⟨u, among, adj⟩
    have inside := adj_lt (adj_symm u v adj)
    exact ⟨u, inside, (and_bit_ne_zero (inside.trans_le fits)).mpr among, adj⟩

theorem joins_iff {edge : JoinEdge} (among : edge ∈ g.edges) {s1 s2 : Mask} :
    joins edge s1 s2 = true ↔
      (edge.a ∈ members s1 ∧ edge.b ∈ members s2) ∨ (edge.b ∈ members s1 ∧ edge.a ∈ members s2) := by
  obtain ⟨left, right⟩ := edge_inside fits among
  simp [joins, members_inter_of_subset, left, right, -mem_members]

theorem connected_iff {s1 s2 : Mask} :
    connected g s1 s2 = true ↔ Linked g.Adj (members s1) (members s2) := by
  rw [connected, any_eq_true]
  constructor
  · rintro ⟨edge, among, joined⟩
    rcases (joins_iff fits among).mp joined with ⟨left, right⟩ | ⟨left, right⟩
    · exact ⟨_, left, _, right, edge, among, .inl ⟨rfl, rfl⟩⟩
    · exact ⟨_, left, _, right, edge, among, .inr ⟨rfl, rfl⟩⟩
  · rintro ⟨u, inFirst, v, inSecond, edge, among, ⟨rfl, rfl⟩ | ⟨rfl, rfl⟩⟩
    · exact ⟨edge, among, (joins_iff fits among).mpr (.inl ⟨inFirst, inSecond⟩)⟩
    · exact ⟨edge, among, (joins_iff fits among).mpr (.inr ⟨inFirst, inSecond⟩)⟩

end Masks

theorem attach_flatMap {α β : Type} (list : List α) (f : α → List β) :
    (list.attach.flatMap fun a => f a.1) = list.flatMap f := by
  rw [← flatMap_map, attach_map_subtype_val]

theorem grow_eq {α : Type} (visit : Mask → List α) (s forbidden : Mask) :
    grow g visit s forbidden =
      (submasks (neighbours g s forbidden)).flatMap (fun add => visit (s ||| add)) ++
        (submasks (neighbours g s forbidden)).flatMap fun add =>
          grow g visit (s ||| add) (forbidden ||| neighbours g s forbidden) := by
  rw [grow, attach_flatMap _ fun add =>
    grow g visit (s ||| add) (forbidden ||| neighbours g s forbidden)]

/-- The sets that grow from `s`. -/
def reached (g : JoinGraph) (s forbidden : Mask) : List Mask := grow g (fun t => [t]) s forbidden

theorem grow_induction {motive : Mask → Mask → Prop}
    (step : ∀ s forbidden, (∀ add ∈ submasks (neighbours g s forbidden),
      motive (s ||| add) (forbidden ||| neighbours g s forbidden)) → motive s forbidden)
    (s forbidden : Mask) : motive s forbidden := by
  induction size : 32 - popcount s using Nat.strong_induction_on generalizing s forbidden with
  | _ size ih =>
    refine step s forbidden fun add among => ih _ ?_ _ _ rfl
    rw [← size]
    exact neighbours_grow g among

theorem grow_eq_reached {α : Type} (visit : Mask → List α) (s forbidden : Mask) :
    grow g visit s forbidden = (reached g s forbidden).flatMap visit := by
  refine grow_induction (g := g) (motive := fun s forbidden =>
    grow g visit s forbidden = (reached g s forbidden).flatMap visit) ?_ s forbidden
  intro s forbidden ih
  rw [reached, grow_eq, grow_eq, flatMap_append, flatMap_assoc, flatMap_assoc]
  simp only [flatMap_singleton]
  congr 1
  exact flatMap_congr fun add among => ih add among

/-- The connected sets around `s` that avoid `forbidden`. -/
def Around (g : JoinGraph) (s forbidden t : Mask) : Prop :=
  members s ⊂ members t ∧ Connected g.Adj (members t) ∧
    ∀ r ∈ members t, r ∉ members s → r ∉ members forbidden

section Around

variable (fits : g.relations.length ≤ 32) {s forbidden t add : Mask}
include fits

theorem connected_or (connected : Connected g.Adj (members s))
    (among : add ∈ submasks (neighbours g s forbidden)) : Connected g.Adj (members (s ||| add)) := by
  rw [members_or]
  refine connected.grow adj_symm fun v isAdd => ?_
  exact ((mem_neighbours fits).mp ((mem_submasks.mp among).2 isAdd)).1

theorem neighbours_apart {v : Nat} (isNear : v ∈ members (neighbours g s forbidden)) :
    v ∉ members s ∧ v ∉ members forbidden := ((mem_neighbours fits).mp isNear).2

theorem around_neighbours (among : add ∈ submasks (neighbours g s forbidden))
    (grown : t = s ||| add ∨ Around g (s ||| add) (forbidden ||| neighbours g s forbidden) t) :
    members t ∩ members (neighbours g s forbidden) = members add := by
  have subset := (mem_submasks.mp among).2
  have has : members add ⊆ members t := by
    rcases grown with rfl | ⟨larger, -⟩
    · rw [members_or]
      exact Finset.subset_union_right
    · rw [members_or] at larger
      exact Finset.subset_union_right.trans larger.subset
  refine subset_antisymm (fun v both => ?_) (Finset.subset_inter has subset)
  obtain ⟨inside, isNear⟩ := Finset.mem_inter.mp both
  have apart := neighbours_apart fits isNear
  rcases grown with rfl | ⟨-, -, avoids⟩
  · rw [members_or, Finset.mem_union] at inside
    exact inside.resolve_left apart.1
  · by_contra other
    refine avoids v inside ?_ ?_ <;> rw [members_or, Finset.mem_union]
    · exact not_or.mpr ⟨apart.1, other⟩
    · exact .inr isNear

/-- A set around another takes in some of its neighbours, and nothing else next to it. -/
theorem around_iff (connected : Connected g.Adj (members s)) :
    Around g s forbidden t ↔ ∃ add ∈ submasks (neighbours g s forbidden),
      t = s ||| add ∨ Around g (s ||| add) (forbidden ||| neighbours g s forbidden) t := by
  constructor
  · rintro ⟨larger, isConnected, avoids⟩
    obtain ⟨u, inside, v, outside, link⟩ := isConnected.linked larger connected.1
    obtain ⟨isT, notS⟩ := Finset.mem_sdiff.mp outside
    have isNear : v ∈ members (neighbours g s forbidden) :=
      (mem_neighbours fits).mpr ⟨⟨u, inside, link⟩, notS, avoids v isT notS⟩
    have some_ : t &&& neighbours g s forbidden ≠ 0 := by
      rw [← members_nonempty, members_and]
      exact ⟨v, Finset.mem_inter.mpr ⟨isT, isNear⟩⟩
    refine ⟨t &&& neighbours g s forbidden, mem_submasks.mpr ⟨some_, ?_⟩, ?_⟩
    · rw [members_and]
      exact Finset.inter_subset_right
    by_cases whole : t = s ||| (t &&& neighbours g s forbidden)
    · exact .inl whole
    · refine .inr ⟨?_, isConnected, fun r isMember other => ?_⟩
      · rw [Finset.ssubset_iff_subset_ne, members_or, members_and]
        refine ⟨Finset.union_subset larger.subset Finset.inter_subset_left, fun same => whole ?_⟩
        rw [← members_inj, members_or, members_and, same]
      · simp only [members_or, members_and, Finset.mem_union, Finset.mem_inter, not_or] at other ⊢
        exact ⟨avoids r isMember other.1, fun near => other.2 ⟨isMember, near⟩⟩
  · rintro ⟨add, among, rfl | ⟨larger, isConnected, avoids⟩⟩
    · obtain ⟨some_, subset⟩ := mem_submasks.mp among
      refine ⟨?_, connected_or fits connected among, fun r isMember other => ?_⟩
      · obtain ⟨v, isAdd⟩ := members_nonempty.mpr some_
        rw [members_or, Finset.ssubset_iff_of_subset Finset.subset_union_left]
        exact ⟨v, Finset.mem_union_right _ isAdd, (neighbours_apart fits (subset isAdd)).1⟩
      · rw [members_or, Finset.mem_union] at isMember
        exact (neighbours_apart fits (subset (isMember.resolve_left other))).2
    · have subset := (mem_submasks.mp among).2
      rw [members_or] at larger
      refine ⟨Finset.subset_union_left.trans_ssubset larger, isConnected, fun r isMember other => ?_⟩
      by_cases isAdd : r ∈ members add
      · exact (neighbours_apart fits (subset isAdd)).2
      · have outside := avoids r isMember
        rw [members_or, members_or, Finset.mem_union, Finset.mem_union, not_or, not_or] at outside
        exact (outside ⟨other, isAdd⟩).1

end Around

theorem nodup_blocks {α β : Type} {list : List α} {f : α → List β} (nodup : list.Nodup)
    (each : ∀ a ∈ list, (f a).Nodup) (block : ∀ a ∈ list, ∀ a' ∈ list, ∀ b ∈ f a, b ∈ f a' → a = a') :
    (list.flatMap f).Nodup := by
  rw [nodup_flatMap]
  refine ⟨each, nodup.imp_of_mem fun among among' other => ?_⟩
  exact fun b isFirst isSecond => other (block _ among _ among' b isFirst isSecond)

theorem reached_spec (fits : g.relations.length ≤ 32) (s forbidden : Mask)
    (connected : Connected g.Adj (members s)) :
    (reached g s forbidden).Nodup ∧ ∀ t, t ∈ reached g s forbidden ↔ Around g s forbidden t := by
  revert connected
  refine grow_induction (g := g) (motive := fun s forbidden => Connected g.Adj (members s) →
    (reached g s forbidden).Nodup ∧ ∀ t, t ∈ reached g s forbidden ↔ Around g s forbidden t)
    ?_ s forbidden
  intro s forbidden ih connected
  have later := fun add among => ih add among (connected_or fits connected among)
  have isReached : reached g s forbidden =
      (submasks (neighbours g s forbidden)).flatMap (fun add => [s ||| add]) ++
        (submasks (neighbours g s forbidden)).flatMap fun add =>
          reached g (s ||| add) (forbidden ||| neighbours g s forbidden) := grow_eq _ _ _
  constructor
  · rw [isReached, nodup_append']
    have apart : ∀ add ∈ submasks (neighbours g s forbidden), ∀ add' ∈ submasks (neighbours g s forbidden),
        ∀ t, (t = s ||| add ∨ Around g (s ||| add) (forbidden ||| neighbours g s forbidden) t) →
          (t = s ||| add' ∨ Around g (s ||| add') (forbidden ||| neighbours g s forbidden) t) →
            add = add' := by
      intro add among add' among' t grown grown'
      rw [← members_inj, ← around_neighbours fits among grown, around_neighbours fits among' grown']
    refine ⟨?_, ?_, ?_⟩
    · refine nodup_blocks (nodup_submasks _) (fun _ _ => nodup_singleton _) ?_
      intro add among add' among' t isNext isNext'
      exact apart _ among _ among' t (.inl (mem_singleton.mp isNext)) (.inl (mem_singleton.mp isNext'))
    · refine nodup_blocks (nodup_submasks _) (fun add among => (later add among).1) ?_
      intro add among add' among' t isLater isLater'
      exact apart _ among _ among' t (.inr (((later _ among).2 t).mp isLater))
        (.inr (((later _ among').2 t).mp isLater'))
    · intro t isNext isLater
      obtain ⟨add, among, isNext⟩ := mem_flatMap.mp isNext
      obtain ⟨add', among', isLater⟩ := mem_flatMap.mp isLater
      have isNext := mem_singleton.mp isNext
      have grown := ((later _ among').2 t).mp isLater
      have same := apart _ among _ among' t (.inl isNext) (.inr grown)
      rw [isNext, same] at grown
      exact grown.1.ne rfl
  · intro t
    rw [isReached, mem_append, mem_flatMap, mem_flatMap, around_iff fits connected]
    constructor
    · rintro (⟨add, among, isNext⟩ | ⟨add, among, isLater⟩)
      · exact ⟨add, among, .inl (mem_singleton.mp isNext)⟩
      · exact ⟨add, among, .inr (((later add among).2 t).mp isLater)⟩
    · rintro ⟨add, among, isNext | isLater⟩
      · exact .inl ⟨add, among, mem_singleton.mpr isNext⟩
      · exact .inr ⟨add, among, ((later add among).2 t).mpr isLater⟩

theorem seed_spec (fits : g.relations.length ≤ 32) {v : Nat} (inside : v < g.relations.length)
    (forbidden : Mask) :
    (bit v :: reached g (bit v) forbidden).Nodup ∧
      ∀ t, t ∈ bit v :: reached g (bit v) forbidden ↔ Connected g.Adj (members t) ∧
        v ∈ members t ∧ ∀ r ∈ members t, r ∈ members forbidden → r = v := by
  have isBit := members_bit (inside.trans_le fits)
  have single : Connected g.Adj (members (bit v : Mask)) := by
    rw [isBit]
    exact connected_singleton v
  obtain ⟨nodup, mem⟩ := reached_spec fits (bit v) forbidden single
  constructor
  · refine nodup_cons.mpr ⟨fun among => ?_, nodup⟩
    exact ((mem _).mp among).1.ne rfl
  · intro t
    rw [mem_cons, mem, Around, isBit]
    constructor
    · rintro (rfl | ⟨larger, isConnected, outside⟩)
      · rw [isBit]
        exact ⟨connected_singleton v, Finset.mem_singleton_self v, fun r among _ =>
          Finset.mem_singleton.mp among⟩
      · refine ⟨isConnected, Finset.singleton_subset_iff.mp larger.subset, fun r among bad => ?_⟩
        by_contra other
        exact outside r among (by rwa [Finset.mem_singleton]) bad
    · rintro ⟨isConnected, among, only⟩
      by_cases alone : members t = {v}
      · exact .inl (by rw [← members_inj, alone, isBit])
      · refine .inr ⟨Finset.ssubset_iff_subset_ne.mpr
          ⟨Finset.singleton_subset_iff.mpr among, Ne.symm alone⟩, isConnected, ?_⟩
        exact fun r isMember other bad => other (Finset.mem_singleton.mpr (only r isMember bad))

def subgraphs (g : JoinGraph) : List Mask :=
  (List.range g.relations.length).reverse.flatMap fun i =>
    bit i :: reached g (bit i) (below i ||| bit i)

/-- The connected sets that are paired with `s`. -/
def complements (g : JoinGraph) (s : Mask) : List Mask :=
  let forbidden := s ||| below (lowest s)
  let near := neighbours g s forbidden
  (List.range g.relations.length).reverse.flatMap fun v =>
    if near &&& bit v = 0 then []
    else bit v :: reached g (bit v) (forbidden ||| (near &&& (below v ||| bit v)))

theorem subgraphs_spec (fits : g.relations.length ≤ 32) :
    (subgraphs g).Nodup ∧ ∀ s, s ∈ subgraphs g ↔
      Connected g.Adj (members s) ∧ ∀ r ∈ members s, r < g.relations.length := by
  have block : ∀ i ∈ (List.range g.relations.length).reverse,
      (bit i :: reached g (bit i) (below i ||| bit i)).Nodup ∧
        ∀ t, t ∈ bit i :: reached g (bit i) (below i ||| bit i) ↔
          Connected g.Adj (members t) ∧ i ∈ members t ∧ ∀ r ∈ members t, i ≤ r := by
    intro i among
    rw [mem_reverse, mem_range] at among
    have inside := among.trans_le fits
    have forbidden : members (below i ||| bit i : Mask) = Finset.range i ∪ {i} := by
      rw [members_or, members_below inside, members_bit inside]
    obtain ⟨nodup, mem⟩ := seed_spec fits among (below i ||| bit i)
    refine ⟨nodup, fun t => (mem t).trans (and_congr_right fun _ => and_congr_right fun _ => ?_)⟩
    refine forall₂_congr fun r _ => ?_
    rw [forbidden, Finset.mem_union, Finset.mem_range, Finset.mem_singleton]
    omega
  constructor
  · refine nodup_blocks (nodup_reverse.mpr nodup_range) (fun i among => (block i among).1) ?_
    intro i among j among' t isFirst isSecond
    obtain ⟨-, isI, leastI⟩ := ((block i among).2 t).mp isFirst
    obtain ⟨-, isJ, leastJ⟩ := ((block j among').2 t).mp isSecond
    exact le_antisymm (leastI j isJ) (leastJ i isI)
  · intro s
    rw [subgraphs, mem_flatMap]
    constructor
    · rintro ⟨i, among, isBlock⟩
      obtain ⟨connected, isMember, -⟩ := ((block i among).2 s).mp isBlock
      rw [mem_reverse, mem_range] at among
      exact ⟨connected, connected_lt connected isMember among⟩
    · rintro ⟨connected, inside⟩
      obtain ⟨least, lowestLe⟩ := lowest_spec (members_nonempty.mp connected.1)
      have among : lowest s ∈ (List.range g.relations.length).reverse := by
        rw [mem_reverse, mem_range]
        exact inside _ least
      exact ⟨lowest s, among, ((block _ among).2 s).mpr ⟨connected, least, lowestLe⟩⟩

/-- The relations beside `s`, none of them below its first. -/
abbrev near (g : JoinGraph) (s : Mask) : Mask := neighbours g s (s ||| below (lowest s))

/-- A set that is paired with `s`. -/
def Pairs (g : JoinGraph) (s t : Mask) : Prop :=
  Connected g.Adj (members t) ∧ Disjoint (members s) (members t) ∧
    Linked g.Adj (members s) (members t) ∧ ∀ r ∈ members t, lowest s < r

section Complements

variable (fits : g.relations.length ≤ 32) {s : Mask} (connected : Connected g.Adj (members s))
  (inside : ∀ r ∈ members s, r < g.relations.length)
include fits connected inside

theorem mem_forbidden {r : Nat} :
    r ∈ members (s ||| below (lowest s)) ↔ r ∈ members s ∨ r < lowest s := by
  have least := (lowest_spec (members_nonempty.mp connected.1)).1
  rw [members_or, members_below ((inside _ least).trans_le fits), Finset.mem_union, Finset.mem_range]

theorem mem_near {v : Nat} : v ∈ members (near g s) ↔
    (∃ u ∈ members s, g.Adj u v) ∧ v ∉ members s ∧ lowest s < v := by
  have least := (lowest_spec (members_nonempty.mp connected.1)).1
  rw [mem_neighbours fits, mem_forbidden fits connected inside]
  refine and_congr_right fun _ => ?_
  constructor
  · rintro ⟨outside, free⟩
    rw [not_or, not_lt] at free
    exact ⟨outside, lt_of_le_of_ne free.2 fun same => outside (same ▸ least)⟩
  · rintro ⟨outside, more⟩
    exact ⟨outside, not_or.mpr ⟨outside, more.le.not_gt⟩⟩

theorem complement_block {v : Nat} (isRelation : v < g.relations.length)
    (isNear : v ∈ members (near g s)) (t : Mask) :
    t ∈ bit v :: reached g (bit v) (s ||| below (lowest s) |||
        (near g s &&& (below v ||| bit v))) ↔
      Connected g.Adj (members t) ∧ v ∈ members t ∧
        (∀ r ∈ members t, r ∉ members s ∧ lowest s < r) ∧
        ∀ r ∈ members t, r ∈ members (near g s) → v ≤ r := by
  obtain ⟨least, -⟩ := lowest_spec (members_nonempty.mp connected.1)
  obtain ⟨-, outside, more⟩ := (mem_near fits connected inside).mp isNear
  rw [(seed_spec fits isRelation _).2]
  refine and_congr_right fun _ => and_congr_right fun _ => ?_
  rw [← forall₂_and]
  refine forall₂_congr fun r _ => ?_
  rw [members_or, Finset.mem_union, mem_forbidden fits connected inside, members_and, members_or,
    members_below (isRelation.trans_le fits), members_bit (isRelation.trans_le fits), Finset.mem_inter,
    Finset.mem_union, Finset.mem_range, Finset.mem_singleton]
  constructor
  · intro only
    refine ⟨⟨fun bad => ?_, ?_⟩, fun near => ?_⟩
    · exact outside (only (.inl (.inl bad)) ▸ bad)
    · rcases lt_trichotomy r (lowest s) with less | same | greater
      · rwa [only (.inl (.inr less))]
      · rwa [only (.inl (.inl (same ▸ least)))]
      · exact greater
    · by_contra less
      have same := only (.inr ⟨near, .inl (not_le.mp less)⟩)
      omega
  · rintro ⟨⟨apart, greater⟩, first⟩ ((bad | bad) | ⟨near, before | same⟩)
    · exact absurd bad apart
    · omega
    · have := first near
      omega
    · exact same

theorem complements_spec : (complements g s).Nodup ∧ ∀ t, t ∈ complements g s ↔ Pairs g s t := by
  have block := fun v (isRelation : v < g.relations.length) isNear =>
    @complement_block g fits s connected inside v isRelation isNear
  have empty_iff : ∀ v ∈ (List.range g.relations.length).reverse,
      (near g s &&& bit v = 0 ↔
        v ∉ members (near g s)) := by
    intro v among
    rw [mem_reverse, mem_range] at among
    rw [← and_bit_ne_zero (among.trans_le fits), not_not]
  constructor
  · refine nodup_blocks (nodup_reverse.mpr nodup_range) ?_ ?_
    · intro v among
      split_ifs with none_
      · exact nodup_nil
      · exact (seed_spec fits (mem_range.mp (mem_reverse.mp among)) _).1
    · intro v among v' among' t isFirst isSecond
      have none_ := empty_iff v among
      have none' := empty_iff v' among'
      rw [mem_reverse, mem_range] at among among'
      split_ifs at isFirst isSecond with empty empty'
      · cases isFirst
      · cases isFirst
      · cases isSecond
      · have isNear := not_not.mp (mt none_.mpr empty)
        have isNear' := not_not.mp (mt none'.mpr ‹_›)
        obtain ⟨-, isV, -, firstV⟩ := (block v among isNear t).mp isFirst
        obtain ⟨-, isV', -, firstV'⟩ := (block v' among' isNear' t).mp isSecond
        exact le_antisymm (firstV v' isV' isNear') (firstV' v isV isNear)
  · intro t
    rw [complements, mem_flatMap]
    constructor
    · rintro ⟨v, among, isBlock⟩
      have none_ := empty_iff v among
      rw [mem_reverse, mem_range] at among
      split_ifs at isBlock with empty
      · cases isBlock
      · have isNear := not_not.mp (mt none_.mpr empty)
        obtain ⟨isConnected, isV, apart, -⟩ := (block v among isNear t).mp isBlock
        obtain ⟨⟨u, isU, link⟩, -⟩ := (mem_near fits connected inside).mp isNear
        exact ⟨isConnected, Finset.disjoint_right.mpr fun r isR => (apart r isR).1,
          ⟨u, isU, v, isV, link⟩, fun r isR => (apart r isR).2⟩
    · rintro ⟨isConnected, apart, ⟨u, isU, w, isW, link⟩, more⟩
      have outside : ∀ r ∈ members t, r ∉ members s := fun r isR => Finset.disjoint_right.mp apart isR
      -- The first of the neighbours of `s` in the complement.
      have some_ : (members t ∩ members (near g s)).Nonempty :=
        ⟨w, Finset.mem_inter.mpr ⟨isW,
          (mem_near fits connected inside).mpr ⟨⟨u, isU, link⟩, outside w isW, more w isW⟩⟩⟩
      obtain ⟨isV, isNear⟩ := Finset.mem_inter.mp (Finset.min'_mem _ some_)
      have isRelation := (adj_lt ((mem_near fits connected inside).mp isNear).1.choose_spec.2)
      have among := mem_reverse.mpr (mem_range.mpr isRelation)
      refine ⟨_, among, ?_⟩
      rw [if_neg (mt (empty_iff _ among).mp (not_not.mpr isNear))]
      refine (block _ isRelation isNear t).mpr ⟨isConnected, isV, fun r isR =>
        ⟨outside r isR, more r isR⟩, fun r isR near => ?_⟩
      exact Finset.min'_le _ r (Finset.mem_inter.mpr ⟨isR, near⟩)

theorem findComplements_eq : findComplements g s = (complements g s).map (s, ·) := by
  rw [findComplements, complements, map_flatMap]
  refine flatMap_congr fun v among => ?_
  rw [mem_reverse, mem_range] at among
  split_ifs with none_
  · rfl
  · have isNear : v ∈ members (near g s) :=
      (and_bit_ne_zero (among.trans_le fits)).mp none_
    rw [map_cons, growComplement, grow_eq_reached, map_eq_flatMap]
    refine congrArg _ (flatMap_congr fun t isReached => ?_)
    have isBlock := (complement_block fits connected inside among isNear t).mp
      (mem_cons_of_mem _ isReached)
    obtain ⟨⟨u, isU, link⟩, -⟩ := (mem_near fits connected inside).mp isNear
    rw [if_pos ((connected_iff fits).mpr ⟨u, isU, v, isBlock.2.1, link⟩)]

end Complements

theorem pairs_eq (fits : g.relations.length ≤ 32) :
    pairs g = (subgraphs g).flatMap fun s => (complements g s).map (s, ·) := by
  have complemented : ∀ s ∈ subgraphs g, findComplements g s = (complements g s).map (s, ·) := by
    intro s among
    obtain ⟨connected, inside⟩ := ((subgraphs_spec fits).2 s).mp among
    exact findComplements_eq fits connected inside
  rw [← flatMap_congr complemented, pairs, subgraphs, flatMap_assoc]
  refine flatMap_congr fun i _ => ?_
  rw [growSubgraph, grow_eq_reached]
  rfl

/-- The enumeration finds the pairs of connected sets that an edge joins, from the one with the
lower first relation. -/
theorem pairs_spec (fits : g.relations.length ≤ 32) :
    (pairs g).Nodup ∧ ∀ s t, (s, t) ∈ pairs g ↔
      (Connected g.Adj (members s) ∧ ∀ r ∈ members s, r < g.relations.length) ∧ Pairs g s t := by
  obtain ⟨nodup, mem⟩ := subgraphs_spec fits
  rw [pairs_eq fits]
  constructor
  · refine nodup_blocks nodup ?_ ?_
    · intro s among
      obtain ⟨connected, inside⟩ := (mem s).mp among
      exact (complements_spec fits connected inside).1.map fun t t' same => (Prod.ext_iff.mp same).2
    · intro s _ s' _ pair isFirst isSecond
      obtain ⟨t, -, rfl⟩ := mem_map.mp isFirst
      obtain ⟨t', -, same⟩ := mem_map.mp isSecond
      exact (Prod.ext_iff.mp same).1.symm
  · intro s t
    rw [mem_flatMap]
    constructor
    · rintro ⟨s', among, isPair⟩
      obtain ⟨t', isComplement, same⟩ := mem_map.mp isPair
      cases same
      obtain ⟨connected, inside⟩ := (mem s).mp among
      exact ⟨⟨connected, inside⟩, ((complements_spec fits connected inside).2 t).mp isComplement⟩
    · rintro ⟨⟨connected, inside⟩, isPair⟩
      exact ⟨s, (mem s).mpr ⟨connected, inside⟩, mem_map.mpr
        ⟨t, ((complements_spec fits connected inside).2 t).mpr isPair, rfl⟩⟩

/-- Two disjoint connected sets that an edge joins. -/
structure Joinable (g : JoinGraph) (s t : Mask) : Prop where
  left : Connected g.Adj (members s)
  right : Connected g.Adj (members t)
  apart : Disjoint (members s) (members t)
  linked : Linked g.Adj (members s) (members t)

theorem Joinable.symm {s t : Mask} (joinable : Joinable g s t) : Joinable g t s :=
  ⟨joinable.right, joinable.left, joinable.apart.symm, joinable.linked.symm adj_symm⟩

theorem joinable_inside {s t : Mask} (joinable : Joinable g s t) :
    ∀ r ∈ members s, r < g.relations.length := by
  obtain ⟨u, isU, v, -, link⟩ := joinable.linked
  exact connected_lt joinable.left isU (adj_lt (adj_symm u v link))

theorem mem_pairs_iff (fits : g.relations.length ≤ 32) {s t : Mask} :
    (s, t) ∈ pairs g ↔ Joinable g s t ∧ lowest s < lowest t := by
  rw [(pairs_spec fits).2]
  constructor
  · rintro ⟨⟨left, -⟩, right, apart, linked, more⟩
    exact ⟨⟨left, right, apart, linked⟩, more _ (lowest_spec (members_nonempty.mp right.1)).1⟩
  · rintro ⟨joinable, less⟩
    have least := (lowest_spec (members_nonempty.mp joinable.right.1)).2
    exact ⟨⟨joinable.left, joinable_inside joinable⟩, joinable.right, joinable.apart, joinable.linked,
      fun r isR => less.trans_le (least r isR)⟩

theorem Joinable.lowest_ne {s t : Mask} (joinable : Joinable g s t) : lowest s ≠ lowest t := by
  intro same
  have left := (lowest_spec (members_nonempty.mp joinable.left.1)).1
  have right := (lowest_spec (members_nonempty.mp joinable.right.1)).1
  rw [← same] at right
  exact Finset.disjoint_left.mp joinable.apart left right

theorem pairs_count (fits : g.relations.length ≤ 32) {s t : Mask} (joinable : Joinable g s t) :
    (pairs g).count (s, t) + (pairs g).count (t, s) = 1 := by
  have nodup := (pairs_spec fits).1
  rw [nodup.count, nodup.count]
  simp only [mem_pairs_iff fits, joinable, joinable.symm, true_and]
  have apart := joinable.lowest_ne
  split_ifs <;> omega

end Searcher

end Antb1.Plan.JoinOrder
