import Mathlib.Data.Finset.Powerset
import Mathlib.Data.Finset.Max

/-! Connected sets of vertices of a graph: by paths inside the set, and by the links across a
cut of it. -/
namespace Graph

open Finset

variable {V : Type} {adj : V → V → Prop} {s t : Finset V}

/-- Every vertex of the set is reached from every other without leaving it. -/
def Connected (adj : V → V → Prop) (s : Finset V) : Prop :=
  s.Nonempty ∧ ∀ u ∈ s, ∀ v ∈ s, Relation.ReflTransGen (fun x y => y ∈ s ∧ adj x y) u v

def Linked (adj : V → V → Prop) (s t : Finset V) : Prop := ∃ u ∈ s, ∃ v ∈ t, adj u v

theorem Linked.symm (symmetric : ∀ u v, adj u v → adj v u) (linked : Linked adj s t) : Linked adj t s := by
  obtain ⟨u, inS, v, inT, link⟩ := linked
  exact ⟨v, inT, u, inS, symmetric _ _ link⟩

theorem connected_singleton (v : V) : Connected adj {v} := by
  refine ⟨singleton_nonempty v, fun u isU w isW => ?_⟩
  rw [mem_singleton.mp isU, mem_singleton.mp isW]

section Cuts

variable [DecidableEq V]

theorem exists_link_of_path {a : Finset V} {u v : V}
    (path : Relation.ReflTransGen (fun x y => y ∈ s ∧ adj x y) u v) (inside : u ∈ a) (outside : v ∉ a) :
    ∃ x ∈ a, ∃ y ∈ s \ a, adj x y := by
  induction path with
  | refl => exact absurd inside outside
  | @tail x y _ link ih =>
    by_cases left : x ∈ a
    · exact ⟨x, left, y, mem_sdiff.mpr ⟨link.1, outside⟩, link.2⟩
    · exact ih left

theorem Connected.linked (connected : Connected adj s) {a : Finset V} (part : a ⊂ s)
    (nonempty : a.Nonempty) : Linked adj a (s \ a) := by
  obtain ⟨u, inside⟩ := nonempty
  obtain ⟨v, among, outside⟩ := exists_of_ssubset part
  exact exists_link_of_path (connected.2 u (part.subset inside) v among) inside outside

section

variable (symmetric : ∀ u v, adj u v → adj v u)
include symmetric

theorem Connected.union (left : Connected adj s) (right : Connected adj t)
    (linked : Linked adj s t) : Connected adj (s ∪ t) := by
  have within : ∀ {a b : Finset V} {u v : V}, a ⊆ b →
      Relation.ReflTransGen (fun x y => y ∈ a ∧ adj x y) u v →
        Relation.ReflTransGen (fun x y => y ∈ b ∧ adj x y) u v :=
    fun inside => Relation.ReflTransGen.mono (fun _ _ link => ⟨inside link.1, link.2⟩) _ _
  obtain ⟨p, isP, q, isQ, link⟩ := linked
  have intoLeft : s ⊆ s ∪ t := subset_union_left
  have intoRight : t ⊆ s ∪ t := subset_union_right
  refine ⟨left.1.mono intoLeft, fun u isU v isV => ?_⟩
  rcases mem_union.mp isU with isU | isU <;> rcases mem_union.mp isV with isV | isV
  · exact within intoLeft (left.2 u isU v isV)
  · exact ((within intoLeft (left.2 u isU p isP)).tail ⟨intoRight isQ, link⟩).trans
      (within intoRight (right.2 q isQ v isV))
  · exact ((within intoRight (right.2 u isU q isQ)).tail ⟨intoLeft isP, symmetric _ _ link⟩).trans
      (within intoLeft (left.2 p isP v isV))
  · exact within intoRight (right.2 u isU v isV)

theorem Connected.grow (connected : Connected adj s) (neighbours : ∀ v ∈ t, ∃ u ∈ s, adj u v) :
    Connected adj (s ∪ t) := by
  induction t using Finset.induction_on with
  | empty => rwa [union_empty]
  | insert v t _ ih =>
    have grown := ih fun x among => neighbours x (mem_insert_of_mem among)
    obtain ⟨u, isU, link⟩ := neighbours v (mem_insert_self v t)
    rw [insert_eq, ← union_assoc, union_right_comm]
    exact grown.union symmetric (connected_singleton v)
      ⟨u, mem_union_left _ isU, v, mem_singleton_self v, link⟩

/-- A connected set of two or more vertices keeps connected without some vertex, which it is linked
to: a largest connected proper part lacks only one vertex. -/
theorem Connected.exists_split (connected : Connected adj s) (two : 2 ≤ s.card) :
    ∃ a v, Connected adj a ∧ v ∉ a ∧ s = a ∪ {v} ∧ Linked adj a {v} := by
  classical
  obtain ⟨u, isU⟩ := connected.1
  let parts := s.ssubsets.filter (Connected adj)
  have some_ : {u} ∈ parts := by
    refine Finset.mem_filter.mpr ⟨Finset.mem_ssubsets.mpr ?_, connected_singleton u⟩
    refine Finset.ssubset_iff_subset_ne.mpr ⟨Finset.singleton_subset_iff.mpr isU, fun same => ?_⟩
    rw [← same, card_singleton] at two
    omega
  obtain ⟨a, isPart, largest⟩ := exists_max_image parts Finset.card ⟨_, some_⟩
  obtain ⟨part, isConnected⟩ := Finset.mem_filter.mp isPart
  rw [mem_ssubsets] at part
  obtain ⟨x, inside, v, outside, link⟩ := connected.linked part isConnected.1
  obtain ⟨isV, apart⟩ := mem_sdiff.mp outside
  have linked : Linked adj a {v} := ⟨x, inside, v, mem_singleton_self v, link⟩
  have grown := isConnected.union symmetric (connected_singleton v) linked
  refine ⟨a, v, isConnected, apart, ?_, linked⟩
  by_contra proper
  have within : a ∪ {v} ⊆ s := union_subset part.subset (Finset.singleton_subset_iff.mpr isV)
  have more := largest (a ∪ {v}) (Finset.mem_filter.mpr ⟨Finset.mem_ssubsets.mpr
    (Finset.ssubset_iff_subset_ne.mpr ⟨within, Ne.symm proper⟩), grown⟩)
  rw [card_union_of_disjoint (disjoint_singleton_right.mpr apart),
    card_singleton] at more
  omega

end

end Cuts

end Graph
