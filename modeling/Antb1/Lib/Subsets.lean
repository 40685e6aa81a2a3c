import Mathlib.Data.List.Sublists
import Mathlib.Data.Finset.Dedup
import Mathlib.Algebra.Order.Ring.Nat

/-! Every subset of a list, depth first: the set so far, then each later element added
in turn. Ascending lists without repetition, as sets of numbers. -/
namespace Antb1.Lib

open List

variable {α β : Type}

def depthFirst : List α → List (List α)
  | [] => [[]]
  | first :: rest => [] :: ((depthFirst rest).map (first :: ·) ++ (depthFirst rest).tail)

theorem depthFirst_eq_cons (items : List α) : ∃ others, depthFirst items = [] :: others := by
  cases items with
  | nil => exact ⟨[], rfl⟩
  | cons first rest => exact ⟨_, rfl⟩

theorem cons_tail_depthFirst (items : List α) :
    [] :: (depthFirst items).tail = depthFirst items := by
  obtain ⟨others, same⟩ := depthFirst_eq_cons items
  rw [same, tail_cons]

theorem depthFirst_cons_perm (first : α) (rest : List α) :
    (depthFirst (first :: rest)).Perm (depthFirst rest ++ (depthFirst rest).map (first :: ·)) := by
  have moved : ((depthFirst rest).map (first :: ·) ++ (depthFirst rest).tail).Perm
      ((depthFirst rest).tail ++ (depthFirst rest).map (first :: ·)) := perm_append_comm
  refine (moved.cons []).trans (.of_eq ?_)
  rw [← cons_append, cons_tail_depthFirst]

theorem depthFirst_perm_sublists (items : List α) : (depthFirst items).Perm items.sublists := by
  induction items with
  | nil => exact .refl _
  | cons first rest ih =>
    refine (depthFirst_cons_perm first rest).trans ?_
    exact (ih.append (ih.map _)).trans (sublists_cons_perm_append first rest).symm

theorem length_depthFirst (items : List α) : (depthFirst items).length = 2 ^ items.length := by
  rw [(depthFirst_perm_sublists items).length_eq, length_sublists]

theorem depthFirst_map (f : α → β) (items : List α) :
    depthFirst (items.map f) = (depthFirst items).map (List.map f) := by
  induction items with
  | nil => rfl
  | cons first rest ih =>
    simp only [map_cons, depthFirst, ih, map_map, map_append, map_tail,
      map_nil]
    rfl

/-- A subset of later elements is after every subset that starts earlier. -/
theorem mem_tail_depthFirst {items chosen : List α} (member : chosen ∈ (depthFirst items).tail) :
    ∃ first rest, chosen = first :: rest ∧ first ∈ items := by
  induction items with
  | nil => cases member
  | cons first rest ih =>
    rw [depthFirst, tail_cons, mem_append, mem_map] at member
    rcases member with ⟨others, _, rfl⟩ | later
    · exact ⟨first, others, rfl, mem_cons_self⟩
    · obtain ⟨next, others, rfl, among⟩ := ih later
      exact ⟨next, others, rfl, mem_cons_of_mem first among⟩

/-- The subsets of an ascending list come in lexicographic order. -/
theorem depthFirst_ordered {items : List Nat} (ascending : items.Pairwise (· < ·)) :
    (depthFirst items).Pairwise (· < ·) := by
  induction items with
  | nil => exact pairwise_singleton _ _
  | cons first rest ih =>
    obtain ⟨least, ascending⟩ := pairwise_cons.mp ascending
    have ordered := ih ascending
    have tailOrdered : (depthFirst rest).tail.Pairwise (· < ·) :=
      ordered.sublist (tail_sublist _)
    refine pairwise_cons.mpr ⟨?_, pairwise_append.mpr ⟨?_, tailOrdered, ?_⟩⟩
    · intro chosen member
      rcases mem_append.mp member with begins | later
      · obtain ⟨others, _, rfl⟩ := mem_map.mp begins
        exact nil_lt_cons first others
      · obtain ⟨next, others, rfl, _⟩ := mem_tail_depthFirst later
        exact nil_lt_cons next others
    · exact pairwise_map.mpr (ordered.imp fun below => cons_lt_cons_iff.mpr (.inr ⟨rfl, below⟩))
    · intro chosen begins other later
      obtain ⟨others, _, rfl⟩ := mem_map.mp begins
      obtain ⟨next, more, rfl, among⟩ := mem_tail_depthFirst later
      exact cons_lt_cons_iff.mpr (.inl (least next among))

/-- `std::unique` on numbers: one of every run. -/
def unique : List Nat → List Nat
  | [] => []
  | [a] => [a]
  | a :: b :: rest => if a = b then unique (b :: rest) else a :: unique (b :: rest)

@[simp] theorem mem_unique {a : Nat} {list : List Nat} : a ∈ unique list ↔ a ∈ list := by
  fun_induction unique list with
  | case1 => rfl
  | case2 => rfl
  | case3 b rest ih => simp [ih]
  | case4 b c rest different ih => simp [ih]

theorem unique_ascending {list : List Nat} (sorted : list.Pairwise (· ≤ ·)) :
    (unique list).Pairwise (· < ·) := by
  fun_induction unique list with
  | case1 => exact .nil
  | case2 => exact pairwise_singleton _ _
  | case3 b rest ih => exact ih (pairwise_cons.mp sorted).2
  | case4 b c rest different ih =>
    obtain ⟨least, sorted⟩ := pairwise_cons.mp sorted
    refine pairwise_cons.mpr ⟨fun d member => ?_, ih sorted⟩
    rw [mem_unique] at member
    have above : c ≤ d := by
      rcases mem_cons.mp member with rfl | later
      · exact le_rfl
      · exact (pairwise_cons.mp sorted).1 d later
    have below := least c mem_cons_self
    omega

def normalized (set : List Nat) : List Nat := unique (set.mergeSort fun a b => a ≤ b)

theorem normalized_ascending (set : List Nat) : (normalized set).Pairwise (· < ·) := by
  refine unique_ascending ?_
  have sorted := @pairwise_mergeSort Nat (fun a b => decide (a ≤ b))
    (fun a b c => by simpa using Nat.le_trans) (fun a b => by simpa using Nat.le_total a b) set
  simpa using sorted

@[simp] theorem toFinset_normalized (set : List Nat) : (normalized set).toFinset = set.toFinset := by
  ext a
  simp [normalized]

theorem ascending_eq {first second : List Nat} (ascending : first.Pairwise (· < ·))
    (ascending' : second.Pairwise (· < ·)) (same : first.toFinset = second.toFinset) :
    first = second := by
  refine List.Perm.eq_of_pairwise (fun a b _ _ => fun below above => absurd below (Nat.lt_asymm above))
    ascending ascending' ?_
  rw [perm_ext_iff_of_nodup (ascending.imp Nat.ne_of_lt) (ascending'.imp Nat.ne_of_lt)]
  intro a
  rw [← mem_toFinset, same, mem_toFinset]

end Antb1.Lib
