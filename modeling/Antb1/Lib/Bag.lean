import Mathlib.Data.Multiset.Dedup

/-! Bag operations of SQL over finite multisets. Each operation is given with
the count of an element, so that a proof about a whole tree of operations
becomes arithmetic on the counts of one row. -/
namespace Bag

open Multiset

variable {α : Type*} [DecidableEq α]

def unionDistinct (a b : Multiset α) : Multiset α := (a + b).dedup

def intersectDistinct (a b : Multiset α) : Multiset α := (a ∩ b).dedup

/-- Each element of the first operand that the second lacks, once. -/
def exceptDistinct (a b : Multiset α) : Multiset α := (a.filter (· ∉ b)).dedup

/-- The presence of a count: SQL's DISTINCT forms read no more than this. -/
def presence (n : Nat) : Nat := if 0 < n then 1 else 0

@[simp] theorem presence_zero : presence 0 = 0 := rfl

@[simp] theorem presence_presence (n : Nat) : presence (presence n) = presence n := by
  unfold presence
  split <;> simp_all

theorem presence_pos {n : Nat} : 0 < presence n ↔ 0 < n := by
  unfold presence
  split <;> omega

theorem presence_congr {m n : Nat} (same : 0 < m ↔ 0 < n) : presence m = presence n := by
  simp only [presence, same]

theorem count_coe [BEq α] [LawfulBEq α] (rows : List α) (x : α) :
    (rows : Multiset α).count x = rows.count x := by
  rw [coe_count]
  congr
  exact lawful_beq_subsingleton _ _

theorem count_dedup (a : Multiset α) (x : α) : a.dedup.count x = presence (a.count x) := by
  rw [Multiset.count_dedup]
  simp only [presence, Multiset.count_pos]

theorem count_unionDistinct (a b : Multiset α) (x : α) :
    (unionDistinct a b).count x = presence (a.count x + b.count x) := by
  rw [unionDistinct, count_dedup, count_add]

theorem count_intersectDistinct (a b : Multiset α) (x : α) :
    (intersectDistinct a b).count x = presence (min (a.count x) (b.count x)) := by
  rw [intersectDistinct, count_dedup, count_inter]

theorem count_exceptDistinct (a b : Multiset α) (x : α) :
    (exceptDistinct a b).count x = if b.count x = 0 then presence (a.count x) else 0 := by
  rw [exceptDistinct, count_dedup, count_filter]
  by_cases absent : b.count x = 0
  · simp [Multiset.count_eq_zero.mp absent]
  · have present : x ∈ b := by simpa using absent
    simp [absent, present]

theorem unionDistinct_assoc (a b c : Multiset α) :
    unionDistinct (unionDistinct a b) c = unionDistinct a (unionDistinct b c) := by
  ext x
  simp only [count_unionDistinct]
  apply presence_congr
  simp only [Nat.add_pos_iff_pos_or_pos, presence_pos]
  tauto

section Injective

variable {β : Type*} [DecidableEq β] {f : α → β} (injective : Function.Injective f)
include injective

theorem map_dedup (a : Multiset α) : (a.map f).dedup = a.dedup.map f :=
  dedup_map_of_injective injective a

theorem map_counts {count : Nat → Nat → Nat} (zero : count 0 0 = 0) {a b c : Multiset α}
    {c' : Multiset β} (counts : ∀ x, c.count x = count (a.count x) (b.count x))
    (counts' : ∀ y, c'.count y = count ((a.map f).count y) ((b.map f).count y)) :
    c.map f = c' := by
  ext y
  rw [counts']
  by_cases image : ∃ x, f x = y
  · obtain ⟨x, rfl⟩ := image
    simp only [count_map_eq_count' f _ injective, counts]
  · have outside : ∀ d : Multiset α, (d.map f).count y = 0 := by
      intro d
      rw [count_eq_zero, mem_map]
      rintro ⟨x, _, same⟩
      exact image ⟨x, same⟩
    simp only [outside, zero]

section

variable (a b : Multiset α)

theorem map_inter : (a ∩ b).map f = a.map f ∩ b.map f :=
  map_counts injective (Nat.min_self 0) (count_inter · a b) (count_inter · _ _)

theorem map_sub : (a - b).map f = a.map f - b.map f :=
  map_counts injective (Nat.sub_self 0) (count_sub · a b) (count_sub · _ _)

theorem map_unionDistinct : (unionDistinct a b).map f = unionDistinct (a.map f) (b.map f) := by
  rw [unionDistinct, unionDistinct, ← map_dedup injective, map_add]

theorem map_intersectDistinct :
    (intersectDistinct a b).map f = intersectDistinct (a.map f) (b.map f) := by
  rw [intersectDistinct, intersectDistinct, ← map_dedup injective, map_inter injective]

theorem map_exceptDistinct : (exceptDistinct a b).map f = exceptDistinct (a.map f) (b.map f) := by
  have kept : (a.filter (· ∉ b)).map f = (a.map f).filter (· ∉ b.map f) := by
    rw [filter_map]
    congr 1
    apply filter_congr
    intro x _
    simp only [Function.comp_apply, mem_map_of_injective injective]
  rw [exceptDistinct, exceptDistinct, ← map_dedup injective, kept]

end

end Injective

end Bag
