import Mathlib.Data.List.Induction
import Mathlib.Data.List.Nodup
import Mathlib.Tactic.Linarith

/-! The frequent values of a stream in bounded memory, the Misra-Gries summary of
`exec/heavy_hitters.cc`: what its counters tell of the values added. -/
namespace Antb1.Exec

open List

abbrev Counters := List (UInt64 × Nat)

/-- A summary; a value has at most one counter. -/
structure HeavyHitters where
  capacity : Nat
  counters : Counters := []
  count : Nat := 0
  deriving DecidableEq, Repr

namespace HeavyHitters

def make (capacity : Nat) : HeavyHitters := { capacity := max capacity 1 }

def increment (value : UInt64) (counter : UInt64 × Nat) : UInt64 × Nat :=
  if counter.1 = value then (counter.1, counter.2 + 1) else counter

/-- Every counter goes down by one; those at zero are erased. -/
def decrement (counters : Counters) : Counters :=
  (counters.map fun counter => (counter.1, counter.2 - 1)).filter (·.2 ≠ 0)

def add (h : HeavyHitters) (value : UInt64) : HeavyHitters :=
  let count := h.count + 1
  if value ∈ h.counters.map Prod.fst then
    { h with counters := h.counters.map (increment value), count }
  else if h.counters.length < h.capacity then
    { h with counters := (value, 1) :: h.counters, count }
  else { h with counters := decrement h.counters, count }

def of (capacity : Nat) (values : List UInt64) : HeavyHitters := values.foldl add (make capacity)

/-- The counter of a value in a list of counters, 0 if it has none. -/
def counterIn (counters : Counters) (value : UInt64) : Nat :=
  (counters.lookup value).getD 0

def total (counters : Counters) : Nat := (counters.map Prod.snd).sum

section Counters

variable {counters : Counters} {value : UInt64}

theorem counterIn_cons (counter : UInt64 × Nat) (value : UInt64) :
    counterIn (counter :: counters) value =
      if value = counter.1 then counter.2 else counterIn counters value := by
  rw [counterIn, lookup_cons]
  by_cases same : value = counter.1
  · simp [same]
  · simp [same, beq_eq_false_iff_ne.mpr same, counterIn]

theorem counterIn_absent (absent : value ∉ counters.map Prod.fst) :
    counterIn counters value = 0 := by
  induction counters with
  | nil => rfl
  | cons counter rest ih =>
    rw [map_cons, mem_cons, not_or] at absent
    rw [counterIn_cons, if_neg absent.1, ih absent.2]

theorem increment_fst (value : UInt64) (counter : UInt64 × Nat) :
    (increment value counter).1 = counter.1 := by
  rw [increment]
  split_ifs <;> rfl

theorem keys_increment (value : UInt64) (counters : Counters) :
    (counters.map (increment value)).map Prod.fst = counters.map Prod.fst := by
  rw [map_map]
  exact map_congr_left fun counter _ => increment_fst value counter

theorem counterIn_increment (value : UInt64) (counters : Counters) (other : UInt64) :
    counterIn (counters.map (increment value)) other = counterIn counters other +
      if other = value ∧ other ∈ counters.map Prod.fst then 1 else 0 := by
  induction counters with
  | nil => simp [counterIn]
  | cons counter rest ih =>
    rw [map_cons, counterIn_cons, counterIn_cons, increment_fst]
    by_cases first : other = counter.1
    · rw [if_pos first, if_pos first, increment, first]
      by_cases same : counter.1 = value <;> simp [same]
    · rw [if_neg first, if_neg first, ih]
      simp only [map_cons, mem_cons, first, false_or]

/-- The sum goes up by the number of the value's counters, which is one. -/
theorem total_increment (value : UInt64) (counters : Counters) :
    total (counters.map (increment value)) =
      total counters + (counters.map Prod.fst).count value := by
  induction counters with
  | nil => rfl
  | cons counter rest ih =>
    simp only [total, map_cons, sum_cons] at ih ⊢
    rw [ih, count_cons, increment]
    by_cases same : counter.1 = value
    · simp only [same, if_true, beq_self_eq_true]
      omega
    · simp only [same, if_false, beq_iff_eq]
      omega

theorem decrement_cons (counter : UInt64 × Nat) (rest : Counters) :
    decrement (counter :: rest) = if counter.2 - 1 = 0 then decrement rest
      else (counter.1, counter.2 - 1) :: decrement rest := by
  by_cases zero : counter.2 - 1 = 0 <;> simp [decrement, zero]

theorem keys_decrement (counters : Counters) :
    ((decrement counters).map Prod.fst).Sublist (counters.map Prod.fst) := by
  induction counters with
  | nil => exact List.Sublist.refl _
  | cons counter rest ih =>
    rw [decrement_cons]
    split_ifs
    · exact ih.cons _
    · exact ih.cons_cons _

theorem counterIn_decrement (distinct : (counters.map Prod.fst).Nodup) (value : UInt64) :
    counterIn (decrement counters) value = counterIn counters value - 1 := by
  induction counters with
  | nil => rfl
  | cons counter rest ih =>
    obtain ⟨new, distinct⟩ := nodup_cons.mp distinct
    rw [decrement_cons, counterIn_cons]
    split_ifs with zero first first
    · rw [zero, first]
      exact counterIn_absent fun held => new ((keys_decrement rest).subset held)
    · exact ih distinct
    · rw [counterIn_cons, if_pos first]
    · rw [counterIn_cons, if_neg first, ih distinct]

theorem total_decrement (positive : ∀ counter ∈ counters, 0 < counter.2) :
    total (decrement counters) + counters.length = total counters := by
  induction counters with
  | nil => rfl
  | cons counter rest ih =>
    obtain ⟨above, positive⟩ := forall_mem_cons.mp positive
    have rest' := ih positive
    rw [decrement_cons]
    simp only [total, map_cons, sum_cons, length_cons] at rest' ⊢
    split_ifs with zero
    · omega
    · rw [map_cons, sum_cons]
      omega

end Counters

/-- What a summary tells of the values added: no counter is above its value's count, and each
round of decrements, which takes one from `capacity` counters and drops the value added, accounts
for one that a count is ahead of its counter. -/
structure Summarizes (h : HeavyHitters) (values : List UInt64) : Prop where
  counted : h.count = values.length
  distinct : (h.counters.map Prod.fst).Nodup
  positive : ∀ counter ∈ h.counters, 0 < counter.2
  few : h.counters.length ≤ h.capacity
  below : ∀ value, counterIn h.counters value ≤ values.count value
  ahead : ∀ value, values.count value * (h.capacity + 1) + total h.counters ≤
    counterIn h.counters value * (h.capacity + 1) + values.length

theorem make_summarizes (capacity : Nat) : (make capacity).Summarizes [] where
  counted := rfl
  distinct := nodup_nil
  positive := forall_mem_nil _
  few := Nat.zero_le _
  below _ := Nat.le_refl 0
  ahead _ := by simp [make, total, counterIn]

section Add

variable {h : HeavyHitters} {values : List UInt64} {value : UInt64}

theorem count_snoc (values : List UInt64) (value other : UInt64) :
    (values ++ [value]).count other = values.count other + if other = value then 1 else 0 := by
  rw [count_append, count_singleton]
  simp only [beq_iff_eq, @eq_comm _ value]

section

variable (summarizes : h.Summarizes values)
include summarizes

theorem Summarizes.counts {counters : Counters} (distinct : (counters.map Prod.fst).Nodup)
    (positive : ∀ counter ∈ counters, 0 < counter.2) (few : counters.length ≤ h.capacity)
    (one : total counters = total h.counters + 1)
    (counter : ∀ other, counterIn counters other =
      counterIn h.counters other + if other = value then 1 else 0) :
    Summarizes { h with counters, count := h.count + 1 } (values ++ [value]) := by
  constructor
  case counted => simp [summarizes.counted]
  case distinct => exact distinct
  case positive => exact positive
  case few => exact few
  case below =>
    intro other
    rw [counter, count_snoc]
    exact Nat.add_le_add_right (summarizes.below other) _
  case ahead =>
    intro other
    have ahead := summarizes.ahead other
    dsimp only
    rw [counter, one, count_snoc, Nat.add_mul, Nat.add_mul, length_append,
      length_singleton]
    omega

theorem Summarizes.found (present : value ∈ h.counters.map Prod.fst) :
    Summarizes { h with counters := h.counters.map (increment value), count := h.count + 1 }
      (values ++ [value]) := by
  apply summarizes.counts
  case distinct => exact (keys_increment value h.counters).symm ▸ summarizes.distinct
  case positive =>
    intro counter member
    obtain ⟨before, held, rfl⟩ := mem_map.mp member
    have above := summarizes.positive before held
    rw [increment]
    split_ifs
    · exact Nat.succ_pos _
    · exact above
  case few => exact (length_map _).trans_le summarizes.few
  case one =>
    rw [total_increment, count_eq_one_of_mem summarizes.distinct present]
  case counter =>
    intro other
    rw [counterIn_increment]
    by_cases same : other = value
    · simp only [same, present, and_self]
    · simp only [same, false_and]

theorem Summarizes.room (absent : value ∉ h.counters.map Prod.fst)
    (less : h.counters.length < h.capacity) :
    Summarizes { h with counters := (value, 1) :: h.counters, count := h.count + 1 }
      (values ++ [value]) := by
  apply summarizes.counts
  case distinct => exact nodup_cons.mpr ⟨absent, summarizes.distinct⟩
  case positive => exact forall_mem_cons.mpr ⟨Nat.one_pos, summarizes.positive⟩
  case few => exact less
  case one => rw [total, map_cons, sum_cons, total, Nat.add_comm]
  case counter =>
    intro other
    rw [counterIn_cons]
    split_ifs with same
    · rw [same, counterIn_absent absent]
    · rfl

theorem Summarizes.full (absent : value ∉ h.counters.map Prod.fst)
    (full : ¬h.counters.length < h.capacity) :
    Summarizes { h with counters := decrement h.counters, count := h.count + 1 }
      (values ++ [value]) := by
  have removed := total_decrement summarizes.positive
  have counter := counterIn_decrement summarizes.distinct
  have shorter := (keys_decrement h.counters).length_le
  rw [length_map, length_map] at shorter
  have few := summarizes.few
  constructor
  case counted => simp [summarizes.counted]
  case distinct => exact summarizes.distinct.sublist (keys_decrement h.counters)
  case positive =>
    intro counter member
    have nonzero := (mem_filter.mp member).2
    exact Nat.pos_of_ne_zero (of_decide_eq_true nonzero)
  case few => exact shorter.trans few
  case below =>
    intro other
    have below := summarizes.below other
    rw [counter, count_snoc]
    omega
  case ahead =>
    intro other
    have ahead := summarizes.ahead other
    rw [counter, count_snoc, Nat.add_mul, length_append, length_singleton]
    by_cases same : other = value
    · rw [same, counterIn_absent absent] at ahead ⊢
      simp only [if_true]
      omega
    · simp only [same, if_false]
      cases held : counterIn h.counters other with
      | zero =>
        rw [held] at ahead
        omega
      | succ n =>
        rw [held, Nat.add_mul] at ahead
        simp only [Nat.add_sub_cancel]
        omega

end

end Add

theorem Summarizes.add {h : HeavyHitters} {values : List UInt64} (summarizes : h.Summarizes values)
    (value : UInt64) : (h.add value).Summarizes (values ++ [value]) := by
  dsimp only [HeavyHitters.add]
  split_ifs with present less
  · exact summarizes.found present
  · exact summarizes.room present less
  · exact summarizes.full present less

theorem capacity_add (h : HeavyHitters) (value : UInt64) : (h.add value).capacity = h.capacity := by
  dsimp only [HeavyHitters.add]
  split_ifs <;> rfl

theorem of_summarizes (capacity : Nat) (values : List UInt64) :
    (of capacity values).Summarizes values ∧ (of capacity values).capacity = max capacity 1 := by
  induction values using List.reverseRecOn with
  | nil => exact ⟨make_summarizes capacity, rfl⟩
  | append_singleton values value ih =>
    have last : of capacity (values ++ [value]) = (of capacity values).add value := by
      rw [of, foldl_append]
      rfl
    rw [last]
    exact ⟨ih.1.add value, (capacity_add _ _).trans ih.2⟩

/-- A summary keeps every frequent value. -/
theorem of_keepsFrequent (capacity : Nat) (values : List UInt64) :
    (of capacity values).counters.length ≤ max capacity 1 ∧
      (∀ counter ∈ (of capacity values).counters, 0 < counter.2) ∧
      ∀ value, counterIn (of capacity values).counters value ≤ values.count value ∧
        (values.count value : ℚ) -
          (values.length - total (of capacity values).counters) / (max capacity 1 + 1 : ℕ) ≤
            counterIn (of capacity values).counters value ∧
        ((values.length : ℚ) / (max capacity 1 + 1 : ℕ) < values.count value →
          value ∈ (of capacity values).counters.map Prod.fst) := by
  obtain ⟨summarizes, isCapacity⟩ := of_summarizes capacity values
  generalize of capacity values = h at *
  refine ⟨isCapacity ▸ summarizes.few, summarizes.positive, fun value => ?_⟩
  have positive : (0 : ℚ) < (max capacity 1 + 1 : ℕ) := by exact_mod_cast Nat.succ_pos _
  have scaled : (values.count value : ℚ) * (max capacity 1 + 1 : ℕ) + total h.counters ≤
      counterIn h.counters value * (max capacity 1 + 1 : ℕ) + values.length := by
    exact_mod_cast isCapacity ▸ summarizes.ahead value
  refine ⟨summarizes.below value, ?_, fun frequent => ?_⟩
  · rw [sub_le_iff_le_add, ← sub_le_iff_le_add', le_div_iff₀ positive, sub_mul]
    linarith
  · by_contra absent
    rw [counterIn_absent absent, Nat.cast_zero, zero_mul, zero_add] at scaled
    rw [div_lt_iff₀ positive] at frequent
    have sum : (0 : ℚ) ≤ total h.counters := Nat.cast_nonneg _
    linarith

/-- A capacity of 0 is taken for 1. -/
theorem of_noCapacity : ¬∀ (capacity : Nat) (values : List UInt64),
    (of capacity values).counters.length ≤ capacity := by
  intro bounded
  exact absurd (bounded 0 [7]) (by decide)

end HeavyHitters

end Antb1.Exec
