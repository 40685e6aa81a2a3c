import Mathlib.Algebra.BigOperators.Group.Finset.Basic
import Mathlib.Tactic.Abel

/-! Runs of a system of several parties: invariants of a step relation, and sums
over the parties when one of them changes. -/
namespace Antb1.Lib

variable {σ : Type} {step : σ → σ → Prop}

theorem run_keeps {holds : σ → Prop} (keeps : ∀ s t, step s t → holds s → holds t) {s t : σ}
    (run : Relation.ReflTransGen step s t) (first : holds s) : holds t := by
  induction run with
  | refl => exact first
  | tail _ last ih => exact keeps _ _ last ih

theorem run_mono {σ β : Type} [Preorder β] {step : σ → σ → Prop} {measure : σ → β}
    (grows : ∀ s t, step s t → measure s ≤ measure t) {s t : σ}
    (run : Relation.ReflTransGen step s t) : measure s ≤ measure t := by
  induction run with
  | refl => exact le_refl _
  | tail _ last ih => exact ih.trans (grows _ _ last)

/-- A system whose steps lower a measure, and that is at rest only where `goal` holds, comes to
rest there however it is run. -/
theorem comes_to_rest {holds goal : σ → Prop} (ends : WellFounded fun t s => step s t)
    (keeps : ∀ s t, step s t → holds s → holds t)
    (progress : ∀ s, holds s → goal s ∨ ∃ t, step s t) (s : σ) (first : holds s) :
    ∃ t, Relation.ReflTransGen step s t ∧ goal t := by
  induction s using ends.induction with
  | _ s ih =>
    obtain reached | ⟨t, next⟩ := progress s first
    · exact ⟨s, .refl, reached⟩
    · obtain ⟨u, run, reached⟩ := ih t next (keeps s t next first)
      exact ⟨u, .head next run, reached⟩

theorem sum_map_set_lt {α : Type} (weight : α → Nat) (parties : List α) {i : Nat} {old new : α}
    (member : parties[i]? = some old) (less : weight new < weight old) :
    ((parties.set i new).map weight).sum < (parties.map weight).sum := by
  induction parties generalizing i with
  | nil => simp at member
  | cons first rest ih =>
    cases i with
    | zero =>
      rw [List.getElem?_cons_zero, Option.some.injEq] at member
      simp [member, less]
    | succ i => simpa using ih member

theorem sum_update_add {ι α β : Type} [DecidableEq ι] [AddCommMonoid β] (members : Finset ι)
    (parties : ι → α) {i : ι} (member : i ∈ members) (new : α) (weight : α → β) :
    ∑ x ∈ members, weight (Function.update parties i new x) + weight (parties i) =
      ∑ x ∈ members, weight (parties x) + weight new := by
  have others : ∑ x ∈ members.erase i, weight (Function.update parties i new x) =
      ∑ x ∈ members.erase i, weight (parties x) := by
    apply Finset.sum_congr rfl
    intro x inside
    rw [Function.update_of_ne (Finset.ne_of_mem_erase inside)]
  rw [← Finset.add_sum_erase _ _ member, others, Function.update_self,
    ← Finset.add_sum_erase members (fun x => weight (parties x)) member]
  abel

variable {C α β : Type} [Fintype C] [DecidableEq C] [AddCommGroup β]

theorem sum_update (parties : C → α) (c : C) (new : α) (weight : α → β) :
    ∑ x, weight (Function.update parties c new x) =
      ∑ x, weight (parties x) + (weight new - weight (parties c)) := by
  have total := sum_update_add Finset.univ parties (Finset.mem_univ c) new weight
  rw [eq_sub_of_add_eq total]
  abel

end Antb1.Lib
