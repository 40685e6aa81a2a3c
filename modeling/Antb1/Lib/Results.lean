import Mathlib.Data.List.Forall2

/-! Computations that may fail, from their results. -/
namespace Antb1.Lib

variable {ε α β : Type} {f : α → Except ε β} {list : List α}

@[simp] theorem ok_bind (a : α) (next : α → Except ε β) : (Except.ok a >>= next) = next a := rfl

theorem bind_ok {first : Except ε α} {next : α → Except ε β} {result : β}
    (ok : first >>= next = .ok result) : ∃ a, first = .ok a ∧ next a = .ok result := by
  cases first with
  | error _ => contradiction
  | ok a => exact ⟨a, rfl, ok⟩

theorem mapM_congr {f g : α → Except ε β} (same : ∀ a ∈ list, f a = g a) :
    list.mapM f = list.mapM g := by
  induction list with
  | nil => rfl
  | cons first rest ih =>
    rw [List.mapM_cons, List.mapM_cons, same first List.mem_cons_self,
      ih fun a member => same a (List.mem_cons_of_mem _ member)]

theorem mapM_ok (f : α → β) (list : List α) :
    list.mapM (fun a => (.ok (f a) : Except ε β)) = .ok (list.map f) := by
  induction list with
  | nil => rfl
  | cons first rest ih =>
    rw [List.mapM_cons, ok_bind, ih]
    rfl

theorem mapM_forall₂ {results : List β} (mapped : list.mapM f = .ok results) :
    List.Forall₂ (fun a b => f a = .ok b) list results := by
  induction list generalizing results with
  | nil =>
    cases mapped
    exact .nil
  | cons first rest ih =>
    rw [List.mapM_cons] at mapped
    obtain ⟨b, isFirst, mapped⟩ := bind_ok mapped
    obtain ⟨bs, isRest, mapped⟩ := bind_ok mapped
    cases mapped
    exact .cons isFirst (ih isRest)

theorem mapM_error {e : ε} (failed : list.mapM f = .error e) : ∃ a ∈ list, f a = .error e := by
  induction list with
  | nil => cases failed
  | cons first rest ih =>
    rw [List.mapM_cons] at failed
    cases isFirst : f first with
    | error _ =>
      rw [isFirst] at failed
      cases failed
      exact ⟨first, List.mem_cons_self, isFirst⟩
    | ok b =>
      rw [isFirst, ok_bind] at failed
      cases isRest : rest.mapM f with
      | error _ =>
        rw [isRest] at failed
        cases failed
        obtain ⟨a, among, isError⟩ := ih isRest
        exact ⟨a, List.mem_cons_of_mem _ among, isError⟩
      | ok bs =>
        rw [isRest] at failed
        cases failed

/-- A loop that may fail goes through where every step keeps an invariant of what is done. -/
theorem foldlM_invariant {σ : Type} {f : σ → α → Option σ} {s : σ} {holds : List α → σ → Prop}
    (start : holds [] s)
    (step : ∀ done a rest s, list = done ++ a :: rest → holds done s →
      ∃ s', f s a = some s' ∧ holds (done ++ [a]) s') :
    ∃ s', list.foldlM f s = some s' ∧ holds list s' := by
  suffices from_ : ∀ rest done s, list = done ++ rest → holds done s →
      ∃ s', rest.foldlM f s = some s' ∧ holds list s' from from_ list [] s rfl start
  intro rest
  induction rest with
  | nil =>
    intro done s whole held
    rw [List.append_nil] at whole
    exact ⟨s, rfl, whole ▸ held⟩
  | cons a rest ih =>
    intro done s whole held
    obtain ⟨s', stepped, held'⟩ := step done a rest s whole held
    obtain ⟨final, run, isFinal⟩ := ih (done ++ [a]) s' (by rw [whole, List.append_assoc]; rfl) held'
    exact ⟨final, by rw [List.foldlM_cons, stepped]; exact run, isFinal⟩

end Antb1.Lib
