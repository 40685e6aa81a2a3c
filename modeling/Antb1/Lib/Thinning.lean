
/-! Lists from which some elements are left out. -/
namespace Antb1.Lib

/-- The second list is the first one without some of its elements, all of them `out`. -/
inductive Thins {α : Type} (out : α → Prop) : List α → List α → Prop where
  | nil : Thins out [] []
  | keep (x : α) {xs ys : List α} (rest : Thins out xs ys) : Thins out (x :: xs) (x :: ys)
  | drop {x : α} {xs ys : List α} (left : out x) (rest : Thins out xs ys) : Thins out (x :: xs) ys

namespace Thins

variable {α β : Type} {out : α → Prop} {xs ys : List α}

theorem refl (xs : List α) : Thins out xs xs := by
  induction xs with
  | nil => exact .nil
  | cons x xs ih => exact .keep x ih

theorem all_dropped (dropped : ∀ x ∈ xs, out x) : Thins out xs [] := by
  induction xs with
  | nil => exact .nil
  | cons x xs ih =>
    exact .drop (dropped x List.mem_cons_self) (ih fun y member =>
      dropped y (List.mem_cons_of_mem _ member))

theorem append {xs' ys' : List α} (first : Thins out xs ys) (second : Thins out xs' ys') :
    Thins out (xs ++ xs') (ys ++ ys') := by
  induction first with
  | nil => exact second
  | keep x _ ih => exact .keep x ih
  | drop left _ ih => exact .drop left ih

theorem mono {other : α → Prop} (implies : ∀ x ∈ xs, out x → other x) (thins : Thins out xs ys) :
    Thins other xs ys := by
  induction thins with
  | nil => exact .nil
  | keep x _ ih => exact .keep x (ih fun y member => implies y (List.mem_cons_of_mem _ member))
  | drop left _ ih =>
    exact .drop (implies _ List.mem_cons_self left)
      (ih fun y member => implies y (List.mem_cons_of_mem _ member))

theorem filter (keeps : α → Bool) (xs : List α) :
    Thins (fun x => keeps x = false) xs (xs.filter keeps) := by
  induction xs with
  | nil => exact .nil
  | cons x xs ih =>
    cases kept : keeps x with
    | true => simpa [kept] using ih.keep x
    | false =>
      have dropped : Thins (fun x => keeps x = false) (x :: xs) (xs.filter keeps) := .drop kept ih
      simpa [kept] using dropped

theorem flatMap {other : β → Prop} {f : α → List β} (implies : ∀ x, out x → ∀ y ∈ f x, other y)
    (thins : Thins out xs ys) : Thins other (xs.flatMap f) (ys.flatMap f) := by
  induction thins with
  | nil => exact .nil
  | keep x _ ih => exact (refl (f x)).append ih
  | drop left _ ih => exact (all_dropped (implies _ left)).append ih

theorem flatMap_eq {f : α → List β} (nothing : ∀ x, out x → f x = []) (thins : Thins out xs ys) :
    xs.flatMap f = ys.flatMap f := by
  induction thins with
  | nil => rfl
  | keep x _ ih => rw [List.flatMap_cons, List.flatMap_cons, ih]
  | drop left _ ih => rw [List.flatMap_cons, nothing _ left, List.nil_append, ih]

theorem any_eq {p : α → Bool} (never : ∀ x, out x → p x = false) (thins : Thins out xs ys) :
    xs.any p = ys.any p := by
  induction thins with
  | nil => rfl
  | keep x _ ih => rw [List.any_cons, List.any_cons, ih]
  | drop left _ ih => rw [List.any_cons, never _ left, Bool.false_or, ih]

theorem mapM {f : α → Option β} {as : List β} (thins : Thins out xs ys)
    (mapped : xs.mapM f = some as) :
    ∃ bs, ys.mapM f = some bs ∧ Thins (fun a => ∃ x, out x ∧ f x = some a) as bs := by
  induction thins generalizing as with
  | nil => exact ⟨as, mapped, .refl as⟩
  | keep x _ ih =>
    simp only [List.mapM_cons, Option.bind_eq_bind, Option.bind_eq_some_iff, Option.pure_def,
      Option.some.injEq] at mapped
    obtain ⟨a, first, rest, later, rfl⟩ := mapped
    obtain ⟨bs, mapped', thinned⟩ := ih later
    exact ⟨a :: bs, by simp [first, mapped'], .keep a thinned⟩
  | drop left _ ih =>
    simp only [List.mapM_cons, Option.bind_eq_bind, Option.bind_eq_some_iff, Option.pure_def,
      Option.some.injEq] at mapped
    obtain ⟨a, first, rest, later, rfl⟩ := mapped
    obtain ⟨bs, mapped', thinned⟩ := ih later
    exact ⟨bs, mapped', .drop ⟨_, left, first⟩ thinned⟩

end Thins

end Antb1.Lib
