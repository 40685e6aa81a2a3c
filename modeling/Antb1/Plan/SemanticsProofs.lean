import Antb1.Plan.Semantics

/-! Facts about evaluation shared by the proofs about plans. -/
namespace Antb1.Plan

open Outcomes

variable {α β : Type} {f : α → Option β} {list : List α} {results : List β}

/-- A database whose operators keep their rows' order and use no scalar kernel. -/
def Context.ordered (tables : TableId → List (List Value)) : Context where
  kernels := ⟨fun _ _ _ _ => none, fun _ _ => none, fun _ _ _ => none, fun _ _ _ => none,
    fun _ _ => false, fun _ _ => 0⟩
  doubles := fun _ _ _ => none
  tables := tables
  arrange rows taken := taken = rows
  perm same := same ▸ .refl _
  total rows := ⟨rows, rfl⟩

section Assign

theorem assign_other (row : Row) {column : ColumnId} {ids : List ColumnId}
    (other : column ∉ ids) (values : List Value) : row.assign ids values column = row column := by
  induction ids generalizing values with
  | nil => rfl
  | cons id ids ih =>
    rw [List.mem_cons, not_or] at other
    cases values with
    | nil => rfl
    | cons value values => simp [Row.assign, other.1, ih other.2]

theorem map_assign (row : Row) {ids : List ColumnId} (nodup : ids.Nodup) {values : List Value}
    (length : ids.length = values.length) : ids.map (row.assign ids values) = values := by
  induction ids generalizing values with
  | nil => simpa using (List.length_eq_zero_iff.mp length.symm).symm
  | cons id ids ih =>
    cases values with
    | nil => cases length
    | cons value values =>
      rw [List.nodup_cons] at nodup
      have rest : ids.map (row.assign (id :: ids) (value :: values)) =
          ids.map (row.assign ids values) := by
        apply List.map_congr_left
        intro column member
        have different : column ≠ id := fun same => nodup.1 (same ▸ member)
        simp [Row.assign, different]
      rw [List.map_cons, rest, ih nodup.2 (by simpa using length)]
      simp [Row.assign]

end Assign

theorem mapM_read {α β γ : Type} {f : α → Option β} {read : β → γ} {value : α → γ} {rows : List α}
    (each : ∀ row ∈ rows, ∃ result, f row = some result ∧ read result = value row) :
    ∃ results, rows.mapM f = some results ∧ results.map read = rows.map value := by
  induction rows with
  | nil => exact ⟨[], rfl, rfl⟩
  | cons row rest ih =>
    obtain ⟨result, found, same⟩ := each row (by simp)
    obtain ⟨results, founds, sames⟩ := ih fun other member => each other (by simp [member])
    exact ⟨result :: results, by simp [List.mapM_cons, found, founds], by simp [same, sames]⟩

theorem mapM_eq_some :
    list.mapM f = some results ↔ List.Forall₂ (fun a b => f a = some b) list results := by
  induction list generalizing results with
  | nil => simp [eq_comm]
  | cons first rest ih =>
    simp only [List.mapM_cons, Option.bind_eq_bind, Option.bind_eq_some_iff, Option.pure_def,
      Option.some.injEq, ih, List.forall₂_cons_left_iff]
    constructor
    · rintro ⟨b, head, bs, tail, rfl⟩
      exact ⟨b, bs, head, tail, rfl⟩
    · rintro ⟨b, bs, head, tail, rfl⟩
      exact ⟨b, head, bs, tail, rfl⟩

theorem mem_mapM (mapped : list.mapM f = some results) {b : β} (member : b ∈ results) :
    ∃ a ∈ list, f a = some b := by
  have pairs := mapM_eq_some.mp mapped
  clear mapped
  induction pairs with
  | nil => cases member
  | cons here _ ih =>
    rcases List.mem_cons.mp member with rfl | later
    · exact ⟨_, List.mem_cons_self .., here⟩
    · obtain ⟨a, among, found⟩ := ih later
      exact ⟨a, List.mem_cons_of_mem _ among, found⟩

theorem getElem?_mapM (mapped : list.mapM f = some results) (i : Nat) :
    results[i]? = (list[i]?).bind f := by
  have pairs := mapM_eq_some.mp mapped
  clear mapped
  induction pairs generalizing i with
  | nil => rfl
  | cons here _ ih =>
    cases i with
    | zero => simp [here]
    | succ i => simpa using ih i

variable {ctx : Context} {env : Row}

theorem evalInputs_eq (inputs : List LogicalNode) :
    evalInputs ctx env inputs = Outcomes.mapM (fun input => input.eval ctx env) inputs := by
  induction inputs with
  | nil => rfl
  | cons first rest ih => rw [evalInputs, Outcomes.mapM_cons, ih]

theorem map_arrange {f : List Row → β} {rows : List Row}
    (same : ∀ taken, rows.Perm taken → f taken = f rows) :
    map f (choose (ctx.arrange rows)) = pure (f rows) := by
  refine map_eq_pure choose_fails ?_ fun taken yields => same taken (ctx.perm (choose_yields.mp yields))
  obtain ⟨taken, arranged⟩ := ctx.total rows
  exact ⟨taken, choose_yields.mpr arranged⟩

theorem map_arrange_each {f : List (List Row) → β} {branches : List (List Row)}
    (same : ∀ taken, List.Forall₂ List.Perm branches taken → f taken = f branches) :
    map f (Outcomes.mapM (fun rows => choose (ctx.arrange rows)) branches) = pure (f branches) := by
  refine map_eq_pure (mapM_safe fun rows _ => choose_fails) (mapM_found fun rows _ => ?_) ?_
  · obtain ⟨taken, arranged⟩ := ctx.total rows
    exact ⟨taken, choose_yields.mpr arranged⟩
  · intro taken yields
    exact same taken ((mapM_yields.mp yields).imp fun rows order arranged =>
      ctx.perm (choose_yields.mp arranged))

end Antb1.Plan
