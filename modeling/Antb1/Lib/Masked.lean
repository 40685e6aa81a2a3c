import Mathlib.Data.List.Count
import Mathlib.Data.List.Basic

/-! Computations over the rows that a mask selects: they are taken out, computed apart and put
back. A computation that fails on any row has no result. -/
namespace Masked

open List

variable {α β ρ σ τ υ : Type} (f : ρ → σ → Option τ) {rows : List ρ} {states : List σ}

def select : List Bool → List α → List α
  | true :: mask, row :: rows => row :: select mask rows
  | false :: mask, _ :: rows => select mask rows
  | _, _ => []

/-- The values, one for each selected row, put at those rows. -/
def scatter : List α → List Bool → List α → List α
  | _ :: into, true :: mask, value :: values => value :: scatter into mask values
  | old :: into, false :: mask, values => old :: scatter into mask values
  | into, _, _ => into

theorem select_map (f : α → β) (mask : List Bool) (rows : List α) :
    select mask (rows.map f) = (select mask rows).map f := by
  fun_induction select mask rows with
  | case1 mask row rows ih => simp [select, ih]
  | case2 mask row rows ih => simp [select, ih]
  | case3 mask rows noTrue noFalse =>
    cases mask with
    | nil => simp [select]
    | cons bit mask =>
      cases rows with
      | nil => simp [select]
      | cons row rows =>
        cases bit
        · exact absurd rfl (noFalse mask row rows rfl)
        · exact absurd rfl (noTrue mask row rows rfl)

theorem length_select {mask : List Bool} {rows : List α} (same : mask.length = rows.length) :
    (select mask rows).length = mask.count true := by
  induction mask generalizing rows with
  | nil => simp [select]
  | cons bit mask ih =>
    cases rows with
    | nil => cases same
    | cons row rows =>
      have rest := ih (Nat.succ.inj same)
      cases bit <;> simp [select, rest]

theorem select_all {mask : List Bool} {rows : List α} (same : mask.length = rows.length)
    (all : mask.count true = rows.length) : select mask rows = rows := by
  induction mask generalizing rows with
  | nil =>
    cases rows with
    | nil => rfl
    | cons row rows => cases same
  | cons bit mask ih =>
    cases rows with
    | nil => cases same
    | cons row rows =>
      have few := count_le_length (a := true) (l := mask)
      simp only [length_cons, Nat.add_right_cancel_iff] at same
      cases bit with
      | true =>
        simp only [count_cons_self, length_cons, Nat.add_right_cancel_iff] at all
        rw [select, ih same all]
      | false =>
        simp only [count_cons, length_cons] at all
        simp at all
        omega

theorem length_scatter (into : List α) (mask : List Bool) (values : List α) :
    (scatter into mask values).length = into.length := by
  fun_induction scatter into mask values with
  | case1 _ _ _ _ _ ih => simp [ih]
  | case2 _ _ _ _ ih => simp [ih]
  | case3 => rfl

def pass (f : ρ → σ → Option τ) (rows : List ρ) (states : List σ) : Option (List τ) :=
  (rows.zip states).mapM fun p => f p.1 p.2

theorem pass_cons (row : ρ) (rows : List ρ) (state : σ) (states : List σ) :
    pass f (row :: rows) (state :: states) =
      (f row state).bind fun next => (pass f rows states).map (next :: ·) := by
  rw [pass, zip_cons_cons, mapM_cons]
  cases f row state with
  | none => rfl
  | some next => cases isRest : pass f rows states <;> rw [pass] at isRest <;> simp [isRest]

theorem pass_congr {f g : ρ → σ → Option τ}
    (same : ∀ row state, f row state = g row state) : pass f rows states = pass g rows states := by
  rw [show f = g from funext fun row => funext (same row)]

theorem pass_states (f : ρ → τ → Option υ) (g : σ → τ) (rows : List ρ) (states : List σ) :
    pass f rows (states.map g) = pass (fun row state => f row (g state)) rows states := by
  rw [pass, pass, zip_map_right, mapM_map]
  rfl

/-- A first step on every row, then a pass over the rows with what it gave. -/
theorem mapM_bind_pass (f : ρ → Option σ) (g : ρ → σ → Option τ) (rows : List ρ) :
    ((rows.mapM f).bind fun values => pass g rows values) =
      rows.mapM fun row => (f row).bind (g row) := by
  induction rows with
  | nil => rfl
  | cons row rows ih =>
    rw [mapM_cons, mapM_cons, ← ih]
    cases f row with
    | none => rfl
    | some value =>
      cases rows.mapM f with
      | none => cases isNext : g row value <;> simp [isNext]
      | some values => cases isRest : pass g rows values <;> simp [pass_cons, isRest]

theorem pass_replicate (state : σ) (rows : List ρ) :
    pass f rows (List.replicate rows.length state) = rows.mapM fun row => f row state := by
  have pairs : rows.zip (replicate rows.length state) = rows.map fun row => (row, state) := by
    simpa using zip_map' (f := id) (g := fun _ => state) (l := rows)
  rw [pass, pairs, mapM_map]
  rfl

theorem mapM_some (f : ρ → τ) (rows : List ρ) :
    (rows.mapM fun row => some (f row)) = some (rows.map f) := by
  induction rows with
  | nil => rfl
  | cons row rows ih => simp [ih]

section

variable (same : rows.length = states.length)
include same

theorem length_of_pass {f : ρ → σ → Option τ} {next : List τ}
    (passed : pass f rows states = some next) : next.length = rows.length := by
  induction rows generalizing states next with
  | nil =>
    cases passed
    rfl
  | cons row rows ih =>
    cases states with
    | nil => cases same
    | cons state states =>
      rw [pass_cons] at passed
      obtain ⟨first, -, passed⟩ := Option.bind_eq_some_iff.mp passed
      obtain ⟨rest, isRest, rfl⟩ := Option.map_eq_some_iff.mp passed
      rw [length_cons, length_cons, ih (Nat.succ.inj same) isRest]

theorem pass_zip (g : ρ → σ × τ → Option υ) :
    ((pass f rows states).bind fun next => pass g rows (states.zip next)) =
      pass (fun row state => (f row state).bind fun next => g row (state, next)) rows states := by
  induction rows generalizing states with
  | nil => rfl
  | cons row rows ih =>
    cases states with
    | nil => cases same
    | cons state states =>
      rw [pass_cons, pass_cons, ← ih (Nat.succ.inj same)]
      cases f row state with
      | none => rfl
      | some next =>
        cases pass f rows states with
        | none => cases isNext : g row (state, next) <;> simp [isNext]
        | some others => simp [pass_cons]

theorem pass_bind (g : ρ → τ → Option υ) :
    ((pass f rows states).bind fun next => pass g rows next) =
      pass (fun row state => (f row state).bind (g row)) rows states := by
  rw [← pass_zip f same fun row state => g row state.2]
  refine Option.bind_congr fun next passed => ?_
  have long : next.length ≤ states.length := Nat.le_of_eq ((length_of_pass same passed).trans same)
  rw [← pass_states g Prod.snd, map_snd_zip long]

/-- What is computed on the selected rows and put back is computed row by row where the mask is
true, and is what was there elsewhere. -/
theorem select_scatter (f : ρ → Option τ) (chosen : σ → Bool) (old : σ → τ) :
    ((select (states.map chosen) rows).mapM f).map (scatter (states.map old) (states.map chosen)) =
      pass (fun row state => if chosen state then f row else some (old state)) rows states := by
  induction rows generalizing states with
  | nil =>
    cases states with
    | nil => rfl
    | cons => cases same
  | cons row rows ih =>
    cases states with
    | nil => cases same
    | cons state states =>
      rw [map_cons, map_cons, pass_cons, ← ih (Nat.succ.inj same)]
      cases chosen state with
      | true =>
        rw [select, mapM_cons, if_pos rfl]
        cases f row with
        | none => rfl
        | some value => cases (select (states.map chosen) rows).mapM f <;> simp [scatter]
      | false =>
        rw [select, if_neg Bool.false_ne_true]
        cases (select (states.map chosen) rows).mapM f <;> simp [scatter]

theorem pass_rows (f : ρ → Option τ) : pass (fun row _ => f row) rows states = rows.mapM f := by
  conv_rhs => rw [← map_fst_zip (Nat.le_of_eq same), mapM_map]
  rfl

theorem pass_own (f : σ → Option τ) : pass (fun _ state => f state) rows states = states.mapM f := by
  conv_rhs => rw [← map_snd_zip (Nat.le_of_eq same.symm), mapM_map]
  rfl

theorem pass_some (g : σ → τ) :
    pass (fun _ state => some (g state)) rows states = some (states.map g) := by
  rw [pass_own same fun state => some (g state), mapM_some]

theorem pass_zipWith (g : τ → σ → υ) :
    (pass f rows states).map (fun next => next.zipWith g states) =
      pass (fun row state => (f row state).map fun next => g next state) rows states := by
  simp only [Option.map_eq_bind, Function.comp_def]
  refine Eq.trans ?_ (pass_zip f same fun _ p => some (g p.2 p.1))
  refine Option.bind_congr fun next passed => ?_
  have count : rows.length = (states.zip next).length := by
    rw [length_zip, length_of_pass same passed, same, Nat.min_self]
  rw [pass_some count fun p : σ × τ => g p.2 p.1, zipWith_comm,
    ← map_uncurry_zip_eq_zipWith]
  rfl

end

/-- A step on every row fails where it fails on some row, and gives each row its own result. -/
theorem mapM_eq_none {f : ρ → Option τ} : rows.mapM f = none ↔ ∃ row ∈ rows, f row = none := by
  induction rows with
  | nil => simp
  | cons row rows ih =>
    rw [mapM_cons]
    cases isFirst : f row with
    | none => simp [isFirst]
    | some value =>
      cases isRest : rows.mapM f with
      | none =>
        obtain ⟨other, member, fails⟩ := ih.mp isRest
        exact iff_of_true rfl ⟨other, mem_cons_of_mem _ member, fails⟩
      | some values =>
        have all : ¬ ∃ row ∈ rows, f row = none := fun some_ => by simp [ih.mpr some_] at isRest
        simpa [isFirst] using all

theorem mapM_eq_some {f : ρ → Option τ} {values : List τ} :
    rows.mapM f = some values ↔ rows.map f = values.map some := by
  induction rows generalizing values with
  | nil => cases values <;> simp
  | cons row rows ih =>
    rw [mapM_cons, map_cons]
    cases values with
    | nil => cases f row <;> cases rows.mapM f <;> simp
    | cons value values =>
      rw [map_cons, List.cons.injEq, ← ih]
      cases f row <;> cases rows.mapM f <;> simp

theorem mapM_bind_mapM (f : ρ → Option σ) (g : σ → Option τ) (rows : List ρ) :
    ((rows.mapM f).bind fun values => values.mapM g) = rows.mapM fun row => (f row).bind g := by
  rw [← mapM_bind_pass f fun _ => g]
  refine Option.bind_congr fun values mapped => (pass_own ?_ g).symm
  simpa using congrArg length (mapM_eq_some.mp mapped)

theorem map_mapM (f : ρ → Option σ) (g : σ → τ) (rows : List ρ) :
    (rows.mapM f).map (List.map g) = rows.mapM fun row => (f row).map g := by
  simp only [Option.map_eq_bind, Function.comp_def, ← mapM_some, mapM_bind_mapM]

end Masked
