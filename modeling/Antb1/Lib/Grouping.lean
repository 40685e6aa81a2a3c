import Mathlib.Data.List.Nodup
import Mathlib.Data.List.Range

/-! Distinct values in the order first seen, and the rows of each key. -/
namespace Grouping

open List

variable {α κ : Type} [DecidableEq κ] {keys : List κ} {rows : List α} {key : α → κ}

def distinct : List κ → List κ
  | [] => []
  | key :: rest => key :: (distinct rest).filter (· ≠ key)

def members (key : α → κ) (rows : List α) (of : κ) : List α := rows.filter fun row => key row = of

def classes (key : α → κ) (rows : List α) : List (List α) :=
  (distinct (rows.map key)).map (members key rows)

@[simp] theorem mem_distinct {key : κ} : key ∈ distinct keys ↔ key ∈ keys := by
  induction keys with
  | nil => simp [distinct]
  | cons first rest ih =>
    simp only [distinct, mem_cons, mem_filter, ih, ne_eq, decide_not, Bool.not_eq_true',
      decide_eq_false_iff_not]
    by_cases same : key = first <;> simp [same]

theorem nodup_distinct (keys : List κ) : (distinct keys).Nodup := by
  induction keys with
  | nil => exact nodup_nil
  | cons first rest ih =>
    rw [distinct, nodup_cons]
    exact ⟨by simp, ih.filter _⟩

theorem length_distinct_le (keys : List κ) : (distinct keys).length ≤ keys.length := by
  induction keys with
  | nil => exact Nat.le_refl 0
  | cons first rest ih =>
    rw [distinct, length_cons, length_cons]
    exact Nat.succ_le_succ ((length_filter_le _ _).trans ih)

/-- The members of a key that occurs begin with a row of that key. -/
theorem members_eq_cons {of : κ} (occurs : of ∈ rows.map key) :
    ∃ first rest, members key rows of = first :: rest ∧ key first = of := by
  obtain ⟨row, member, same⟩ := mem_map.mp occurs
  cases found : members key rows of with
  | nil =>
    have kept : row ∈ members key rows of := by simp [members, member, same]
    rw [found] at kept
    cases kept
  | cons first rest =>
    have kept : first ∈ members key rows of := by simp [found]
    exact ⟨first, rest, rfl, by simpa using (mem_filter.mp kept).2⟩

/-- Each key of a list without repetitions, as often as `copies` says. -/
theorem count_copies [BEq κ] [LawfulBEq κ] (nodup : keys.Nodup) (copies : κ → Nat) (key : κ) :
    (keys.flatMap fun key => List.replicate (copies key) key).count key =
      if key ∈ keys then copies key else 0 := by
  induction keys with
  | nil => simp
  | cons first rest ih =>
    rw [nodup_cons] at nodup
    rw [flatMap_cons, count_append, count_replicate, ih nodup.2]
    by_cases same : first = key
    · subst same
      simp [nodup.1]
    · simp [same, Ne.symm same]

theorem distinct_concat (keys : List κ) (key : κ) :
    distinct (keys ++ [key]) = if key ∈ keys then distinct keys else distinct keys ++ [key] := by
  induction keys with
  | nil => simp [distinct]
  | cons first rest ih =>
    rw [cons_append, distinct, ih]
    by_cases seen : key ∈ rest
    · simp [seen, distinct]
    · by_cases same : key = first
      · subst same
        simp [seen, distinct]
      · simp [seen, same, distinct, filter_append]

theorem members_concat (key : α → κ) (rows : List α) (row : α) (of : κ) :
    members key (rows ++ [row]) of = members key rows of ++ if key row = of then [row] else [] := by
  simp [members, filter_append, filter_singleton]

theorem classes_concat_new {row : α} (new : key row ∉ rows.map key) :
    classes key (rows ++ [row]) = classes key rows ++ [[row]] := by
  have alone : members key rows (key row) = [] := by
    rw [members, filter_eq_nil_iff]
    intro other member same
    exact new (mem_map.mpr ⟨other, member, by simpa using same⟩)
  rw [classes, map_append, map_singleton, distinct_concat, if_neg new, map_append,
    map_singleton, members_concat, alone, if_pos rfl, nil_append, classes]
  congr 1
  apply map_congr_left
  intro of member
  rw [members_concat, if_neg, append_nil]
  rintro rfl
  exact new (mem_distinct.mp member)

theorem flatten_classes_concat_last {row : α} (last : distinct (rows.map key) = keys ++ [key row]) :
    (classes key (rows ++ [row])).flatten = (classes key rows).flatten ++ [row] := by
  have seen : key row ∈ rows.map key := by
    rw [← mem_distinct, last]
    simp
  have nodup := nodup_distinct (rows.map key)
  rw [last] at nodup
  have others : keys.map (members key (rows ++ [row])) = keys.map (members key rows) := by
    apply map_congr_left
    intro of member
    rw [members_concat, if_neg, append_nil]
    rintro rfl
    exact (nodup_append.mp nodup).2.2 _ member _ (mem_singleton.mpr rfl) rfl
  rw [classes, map_append, map_singleton, distinct_concat, if_pos seen, classes, last,
    map_append, others, map_append, map_singleton, members_concat, if_pos rfl]
  simp

theorem idxOf_eq_iff (nodup : keys.Nodup) {key : κ} {k : Nat} (bound : k < keys.length) :
    keys.idxOf key = k ↔ keys[k] = key := by
  constructor
  · rintro rfl
    exact getElem_idxOf bound
  · rintro rfl
    exact nodup.idxOf_getElem k bound

theorem flatMap_numbers (key : α → κ) (rows : List α) :
    ((List.range (distinct (rows.map key)).length).flatMap fun k =>
      rows.filter fun row => (distinct (rows.map key)).idxOf (key row) = k) =
      (classes key rows).flatten := by
  rw [flatMap_def, classes]
  congr 1
  apply ext_getElem
  · simp
  · intro k bound _
    rw [length_map, length_range] at bound
    rw [getElem_map, getElem_map, getElem_range, members]
    apply filter_congr
    intro row _
    rw [decide_eq_decide, idxOf_eq_iff (nodup_distinct _) bound, eq_comm]

/-- The rows by their keys are the rows, when the keys are all of them and each once. -/
theorem flatMap_members_perm (nodup : keys.Nodup) (covers : ∀ row ∈ rows, key row ∈ keys) :
    (keys.flatMap (members key rows)).Perm rows := by
  induction keys generalizing rows with
  | nil =>
    have none : rows = [] := eq_nil_iff_forall_not_mem.mpr fun row member =>
      not_mem_nil (covers row member)
    simp [none]
  | cons first rest ih =>
    rw [nodup_cons] at nodup
    have others : rest.flatMap (members key rows) =
        rest.flatMap (members key (rows.filter fun row => !decide (key row = first))) := by
      rw [flatMap_def, flatMap_def]
      congr 1
      apply map_congr_left
      intro of member
      rw [members, members, filter_filter]
      apply filter_congr
      intro row _
      by_cases same : key row = of
      · subst same
        have apart : key row ≠ first := fun same => nodup.1 (same ▸ member)
        simp [apart]
      · simp [same]
    rw [flatMap_cons, others]
    refine ((ih nodup.2 ?_).append_left _).trans (filter_append_perm _ rows)
    intro row member
    rw [mem_filter] at member
    exact (mem_cons.mp (covers row member.1)).resolve_left (by simpa using member.2)

theorem flatten_classes_perm (key : α → κ) (rows : List α) :
    (classes key rows).flatten.Perm rows := by
  rw [classes, ← flatMap_def]
  apply flatMap_members_perm (nodup_distinct _)
  intro row member
  exact mem_distinct.mpr (mem_map_of_mem member)

/-! Rows parted by an index of their key. -/

section Index

variable {index : κ → Nat}

variable (index) in
theorem members_filter_index (key : α → κ) (rows : List α) (i : Nat) (of : κ) :
    members key (rows.filter fun row => index (key row) = i) of =
      if index of = i then members key rows of else [] := by
  rw [members, filter_filter]
  split_ifs with own
  · apply filter_congr
    intro row _
    by_cases same : key row = of
    · simp [same, own]
    · simp [same]
  · rw [filter_eq_nil_iff]
    intro row _ both
    simp only [Bool.and_eq_true, decide_eq_true_eq] at both
    exact own (both.1 ▸ both.2)

variable (index) in
omit [DecidableEq κ] in
theorem nodup_flatMap_index {n : Nat} {keys : Nat → List κ} (each : ∀ i < n, (keys i).Nodup)
    (own : ∀ i < n, ∀ key ∈ keys i, index key = i) : ((List.range n).flatMap keys).Nodup := by
  rw [nodup_flatMap]
  refine ⟨fun i member => each i (mem_range.mp member), ?_⟩
  apply List.Pairwise.imp_of_mem _ nodup_range
  intro i j first second different key inFirst inSecond
  apply different
  rw [← own i (mem_range.mp first) key inFirst, ← own j (mem_range.mp second) key inSecond]

omit [DecidableEq κ] in
theorem filter_flatMap_index {number : α → Nat} {parts : Nat → List α} {n i : Nat}
    (own : ∀ j < n, ∀ row ∈ parts j, number row = j) (bound : i < n) :
    ((List.range n).flatMap parts).filter (fun row => number row = i) = parts i := by
  have apart : ∀ j < n, j ≠ i → (parts j).filter (fun row => number row = i) = [] := by
    intro j below different
    rw [filter_eq_nil_iff]
    intro row member
    simpa [own j below row member] using different
  induction n with
  | zero => omega
  | succ n ih =>
    rw [range_succ, flatMap_append, flatMap_singleton, filter_append]
    by_cases last : i = n
    · subst last
      have before : ((List.range i).flatMap parts).filter (fun row => number row = i) = [] := by
        rw [filter_flatMap, flatMap_eq_nil_iff]
        intro j member
        have below := mem_range.mp member
        exact apart j (by omega) (by omega)
      rw [before, nil_append, filter_eq_self]
      intro row member
      simp [own i (by omega) row member]
    · rw [apart n (by omega) (Ne.symm last), append_nil]
      exact ih (fun j below => own j (by omega)) (by omega) fun j below => apart j (by omega)

end Index

end Grouping
