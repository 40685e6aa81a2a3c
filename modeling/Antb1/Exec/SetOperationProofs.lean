import Antb1.Plan.SetFormulaProofs
import Antb1.Exec.SetOperation

/-! The pass computes the formula. The invariant of `Build` says what a group's
memberships hold: nothing from the inputs before the first starter with the row,
the rows read so far from every other one. -/
namespace Antb1.Exec

open Plan

/-- `Combine` at one group. -/
def combineValues (kind : SetTermKind) : List Int → Int
  | [] => 0
  | first :: rest => rest.foldl (combineValue kind) (startValue kind first)

theorem combine_get {n : Nat} (kind : SetTermKind) (operands : List (Vector Int n)) (i : Fin n) :
    (combine kind operands)[i] = combineValues kind (operands.map fun values => values[i]) := by
  have folded : ∀ (rest : List (Vector Int n)) (out : Vector Int n),
      (rest.foldl (Vector.zipWith (combineValue kind)) out)[i] =
        (rest.map fun values => values[i]).foldl (combineValue kind) out[i] := by
    intro rest
    induction rest with
    | nil => intro out; rfl
    | cons values rest ih =>
      intro out
      rw [List.foldl_cons, ih, List.map_cons, List.foldl_cons]
      simp
  cases operands with
  | nil => simp [combine, combineValues]
  | cons first rest =>
    rw [combine, folded, List.map_cons, combineValues]
    simp

/-- The copies of `n` groups that a tree gives, as one vector. -/
def treeCopies (count : Nat → Nat → Nat) (first n : Nat) (tree : SetTreeNode) : Vector Int n :=
  Vector.ofFn fun i => (tree.value (count (first + i)) : Int)

open List Nat

variable {Key : Type} {state : SetOperationState Key} {read : Nat → List Key}
  {formula : List SetTerm} {root : SetTreeNode} {values : List Int} {key : Key} {groups : List Key}
  {inputs : Nat} {k : Nat} {group : Nat} (rest : List Nat) (ids : List Nat)

theorem modify_count (values : List Int) (group : Nat) :
    (ids.foldl (fun values group => values.modify group (· + 1)) values)[group]? =
      values[group]?.map (· + (ids.count group : Int)) := by
  induction ids generalizing values with
  | nil => simp
  | cons id rest ih =>
    rw [foldl_cons, ih, getElem?_modify, count_cons, Option.map_eq_map,
      Option.map_map]
    congr 1
    funext value
    by_cases same : id = group
    · simp only [Function.comp_apply, same, if_true, beq_self_eq_true]
      omega
    · simp [same]

theorem set_count (values : List Int) (group : Nat) :
    (ids.foldl (fun values group => values.set group 1) values)[group]? =
      values[group]?.map fun value => if 0 < ids.count group then 1 else value := by
  induction ids generalizing values with
  | nil => simp
  | cons id rest ih =>
    rw [foldl_cons, ih, getElem?_set, count_cons]
    by_cases same : id = group
    · subst same
      by_cases bound : id < values.length
      · simp [bound]
      · simp [bound]
    · simp [same]

/-- Marking groups `ids` in one input's membership. -/
def markValues (counted : Bool) (ids : List Nat) (values : List Int) : List Int :=
  if counted then ids.foldl (fun values group => values.modify group (· + 1)) values
  else ids.foldl (fun values group => values.set group 1) values

theorem markValues_cell {counted : Bool} {group count : Nat}
    (before : values[group]? = some (cell counted count : Int)) :
    (markValues counted ids values)[group]? =
      some (cell counted (count + ids.count group) : Int) := by
  cases counted with
  | true =>
    simp only [markValues, if_true, modify_count, before, Option.map_some, cell]
    norm_cast
  | false =>
    simp only [markValues, Bool.false_eq_true, if_false, set_count, before, Option.map_some, cell]
    congr 1
    split
    · rw [if_pos (by omega)]
      rfl
    · rename_i none
      rw [Nat.eq_zero_of_not_pos none, add_zero]

theorem markValues_length (counted : Bool) (ids : List Nat) (values : List Int) :
    (markValues counted ids values).length = values.length := by
  unfold markValues
  split <;> induction ids generalizing values with
  | nil => rfl
  | cons id rest ih => rw [foldl_cons, ih]; simp

theorem memberships_mark (counted : List Bool) (k : Nat) (ids : List Nat)
    (state : SetOperationState Key) (j : Nat) :
    memberships counted (mark counted k ids state) j =
      if j = k then markValues (isSet counted k) ids (memberships counted state k)
      else memberships counted state j := by
  unfold memberships mark markValues
  by_cases here : j = k
  · subst here
    by_cases counts : isSet counted j = true <;> simp [counts]
  · by_cases counts : isSet counted k = true <;> simp [counts, here]

theorem mark_groups (counted : List Bool) (k : Nat) (ids : List Nat)
    (state : SetOperationState Key) : (mark counted k ids state).groups = state.groups := by
  unfold mark
  split <;> rfl

theorem memberships_grow (counted : List Bool) (state : SetOperationState Key) (k : Nat) :
    memberships counted (grow counted state) k =
      resize state.groups.length (memberships counted state k) := by
  by_cases counts : isSet counted k = true <;> simp [memberships, grow, counts]

variable [DecidableEq Key]

theorem idxOf?_eq_some (nodup : groups.Nodup) (here : groups[group]? = some key) (row : Key) :
    groups.idxOf? row = some group ↔ row = key := by
  obtain ⟨bound, rfl⟩ := List.getElem?_eq_some_iff.mp here
  rw [idxOf?_eq_some_iff]
  constructor
  · rintro ⟨_, same, _⟩
    exact (by simpa using same : groups[group] = row).symm
  · rintro rfl
    refine ⟨bound, by simp, fun j before => ?_⟩
    have different : groups[j] ≠ groups[group] := fun same =>
      Nat.ne_of_lt before ((nodup.getElem_inj_iff).mp same)
    simpa using different

theorem count_lookup (nodup : groups.Nodup) (here : groups[group]? = some key) (rows : List Key) :
    (lookup groups rows).count group = rows.count key := by
  induction rows with
  | nil => rfl
  | cons row rest ih =>
    have found := idxOf?_eq_some nodup here row
    rw [lookup] at ih
    rw [lookup, filterMap_cons, count_cons]
    cases at_row : groups.idxOf? row with
    | none =>
      have other : row ≠ key := fun same => by simp [found.mpr same] at at_row
      simp [ih, other]
    | some index =>
      simp only [count_cons, ih]
      by_cases same : row = key
      · have := found.mpr same
        rw [at_row] at this
        simp [same, Option.some.inj this]
      · have : index ≠ group := fun equal => same (found.mp (equal ▸ at_row))
        simp [same, this]

variable {numbering : Numbering Key} {starters counted : List Bool}

/-- What the state holds once each input's rows `read` have been read. -/
structure Holds (starters counted : List Bool) (read : Nat → List Key)
    (state : SetOperationState Key) : Prop where
  nodup : state.groups.Nodup
  started : ∀ key, key ∈ state.groups ↔ ∃ k, isSet starters k = true ∧ key ∈ read k
  room : ∀ k, (memberships counted state k).length = state.groups.length
  recorded : ∀ (group : Nat) (key : Key), state.groups[group]? = some key →
    ∃ start, isSet starters start = true ∧ key ∈ read start ∧
      (∀ k, k < start → isSet starters k = true → key ∉ read k) ∧
      ∀ k, (memberships counted state k)[group]? =
        some (cell (isSet counted k) (recordedFrom start (fun k => (read k).count key) k) : Int)

/-- The rows read after one more batch of input `k`. -/
def readMore (read : Nat → List Key) (k : Nat) (rows : List Key) : Nat → List Key :=
  Function.update read k (read k ++ rows)

omit [DecidableEq Key] in
theorem readMore_mem {k j : Nat} {rows : List Key} :
    key ∈ readMore read k rows j ↔ key ∈ read j ∨ (j = k ∧ key ∈ rows) := by
  unfold readMore
  by_cases here : j = k
  · subst here
    simp
  · simp [here]

theorem readMore_count (read : Nat → List Key) (k j : Nat) (rows : List Key) (key : Key) :
    (readMore read k rows j).count key =
      (read j).count key + if j = k then rows.count key else 0 := by
  unfold readMore
  by_cases here : j = k
  · subst here
    simp
  · simp [here]

/-- Marking the rows of a batch adds them to what a group has recorded. -/
theorem mark_recorded (state : SetOperationState Key) {k start : Nat} (nodup : state.groups.Nodup)
    (here : state.groups[group]? = some key) (rows : List Key) (reached : start ≤ k)
    (before : ∀ j, (memberships counted state j)[group]? =
      some (cell (isSet counted j) (recordedFrom start (fun j => (read j).count key) j) : Int))
    (j : Nat) :
    (memberships counted (mark counted k (lookup state.groups rows) state) j)[group]? =
      some (cell (isSet counted j)
        (recordedFrom start (fun j => (readMore read k rows j).count key) j) : Int) := by
  rw [memberships_mark]
  split
  · rename_i same
    subst same
    have after : ¬ j < start := by omega
    rw [markValues_cell _ (before j), count_lookup nodup here]
    simp [recordedFrom, after, readMore_count]
  · rename_i other
    rw [before j]
    simp [recordedFrom, readMore_count, other]

omit [DecidableEq Key] in
theorem grow_groups (state : SetOperationState Key) : (grow counted state).groups = state.groups :=
  rfl

theorem resize_old {groups group : Nat} (old : group < values.length) :
    (resize groups values)[group]? = values[group]? := by
  rw [resize, List.getElem?_append_left old]

theorem resize_new {groups group : Nat} (new : values.length ≤ group) (bound : group < groups) :
    (resize groups values)[group]? = some 0 := by
  rw [resize, getElem?_append_right new, getElem?_replicate]
  simp only [ite_eq_left_iff]
  omega

theorem resize_length {groups : Nat} (shorter : values.length ≤ groups) :
    (resize groups values).length = groups := by
  simp only [resize, length_append, length_replicate]
  omega

def groupsAfter (numbering : Numbering Key) (groups rows : List Key) : List Key :=
  groups ++ numbering.fresh groups rows

omit [DecidableEq Key] in
theorem groupsAfter_nodup (numbering : Numbering Key) (nodup : groups.Nodup) (rows : List Key) :
    (groupsAfter numbering groups rows).Nodup := by
  refine nodup.append (numbering.nodup groups rows) fun key old fresh => ?_
  exact ((numbering.mem_iff groups rows key).mp fresh).2 old

theorem mem_groupsAfter {groups rows : List Key} :
    key ∈ groupsAfter numbering groups rows ↔ key ∈ groups ∨ key ∈ rows := by
  rw [groupsAfter, mem_append, numbering.mem_iff]
  by_cases old : key ∈ groups <;> simp [old]

section Batch

variable (holds : Holds starters counted read state) (later : ∀ j, k < j → read j = [])
include holds later

/-- A group keeps the input it started at and what it has recorded. -/
theorem Holds.recorded_more (rows : List Key) (here : state.groups[group]? = some key) :
    ∃ start, start ≤ k ∧ isSet starters start = true ∧ key ∈ readMore read k rows start ∧
      (∀ j, j < start → isSet starters j = true → key ∉ readMore read k rows j) ∧
      ∀ j, (memberships counted state j)[group]? =
        some (cell (isSet counted j) (recordedFrom start (fun j => (read j).count key) j) : Int) := by
  obtain ⟨start, starter, seen, first, cells⟩ := holds.recorded group key here
  have reached : start ≤ k := by
    by_contra beyond
    rw [later start (by omega)] at seen
    cases seen
  refine ⟨start, reached, starter, readMore_mem.mpr (.inl seen), fun j before other => ?_, cells⟩
  have absent := first j before other
  have different : j ≠ k := by omega
  simp [readMore_mem, absent, different]

theorem Holds.lookup_batch (looksUp : isSet starters k = false) (rows : List Key) :
    Holds starters counted (readMore read k rows)
      (mark counted k (lookup state.groups rows) state) where
  nodup := by
    rw [mark_groups]
    exact holds.nodup
  started key := by
    rw [mark_groups, holds.started]
    refine exists_congr fun j => and_congr_right fun starter => ?_
    have other : j ≠ k := by
      rintro rfl
      simp [looksUp] at starter
    simp [readMore_mem, other]
  room j := by
    rw [mark_groups, memberships_mark]
    split
    · rw [markValues_length, holds.room]
    · exact holds.room j
  recorded group key here := by
    rw [mark_groups] at here
    obtain ⟨start, reached, starter, seen, first, cells⟩ := holds.recorded_more later rows here
    exact ⟨start, starter, seen, first,
      mark_recorded state holds.nodup here rows reached cells⟩

/-- New groups start at the input being read, with nothing recorded. -/
theorem Holds.grow_recorded (starts : isSet starters k = true) (rows : List Key)
    (here : (groupsAfter numbering state.groups rows)[group]? = some key) :
    ∃ start, start ≤ k ∧ isSet starters start = true ∧ key ∈ readMore read k rows start ∧
      (∀ j, j < start → isSet starters j = true → key ∉ readMore read k rows j) ∧
      ∀ j, (resize (groupsAfter numbering state.groups rows).length
          (memberships counted state j))[group]? =
        some (cell (isSet counted j)
          (recordedFrom start (fun j => (read j).count key) j) : Int) := by
  have bound := (List.getElem?_eq_some_iff.mp here).1
  by_cases old : group < state.groups.length
  · rw [groupsAfter, List.getElem?_append_left old] at here
    obtain ⟨start, reached, starter, seen, first, cells⟩ := holds.recorded_more later rows here
    refine ⟨start, reached, starter, seen, first, fun j => ?_⟩
    rw [resize_old (by rwa [holds.room])]
    exact cells j
  · rw [groupsAfter, getElem?_append_right (by omega)] at here
    have fresh := (numbering.mem_iff _ _ _).mp (mem_of_getElem? here)
    have unseen : ∀ j, isSet starters j = true → key ∉ read j := fun j starter seen =>
      fresh.2 ((holds.started key).mpr ⟨j, starter, seen⟩)
    refine ⟨k, le_rfl, starts, readMore_mem.mpr (.inr ⟨rfl, fresh.1⟩), fun j before starter => ?_,
      fun j => ?_⟩
    · have different : j ≠ k := by omega
      simp [readMore_mem, unseen j starter, different]
    · rw [resize_new (by rw [holds.room]; omega) bound]
      have nothing : recordedFrom k (fun j => (read j).count key) j = 0 := by
        unfold recordedFrom
        split
        · rfl
        · rcases eq_or_lt_of_le (Nat.le_of_not_lt ‹_›) with same | beyond
          · exact count_eq_zero.mpr (same ▸ unseen k starts)
          · simp [later j beyond]
      simp [nothing, cell]

theorem Holds.start_batch (starts : isSet starters k = true) (rows : List Key) :
    Holds starters counted (readMore read k rows)
      (mark counted k (lookup (groupsAfter numbering state.groups rows) rows)
        (grow counted { state with groups := groupsAfter numbering state.groups rows })) := by
  have nodup := groupsAfter_nodup numbering holds.nodup rows
  refine ⟨?_, fun key => ?_, fun j => ?_, fun group key here => ?_⟩
  · rw [mark_groups, grow_groups]
    exact nodup
  · rw [mark_groups, grow_groups, mem_groupsAfter, holds.started]
    constructor
    · rintro (⟨j, starter, seen⟩ | inside)
      · exact ⟨j, starter, readMore_mem.mpr (.inl seen)⟩
      · exact ⟨k, starts, readMore_mem.mpr (.inr ⟨rfl, inside⟩)⟩
    · rintro ⟨j, starter, seen⟩
      rcases readMore_mem.mp seen with old | ⟨rfl, inside⟩
      · exact .inl ⟨j, starter, old⟩
      · exact .inr inside
  · have grown : (memberships counted (grow counted
        { state with groups := groupsAfter numbering state.groups rows }) j).length =
        (groupsAfter numbering state.groups rows).length := by
      rw [memberships_grow]
      apply resize_length
      change (memberships counted state j).length ≤ _
      rw [holds.room, groupsAfter, length_append]
      omega
    rw [mark_groups, grow_groups, memberships_mark]
    split
    · rename_i same
      rw [markValues_length, ← same]
      exact grown
    · exact grown
  · rw [mark_groups, grow_groups] at here
    obtain ⟨start, reached, starter, seen, first, cells⟩ :=
      holds.grow_recorded later starts rows here
    refine ⟨start, starter, seen, first, fun j => ?_⟩
    refine mark_recorded (grow counted
      { state with groups := groupsAfter numbering state.groups rows })
      nodup here rows reached (fun i => ?_) j
    rw [memberships_grow]
    exact cells i

theorem Holds.read_batch (numbering : Numbering Key) (rows : List Key) :
    Holds starters counted (readMore read k rows)
      (readBatch numbering starters counted k state rows) := by
  unfold readBatch
  split
  · rename_i empty
    have same : readMore read k rows = read := by simp [readMore, empty]
    rwa [same]
  · by_cases starts : isSet starters k = true
    · rw [if_pos starts]
      exact holds.start_batch later starts rows
    · rw [if_neg starts]
      exact holds.lookup_batch later (Bool.eq_false_iff.mpr starts) rows

theorem Holds.read_batches (numbering : Numbering Key) (batches : List (List Key)) :
    Holds starters counted (readMore read k batches.flatten)
      (batches.foldl (readBatch numbering starters counted k) state) := by
  induction batches generalizing read state with
  | nil =>
    have same : readMore read k [] = read := by simp [readMore]
    rw [flatten_nil, same]
    exact holds
  | cons rows rest ih =>
    have next := ih (holds.read_batch later numbering rows) fun j beyond => by
      simp [readMore, ne_of_gt beyond, later j beyond]
    have same : readMore (readMore read k rows) k rest.flatten =
        readMore read k (rows :: rest).flatten := by simp [readMore]
    rwa [same] at next

end Batch

def rowsOf (inputs : List (List (List Key))) (k : Nat) : List Key := (inputs.getD k []).flatten

theorem Holds.read_inputs (numbering : Numbering Key) (inputs : List (List (List Key)))
    (holds : Holds starters counted read state) (later : ∀ j, k ≤ j → read j = []) :
    Holds starters counted (fun j => if k ≤ j then rowsOf inputs (j - k) else read j)
      (readInputs numbering starters counted k inputs state) := by
  induction inputs generalizing k read state with
  | nil =>
    have same : (fun j => if k ≤ j then rowsOf ([] : List (List (List Key))) (j - k) else read j) =
        read := by
      funext j
      by_cases beyond : k ≤ j
      · simp [beyond, rowsOf, later j beyond]
      · simp [beyond]
    rw [same]
    exact holds
  | cons batches rest ih =>
    have here := holds.read_batches (fun j beyond => later j (le_of_lt beyond)) numbering batches
    have next := ih (k := k + 1) here fun j beyond => by
      have other : j ≠ k := by omega
      simp [readMore, other, later j (by omega)]
    have same : (fun j => if k + 1 ≤ j then rowsOf rest (j - (k + 1))
          else readMore read k batches.flatten j) =
        fun j => if k ≤ j then rowsOf (batches :: rest) (j - k) else read j := by
      funext j
      rcases lt_trichotomy j k with before | rfl | beyond
      · simp [readMore, Nat.not_le.mpr before, Nat.ne_of_lt before, show ¬ k + 1 ≤ j by omega]
      · simp [readMore, rowsOf, later j le_rfl, show ¬ j + 1 ≤ j by omega]
      · obtain ⟨d, rfl⟩ := Nat.exists_eq_add_of_lt beyond
        have shift : k + d + 1 - k = d + 1 := by omega
        have rest_shift : k + d + 1 - (k + 1) = d := by omega
        simp [rowsOf, shift, rest_shift, show k ≤ k + d + 1 by omega]
    rw [same] at next
    exact next

theorem Holds.initial : Holds starters counted (fun _ => []) ({} : SetOperationState Key) := by
  refine ⟨nodup_nil, by simp, fun k => ?_, by simp⟩
  simp [memberships]

theorem Holds.grow (holds : Holds starters counted read state) :
    Holds starters counted read (grow counted state) := by
  have same : ∀ k,
      memberships counted (Exec.grow counted state) k = memberships counted state k := by
    intro k
    simp [memberships_grow, resize, holds.room]
  exact ⟨holds.nodup, holds.started, fun k => by rw [same, holds.room, grow_groups],
    fun group key here => by simpa only [same] using holds.recorded group key here⟩

theorem buildGroups_holds (inputs : List (List (List Key))) :
    Holds starters counted (rowsOf inputs) (buildGroups numbering starters counted inputs) := by
  have initial : Holds starters counted (fun _ => []) ({} : SetOperationState Key) := .initial
  have all := initial.read_inputs numbering inputs (k := 0) fun _ _ => rfl
  simpa [buildGroups] using all.grow

theorem foldl_union (any : Prop) [Decidable any] :
    (rest.map Nat.cast).foldl (combineValue .union) (if any then 1 else 0) =
      if any ∨ ∃ x ∈ rest, 0 < x then 1 else 0 := by
  induction rest generalizing any with
  | nil => simp
  | cons x rest ih =>
    have step : combineValue .union (if any then 1 else 0) (x : Int) =
        if any ∨ 0 < x then 1 else 0 := by
      by_cases before : any <;> simp [combineValue, before]
    rw [map_cons, foldl_cons, step, ih]
    simp [or_assoc]

theorem foldl_intersect (all : Prop) [Decidable all] :
    (rest.map Nat.cast).foldl (combineValue .intersect) (if all then 1 else 0) =
      if all ∧ ∀ x ∈ rest, 0 < x then 1 else 0 := by
  induction rest generalizing all with
  | nil => simp
  | cons x rest ih =>
    have step : combineValue .intersect (if all then 1 else 0) (x : Int) =
        if all ∧ 0 < x then 1 else 0 := by
      by_cases before : all <;> simp [combineValue, before]
    rw [map_cons, foldl_cons, step, ih]
    simp [and_assoc]

theorem foldl_except (only : Prop) [Decidable only] :
    (rest.map Nat.cast).foldl (combineValue .except) (if only then 1 else 0) =
      if only ∧ ∀ x ∈ rest, x = 0 then 1 else 0 := by
  induction rest generalizing only with
  | nil => simp
  | cons x rest ih =>
    have step : combineValue .except (if only then 1 else 0) (x : Int) =
        if only ∧ x = 0 then 1 else 0 := by
      by_cases before : only <;> simp [combineValue, before]
    rw [map_cons, foldl_cons, step, ih]
    simp [and_assoc]

theorem foldl_intersectAll (out : Nat) :
    (rest.map Nat.cast).foldl (combineValue .intersectAll) (out : Int) =
      (((out :: rest).min?.getD 0 : Nat) : Int) := by
  rw [min?_cons', Option.getD_some]
  induction rest generalizing out with
  | nil => rfl
  | cons x rest ih =>
    have step : combineValue .intersectAll (out : Int) (x : Int) = ((min out x : Nat) : Int) := by
      simp only [combineValue]
      omega
    rw [map_cons, foldl_cons, step, ih, foldl_cons]

theorem foldl_exceptAll (out : Nat) :
    (rest.map Nat.cast).foldl (combineValue .exceptAll) (out : Int) =
      ((out - rest.sum : Nat) : Int) := by
  induction rest generalizing out with
  | nil => simp
  | cons x rest ih =>
    have step : combineValue .exceptAll (out : Int) (x : Int) = ((out - x : Nat) : Int) := by
      simp only [combineValue]
      omega
    rw [map_cons, foldl_cons, step, ih, sum_cons, Nat.sub_sub]

/-- `Combine` computes what the term means, the clamped differences included. -/
theorem combineValues_termValue {kind : SetTermKind} (operator : kind ≠ .input)
    (values : List Nat) (present : values ≠ []) :
    combineValues kind (values.map Nat.cast) = (termValue kind values : Int) := by
  cases values with
  | nil => exact absurd rfl present
  | cons first rest =>
    have sign : (if (first : Int) > 0 then 1 else 0 : Int) = if 0 < first then 1 else 0 := by
      simp
    rw [map_cons, combineValues]
    cases kind with
    | input => exact absurd rfl operator
    | union =>
      simp only [startValue, sign, foldl_union, termValue, mem_cons, exists_eq_or_imp]
      split <;> rfl
    | intersect =>
      simp only [startValue, sign, foldl_intersect, termValue, mem_cons, forall_eq_or_imp]
      split <;> rfl
    | intersectAll => simp only [startValue, foldl_intersectAll, termValue]
    | except =>
      simp only [startValue, sign, foldl_except, termValue]
      split <;> rfl
    | exceptAll => simp only [startValue, foldl_exceptAll, termValue]

theorem treeCopies_operator {kind : SetTermKind} (operator : kind ≠ .input)
    (count : Nat → Nat → Nat) (first n : Nat) {operands : List SetTreeNode}
    (present : operands ≠ []) :
    treeCopies count first n (.mk kind 0 operands) =
      combine kind (operands.map (treeCopies count first n)) := by
  ext i bound
  have lanes : operands.map ((·[i]) ∘ treeCopies count first n) =
      (operands.map (SetTreeNode.value (count (first + i)))).map Nat.cast := by
    rw [map_map]
    apply map_congr_left
    intro tree _
    simp [treeCopies]
  have lane := combine_get kind (operands.map (treeCopies count first n)) ⟨i, bound⟩
  rw [map_map] at lane
  have combined := combineValues_termValue operator
    (operands.map (SetTreeNode.value (count (first + i)))) (by simpa using present)
  calc (treeCopies count first n (.mk kind 0 operands))[i]
      = ((SetTreeNode.mk kind 0 operands).value (count (first + i)) : Int) := by
        simp [treeCopies]
    _ = combineValues kind
          ((operands.map (SetTreeNode.value (count (first + i)))).map Nat.cast) := by
        rw [combined, value_operator operator]
    _ = (combine kind (operands.map (treeCopies count first n)))[i] := by
        rw [← lanes]
        exact lane.symm

omit [DecidableEq Key] in
/-- A chunk's copies are the tree's values over the memberships of each group. -/
theorem evaluateChunk_eq (checked : checkSetFormula formula inputs = none)
    (built : buildTrees formula [] = some [root]) (state : SetOperationState Key) (first n : Nat)
    (count : Nat → Nat → Nat) (cells : ∀ k, ∀ i < n,
      (memberships counted state k).getD (first + i) 0 = (count (first + i) k : Int)) :
    evaluateChunk formula counted state first n = treeCopies count first n root := by
  have run : Postfix.run (fun input => Vector.ofFn fun i : Fin n =>
        (memberships counted state input).getD (first + i) 0) combine
        (formula.map SetTerm.action) (([] : List SetTreeNode).map (treeCopies count first n)) =
      (buildTrees formula []).map (List.map (treeCopies count first n)) := by
    apply Postfix.run_map
    · intro input
      ext i bound
      simp only [treeCopies, SetTreeNode.value, Vector.getElem_ofFn]
      exact (cells input i bound).symm
    · intro kind operands member
      obtain ⟨term, inside, node⟩ := mem_map.mp member
      obtain ⟨operator, rfl, length⟩ := action_eq_node node
      have positive := checkSetFormula_operands checked term inside operator
      exact treeCopies_operator operator count first n (ne_nil_of_length_pos (by omega))
  rw [built, map_nil] at run
  simp only [evaluateChunk, run]
  rfl

omit [DecidableEq Key] in
theorem evaluate_eq (checked : checkSetFormula formula inputs = none)
    (built : buildTrees formula [] = some [root]) (state : SetOperationState Key)
    (count : Nat → Nat → Nat) (cells : ∀ k, ∀ group < state.groups.length,
      (memberships counted state k).getD group 0 = (count group k : Int)) (first : Nat) :
    evaluate formula counted state first =
      (List.range' first (state.groups.length - first)).map
        fun group => (root.value (count group) : Int) := by
  induction first using evaluate.induct state with
  | case1 first more ih =>
    have chunk : ∀ n, first + n ≤ state.groups.length →
        (evaluateChunk formula counted state first n).toList =
          (List.range' first n).map fun group => (root.value (count group) : Int) := by
      intro n inside
      rw [evaluateChunk_eq checked built state first n count fun k i bound =>
        cells k (first + i) (by omega)]
      apply ext_getElem <;> simp [treeCopies]
    rw [evaluate, if_pos more, ih, chunk _ (by omega), ← map_append]
    congr 1
    by_cases final : state.groups.length ≤ first + kMaxMergeChunk
    · rw [min_eq_left final, Nat.sub_eq_zero_of_le final]
      simp
    · rw [Nat.min_eq_right (by omega), Nat.add_sub_cancel_left, range'_append_1,
        show kMaxMergeChunk + (state.groups.length - (first + kMaxMergeChunk)) =
          state.groups.length - first by omega]
  | case2 first done =>
    rw [evaluate, if_neg done, Nat.sub_eq_zero_of_le (by omega)]
    rfl

theorem isSet_setStarters (tree : setTreeOf formula = some root) (covers : Covers 0 root inputs)
    (k : Nat) :
    isSet (setStarters formula inputs) k = true ↔ Starts root k := by
  have marks : ∀ starters : List Bool, isSet starters k = true ↔ starters[k]? = some true := by
    intro starters
    rw [isSet, getD_eq_getElem?_getD]
    cases starters[k]? <;> simp
  rw [marks, setStarters, tree]
  by_cases bound : k < inputs
  · rw [markStarters_marks _ (by simpa using bound)]
    simp [getElem?_replicate]
  · have outside : ¬ Starts root k := fun starts => bound (starts_bound covers starts).2
    rw [getElem?_eq_none (by rw [markStarters_length]; simpa using bound)]
    simp [outside]

theorem value_recorded (tree : setTreeOf formula = some root) (covers : Covers 0 root inputs)
    {start : Nat} {count : Nat → Nat} (absent : ∀ k, k < start → Starts root k → count k = 0) :
    root.value (fun k => cell (isSet (setCounted formula inputs) k)
      (recordedFrom start count k)) = root.value count := by
  have marked : ∀ k, 0 ≤ k → k < inputs →
      (markCounted root true (List.replicate inputs false))[k]? =
        some (isSet (setCounted formula inputs) k) := by
    intro k _ bound
    rw [setCounted, tree, isSet, getD_eq_getElem?_getD]
    rw [getElem?_eq_getElem (by rw [markCounted_length]; simpa using bound)]
    rfl
  have presence := value_cell true (List.replicate inputs false) (by simp)
    (isSet (setCounted formula inputs)) (recordedFrom start count) marked covers
  rw [presence.count rfl]
  exact value_recordedFrom covers fun k starts before => absent k before starts

/-- The one-pass set operation computes its formula: each group's copies are the
formula's value of the row's counts in all inputs, and a row that never became a
group has value 0. -/
theorem build_copies (numbering : Numbering Key) (formula : List SetTerm)
    (inputs : List (List (List Key))) (checked : checkSetFormula formula inputs.length = none) :
    ∃ root, setTreeOf formula = some root ∧
      (build numbering formula inputs).1.Nodup ∧
      (build numbering formula inputs).2.length = (build numbering formula inputs).1.length ∧
      (∀ (group : Nat) (key : Key), (build numbering formula inputs).1[group]? = some key →
        (build numbering formula inputs).2[group]? =
          some (root.value fun k => (rowsOf inputs k).count key : Int)) ∧
      ∀ key, key ∉ (build numbering formula inputs).1 →
        root.value (fun k => (rowsOf inputs k).count key) = 0 := by
  obtain ⟨root, tree, built, covers⟩ := setTreeOf_covers checked
  have starts := isSet_setStarters tree covers
  let counted := setCounted formula inputs.length
  let state := buildGroups numbering (setStarters formula inputs.length) counted inputs
  have holds : Holds (setStarters formula inputs.length) counted (rowsOf inputs) state :=
    buildGroups_holds inputs
  let count (group k : Nat) : Nat := ((memberships counted state k).getD group 0).toNat
  -- A group's memberships, and so its value, from the invariant.
  have recorded : ∀ (group : Nat) (key : Key), state.groups[group]? = some key →
      (∀ k, (memberships counted state k).getD group 0 = (count group k : Int)) ∧
      root.value (count group) = root.value fun k => (rowsOf inputs k).count key := by
    intro group key here
    obtain ⟨start, _, _, first, cells⟩ := holds.recorded group key here
    have at_group : ∀ k, (memberships counted state k).getD group 0 =
        (cell (isSet counted k)
          (recordedFrom start (fun k => (rowsOf inputs k).count key) k) : Int) := by
      intro k
      rw [getD_eq_getElem?_getD, cells k, Option.getD_some]
    have counts : count group = fun k => cell (isSet counted k)
        (recordedFrom start (fun k => (rowsOf inputs k).count key) k) := by
      funext k
      simp only [count, at_group, Int.toNat_natCast]
    refine ⟨fun k => by rw [at_group, counts], ?_⟩
    rw [counts]
    refine value_recorded tree covers fun k before starter => ?_
    exact count_eq_zero.mpr (first k before ((starts k).mpr starter))
  have copies : evaluate formula counted state 0 = (List.range state.groups.length).map
      fun group => (root.value (count group) : Int) := by
    rw [range_eq_range']
    refine evaluate_eq checked built state count (fun k group bound => ?_) 0
    exact (recorded group _ (getElem?_eq_getElem bound)).1 k
  refine ⟨root, tree, holds.nodup, ?_, fun group key here => ?_, fun key absent => ?_⟩
  · change (evaluate formula counted state 0).length = state.groups.length
    rw [copies, length_map, length_range]
  · change (evaluate formula counted state 0)[group]? = _
    have bound := (List.getElem?_eq_some_iff.mp here).1
    have inside : group < state.groups.length := bound
    rw [copies, ← (recorded group key here).2]
    simp [inside]
  · refine value_eq_zero covers fun k starter => count_eq_zero.mpr fun seen => ?_
    exact absent ((holds.started key).mpr ⟨k, (starts k).mpr starter, seen⟩)

/-- `0 EXCEPT ALL (1 UNION 2)`: row 1 is twice in input 0 and once in input 1. -/
theorem build_copies_except_union :
    let formula : List SetTerm := [⟨.input, 0, 2⟩, ⟨.input, 1, 2⟩, ⟨.input, 2, 2⟩,
      ⟨.union, 0, 2⟩, ⟨.exceptAll, 0, 2⟩]
    let inputs := [[[1, 1], [2]], [[1]], [[3]]]
    checkSetFormula formula inputs.length = none ∧
      ∀ group : Nat, (build (.firstSeen Nat) formula inputs).1[group]? = some 1 →
        (build (.firstSeen Nat) formula inputs).2[group]? = some 1 := by
  intro formula inputs
  have checked : checkSetFormula formula inputs.length = none := by decide
  refine ⟨checked, fun group here => ?_⟩
  obtain ⟨root, tree, _, _, copies, _⟩ := build_copies (.firstSeen Nat) formula inputs checked
  have root_eq : root = .mk .exceptAll 0 [.mk .input 0 [],
      .mk .union 0 [.mk .input 1 [], .mk .input 2 []]] := by
    have known : setTreeOf formula = some (.mk .exceptAll 0 [.mk .input 0 [],
      .mk .union 0 [.mk .input 1 [], .mk .input 2 []]]) := rfl
    exact Option.some.inj (tree.symm.trans known)
  rw [copies group 1 here, root_eq]
  simp [SetTreeNode.value, termValue, rowsOf, inputs]

end Antb1.Exec
