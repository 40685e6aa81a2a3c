import Antb1.Exec.PartTopN
import Antb1.Exec.SortBufferProofs
import Antb1.Lib.Runs
import Mathlib.Data.Prod.Lex

/-! The top-N over parts emits the window of the stable sort of all rows, whatever order the parts
run in and whichever of them it skips. -/
namespace Antb1.Exec

open Plan Lib List

variable {key : SortKey} {bound : Option Int}

namespace RowComparator

variable {schema : List ArrowType} {c : RowComparator schema}

theorem bindKey_ok {bound : BoundKey schema} (made : bindKey schema key = .ok bound) :
    bound.column = key.column.index.toNat ∧ bound.descending = key.descending ∧
      bound.nullsFirst = key.nullsFirst := by
  unfold bindKey at made
  split at made
  · contradiction
  · split at made
    · split at made
      · cases made
        exact ⟨rfl, rfl, rfl⟩
      · contradiction
    · contradiction
    · contradiction

theorem make_cons {rest : List SortKey} (made : make schema (key :: rest) = .ok c) :
    ∃ bound others, c.keys = bound :: others ∧ bindKey schema key = .ok bound := by
  unfold make at made
  cases first : bindKey schema key with
  | error status => simp [first, bind, Except.bind] at made
  | ok bound =>
    cases others : rest.mapM (bindKey schema) with
    | error status => simp [first, others, bind, Except.bind] at made
    | ok others' =>
      simp only [first, others, bind, Except.bind, pure, Except.pure, Except.ok.injEq] at made
      exact ⟨bound, others', by rw [← made]; rfl, rfl⟩

theorem before_of_first {key : BoundKey schema} {rest : List (BoundKey schema)}
    {a b : Record schema} (keys : c.keys = key :: rest) (less : compareKey key a b = .lt) :
    c.Before a b := by
  rw [Before, compare, keys, compareFrom, less]
  rfl

end RowComparator

theorem integerAt_some {type : LogicalType} {order : TypeOrder} {x : Value} {number : Int}
    (ordered : orderFor type = some order)
    (found : SortBuffer.integerAt (toArrow type) x = some number) :
    x = .int number ∧ order.compare = compareInts := by
  cases x with
  | int value =>
    cases type with
    | timestamp | double | varchar | boolean => contradiction
    | decimal width scale =>
      rw [orderFor] at ordered
      rw [toArrow] at found
      split at ordered <;> simp_all [SortBuffer.integerAt] <;> rw [← ordered]
    | _ =>
      cases found
      cases ordered
      exact ⟨rfl, rfl⟩
  | _ => cases toArrow type <;> contradiction

/-- Where `PartMayBeat` says no, every value of the part comes after the bound. -/
theorem after_of_not_mayBeat {stats : PartStats} {bound : Int} {values : List Value}
    (truth : stats.TrueOf values) (beaten : partMayBeat stats key bound = false) :
    (.null ∈ values → key.nullsFirst = false) ∧
      ∀ number, .int number ∈ values →
        if key.descending then number < bound else bound < number := by
  unfold partMayBeat at beaten
  split at beaten
  · contradiction
  rename_i noNulls
  refine ⟨fun member => ?_, fun number member => ?_⟩
  · by_contra nullsFirst
    refine noNulls ⟨by simpa using nullsFirst, ?_⟩
    rw [truth.nullCount]
    exact count_pos_iff.mpr member
  have inside : number ∈ values.filterMap PartStats.number :=
    mem_filterMap.mpr ⟨_, member, rfl⟩
  have minAt := truth.min
  have maxAt := truth.max
  obtain ⟨least, isLeast⟩ := Option.ne_none_iff_exists'.mp
    (mt min?_eq_none_iff.mp (ne_nil_of_mem inside))
  obtain ⟨greatest, isGreatest⟩ := Option.ne_none_iff_exists'.mp
    (mt max?_eq_none_iff.mp (ne_nil_of_mem inside))
  rw [minAt, maxAt, isLeast, isGreatest] at beaten
  have above := (min?_eq_some_iff.mp isLeast).2 number inside
  have below := (max?_eq_some_iff.mp isGreatest).2 number inside
  simp only at beaten
  split_ifs at beaten ⊢
  · have := of_decide_eq_false beaten
    omega
  · have := of_decide_eq_false beaten
    omega

variable {schema : List ArrowType}

/-- A row of a skipped part comes after the row that gave the bound. -/
theorem before_of_skipped {c : RowComparator schema} {first : BoundKey schema}
    {others : List (BoundKey schema)} {last row : Record schema} {stats : PartStats}
    {values : List Value} {worst : Int} (keys : c.keys = first :: others)
    (made : RowComparator.bindKey schema key = .ok first)
    (lastAt : SortBuffer.integerAt (toArrow first.type) (last.at_ first.column) = some worst)
    (truth : stats.TrueOf values) (member : row.at_ key.column.index.toNat ∈ values)
    (beaten : partMayBeat stats key worst = false) : c.Before last row := by
  obtain ⟨column, descending, nullsFirst⟩ := RowComparator.bindKey_ok made
  obtain ⟨isInt, byNumber⟩ := integerAt_some first.ordered lastAt
  obtain ⟨nulls, numbers⟩ := after_of_not_mayBeat truth beaten
  apply RowComparator.before_of_first keys
  rw [← column] at member
  have typed := RowComparator.holds_at first row
  rw [RowComparator.compareKey, isInt]
  cases value : row.at_ first.column with
  | null =>
    rw [value] at member
    simp [nullsFirst, nulls member]
  | int number =>
    rw [value] at member
    have order := numbers number member
    simp only [byNumber, descending, compareInts, asInt]
    split_ifs at order ⊢
    · rw [compare_gt_iff_gt.mpr order]
      rfl
    · exact compare_lt_iff_lt.mpr order
  | _ =>
    -- no integer type holds such a value
    rw [value] at typed
    rw [show toArrow first.type = _ from typed] at lastAt
    rw [isInt] at lastAt
    contradiction

namespace PartTopN

variable {part : Nat}

def partRows (op : PartTopN schema) (part : Nat) : List (Record schema) :=
  (op.parts.getD part []).flatten

def rowsBefore (op : PartTopN schema) (part : Nat) : List (Record schema) :=
  (op.parts.take part).flatten.flatten

theorem rowsBefore_succ (op : PartTopN schema) (inside : part < op.parts.length) :
    op.rowsBefore (part + 1) = op.rowsBefore part ++ op.partRows part := by
  rw [rowsBefore, take_succ_eq_append_getElem inside, flatten_append, flatten_append, partRows,
    getD_eq_getElem _ _ inside, flatten_singleton]
  rfl

theorem rowsBefore_split (op : PartTopN schema) {part other : Nat} (earlier : part ≤ other) :
    ∃ between, op.rowsBefore other = op.rowsBefore part ++ between := by
  obtain ⟨more, rfl⟩ := Nat.exists_eq_add_of_le earlier
  exact ⟨_, by rw [rowsBefore, take_add, flatten_append, flatten_append, rowsBefore]⟩

theorem rowsBefore_length (op : PartTopN schema) : op.rowsBefore op.parts.length = op.rows := by
  rw [rowsBefore, take_length, rows]

theorem length_rowsBefore_le (op : PartTopN schema) (inside : part ≤ op.parts.length) :
    (op.rowsBefore part).length ≤ op.rows.length := by
  obtain ⟨after, split⟩ := op.rowsBefore_split inside
  rw [← rowsBefore_length, split, length_append]
  exact Nat.le_add_right _ _

section Run

variable {op : PartTopN schema} {c : RowComparator schema} {merged : SortBuffer schema}
  {results : Nat → Option (Except Stop (SortBuffer schema))} {next part stop : Nat}
  {emitted : List (List (Record schema))}

/-- A part's buffer: behind the parts before it, as good as all the part's rows. -/
def PartKeeps (op : PartTopN schema) (c : RowComparator schema) (part : Nat)
    (buffer : SortBuffer schema) : Prop :=
  ∃ ys, buffer.Keeps c op.keep ys ∧ ys.length ≤ (op.partRows part).length ∧
    SameTop c.Before op.keep (op.rowsBefore part ++ ys) (op.rowsBefore part ++ op.partRows part)

structure Merging (op : PartTopN schema) (c : RowComparator schema) (merged : SortBuffer schema)
    (bound : Option Int) (results : Nat → Option (Except Stop (SortBuffer schema)))
    (next : Nat) : Prop where
  inside : next ≤ op.parts.length
  merged : merged.Keeps c op.keep (op.rowsBefore next)
  bound : ∀ worst, bound = some worst → ∃ key rest last, c.keys = key :: rest ∧
    SortBuffer.integerAt (toArrow key.type) (last.at_ key.column) = some worst ∧
    op.keep ≤ (op.rowsBefore next).countP (c.Before · last)
  results : ∀ part outcome, part < op.parts.length → results part = some outcome →
    Yields op.rows.length outcome (PartKeeps op c part)

theorem keeps_empty (c : RowComparator schema) (keep : Nat) :
    SortBuffer.Keeps c keep { comparator := c, keep := some keep } [] := by
  constructor
  case top => exact .refl keep []
  all_goals simp [SortBuffer.flat]

section

variable (holds : Merging op c merged bound results next)
include holds

theorem Merging.skipped (made : RowComparator.make schema op.keys = .ok c) (truth : op.StatsTrue)
    (inside : part < op.parts.length) (ahead : next ≤ part) (skips : op.skips bound part = true) :
    SameTop c.Before op.keep (op.rowsBefore part ++ op.partRows part) (op.rowsBefore part) := by
  unfold PartTopN.skips at skips
  split at skips
  · rename_i worst stats key rest found keys
    obtain ⟨first, others, last, isFirst, lastAt, count⟩ := holds.bound worst rfl
    obtain ⟨first', others', isFirst', bound⟩ := RowComparator.make_cons (keys ▸ made)
    cases isFirst.symm.trans isFirst'
    obtain ⟨values, statsTrue, values_mem⟩ := truth key rest part stats keys inside found
    have dropped : ∀ row ∈ op.partRows part,
        op.keep ≤ (op.rowsBefore part).countP (c.Before · row) := by
      intro row member
      have after : c.Before last row :=
        before_of_skipped isFirst bound lastAt statsTrue (values_mem row member)
          (by simpa using skips)
      obtain ⟨between, split⟩ := op.rowsBefore_split ahead
      rw [split, countP_append]
      refine count.trans ((countP_mono_left fun x _ before => ?_).trans (Nat.le_add_right _ _))
      rw [decide_eq_true_eq] at before ⊢
      exact IsTrans.trans _ _ _ before after
    simpa using SameTop.drops (op.partRows part) [] dropped
  · contradiction

theorem Merging.runPart (made : RowComparator.make schema op.keys = .ok c) (truth : op.StatsTrue)
    (inside : part < op.parts.length) (ahead : next ≤ part) :
    Yields op.rows.length (op.runPart bound part) (PartKeeps op c part) := by
  have fewer : (op.partRows part).length ≤ op.rows.length := by
    have := op.length_rowsBefore_le (Nat.succ_le_of_lt inside)
    rw [op.rowsBefore_succ inside, length_append] at this
    omega
  rw [PartTopN.runPart, made]
  simp only [Except.mapError, bind, Except.bind]
  split
  · rename_i skips
    refine ⟨[], keeps_empty c op.keep, Nat.zero_le _, ?_⟩
    rw [append_nil]
    exact (holds.skipped made truth inside ahead skips).symm
  · have added := (keeps_empty c op.keep).addAll (op.parts.getD part [])
    rw [length_nil, Nat.zero_add, nil_append] at added
    refine Yields.mono (added.bind fun _ keeps => keeps.sort) fewer fun buffer sorted => ?_
    exact ⟨op.partRows part, sorted.toKeeps, le_rfl, .refl _ _⟩

theorem Merging.mergePart {outcome : Except Stop (SortBuffer schema)}
    (inside : next < op.parts.length) (done : results next = some outcome) :
    Yields op.rows.length (op.mergePart merged outcome) fun (merged, bound) =>
      Merging op c merged bound results (next + 1) := by
  have all := op.length_rowsBefore_le (Nat.succ_le_of_lt inside)
  refine (holds.results next outcome inside done).bind fun buffer ⟨ys, keeps, fewer, same⟩ => ?_
  have before := op.rowsBefore_succ inside
  have few : (op.rowsBefore next ++ ys).length ≤ (op.rowsBefore (next + 1)).length := by
    rw [before, length_append, length_append]
    omega
  have whole : Yields op.rows.length (merged.merge buffer) fun merged =>
      merged.Keeps c op.keep (op.rowsBefore (next + 1)) :=
    (holds.merged.merge keeps).mono (length_append ▸ few.trans all)
      fun result kept => kept.retarget (before ▸ same) few
  refine whole.bind fun merged kept => ?_
  split
  · refine (kept.tighten.mono all fun _ => id).bind fun tight keptTight => ?_
    constructor
    case inside => exact inside
    case merged => exact keptTight
    case bound => exact fun worst published => keptTight.thresholdKey published
    case results => exact holds.results
  · constructor
    case inside => exact inside
    case merged => exact kept
    case bound => exact fun worst published => nomatch published
    case results => exact holds.results

end

structure Emitting (op : PartTopN schema) (c : RowComparator schema) (merged : SortBuffer schema)
    (next stop : Nat) (emitted : List (List (Record schema))) : Prop where
  sorted : merged.Sorted c op.keep op.rows
  started : (op.window merged.rows).1 ≤ next
  inside : next ≤ stop
  window : stop = (op.window merged.rows).2
  emitted : emitted.flatten = (merged.flat.take next).drop (op.window merged.rows).1

theorem keep_cases (op : PartTopN schema) :
    op.limit + op.offset > 2 ^ 63 - 1 ∧ op.keep = 2 ^ 63 - 1 ∨
      op.limit + op.offset ≤ 2 ^ 63 - 1 ∧ op.keep = (op.limit + op.offset).toNat := by
  unfold keep kMaxInt64
  split_ifs <;> omega

theorem window_cases (op : PartTopN schema) (rows : Nat) :
    (op.window rows).1 + op.limit > 2 ^ 63 - 1 ∧ (op.window rows).2 = rows ∨
      (op.window rows).2 = min rows ((op.window rows).1 + op.limit.toNat) := by
  by_cases beyond : (min op.offset.toNat rows : Nat) + op.limit > kMaxInt64
  · exact .inl ⟨beyond, if_pos beyond⟩
  · exact .inr (if_neg beyond)

theorem window_le (op : PartTopN schema) (rows : Nat) (limit : 1 ≤ op.limit) :
    (op.window rows).1 ≤ (op.window rows).2 := by
  have ends := op.window_cases rows
  have starts : (op.window rows).1 = min op.offset.toNat rows := rfl
  omega

theorem emitting_start (sorted : merged.Sorted c op.keep op.rows) (limit : 1 ≤ op.limit) :
    Emitting op c merged (op.window merged.rows).1 (op.window merged.rows).2 [] := by
  constructor
  case sorted => exact sorted
  case started => exact le_rfl
  case inside => exact op.window_le _ limit
  case window => rfl
  case emitted => simp

theorem drop_take_append {α : Type} (rows : List α) {start next stop : Nat} (first : start ≤ next)
    (second : next ≤ stop) :
    (rows.take next).drop start ++ (rows.take stop).drop next = (rows.take stop).drop start := by
  have front : (rows.take next).drop start = ((rows.take stop).drop start).take (next - start) := by
    rw [← drop_take, take_take, Nat.min_eq_left second]
  have back : (rows.take stop).drop next = ((rows.take stop).drop start).drop (next - start) := by
    rw [drop_drop, Nat.add_sub_cancel' first]
  rw [front, back, take_append_drop]

theorem batchEnd_spec (op : PartTopN schema) (more : next < stop) :
    next < op.batchEnd next stop ∧ op.batchEnd next stop ≤ stop := by
  simp only [batchEnd]
  split_ifs <;> omega

theorem Emitting.emit (holds : Emitting op c merged next stop emitted) (more : next < stop) :
    Yields op.rows.length (merged.slice next (op.batchEnd next stop)) fun rows =>
      Emitting op c merged (op.batchEnd next stop) stop (emitted ++ [rows]) := by
  obtain ⟨further, inside⟩ := op.batchEnd_spec more
  rw [SortBuffer.slice_listed holds.sorted.sorted (holds.sorted.listed holds.sorted.sorted)
    holds.sorted.counted]
  constructor
  case sorted => exact holds.sorted
  case started => exact holds.started.trans further.le
  case inside => exact inside
  case window => exact holds.window
  case emitted =>
    rw [flatten_concat, holds.emitted, drop_take_append _ holds.started further.le]

theorem take_drop_congr {α : Type} (rows : List α) {start stop start' stop' : Nat}
    (same : start = start' ∧ min stop rows.length = min stop' rows.length ∨
      min stop rows.length ≤ start ∧ min stop' rows.length ≤ start') :
    (rows.take stop).drop start = (rows.take stop').drop start' := by
  rcases same with ⟨rfl, same⟩ | ⟨empty, empty'⟩
  · rw [take_eq_take_iff.mpr same]
  · rw [drop_eq_nil_of_le (by rwa [length_take]), drop_eq_nil_of_le (by rwa [length_take])]

theorem Emitting.done (holds : Emitting op c merged next stop emitted) (limit : 1 ≤ op.limit)
    (offset : 0 ≤ op.offset) (ended : stop ≤ next) :
    emitted.flatten =
      ((op.rows.insertionSort c.Before).drop op.offset.toNat).take op.limit.toNat := by
  have atEnd : next = (op.window merged.rows).2 := by
    have := holds.inside
    have := holds.window
    omega
  have counted := holds.sorted.counted
  have first := holds.sorted.first
  have few := holds.sorted.few
  rw [holds.emitted, atEnd]
  generalize op.rows.insertionSort c.Before = sorted at *
  rw [first, length_take] at counted few
  rw [first, ← Nat.add_sub_cancel_left (n := op.offset.toNat) (m := op.limit.toNat), ← drop_take,
    take_take]
  apply take_drop_congr
  have kept := op.keep_cases
  have ends := op.window_cases merged.rows
  have starts : (op.window merged.rows).1 = min op.offset.toNat merged.rows := rfl
  omega

def Holds (op : PartTopN schema) (c : RowComparator schema) : State schema → Prop
  | .merging merged bound results next => Merging op c merged bound results next
  | .emitting merged next stop emitted => Emitting op c merged next stop emitted
  | .failed _ => 2 ^ 32 - 1 ≤ op.rows.length

theorem settle_holds {β : Type} {outcome : Except Stop β} {state : β → State schema}
    (yields : Yields op.rows.length outcome fun value => Holds op c (state value)) :
    Holds op c (PartTopN.settle outcome state) := by
  cases outcome <;> exact yields

theorem step_keeps (made : RowComparator.make schema op.keys = .ok c) (truth : op.StatsTrue)
    (limit : 1 ≤ op.limit) (s t : State schema) (step : op.Step s t) (holds : Holds op c s) :
    Holds op c t := by
  cases step with
  | run part inside ahead first =>
    have merging : Merging op c _ _ _ _ := holds
    refine { merging with results := fun other outcome within found => ?_ }
    by_cases same : other = part
    · subst same
      rw [Function.update_self, Option.some.injEq] at found
      exact found ▸ merging.runPart made truth inside ahead
    · rw [Function.update_of_ne same] at found
      exact merging.results other outcome within found
  | merge inside done =>
    exact settle_holds (Merging.mergePart holds inside done)
  | finish =>
    have merging : Merging op c _ _ _ _ := holds
    have all := merging.merged
    rw [rowsBefore_length] at all
    exact settle_holds (all.sort.mono le_rfl fun _ sorted => emitting_start sorted limit)
  | emit more => exact settle_holds (Emitting.emit holds more)

/-- The whole stream is out, or `Next` has failed. -/
def State.AtEnd : State schema → Prop
  | .merging .. => False
  | .emitting _ next stop _ => stop ≤ next
  | .failed _ => True

theorem progress (s : State schema) (holds : Holds op c s) : s.AtEnd ∨ ∃ t, op.Step s t := by
  match s with
  | .merging merged bound results next =>
    have merging : Merging op c merged bound results next := holds
    right
    rcases merging.inside.lt_or_eq with inside | rfl
    · cases done : results next with
      | none => exact ⟨_, .run next inside le_rfl done⟩
      | some outcome => exact ⟨_, .merge inside done⟩
    · exact ⟨_, .finish⟩
  | .emitting merged next stop emitted =>
    exact (Nat.lt_or_ge next stop).symm.imp id fun more => ⟨_, .emit more⟩
  | .failed stop => exact .inl trivial

/-- The parts that have not run. -/
def missing (op : PartTopN schema) (results : Nat → Option (Except Stop (SortBuffer schema))) :
    Finset Nat :=
  (Finset.range op.parts.length).filter fun part => (results part).isNone

/-- What is left to do: parts to merge and to run, then rows to emit. -/
def left (op : PartTopN schema) : State schema → Nat ×ₗ Nat
  | .merging _ _ results next => toLex (op.parts.length - next + 1, (op.missing results).card)
  | .emitting _ next stop _ => toLex (0, stop - next)
  | .failed _ => toLex (0, 0)

theorem missing_update (inside : part < op.parts.length) (first : results part = none)
    (outcome : Except Stop (SortBuffer schema)) :
    (op.missing (Function.update results part (some outcome))).card < (op.missing results).card := by
  refine Finset.card_lt_card ⟨fun other member => ?_, fun subset => ?_⟩
  · simp only [missing, Finset.mem_filter] at member ⊢
    have changed : other ≠ part := by
      rintro rfl
      simp at member
    rw [Function.update_of_ne changed] at member
    exact member
  · have member : part ∈ op.missing results := by simp [missing, inside, first]
    simpa [missing] using subset member

theorem settle_left {β : Type} {outcome : Except Stop β} {state : β → State schema}
    {bound : Nat ×ₗ Nat} (positive : toLex (0, 0) < bound)
    (less : ∀ value, op.left (state value) < bound) :
    op.left (settle outcome state) < bound := by
  cases outcome with
  | ok value => exact less value
  | error stop => exact positive

theorem step_left {s t : State schema} (step : op.Step s t) : op.left t < op.left s := by
  cases step with
  | run part inside ahead first =>
    exact Prod.Lex.toLex_lt_toLex.mpr (.inr ⟨rfl, missing_update inside first _⟩)
  | merge inside done =>
    refine settle_left (Prod.Lex.toLex_lt_toLex.mpr (.inl (Nat.succ_pos _))) fun value => ?_
    refine Prod.Lex.toLex_lt_toLex.mpr (.inl ?_)
    simp only
    omega
  | finish =>
    exact settle_left (Prod.Lex.toLex_lt_toLex.mpr (.inl (Nat.succ_pos _))) fun value =>
      Prod.Lex.toLex_lt_toLex.mpr (.inl (Nat.succ_pos _))
  | emit more =>
    obtain ⟨further, inside⟩ := op.batchEnd_spec more
    refine settle_left (Prod.Lex.toLex_lt_toLex.mpr (.inr ⟨rfl, Nat.sub_pos_of_lt more⟩))
      fun value => ?_
    refine Prod.Lex.toLex_lt_toLex.mpr (.inr ⟨rfl, ?_⟩)
    simp only
    omega

theorem step_wellFounded (op : PartTopN schema) : WellFounded fun t s => op.Step s t :=
  Subrelation.wf step_left (InvImage.wf op.left wellFounded_lt)

/-- The rows of the window of the stable sort, whatever order the parts run in. -/
structure EmitsWindow (op : PartTopN schema) (c : RowComparator schema) : Prop where
  opens : ∃ start, op.open = .ok start
  window : ∀ merged next stop emitted, op.Reachable (.emitting merged next stop emitted) →
    stop ≤ next → emitted.flatten =
      ((op.rows.insertionSort c.Before).drop op.offset.toNat).take op.limit.toNat
  /-- Only rows that 32 bits cannot count make it fail. -/
  fails : ∀ stop, op.Reachable (.failed stop) → 2 ^ 32 - 1 ≤ op.rows.length
  /-- However a run goes on, it ends. -/
  ends : WellFounded fun t s => op.Step s t
  finishes : ∀ s, op.Reachable s → ∃ t, Relation.ReflTransGen op.Step s t ∧ t.AtEnd

theorem open_ok (made : RowComparator.make schema op.keys = .ok c) (keys : op.keys ≠ [])
    (limit : 1 ≤ op.limit) (offset : 0 ≤ op.offset) :
    op.open = .ok (.merging { comparator := c, keep := some op.keep } none (fun _ => none) 0) := by
  rw [PartTopN.open, if_neg (mt List.isEmpty_iff.mp keys), if_neg (by omega), made]
  rfl

theorem start_holds (op : PartTopN schema) (c : RowComparator schema) :
    Holds op c (.merging { comparator := c, keep := some op.keep } none (fun _ => none) 0) where
  inside := Nat.zero_le _
  merged := keeps_empty c op.keep
  bound := fun _ published => nomatch published
  results := fun _ _ _ found => nomatch found

theorem partTopN_emitsWindow (made : RowComparator.make schema op.keys = .ok c)
    (keys : op.keys ≠ []) (limit : 1 ≤ op.limit) (offset : 0 ≤ op.offset)
    (truth : op.StatsTrue) : EmitsWindow op c := by
  have opened := open_ok made keys limit offset
  have keeps := step_keeps made truth limit
  have reached : ∀ s, op.Reachable s → Holds op c s := by
    rintro s ⟨start, isStart, run⟩
    cases isStart.symm.trans opened
    exact run_keeps keeps run (start_holds op c)
  constructor
  case opens => exact ⟨_, opened⟩
  case window =>
    intro merged next stop emitted reachable ended
    exact Emitting.done (reached _ reachable) limit offset ended
  case fails => exact fun stop reachable => reached _ reachable
  case ends => exact op.step_wellFounded
  case finishes =>
    intro s reachable
    exact comes_to_rest op.step_wellFounded keeps progress s (reached s reachable)

end Run

/-- Two parts of one BIGINT each, of which the second is skipped once the first is merged. -/
def skipping : PartTopN [.int64] where
  parts := [[[⟨[.int 1], .cons ⟨_, rfl, by decide, by decide⟩ .nil⟩]],
    [[⟨[.int 5], .cons ⟨_, rfl, by decide, by decide⟩ .nil⟩]]]
  keys := [{ column := { index := 0, type := .bigInt } }]
  limit := 1
  offset := 0
  pruning := some fun part => if part = 1 then some ⟨some 5, some 5, 0, 1⟩ else none
  batchSize := 2048

def skippingOrder : RowComparator [.int64] :=
  ⟨⟨0, .bigInt, ⟨compareInts, signedPrefix, true⟩, false, false, rfl, rfl⟩, []⟩

theorem skipping_statsTrue : skipping.StatsTrue := by
  rintro key rest part stats keys inside found
  cases keys
  simp only [skipping, Option.bind_some] at found
  split_ifs at found with second
  cases found
  subst second
  refine ⟨[.int 5], ⟨rfl, rfl, rfl⟩, ?_⟩
  intro row member
  cases mem_singleton.mp member
  exact mem_singleton.mpr rfl

theorem partTopN_emitsWindow_skipping :
    skipping.skips (some 1) 1 = true ∧ EmitsWindow skipping skippingOrder :=
  ⟨by decide, partTopN_emitsWindow rfl (by simp [skipping]) (by decide) (by decide)
    skipping_statsTrue⟩

end PartTopN

end Antb1.Exec
