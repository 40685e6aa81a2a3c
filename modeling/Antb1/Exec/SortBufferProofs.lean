import Antb1.Exec.SortOrderProofs
import Antb1.Lib.Results
import Antb1.Lib.StableSort

/-! What a sort buffer holds: rows with the same first `keep` in sorted order as all the rows that
were added. -/
namespace Antb1.Exec

open Lib List

/-- A result with a property, or a failure that only more rows than a reference can count
explain. -/
def Yields {β : Type} (rows : Nat) (outcome : Except Stop β) (post : β → Prop) : Prop :=
  match outcome with
  | .ok value => post value
  | .error _ => 2 ^ 32 - 1 ≤ rows

namespace Yields

variable {β γ : Type} {rows : Nat} {post : β → Prop} {outcome : Except Stop β}

theorem mono {more : Nat} {weaker : β → Prop} (yields : Yields rows outcome post)
    (least : rows ≤ more) (implies : ∀ value, post value → weaker value) :
    Yields more outcome weaker := by
  cases outcome with
  | ok value => exact implies value yields
  | error _ => exact Nat.le_trans yields least

theorem bind {next : β → Except Stop γ} {after : γ → Prop} (yields : Yields rows outcome post)
    (continues : ∀ value, post value →
      Yields rows (next value) after) : Yields rows (outcome >>= next) after := by
  cases outcome with
  | ok value => exact continues value yields
  | error _ => exact yields

end Yields

namespace SortBuffer

variable {schema : List ArrowType}

def flat (b : SortBuffer schema) : List (Record schema) := b.chunks.flatten

/-- A buffer for the first `keep` of the rows `xs`, in which a row of its may be missing that
`keep` others come before. -/
structure Keeps (c : RowComparator schema) (keep : Nat) (b : SortBuffer schema)
    (xs : List (Record schema)) : Prop where
  comparator : b.comparator = c
  limited : b.keep = some keep
  counted : b.rows = b.flat.length
  top : SameTop c.Before keep b.flat xs
  fewer : b.flat.length ≤ xs.length
  filled : ∀ chunk ∈ b.chunks, chunk ≠ []
  late : ∀ ref, b.threshold = some ref →
    ∃ last, b.rowAt ref = some last ∧ keep ≤ b.flat.countP (c.Before · last)
  listed : b.sorted = true → b.order.map b.rowAt = b.flat.map some

theorem entries_rows (b : SortBuffer schema) : b.entries.map Prod.snd = b.flat := by
  have rows : ∀ chunk : List (Record schema) × Nat,
      (chunk.1.zipIdx.map fun entry => ((⟨chunk.2, entry.2⟩ : RowRef), entry.1)).map Prod.snd =
        chunk.1 := by
    intro chunk
    rw [map_map]
    exact zipIdx_map_fst 0 chunk.1
  unfold entries flat
  rw [map_flatMap, flatMap_congr fun chunk _ => rows chunk, flatMap_def, zipIdx_map_fst]

theorem entries_rowAt (b : SortBuffer schema) {ref : RowRef} {row : Record schema}
    (member : (ref, row) ∈ b.entries) : b.rowAt ref = some row := by
  simp only [entries, mem_flatMap, mem_map, Prod.exists, Prod.mk.injEq] at member
  obtain ⟨chunk, c, chunkAt, row', r, rowAt', rfl, rfl⟩ := member
  rw [mem_zipIdx_iff_getElem?] at chunkAt rowAt'
  simp only at chunkAt rowAt'
  rw [rowAt, chunkAt, Option.bind_some, rowAt']

theorem sortAll_listed {b sorted : SortBuffer schema} (done : b.sortAll = .ok sorted) :
    sorted = { b with order := sorted.order, sorted := true } ∧
      sorted.order.map b.rowAt = (b.flat.insertionSort b.comparator.Before).map some := by
  unfold sortAll at done
  split at done
  · contradiction
  · cases done
    refine ⟨rfl, ?_⟩
    rw [← entries_rows, ← map_insertionSort _ b.comparator.Before Prod.snd b.entries
      fun x _ y _ => (b.comparator.before_iff x.2 y.2).symm, map_map, map_map]
    refine map_congr_left fun entry member => ?_
    exact entries_rowAt b ((perm_insertionSort _ _).mem_iff.mp member)

theorem filterMap_of_map {α β : Type} {f : α → Option β} {refs : List α} {rows : List β}
    (listed : refs.map f = rows.map some) : refs.filterMap f = rows := by
  have mapped : (refs.map f).filterMap id = rows := by
    rw [listed, filterMap_map, Function.id_comp, filterMap_some]
  rwa [filterMap_map, Function.id_comp] at mapped

theorem take_drop_clamp {α : Type} (rows : List α) (start stop : Nat) :
    (rows.drop (min start rows.length)).take
        (max (min start rows.length) (min stop rows.length) - min start rows.length) =
      (rows.take stop).drop start := by
  rw [drop_take]
  rcases Nat.le_total start rows.length with inside | outside
  · rw [Nat.min_eq_left inside, take_eq_take_iff, length_drop]
    omega
  · rw [Nat.min_eq_right outside, drop_eq_nil_of_le le_rfl, drop_eq_nil_of_le outside, take_nil,
      take_nil]

theorem slice_listed {b : SortBuffer schema} {rows : List (Record schema)}
    (sorted : b.sorted = true) (listed : b.order.map b.rowAt = rows.map some)
    (counted : b.rows = rows.length) (start stop : Nat) :
    b.slice start stop = .ok ((rows.take stop).drop start) := by
  have part : ∀ s n, ((b.order.drop s).take n).filterMap b.rowAt = (rows.drop s).take n := by
    intro s n
    apply filterMap_of_map
    rw [map_take, map_drop, listed, map_take, map_drop]
  rw [slice, if_pos sorted]
  simp only [part, counted, take_drop_clamp]

theorem length_chunks_le {chunks : List (List (Record schema))}
    (filled : ∀ chunk ∈ chunks, chunk ≠ []) : chunks.length ≤ chunks.flatten.length := by
  induction chunks with
  | nil => rfl
  | cons chunk rest ih =>
    have := ih fun other member => filled other (mem_cons_of_mem _ member)
    have := length_pos_of_ne_nil (filled chunk mem_cons_self)
    simp only [length_cons, flatten_cons, length_append]
    omega

section Keeping

variable {c : RowComparator schema} {keep : Nat} {b : SortBuffer schema}
  {xs : List (Record schema)} {rows ys : List (Record schema)}

theorem Keeps.sortAll (keeps : Keeps c keep b xs) :
    Yields xs.length b.sortAll fun sorted => sorted.sorted = true ∧ sorted.rows = b.rows ∧
      sorted.order.map sorted.rowAt = (b.flat.insertionSort c.Before).map some := by
  cases done : b.sortAll with
  | ok sorted =>
    obtain ⟨same, listed⟩ := sortAll_listed done
    rw [keeps.comparator] at listed
    have rowAt : sorted.rowAt = b.rowAt := by
      rw [same]
      rfl
    exact ⟨by rw [same], by rw [same], rowAt ▸ listed⟩
  | error stop =>
    unfold SortBuffer.sortAll at done
    split at done
    · rename_i many
      refine Nat.le_trans ?_ keeps.fewer
      rcases many with chunks | rows
      · have := length_chunks_le keeps.filled
        unfold flat
        omega
      · obtain ⟨chunk, member, long⟩ := any_eq_true.mp rows
        have := (sublist_flatten_of_mem member).length_le
        have := of_decide_eq_true long
        unfold flat
        omega
    · contradiction

theorem countP_last {r : Record schema → Record schema → Prop} [DecidableRel r] [Std.Total r]
    (sorted : rows.Pairwise r) {last : Record schema} (atEnd : rows[rows.length - 1]? = some last) :
    rows.countP (r · last) = rows.length := by
  refine countP_eq_length.mpr fun row member => decide_eq_true ?_
  obtain ⟨i, inside, rfl⟩ := getElem_of_mem member
  obtain ⟨_, rfl⟩ := List.getElem?_eq_some_iff.mp atEnd
  rcases Nat.lt_or_ge i (rows.length - 1) with earlier | final
  · exact pairwise_iff_getElem.mp sorted _ _ _ _ earlier
  · have same : i = rows.length - 1 := by omega
    subst same
    exact (Std.Total.total _ _).elim id id

theorem keeps_first (ordered : rows.Pairwise c.Before) (filled : 0 < rows.length)
    (top : SameTop c.Before keep rows xs) (fewer : rows.length ≤ xs.length) :
    Keeps c keep ⟨c, some keep, [rows], rows.length, (range rows.length).map (⟨0, ·⟩),
      if rows.length = keep then some ⟨0, rows.length - 1⟩ else none, true⟩ xs := by
  have one : [rows].flatten = rows := flatten_singleton
  constructor
  case comparator => rfl
  case limited => rfl
  case counted => exact congrArg _ one.symm
  case top => rwa [flat, one]
  case fewer => rwa [flat, one]
  case filled =>
    intro chunk member
    rw [mem_singleton.mp member]
    exact ne_nil_of_length_pos filled
  case late =>
    intro ref isLast
    simp only at isLast
    split_ifs at isLast with full
    cases isLast
    have inside : rows.length - 1 < rows.length := by omega
    refine ⟨rows[rows.length - 1], getElem?_eq_getElem inside, ?_⟩
    rw [flat, one, countP_last ordered (getElem?_eq_getElem inside), full]
  case listed =>
    intro _
    rw [flat, one, map_map]
    apply ext_getElem (by simp)
    intro i inside _
    simp only [length_map, length_range] at inside
    simp only [getElem_map, getElem_range, Function.comp_apply]
    exact getElem?_eq_getElem inside

/-- What a compaction leaves: the first rows in sorted order, which references can count. -/
structure Sorted (c : RowComparator schema) (keep : Nat) (b : SortBuffer schema)
    (xs : List (Record schema)) : Prop extends Keeps c keep b xs where
  sorted : b.sorted = true
  first : b.flat = (xs.insertionSort c.Before).take keep
  few : b.flat.length ≤ 2 ^ 32

theorem Keeps.compact (keeps : Keeps c keep b xs) :
    Yields xs.length b.compact fun result => Sorted c keep result xs := by
  unfold SortBuffer.compact
  refine keeps.sortAll.bind fun all ⟨sorted, counted, listed⟩ => ?_
  have length : (b.flat.insertionSort c.Before).length = b.rows := by
    rw [length_insertionSort, keeps.counted]
  have first : (b.flat.insertionSort c.Before).take (min b.rows keep) =
      (xs.insertionSort c.Before).take keep := by
    rw [← keeps.top, take_eq_take_iff]
    omega
  simp only [keeps.limited, keeps.comparator, Option.getD_some,
    slice_listed sorted listed (counted.trans length.symm), drop_zero, first]
  have ordered : ((xs.insertionSort c.Before).take keep).Pairwise c.Before :=
    (pairwise_insertionSort _ xs).sublist (take_sublist _ _)
  have kept : min b.rows keep = ((xs.insertionSort c.Before).take keep).length := by
    rw [← first, length_take, length]
    omega
  have top := (SameTop.sorted (r := c.Before) keep xs).symm
  have fewer : ((xs.insertionSort c.Before).take keep).length ≤ xs.length := by
    rw [length_take, length_insertionSort]
    exact Nat.min_le_right _ _
  rw [kept]
  generalize rows : (xs.insertionSort c.Before).take keep = found at *
  simp only [bind, Except.bind]
  split
  · exact Nat.le_trans (by omega) fewer
  split
  · refine ⟨keeps_first ordered ‹_› top fewer, rfl, ?_, ?_⟩
    · rw [flat, flatten_singleton, rows]
    · rw [flat, flatten_singleton]
      omega
  · have none : found = [] := eq_nil_of_length_eq_zero (by omega)
    subst none
    refine ⟨?_, rfl, rows.symm, Nat.zero_le _⟩
    constructor
    case top => exact top
    case fewer => exact fewer
    all_goals simp [flat]

theorem Keeps.retarget (keeps : Keeps c keep b xs) (same : SameTop c.Before keep xs ys)
    (fewer : xs.length ≤ ys.length) : Keeps c keep b ys :=
  { keeps with
    top := keeps.top.trans same
    fewer := keeps.fewer.trans fewer }

theorem Keeps.better (keeps : Keeps c keep b xs) (ys : List (Record schema)) :
    SameTop c.Before keep (b.flat ++ ys) (b.flat ++ b.better ys) := by
  unfold SortBuffer.better
  cases threshold : b.threshold with
  | none => exact .refl keep _
  | some ref =>
    obtain ⟨last, lastAt, count⟩ := keeps.late ref threshold
    simp only [Option.bind_some, lastAt, keeps.comparator]
    refine .filter _ ys fun y _ dropped => count.trans ?_
    have after : c.Before last y := by
      unfold RowComparator.Before
      rw [(RowComparator.compare_transCmp c).eq_swap]
      cases order : c.compare y last <;> simp_all
    refine countP_mono_left fun x _ before => ?_
    rw [decide_eq_true_eq] at before ⊢
    exact IsTrans.trans _ _ _ before after

theorem length_better (b : SortBuffer schema) (ys : List (Record schema)) :
    (b.better ys).length ≤ ys.length := by
  unfold SortBuffer.better
  split
  · exact le_rfl
  · exact length_filter_le _ _

theorem rowAt_push {ref : RowRef} {last : Record schema} (found : b.rowAt ref = some last)
    (rows : List (Record schema)) :
    ((b.chunks ++ [rows])[ref.chunk]?).bind (·[ref.row]?) = some last := by
  obtain ⟨chunk, chunkAt, rowAt⟩ := Option.bind_eq_some_iff.mp found
  obtain ⟨inside, _⟩ := List.getElem?_eq_some_iff.mp chunkAt
  rw [getElem?_append_left inside, chunkAt, Option.bind_some, rowAt]

theorem Keeps.push (keeps : Keeps c keep b xs)
    (same : SameTop c.Before keep (b.flat ++ ys) (b.flat ++ rows))
    (fewer : rows.length ≤ ys.length) (filled : rows ≠ []) :
    Keeps c keep
      { b with
        sorted := false
        rows := b.rows + rows.length
        chunks := b.chunks ++ [rows] } (xs ++ ys) := by
  have pushed : (b.chunks ++ [rows]).flatten = b.flat ++ rows := flatten_concat
  constructor
  case comparator => exact keeps.comparator
  case limited => exact keeps.limited
  case counted => rw [flat, pushed, length_append, keeps.counted]
  case top =>
    rw [flat, pushed]
    exact same.symm.trans (keeps.top.append_right ys)
  case fewer =>
    have := keeps.fewer
    rw [flat, pushed, length_append, length_append]
    omega
  case filled =>
    intro chunk member
    rcases mem_append.mp member with old | new
    · exact keeps.filled chunk old
    · exact mem_singleton.mp new ▸ filled
  case late =>
    intro ref threshold
    obtain ⟨last, lastAt, count⟩ := keeps.late ref threshold
    refine ⟨last, rowAt_push lastAt rows, ?_⟩
    rw [flat, pushed, countP_append]
    omega
  case listed => exact fun sorted => absurd sorted Bool.false_ne_true

theorem Keeps.add (keeps : Keeps c keep b xs) (ys : List (Record schema)) :
    Yields (xs.length + ys.length) (b.add ys) fun result => Keeps c keep result (xs ++ ys) := by
  unfold SortBuffer.add
  split
  · rename_i none
    rw [isEmpty_iff.mp none, append_nil]
    exact keeps
  split
  · rename_i many
    have := length_chunks_le keeps.filled
    have := keeps.fewer
    unfold flat at this
    exact show _ ≤ _ by omega
  have same := keeps.better ys
  have fewer := length_better b ys
  simp only
  split
  · rename_i none
    rw [isEmpty_iff.mp none, append_nil] at same
    have kept := keeps.retarget (keeps.top.symm.trans
      (same.symm.trans (keeps.top.append_right ys))) (by simp)
    exact { kept with listed := fun sorted => absurd sorted Bool.false_ne_true }
  rename_i filled
  have pushed := keeps.push same fewer (mt isEmpty_iff.mpr filled)
  simp only [keeps.limited] at pushed ⊢
  split
  · exact length_append ▸ pushed.compact.mono le_rfl fun _ post => post.toKeeps
  · exact pushed

theorem Keeps.addAll (batches : List (List (Record schema))) (keeps : Keeps c keep b xs) :
    Yields (xs.length + batches.flatten.length) (batches.foldlM SortBuffer.add b) fun result =>
      Keeps c keep result (xs ++ batches.flatten) := by
  induction batches generalizing b xs with
  | nil => simpa [Yields, pure, Except.pure] using keeps
  | cons batch rest ih =>
    rw [foldlM_cons]
    refine Yields.bind ((keeps.add batch).mono ?_ fun _ => id) fun next added => ?_
    · simp
    · simpa [Nat.add_assoc] using ih added

section

variable (keeps : Keeps c keep b xs)
include keeps

theorem Keeps.merge {other : SortBuffer schema} (others : Keeps c keep other ys) :
    Yields (xs.length + ys.length) (b.merge other) fun result =>
      Keeps c keep result (xs ++ ys) := by
  rw [SortBuffer.merge, if_neg (by simp [keeps.limited, others.limited])]
  have fewer := others.fewer
  refine (keeps.addAll other.chunks).mono (Nat.add_le_add_left fewer _) fun result kept => ?_
  refine kept.retarget (others.top.append_left xs) ?_
  rw [length_append, length_append]
  exact Nat.add_le_add_left fewer _

theorem Keeps.tighten : Yields xs.length b.tighten fun result => Keeps c keep result xs := by
  rw [SortBuffer.tighten, keeps.limited]
  simp only
  split
  · exact keeps
  · exact keeps.compact.mono le_rfl fun _ post => post.toKeeps

theorem Keeps.sort : Yields xs.length b.sort fun result => Sorted c keep result xs := by
  rw [SortBuffer.sort, keeps.limited]
  exact keeps.compact

/-- The bound a buffer publishes: `keep` of the rows come before any row after its last. -/
theorem Keeps.thresholdKey {bound : Int} (published : b.thresholdKey = some bound) :
    ∃ key rest last, c.keys = key :: rest ∧
      integerAt (toArrow key.type) (last.at_ key.column) = some bound ∧
      keep ≤ xs.countP (c.Before · last) := by
  unfold SortBuffer.thresholdKey at published
  rw [keeps.comparator] at published
  split at published
  · rename_i last key rest found keys
    obtain ⟨ref, threshold, lastAt⟩ := Option.bind_eq_some_iff.mp found
    obtain ⟨last', lastAt', count⟩ := keeps.late ref threshold
    cases lastAt.symm.trans lastAt'
    exact ⟨key, rest, last, keys, published, keeps.top.enough count⟩
  · contradiction

end

end Keeping

/-- A buffer without a limit holds the rows added, in chunks that references can count. -/
structure Holds (c : RowComparator schema) (b : SortBuffer schema) (xs : List (Record schema)) :
    Prop where
  comparator : b.comparator = c
  unlimited : b.keep = none
  threshold : b.threshold = none
  rows : b.flat = xs
  few : b.chunks.length < 2 ^ 32
  short : ∀ chunk ∈ b.chunks, chunk.length < 2 ^ 32

theorem Holds.add {c : RowComparator schema} {b result : SortBuffer schema}
    {xs : List (Record schema)} (holds : Holds c b xs) {rows : List (Record schema)}
    (added : b.add rows = .ok result) : Holds c result (xs ++ rows) := by
  have all : b.better rows = rows := by rw [SortBuffer.better, holds.threshold]; rfl
  simp only [SortBuffer.add, all, holds.unlimited] at added
  split_ifs at added with empty many
  · cases added
    rwa [isEmpty_iff.mp empty, append_nil]
  · cases added
    constructor
    case comparator => exact holds.comparator
    case unlimited => rfl
    case threshold => exact holds.threshold
    case rows => rw [← holds.rows, flat, flatten_concat, flat]
    case few =>
      rw [length_append, length_singleton]
      omega
    case short =>
      simp only [mem_append, mem_singleton]
      rintro chunk (earlier | rfl)
      · exact holds.short chunk earlier
      · omega

theorem Holds.addAll {c : RowComparator schema} {b result : SortBuffer schema}
    {xs : List (Record schema)} (holds : Holds c b xs) {batches : List (List (Record schema))}
    (added : batches.foldlM SortBuffer.add b = .ok result) :
    Holds c result (xs ++ batches.flatten) := by
  induction batches generalizing b xs with
  | nil =>
    cases added
    simpa using holds
  | cons batch rest ih =>
    rw [foldlM_cons] at added
    obtain ⟨next, first, others⟩ := Lib.bind_ok added
    rw [flatten_cons, ← append_assoc]
    exact ih (holds.add first) others

/-- A buffer in which the references of the rows stand in the stable order by the keys: sorted,
and those already in order as they came. -/
structure SortedStably (b sorted : SortBuffer schema) : Prop where
  rows : sorted.chunks = b.chunks
  listed : ∃ entries : List (RowRef × Record schema),
    sorted.order = entries.map Prod.fst ∧ entries.Perm b.entries ∧
      entries.Pairwise (fun x y => b.comparator.Before x.2 y.2) ∧
      ∀ x y, [x, y] <+ b.entries → b.comparator.Before x.2 y.2 → [x, y] <+ entries

theorem Holds.sort {c : RowComparator schema} {b : SortBuffer schema} {xs : List (Record schema)}
    (holds : Holds c b xs) : ∃ sorted, b.sort = .ok sorted ∧ SortedStably b sorted := by
  have isBefore : ∀ x y : RowRef × Record schema,
      ¬b.comparator.less y.2 x.2 = true ↔ b.comparator.Before x.2 y.2 :=
    fun x y => (b.comparator.before_iff x.2 y.2).symm
  have total : Std.Total fun x y : RowRef × Record schema => ¬b.comparator.less y.2 x.2 = true :=
    ⟨fun x y => by simpa only [isBefore] using Std.Total.total x.2 y.2⟩
  have trans : IsTrans _ fun x y : RowRef × Record schema => ¬b.comparator.less y.2 x.2 = true :=
    ⟨fun x y z => by simpa only [isBefore] using IsTrans.trans x.2 y.2 z.2⟩
  have fits : ¬(b.chunks.length > 2 ^ 32 ∨ b.chunks.any (·.length > 2 ^ 32) = true) := by
    have few := holds.few
    simp only [any_eq_true, decide_eq_true_eq]
    rintro (many | ⟨chunk, member, long⟩)
    · omega
    · have := holds.short chunk member
      omega
  have done : b.sort = b.sortAll := by rw [SortBuffer.sort, holds.unlimited]; rfl
  rw [done, sortAll, if_neg fits]
  refine ⟨_, rfl, rfl, _, rfl, perm_insertionSort _ _, ?_, fun x y => ?_⟩
  · simpa only [isBefore] using pairwise_insertionSort
      (fun x y : RowRef × Record schema => ¬b.comparator.less y.2 x.2 = true) b.entries
  · intro sub inOrder
    exact pair_sublist_insertionSort ((isBefore x y).mpr inOrder) sub

end SortBuffer

namespace RowComparator

variable {schema : List ArrowType}

/-- What the keys of a sort make of rows: an order that the prefixes keep to, and by which a
buffer without a limit sorts the rows added. -/
structure SortsStably (c : RowComparator schema) : Prop where
  weak : IsStrictWeakOrder (Record schema) fun x y => c.compare x y = .lt
  groups : ∀ key rest, c.keys = key :: rest → ∀ x y,
    (prefixOf key x).1 < (prefixOf key y).1 → c.compare x y = .lt
  bits : ∀ key rest, c.keys = key :: rest → ∀ x y, (prefixOf key x).1 = (prefixOf key y).1 →
    (prefixOf key x).2 < (prefixOf key y).2 → c.compare x y = .lt
  ties : ∀ key rest, c.keys = key :: rest → ∀ x y, prefixOf key x = prefixOf key y →
    key.order.isExact = true → compareKey key x y = .eq
  sorts : ∀ (batches : List (List (Record schema))) (b : SortBuffer schema),
    batches.foldlM SortBuffer.add { comparator := c, keep := none } = .ok b →
    b.comparator = c ∧ b.entries.map Prod.snd = batches.flatten ∧
      ∃ sorted, b.sort = .ok sorted ∧ SortBuffer.SortedStably b sorted

theorem sorts_stably (c : RowComparator schema) : c.SortsStably := by
  constructor
  case weak =>
    have tied : ∀ x y, c.compare x y = .eq ↔ ¬c.compare x y = .lt ∧ ¬c.compare y x = .lt := by
      intro x y
      rw [(compare_transCmp c).eq_swap (a := y)]
      cases c.compare x y <;> simp
    exact
      { irrefl := fun x => ((tied x x).mp Std.ReflCmp.compare_self).1
        trans := fun _ _ _ => Std.TransCmp.lt_trans
        incomp_trans := fun x y z first second =>
          (tied x z).mp (Std.TransCmp.eq_trans ((tied x y).mpr first) ((tied y z).mpr second)) }
  case groups =>
    rintro _ _ ⟨⟩ x y below
    rw [← less_iff, RowComparator.less]
    simp [below, below.ne]
  case bits =>
    rintro _ _ ⟨⟩ x y same below
    have value : (prefixOf c.first x).1 = 1 := by
      by_contra null
      have nullY : y.at_ c.first.column = .null :=
        not_not.mp ((same ▸ null) ∘ prefixOf_group.mpr)
      rw [prefixOf_null nullY] at below
      cases below
    rw [← less_iff, RowComparator.less]
    simp [same ▸ value, value, below, below.ne]
  case ties =>
    intro key rest keys x y same isExact
    by_cases value : (prefixOf key x).1 = 1
    · exact compareKey_of_bits_eq (prefixOf_group.mp value) (prefixOf_group.mp (same ▸ value))
        isExact (congrArg Prod.snd same)
    · exact compareKey_null (not_not.mp (value ∘ prefixOf_group.mpr))
        (not_not.mp ((same ▸ value) ∘ prefixOf_group.mpr))
  case sorts =>
    intro batches b added
    have start : SortBuffer.Holds c { comparator := c, keep := none } [] :=
      ⟨rfl, rfl, rfl, rfl, by simp, by simp⟩
    have holds := start.addAll added
    exact ⟨holds.comparator, b.entries_rows.trans holds.rows, holds.sort⟩

end RowComparator

end Antb1.Exec
