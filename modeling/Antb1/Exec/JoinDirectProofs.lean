import Antb1.Exec.JoinHashedProofs

/-! The direct layout of a join table: the rows in key order, and an index by the key's offset
from the smallest. -/
namespace Antb1.Exec.Join

open Antb1.Plan CountingSort Grouping List

variable {span : Nat} {entries : List Entry} {minKey : Int}

section Counting

variable {words : Words} {index : Entry → Nat} {offset : Entry → Nat}

theorem foldl_countRow_offsets (entries : List Entry) (counting : Counting) :
    (entries.foldl (countRow words index) counting).offsets =
      countUp words.narrow 2 index entries counting.offsets := by
  induction entries generalizing counting with
  | nil => rfl
  | cons entry rest ih =>
    rw [foldl_cons, ih, countUp, countUp, foldl_cons]
    rfl

theorem foldl_countRow_repeats {length : Nat} (fits : Fits words.narrow entries.length)
    (bounded : ∀ entry ∈ entries, index entry + 2 < length) :
    (entries.foldl (countRow words index) ⟨List.replicate length 0, false⟩).repeats = true ↔
      ¬ (entries.map index).Nodup := by
  induction entries using List.reverseRecOn with
  | nil => simp
  | append_singleton done entry ih =>
    rw [length_append, length_singleton] at fits
    have inside := bounded entry (by simp)
    have counts : (countUp words.narrow 2 index (done ++ [entry])
        (List.replicate length 0)).getD (index entry + 2) 0 = size index done (index entry) + 1 := by
      rw [countUp_zero (by simpa using fits)]
      simp [inside, size]
    have seen : size index done (index entry) + 1 > 1 ↔ index entry ∈ done.map index := by
      rw [gt_iff_lt, Nat.lt_add_left_iff_pos, size, countP_pos_iff, mem_map]
      simp
    have whole := @foldl_countRow_offsets words index (done ++ [entry])
      ⟨List.replicate length 0, false⟩
    rw [foldl_append, foldl_cons, foldl_nil] at whole ⊢
    have step : ∀ counting, (countRow words index counting entry).repeats = true ↔
        counting.repeats = true ∨
          (countRow words index counting entry).offsets.getD (index entry + 2) 0 > 1 := by
      intro counting
      exact (Bool.or_eq_true_iff ..).trans (or_congr_right decide_eq_true_iff)
    rw [step, whole, counts, seen, ih (fits.mono (by omega)) fun entry member =>
      bounded entry (by simp [member]), map_append, map_singleton,
      nodup_append_comm, singleton_append, nodup_cons, not_and_or, not_not, or_comm]

theorem place_counted {entries out : List Entry} (fits : Fits words.narrow entries.length)
    (same : ∀ entry ∈ entries, index entry = offset entry)
    (bounded : ∀ entry ∈ entries, offset entry < span + 1) (length : out.length = entries.length) :
    place words.narrow 1 index entries
      ⟨blockedSums words.narrow kJoinPartitions (entries.foldl (countRow words index)
        ⟨List.replicate (span + 3) 0, false⟩).offsets, out⟩ =
      ⟨(List.range (span + 3)).map (before offset entries), sorted (span + 1) offset entries⟩ := by
  have inside : ∀ entry ∈ entries, index entry < span + 1 := by
    intro entry member
    rw [same entry member]
    exact bounded entry member
  rw [foldl_countRow_offsets, blockedSums_eq (by decide) (fits.mono (sum_countUp_zero fits)),
    sort_buckets fits inside length, sorted_congr _ _ same]
  congr 1
  exact map_congr_left fun b _ => before_congr _ _ same b

theorem repeats_counted (fits : Fits words.narrow entries.length)
    (same : ∀ entry ∈ entries, index entry = offset entry)
    (bounded : ∀ entry ∈ entries, offset entry < span + 1) :
    (!(entries.foldl (countRow words index) ⟨List.replicate (span + 3) 0, false⟩).repeats) =
      decide (entries.map offset).Nodup := by
  have repeats : _ ↔ ¬ (entries.map index).Nodup :=
    foldl_countRow_repeats fits fun entry member => by
      rw [same entry member]
      exact Nat.add_lt_add_right (bounded entry member) 2
  rw [map_congr_left same] at repeats
  rw [Bool.eq_iff_iff, Bool.not_eq_true', ← Bool.not_eq_true, repeats, not_not, decide_eq_true_eq]

end Counting

section Direct

variable {spec : JoinBuildSpec} {hash : List Value → Nat} {chunks : List (List Record)}
  {parts : List (List Entry)} {rows : List Record} {words : Words} {x : Int}

def offsetOf (spec : JoinBuildSpec) (chunks : List (List Record)) (minKey : Int) (entry : Entry) :
    Nat := (directKey (chunkKey spec chunks entry.ref) - minKey).toNat

/-- Integer keys from the smallest to the smallest plus `span`. -/
def IntegerKeys (spec : JoinBuildSpec) (chunks : List (List Record)) (minKey : Int) (span : Nat)
    (entries : List Entry) : Prop :=
  ∀ entry ∈ entries, ∃ x : Int, chunkKey spec chunks entry.ref = [.int x] ∧
    minKey ≤ x ∧ x ≤ minKey + span

theorem IntegerKeys.offset_lt (keys : IntegerKeys spec chunks minKey span entries) {entry : Entry}
    (member : entry ∈ entries) : offsetOf spec chunks minKey entry < span + 1 := by
  obtain ⟨x, key, low, high⟩ := keys entry member
  rw [offsetOf, key, directKey]
  omega

theorem keyOffset_eq (hold : words.Hold) (low : minKey ≤ x) (small : x - minKey < 2 ^ 64) :
    keyOffset words minKey x = (x - minKey).toNat := by
  rw [keyOffset]
  rcases hold.wide with zero | wide
  · rw [zero]
    simp
  · rw [Int.emod_eq_of_lt (by omega) (by omega)]

theorem IntegerKeys.keyOffset_eq (hold : words.Hold) (small : span < 2 ^ 64)
    (keys : IntegerKeys spec chunks minKey span entries) {entry : Entry}
    (member : entry ∈ entries) :
    keyOffset words minKey (directKey (chunkKey spec chunks entry.ref)) =
      offsetOf spec chunks minKey entry := by
  obtain ⟨x, key, low, high⟩ := keys entry member
  rw [offsetOf, key, directKey]
  exact Join.keyOffset_eq hold low (by omega)

theorem buildDirect_eq (hold : words.Hold) {table : JoinTable} {segments : List (List Segment)}
    (small : span < 2 ^ 64) (minimum : table.minKey = minKey)
    (offsets : table.offsets = List.replicate (span + 3) 0)
    (keys : IntegerKeys spec table.chunks minKey span
      (segments.flatMap fun segments => segments.flatMap Segment.entries))
    (room : table.rows.length =
      (segments.flatMap fun segments => segments.flatMap Segment.entries).length)
    (few : table.rows.length ≤ kMaxRows) :
    let entries := segments.flatMap fun segments => segments.flatMap Segment.entries
    buildDirect words spec segments table =
      { table with
        rows := (sorted (span + 1) (offsetOf spec table.chunks minKey) entries).map (·.ref)
        offsets := (List.range (span + 2)).map (before (offsetOf spec table.chunks minKey) entries)
        unique := decide (entries.map (offsetOf spec table.chunks minKey)).Nodup } := by
  intro entries
  have fits : Fits words.narrow entries.length := hold.narrow.mono (room ▸ few)
  have same : ∀ entry ∈ entries,
      keyOffset words table.minKey (directKey (chunkKey spec table.chunks entry.ref)) =
        offsetOf spec table.chunks minKey entry := by
    intro entry member
    rw [minimum]
    exact keys.keyOffset_eq hold small member
  have bounded : ∀ entry ∈ entries, offsetOf spec table.chunks minKey entry < span + 1 :=
    fun entry member => keys.offset_lt member
  dsimp only [buildDirect]
  rw [offsets, place_counted fits same bounded (by rw [length_map, room]),
    repeats_counted fits same bounded]
  congr 1
  rw [range_succ, map_append, map_singleton, dropLast_concat]

def keyAt (minKey : Int) (offset : Nat) : List Value := [.int (minKey + offset)]

theorem keyAt_offset (low : minKey ≤ x) : keyAt minKey (x - minKey).toNat = [.int x] := by
  rw [keyAt]
  congr 2
  omega

section

variable (parted : Parted spec hash chunks parts rows)
  (keys : IntegerKeys spec chunks minKey span parts.flatten)
include parted keys

theorem Parted.filter_offset (offset : Nat) :
    parts.flatten.filter (fun entry => offsetOf spec chunks minKey entry = offset) =
      members (classOf spec chunks) parts.flatten
        (hash (keyAt minKey offset), keyAt minKey offset) := by
  apply filter_congr
  intro entry member
  obtain ⟨p, bound, among⟩ := parted.mem_flatten.mp member
  obtain ⟨x, key, low, high⟩ := keys entry member
  rw [decide_eq_decide, parted.class_hash bound among, offsetOf, key, directKey, keyAt,
    Prod.mk.injEq, List.cons.injEq, Value.int.injEq]
  constructor
  · intro at_
    have same : x = minKey + offset := by omega
    rw [same]
    exact ⟨rfl, rfl, rfl⟩
  · rintro ⟨-, same, -⟩
    omega

theorem Parted.laid_direct :
    Laid spec hash chunks parts
      ((sorted (span + 1) (offsetOf spec chunks minKey) parts.flatten).map (·.ref))
      ((List.range (span + 1)).map (keyAt minKey)) where
  nodup := by
    refine List.nodup_range.map ?_
    intro a b same
    rw [keyAt, keyAt, List.cons.injEq, Value.int.injEq] at same
    omega
  covers entry member := by
    obtain ⟨x, key, low, high⟩ := keys entry member
    rw [key, mem_map]
    exact ⟨(x - minKey).toNat, List.mem_range.mpr (by omega), keyAt_offset low⟩
  rows := by
    rw [sorted, map_flatMap, flatMap_map]
    congr 1
    funext offset
    rw [parted.filter_offset keys, keyRows]

theorem Parted.direct_unique :
    (parts.flatten.map (offsetOf spec chunks minKey)).Nodup ↔ (rows.map (keyOf spec)).Nodup := by
  rw [← parted.nodup_iff, nodup_iff_count_le_one]
  have counts : ∀ offset, (parts.flatten.map (offsetOf spec chunks minKey)).count offset =
      (members (classOf spec chunks) parts.flatten
        (hash (keyAt minKey offset), keyAt minKey offset)).length := by
    intro offset
    rw [← parted.filter_offset keys, count_eq_countP, countP_map,
      countP_eq_length_filter]
    congr 1
  constructor
  · intro single entry member
    obtain ⟨p, bound, among⟩ := parted.mem_flatten.mp member
    obtain ⟨x, key, low, -⟩ := keys entry member
    rw [parted.class_hash bound among, key, ← keyAt_offset low, ← counts]
    exact single _
  · intro single offset
    rw [counts]
    cases found : members (classOf spec chunks) parts.flatten
        (hash (keyAt minKey offset), keyAt minKey offset) with
    | nil => exact Nat.zero_le 1
    | cons entry rest =>
      have member : entry ∈ members (classOf spec chunks) parts.flatten
          (hash (keyAt minKey offset), keyAt minKey offset) := by simp [found]
      rw [members, mem_filter, decide_eq_true_eq] at member
      rw [← found, ← member.2]
      exact single entry member.1

end

end Direct

section FindDirect

variable {spec : JoinBuildSpec} {hash : List Value → Nat} {parts : List (List Entry)}
  {rows : List Record} {table : JoinTable} {x : Int}

def InInt64 (x : Int) : Prop := -2 ^ 63 ≤ x ∧ x < 2 ^ 63

/-- The offset of a probe key: outside the span unless the key is between the smallest and the
largest. -/
theorem keyOffset_probe (low : InInt64 minKey) (high : InInt64 (minKey + span))
    (probe : InInt64 x) :
    (keyOffset machineWords minKey x ≤ span ↔ minKey ≤ x ∧ x ≤ minKey + span) ∧
      (minKey ≤ x → x ≤ minKey + span → keyOffset machineWords minKey x = (x - minKey).toNat) := by
  obtain ⟨_, _⟩ := low
  obtain ⟨_, _⟩ := high
  obtain ⟨_, _⟩ := probe
  unfold keyOffset machineWords
  dsimp only
  constructor
  · constructor
    · intro le
      omega
    · intro both
      omega
  · intro below above
    omega

theorem findDirect_spans (parted : Parted spec hash table.chunks parts rows)
    (keys : IntegerKeys spec table.chunks table.minKey table.span parts.flatten)
    (refs : table.rows = (sorted (table.span + 1) (offsetOf spec table.chunks table.minKey)
      parts.flatten).map (·.ref))
    (offsets : table.offsets = (List.range (table.span + 2)).map
      (before (offsetOf spec table.chunks table.minKey) parts.flatten))
    (low : InInt64 table.minKey) (high : InInt64 (table.minKey + table.span)) (probe : InInt64 x) :
    Spans table.rows (keyRows spec hash table.chunks parts [.int x])
      (findDirect table [.int x]) := by
  obtain ⟨inside, offset⟩ := keyOffset_probe low high probe
  by_cases within : table.minKey ≤ x ∧ x ≤ table.minKey + table.span
  · simp only [findDirect, directKey, offset within.1 within.2]
    generalize at_ : (x - table.minKey).toNat = index
    have bound : index < table.span + 1 := by omega
    have begins : table.offsets.getD index 0 =
        before (offsetOf spec table.chunks table.minKey) parts.flatten index := by
      rw [offsets]
      simp [show index < table.span + 2 by omega]
    have stops : table.offsets.getD (index + 1) 0 =
        before (offsetOf spec table.chunks table.minKey) parts.flatten index +
          (keyRows spec hash table.chunks parts [.int x]).length := by
      rw [keyRows, length_map, ← keyAt_offset within.1, at_, ← parted.filter_offset keys,
        ← size_eq_filter, ← before_succ, offsets]
      simp [bound]
    simp only [begins, stops]
    constructor
    · intro none
      rw [none, if_neg]
      simp
    · intro some_
      have positive := length_pos_of_ne_nil some_
      rw [if_pos ⟨by omega, by omega⟩]
      obtain ⟨rest, split⟩ := sorted_split (offsetOf spec table.chunks table.minKey)
        parts.flatten bound
      refine ⟨(sorted index (offsetOf spec table.chunks table.minKey) parts.flatten).map (·.ref),
        rest.map (·.ref), ?_, ?_⟩
      · rw [refs, split, map_append, map_append, parted.filter_offset keys, ← at_,
          keyAt_offset within.1, keyRows]
      · rw [length_map, length_sorted]
  · rw [findDirect, if_neg fun both => within (inside.mp both.1)]
    refine ⟨fun _ => rfl, fun some_ => absurd ?_ some_⟩
    rw [keyRows, map_eq_nil_iff, members, filter_eq_nil_iff]
    intro entry member same
    obtain ⟨y, key, bounds⟩ := keys entry member
    rw [decide_eq_true_eq, classOf, key, Prod.mk.injEq, List.cons.injEq, Value.int.injEq] at same
    exact within (same.2.1 ▸ bounds)

end FindDirect

end Antb1.Exec.Join
