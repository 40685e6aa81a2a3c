import Antb1.Exec.JoinDirectProofs

/-! The join table built from any parts: its rows are the build rows without a NULL key, one
key after another, and a lookup gives the rows of its key, whatever the hash function and the
layout. -/
namespace Antb1.Exec.Join

open Antb1.Plan CountingSort Grouping List

variable {builder : JoinTableBuilder} {keys : List (List Value)} {words : Words}
  {spec : JoinBuildSpec} {batches : List Batch} {other : JoinBuildSpec}

def storedRange : LogicalType → Option IntegerRange
  | .smallInt => some ⟨-2 ^ 15, 2 ^ 15 - 1⟩
  | .integer | .date => some ⟨-2 ^ 31, 2 ^ 31 - 1⟩
  | .uSmallInt => some ⟨0, 2 ^ 16 - 1⟩
  | .bigInt | .timestamp => some ⟨-2 ^ 63, 2 ^ 63 - 1⟩
  | _ => none

/-- A value of a key column: NULL, or what its type's array can hold. -/
def StoredIn (column : KeyColumn) (value : Value) : Prop :=
  value = .null ∨ ∀ range ∈ storedRange column.type,
    ∃ x, value = .int x ∧ range.min ≤ x ∧ x ≤ range.max

def Stored (spec : JoinBuildSpec) (key : List Value) : Prop :=
  List.Forall₂ StoredIn spec.keys key

theorem storedRange_direct {type : LogicalType} (direct : isDirectType type = true) :
    ∃ range, storedRange type = some range ∧ -2 ^ 63 ≤ range.min ∧ range.max < 2 ^ 63 := by
  cases type with
  | smallInt | integer | bigInt | uSmallInt | date | timestamp =>
    exact ⟨_, rfl, by decide, by decide⟩
  | hugeInt | decimal _ _ | double | varchar | boolean => cases direct

/-- The key of a direct candidate without a NULL is one integer of 64 bits. -/
theorem Stored.direct {key : List Value} (stored : Stored spec key)
    (candidate : spec.directCandidate = true) (present : hasNullKey key = false) :
    ∃ x, key = [.int x] ∧ InInt64 x := by
  have direct := spec.candidate candidate
  unfold Stored at stored
  generalize spec.keys = keys at direct stored
  match keys, direct, stored with
  | [column], direct, .cons held .nil =>
    rename_i value
    rw [hasNullKey, any_cons, any_nil, Bool.or_false, decide_eq_false_iff_not] at present
    obtain ⟨range, found, low, high⟩ := storedRange_direct direct
    obtain ⟨x, rfl, above, below⟩ := held.resolve_left present range found
    exact ⟨x, rfl, by omega, by omega⟩

section Finish

variable {hash : List Value → Nat}

theorem isDirect_words (hold : words.Hold) (affordable : Nat → Bool) {span numRows : Nat}
    (few : numRows ≤ kMaxRows) :
    isDirect words spec affordable span numRows =
      isDirect exactWords spec affordable span numRows := by
  have rows : numRows < 2 ^ 32 := Nat.lt_of_le_of_lt few (by decide)
  have dense : kDirectSlotsPerRow * numRows % words.wide = kDirectSlotsPerRow * numRows :=
    (hold.wide.mono (by rw [kDirectSlotsPerRow]; omega)).mod_eq
  have sparse : kSparseDirectSlotsPerRow * numRows % words.wide =
      kSparseDirectSlotsPerRow * numRows :=
    (hold.wide.mono (by rw [kSparseDirectSlotsPerRow]; omega)).mod_eq
  by_cases within : span < kSparseDirectSlotsPerRow * numRows
  · have bytes : (span + 3) * 4 % words.wide = (span + 3) * 4 := by
      rw [kSparseDirectSlotsPerRow] at within
      exact (hold.wide.mono (by omega)).mod_eq
    simp [isDirect, dense, sparse, bytes, exactWords]
  · simp [isDirect, dense, sparse, within, exactWords]

theorem isDirect_span {affordable : Nat → Bool} {span numRows : Nat}
    (direct : isDirect exactWords spec affordable span numRows = true) :
    spec.directCandidate = true ∧ 0 < numRows ∧ span < 32 * numRows := by
  simp only [isDirect, exactWords, Nat.mod_zero, kDirectSlotsPerRow, kSparseDirectSlotsPerRow,
    Bool.and_eq_true, Bool.or_eq_true, decide_eq_true_eq] at direct
  obtain ⟨⟨candidate, some_⟩, dense | sparse⟩ := direct
  · exact ⟨candidate, some_, by omega⟩
  · exact ⟨candidate, some_, sparse.1⟩

variable {chunks : List (List Record)} {parts : List (List Entry)} {rows : List Record}

theorem Parted.length (parted : Parted spec hash chunks parts rows) :
    parts.flatten.length = rows.length := by
  have order := sorted_perm (fun row => partitionOf (hash (keyOf spec row))) rows
    fun row _ => Nat.mod_lt _ (show 0 < kJoinPartitions by decide)
  rw [← order.length_eq, sorted, parted.flatten, flatMap_def, flatMap_def,
    length_flatten, length_flatten, map_map, map_map]
  congr 1
  apply map_congr_left
  intro p member
  have same := congrArg List.length (parted.stands p (mem_range.mp member))
  rw [length_map, length_map] at same
  exact same

def builderParts (builder : JoinTableBuilder) : List (List Entry) :=
  builder.segments.map fun segments => segments.flatMap Segment.entries

theorem flatten_builderParts (builder : JoinTableBuilder) :
    (builderParts builder).flatten =
      builder.segments.flatMap fun segments => segments.flatMap Segment.entries := by
  rw [builderParts, flatMap_def]

theorem Gathered.numRows_eq (gathered : Gathered spec hash batches builder) :
    builder.numRows = (batches.flatMap (keptRows spec)).length := by
  rw [gathered.rows, flatMap_hashRows, length_map]

theorem Gathered.entries_length (gathered : Gathered spec hash batches builder) :
    (builderParts builder).flatten.length = builder.numRows := by
  rw [gathered.numRows_eq]
  exact gathered.parted.length

def hashedTable (spec : JoinBuildSpec) (builder : JoinTableBuilder) : JoinTable :=
  let cls := classOf spec (builder.pieces.map (·.rows))
  { startTable builder with
    rows := ((builderParts builder).flatMap (partitionEntries cls)).map (·.ref)
    directories := directoriesFrom cls 0 (builderParts builder)
    unique := (directoriesFrom cls 0 (builderParts builder)).all fun directory =>
      directory.slots.all fun slot => slot.stop - slot.begin ≤ 1 }

theorem Gathered.buildHashed_eq (hold : words.Hold)
    (gathered : Gathered spec hash batches builder) :
    buildHashed words spec builder.segments (startTable builder) = hashedTable spec builder := by
  have agrees : ∀ a b : Entry, (a.hash == b.hash &&
      chunkKey spec (startTable builder).chunks a.ref ==
        chunkKey spec (startTable builder).chunks b.ref) = true ↔
      classOf spec (builder.pieces.map (·.rows)) a =
        classOf spec (builder.pieces.map (·.rows)) b := by
    intro a b
    rw [Bool.and_eq_true, beq_iff_eq, beq_iff_eq, classOf, classOf, Prod.mk.injEq]
    rfl
  have room := gathered.entries_length
  rw [flatten_builderParts] at room
  have folded := @foldl_hashPartition _ _ _ words _ agrees builder.segments []
    (startTable builder).rows []
    (hold.narrow.mono (by rw [room]; simpa using gathered.few))
    (by rw [room]; exact length_replicate)
  rw [nil_append, length_nil] at folded
  dsimp only [buildHashed]
  rw [folded]
  rfl

def directTable (spec : JoinBuildSpec) (builder : JoinTableBuilder) : JoinTable :=
  let offset := offsetOf spec (builder.pieces.map (·.rows)) builder.minKey
  let span := (builder.maxKey - builder.minKey).toNat
  { startTable builder with
    rows := (sorted (span + 1) offset (builderParts builder).flatten).map (·.ref)
    layout := .direct
    minKey := builder.minKey
    span := span
    offsets := (List.range (span + 2)).map (before offset (builderParts builder).flatten)
    unique := decide ((builderParts builder).flatten.map offset).Nodup }

def StoredRows (spec : JoinBuildSpec) (rows : List Record) : Prop :=
  ∀ row ∈ rows, Stored spec (keyOf spec row) ∧ hasNullKey (keyOf spec row) = false

/-- The keys of a direct candidate with rows: integers between the smallest and the largest. -/
theorem Gathered.integerKeys (gathered : Gathered spec hash batches builder)
    (stored : StoredRows spec (batches.flatMap (keptRows spec)))
    (candidate : spec.directCandidate = true) (some_ : 0 < builder.numRows) :
    InInt64 builder.minKey ∧ InInt64 builder.maxKey ∧ builder.minKey ≤ builder.maxKey ∧
      IntegerKeys spec (builder.pieces.map (·.rows)) builder.minKey
        (builder.maxKey - builder.minKey).toNat (builderParts builder).flatten := by
  have range := gathered.keys candidate (ne_nil_of_length_pos (gathered.rows ▸ some_))
  have keys : directKeys spec (batches.flatMap (hashRows spec hash)) =
      (batches.flatMap (keptRows spec)).map fun row => directKey (keyOf spec row) := by
    rw [directKeys, flatMap_hashRows, map_map]
    rfl
  rw [keys] at range
  have held : ∀ x, x ∈ (batches.flatMap (keptRows spec)).map
      (fun row => directKey (keyOf spec row)) → InInt64 x := by
    intro x member
    obtain ⟨row, among, rfl⟩ := mem_map.mp member
    obtain ⟨stores, present⟩ := stored row among
    obtain ⟨y, key, inside⟩ := stores.direct candidate present
    rw [key]
    exact inside
  refine ⟨held _ range.low_mem, held _ range.high_mem, (range.bounds _ range.high_mem).1, ?_⟩
  intro entry member
  obtain ⟨p, bound, among⟩ := gathered.parted.mem_flatten.mp member
  obtain ⟨row, isRow, -, -, key, -⟩ := gathered.parted.entry bound among
  obtain ⟨stores, present⟩ := stored row isRow
  obtain ⟨x, own, -⟩ := stores.direct candidate present
  have bounds := range.bounds x (mem_map.mpr ⟨row, isRow, by rw [own]; rfl⟩)
  exact ⟨x, key.trans own, bounds.1, by omega⟩

theorem Gathered.finish_eq (hold : words.Hold) (gathered : Gathered spec hash batches builder)
    (stored : StoredRows spec (batches.flatMap (keptRows spec))) (affordable : Nat → Bool) :
    finish words spec affordable builder =
      if isDirect exactWords spec affordable (builder.maxKey - builder.minKey).toNat
        builder.numRows then directTable spec builder else hashedTable spec builder := by
  by_cases candidate : spec.directCandidate = true ∧ 0 < builder.numRows
  · obtain ⟨low, high, ordered, keys⟩ :=
      gathered.integerKeys stored candidate.1 candidate.2
    have span : keyOffset words builder.minKey builder.maxKey =
        (builder.maxKey - builder.minKey).toNat := by
      obtain ⟨_, _⟩ := low
      obtain ⟨_, _⟩ := high
      exact keyOffset_eq hold ordered (by omega)
    dsimp only [finish]
    rw [span, isDirect_words hold affordable gathered.few]
    split_ifs with direct
    · obtain ⟨-, -, dense⟩ := isDirect_span direct
      have few : builder.numRows < 2 ^ 32 := Nat.lt_of_le_of_lt gathered.few (by decide)
      have room := gathered.entries_length
      rw [(hold.wide.mono (show (builder.maxKey - builder.minKey).toNat + 3 ≤ _ by omega)).mod_eq]
      rw [flatten_builderParts] at room keys
      rw [buildDirect_eq hold (show (builder.maxKey - builder.minKey).toNat < _ by omega) rfl rfl
        keys (by rw [room]; exact length_replicate)
        (by rw [startTable, length_replicate]; exact gathered.few)]
      rw [directTable, flatten_builderParts]
      rfl
    · exact gathered.buildHashed_eq hold
  · have hashed : ∀ words span, isDirect words spec affordable span builder.numRows = false := by
      intro words span
      rw [isDirect]
      rcases not_and_or.mp candidate with no | none
      · simp [no]
      · simp [none]
    rw [finish, hashed, hashed, if_neg Bool.false_ne_true, if_neg Bool.false_ne_true]
    exact gathered.buildHashed_eq hold

end Finish

section Answers

variable {hash : List Value → Nat} {chunks : List (List Record)} {parts : List (List Entry)}
  {rows : List Record} {refs : List JoinRowRef}

def rangeRows (table : JoinTable) (matches_ : JoinMatches) : List (Option Record) :=
  (slice table.rows matches_.begin matches_.stop).map (chunkRow table.chunks)

/-- A probe row's range: empty unless it is selected and its key has no NULL, and then the
build rows with its key. -/
structure Answered (spec : JoinBuildSpec) (rows : List Record) (table : JoinTable)
    (probe : ProbeRow) (matches_ : JoinMatches) : Prop where
  skipped : probe.selected = false ∨ hasNullKey probe.key = true → matches_ = {}
  found : probe.selected = true → hasNullKey probe.key = false →
    rangeRows table matches_ = (rows.filter fun row => keyOf spec row = probe.key).map some ∧
      matches_.stop = matches_.begin + (rows.filter fun row => keyOf spec row = probe.key).length
  missed : (∀ row ∈ rows, keyOf spec row ≠ probe.key) → matches_ = {}

structure ExactTable (spec : JoinBuildSpec) (hash : List Value → Nat) (rows : List Record)
    (table : JoinTable) : Prop where
  rows_perm : (table.rows.map (chunkRow table.chunks)).Perm (rows.map some)
  rows_grouped : ∃ keys : List (List Value), keys.Nodup ∧
    table.rows.map (chunkRow table.chunks) =
      (keys.flatMap fun key => rows.filter fun row => keyOf spec row = key).map some
  unique : table.unique = true ↔ (rows.map (keyOf spec)).Nodup
  answers : ∀ probes : List ProbeRow, (∀ probe ∈ probes, Stored spec probe.key) →
    List.Forall₂ (Answered spec rows table) probes (find spec hash table probes)

theorem Laid.grouped (parted : Parted spec hash chunks parts rows)
    (laid : Laid spec hash chunks parts refs keys) :
    refs.map (chunkRow chunks) =
      (keys.flatMap fun key => rows.filter fun row => keyOf spec row = key).map some := by
  rw [laid.rows, map_flatMap, map_flatMap]
  congr 1
  funext key
  rw [← parted.rows_of_key, keyRows, map_map]
  rfl

theorem Laid.perm (parted : Parted spec hash chunks parts rows)
    (laid : Laid spec hash chunks parts refs keys) :
    (refs.map (chunkRow chunks)).Perm (rows.map some) := by
  rw [laid.grouped parted]
  refine (flatMap_members_perm laid.nodup fun row member => ?_).map some
  have some_ : (rows.filter fun other => keyOf spec other = keyOf spec row).map some ≠ [] := by
    simpa using ⟨row, member, rfl⟩
  rw [← parted.rows_of_key] at some_
  obtain ⟨entry, among⟩ := exists_mem_of_ne_nil _
    (fun none => some_ (map_eq_nil_iff.mpr none))
  rw [members, mem_filter, decide_eq_true_eq] at among
  have key : chunkKey spec chunks entry.ref = keyOf spec row := congrArg Prod.snd among.2
  exact key ▸ laid.covers entry among.1

theorem Spans.slice {refs group : List JoinRowRef} {matches_ : JoinMatches}
    (spans : Spans refs group matches_) :
    slice refs matches_.begin matches_.stop = group ∧
      matches_.stop = matches_.begin + group.length := by
  by_cases none : group = []
  · rw [spans.1 none, none]
    simp [Join.slice]
  · obtain ⟨first, rest, split, rfl⟩ := spans.2 none
    refine ⟨?_, rfl⟩
    rw [split]
    exact slice_middle rfl rfl

theorem answered {table : JoinTable} (parted : Parted spec hash table.chunks parts rows)
    {probe : ProbeRow}
    (spans : probe.selected = true → hasNullKey probe.key = false →
      Spans table.rows (keyRows spec hash table.chunks parts probe.key)
        (findRow spec hash table probe)) :
    Answered spec rows table probe (findRow spec hash table probe) := by
  have group : (keyRows spec hash table.chunks parts probe.key).map (chunkRow table.chunks) =
      (rows.filter fun row => keyOf spec row = probe.key).map some := by
    rw [← parted.rows_of_key, keyRows, map_map]
    rfl
  have skipped : probe.selected = false ∨ hasNullKey probe.key = true →
      findRow spec hash table probe = {} := by
    rintro (unselected | null)
    · rw [findRow, unselected]
      rfl
    · rw [findRow, null, Bool.or_true]
      rfl
  refine ⟨skipped, fun selected present => ?_, fun none => ?_⟩
  · obtain ⟨range, stop⟩ := (spans selected present).slice
    have count := congrArg List.length group
    rw [length_map, length_map] at count
    exact ⟨by rw [rangeRows, range, group], by rw [stop, count]⟩
  · by_cases kept : probe.selected = true ∧ hasNullKey probe.key = false
    · apply (spans kept.1 kept.2).1
      have empty : rows.filter (fun row => keyOf spec row = probe.key) = [] := by
        simpa using none
      rw [empty] at group
      exact map_eq_nil_iff.mp group
    · apply skipped
      rw [not_and_or, Bool.not_eq_true, Bool.not_eq_false] at kept
      exact kept

theorem exactTable {table : JoinTable} (parted : Parted spec hash table.chunks parts rows)
    (laid : Laid spec hash table.chunks parts table.rows keys)
    (unique : table.unique = true ↔ (rows.map (keyOf spec)).Nodup)
    (spans : ∀ probe : ProbeRow, Stored spec probe.key → probe.selected = true →
      hasNullKey probe.key = false →
      Spans table.rows (keyRows spec hash table.chunks parts probe.key)
        (findRow spec hash table probe)) :
    ExactTable spec hash rows table where
  rows_perm := laid.perm parted
  rows_grouped := ⟨keys, laid.nodup, laid.grouped parted⟩
  unique := unique
  answers probes stored := by
    have each : ∀ probe ∈ probes,
        Answered spec rows table probe (findRow spec hash table probe) :=
      fun probe member => answered parted (spans probe (stored probe member))
    rw [find]
    split_ifs with none
    · -- Nothing is looked up in a table without rows; a lookup would find nothing.
      have noRows : rows = [] := by
        have perm := laid.perm parted
        rw [isEmpty_iff.mp none, map_nil] at perm
        exact map_eq_nil_iff.mp (nil_perm.mp perm)
      rw [forall₂_map_right_iff, forall₂_same]
      intro probe member
      have missed := (each probe member).missed (by simp [noRows])
      exact missed ▸ each probe member
    · rw [forall₂_map_right_iff, forall₂_same]
      exact each

/-- The selected build rows without a NULL key, in (part, row) order. -/
def buildRows (spec : JoinBuildSpec) (parts : List (List Batch)) : List Record :=
  parts.flatten.flatMap (keptRows spec)

def StoredParts (spec : JoinBuildSpec) (parts : List (List Batch)) : Prop :=
  ∀ batch ∈ parts.flatten, ∀ entry ∈ batch, Stored spec (keyOf spec entry.row)

theorem StoredParts.kept {parts : List (List Batch)} (stored : StoredParts spec parts) :
    StoredRows spec (parts.flatten.flatMap (keptRows spec)) := by
  intro row member
  obtain ⟨batch, among, kept⟩ := mem_flatMap.mp member
  rw [keptRows, mem_map] at kept
  obtain ⟨entry, passed, rfl⟩ := kept
  rw [mem_filter, Bool.and_eq_true, Bool.not_eq_true'] at passed
  exact ⟨stored batch among entry passed.1, passed.2.2⟩

section

variable (gathered : Gathered spec hash batches builder)
include gathered

theorem Gathered.exact_hashed :
    ExactTable spec hash (batches.flatMap (keptRows spec)) (hashedTable spec builder) := by
  obtain ⟨keys, laid⟩ := gathered.parted.laid_hashed
  refine exactTable gathered.parted laid gathered.parted.hashed_unique ?_
  intro probe _ selected present
  rw [findRow, selected, present]
  exact findHashed_spans gathered.parted rfl rfl probe.key

theorem Gathered.exact_direct (stored : StoredRows spec (batches.flatMap (keptRows spec)))
    (candidate : spec.directCandidate = true) (some_ : 0 < builder.numRows) :
    ExactTable spec hash (batches.flatMap (keptRows spec)) (directTable spec builder) := by
  obtain ⟨low, high, ordered, keys⟩ := gathered.integerKeys stored candidate some_
  refine exactTable gathered.parted (gathered.parted.laid_direct keys) ?_ ?_
  · exact decide_eq_true_iff.trans (gathered.parted.direct_unique keys)
  · intro probe stores selected present
    obtain ⟨x, key, inside⟩ := stores.direct candidate present
    rw [findRow, selected, present, key]
    refine findDirect_spans gathered.parted keys rfl rfl low ?_ inside
    have top : builder.minKey + (builder.maxKey - builder.minKey).toNat = builder.maxKey := by omega
    exact top ▸ high

theorem Gathered.exact (stored : StoredRows spec (batches.flatMap (keptRows spec)))
    (affordable : Nat → Bool) (hold : words.Hold) :
    ExactTable spec hash (batches.flatMap (keptRows spec))
      (finish words spec affordable builder) := by
  rw [gathered.finish_eq hold stored]
  split_ifs with direct
  · obtain ⟨candidate, some_, -⟩ := isDirect_span direct
    exact gathered.exact_direct stored candidate some_
  · exact gathered.exact_hashed

end

end Answers

/-- Two exact tables of the same rows give the same rows for every probe. -/
theorem ExactTable.same_answers {hash hash' : List Value → Nat} {rows : List Record}
    {table table' : JoinTable} (same : keyOf other = keyOf spec)
    (exact_ : ExactTable spec hash rows table) (exact' : ExactTable other hash' rows table')
    {probes : List ProbeRow} (stored : ∀ probe ∈ probes, Stored spec probe.key)
    (stored' : ∀ probe ∈ probes, Stored other probe.key) :
    (find spec hash table probes).map (rangeRows table) =
      (find other hash' table' probes).map (rangeRows table') := by
  have answers := exact_.answers probes stored
  have answers' := exact'.answers probes stored'
  generalize find spec hash table probes = found at answers
  generalize find other hash' table' probes = found' at answers'
  have empty : ∀ table : JoinTable, rangeRows table {} = [] := fun table => rfl
  clear stored stored'
  induction answers generalizing found' with
  | nil =>
    cases answers'
    rfl
  | @cons probe matches_ _ _ here _ ih =>
    cases answers' with
    | @cons _ matches' _ _ here' rest' =>
      rw [map_cons, map_cons, ih _ rest']
      congr 1
      by_cases kept : probe.selected = true ∧ hasNullKey probe.key = false
      · rw [(here.found kept.1 kept.2).1, (here'.found kept.1 kept.2).1, same]
      · rw [not_and_or, Bool.not_eq_true, Bool.not_eq_false] at kept
        rw [here.skipped kept, here'.skipped kept, empty, empty]

theorem keyOf_congr (same : other.keys = spec.keys) : keyOf other = keyOf spec := by
  funext row
  rw [keyOf, keyOf, same]

theorem keptRows_congr (same : other.keys = spec.keys) : keptRows other = keptRows spec := by
  funext batch
  rw [keptRows, keptRows, keyOf_congr same]

theorem Stored.congr (same : other.keys = spec.keys) {key : List Value} (stored : Stored spec key) :
    Stored other key := by
  rwa [Stored, same]

theorem buildTable_ok {parts : List (List Batch)} (stored : StoredParts spec parts)
    (buildable : Buildable spec parts) (hash : List Value → Nat) (affordable : Nat → Bool) :
    ∃ table, buildTable machineWords spec hash affordable parts = .ok table ∧
      buildTable exactWords spec hash affordable parts = .ok table ∧
      ExactTable spec hash (buildRows spec parts) table := by
  obtain ⟨builder, gathers, gathered⟩ := gatherParts_ok hash buildable
  refine ⟨finish machineWords spec affordable builder, ?_, ?_,
    gathered.exact stored.kept affordable machineWords_hold⟩
  · rw [buildTable, gatherParts_words machineWords_hold, gathers]
    rfl
  · rw [buildTable, gathers, gathered.finish_eq machineWords_hold stored.kept,
      ← gathered.finish_eq exactWords_hold stored.kept]
    rfl

theorem buildTable_error {parts : List (List Batch)} (not : ¬ Buildable spec parts)
    (hold : words.Hold) (hash : List Value → Nat) (affordable : Nat → Bool) :
    buildTable words spec hash affordable parts = .error .tooManyRows := by
  rw [buildTable, gatherParts_words hold, gatherParts_error not]
  rfl

/-- The join table answers every lookup exactly: a build within its limits gives a table of
exactly the build rows, with the same answers in either layout, and is computed without
overflow; a larger one is refused. -/
theorem buildTable_exact (spec : JoinBuildSpec) (hash : List Value → Nat)
    (affordable : Nat → Bool) (parts : List (List Batch)) (stored : StoredParts spec parts) :
    (Buildable spec parts → ∃ table,
      buildTable machineWords spec hash affordable parts = .ok table ∧
      ExactTable spec hash (buildRows spec parts) table ∧
      ∀ (other : JoinBuildSpec) (affordable' : Nat → Bool), other.keys = spec.keys →
        ∃ table', buildTable machineWords other hash affordable' parts = .ok table' ∧
          ∀ probes : List ProbeRow, (∀ probe ∈ probes, Stored spec probe.key) →
            (find other hash table' probes).map (rangeRows table') =
              (find spec hash table probes).map (rangeRows table)) ∧
    (¬ Buildable spec parts →
      buildTable machineWords spec hash affordable parts = .error .tooManyRows) ∧
    buildTable machineWords spec hash affordable parts =
      buildTable exactWords spec hash affordable parts := by
  refine ⟨fun buildable => ?_, fun not => buildTable_error not machineWords_hold .., ?_⟩
  · obtain ⟨table, built, -, exact_⟩ := buildTable_ok stored buildable hash affordable
    refine ⟨table, built, exact_, fun other affordable' same => ?_⟩
    have stored' : StoredParts other parts := fun batch member entry among => by
      rw [keyOf_congr same]
      exact (stored batch member entry among).congr same
    have buildable' : Buildable other parts :=
      ⟨buildable.batches, by rw [keptRows_congr same]; exact buildable.rows⟩
    obtain ⟨table', built', -, exact'⟩ := buildTable_ok stored' buildable' hash affordable'
    rw [buildRows, keptRows_congr same] at exact'
    refine ⟨table', built', fun probes stores => ?_⟩
    exact (exact_.same_answers (keyOf_congr same) exact' stores
      fun probe member => (stores probe member).congr same).symm
  · by_cases buildable : Buildable spec parts
    · obtain ⟨table, built, built', -⟩ := buildTable_ok stored buildable hash affordable
      rw [built, built']
    · rw [buildTable_error buildable machineWords_hold, buildTable_error buildable exactWords_hold]

def bigIntSpec : JoinBuildSpec where
  keys := [⟨0, .bigInt⟩]
  directCandidate := true
  someKey := by decide
  bytewise := by decide
  candidate := by decide

/-- Two parts with both extreme keys, one of them twice, a NULL key and an unselected row. -/
def extremeParts : List (List Batch) :=
  [[[⟨true, [.int (-2 ^ 63)]⟩, ⟨true, [.null]⟩], [⟨true, [.int (2 ^ 63 - 1)]⟩]],
    [[⟨false, [.int 5]⟩, ⟨true, [.int (-2 ^ 63)]⟩]]]

theorem extremeParts_stored : StoredParts bigIntSpec extremeParts := by
  have held : ∀ x : Int, -2 ^ 63 ≤ x → x ≤ 2 ^ 63 - 1 → Stored bigIntSpec [.int x] :=
    fun x low high => .cons (.inr fun range found => by
      cases found
      exact ⟨x, rfl, low, high⟩) .nil
  have null : Stored bigIntSpec [.null] := .cons (.inl rfl) .nil
  intro batch member entry among
  simp only [extremeParts, flatten_cons, flatten_nil, append_nil, cons_append,
    nil_append, mem_cons, not_mem_nil, or_false] at member
  rcases member with rfl | rfl | rfl <;>
    simp only [mem_cons, not_mem_nil, or_false] at among
  · rcases among with rfl | rfl
    · exact held _ (by decide) (by decide)
    · exact null
  · rcases among with rfl
    exact held _ (by decide) (by decide)
  · rcases among with rfl | rfl <;> exact held _ (by decide) (by decide)

theorem extremeParts_buildable : Buildable bigIntSpec extremeParts :=
  ⟨by unfold WithinLimit; decide, by decide⟩

theorem buildTable_exact_extreme : StoredParts bigIntSpec extremeParts ∧
    ∃ table, buildTable machineWords bigIntSpec (fun _ => 0) (fun _ => true) extremeParts =
        .ok table ∧
      ExactTable bigIntSpec (fun _ => 0)
        [[.int (-2 ^ 63)], [.int (2 ^ 63 - 1)], [.int (-2 ^ 63)]] table := by
  obtain ⟨table, built, exact_, -⟩ := (buildTable_exact bigIntSpec (fun _ => 0) (fun _ => true)
    extremeParts extremeParts_stored).1 extremeParts_buildable
  exact ⟨extremeParts_stored, table, built, exact_⟩

end Antb1.Exec.Join
