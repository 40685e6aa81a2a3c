import Antb1.Exec.JoinTable
import Mathlib.Data.List.GetD

/-! The parts of a join build and the segments of their partitions: each partition's entries
are its rows in (part, row) order. -/
namespace Antb1.Exec.Join

open Antb1.Plan CountingSort List

variable {part : JoinBuildPart} {builder : JoinTableBuilder} {batches : List Batch}
  {parts : List (List Batch)} {words : Words} {batch : Batch} {rows : List HashedRow}
  {partition chunk : Nat} {chunks : List (List Record)}

/-- Words that hold every count of rows and every key offset. -/
structure Words.Hold (words : Words) : Prop where
  narrow : Fits words.narrow kMaxRows
  wide : Fits words.wide (2 ^ 64 - 1)

theorem machineWords_hold : machineWords.Hold := by
  refine ⟨.inr ?_, .inr ?_⟩ <;> decide

theorem exactWords_hold : exactWords.Hold := ⟨.inl rfl, .inl rfl⟩

def byPartition (row : HashedRow) : Nat := partitionOf row.hash

theorem byPartition_lt (row : HashedRow) : byPartition row < kJoinPartitions :=
  Nat.mod_lt _ (by decide)

def pieceOf (rows : List HashedRow) : Piece :=
  let rows' := sorted kJoinPartitions byPartition rows
  ⟨rows'.map (·.row), rows'.map (·.hash),
    (List.range (kJoinPartitions + 1)).map (before byPartition rows)⟩

theorem makePiece_eq (fits : Fits words.narrow rows.length) :
    makePiece words rows = pieceOf rows := by
  have starts : partialSums words.narrow 0 (countUp words.narrow 1 byPartition rows
      (List.replicate (kJoinPartitions + 1) 0)) =
      (List.range (kJoinPartitions + 1)).map (before byPartition rows) := starts_eq fits
  have placed : (place words.narrow 0 byPartition rows
      ⟨(partialSums words.narrow 0 (countUp words.narrow 1 byPartition rows
        (List.replicate (kJoinPartitions + 1) 0))).take kJoinPartitions,
        List.replicate rows.length default⟩).out = sorted kJoinPartitions byPartition rows := by
    apply sort_out fits (fun row _ => byPartition_lt row) length_replicate
    intro b bound
    exact getElem?_take_of_lt bound
  unfold makePiece pieceOf
  change Piece.mk _ _ _ = _
  rw [← placed, ← starts]
  rfl

theorem length_hashRows_le (spec : JoinBuildSpec) (hash : List Value → Nat) (batch : Batch) :
    (hashRows spec hash batch).length ≤ batch.length := by
  rw [hashRows, length_map, keptRows, length_map]
  exact length_filter_le _ _

theorem appendRows_words (hold : words.Hold) (spec : JoinBuildSpec) (hash : List Value → Nat)
    (part : JoinBuildPart) (batch : Batch) :
    appendRows words spec hash part batch = appendRows exactWords spec hash part batch := by
  dsimp only [appendRows]
  by_cases fits : batch.length > kMaxRows
  · simp only [fits, if_true]
  · have few := (length_hashRows_le spec hash batch).trans (Nat.le_of_not_gt fits)
    rw [makePiece_eq (hold.narrow.mono few), makePiece_eq (exactWords_hold.narrow.mono few)]

theorem buildPart_words (hold : words.Hold) (spec : JoinBuildSpec) (hash : List Value → Nat) :
    buildPart words spec hash = buildPart exactWords spec hash := by
  have same : appendRows words spec hash = appendRows exactWords spec hash :=
    funext₂ fun part batch => appendRows_words hold spec hash part batch
  funext batches
  rw [buildPart, same, buildPart]

/-- The smallest and the largest of some values. -/
structure KeyRange (values : List Int) (low high : Int) : Prop where
  low_mem : low ∈ values
  high_mem : high ∈ values
  bounds : ∀ value ∈ values, low ≤ value ∧ value ≤ high

theorem keyRange_minMax {values : List Int} (some_ : values ≠ []) :
    KeyRange values (minMax values).1 (minMax values).2 := by
  cases values with
  | nil => exact absurd rfl some_
  | cons first rest =>
    have low : rest.foldl min first ∈ first :: rest ∧
        ∀ value ∈ first :: rest, rest.foldl min first ≤ value :=
      min?_eq_some_iff.mp min?_cons'
    have high : rest.foldl max first ∈ first :: rest ∧
        ∀ value ∈ first :: rest, value ≤ rest.foldl max first :=
      max?_eq_some_iff.mp max?_cons'
    exact ⟨low.1, high.1, fun value member => ⟨low.2 value member, high.2 value member⟩⟩

theorem KeyRange.append {first second : List Int} {low high low' high' : Int}
    (range : KeyRange first low high) (range' : KeyRange second low' high') :
    KeyRange (first ++ second) (min low low') (max high high') where
  low_mem := by
    rcases min_choice low low' with same | same <;> rw [same]
    · exact mem_append_left _ range.low_mem
    · exact mem_append_right _ range'.low_mem
  high_mem := by
    rcases max_choice high high' with same | same <;> rw [same]
    · exact mem_append_left _ range.high_mem
    · exact mem_append_right _ range'.high_mem
  bounds value member := by
    rcases mem_append.mp member with mem | mem
    · have := range.bounds value mem
      omega
    · have := range'.bounds value mem
      omega

theorem KeyRange.perm {first second : List Int} {low high : Int} (range : KeyRange first low high)
    (same : first.Perm second) : KeyRange second low high :=
  ⟨same.mem_iff.mp range.low_mem, same.mem_iff.mp range.high_mem,
    fun value member => range.bounds value (same.mem_iff.mpr member)⟩

section Parts

variable (spec : JoinBuildSpec) (hash : List Value → Nat)

def groupsOf (batches : List Batch) : List (List HashedRow) :=
  (batches.map (hashRows spec hash)).filter fun rows => !rows.isEmpty

theorem flatten_groupsOf (batches : List Batch) :
    (groupsOf spec hash batches).flatten = batches.flatMap (hashRows spec hash) := by
  rw [groupsOf, flatten_filter_not_isEmpty, flatMap_def]

theorem groupsOf_append (first second : List Batch) :
    groupsOf spec hash (first ++ second) =
      groupsOf spec hash first ++ groupsOf spec hash second := by
  rw [groupsOf, map_append, filter_append, groupsOf, groupsOf]

theorem groupsOf_nonempty (member : rows ∈ groupsOf spec hash batches) : rows ≠ [] := by
  rw [groupsOf, mem_filter] at member
  simpa using member.2

def directKeys (rows : List HashedRow) : List Int :=
  rows.map fun row => directKey (keyOf spec row.row)

structure PartOf (batches : List Batch) (part : JoinBuildPart) : Prop where
  pieces : part.pieces = (groupsOf spec hash batches).map pieceOf
  rows : part.numRows = (batches.flatMap (hashRows spec hash)).length
  inputs : part.inputRows = (batches.map selectedRows).sum
  nulls : part.nullKeyRows + part.numRows = part.inputRows
  keys : spec.directCandidate = true → batches.flatMap (hashRows spec hash) ≠ [] →
    KeyRange (directKeys spec (batches.flatMap (hashRows spec hash))) part.minKey part.maxKey

def WithinLimit (batch : Batch) : Prop := selectedRows batch = 0 ∨ batch.length ≤ kMaxRows

theorem length_keptRows_le (batch : Batch) : (keptRows spec batch).length ≤ selectedRows batch := by
  rw [keptRows, length_map, selectedRows, ← countP_eq_length_filter]
  apply countP_mono_left
  intro entry _ kept
  rw [Bool.and_eq_true] at kept
  exact kept.1

theorem partOf_empty : PartOf spec hash [] {} :=
  ⟨rfl, rfl, rfl, rfl, fun _ some_ => absurd rfl some_⟩

variable {spec hash}

section

variable (held : PartOf spec hash batches part)
include held

theorem PartOf.addPiece (some_ : hashRows spec hash batch ≠ []) :
    PartOf spec hash (batches ++ [batch])
      (addPiece spec part (selectedRows batch) (hashRows spec hash batch).length
        (pieceOf (hashRows spec hash batch))) := by
  have count : (hashRows spec hash batch).length ≤ selectedRows batch := by
    rw [hashRows, length_map]
    exact length_keptRows_le spec batch
  have more : (batches ++ [batch]).flatMap (hashRows spec hash) =
      batches.flatMap (hashRows spec hash) ++ hashRows spec hash batch := by simp
  have single : groupsOf spec hash [batch] = [hashRows spec hash batch] := by
    simp [groupsOf, some_]
  constructor
  · rw [groupsOf_append, map_append, single, ← held.pieces]
    rfl
  · rw [more, length_append, ← held.rows]
    rfl
  · rw [map_append, sum_append, ← held.inputs]
    simp [Join.addPiece]
  · have before := held.nulls
    simp only [Join.addPiece]
    omega
  · intro direct _
    have here : KeyRange (directKeys spec (hashRows spec hash batch))
        (minMax ((pieceOf (hashRows spec hash batch)).rows.map fun row =>
          directKey (keyOf spec row))).1
        (minMax ((pieceOf (hashRows spec hash batch)).rows.map fun row =>
          directKey (keyOf spec row))).2 := by
      have order : ((pieceOf (hashRows spec hash batch)).rows.map fun row =>
          directKey (keyOf spec row)).Perm (directKeys spec (hashRows spec hash batch)) := by
        rw [pieceOf, map_map, directKeys]
        exact (sorted_perm _ _ fun row _ => byPartition_lt row).map _
      refine (keyRange_minMax fun none => some_ ?_).perm order
      rw [none, nil_perm, directKeys, map_eq_nil_iff] at order
      exact order
    simp only [Join.addPiece, widenKeys, direct, if_true]
    split_ifs with earlier
    · have both := (held.keys direct (ne_nil_of_length_pos (held.rows ▸ earlier))).append here
      rw [more, directKeys, map_append, min_comm, max_comm]
      exact both
    · have none : batches.flatMap (hashRows spec hash) = [] :=
        eq_nil_of_length_eq_zero (by rw [← held.rows]; omega)
      rw [more, none]
      exact here

/-- A batch without rows to keep changes only the counts of input rows. -/
theorem PartOf.skip (none : hashRows spec hash batch = []) :
    PartOf spec hash (batches ++ [batch])
      { part with inputRows := part.inputRows + selectedRows batch
                  nullKeyRows := part.nullKeyRows + selectedRows batch } := by
  have same : (batches ++ [batch]).flatMap (hashRows spec hash) =
      batches.flatMap (hashRows spec hash) := by simp [none]
  constructor
  · rw [groupsOf_append]
    simp [groupsOf, none, held.pieces]
  · rw [same]
    exact held.rows
  · simp [held.inputs]
  · have before := held.nulls
    dsimp only
    omega
  · rw [same]
    exact held.keys

theorem PartOf.step (limit : WithinLimit batch) :
    ∃ next, appendRows exactWords spec hash part batch = .ok next ∧
      PartOf spec hash (batches ++ [batch]) next := by
  have count : (hashRows spec hash batch).length ≤ selectedRows batch := by
    rw [hashRows, length_map]
    exact length_keptRows_le spec batch
  dsimp only [appendRows]
  split_ifs with unselected long none
  · refine ⟨part, rfl, ?_⟩
    have skipped := held.skip (eq_nil_of_length_eq_zero (Nat.le_zero.mp (unselected ▸ count)))
    rwa [unselected] at skipped
  · exact absurd (limit.resolve_left unselected) (Nat.not_le_of_gt long)
  · exact ⟨_, rfl, held.skip (eq_nil_of_length_eq_zero none)⟩
  · rw [makePiece_eq (exactWords_hold.narrow.mono
      ((length_hashRows_le spec hash batch).trans (limit.resolve_left unselected)))]
    exact ⟨_, rfl, held.addPiece fun empty => none (by rw [empty]; rfl)⟩

end

theorem foldlM_appendRows {done batches : List Batch} (held : PartOf spec hash done part)
    (limits : ∀ batch ∈ batches, WithinLimit batch) :
    ∃ next, batches.foldlM (appendRows exactWords spec hash) part = .ok next ∧
      PartOf spec hash (done ++ batches) next := by
  induction batches generalizing done part with
  | nil => exact ⟨part, rfl, by rwa [append_nil]⟩
  | cons batch rest ih =>
    obtain ⟨middle, added, held'⟩ := held.step (limits batch (by simp))
    obtain ⟨last, folded, final⟩ := ih held' fun batch member => limits batch (by simp [member])
    refine ⟨last, ?_, by rwa [append_assoc] at final⟩
    rw [foldlM_cons, added]
    exact folded

variable (spec hash) in
theorem buildPart_ok (limits : ∀ batch ∈ batches, WithinLimit batch) :
    ∃ part, buildPart exactWords spec hash batches = .ok part ∧ PartOf spec hash batches part :=
  foldlM_appendRows (partOf_empty spec hash) limits

theorem buildPart_error (member : batch ∈ batches) (long : ¬ WithinLimit batch) :
    buildPart exactWords spec hash batches = .error .tooManyRows := by
  have loop : ∀ (part : JoinBuildPart),
      batches.foldlM (appendRows exactWords spec hash) part = .error .tooManyRows := by
    induction batches with
    | nil => cases member
    | cons first rest ih =>
      intro part
      rw [foldlM_cons]
      by_cases limit : WithinLimit first
      · have later : batch ∈ rest :=
          (mem_cons.mp member).resolve_left fun same => long (same ▸ limit)
        cases added : appendRows exactWords spec hash part first with
        | ok next => exact ih later next
        | error failure => cases failure; rfl
      · have failed : appendRows exactWords spec hash part first = .error .tooManyRows := by
          rw [WithinLimit, not_or] at limit
          simp [appendRows, limit.1, Nat.lt_of_not_le limit.2]
        rw [failed]
        rfl
  exact loop {}

end Parts

theorem mergePieces_words {pieces : List Piece} (fits : Fits words.narrow (chunk + pieces.length)) :
    mergePieces words partition chunk pieces = mergePieces exactWords partition chunk pieces := by
  induction pieces generalizing chunk with
  | nil => rfl
  | cons piece rest ih =>
    rw [length_cons] at fits
    rw [mergePieces, mergePieces, (fits.mono (show chunk + 1 ≤ _ by omega)).mod_eq,
      ih (fits.mono (by omega))]
    simp [exactWords]

theorem mergePieces_append (partition chunk : Nat) (first second : List Piece) :
    mergePieces exactWords partition chunk (first ++ second) =
      mergePieces exactWords partition chunk first ++
        mergePieces exactWords partition (chunk + first.length) second := by
  induction first generalizing chunk with
  | nil => rfl
  | cons piece rest ih =>
    rw [cons_append, mergePieces, mergePieces, ih, append_assoc, length_cons]
    simp [exactWords, Nat.add_assoc, Nat.add_comm 1]

section Builder

variable (spec : JoinBuildSpec) (hash : List Value → Nat)

/-- What the builder holds of the batches of the parts released. -/
structure Gathered (batches : List Batch) (builder : JoinTableBuilder) : Prop where
  pieces : builder.pieces = (groupsOf spec hash batches).map pieceOf
  chunks : builder.numChunks = (groupsOf spec hash batches).length
  rows : builder.numRows = (batches.flatMap (hashRows spec hash)).length
  few : builder.numRows ≤ kMaxRows
  inputs : builder.inputRows = (batches.map selectedRows).sum
  nulls : builder.nullKeyRows + builder.numRows = builder.inputRows
  segments : builder.segments = (List.range kJoinPartitions).map fun partition =>
    mergePieces exactWords partition 0 ((groupsOf spec hash batches).map pieceOf)
  keys : spec.directCandidate = true → batches.flatMap (hashRows spec hash) ≠ [] →
    KeyRange (directKeys spec (batches.flatMap (hashRows spec hash)))
      builder.minKey builder.maxKey

theorem gathered_empty : Gathered spec hash [] {} :=
  ⟨rfl, rfl, rfl, Nat.zero_le _, rfl, rfl, by simp [groupsOf, mergePieces],
    fun _ some_ => absurd rfl some_⟩

theorem length_groupsOf_le (batches : List Batch) :
    (groupsOf spec hash batches).length ≤ (batches.flatMap (hashRows spec hash)).length := by
  have each : ∀ groups : List (List HashedRow), (∀ rows ∈ groups, rows ≠ []) →
      groups.length ≤ groups.flatten.length := by
    intro groups nonempty
    induction groups with
    | nil => exact Nat.le_refl 0
    | cons rows rest ih =>
      have here := length_pos_of_ne_nil (nonempty rows (by simp))
      have later := ih fun rows member => nonempty rows (by simp [member])
      rw [flatten_cons, length_append, length_cons]
      omega
  rw [← flatten_groupsOf]
  exact each _ fun rows member => groupsOf_nonempty spec hash member

variable {spec hash} {added : List Batch}

theorem Gathered.chunks_le (gathered : Gathered spec hash batches builder)
    (held : PartOf spec hash added part) :
    builder.numChunks + part.pieces.length ≤ builder.numRows + part.numRows := by
  rw [gathered.chunks, held.pieces, length_map, gathered.rows, held.rows]
  exact Nat.add_le_add (length_groupsOf_le ..) (length_groupsOf_le ..)

theorem release_words (hold : words.Hold) (gathered : Gathered spec hash batches builder)
    (held : PartOf spec hash added part) :
    release words builder part = release exactWords builder part := by
  have chunks := gathered.chunks_le held
  dsimp only [release]
  split_ifs with many
  · rfl
  · have fits := hold.narrow.mono (chunks.trans (Nat.le_of_not_gt many))
    have fits' := exactWords_hold.narrow.mono (chunks.trans (Nat.le_of_not_gt many))
    rw [(fits.mono (show builder.numChunks ≤ _ by omega)).mod_eq,
      (fits'.mono (show builder.numChunks ≤ _ by omega)).mod_eq]
    simp only [mergePieces_words fits]

theorem Gathered.mergeKeys (gathered : Gathered spec hash batches builder)
    (held : PartOf spec hash added part) (direct : spec.directCandidate = true)
    (some_ : (batches ++ added).flatMap (hashRows spec hash) ≠ []) :
    KeyRange (directKeys spec ((batches ++ added).flatMap (hashRows spec hash)))
      (mergeKeys builder part).1 (mergeKeys builder part).2 := by
  have before := gathered.keys direct
  have new := held.keys direct
  rw [flatMap_append] at some_ ⊢
  unfold Join.mergeKeys
  rw [gathered.rows, held.rows]
  split_ifs with more none
  · rw [eq_nil_of_length_eq_zero none, nil_append]
    exact new (ne_nil_of_length_pos more)
  · rw [directKeys, map_append]
    exact (before (ne_nil_of_length_pos (Nat.pos_of_ne_zero none))).append
      (new (ne_nil_of_length_pos more))
  · rw [eq_nil_of_length_eq_zero (Nat.le_zero.mp (Nat.le_of_not_gt more)),
      append_nil] at some_ ⊢
    exact before some_

theorem Gathered.step (gathered : Gathered spec hash batches builder)
    (held : PartOf spec hash added part) (few : builder.numRows + part.numRows ≤ kMaxRows) :
    ∃ next, release exactWords builder part = .ok next ∧
      Gathered spec hash (batches ++ added) next := by
  refine ⟨_, if_neg (Nat.not_lt_of_le few), ?_⟩
  constructor
  · rw [groupsOf_append, map_append, ← gathered.pieces, ← held.pieces]
  · rw [groupsOf_append, length_append, ← gathered.chunks, held.pieces, length_map]
  · rw [flatMap_append, length_append, ← gathered.rows, ← held.rows]
  · exact few
  · rw [map_append, sum_append, ← gathered.inputs, ← held.inputs]
  · have before := gathered.nulls
    have new := held.nulls
    dsimp only
    omega
  · rw [gathered.segments, gathered.chunks, held.pieces, groupsOf_append, map_append]
    simp only [mergePieces_append]
    refine ext_getElem? fun p => ?_
    simp only [getElem?_mapIdx, getElem?_map, length_map, Nat.zero_add]
    by_cases bound : p < kJoinPartitions
    · simp [getElem?_range bound, exactWords]
    · simp [bound]
  · exact gathered.mergeKeys held

theorem foldlM_release_words (hold : words.Hold) {done : List Batch}
    (gathered : Gathered spec hash done builder) {batches : List (List Batch)}
    {parts : List JoinBuildPart} (held : List.Forall₂ (PartOf spec hash) batches parts) :
    parts.foldlM (release words) builder = parts.foldlM (release exactWords) builder := by
  induction held generalizing done builder with
  | nil => rfl
  | @cons _ part _ _ here _ ih =>
    rw [foldlM_cons, foldlM_cons, release_words hold gathered here]
    cases released : release exactWords builder part with
    | error failure => rfl
    | ok next =>
      have few : builder.numRows + part.numRows ≤ kMaxRows := by
        by_contra many
        rw [release, if_pos (Nat.lt_of_not_le many)] at released
        cases released
      obtain ⟨_, same, gathered'⟩ := gathered.step here few
      cases released.symm.trans same
      exact ih gathered'

theorem foldlM_release {done : List Batch} (gathered : Gathered spec hash done builder)
    {batches : List (List Batch)} {parts : List JoinBuildPart}
    (held : List.Forall₂ (PartOf spec hash) batches parts) :
    (((done ++ batches.flatten).flatMap (hashRows spec hash)).length ≤ kMaxRows →
      ∃ next, parts.foldlM (release exactWords) builder = .ok next ∧
        Gathered spec hash (done ++ batches.flatten) next) ∧
    (kMaxRows < ((done ++ batches.flatten).flatMap (hashRows spec hash)).length →
      parts.foldlM (release exactWords) builder = .error .tooManyRows) := by
  induction held generalizing done builder with
  | nil =>
    rw [flatten_nil, append_nil, ← gathered.rows]
    exact ⟨fun _ => ⟨builder, rfl, gathered⟩, fun many => absurd gathered.few (Nat.not_le_of_gt many)⟩
  | @cons added part batches parts here _ ih =>
    rw [flatten_cons, ← append_assoc]
    rw [foldlM_cons]
    by_cases few : builder.numRows + part.numRows ≤ kMaxRows
    · obtain ⟨next, released, gathered'⟩ := gathered.step here few
      rw [released]
      exact ih gathered'
    · have failed : release exactWords builder part = .error .tooManyRows :=
        if_pos (Nat.lt_of_not_le few)
      have many : kMaxRows <
          ((done ++ added ++ batches.flatten).flatMap (hashRows spec hash)).length := by
        rw [flatMap_append, flatMap_append, length_append, length_append,
          ← gathered.rows, ← here.rows]
        omega
      refine ⟨fun few => absurd few (Nat.not_le_of_gt many), fun _ => ?_⟩
      rw [failed]
      rfl

variable (spec hash) in
theorem mapM_buildPart (limits : ∀ batch ∈ parts.flatten, WithinLimit batch) :
    ∃ built, parts.mapM (buildPart exactWords spec hash) = .ok built ∧
      List.Forall₂ (PartOf spec hash) parts built := by
  induction parts with
  | nil => exact ⟨[], rfl, .nil⟩
  | cons batches rest ih =>
    rw [flatten_cons] at limits
    obtain ⟨part, built, held⟩ := buildPart_ok spec hash fun batch member =>
      limits batch (mem_append_left _ member)
    obtain ⟨others, built', held'⟩ := ih fun batch member =>
      limits batch (mem_append_right _ member)
    refine ⟨part :: others, ?_, .cons held held'⟩
    rw [mapM_cons, built, built']
    rfl

theorem mapM_buildPart_error (member : batch ∈ parts.flatten) (long : ¬ WithinLimit batch) :
    parts.mapM (buildPart exactWords spec hash) = .error .tooManyRows := by
  induction parts with
  | nil => cases member
  | cons batches rest ih =>
    rw [mapM_cons]
    rcases mem_append.mp member with here | later
    · rw [buildPart_error here long]
      rfl
    · cases buildPart exactWords spec hash batches with
      | error failure => cases failure; rfl
      | ok part =>
        rw [ih later]
        rfl

theorem gatherParts_words (hold : words.Hold) (parts : List (List Batch)) :
    gatherParts words spec hash parts = gatherParts exactWords spec hash parts := by
  rw [gatherParts, gatherParts, buildPart_words hold]
  by_cases limits : ∀ batch ∈ parts.flatten, WithinLimit batch
  · obtain ⟨built, mapped, held⟩ := mapM_buildPart spec hash limits
    rw [mapped]
    exact foldlM_release_words hold (gathered_empty spec hash) held
  · simp only [not_forall] at limits
    obtain ⟨batch, member, long⟩ := limits
    rw [mapM_buildPart_error member long]
    rfl

/-- The builds that are not refused. -/
structure Buildable (spec : JoinBuildSpec) (parts : List (List Batch)) : Prop where
  batches : ∀ batch ∈ parts.flatten, WithinLimit batch
  rows : (parts.flatten.flatMap (keptRows spec)).length ≤ kMaxRows

theorem flatMap_hashRows (spec : JoinBuildSpec) (hash : List Value → Nat) (batches : List Batch) :
    batches.flatMap (hashRows spec hash) =
      (batches.flatMap (keptRows spec)).map fun row => ⟨row, hash (keyOf spec row)⟩ := by
  rw [map_flatMap]
  rfl

variable (hash) in
theorem gatherParts_ok (buildable : Buildable spec parts) :
    ∃ builder, gatherParts exactWords spec hash parts = .ok builder ∧
      Gathered spec hash parts.flatten builder := by
  obtain ⟨built, mapped, held⟩ := mapM_buildPart spec hash buildable.batches
  obtain ⟨builder, folded, gathered⟩ := (foldlM_release (gathered_empty spec hash) held).1
    (by rw [nil_append, flatMap_hashRows, length_map]; exact buildable.rows)
  refine ⟨builder, ?_, gathered⟩
  rw [gatherParts, mapped]
  exact folded

theorem gatherParts_error (not : ¬ Buildable spec parts) :
    gatherParts exactWords spec hash parts = .error .tooManyRows := by
  rw [gatherParts]
  by_cases limits : ∀ batch ∈ parts.flatten, WithinLimit batch
  · obtain ⟨built, mapped, held⟩ := mapM_buildPart spec hash limits
    have many : kMaxRows < (parts.flatten.flatMap (keptRows spec)).length :=
      Nat.lt_of_not_le fun few => not ⟨limits, few⟩
    rw [mapped]
    apply (foldlM_release (gathered_empty spec hash) held).2
    rwa [nil_append, flatMap_hashRows, length_map]
  · simp only [not_forall] at limits
    obtain ⟨batch, member, long⟩ := limits
    rw [mapM_buildPart_error member long]
    rfl

end Builder

def rowOf (chunks : List (List Record)) (entry : Entry) : Nat × Option Record :=
  (entry.hash, chunkRow chunks entry.ref)

theorem entries_piece (here : chunks[chunk]? = some (pieceOf rows).rows)
    (bound : partition < kJoinPartitions) :
    ((segmentOf partition (pieceOf rows) chunk).toList.flatMap Segment.entries).map
        (rowOf chunks) =
      (rows.filter fun row => byPartition row = partition).map fun row => (row.hash, some row.row) := by
  have begins : (pieceOf rows).start.getD partition 0 = before byPartition rows partition := by
    simp [pieceOf, show partition < kJoinPartitions + 1 by omega]
  have stops : (pieceOf rows).start.getD (partition + 1) 0 =
      before byPartition rows partition + size byPartition rows partition := by
    rw [← before_succ]
    simp [pieceOf, bound]
  have count := size_eq_filter byPartition rows partition
  dsimp only [segmentOf]
  rw [begins, stops]
  split_ifs with some_
  · apply ext_getElem
    · simp [Segment.entries, count]
    · intro i small inside
      rw [length_map] at inside
      simp only [Option.toList_some, flatMap_cons, flatMap_nil, append_nil,
        Segment.entries, Nat.add_sub_cancel_left, length_map, length_range] at small ⊢
      have found := sorted_getElem? byPartition rows bound small
      have among := getElem?_eq_getElem inside
      rw [among] at found
      simp only [getElem_map, getElem_range, rowOf, chunkRow, here, Option.bind_some]
      simp [pieceOf, found]
  · have none : rows.filter (fun row => byPartition row = partition) = [] :=
      eq_nil_of_length_eq_zero (by omega)
    rw [none]
    rfl

theorem entries_pieces {done groups : List (List HashedRow)} (bound : partition < kJoinPartitions)
    (all : chunks = (done ++ groups).map fun rows => (pieceOf rows).rows) :
    ((mergePieces exactWords partition done.length (groups.map pieceOf)).flatMap
        Segment.entries).map (rowOf chunks) =
      (groups.flatten.filter fun row => byPartition row = partition).map fun row =>
        (row.hash, some row.row) := by
  induction groups generalizing done with
  | nil => rfl
  | cons rows rest ih =>
    have here : chunks[done.length]? = some (pieceOf rows).rows := by simp [all]
    have next : (done.length + 1) % exactWords.narrow = (done ++ [rows]).length := by
      simp [exactWords]
    rw [map_cons, mergePieces, flatMap_append, map_append, entries_piece here bound,
      next, ih (by simp [all]), flatten_cons, filter_append, map_append]

section Gathered

variable {spec : JoinBuildSpec} {hash : List Value → Nat}

theorem Gathered.entries (gathered : Gathered spec hash batches builder) {partition : Nat}
    (bound : partition < kJoinPartitions) :
    ((builder.segments.getD partition []).flatMap Segment.entries).map
        (rowOf (builder.pieces.map (·.rows))) =
      ((batches.flatMap (hashRows spec hash)).filter fun row => byPartition row = partition).map
        fun row => (row.hash, some row.row) := by
  have own : builder.segments.getD partition [] =
      mergePieces exactWords partition 0 ((groupsOf spec hash batches).map pieceOf) := by
    rw [gathered.segments]
    simp [bound]
  rw [own, ← flatten_groupsOf]
  have chunks : builder.pieces.map (·.rows) =
      ([] ++ groupsOf spec hash batches).map fun rows => (pieceOf rows).rows := by
    rw [gathered.pieces, map_map]
    rfl
  exact entries_pieces bound chunks

end Gathered

end Antb1.Exec.Join
