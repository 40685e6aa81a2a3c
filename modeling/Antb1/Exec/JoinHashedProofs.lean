import Antb1.Exec.JoinBuildProofs
import Antb1.Exec.JoinDirectoryProofs

/-! The hashed layout of a join table: each key's build rows together, and a lookup the rows of
its key. -/
namespace Antb1.Exec.Join

open Antb1.Plan CountingSort Grouping List

section Parted

variable (spec : JoinBuildSpec) (hash : List Value → Nat)

/-- Each partition's entries stand for its build rows, in order. -/
structure Parted (chunks : List (List Record)) (parts : List (List Entry))
    (rows : List Record) : Prop where
  count : parts.length = kJoinPartitions
  stands : ∀ p < kJoinPartitions, (parts.getD p []).map (rowOf chunks) =
    (rows.filter fun row => partitionOf (hash (keyOf spec row)) = p).map fun row =>
      (hash (keyOf spec row), some row)

def classOf (chunks : List (List Record)) (entry : Entry) : Nat × List Value :=
  (entry.hash, chunkKey spec chunks entry.ref)

variable {spec hash} {chunks : List (List Record)} {parts : List (List Entry)}
  {rows : List Record}

theorem Gathered.parted {batches : List Batch} {builder : JoinTableBuilder}
    (gathered : Gathered spec hash batches builder) :
    Parted spec hash (builder.pieces.map (·.rows))
      (builder.segments.map fun segments => segments.flatMap Segment.entries)
      (batches.flatMap (keptRows spec)) where
  count := by rw [gathered.segments]; simp
  stands p bound := by
    have own : (builder.segments.map fun segments => segments.flatMap Segment.entries).getD p [] =
        (builder.segments.getD p []).flatMap Segment.entries := by
      have inside : p < builder.segments.length := by
        rw [gathered.segments]
        simpa using bound
      simp [inside]
    rw [own, gathered.entries bound, flatMap_hashRows, filter_map, map_map]
    rfl

variable (parted : Parted spec hash chunks parts rows) {p : Nat}
include parted

theorem Parted.entry (bound : p < kJoinPartitions) {entry : Entry}
    (member : entry ∈ parts.getD p []) :
    ∃ row ∈ rows, chunkRow chunks entry.ref = some row ∧ entry.hash = hash (keyOf spec row) ∧
      chunkKey spec chunks entry.ref = keyOf spec row ∧ partitionOf entry.hash = p := by
  have stands := parted.stands p bound
  have view : rowOf chunks entry ∈ (parts.getD p []).map (rowOf chunks) :=
    mem_map_of_mem member
  rw [stands, mem_map] at view
  obtain ⟨row, kept, same⟩ := view
  rw [mem_filter, decide_eq_true_eq] at kept
  rw [rowOf, Prod.mk.injEq] at same
  refine ⟨row, kept.1, same.2.symm, same.1.symm, ?_, ?_⟩
  · rw [chunkKey, ← same.2]
    rfl
  · rw [← same.1]
    exact kept.2

theorem Parted.class_hash (bound : p < kJoinPartitions) {entry : Entry}
    (member : entry ∈ parts.getD p []) :
    classOf spec chunks entry =
      (hash (chunkKey spec chunks entry.ref), chunkKey spec chunks entry.ref) := by
  obtain ⟨row, -, -, hashed, key, -⟩ := parted.entry bound member
  rw [classOf, hashed, key]

theorem Parted.eq_map : parts = (List.range kJoinPartitions).map fun p => parts.getD p [] := by
  apply ext_getElem
  · simp [parted.count]
  · intro p bound _
    simp [getElem?_eq_getElem bound]

theorem Parted.flatten :
    parts.flatten = (List.range kJoinPartitions).flatMap fun p => parts.getD p [] := by
  rw [flatMap_def, ← parted.eq_map]

theorem Parted.mem_flatten {entry : Entry} :
    entry ∈ parts.flatten ↔ ∃ p < kJoinPartitions, entry ∈ parts.getD p [] := by
  rw [parted.flatten]
  simp

theorem Parted.filter_partition (bound : p < kJoinPartitions) :
    parts.flatten.filter (fun entry => partitionOf (classOf spec chunks entry).1 = p) =
      parts.getD p [] := by
  rw [parted.flatten]
  apply filter_flatMap_index _ bound
  intro q inside entry member
  obtain ⟨_, -, -, -, -, own⟩ := parted.entry inside member
  exact own

theorem Parted.members_partition (bound : p < kJoinPartitions) {of : Nat × List Value}
    (own : partitionOf of.1 = p) :
    members (classOf spec chunks) (parts.getD p []) of =
      members (classOf spec chunks) parts.flatten of := by
  have inPart := members_filter_index (fun of => partitionOf of.1) (classOf spec chunks)
    parts.flatten p of
  rwa [if_pos own, parted.filter_partition bound] at inPart

theorem Parted.rows_of_key (key : List Value) :
    (members (classOf spec chunks) parts.flatten (hash key, key)).map
        (fun entry => chunkRow chunks entry.ref) =
      (rows.filter fun row => keyOf spec row = key).map some := by
  have bound : partitionOf (hash key) < kJoinPartitions := Nat.mod_lt _ (by decide)
  have own : members (classOf spec chunks) parts.flatten (hash key, key) =
      (parts.getD (partitionOf (hash key)) []).filter
        ((fun seen : Nat × Option Record => decide (seen.2.map (keyOf spec) = some key)) ∘
          rowOf chunks) := by
    rw [← parted.members_partition bound rfl]
    apply filter_congr
    intro entry member
    obtain ⟨row, -, found, hashed, keyed, -⟩ := parted.entry bound member
    rw [Function.comp_apply, classOf, keyed, hashed, rowOf, found, decide_eq_decide,
      Prod.mk.injEq]
    simp only [Option.map_some, Option.some.injEq]
    exact ⟨fun both => both.2, fun same => ⟨by rw [same], same⟩⟩
  have view : (fun entry => chunkRow chunks entry.ref) = Prod.snd ∘ rowOf chunks := rfl
  rw [own, view, ← map_map, ← filter_map, parted.stands _ bound, filter_map,
    map_map, filter_filter]
  congr 1
  apply filter_congr
  intro row _
  by_cases same : keyOf spec row = key
  · simp [same]
  · simp [same]

end Parted

section Hashed

variable {κ : Type} [DecidableEq κ] (cls : Entry → κ)

/-- The entries of a partition by key, and its directory for rows from `first` on. -/
def partitionEntries (entries : List Entry) : List Entry :=
  (partitionClasses cls entries (bitCeil entries.length)).flatten

def directoryAt (first : Nat) (entries : List Entry) : Directory :=
  if entries.length = 0 then {}
  else ⟨bitCeil entries.length - 1,
    (List.range (bitCeil entries.length + 1)).map fun b => (partitionClasses cls entries b).length,
    classSlots first (partitionClasses cls entries (bitCeil entries.length))⟩

def directoriesFrom : Nat → List (List Entry) → List Directory
  | _, [] => []
  | first, entries :: rest =>
    directoryAt cls first entries :: directoriesFrom (first + entries.length) rest

theorem partitionEntries_perm (entries : List Entry) :
    (partitionEntries cls entries).Perm entries := by
  have groups : partitionEntries cls entries = (List.range (bitCeil entries.length)).flatMap fun b =>
      (classes cls (bucketEntries (bucketIn entries) entries b)).flatten := by
    rw [partitionEntries, partitionClasses, classesBelow, flatMap_def, flatMap_def,
      flatten_flatten, map_map]
    rfl
  have buckets : ((List.range (bitCeil entries.length)).flatMap
      (bucketEntries (bucketIn entries) entries)).Perm entries :=
    sorted_perm _ _ fun entry _ => bucketOf_lt entries.length entry.hash
  rw [groups]
  refine (List.Perm.flatMap_left _ fun b _ => flatten_classes_perm cls _).trans buckets

variable {cls} {words : Words} {sameKey : Entry → Entry → Bool}
  (agrees : ∀ a b, sameKey a b = true ↔ cls a = cls b)

include agrees in
theorem buildDirectory_eq_at {first : Nat} {entries : List Entry}
    (fits : Fits words.narrow (first + entries.length)) :
    buildDirectory words sameKey first entries =
      (partitionEntries cls entries, directoryAt cls first entries) := by
  by_cases none : entries.length = 0
  · have empty := eq_nil_of_length_eq_zero none
    subst empty
    have rows : partitionEntries cls [] = [] :=
      perm_nil.mp (partitionEntries_perm cls [])
    rw [rows]
    rfl
  · rw [buildDirectory_eq agrees fits none, directoryAt, if_neg none, partitionEntries]

include agrees in
/-- One partition after another, each in the rows after the one before. -/
theorem foldl_hashPartition {segments : List (List Segment)} {written rest : List JoinRowRef}
    {directories : List Directory}
    (fits : Fits words.narrow (written.length +
      (segments.flatMap fun segments => segments.flatMap Segment.entries).length))
    (room : rest.length =
      (segments.flatMap fun segments => segments.flatMap Segment.entries).length) :
    let parts := segments.map fun segments => segments.flatMap Segment.entries
    segments.foldl (hashPartition words sameKey) ⟨written.length, written ++ rest, directories⟩ =
      ⟨written.length + rest.length,
        written ++ (parts.flatMap (partitionEntries cls)).map (·.ref),
        directories ++ directoriesFrom cls written.length parts⟩ := by
  induction segments generalizing written rest directories with
  | nil =>
    have none : rest = [] := eq_nil_of_length_eq_zero (by simpa using room)
    simp [none, directoriesFrom]
  | cons segment segments ih =>
    rw [flatMap_cons, length_append] at fits room
    have perm := partitionEntries_perm cls (segment.flatMap Segment.entries)
    have here : hashPartition words sameKey ⟨written.length, written ++ rest, directories⟩ segment =
        ⟨(written ++ (partitionEntries cls (segment.flatMap Segment.entries)).map (·.ref)).length,
          written ++ (partitionEntries cls (segment.flatMap Segment.entries)).map (·.ref) ++
            rest.drop (segment.flatMap Segment.entries).length,
          directories ++ [directoryAt cls written.length (segment.flatMap Segment.entries)]⟩ := by
      dsimp only [hashPartition]
      rw [(fits.mono (show written.length ≤ _ by omega)).mod_eq,
        buildDirectory_eq_at agrees (fits.mono (by omega))]
      dsimp only
      have split : written ++ rest = written ++ rest.take (segment.flatMap Segment.entries).length ++
          rest.drop (segment.flatMap Segment.entries).length := by
        rw [append_assoc, take_append_drop]
      rw [split, writeAt_middle rfl]
      · rw [length_append, length_map, perm.length_eq]
      · rw [length_map, perm.length_eq, length_take, room]
        omega
    have next := @ih
      (written ++ (partitionEntries cls (segment.flatMap Segment.entries)).map (·.ref))
      (rest.drop (segment.flatMap Segment.entries).length)
      (directories ++ [directoryAt cls written.length (segment.flatMap Segment.entries)])
      (fits.mono (by rw [length_append, length_map, perm.length_eq]; omega))
      (by rw [length_drop, room]; omega)
    intro parts
    rw [foldl_cons, here, next]
    simp only [parts, length_append, length_map, perm.length_eq, length_drop,
      map_cons, directoriesFrom, flatMap_cons, map_append, append_assoc,
      singleton_append]
    congr 1
    omega

end Hashed

section Laid

variable (spec : JoinBuildSpec) (hash : List Value → Nat) (chunks : List (List Record))
  (parts : List (List Entry))

def keyRows (key : List Value) : List JoinRowRef :=
  (members (classOf spec chunks) parts.flatten (hash key, key)).map (·.ref)

/-- The rows of a table, one key after another. -/
structure Laid (refs : List JoinRowRef) (keys : List (List Value)) : Prop where
  nodup : keys.Nodup
  covers : ∀ entry ∈ parts.flatten, chunkKey spec chunks entry.ref ∈ keys
  rows : refs = keys.flatMap (keyRows spec hash chunks parts)

/-- What a lookup gives: the place of the group in the rows, nothing for an empty group. -/
def Spans (refs group : List JoinRowRef) (matches_ : JoinMatches) : Prop :=
  (group = [] → matches_ = {}) ∧
    (group ≠ [] → ∃ first rest, refs = first ++ group ++ rest ∧
      matches_ = ⟨first.length, first.length + group.length⟩)

variable {spec hash chunks parts} {rows : List Record} {of : Nat × List Value}

def bucketKeys (spec : JoinBuildSpec) (chunks : List (List Record)) (entries : List Entry) :
    List (Nat × List Value) :=
  (List.range (bitCeil entries.length)).flatMap fun b => distinct
    ((bucketEntries (bucketIn entries) entries b).map
      (classOf spec chunks))

theorem mem_bucketKeys {entries : List Entry} :
    of ∈ bucketKeys spec chunks entries ↔ of ∈ entries.map (classOf spec chunks) := by
  simp only [bucketKeys, mem_flatMap, mem_range, mem_distinct, mem_map,
    bucketEntries, mem_filter, decide_eq_true_eq]
  constructor
  · rintro ⟨b, -, entry, ⟨member, -⟩, same⟩
    exact ⟨entry, member, same⟩
  · rintro ⟨entry, member, same⟩
    exact ⟨_, bucketOf_lt entries.length entry.hash, entry, ⟨member, rfl⟩, same⟩

theorem nodup_bucketKeys (entries : List Entry) : (bucketKeys spec chunks entries).Nodup := by
  apply nodup_flatMap_index fun of => bucketOf (bitCeil entries.length - 1) of.1
  · exact fun b _ => nodup_distinct _
  · intro b _ of member
    rw [mem_distinct, mem_map] at member
    obtain ⟨entry, among, rfl⟩ := member
    rw [bucketEntries, mem_filter, decide_eq_true_eq] at among
    exact among.2

theorem members_bucket (entries : List Entry) {b : Nat}
    (own : bucketOf (bitCeil entries.length - 1) of.1 = b) :
    members (classOf spec chunks)
        (bucketEntries (bucketIn entries) entries b) of =
      members (classOf spec chunks) entries of := by
  have inBucket := members_filter_index (fun of => bucketOf (bitCeil entries.length - 1) of.1)
    (classOf spec chunks) entries b of
  rwa [if_pos own] at inBucket

theorem partitionClasses_eq (entries : List Entry) :
    partitionClasses (classOf spec chunks) entries (bitCeil entries.length) =
      (bucketKeys spec chunks entries).map (members (classOf spec chunks) entries) := by
  rw [partitionClasses, classesBelow, bucketKeys, map_flatMap, flatMap_def,
    flatMap_def]
  congr 1
  apply map_congr_left
  intro b _
  rw [classes]
  apply map_congr_left
  intro of member
  rw [mem_distinct, mem_map] at member
  obtain ⟨entry, among, rfl⟩ := member
  rw [bucketEntries, mem_filter, decide_eq_true_eq] at among
  exact members_bucket entries among.2

theorem partitionEntries_eq (entries : List Entry) :
    partitionEntries (classOf spec chunks) entries =
      (bucketKeys spec chunks entries).flatMap (members (classOf spec chunks) entries) := by
  rw [partitionEntries, partitionClasses_eq, flatMap_def]

theorem Parted.laid_hashed (parted : Parted spec hash chunks parts rows) :
    ∃ keys, Laid spec hash chunks parts
      ((parts.flatMap (partitionEntries (classOf spec chunks))).map (·.ref)) keys := by
  have own : ∀ p < kJoinPartitions, ∀ of ∈ bucketKeys spec chunks (parts.getD p []),
      of = (hash of.2, of.2) ∧ partitionOf of.1 = p := by
    intro p bound of member
    rw [mem_bucketKeys, mem_map] at member
    obtain ⟨entry, among, rfl⟩ := member
    obtain ⟨_, -, -, -, -, partition⟩ := parted.entry bound among
    exact ⟨parted.class_hash bound among, partition⟩
  have flat : parts.flatMap (partitionEntries (classOf spec chunks)) =
      ((List.range kJoinPartitions).flatMap fun p => bucketKeys spec chunks (parts.getD p [])).flatMap
        (members (classOf spec chunks) parts.flatten) := by
    have each : (List.range kJoinPartitions).flatMap
        (fun p => partitionEntries (classOf spec chunks) (parts.getD p [])) =
        (List.range kJoinPartitions).flatMap fun p => (bucketKeys spec chunks (parts.getD p [])).flatMap
          (members (classOf spec chunks) parts.flatten) := by
      rw [flatMap_def, flatMap_def]
      congr 1
      apply map_congr_left
      intro p member
      have bound := mem_range.mp member
      rw [partitionEntries_eq, flatMap_def, flatMap_def]
      congr 1
      apply map_congr_left
      intro of known
      exact parted.members_partition bound (own p bound of known).2
    rw [flatMap_assoc, ← each]
    nth_rewrite 1 [parted.eq_map]
    rw [flatMap_map]
  have known : ∀ of ∈ (List.range kJoinPartitions).flatMap fun p =>
      bucketKeys spec chunks (parts.getD p []), of = (hash of.2, of.2) := by
    intro of member
    obtain ⟨p, inRange, among⟩ := mem_flatMap.mp member
    exact (own p (mem_range.mp inRange) of among).1
  refine ⟨((List.range kJoinPartitions).flatMap fun p =>
    bucketKeys spec chunks (parts.getD p [])).map Prod.snd, ?_, ?_, ?_⟩
  · apply List.Nodup.map_on
    · intro of member of' member' same
      rw [known of member, known of' member', same]
    · exact nodup_flatMap_index (fun of => partitionOf of.1) (fun p _ => nodup_bucketKeys _)
        fun p bound of member => (own p bound of member).2
  · intro entry member
    obtain ⟨p, bound, among⟩ := parted.mem_flatten.mp member
    rw [mem_map]
    refine ⟨classOf spec chunks entry, ?_, rfl⟩
    rw [mem_flatMap]
    exact ⟨p, mem_range.mpr bound, mem_bucketKeys.mpr (mem_map_of_mem among)⟩
  · rw [flat, map_flatMap, flatMap_map, flatMap_def, flatMap_def]
    congr 1
    apply map_congr_left
    intro of member
    rw [keyRows, ← known of member]

theorem Parted.nodup_iff (parted : Parted spec hash chunks parts rows) :
    (∀ entry ∈ parts.flatten,
      (members (classOf spec chunks) parts.flatten (classOf spec chunks entry)).length ≤ 1) ↔
      (rows.map (keyOf spec)).Nodup := by
  have lengths : ∀ key, (members (classOf spec chunks) parts.flatten (hash key, key)).length =
      (rows.map (keyOf spec)).count key := by
    intro key
    have same := congrArg List.length (parted.rows_of_key key)
    rw [length_map, length_map] at same
    rw [same, count_eq_countP, countP_map, countP_eq_length_filter]
    congr 1
    apply filter_congr
    intro row _
    rw [Function.comp_apply, Bool.eq_iff_iff, decide_eq_true_eq, beq_iff_eq]
  rw [nodup_iff_count_le_one]
  constructor
  · intro single key
    rw [← lengths]
    cases found : members (classOf spec chunks) parts.flatten (hash key, key) with
    | nil => exact Nat.zero_le 1
    | cons entry rest =>
      have member : entry ∈ members (classOf spec chunks) parts.flatten (hash key, key) := by
        simp [found]
      rw [members, mem_filter, decide_eq_true_eq] at member
      rw [← found, ← member.2]
      exact single entry member.1
  · intro nodup entry member
    obtain ⟨p, bound, among⟩ := parted.mem_flatten.mp member
    rw [parted.class_hash bound among, lengths]
    exact nodup _

theorem directoriesFrom_single (first : Nat) (parts : List (List Entry)) :
    (directoriesFrom (classOf spec chunks) first parts).all (fun directory =>
        directory.slots.all fun slot => slot.stop - slot.begin ≤ 1) = true ↔
      ∀ entries ∈ parts, ∀ entry ∈ entries,
        (members (classOf spec chunks) entries (classOf spec chunks entry)).length ≤ 1 := by
  have slots : ∀ (place : Nat) (groups : List (List Entry)),
      (classSlots place groups).all (fun slot => slot.stop - slot.begin ≤ 1) = true ↔
        ∀ group ∈ groups, group.length ≤ 1 := by
    intro place groups
    induction groups generalizing place with
    | nil => simp [classSlots]
    | cons group rest ih =>
      rw [classSlots, all_cons, Bool.and_eq_true, ih (place + group.length),
        forall_mem_cons, decide_eq_true_eq, Nat.add_sub_cancel_left]
  have directory : ∀ (place : Nat) (entries : List Entry),
      (directoryAt (classOf spec chunks) place entries).slots.all
        (fun slot => slot.stop - slot.begin ≤ 1) = true ↔ ∀ entry ∈ entries,
          (members (classOf spec chunks) entries (classOf spec chunks entry)).length ≤ 1 := by
    intro place entries
    unfold directoryAt
    split_ifs with none
    · rw [eq_nil_of_length_eq_zero none]
      simp
    · rw [slots, partitionClasses_eq]
      simp only [forall_mem_map, mem_bucketKeys]
  induction parts generalizing first with
  | nil => simp [directoriesFrom]
  | cons entries rest ih =>
    rw [directoriesFrom, all_cons, Bool.and_eq_true, forall_mem_cons]
    exact and_congr (directory ..) (ih ..)

theorem Parted.hashed_unique (parted : Parted spec hash chunks parts rows) :
    (directoriesFrom (classOf spec chunks) 0 parts).all (fun directory =>
        directory.slots.all fun slot => slot.stop - slot.begin ≤ 1) = true ↔
      (rows.map (keyOf spec)).Nodup := by
  rw [directoriesFrom_single, ← parted.nodup_iff, parted.eq_map]
  rw [forall_mem_map]
  rw [← parted.eq_map]
  constructor
  · intro single entry member
    obtain ⟨p, bound, among⟩ := parted.mem_flatten.mp member
    obtain ⟨_, -, -, -, -, own⟩ := parted.entry bound among
    rw [← parted.members_partition bound own]
    exact single p (mem_range.mpr bound) entry among
  · intro single p inRange entry among
    have bound := mem_range.mp inRange
    obtain ⟨_, -, -, -, -, own⟩ := parted.entry bound among
    rw [parted.members_partition bound own]
    exact single entry (parted.mem_flatten.mpr ⟨p, bound, among⟩)

end Laid

section Lookup

variable {κ : Type} [DecidableEq κ] (cls : Entry → κ) {parts : List (List Entry)}

theorem directoriesFrom_getD {p first : Nat} (bound : p < parts.length) :
    (directoriesFrom cls first parts).getD p {} =
      directoryAt cls (first + (parts.take p).flatten.length) (parts.getD p []) := by
  induction parts generalizing p first with
  | nil => simp at bound
  | cons entries rest ih =>
    cases p with
    | zero => simp [directoriesFrom]
    | succ p =>
      rw [directoriesFrom, getD_cons_succ, ih (by simpa using bound), take_succ_cons,
        flatten_cons, length_append, getD_cons_succ, Nat.add_assoc]

theorem directoryAt_slots {first b : Nat} {entries : List Entry} (some_ : entries.length ≠ 0)
    (inside : b < bitCeil entries.length) :
    let directory := directoryAt cls first entries
    slice directory.slots (directory.buckets.getD b 0) (directory.buckets.getD (b + 1) 0) =
      classSlots (first + (partitionClasses cls entries b).flatten.length)
        (classes cls (bucketEntries (bucketIn entries) entries b)) := by
  intro directory
  have begins : directory.buckets.getD b 0 = (partitionClasses cls entries b).length := by
    simp [directory, directoryAt, some_, show b < bitCeil entries.length + 1 by omega]
  have stops : directory.buckets.getD (b + 1) 0 = (partitionClasses cls entries b).length +
      (classes cls (bucketEntries (bucketIn entries) entries b)).length := by
    have next := classesBelow_succ cls (bucketIn entries) entries b
    rw [← length_append, partitionClasses, ← next]
    simp [directory, directoryAt, some_, inside, partitionClasses]
  obtain ⟨rest, split⟩ := classesBelow_split cls (bucketIn entries)
    entries inside
  have slots : directory.slots = classSlots first (partitionClasses cls entries b ++
      classes cls (bucketEntries (bucketIn entries) entries b) ++
        rest) := by
    simp only [directory, directoryAt, if_neg some_, partitionClasses, split]
  rw [slots, classSlots_append, classSlots_append, begins, stops]
  exact slice_middle (by simp) (by simp)

theorem rows_split {p b : Nat} (bound : p < parts.length)
    (inside : b < bitCeil (parts.getD p []).length) {before_ after : List (List Entry)}
    {group : List Entry}
    (split : classes cls (bucketEntries (bucketIn (parts.getD p []))
      (parts.getD p []) b) = before_ ++ group :: after) :
    ∃ first rest, parts.flatMap (partitionEntries cls) = first ++ group ++ rest ∧
      first.length = (parts.take p).flatten.length +
        (partitionClasses cls (parts.getD p []) b).flatten.length + before_.flatten.length := by
  obtain ⟨rest, groups⟩ := classesBelow_split cls
    (bucketIn (parts.getD p [])) (parts.getD p []) inside
  have parted : parts = parts.take p ++ parts.getD p [] :: parts.drop (p + 1) := by
    rw [getD_eq_getElem _ _ bound, getElem_cons_drop, take_append_drop]
  refine ⟨(parts.take p).flatMap (partitionEntries cls) ++
    (partitionClasses cls (parts.getD p []) b).flatten ++ before_.flatten,
    after.flatten ++ rest.flatten ++ (parts.drop (p + 1)).flatMap (partitionEntries cls), ?_, ?_⟩
  · have own : partitionEntries cls (parts.getD p []) =
        (partitionClasses cls (parts.getD p []) b).flatten ++ before_.flatten ++ group ++
          after.flatten ++ rest.flatten := by
      rw [partitionEntries, partitionClasses, groups, split]
      simp [partitionClasses]
    nth_rewrite 1 [parted]
    rw [flatMap_append, flatMap_cons, own]
    simp only [append_assoc]
  · have perm : ((parts.take p).flatMap (partitionEntries cls)).Perm (parts.take p).flatten := by
      rw [← flatMap_id]
      exact List.Perm.flatMap_left _ fun entries _ => partitionEntries_perm cls entries
    rw [length_append, length_append, perm.length_eq]

end Lookup

section Find

variable {spec : JoinBuildSpec} {hash : List Value → Nat} {parts : List (List Entry)}
  {rows : List Record} {table : JoinTable}

/-- A group of a bucket: all entries of one key, at the place its slot names. -/
theorem group_placed {cls : Entry → Nat × List Value}
    (refs : table.rows = (parts.flatMap (partitionEntries cls)).map (·.ref))
    {p b : Nat} (bound : p < parts.length) (inside : b < bitCeil (parts.getD p []).length)
    {before_ after : List (List Entry)} {group : List Entry}
    (split : classes cls (bucketEntries (bucketIn (parts.getD p []))
      (parts.getD p []) b) = before_ ++ group :: after) :
    let place := (parts.take p).flatten.length +
      (partitionClasses cls (parts.getD p []) b).flatten.length + before_.flatten.length
    (∃ first rest, table.rows = first ++ group.map (·.ref) ++ rest ∧ first.length = place) ∧
      table.rows.getD place default = (group.headD default).ref ∧ group ≠ [] ∧
      group = members cls (bucketEntries (bucketIn (parts.getD p []))
        (parts.getD p []) b) (cls (group.headD default)) := by
  intro place
  obtain ⟨first, rest, rows, length⟩ := rows_split cls bound inside split
  have mapped : table.rows = first.map (·.ref) ++ group.map (·.ref) ++ rest.map (·.ref) := by
    rw [refs, rows, map_append, map_append]
  have known : group ∈ classes cls (bucketEntries
      (bucketIn (parts.getD p [])) (parts.getD p []) b) := by
    rw [split]
    simp
  obtain ⟨of, occurs, rfl⟩ := mem_map.mp known
  obtain ⟨head, tail, whole, keyed⟩ := members_eq_cons (mem_distinct.mp occurs)
  refine ⟨⟨first.map (·.ref), rest.map (·.ref), mapped, by rw [length_map, length]⟩, ?_,
    by rw [whole]; exact cons_ne_nil _ _, ?_⟩
  · have begins : (first.map (·.ref)).length = place := by rw [length_map, length]
    rw [mapped, ← begins, whole]
    simp
  · rw [whole]
    simp only [headD_cons]
    rw [keyed, whole]

theorem findHashed_spans (parted : Parted spec hash table.chunks parts rows)
    (refs : table.rows = (parts.flatMap (partitionEntries (classOf spec table.chunks))).map (·.ref))
    (directories : table.directories = directoriesFrom (classOf spec table.chunks) 0 parts)
    (key : List Value) :
    Spans table.rows (keyRows spec hash table.chunks parts key)
      (findHashed spec hash table key) := by
  have bound : partitionOf (hash key) < kJoinPartitions := Nat.mod_lt _ (by decide)
  have inParts : partitionOf (hash key) < parts.length := parted.count ▸ bound
  have directory : table.directories.getD (partitionOf (hash key)) {} =
      directoryAt (classOf spec table.chunks)
        (parts.take (partitionOf (hash key))).flatten.length
        (parts.getD (partitionOf (hash key)) []) := by
    rw [directories, directoriesFrom_getD _ inParts, Nat.zero_add]
  have own : members (classOf spec table.chunks) (parts.getD (partitionOf (hash key)) [])
      (hash key, key) = members (classOf spec table.chunks) parts.flatten (hash key, key) :=
    parted.members_partition bound rfl
  have placed := fun b inside before_ after group => @group_placed parts table _ refs
    (partitionOf (hash key)) b inParts inside before_ after group
  generalize parts.getD (partitionOf (hash key)) [] = entries at directory own placed
  dsimp only [findHashed]
  rw [directory]
  by_cases none : entries.length = 0
  · have empty := eq_nil_of_length_eq_zero none
    have noRows : keyRows spec hash table.chunks parts key = [] := by
      rw [keyRows, ← own, empty]
      rfl
    rw [noRows]
    refine ⟨fun _ => ?_, fun some_ => absurd rfl some_⟩
    simp [directoryAt, none, slice]
  have mask : (directoryAt (classOf spec table.chunks)
      (parts.take (partitionOf (hash key))).flatten.length entries).mask =
      bitCeil entries.length - 1 := by simp [directoryAt, none]
  have inside := bucketOf_lt entries.length (hash key)
  rw [mask, directoryAt_slots (classOf spec table.chunks) none inside]
  rw [keyRows, ← own, ← members_bucket entries rfl]
  specialize placed _ inside
  generalize bucketOf (bitCeil entries.length - 1) (hash key) = b at placed
  split
  · rename_i slot found
    obtain ⟨before_, group, after, split, rfl⟩ :=
      mem_classSlots (mem_of_find?_eq_some found)
    obtain ⟨⟨first, rest, place, length⟩, head, some_, all⟩ := placed _ _ _ split
    have hit := find?_some found
    rw [Bool.and_eq_true, beq_iff_eq, beq_iff_eq, head] at hit
    have same : classOf spec table.chunks (group.headD default) = (hash key, key) :=
      Prod.ext hit.1 hit.2
    rw [← same, ← all]
    refine ⟨fun none => absurd (map_eq_nil_iff.mp none) some_, fun _ =>
      ⟨first, rest, place, ?_⟩⟩
    rw [length, length_map]
  · rename_i missing
    refine ⟨fun _ => rfl, fun some_ => ?_⟩
    have occurs : (hash key, key) ∈ (bucketEntries (bucketIn entries)
        entries b).map (classOf spec table.chunks) := by
      obtain ⟨entry, member⟩ := exists_mem_of_ne_nil _
        (fun none => some_ (map_eq_nil_iff.mpr none))
      rw [members, mem_filter, decide_eq_true_eq] at member
      exact mem_map.mpr ⟨entry, member⟩
    obtain ⟨before_, after, split⟩ :=
      append_of_mem (mem_map_of_mem (mem_distinct.mpr occurs))
    obtain ⟨-, head, -, -⟩ := placed _ _ _ split
    obtain ⟨first, tail, whole, keyed⟩ := members_eq_cons occurs
    rw [find?_eq_none, classes, split, classSlots_append, classSlots] at missing
    refine absurd ?_ (missing _ (mem_append_right _ (mem_cons_self ..)))
    rw [Bool.and_eq_true, beq_iff_eq, beq_iff_eq, head, whole]
    exact Prod.ext_iff.mp keyed

end Find

end Antb1.Exec.Join
