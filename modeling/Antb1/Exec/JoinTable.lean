import Mathlib.Data.Nat.Log
import Antb1.Lib.CountingSort
import Antb1.Plan.Expr

/-! The build side of a hash join: `exec/join_table.cc`. A batch is its rows with their
selection; tasks of different partitions touch different entries and run here one after
another. Memory budgets and the rows kept for their NULL keys are left out. -/
namespace Antb1.Exec.Join

open Antb1.Plan CountingSort

/-- The sizes of `uint32_t` and `uint64_t`; 0 computes exactly. -/
structure Words where
  narrow : Nat
  wide : Nat

def machineWords : Words := ⟨2 ^ 32, 2 ^ 64⟩

def exactWords : Words := ⟨0, 0⟩

def kMaxRows : Nat := 2 ^ 32 - 1
def kJoinPartitions : Nat := 64
def kPartitionBits : Nat := 6
def kDirectSlotsPerRow : Nat := 8
def kSparseDirectSlotsPerRow : Nat := 32

inductive BuildError where
  | tooManyRows
  deriving DecidableEq, Repr

def BuildError.text : BuildError → String
  | .tooManyRows => s!"a join build of more than {kMaxRows} rows"

abbrev Record := List Value

structure KeyColumn where
  index : Nat
  type : LogicalType
  deriving DecidableEq, Repr

def isDirectType : LogicalType → Bool
  | .smallInt | .integer | .bigInt | .uSmallInt | .date | .timestamp => true
  | _ => false

def isDirectCandidate (keys : List KeyColumn) : Bool :=
  match keys with
  | [key] => isDirectType key.type
  | _ => false

/-- The keys of a build. A build of direct keys may still be hashed. -/
structure JoinBuildSpec where
  keys : List KeyColumn
  directCandidate : Bool
  someKey : keys ≠ []
  bytewise : ∀ key ∈ keys, key.type ≠ .double ∧ key.type ≠ .boolean
  candidate : directCandidate = true → isDirectCandidate keys = true

def keyOf (spec : JoinBuildSpec) (row : Record) : List Value :=
  spec.keys.map fun key => row.getD key.index .null

def hasNullKey (key : List Value) : Bool := key.any (· = .null)

def directKey (key : List Value) : Int :=
  match key with
  | .int x :: _ => x
  | _ => 0

structure BatchRow where
  selected : Bool
  row : Record
  deriving DecidableEq, Repr

abbrev Batch := List BatchRow

def selectedRows (batch : Batch) : Nat := batch.countP (·.selected)

/-- The rows of the mask: selected, with no NULL key. -/
def keptRows (spec : JoinBuildSpec) (batch : Batch) : List Record :=
  (batch.filter fun entry => entry.selected && !hasNullKey (keyOf spec entry.row)).map (·.row)

structure HashedRow where
  row : Record
  hash : Nat
  deriving DecidableEq, Repr, Inhabited

def hashRows (spec : JoinBuildSpec) (hash : List Value → Nat) (batch : Batch) : List HashedRow :=
  (keptRows spec batch).map fun row => ⟨row, hash (keyOf spec row)⟩

/-- The rows of a batch in partition order: partition `p`'s from `start[p]` to `start[p + 1]`. -/
structure Piece where
  rows : List Record
  hashes : List Nat
  start : List Nat
  deriving DecidableEq, Repr

structure JoinBuildPart where
  pieces : List Piece := []
  inputRows : Nat := 0
  nullKeyRows : Nat := 0
  numRows : Nat := 0
  minKey : Int := 0
  maxKey : Int := 0
  deriving DecidableEq, Repr

def partitionOf (hash : Nat) : Nat := hash % kJoinPartitions

def minMax : List Int → Int × Int
  | [] => (0, 0)
  | first :: rest => (rest.foldl min first, rest.foldl max first)

def makePiece (words : Words) (rows : List HashedRow) : Piece :=
  let start := partialSums words.narrow 0 (countUp words.narrow 1 (partitionOf ·.hash) rows
    (List.replicate (kJoinPartitions + 1) 0))
  let placed := (place words.narrow 0 (partitionOf ·.hash) rows
    ⟨start.take kJoinPartitions, List.replicate rows.length default⟩).out
  ⟨placed.map (·.row), placed.map (·.hash), start⟩

/-- The smallest and the largest key of a part with more rows; of direct candidates only. -/
def widenKeys (spec : JoinBuildSpec) (part : JoinBuildPart) (rows : List Record) : Int × Int :=
  if spec.directCandidate then
    let (low, high) := minMax (rows.map fun row => directKey (keyOf spec row))
    if part.numRows > 0 then (min low part.minKey, max high part.maxKey) else (low, high)
  else (0, 0)

def addPiece (spec : JoinBuildSpec) (part : JoinBuildPart) (selected kept : Nat) (piece : Piece) :
    JoinBuildPart :=
  let (low, high) := widenKeys spec part piece.rows
  { pieces := part.pieces ++ [piece]
    inputRows := part.inputRows + selected
    nullKeyRows := part.nullKeyRows + (selected - kept)
    numRows := part.numRows + kept
    minKey := low
    maxKey := high }

def appendRows (words : Words) (spec : JoinBuildSpec) (hash : List Value → Nat)
    (part : JoinBuildPart) (batch : Batch) : Except BuildError JoinBuildPart :=
  let selected := selectedRows batch
  let rows := hashRows spec hash batch
  if selected = 0 then .ok part
  else if batch.length > kMaxRows then .error .tooManyRows
  else if rows.length = 0 then
    .ok { part with inputRows := part.inputRows + selected
                    nullKeyRows := part.nullKeyRows + selected }
  else .ok (addPiece spec part selected rows.length (makePiece words rows))

def buildPart (words : Words) (spec : JoinBuildSpec) (hash : List Value → Nat)
    (batches : List Batch) : Except BuildError JoinBuildPart :=
  batches.foldlM (appendRows words spec hash) {}

/-- Rows of one partition in one chunk, with their hashes. -/
structure Segment where
  hashes : List Nat
  chunk : Nat
  begin : Nat
  stop : Nat
  deriving DecidableEq, Repr

structure JoinTableBuilder where
  pieces : List Piece := []
  numChunks : Nat := 0
  numRows : Nat := 0
  inputRows : Nat := 0
  nullKeyRows : Nat := 0
  minKey : Int := 0
  maxKey : Int := 0
  /-- By partition. -/
  segments : List (List Segment) := List.replicate kJoinPartitions []
  deriving DecidableEq, Repr

/-- The segment of a partition in a piece, none when it has no row there. -/
def segmentOf (partition : Nat) (piece : Piece) (chunk : Nat) : Option Segment :=
  let begin := piece.start.getD partition 0
  let stop := piece.start.getD (partition + 1) 0
  if stop > begin then some ⟨piece.hashes.drop begin, chunk, begin, stop⟩ else none

def mergePieces (words : Words) (partition : Nat) : Nat → List Piece → List Segment
  | _, [] => []
  | chunk, piece :: rest =>
    (segmentOf partition piece chunk).toList ++
      mergePieces words partition ((chunk + 1) % words.narrow) rest

def mergeKeys (builder : JoinTableBuilder) (part : JoinBuildPart) : Int × Int :=
  if part.numRows > 0 then
    if builder.numRows = 0 then (part.minKey, part.maxKey)
    else (min builder.minKey part.minKey, max builder.maxKey part.maxKey)
  else (builder.minKey, builder.maxKey)

def release (words : Words) (builder : JoinTableBuilder) (part : JoinBuildPart) :
    Except BuildError JoinTableBuilder :=
  if builder.numRows + part.numRows > kMaxRows then .error .tooManyRows
  else .ok
    { pieces := builder.pieces ++ part.pieces
      numChunks := builder.numChunks + part.pieces.length
      numRows := builder.numRows + part.numRows
      inputRows := builder.inputRows + part.inputRows
      nullKeyRows := builder.nullKeyRows + part.nullKeyRows
      minKey := (mergeKeys builder part).1
      maxKey := (mergeKeys builder part).2
      segments := builder.segments.mapIdx fun partition segments => segments ++
        mergePieces words partition (builder.numChunks % words.narrow) part.pieces }

def gatherParts (words : Words) (spec : JoinBuildSpec) (hash : List Value → Nat)
    (parts : List (List Batch)) : Except BuildError JoinTableBuilder := do
  let parts ← parts.mapM (buildPart words spec hash)
  parts.foldlM (release words) {}

structure JoinRowRef where
  chunk : Nat
  row : Nat
  deriving DecidableEq, Repr, Inhabited

structure JoinMatches where
  begin : Nat := 0
  stop : Nat := 0
  deriving DecidableEq, Repr

structure KeySlot where
  hash : Nat
  begin : Nat
  stop : Nat
  deriving DecidableEq, Repr, Inhabited

/-- The slots of a partition, bucket `b`'s from `buckets[b]` to `buckets[b + 1]`. -/
structure Directory where
  mask : Nat := 0
  buckets : List Nat := []
  slots : List KeySlot := []
  deriving DecidableEq, Repr, Inhabited

inductive Layout where
  | direct
  | hashed
  deriving DecidableEq, Repr

structure JoinTable where
  chunks : List (List Record)
  rows : List JoinRowRef
  layout : Layout
  inputRows : Nat
  nullKeyRows : Nat
  unique : Bool
  minKey : Int := 0
  span : Nat := 0
  offsets : List Nat := []
  directories : List Directory := []
  deriving DecidableEq, Repr

def chunkRow (chunks : List (List Record)) (ref : JoinRowRef) : Option Record :=
  (chunks[ref.chunk]?).bind (·[ref.row]?)

def chunkKey (spec : JoinBuildSpec) (chunks : List (List Record)) (ref : JoinRowRef) :
    List Value :=
  ((chunkRow chunks ref).map (keyOf spec)).getD []

structure Entry where
  hash : Nat
  ref : JoinRowRef
  deriving DecidableEq, Repr, Inhabited

def Segment.entries (segment : Segment) : List Entry :=
  (List.range (segment.stop - segment.begin)).map fun i =>
    ⟨segment.hashes.getD i 0, ⟨segment.chunk, segment.begin + i⟩⟩

/-- `values` written from `first` on. -/
def writeAt {α : Type} (list : List α) (first : Nat) (values : List α) : List α :=
  list.take first ++ values ++ list.drop (first + values.length)

def slice {α : Type} (list : List α) (first last : Nat) : List α :=
  (list.drop first).take (last - first)

def keyOffset (words : Words) (minKey value : Int) : Nat := ((value - minKey) % words.wide).toNat

structure Counting where
  offsets : List Nat
  repeats : Bool

def countRow (words : Words) (index : Entry → Nat) (counting : Counting) (entry : Entry) :
    Counting :=
  let offsets := counting.offsets.modify (index entry + 2) fun n => (n + 1) % words.narrow
  ⟨offsets, counting.repeats || offsets.getD (index entry + 2) 0 > 1⟩

def buildDirect (words : Words) (spec : JoinBuildSpec) (segments : List (List Segment))
    (table : JoinTable) : JoinTable :=
  let index := fun entry : Entry =>
    keyOffset words table.minKey (directKey (chunkKey spec table.chunks entry.ref))
  let entries := segments.flatMap fun segments => segments.flatMap Segment.entries
  let counted := entries.foldl (countRow words index) ⟨table.offsets, false⟩
  let placed := place words.narrow 1 index entries
    ⟨blockedSums words.narrow kJoinPartitions counted.offsets,
      table.rows.map fun ref => ⟨0, ref⟩⟩
  { table with rows := placed.out.map (·.ref)
               offsets := placed.next.dropLast
               unique := !counted.repeats }

/-- The key of an entry among the keys seen, the previous entry's first. -/
def seenKey (same : Nat → Bool) (heads : List Nat) (previous : Nat) : Option Nat :=
  if same (heads.getD previous 0) then some previous
  else (List.range heads.length).find? fun k => k != previous && same (heads.getD k 0)

structure Scan where
  heads : List Nat := [0]
  current : Nat := 0
  together : Bool := true

def scanEntry (same : Nat → Nat → Bool) (scan : Scan) (i : Nat) : Scan :=
  if !scan.together then scan
  else match seenKey (same i) scan.heads scan.current with
    | none => ⟨scan.heads ++ [i], scan.heads.length, true⟩
    | some key => { scan with together := key = scan.current }

structure KeyNumbers where
  heads : List Nat := [0]
  current : Nat := 0
  keys : List Nat := [0]

def numberEntry (same : Nat → Nat → Bool) (numbers : KeyNumbers) (i : Nat) : KeyNumbers :=
  match seenKey (same i) numbers.heads numbers.current with
  | some key => ⟨numbers.heads, key, numbers.keys ++ [key]⟩
  | none =>
    ⟨numbers.heads ++ [i], numbers.heads.length, numbers.keys ++ [numbers.heads.length]⟩

/-- A bucket with each key's entries together: as it is where they are, else a counting sort
by the keys' numbers. -/
def groupBucket (words : Words) (sameKey : Entry → Entry → Bool) (entries : List Entry) :
    List Entry :=
  let same := fun a b => sameKey (entries.getD a default) (entries.getD b default)
  let scan := (List.range' 1 (entries.length - 1)).foldl (scanEntry same) {}
  if scan.together then entries
  else
    let numbers := (List.range' 1 (entries.length - 1)).foldl (numberEntry same) {}
    let items := numbers.keys.zip entries
    let start := partialSums words.narrow 0 (countUp words.narrow 1 (·.1) items
      (List.replicate (numbers.heads.length + 1) 0))
    (place words.narrow 0 (·.1) items ⟨start, List.replicate entries.length default⟩).out.map (·.2)

def groupBuckets (words : Words) (sameKey : Entry → Entry → Bool) (starts : List Nat)
    (entries : List Entry) (bucket : Nat) : List Entry :=
  let begin := starts.getD bucket 0
  let stop := starts.getD (bucket + 1) 0
  if stop - begin ≤ 1 then entries
  else writeAt entries begin (groupBucket words sameKey (slice entries begin stop))

def makeSlot (words : Words) (first : Nat) (head : Entry) (at_ stop : Nat) : KeySlot :=
  ⟨head.hash, (first + at_) % words.narrow, (first + stop) % words.narrow⟩

/-- The slots from the key of `head` on, whose entries so far end at `stop`. -/
def slotsFrom (words : Words) (sameKey : Entry → Entry → Bool) (first : Nat) (head : Entry)
    (at_ stop : Nat) : List Entry → List KeySlot
  | [] => [makeSlot words first head at_ stop]
  | entry :: rest =>
    if sameKey head entry then slotsFrom words sameKey first head at_ (stop + 1) rest
    else makeSlot words first head at_ stop ::
      slotsFrom words sameKey first entry stop (stop + 1) rest

def slotsOf (words : Words) (sameKey : Entry → Entry → Bool) (first at_ : Nat) :
    List Entry → List KeySlot
  | [] => []
  | head :: rest => slotsFrom words sameKey first head at_ (at_ + 1) rest

structure Slotting where
  begin : Nat
  starts : List Nat
  slots : List KeySlot

def slotBucket (words : Words) (sameKey : Entry → Entry → Bool) (first : Nat)
    (entries : List Entry) (slotting : Slotting) (bucket : Nat) : Slotting :=
  let stop := slotting.starts.getD (bucket + 1) 0
  ⟨stop, slotting.starts.set bucket (slotting.slots.length % words.narrow),
    slotting.slots ++ slotsOf words sameKey first slotting.begin
      (slice entries slotting.begin stop)⟩

/-- The smallest power of two that is not below `n`. -/
def bitCeil (n : Nat) : Nat := 2 ^ Nat.clog 2 n

def bucketOf (mask hash : Nat) : Nat := (hash >>> kPartitionBits) &&& mask

/-- The entries of a partition in the order of its slots, and its directory. -/
def buildDirectory (words : Words) (sameKey : Entry → Entry → Bool) (first : Nat)
    (entries : List Entry) : List Entry × Directory :=
  if entries.length = 0 then ([], {})
  else
    let buckets := bitCeil entries.length
    let mask := buckets - 1
    let starts := partialSums words.narrow 0 (countUp words.narrow 2 (bucketOf mask ·.hash) entries
      (List.replicate (buckets + 2) 0))
    let placed := place words.narrow 1 (bucketOf mask ·.hash) entries
      ⟨starts, List.replicate entries.length default⟩
    let grouped := (List.range buckets).foldl (groupBuckets words sameKey placed.next) placed.out
    let slotting := (List.range buckets).foldl (slotBucket words sameKey first grouped)
      ⟨0, placed.next, []⟩
    (grouped, ⟨mask, (slotting.starts.set buckets (slotting.slots.length % words.narrow)).dropLast,
      slotting.slots⟩)

structure Hashing where
  first : Nat := 0
  rows : List JoinRowRef
  directories : List Directory := []

def hashPartition (words : Words) (sameKey : Entry → Entry → Bool) (hashing : Hashing)
    (segments : List Segment) : Hashing :=
  let entries := segments.flatMap Segment.entries
  let first := hashing.first % words.narrow
  let (grouped, directory) := buildDirectory words sameKey first entries
  ⟨hashing.first + entries.length, writeAt hashing.rows first (grouped.map (·.ref)),
    hashing.directories ++ [directory]⟩

def buildHashed (words : Words) (spec : JoinBuildSpec) (segments : List (List Segment))
    (table : JoinTable) : JoinTable :=
  let sameKey := fun a b : Entry =>
    a.hash == b.hash && chunkKey spec table.chunks a.ref == chunkKey spec table.chunks b.ref
  let hashing := segments.foldl (hashPartition words sameKey) { rows := table.rows }
  { table with rows := hashing.rows
               directories := hashing.directories
               unique := hashing.directories.all fun directory =>
                 directory.slots.all fun slot => slot.stop - slot.begin ≤ 1 }

/-- Direct for one dense integer key; a sparser index only where the budget affords it. -/
def isDirect (words : Words) (spec : JoinBuildSpec) (affordable : Nat → Bool)
    (span numRows : Nat) : Bool :=
  spec.directCandidate && numRows > 0 &&
    (span < kDirectSlotsPerRow * numRows % words.wide ||
      (span < kSparseDirectSlotsPerRow * numRows % words.wide &&
        affordable ((span + 3) * 4 % words.wide)))

def startTable (builder : JoinTableBuilder) : JoinTable where
  chunks := builder.pieces.map (·.rows)
  rows := List.replicate builder.numRows default
  layout := .hashed
  inputRows := builder.inputRows
  nullKeyRows := builder.nullKeyRows
  unique := true

def finish (words : Words) (spec : JoinBuildSpec) (affordable : Nat → Bool)
    (builder : JoinTableBuilder) : JoinTable :=
  let span := keyOffset words builder.minKey builder.maxKey
  if isDirect words spec affordable span builder.numRows then
    buildDirect words spec builder.segments
      { startTable builder with layout := .direct
                                minKey := builder.minKey
                                span := span
                                offsets := List.replicate ((span + 3) % words.wide) 0 }
  else buildHashed words spec builder.segments (startTable builder)

def buildTable (words : Words) (spec : JoinBuildSpec) (hash : List Value → Nat)
    (affordable : Nat → Bool) (parts : List (List Batch)) : Except BuildError JoinTable := do
  let builder ← gatherParts words spec hash parts
  return finish words spec affordable builder

def findDirect (table : JoinTable) (key : List Value) : JoinMatches :=
  let index := keyOffset machineWords table.minKey (directKey key)
  let begin := table.offsets.getD index 0
  let stop := table.offsets.getD (index + 1) 0
  if index ≤ table.span ∧ begin ≠ stop then ⟨begin, stop⟩ else {}

def findHashed (spec : JoinBuildSpec) (hash : List Value → Nat) (table : JoinTable)
    (key : List Value) : JoinMatches :=
  let directory := table.directories.getD (partitionOf (hash key)) {}
  let bucket := bucketOf directory.mask (hash key)
  let slots := slice directory.slots (directory.buckets.getD bucket 0)
    (directory.buckets.getD (bucket + 1) 0)
  match slots.find? fun slot => slot.hash == hash key &&
      chunkKey spec table.chunks (table.rows.getD slot.begin default) == key with
  | some slot => ⟨slot.begin, slot.stop⟩
  | none => {}

structure ProbeRow where
  selected : Bool
  key : List Value

def findRow (spec : JoinBuildSpec) (hash : List Value → Nat) (table : JoinTable)
    (probe : ProbeRow) : JoinMatches :=
  if !probe.selected || hasNullKey probe.key then {}
  else match table.layout with
    | .direct => findDirect table probe.key
    | .hashed => findHashed spec hash table probe.key

def find (spec : JoinBuildSpec) (hash : List Value → Nat) (table : JoinTable)
    (probes : List ProbeRow) : List JoinMatches :=
  if table.rows.isEmpty then probes.map fun _ => {}
  else probes.map (findRow spec hash table)

end Antb1.Exec.Join
