import Antb1.Exec.JoinTable
import Antb1.Plan.Table
import Mathlib.Data.List.Sort

/-! The filter over the keys of a join's build (`exec/key_filter.cc`, `MakeKeyFilter` of
`exec/join_table.cc`): a split-block Bloom filter of the keys' hashes, and the keys' values. What
the memory budget affords is a parameter. -/
namespace Antb1.Exec

open Plan Join

def kWordsPerBlock : Nat := 8

def kBitsPerKey : Nat := 16

def kMaxBytes : Nat := 32 * 1024 * 1024

def kMaxPublishedKeys : Nat := 64 * 1024

def kSalt : List Nat :=
  [0x47b6137b, 0x44974d91, 0x8824ad5b, 0xa2b7289d, 0x705495c7, 0x2df1424b, 0x9efc4947, 0x5c6bfb31]

structure KeyFilter where
  words : List (BitVec 32)
  blockMask : Nat
  /-- Of the published keys. -/
  keyRange : Option (Int × Int) := none
  /-- Sorted; empty when only the range is published. -/
  keyValues : List Int := []
  deriving DecidableEq, Repr

namespace KeyFilter

/-- A filter for `numKeys` keys with every bit clear. -/
def make (numKeys : Nat) (affordable : Nat → Bool) : Option KeyFilter :=
  if numKeys = 0 then none
  else
    let words := (numKeys * kBitsPerKey + 31) / 32
    let blocks := bitCeil ((words + kWordsPerBlock - 1) / kWordsPerBlock)
    let bytes := blocks * kWordsPerBlock * 4
    if bytes > kMaxBytes || !affordable bytes then none
    else some { words := List.replicate (blocks * kWordsPerBlock) 0, blockMask := blocks - 1 }

def maskWord (hash word : Nat) : BitVec 32 :=
  1#32 <<< ((hash % 2 ^ 32 * kSalt.getD word 0) % 2 ^ 32 >>> 27)

def blockAt (filter : KeyFilter) (hash : Nat) : Nat :=
  ((hash >>> 32) &&& filter.blockMask) * kWordsPerBlock

/-- The bit of a hash set in one word of the block that starts at `block`. -/
def setWord (hash block : Nat) (words : List (BitVec 32)) (word : Nat) : List (BitVec 32) :=
  words.modify (block + word) (· ||| maskWord hash word)

def add (filter : KeyFilter) (hash : Nat) : KeyFilter :=
  let block := filter.blockAt hash
  { filter with words := (List.range kWordsPerBlock).foldl (setWord hash block) filter.words }

def addAll (filter : KeyFilter) (hashes : List Nat) : KeyFilter := hashes.foldl add filter

def mayContain (filter : KeyFilter) (hash : Nat) : Bool :=
  (List.range kWordsPerBlock).all fun word =>
    filter.words.getD (filter.blockAt hash + word) 0 &&& maskWord hash word ≠ 0

def publishKeys (filter : KeyFilter) (keys : List Int) (range : Int × Int) (affordable : Bool) :
    KeyFilter :=
  { filter with
    keyRange := some range
    keyValues := if affordable then keys.insertionSort (· ≤ ·) else [] }

def prunesParts (filter : KeyFilter) : Bool := filter.keyRange.isSome

/-- Whether a part with keys from `min` to `max` may hold a published key. -/
def mayHoldAKeyIn (filter : KeyFilter) (min max : Int) : Bool :=
  match filter.keyRange with
  | none => true
  | some (low, high) =>
    if filter.keyValues ≠ [] then
      -- the first key from `min` on
      match filter.keyValues.find? (min ≤ ·) with
      | some key => key ≤ max
      | none => false
    else max ≥ low && min ≤ high

end KeyFilter

def canPublishKeyFilter (keys : List KeyColumn) : Bool :=
  match keys with
  | [key] => key.type.isInteger || key.type = .date
  | _ => false

/-- The key types whose values `CollectKeyValues` reads. -/
def hasKeyValues : LogicalType → Bool
  | .smallInt | .uSmallInt | .integer | .bigInt | .date => true
  | _ => false

def widen (range : Option (Int × Int)) (value : Int) : Option (Int × Int) :=
  match range with
  | none => some (value, value)
  | some (low, high) => some (min low value, max high value)

/-- The key values of a build's rows that are not NULL. -/
def keyValuesOf (key : KeyColumn) (pieces : List Piece) : List Int :=
  pieces.flatMap fun piece => piece.rows.filterMap fun row =>
    PartStats.number (row.getD key.index .null)

/-- `JoinTableBuilder::MakeKeyFilter`. -/
def makeKeyFilter (spec : JoinBuildSpec) (builder : JoinTableBuilder) (affordable : Nat → Bool)
    (reserves : Bool) : Option KeyFilter :=
  match spec.keys with
  | [key] =>
    if canPublishKeyFilter spec.keys then
      (KeyFilter.make builder.numRows affordable).map fun filter =>
        let filter := filter.addAll (builder.pieces.flatMap (·.hashes))
        let values := keyValuesOf key builder.pieces
        match values.foldl widen none with
        | some range =>
          if hasKeyValues key.type then
            filter.publishKeys values range (builder.numRows ≤ kMaxPublishedKeys && reserves)
          else filter
        | none => filter
    else none
  | _ => none

/-- The filter a build publishes when it is finished (`JoinBuild::BuildTable`). -/
def publishedFilter (spec : JoinBuildSpec) (hash : List Value → Nat) (parts : List (List Batch))
    (affordable : Nat → Bool) (reserves : Bool) : Option KeyFilter :=
  match gatherParts machineWords spec hash parts with
  | .error _ => none
  | .ok builder => makeKeyFilter spec builder affordable reserves

end Antb1.Exec
