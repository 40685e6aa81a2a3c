import Antb1.Common.Status
import Antb1.Exec.ArrowType
import Antb1.Plan.LogicalPlan
import Mathlib.Data.List.Sort

/-! Sorting rows by keys, and the buffer that keeps the first of them (`exec/sort.cc`). Memory
accounting is left out. -/
namespace Antb1.Exec

open Common Plan

namespace ArrowType

/-- The numbers an array of a type can hold; a number of a DECIMAL is its unscaled value. -/
def range : ArrowType → Option (Int × Int)
  | .int16 => some (-2 ^ 15, 2 ^ 15)
  | .int32 | .date32 => some (-2 ^ 31, 2 ^ 31)
  | .int64 | .timestampMicros | .decimal64 _ _ => some (-2 ^ 63, 2 ^ 63)
  | .uint16 => some (0, 2 ^ 16)
  | .decimal128 _ _ => some (-2 ^ 127, 2 ^ 127)
  | _ => none

def Holds (type : ArrowType) : Value → Prop
  | .null => True
  | .int value => ∃ bounds, type.range = some bounds ∧ bounds.1 ≤ value ∧ value < bounds.2
  | .double _ => type = .float64
  | .text _ => type = .binary
  | .bool _ => type = .boolean

end ArrowType

structure Record (schema : List ArrowType) where
  values : List Value
  typed : List.Forall₂ ArrowType.Holds schema values

namespace Record

variable {schema : List ArrowType}

def at_ (row : Record schema) (column : Nat) : Value := row.values.getD column .null

end Record

/-- The number an integer, DATE, TIMESTAMP or DECIMAL array holds. -/
def asInt : Value → Int
  | .int value => value
  | _ => 0

def asText : Value → List UInt8
  | .text bytes => bytes
  | _ => []

def asDouble : Value → BitVec 64
  | .double bits => bits
  | _ => 0

def compareInts (x y : Value) : Ordering := compare (asInt x) (asInt y)

/-- `CompareDouble`: NaN above every number and equal to NaN. -/
def compareDoubles (x y : Value) : Ordering :=
  let xNan := isNan (asDouble x)
  let yNan := isNan (asDouble y)
  if xNan || yNan then compare xNan.toNat yNan.toNat
  else compare (doubleOrder (asDouble x)) (doubleOrder (asDouble y))

def compareBinary (x y : Value) : Ordering := compare (asText x) (asText y)

def signedPrefix (x : Value) : Nat := ((asInt x + 2 ^ 63) % 2 ^ 64).toNat

def uint16Prefix (x : Value) : Nat := (asInt x).toNat

/-- NaN above every number, `-0.0` equal to `0.0`. -/
def doublePrefix (x : Value) : Nat :=
  let bits := asDouble x
  if isNan bits then 2 ^ 64 - 1
  else
    let bits := if doubleMagnitude bits = 0 then 0 else bits.toNat
    if bits ≥ 2 ^ 63 then 2 ^ 64 - 1 - bits else bits + 2 ^ 63

def decimalPrefix (x : Value) : Nat := ((asInt x / 2 ^ 64 + 2 ^ 63) % 2 ^ 64).toNat

def binaryPrefix (x : Value) : Nat :=
  (List.range 8).foldl (fun bits k => bits * 256 + ((asText x).getD k 0).toNat) 0

structure TypeOrder where
  compare : Value → Value → Ordering
  prefixBits : Value → Nat
  /-- The prefix is the whole value. -/
  isExact : Bool

def orderFor : LogicalType → Option TypeOrder
  | .smallInt | .integer | .bigInt | .date | .timestamp =>
    some ⟨compareInts, signedPrefix, true⟩
  | .uSmallInt => some ⟨compareInts, uint16Prefix, true⟩
  | .decimal width _ =>
    if width ≤ kMaxNarrowDecimalWidth then some ⟨compareInts, signedPrefix, true⟩
    else some ⟨compareInts, decimalPrefix, false⟩
  | .hugeInt => some ⟨compareInts, decimalPrefix, false⟩
  | .double => some ⟨compareDoubles, doublePrefix, true⟩
  | .varchar => some ⟨compareBinary, binaryPrefix, false⟩
  | .boolean => none

/-- A sort key that `RowComparator::Make` has checked. -/
structure BoundKey (schema : List ArrowType) where
  column : Nat
  type : LogicalType
  order : TypeOrder
  descending : Bool
  nullsFirst : Bool
  inside : schema[column]? = some (toArrow type)
  ordered : orderFor type = some order

/-- The keys of a sort, which has at least one. -/
structure RowComparator (schema : List ArrowType) where
  first : BoundKey schema
  rest : List (BoundKey schema)

namespace RowComparator

variable {schema : List ArrowType}

def keys (c : RowComparator schema) : List (BoundKey schema) := c.first :: c.rest

def bindKey (schema : List ArrowType) (key : SortKey) : Except Status (BoundKey schema) :=
  if key.column.index < 0 ∨ key.column.index ≥ schema.length then
    .error (.invalid "sort key outside its input")
  else
    match inside : schema[key.column.index.toNat]?, ordered : orderFor key.column.type with
    | some type, some order =>
      if same : type = toArrow key.column.type then
        .ok ⟨key.column.index.toNat, key.column.type, order, key.descending, key.nullsFirst,
          same ▸ inside, ordered⟩
      else
        .error (.invalid ("sort key of type " ++ type.name ++ " declared as " ++
          key.column.type.name))
    | some type, none =>
      .error (.invalid ("sort key of type " ++ type.name ++ " declared as " ++
        key.column.type.name))
    | none, _ => .error (.invalid "sort key outside its input")

/-- `RowComparator::Make`, with the check its callers make before. -/
def make (schema : List ArrowType) : List SortKey → Except Status (RowComparator schema)
  | [] => .error (.invalid "sort without keys")
  | first :: rest => do
    let first ← bindKey schema first
    let rest ← rest.mapM (bindKey schema)
    return ⟨first, rest⟩

def compareKey (key : BoundKey schema) (a b : Record schema) : Ordering :=
  match a.at_ key.column, b.at_ key.column with
  | .null, .null => .eq
  | .null, _ => if key.nullsFirst then .lt else .gt
  | _, .null => if key.nullsFirst then .gt else .lt
  | x, y => if key.descending then (key.order.compare x y).swap else key.order.compare x y

/-- The loop of `Compare`: the first key that does not tie decides. -/
def compareFrom : List (BoundKey schema) → Record schema → Record schema → Ordering
  | [], _, _ => .eq
  | key :: rest, a, b =>
    match compareKey key a b with
    | .eq => compareFrom rest a b
    | decided => decided

def compare (c : RowComparator schema) (a b : Record schema) : Ordering := compareFrom c.keys a b

/-- `PrefixOf`: the group and the bits of a row's first key. -/
def prefixOf (key : BoundKey schema) (row : Record schema) : Nat × Nat :=
  match row.at_ key.column with
  | .null => (if key.nullsFirst then 0 else 2, 0)
  | x =>
    let bits := key.order.prefixBits x
    (1, if key.descending then 2 ^ 64 - 1 - bits else bits)

/-- The comparison of `Sort`: by the prefixes first. -/
def less (c : RowComparator schema) (a b : Record schema) : Bool :=
  let (aGroup, aBits) := prefixOf c.first a
  let (bGroup, bBits) := prefixOf c.first b
  if aGroup ≠ bGroup then aGroup < bGroup
  else if aGroup ≠ 1 then compareFrom c.rest a b = .lt
  else if aBits ≠ bBits then aBits < bBits
  else compareFrom (if c.first.order.isExact then c.rest else c.keys) a b = .lt

end RowComparator

/-- How a buffer fails: with a status, or a failed check stops the program. -/
inductive Stop where
  | status (status : Status)
  | check
  deriving DecidableEq, Repr

structure RowRef where
  chunk : Nat
  row : Nat
  deriving DecidableEq, Repr

structure SortBuffer (schema : List ArrowType) where
  comparator : RowComparator schema
  keep : Option Nat
  chunks : List (List (Record schema)) := []
  rows : Nat := 0
  /-- After `Sort`. -/
  order : List RowRef := []
  /-- The last kept row after a compaction. -/
  threshold : Option RowRef := none
  sorted : Bool := false

/-- The largest `int64_t`. -/
def kMaxInt64 : Nat := 2 ^ 63 - 1

def saturatingAdd (a b : Nat) : Nat := min (a + b) kMaxInt64

def kMinSlack : Nat := 4096

namespace SortBuffer

variable {schema : List ArrowType}

def rowAt (b : SortBuffer schema) (ref : RowRef) : Option (Record schema) :=
  (b.chunks[ref.chunk]?).bind (·[ref.row]?)

def entries (b : SortBuffer schema) : List (RowRef × Record schema) :=
  b.chunks.zipIdx.flatMap fun (chunk, c) => chunk.zipIdx.map fun (row, r) => (⟨c, r⟩, row)

/-- `Sort` without `keep`. A reference has 32 bits for the chunk and for the row. -/
def sortAll (b : SortBuffer schema) : Except Stop (SortBuffer schema) :=
  if b.chunks.length > 2 ^ 32 ∨ b.chunks.any (·.length > 2 ^ 32) then .error .check
  else
    let sorted := b.entries.insertionSort fun x y => ¬b.comparator.less y.2 x.2
    .ok { b with order := sorted.map Prod.fst, sorted := true }

/-- Rows `start` to `stop` of the sorted order. -/
def slice (b : SortBuffer schema) (start stop : Nat) : Except Stop (List (Record schema)) :=
  if b.sorted then
    let start := min start b.rows
    let stop := max start (min stop b.rows)
    .ok (((b.order.drop start).take (stop - start)).filterMap b.rowAt)
  else .error (.status (.invalid "sort buffer read before Sort()"))

def compact (b : SortBuffer schema) : Except Stop (SortBuffer schema) := do
  let all ← b.sortAll
  let limit := b.keep.getD b.rows
  let kept := min b.rows limit
  let first ← all.slice 0 kept
  if kept > 2 ^ 32 then .error .check
  else if kept > 0 then
    .ok { b with
      chunks := [first]
      rows := kept
      order := (List.range kept).map (⟨0, ·⟩)
      threshold := if kept = limit then some ⟨0, kept - 1⟩ else none
      sorted := true }
  else
    .ok { b with chunks := [], rows := 0, order := [], threshold := none, sorted := true }

/-- `Sort`. -/
def sort (b : SortBuffer schema) : Except Stop (SortBuffer schema) :=
  if b.keep.isSome then b.compact else b.sortAll

def better (b : SortBuffer schema) (rows : List (Record schema)) : List (Record schema) :=
  match b.threshold.bind b.rowAt with
  | none => rows
  | some last => rows.filter fun row => b.comparator.compare row last = .lt

def add (b : SortBuffer schema) (rows : List (Record schema)) :
    Except Stop (SortBuffer schema) :=
  if rows.isEmpty then .ok b
  else if rows.length ≥ 2 ^ 32 ∨ b.chunks.length + 1 ≥ 2 ^ 32 then
    .error (.status (.capacityError "too many rows to sort in memory"))
  else
    let rows := b.better rows
    let unsorted : SortBuffer schema := { b with sorted := false }
    if rows.isEmpty then .ok unsorted
    else
      let pushed : SortBuffer schema :=
        { unsorted with rows := b.rows + rows.length, chunks := b.chunks ++ [rows] }
      match b.keep with
      | none => .ok pushed
      | some keep =>
        if pushed.rows > saturatingAdd keep (max keep kMinSlack) then pushed.compact
        else .ok pushed

/-- `Merge`: the other buffer is left empty, and is not read again. -/
def merge (b other : SortBuffer schema) : Except Stop (SortBuffer schema) :=
  if other.keep ≠ b.keep then
    .error (.status (.invalid "merge of sort buffers of different shapes"))
  else other.chunks.foldlM add b

def tighten (b : SortBuffer schema) : Except Stop (SortBuffer schema) :=
  match b.keep with
  | none => .ok b
  | some keep =>
    if b.rows < keep ∨ (b.sorted ∧ b.threshold.isSome) then .ok b else b.compact

/-- A row's value as a number, for the types with part statistics. -/
def integerAt (type : ArrowType) : Value → Option Int
  | .int value =>
    match type with
    | .int16 | .int32 | .int64 | .uint16 | .date32 | .decimal64 _ _ | .decimal128 _ _ => some value
    | _ => none
  | _ => none

def thresholdKey (b : SortBuffer schema) : Option Int :=
  match b.threshold.bind b.rowAt, b.comparator.keys with
  | some last, key :: _ => integerAt (toArrow key.type) (last.at_ key.column)
  | _, _ => none

end SortBuffer

end Antb1.Exec
