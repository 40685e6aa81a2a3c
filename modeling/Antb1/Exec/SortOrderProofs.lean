import Antb1.Exec.Sort
import Mathlib.Data.List.GetD

/-! The order of rows: a total preorder, which the prefixes of `Sort` follow. -/
namespace Antb1.Exec

open Plan

variable {holds : Value → Prop} (n : Nat) {x y : Value}

theorem compareInts_eq : compareInts = compareOn asInt := rfl

theorem compareBinary_eq : compareBinary = compareOn asText := rfl

theorem compareDoubles_eq :
    compareDoubles = compareLex (compareOn fun x => (isNan (asDouble x)).toNat)
      (compareOn fun x => if isNan (asDouble x) then 0 else doubleOrder (asDouble x)) := by
  funext x y
  cases nanX : isNan (asDouble x) <;> cases nanY : isNan (asDouble y) <;>
    simp [compareDoubles, compareLex, compareOn, nanX, nanY] <;> rfl

theorem orderFor_transCmp {type : LogicalType} {order : TypeOrder}
    (ordered : orderFor type = some order) : Std.TransCmp order.compare := by
  have ints : Std.TransCmp compareInts := compareInts_eq ▸ inferInstance
  have doubles : Std.TransCmp compareDoubles := compareDoubles_eq ▸ inferInstance
  have texts : Std.TransCmp compareBinary := compareBinary_eq ▸ inferInstance
  cases type with
  | decimal width scale =>
    rw [orderFor] at ordered
    split at ordered <;> cases ordered <;> exact ints
  | boolean => contradiction
  | double => cases ordered; exact doubles
  | varchar => cases ordered; exact texts
  | _ => cases ordered; exact ints

/-- Prefixes that order values as far as they tell them apart. -/
structure PrefixSound (order : TypeOrder) (holds : Value → Prop) : Prop where
  bound : ∀ x, holds x → order.prefixBits x < 2 ^ 64
  less : ∀ x y, holds x → holds y → order.prefixBits x < order.prefixBits y →
    order.compare x y = .lt
  same : order.isExact = true → ∀ x y, holds x → holds y →
    order.prefixBits x = order.prefixBits y → order.compare x y = .eq

theorem asInt_range {type : ArrowType} {bounds : Int × Int} (range : type.range = some bounds)
    (holds : type.Holds x) (value : x ≠ .null) : bounds.1 ≤ asInt x ∧ asInt x < bounds.2 := by
  cases x with
  | null => contradiction
  | int v =>
    obtain ⟨bounds', range', within⟩ := holds
    rw [range, Option.some.injEq] at range'
    exact range' ▸ within
  | _ =>
    rw [holds] at range
    contradiction

theorem compareInts_lt (less : asInt x < asInt y) : compareInts x y = .lt :=
  compare_lt_iff_lt.mpr less

theorem compareInts_same (same : asInt x = asInt y) : compareInts x y = .eq :=
  compare_eq_iff_eq.mpr same

theorem signedPrefix_sound (range : ∀ x, holds x → -2 ^ 63 ≤ asInt x ∧ asInt x < 2 ^ 63) :
    PrefixSound ⟨compareInts, signedPrefix, true⟩ holds := by
  have bits : ∀ x, holds x → (signedPrefix x : Int) = asInt x + 2 ^ 63 := by
    intro x held
    have := range x held
    unfold signedPrefix
    omega
  constructor
  · intro x held
    have := range x held
    have := bits x held
    simp only
    omega
  · intro x y heldX heldY less
    have := bits x heldX
    have := bits y heldY
    simp only at less
    exact compareInts_lt (by omega)
  · intro _ x y heldX heldY same
    have := bits x heldX
    have := bits y heldY
    simp only at same
    exact compareInts_same (by omega)

theorem uint16Prefix_sound (range : ∀ x, holds x → 0 ≤ asInt x ∧ asInt x < 2 ^ 16) :
    PrefixSound ⟨compareInts, uint16Prefix, true⟩ holds := by
  constructor
  · intro x held
    have := range x held
    simp only [uint16Prefix]
    omega
  · intro x y heldX heldY less
    have := range x heldX
    simp only [uint16Prefix] at less
    exact compareInts_lt (by omega)
  · intro _ x y heldX heldY same
    have := range x heldX
    have := range y heldY
    simp only [uint16Prefix] at same
    exact compareInts_same (by omega)

theorem decimalPrefix_sound (range : ∀ x, holds x → -2 ^ 127 ≤ asInt x ∧ asInt x < 2 ^ 127) :
    PrefixSound ⟨compareInts, decimalPrefix, false⟩ holds := by
  have bits : ∀ x, holds x → (decimalPrefix x : Int) = asInt x / 2 ^ 64 + 2 ^ 63 := by
    intro x held
    have := range x held
    unfold decimalPrefix
    omega
  constructor
  · intro x held
    have := range x held
    have := bits x held
    simp only
    omega
  · intro x y heldX heldY less
    have := bits x heldX
    have := bits y heldY
    simp only at less
    exact compareInts_lt (by omega)
  · intro wrong
    contradiction

theorem isNan_eq (bits : BitVec 64) :
    isNan bits = true ↔ 0x7ff0000000000000 < bits.toNat % 2 ^ 63 := by
  simp [isNan, doubleMagnitude]

theorem doubleOrder_eq (bits : BitVec 64) :
    doubleOrder bits = if 2 ^ 63 ≤ bits.toNat then -((bits.toNat % 2 ^ 63 : Nat) : Int)
      else ((bits.toNat % 2 ^ 63 : Nat) : Int) := by
  unfold doubleOrder doubleMagnitude
  simp only [BitVec.msb_eq_decide, decide_eq_true_eq]

/-- The place of a number among the prefixes, of which NaN has the last. -/
theorem doublePrefix_eq (x : Value) :
    isNan (asDouble x) = true ∧ doublePrefix x = 2 ^ 64 - 1 ∨
      isNan (asDouble x) = false ∧ doublePrefix x < 2 ^ 64 - 1 ∧
        (doublePrefix x : Int) = doubleOrder (asDouble x) + 2 ^ 63 -
          if doubleOrder (asDouble x) < 0 then 1 else 0 := by
  have small := (asDouble x).isLt
  cases nan : isNan (asDouble x) with
  | true => exact .inl ⟨rfl, by simp [doublePrefix, nan]⟩
  | false =>
    have number : ¬0x7ff0000000000000 < (asDouble x).toNat % 2 ^ 63 := by
      rw [← isNan_eq, nan]
      exact Bool.false_ne_true
    refine .inr ⟨rfl, ?_⟩
    rw [doubleOrder_eq]
    unfold doublePrefix doubleMagnitude
    simp only [nan, Bool.false_eq_true, if_false]
    generalize (asDouble x).toNat = bits at *
    split_ifs <;> omega

theorem doublePrefix_sound (holds : Value → Prop) :
    PrefixSound ⟨compareDoubles, doublePrefix, true⟩ holds := by
  constructor
  · intro x _
    have := doublePrefix_eq x
    simp only
    omega
  · intro x y _ _ less
    simp only [compareDoubles] at less ⊢
    obtain ⟨nanX, bitsX⟩ | ⟨numberX, -, bitsX⟩ := doublePrefix_eq x <;>
      obtain ⟨nanY, bitsY⟩ | ⟨numberY, boundY, bitsY⟩ := doublePrefix_eq y
    · omega
    · omega
    · rw [numberX, nanY]
      rfl
    · simp only [numberX, numberY, Bool.or_self, Bool.false_eq_true, if_false, compare_lt_iff_lt]
      omega
  · intro _ x y _ _ same
    simp only [compareDoubles] at same ⊢
    obtain ⟨nanX, bitsX⟩ | ⟨numberX, boundX, bitsX⟩ := doublePrefix_eq x <;>
      obtain ⟨nanY, bitsY⟩ | ⟨numberY, boundY, bitsY⟩ := doublePrefix_eq y
    · simp [nanX, nanY]
    · omega
    · omega
    · simp only [numberX, numberY, Bool.or_self, Bool.false_eq_true, if_false, compare_eq_iff_eq]
      omega

def firstBytes : Nat → List UInt8 → Nat
  | 0, _ => 0
  | n + 1, bytes => (bytes.headD 0).toNat * 256 ^ n + firstBytes n bytes.tail

theorem firstBytes_lt (bytes : List UInt8) : firstBytes n bytes < 256 ^ n := by
  induction n generalizing bytes with
  | zero => exact Nat.one_pos
  | succ n ih =>
    have head := (bytes.headD 0).toNat_lt
    have tail := ih bytes.tail
    rw [firstBytes, Nat.pow_succ]
    nlinarith

theorem foldl_bytes (bytes : List UInt8) (bits : Nat) :
    (List.range n).foldl (fun bits k => bits * 256 + (bytes.getD k 0).toNat) bits =
      bits * 256 ^ n + firstBytes n bytes := by
  induction n generalizing bytes bits with
  | zero => simp [firstBytes]
  | succ n ih =>
    have shifted : ∀ k, bytes.getD (k + 1) 0 = bytes.tail.getD k 0 := by
      intro k
      cases bytes <;> rfl
    have head : bytes.getD 0 0 = bytes.headD 0 := by cases bytes <;> rfl
    simp only [List.range_succ_eq_map, List.foldl_cons, List.foldl_map, Nat.succ_eq_add_one,
      shifted, head, ih, firstBytes]
    ring

theorem firstBytes_nil : firstBytes n [] = 0 := by
  induction n with
  | zero => rfl
  | succ n ih => simp [firstBytes, ih]

theorem firstBytes_less {x y : List UInt8} (less : firstBytes n x < firstBytes n y) :
    compare x y = .lt := by
  induction n generalizing x y with
  | zero => exact absurd less (Nat.lt_irrefl _)
  | succ n ih =>
    match x, y with
    | _, [] => simp [firstBytes_nil] at less
    | [], _ :: _ => rfl
    | a :: as, b :: bs =>
      simp only [firstBytes, List.headD_cons, List.tail_cons] at less
      have tailA := firstBytes_lt n as
      rw [List.compare_cons_cons]
      rcases lt_trichotomy a.toNat b.toNat with below | same | above
      · rw [Std.compare_eq_lt.mpr (UInt8.lt_iff_toNat_lt.mpr below)]
        rfl
      · rw [same] at less
        rw [Std.compare_eq_iff_eq.mpr (UInt8.toNat_inj.mp same)]
        exact ih (by omega)
      · have tailB := firstBytes_lt n bs
        nlinarith

theorem binaryPrefix_sound (holds : Value → Prop) :
    PrefixSound ⟨compareBinary, binaryPrefix, false⟩ holds := by
  have bits : ∀ x, binaryPrefix x = firstBytes 8 (asText x) := by
    intro x
    rw [binaryPrefix, foldl_bytes, Nat.zero_mul, Nat.zero_add]
  constructor
  · intro x _
    exact (bits x).trans_lt (firstBytes_lt 8 _)
  · intro x y _ _ less
    simp only [bits] at less
    exact firstBytes_less 8 less
  · intro exact_
    contradiction

theorem orderFor_prefixSound {type : LogicalType} {order : TypeOrder}
    (ordered : orderFor type = some order) :
    PrefixSound order fun x => (toArrow type).Holds x ∧ x ≠ .null := by
  have range : ∀ {bounds}, (toArrow type).range = some bounds →
      ∀ x, (toArrow type).Holds x ∧ x ≠ .null → bounds.1 ≤ asInt x ∧ asInt x < bounds.2 :=
    fun range x held => asInt_range range held.1 held.2
  have narrow : ∀ {bounds : Int × Int}, (toArrow type).range = some bounds →
      -2 ^ 63 ≤ bounds.1 → bounds.2 ≤ 2 ^ 63 →
      ∀ x, (toArrow type).Holds x ∧ x ≠ .null → -2 ^ 63 ≤ asInt x ∧ asInt x < 2 ^ 63 := by
    intro bounds typed lower upper x held
    have := range typed x held
    omega
  cases type with
  | smallInt | integer | bigInt | date | timestamp =>
    cases ordered
    exact signedPrefix_sound (narrow rfl (by decide) (by decide))
  | uSmallInt =>
    cases ordered
    exact uint16Prefix_sound (range rfl)
  | hugeInt =>
    cases ordered
    exact decimalPrefix_sound (range rfl)
  | decimal width scale =>
    rw [orderFor] at ordered
    split at ordered <;> rename_i wide <;> cases ordered
    · have typed : (toArrow (.decimal width scale)).range = some (-2 ^ 63, 2 ^ 63) := by
        rw [toArrow, if_pos wide]
        rfl
      exact signedPrefix_sound (narrow typed le_rfl le_rfl)
    · have typed : (toArrow (.decimal width scale)).range = some (-2 ^ 127, 2 ^ 127) := by
        rw [toArrow, if_neg wide]
        rfl
      exact decimalPrefix_sound (range typed)
  | double =>
    cases ordered
    exact doublePrefix_sound _
  | varchar =>
    cases ordered
    exact binaryPrefix_sound _
  | boolean => contradiction

namespace RowComparator

variable {schema : List ArrowType} {key : BoundKey schema} {a b : Record schema}

/-- A key's order of the values that are not NULL. -/
def directed (key : BoundKey schema) (a b : Record schema) : Ordering :=
  if key.descending then key.order.compare (b.at_ key.column) (a.at_ key.column)
  else key.order.compare (a.at_ key.column) (b.at_ key.column)

instance directed_transCmp (key : BoundKey schema) : Std.TransCmp (directed key) := by
  have values : Std.TransCmp key.order.compare := orderFor_transCmp key.ordered
  have rows : Std.TransCmp fun a b : Record schema =>
      key.order.compare (a.at_ key.column) (b.at_ key.column) :=
    { eq_swap := values.eq_swap, isLE_trans := values.isLE_trans }
  unfold directed
  cases key.descending with
  | false => exact rows
  | true => exact @Std.TransCmp.opposite _ _ rows

theorem compareKey_value (valueA : a.at_ key.column ≠ .null) (valueB : b.at_ key.column ≠ .null) :
    compareKey key a b = directed key a b := by
  have values : Std.TransCmp key.order.compare := orderFor_transCmp key.ordered
  unfold compareKey directed
  split
  · contradiction
  · contradiction
  · contradiction
  · rw [← values.eq_swap]

theorem compareKey_null (nullA : a.at_ key.column = .null) (nullB : b.at_ key.column = .null) :
    compareKey key a b = .eq := by
  rw [compareKey, nullA, nullB]

theorem prefixOf_value (value : a.at_ key.column ≠ .null) :
    prefixOf key a = (1, if key.descending then 2 ^ 64 - 1 - key.order.prefixBits (a.at_ key.column)
      else key.order.prefixBits (a.at_ key.column)) := by
  unfold prefixOf
  split
  · contradiction
  · rfl

theorem prefixOf_null (null : a.at_ key.column = .null) :
    prefixOf key a = (if key.nullsFirst then 0 else 2, 0) := by
  rw [prefixOf, null]

/-- NULL before or after the values, and the values by the key's order. -/
theorem compareKey_eq (key : BoundKey schema) :
    compareKey key = compareLex (compareOn fun row => (prefixOf key row).1) (directed key) := by
  funext a b
  simp only [compareLex, compareOn]
  by_cases nullA : a.at_ key.column = .null <;> by_cases nullB : b.at_ key.column = .null
  · have same : directed key a b = directed key a a := by
      unfold directed
      rw [nullA, nullB]
    have reflexive : directed key a a = .eq := Std.ReflCmp.compare_self
    rw [prefixOf_null nullA, prefixOf_null nullB, same, reflexive, compareKey_null nullA nullB]
    cases key.nullsFirst <;> rfl
  · rw [prefixOf_null nullA, prefixOf_value nullB, compareKey, nullA]
    cases value : b.at_ key.column with
    | null => contradiction
    | _ => cases key.nullsFirst <;> rfl
  · rw [prefixOf_value nullA, prefixOf_null nullB, compareKey, nullB]
    cases value : a.at_ key.column with
    | null => contradiction
    | _ => cases key.nullsFirst <;> rfl
  · rw [prefixOf_value nullA, prefixOf_value nullB, compareKey_value nullA nullB]
    rfl

theorem compareFrom_cons (key : BoundKey schema) (rest : List (BoundKey schema)) :
    compareFrom (key :: rest) = compareLex (compareKey key) (compareFrom rest) := by
  funext a b
  unfold compareLex
  rw [compareFrom]
  cases compareKey key a b <;> rfl

instance compareKey_transCmp (key : BoundKey schema) : Std.TransCmp (compareKey key) := by
  rw [compareKey_eq]
  infer_instance

instance compareFrom_transCmp (keys : List (BoundKey schema)) :
    Std.TransCmp (compareFrom keys) := by
  induction keys with
  | nil => exact { eq_swap := rfl, isLE_trans := fun _ _ => rfl }
  | cons key rest ih =>
    rw [compareFrom_cons]
    infer_instance

instance compare_transCmp (c : RowComparator schema) : Std.TransCmp c.compare :=
  compareFrom_transCmp c.keys

def Before (c : RowComparator schema) (a b : Record schema) : Prop :=
  (c.compare a b).isLE = true

instance (c : RowComparator schema) : DecidableRel c.Before :=
  fun a b => inferInstanceAs (Decidable ((c.compare a b).isLE = true))

instance (c : RowComparator schema) : IsTrans (Record schema) c.Before :=
  ⟨fun _ _ _ => Std.TransCmp.isLE_trans⟩

instance (c : RowComparator schema) : Std.Total c.Before :=
  ⟨fun a b => by
    unfold Before
    rw [(compare_transCmp c).eq_swap (a := b)]
    cases c.compare a b <;> simp⟩

theorem holds_at (key : BoundKey schema) (row : Record schema) :
    (toArrow key.type).Holds (row.at_ key.column) := by
  obtain ⟨inside, typeAt⟩ := List.getElem?_eq_some_iff.mp key.inside
  have inside' : key.column < row.values.length := row.typed.length_eq ▸ inside
  have held := row.typed.get inside inside'
  rw [Record.at_, List.getD_eq_getElem _ _ inside']
  simpa [typeAt] using held

theorem compareKey_of_bits (valueA : a.at_ key.column ≠ .null) (valueB : b.at_ key.column ≠ .null)
    (less : (prefixOf key a).2 < (prefixOf key b).2) : compareKey key a b = .lt := by
  have sound := orderFor_prefixSound key.ordered
  have heldA := And.intro (holds_at key a) valueA
  have heldB := And.intro (holds_at key b) valueB
  have boundB := sound.bound _ heldB
  rw [prefixOf_value valueA, prefixOf_value valueB] at less
  rw [compareKey_value valueA valueB, directed]
  cases descending : key.descending with
  | false =>
    simp only [descending, Bool.false_eq_true, if_false] at less ⊢
    exact sound.less _ _ heldA heldB less
  | true =>
    simp only [descending, if_true] at less ⊢
    exact sound.less _ _ heldB heldA (by omega)

theorem compareKey_of_bits_eq (valueA : a.at_ key.column ≠ .null)
    (valueB : b.at_ key.column ≠ .null) (isExact : key.order.isExact = true)
    (same : (prefixOf key a).2 = (prefixOf key b).2) : compareKey key a b = .eq := by
  have sound := orderFor_prefixSound key.ordered
  have heldA := And.intro (holds_at key a) valueA
  have heldB := And.intro (holds_at key b) valueB
  have boundA := sound.bound _ heldA
  have boundB := sound.bound _ heldB
  rw [prefixOf_value valueA, prefixOf_value valueB] at same
  rw [compareKey_value valueA valueB, directed]
  cases descending : key.descending with
  | false =>
    simp only [descending, Bool.false_eq_true, if_false] at same ⊢
    exact sound.same isExact _ _ heldA heldB same
  | true =>
    simp only [descending, if_true] at same ⊢
    exact sound.same isExact _ _ heldB heldA (by omega)

theorem prefixOf_group : (prefixOf key a).1 = 1 ↔ a.at_ key.column ≠ .null := by
  constructor
  · intro group null
    rw [prefixOf_null null] at group
    cases nulls : key.nullsFirst <;> simp [nulls] at group
  · intro value
    rw [prefixOf_value value]

theorem less_iff (c : RowComparator schema) (a b : Record schema) :
    c.less a b = true ↔ c.compare a b = .lt := by
  unfold less compare keys
  obtain ⟨key, rest⟩ := c
  have decided : compareFrom (key :: rest) a b =
      (compareKey key a b).then (compareFrom rest a b) :=
    congrFun₂ (compareFrom_cons key rest) a b
  simp only [ne_eq, ite_not]
  split_ifs with groups values bits isExact <;> rw [decide_eq_true_eq]
  · have valueA := prefixOf_group.mp values
    have valueB := prefixOf_group.mp (groups ▸ values)
    rw [decided, compareKey_of_bits_eq valueA valueB isExact bits, Ordering.eq_then]
  · have valueA := prefixOf_group.mp values
    have valueB := prefixOf_group.mp (groups ▸ values)
    rcases Nat.lt_or_gt_of_ne bits with below | above
    · simp [decided, compareKey_of_bits valueA valueB below, below]
    · have after : compareKey key a b = .gt :=
        Std.OrientedCmp.gt_of_lt (compareKey_of_bits valueB valueA above)
      simp [decided, after, Nat.le_of_lt above]
  · have nullA : a.at_ key.column = .null := not_not.mp (values ∘ prefixOf_group.mpr)
    have nullB : b.at_ key.column = .null :=
      not_not.mp ((groups ▸ values) ∘ prefixOf_group.mpr)
    rw [decided, compareKey_null nullA nullB, Ordering.eq_then]
  · have first : compareKey key a b =
        (Ord.compare (prefixOf key a).1 (prefixOf key b).1).then (directed key a b) :=
      congrFun₂ (compareKey_eq key) a b
    rw [decided, first]
    rcases Nat.lt_or_gt_of_ne groups with below | above
    · simp [compare_lt_iff_lt.mpr below, below]
    · simp [compare_gt_iff_gt.mpr above, Nat.le_of_lt above]

theorem before_iff (c : RowComparator schema) (a b : Record schema) :
    c.Before a b ↔ ¬c.less b a = true := by
  rw [less_iff, Before, (compare_transCmp c).eq_swap]
  cases c.compare b a <;> simp

end RowComparator

end Antb1.Exec
