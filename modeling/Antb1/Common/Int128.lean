import Antb1.Lib.Digits

/-! 128-bit integers and numbers with a decimal scale: `common/int128.cc`. -/
namespace Antb1

/-- A value of Int128. -/
def InInt128 (x : Int) : Prop := -2 ^ 127 ≤ x ∧ x < 2 ^ 127

instance : DecidablePred InInt128 := fun _ => inferInstanceAs (Decidable (_ ∧ _))

/-- The order of `a / 10 ^ aScale` and `b / 10 ^ bScale`: the one of smaller scale is
multiplied up, and lies beyond the other where it overflows. -/
def compareScaled (a : Int) (aScale : Nat) (b : Int) (bScale : Nat) : Ordering :=
  if aScale < bScale then
    let scaled := a * 10 ^ (bScale - aScale)
    if InInt128 scaled then compare scaled b else if a < 0 then .lt else .gt
  else if bScale < aScale then
    let scaled := b * 10 ^ (aScale - bScale)
    if InInt128 scaled then compare a scaled else if b < 0 then .gt else .lt
  else compare a b

/-- A value at a scale at least its own; none where it overflows. -/
def rescaleUp (value : Int) (source target : Nat) : Option Int :=
  let scaled := value * 10 ^ (target - source)
  if InInt128 scaled then some scaled else none

/-- The digits of a number, the last first; none for 0. -/
def reversedDigits (magnitude : Nat) : List Char :=
  if magnitude = 0 then []
  else Digits.digitChar (magnitude % 10) :: reversedDigits (magnitude / 10)

/-- The unsigned magnitude is taken modulo 2^128, so that the minimum does not overflow. -/
def int128ToString (value : Int) : List Char :=
  if value = 0 then ['0']
  else
    let negative := value < 0
    let magnitude := (if negative then (0 - value % 2 ^ 128) % 2 ^ 128 else value % 2 ^ 128).toNat
    let digits := reversedDigits magnitude
    (if negative then digits ++ ['-'] else digits).reverse

theorem compare_mul_right {a b c : Int} (positive : 0 < c) :
    compare (a * c) (b * c) = compare a b := by
  rcases lt_trichotomy a b with less | same | more
  · rw [compare_lt_iff_lt.mpr less, compare_lt_iff_lt]
    exact Int.mul_lt_mul_of_pos_right less positive
  · rw [same, compare_eq_iff_eq.mpr rfl, compare_eq_iff_eq.mpr rfl]
  · rw [compare_gt_iff_gt.mpr more, compare_gt_iff_gt]
    exact Int.mul_lt_mul_of_pos_right more positive

/-- A product that overflows lies beyond every Int128 on its own side. -/
theorem compare_overflow {scaled b : Int} (beyond : ¬ InInt128 scaled) (held : InInt128 b) :
    compare scaled b = (if scaled < 0 then .lt else .gt) ∧
      compare b scaled = if scaled < 0 then .gt else .lt := by
  unfold InInt128 at beyond held
  split_ifs with negative
  · rw [compare_lt_iff_lt, compare_gt_iff_gt]
    omega
  · rw [compare_gt_iff_gt, compare_lt_iff_lt]
    omega

theorem mul_pow_neg_iff (x : Int) (n : Nat) : x * 10 ^ n < 0 ↔ x < 0 := by
  have power : (0 : Int) < 10 ^ n := by positivity
  constructor
  · exact fun negative => by_contra fun not => not_lt_of_ge
      (Int.mul_nonneg (not_lt.mp not) power.le) negative
  · exact fun negative => Int.mul_neg_of_neg_of_pos negative power

theorem compareScaled_eq {a b : Int} (heldA : InInt128 a) (heldB : InInt128 b)
    (aScale bScale : Nat) :
    compareScaled a aScale b bScale = compare (a * 10 ^ bScale) (b * 10 ^ aScale) := by
  have power : ∀ n, (0 : Int) < 10 ^ n := fun n => by positivity
  have split : ∀ (x : Int) {m n : Nat}, m ≤ n → x * 10 ^ n = x * 10 ^ (n - m) * 10 ^ m := by
    intro x m n le
    rw [Int.mul_assoc, ← Int.pow_add, Nat.sub_add_cancel le]
  dsimp only [compareScaled]
  split_ifs with below fits negative above fits negative
  · rw [split a below.le, compare_mul_right (power _)]
  · rw [split a below.le, compare_mul_right (power _), (compare_overflow fits heldB).1,
      if_pos ((mul_pow_neg_iff a _).mpr negative)]
  · rw [split a below.le, compare_mul_right (power _), (compare_overflow fits heldB).1,
      if_neg (mt (mul_pow_neg_iff a _).mp negative)]
  · rw [split b above.le, compare_mul_right (power _)]
  · rw [split b above.le, compare_mul_right (power _), (compare_overflow fits heldA).2,
      if_pos ((mul_pow_neg_iff b _).mpr negative)]
  · rw [split b above.le, compare_mul_right (power _), (compare_overflow fits heldA).2,
      if_neg (mt (mul_pow_neg_iff b _).mp negative)]
  · rw [show aScale = bScale by omega, compare_mul_right (power _)]

end Antb1
