import Antb1.Common.Int128

/-! Steps of machine arithmetic: signed overflow is undefined in the source's language, so a step
beyond its type has no result. -/
namespace Antb1

inductive Overflow where
  | int64
  | int128
  deriving DecidableEq, Repr

/-- A value of int64_t. -/
def InInt64 (x : Int) : Prop := -2 ^ 63 ≤ x ∧ x < 2 ^ 63

instance : DecidablePred InInt64 := fun _ => inferInstanceAs (Decidable (_ ∧ _))

/-- The result of a step on int64_t. -/
def int64 (x : Int) : Except Overflow Int := if InInt64 x then .ok x else .error .int64

/-- The result of a step on Int128. -/
def int128 (x : Int) : Except Overflow Int := if InInt128 x then .ok x else .error .int128

theorem int64_ok {x : Int} (held : InInt64 x) : int64 x = .ok x := if_pos held

theorem int64_held {x y : Int} (ok : int64 x = .ok y) : InInt64 x := by
  by_contra beyond
  rw [int64, if_neg beyond] at ok
  cases ok

theorem int128_ok {x : Int} (held : InInt128 x) : int128 x = .ok x := if_pos held

theorem natAbs_tdiv_le_half {x k : Int} (large : 2 ≤ k) : 2 * (x.tdiv k).natAbs ≤ x.natAbs := by
  have bound : x.natAbs / k.natAbs ≤ x.natAbs / 2 := Nat.div_le_div_left (by omega) (by decide)
  rw [Int.natAbs_tdiv]
  change 2 * (x.natAbs / k.natAbs) ≤ _
  omega

end Antb1
