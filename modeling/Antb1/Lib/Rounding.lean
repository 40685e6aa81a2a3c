import Mathlib.Tactic.Linarith
import Mathlib.Tactic.Positivity
import Mathlib.Tactic.Ring
import Mathlib.Tactic.FieldSimp

/-! Rounding half away from zero, and its computation by two truncating divisions. -/
namespace Antb1.Lib

/-- The nearest integer, the one farther from zero of two that are equally near. -/
structure HalfAway (q : ℚ) (n : ℤ) : Prop where
  nearest : |q - n| ≤ 1 / 2
  away : |q - n| = 1 / 2 → |q| < |(n : ℚ)|

theorem HalfAway.exact (n : ℤ) : HalfAway n n := by
  constructor
  case nearest => norm_num
  case away => norm_num

theorem HalfAway.neg {q : ℚ} {n : ℤ} (rounds : HalfAway q n) : HalfAway (-q) (-n) := by
  have same : |-q - ((-n : ℤ) : ℚ)| = |q - n| := by
    rw [← abs_neg, Int.cast_neg]
    ring_nf
  constructor
  case nearest => exact same ▸ rounds.nearest
  case away =>
    intro tie
    rw [abs_neg, Int.cast_neg, abs_neg]
    exact rounds.away (same ▸ tie)

/-- A quotient between two half integers, the lower one included. -/
theorem HalfAway.of_nonneg {q : ℚ} {n : ℤ} (nonneg : 0 ≤ q) (low : -(1 / 2) ≤ q - n)
    (high : q - n < 1 / 2) : HalfAway q n := by
  constructor
  case nearest => exact abs_le.mpr ⟨low, high.le⟩
  case away =>
    intro tie
    have below : q - n = -(1 / 2) := by
      rcases abs_choice (q - n) with same | same <;> linarith
    rw [abs_of_nonneg nonneg, abs_of_nonneg] <;> linarith

def halfAway (x half : ℤ) : ℤ :=
  let halves := x.tdiv half
  (halves + if halves < 0 then -1 else 1).tdiv 2

theorem halfAway_nonneg {x half : ℤ} (nonneg : 0 ≤ x) (positive : 0 < half) :
    halfAway x half = (x / half + 1) / 2 := by
  have quotient : 0 ≤ x / half := Int.ediv_nonneg nonneg positive.le
  rw [halfAway, Int.tdiv_eq_ediv_of_nonneg nonneg, if_neg quotient.not_gt,
    Int.tdiv_eq_ediv_of_nonneg (by omega)]

theorem halfAway_neg (x half : ℤ) : halfAway (-x) half = -halfAway x half := by
  simp only [halfAway, Int.neg_tdiv]
  generalize x.tdiv half = halves
  rcases lt_trichotomy halves 0 with less | zero | more
  · rw [if_neg (by omega), if_pos less, ← Int.neg_tdiv]
    congr 1
    omega
  · subst zero
    decide
  · rw [if_pos (by omega), if_neg (by omega), ← Int.neg_tdiv]
    congr 1
    omega

theorem halfAway_bounds {x half : ℤ} (nonneg : 0 ≤ x) (positive : 0 < half) :
    (2 * halfAway x half - 1) * half ≤ x ∧ x < (2 * halfAway x half + 1) * half := by
  rw [halfAway_nonneg nonneg positive]
  constructor
  · calc
      _ ≤ x / half * half := Int.mul_le_mul_of_nonneg_right (by omega) positive.le
      _ ≤ x := Int.ediv_mul_le x positive.ne'
  · calc
      x < (x / half + 1) * half := Int.lt_ediv_add_one_mul_self x positive
      _ ≤ _ := Int.mul_le_mul_of_nonneg_right (by omega) positive.le

theorem halfAway_rounds (x : ℤ) {half : ℤ} (positive : 0 < half) :
    HalfAway (x / (2 * half)) (halfAway x half) := by
  have forNonneg : ∀ y : ℤ, 0 ≤ y → HalfAway (y / (2 * half)) (halfAway y half) := by
    intro y nonneg
    have halfQ : (0 : ℚ) < half := by exact_mod_cast positive
    have nonnegQ : (0 : ℚ) ≤ y := by exact_mod_cast nonneg
    obtain ⟨low, high⟩ := halfAway_bounds nonneg positive
    have lowQ : (2 * halfAway y half - 1 : ℚ) * half ≤ y := by exact_mod_cast low
    have highQ : (y : ℚ) < (2 * halfAway y half + 1) * half := by exact_mod_cast high
    apply HalfAway.of_nonneg
    · positivity
    · rw [neg_le_sub_iff_le_add, ← sub_le_iff_le_add, le_div_iff₀ (by positivity)]
      linarith
    · rw [sub_lt_iff_lt_add, div_lt_iff₀ (by positivity)]
      linarith
  rcases le_total 0 x with nonneg | nonpos
  · exact forNonneg x nonneg
  · have rounds := (forNonneg (-x) (by omega)).neg
    rw [halfAway_neg, neg_neg, Int.cast_neg, neg_div, neg_neg] at rounds
    exact rounds

end Antb1.Lib
