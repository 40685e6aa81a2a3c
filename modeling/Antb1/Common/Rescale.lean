import Antb1.Common.Checked
import Antb1.Lib.Results
import Antb1.Lib.Rounding

/-! A decimal number at another scale: `Rescale` of `common/int128.cc`. -/
namespace Antb1

open Lib

/-- Half of `value` over `half`, rounded: the steps of `Rescale` to a smaller scale. -/
def rescaleDown (value half : Int) : Except Overflow Int := do
  let halves ← int128 (value.tdiv half)
  let next ← int128 (halves + if halves < 0 then -1 else 1)
  int128 (next.tdiv 2)

/-- `Rescale`: none where the value overflows at a larger scale. -/
def rescale (value : Int) (source target : Nat) : Except Overflow (Option Int) :=
  if source ≤ target then .ok (rescaleUp value source target)
  else (rescaleDown value (10 ^ (source - target) / 2)).map some

theorem rescaleDown_eq {value half : Int} (held : InInt128 value) (large : 2 ≤ half) :
    rescaleDown value half = .ok (halfAway value half) := by
  have small := natAbs_tdiv_le_half (x := value) large
  unfold InInt128 at held
  have next : InInt128 (value.tdiv half + if value.tdiv half < 0 then -1 else 1) := by
    unfold InInt128
    split <;> omega
  have halved := natAbs_tdiv_le_half (k := 2)
    (x := value.tdiv half + if value.tdiv half < 0 then -1 else 1) le_rfl
  rw [rescaleDown, int128_ok ⟨by omega, by omega⟩, ok_bind, int128_ok next, ok_bind]
  apply int128_ok
  unfold InInt128 at next ⊢
  omega

theorem half_power (n : Nat) : (10 : Int) ^ (n + 1) / 2 = 5 * 10 ^ n := by
  rw [Int.pow_succ]
  omega

theorem rescale_down {value : Int} {source target : Nat} (held : InInt128 value)
    (less : target < source) :
    rescale value source target = .ok (some (halfAway value (10 ^ (source - target) / 2))) := by
  obtain ⟨n, exact⟩ : ∃ n, source - target = n + 1 := ⟨source - target - 1, by omega⟩
  have positive : (0 : Int) < 10 ^ n := by positivity
  rw [rescale, if_neg less.not_ge, rescaleDown_eq held]
  · rfl
  · rw [exact, half_power]
    omega

theorem rescale_defined {value : Int} (source target : Nat) (held : InInt128 value) :
    ∃ y, rescale value source target = .ok y := by
  rcases le_or_gt source target with le | less
  · exact ⟨_, if_pos le⟩
  · exact ⟨_, rescale_down held less⟩

/-- A value at another scale is the number, rounded where the scale is smaller. -/
theorem rescale_rounds {value y : Int} {source target : Nat} (held : InInt128 value)
    (rescaled : rescale value source target = .ok (some y)) :
    HalfAway ((value : ℚ) / 10 ^ source * 10 ^ target) y := by
  rcases le_or_gt source target with le | less
  · rw [rescale, if_pos le, rescaleUp] at rescaled
    split at rescaled
    case isFalse => cases rescaled
    cases rescaled
    obtain ⟨n, rfl⟩ := Nat.exists_eq_add_of_le le
    have exact := HalfAway.exact (value * 10 ^ n)
    rw [Nat.add_sub_cancel_left, pow_add, div_mul_eq_mul_div, mul_div_assoc,
      mul_div_cancel_left₀ _ (by positivity)]
    exact_mod_cast exact
  · rw [rescale_down held less] at rescaled
    cases rescaled
    obtain ⟨n, rfl⟩ := Nat.exists_eq_add_of_lt less
    have rounds := halfAway_rounds value (show (0 : Int) < 5 * 10 ^ n by positivity)
    rw [show target + n + 1 - target = n + 1 by omega, half_power]
    convert rounds using 1
    push_cast
    field_simp
    ring

/-- The order of two quotients, from their numerators over a common denominator. -/
theorem compare_div (a b : Int) (s t : Nat) :
    compare ((a : ℚ) / 10 ^ s) (b / 10 ^ t) = compare (a * 10 ^ t) (b * 10 ^ s) := by
  have less : ∀ (x y : Int) (m n : Nat),
      (x : ℚ) / 10 ^ m < y / 10 ^ n ↔ x * 10 ^ n < y * 10 ^ m := by
    intro x y m n
    rw [div_lt_div_iff₀ (by positivity) (by positivity)]
    exact_mod_cast Iff.rfl
  rcases lt_trichotomy (a * 10 ^ t) (b * 10 ^ s) with below | same | above
  · rw [compare_lt_iff_lt.mpr below, compare_lt_iff_lt]
    exact (less a b s t).mpr below
  · rw [compare_eq_iff_eq.mpr same, compare_eq_iff_eq, div_eq_div_iff (by positivity)
      (by positivity)]
    exact_mod_cast same
  · rw [compare_gt_iff_gt.mpr above, compare_gt_iff_gt]
    exact (less b a t s).mpr above

/-- `CompareScaled` is the order of the two numbers, and `Rescale` gives the number exactly or
rounded; the source's powers of ten end at 38. -/
theorem scaled_exact {a b : Int} (heldA : InInt128 a) (heldB : InInt128 b) (s t : Nat) :
    compareScaled a s b t = compare ((a : ℚ) / 10 ^ s) (b / 10 ^ t) ∧
      (s ≤ t → rescale a s t =
        .ok (if InInt128 (a * 10 ^ (t - s)) then some (a * 10 ^ (t - s)) else none)) ∧
      (t < s → ∃ y, rescale a s t = .ok (some y) ∧ HalfAway ((a : ℚ) / 10 ^ (s - t)) y) := by
  refine ⟨?_, fun le => if_pos le, fun less => ⟨_, rescale_down heldA less, ?_⟩⟩
  · rw [compareScaled_eq heldA heldB, compare_div]
  · have rounds := rescale_rounds heldA (rescale_down heldA less)
    have power : (10 : ℚ) ^ s = 10 ^ (s - t) * 10 ^ t := by
      rw [← pow_add, Nat.sub_add_cancel less.le]
    rwa [power, div_mul_eq_mul_div, mul_div_mul_right _ _ (by positivity)] at rounds

/-- The minimum at the largest scale, against the maximum and rounded to no fraction digit. -/
theorem scaled_exact_minimum :
    compareScaled (-2 ^ 127) 38 (2 ^ 127 - 1) 0 =
        compare (((-2 ^ 127 : Int) : ℚ) / 10 ^ 38) (((2 ^ 127 - 1 : Int) : ℚ) / 10 ^ 0) ∧
      ∃ y, rescale (-2 ^ 127) 38 0 = .ok (some y) ∧
        HalfAway (((-2 ^ 127 : Int) : ℚ) / 10 ^ 38) y := by
  obtain ⟨compared, _, rounded⟩ := scaled_exact (a := -2 ^ 127) (b := 2 ^ 127 - 1)
    (by decide) (by decide) 38 0
  exact ⟨compared, rounded (by decide)⟩

end Antb1
