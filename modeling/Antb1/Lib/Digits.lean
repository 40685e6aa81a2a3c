import Mathlib.Data.List.Induction
import Mathlib.Tactic.Ring
import Mathlib.Tactic.Linarith

/-! The value of a string of decimal digits: how it splits, its bounds, and leading zeros; and the
digits of a number, padded with zeros. -/
namespace Digits

open List

variable {digits xs ys : List Char}

def digit (c : Char) : Nat := c.toNat - '0'.toNat

def value (digits : List Char) : Nat := digits.foldl (fun n c => n * 10 + digit c) 0

def Decimal (digits : List Char) : Prop := ∀ c ∈ digits, c.isDigit = true

theorem digit_le {c : Char} (isDigit : c.isDigit = true) : digit c ≤ 9 := by
  simp only [Char.isDigit, Bool.and_eq_true, decide_eq_true_eq, ge_iff_le,
    UInt32.le_iff_toNat_le] at isDigit
  have most : c.toNat ≤ 57 := isDigit.2
  have zero : '0'.toNat = 48 := rfl
  rw [digit]
  omega

theorem digit_eq_zero {c : Char} (isDigit : c.isDigit = true) : digit c = 0 ↔ c = '0' := by
  simp only [Char.isDigit, Bool.and_eq_true, decide_eq_true_eq, ge_iff_le,
    UInt32.le_iff_toNat_le] at isDigit
  have least : 48 ≤ c.toNat := isDigit.1
  have zero : '0'.toNat = 48 := rfl
  rw [digit, ← Char.toNat_inj, zero]
  omega

theorem digit_injective {c d : Char} (isDigit : c.isDigit = true) (isDigit' : d.isDigit = true)
    (same : digit c = digit d) : c = d := by
  simp only [Char.isDigit, Bool.and_eq_true, decide_eq_true_eq, ge_iff_le,
    UInt32.le_iff_toNat_le] at isDigit isDigit'
  have least : 48 ≤ c.toNat := isDigit.1
  have least' : 48 ≤ d.toNat := isDigit'.1
  have zero : '0'.toNat = 48 := rfl
  rw [digit, digit, zero] at same
  rw [← Char.toNat_inj]
  omega

theorem value_concat (xs : List Char) (c : Char) : value (xs ++ [c]) = value xs * 10 + digit c := by
  simp [value]

/-- A checked reading of digits, one at a time, gives their value where no step fails up to it. -/
theorem foldlM_value {Failure α : Type} {step : α → Char → Except Failure α} {of : Nat → α}
    (each : ∀ c ∈ digits, ∀ n, n * 10 + digit c ≤ value digits →
      step (of n) c = .ok (of (n * 10 + digit c))) :
    digits.foldlM step (of 0) = .ok (of (value digits)) := by
  induction digits using List.reverseRecOn with
  | nil => rfl
  | append_singleton xs c ih =>
    rw [forall_mem_append, forall_mem_singleton, value_concat] at each
    have before := ih fun d member n le => each.1 d member n (by omega)
    rw [foldlM_append, before, value_concat]
    change step (of (value xs)) c >>= pure = _
    rw [each.2 _ le_rfl]
    rfl

theorem value_append (xs ys : List Char) :
    value (xs ++ ys) = value xs * 10 ^ ys.length + value ys := by
  have more : ∀ (ys : List Char) (n : Nat), ys.foldl (fun n c => n * 10 + digit c) n =
      n * 10 ^ ys.length + value ys := by
    intro ys
    induction ys using List.reverseRecOn with
    | nil => simp [value]
    | append_singleton ys c ih =>
      intro n
      rw [foldl_append, foldl_cons, foldl_nil, ih, value_concat, length_append,
        length_singleton, pow_succ]
      ring
  rw [value, foldl_append, more]
  rfl

theorem value_cons (c : Char) (rest : List Char) :
    value (c :: rest) = digit c * 10 ^ rest.length + value rest := by
  have split := value_append [c] rest
  simpa [value] using split

theorem value_lt (decimal : Decimal digits) : value digits < 10 ^ digits.length := by
  induction digits with
  | nil => simp [value]
  | cons c rest ih =>
    have below := ih fun d member => decimal d (mem_cons_of_mem _ member)
    have most := digit_le (decimal c mem_cons_self)
    rw [value_cons, length_cons, pow_succ]
    have scaled := Nat.mul_le_mul_right (10 ^ rest.length) most
    omega

/-- The first digit of a number without leading zeros gives its order of magnitude. -/
theorem le_value {c : Char} {rest : List Char} (isDigit : c.isDigit = true) (nonzero : c ≠ '0') :
    10 ^ rest.length ≤ value (c :: rest) := by
  have positive : 1 ≤ digit c :=
    Nat.one_le_iff_ne_zero.mpr fun zero => nonzero ((digit_eq_zero isDigit).mp zero)
  have scaled := Nat.mul_le_mul_right (10 ^ rest.length) positive
  rw [value_cons]
  omega

theorem value_dropWhile_zero (digits : List Char) :
    value (digits.dropWhile (· = '0')) = value digits := by
  induction digits with
  | nil => rfl
  | cons c rest ih =>
    rw [dropWhile_cons]
    split_ifs with isZero
    · rw [ih, value_cons, of_decide_eq_true isZero]
      simp [digit]
    · rfl

theorem value_eq_zero (decimal : Decimal digits) : value digits = 0 ↔ ∀ c ∈ digits, c = '0' := by
  induction digits with
  | nil => simp [value]
  | cons c rest ih =>
    rw [value_cons, Nat.add_eq_zero_iff, Nat.mul_eq_zero,
      ih fun d member => decimal d (mem_cons_of_mem _ member), forall_mem_cons,
      or_iff_left (pow_ne_zero _ (by decide)), digit_eq_zero (decimal c mem_cons_self)]

theorem Decimal.append (left : Decimal xs) (right : Decimal ys) :
    Decimal (xs ++ ys) := forall_mem_append.mpr ⟨left, right⟩

theorem Decimal.sublist (decimal : Decimal ys) (sub : xs.Sublist ys) :
    Decimal xs := fun c member => decimal c (sub.subset member)

theorem value_injective (left : Decimal xs) (right : Decimal ys) (length : xs.length = ys.length)
    (same : value xs = value ys) : xs = ys := by
  induction xs generalizing ys with
  | nil => exact (length_eq_zero_iff.mp length.symm).symm
  | cons c rest ih =>
    cases ys with
    | nil => cases length
    | cons d others =>
      have length' : rest.length = others.length := Nat.succ.inj length
      have below := value_lt fun x member => left x (mem_cons_of_mem _ member)
      have below' := value_lt fun x member => right x (mem_cons_of_mem _ member)
      rw [value_cons, value_cons, ← length'] at same
      rw [← length'] at below'
      have first : digit c = digit d := by
        have positive : 0 < 10 ^ rest.length := by positivity
        have quotient : ∀ a b, b < 10 ^ rest.length →
            (a * 10 ^ rest.length + b) / 10 ^ rest.length = a := by
          intro a b small
          rw [Nat.mul_comm, Nat.mul_add_div positive, Nat.div_eq_of_lt small, Nat.add_zero]
        rw [← quotient (digit c) _ below, same, quotient _ _ below']
      rw [first] at same
      rw [digit_injective (left c mem_cons_self) (right d mem_cons_self) first,
        ih (fun x member => left x (mem_cons_of_mem _ member))
          (fun x member => right x (mem_cons_of_mem _ member)) length' (by omega)]

def digitChar (n : Nat) : Char := Char.ofNat ('0'.toNat + n)

def text (n : Nat) : List Char :=
  if n < 10 then [digitChar n] else text (n / 10) ++ [digitChar (n % 10)]

/-- At least `width` digits. -/
def padded (width n : Nat) : List Char := List.replicate (width - (text n).length) '0' ++ text n

theorem digitChar_spec {n : Nat} (small : n < 10) :
    (digitChar n).isDigit = true ∧ digit (digitChar n) = n := by
  revert n
  decide

theorem text_spec (n : Nat) : Decimal (text n) ∧ value (text n) = n := by
  induction n using text.induct with
  | case1 n small =>
    obtain ⟨isDigit, isValue⟩ := digitChar_spec small
    rw [text, if_pos small]
    refine ⟨fun c member => mem_singleton.mp member ▸ isDigit, ?_⟩
    simpa [value] using isValue
  | case2 n large ih =>
    obtain ⟨isDigit, isValue⟩ := digitChar_spec (Nat.mod_lt n (by decide))
    rw [text, if_neg large, value_append, ih.2]
    refine ⟨ih.1.append fun c member => mem_singleton.mp member ▸ isDigit, ?_⟩
    have last : value [digitChar (n % 10)] = n % 10 := by simpa [value] using isValue
    rw [last, length_singleton]
    omega

theorem text_length {n width : Nat} (positive : 0 < width) (small : n < 10 ^ width) :
    (text n).length ≤ width := by
  induction n using text.induct generalizing width with
  | case1 n less =>
    rw [text, if_pos less]
    exact positive
  | case2 n large ih =>
    obtain ⟨w, rfl⟩ : ∃ w, width = w + 1 := ⟨width - 1, by omega⟩
    have wide : 0 < w := by
      rcases Nat.eq_zero_or_pos w with rfl | wide
      · simp at small
        omega
      · exact wide
    rw [text, if_neg large, length_append, length_singleton]
    have fewer := ih wide (by rw [pow_succ] at small; omega)
    omega

theorem padded_spec (width n : Nat) : Decimal (padded width n) ∧ value (padded width n) = n := by
  obtain ⟨decimal, isValue⟩ := text_spec n
  have zeros : Decimal (List.replicate (width - (text n).length) '0') := by
    intro c member
    rw [eq_of_mem_replicate member]
    rfl
  have nothing := (value_eq_zero zeros).mpr fun c member => eq_of_mem_replicate member
  refine ⟨zeros.append decimal, ?_⟩
  rw [padded, value_append, nothing, isValue]
  omega

theorem padded_length {width n : Nat} (positive : 0 < width) (small : n < 10 ^ width) :
    (padded width n).length = width := by
  have fits := text_length positive small
  rw [padded, length_append, length_replicate]
  omega

theorem padded_value (decimal : Decimal digits) (nonempty : digits ≠ []) :
    padded digits.length (value digits) = digits := by
  obtain ⟨isDecimal, isValue⟩ := padded_spec digits.length (value digits)
  exact value_injective isDecimal decimal
    (padded_length (length_pos_iff.mpr nonempty) (value_lt decimal)) isValue

end Digits
