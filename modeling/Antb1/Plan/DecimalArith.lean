import Antb1.Plan.TypesProofs

/-! The type of DECIMAL arithmetic (`DecimalArithType` of `plan/binder.cc`): the result's scale
takes both operands', and an operand that needs no rescale has its values among the result's. -/
namespace Antb1.Plan

open LogicalType

variable {type : LogicalType}

def kSmall : Nat := 18

def decimalOf (type : LogicalType) : LogicalType :=
  if type.isDecimal then type else decimalOfInteger type

/-- A width beyond `kSmall` is capped there while both operands have at most that. -/
def capSmall (small : Bool) (width : Nat) : Nat := if width > kSmall && small then kSmall else width

/-- The type of `l <op> r` for `+`, `-`, `*` and `%` with a DECIMAL operand, or the bind error. -/
def decimalArithType (op : ArithOp) (l r : LogicalType) : Except String LogicalType :=
  let a := decimalOf l
  let b := decimalOf r
  let small := a.width ≤ kSmall && b.width ≤ kSmall
  if op = .modulo then
    let scale := max a.scale b.scale
    let width := max (a.width - a.scale) (b.width - b.scale) + scale
    if width > kMaxDecimalWidth then .ok .double
    else .ok (.decimal (min width kMaxDecimalWidth) scale)
  else if op = .multiply then
    let scale := a.scale + b.scale
    if scale > kMaxDecimalWidth then
      .error (s!"Needed scale {scale} to accurately represent the multiplication result, but " ++
        "this is out of range of the DECIMAL type. Max scale is 38; could not perform an accurate " ++
        "multiplication. Either add a cast to DOUBLE, or add an explicit cast to a decimal with " ++
        "a lower scale.")
    else
      .ok (.decimal (min (capSmall (small && scale < kSmall) (a.width + b.width))
        kMaxDecimalWidth) scale)
  else
    let scale := max a.scale b.scale
    let width := max (a.width - a.scale) (b.width - b.scale) + scale + 1
    .ok (.decimal (min (capSmall small width) kMaxDecimalWidth) scale)

theorem exactNumber_cases (exact : type.isExactNumber = true) :
    type.isInteger = true ∨ ∃ width scale, type = .decimal width scale := by
  rcases Bool.or_eq_true _ _ ▸ exact with integer | decimal
  · exact .inl integer
  · exact .inr (decimal_cases decimal)

theorem decimalOf_scale (exact : type.isExactNumber = true) :
    (decimalOf type).scale = type.scale := by
  rcases exactNumber_cases exact with integer | ⟨width, scale, rfl⟩
  · rcases integer_cases integer with rfl | rfl | rfl | rfl | rfl <;> rfl
  · rfl

theorem decimalOf_valid (exact : type.isExactNumber = true) (valid : type.Valid) :
    1 ≤ (decimalOf type).width ∧ (decimalOf type).width ≤ kMaxDecimalWidth ∧
      (decimalOf type).scale ≤ (decimalOf type).width := by
  rcases exactNumber_cases exact with integer | ⟨width, scale, rfl⟩
  · rcases integer_cases integer with rfl | rfl | rfl | rfl | rfl <;> decide
  · exact valid

theorem decimal_holds (width scale : Nat) (x : Int) :
    (rangeOf (.decimal width scale)).Holds x ↔ -(10 ^ width - 1) ≤ x ∧ x ≤ 10 ^ width - 1 :=
  Iff.rfl

theorem decimal_holds_mono {width wider : Nat} (le : width ≤ wider) (scale other : Nat) {x : Int}
    (held : (rangeOf (.decimal width scale)).Holds x) :
    (rangeOf (.decimal wider other)).Holds x := by
  have power : (10 : Int) ^ width ≤ 10 ^ wider := by exact_mod_cast Nat.pow_le_pow_right (by decide) le
  rw [decimal_holds] at held ⊢
  omega

/-- The values of an exact number are those of the DECIMAL it is computed in. -/
theorem decimalOf_holds (exact : type.isExactNumber = true) (scale : Nat) {x : Int}
    (held : (rangeOf type).Holds x) :
    (rangeOf (.decimal (decimalOf type).width scale)).Holds x := by
  rcases exactNumber_cases exact with integer | ⟨width, scale, rfl⟩
  · rcases integer_cases integer with rfl | rfl | rfl | rfl | rfl <;>
      · simp only [IntegerRange.Holds, rangeOf] at held
        rw [decimal_holds]
        simp only [decimalOf, isDecimal, decimalOfInteger, Bool.false_eq_true, if_false, width,
          kMaxDecimalWidth]
        omega
  · exact held

/-- What the rule gives an operation other than `*`, from its DECIMAL operands. -/
structure Aligned (operand result : LogicalType) : Prop where
  decimal : result.isDecimal
  scale_le : operand.scale ≤ result.scale
  /-- An operand of the result's own scale is among its values. -/
  nested : operand.scale = result.scale → ∀ x, (rangeOf operand).Holds x → (rangeOf result).Holds x

theorem capSmall_ge {small : Bool} {width least : Nat} (least_le : least ≤ width)
    (atMost : small = true → least ≤ kSmall) : least ≤ capSmall small width := by
  unfold capSmall
  split
  case isTrue is => exact atMost (Bool.and_eq_true _ _ ▸ is).2
  case isFalse => exact least_le

/-- The scale of the result and the digits each operand keeps. -/
theorem aligned_of_width {operand : LogicalType} {width scale : Nat}
    (exact : operand.isExactNumber = true) (scale_le : operand.scale ≤ scale)
    (wide : operand.scale = scale → (decimalOf operand).width ≤ width) :
    Aligned operand (.decimal width scale) where
  decimal := rfl
  scale_le := scale_le
  nested same _ held := decimal_holds_mono (wide same) scale scale (decimalOf_holds exact scale held)

/-- Both operands of `+`, `-` and a DECIMAL `%` align with the result. -/
theorem decimalArithType_aligned {op : ArithOp} {l r result : LogicalType}
    (exactL : l.isExactNumber = true) (exactR : r.isExactNumber = true) (validL : l.Valid)
    (validR : r.Valid) (typed : decimalArithType op l r = .ok result) (other : op ≠ .multiply)
    (decimal : result.isDecimal = true) :
    Aligned l result ∧ Aligned r result := by
  obtain ⟨someL, maxL, scaleL⟩ := decimalOf_valid exactL validL
  obtain ⟨someR, maxR, scaleR⟩ := decimalOf_valid exactR validR
  have sameL := decimalOf_scale exactL
  have sameR := decimalOf_scale exactR
  unfold decimalArithType at typed
  dsimp only at typed
  by_cases isModulo : op = .modulo
  · rw [if_pos isModulo] at typed
    split at typed
    · cases typed
      cases decimal
    · cases typed
      constructor
      · exact aligned_of_width exactL (by omega) (by omega)
      · exact aligned_of_width exactR (by omega) (by omega)
  rw [if_neg isModulo, if_neg other] at typed
  cases typed
  constructor
  · apply aligned_of_width exactL (by omega)
    intro same
    refine le_min (capSmall_ge (by omega) fun small => ?_) maxL
    exact of_decide_eq_true (Bool.and_eq_true _ _ ▸ small).1
  · apply aligned_of_width exactR (by omega)
    intro same
    refine le_min (capSmall_ge (by omega) fun small => ?_) maxR
    exact of_decide_eq_true (Bool.and_eq_true _ _ ▸ small).2

theorem decimalArithType_product {l r result : LogicalType} (exactL : l.isExactNumber = true)
    (exactR : r.isExactNumber = true) (typed : decimalArithType .multiply l r = .ok result) :
    result.isDecimal = true ∧ result.scale = l.scale + r.scale := by
  unfold decimalArithType at typed
  dsimp only at typed
  rw [if_neg (by decide), if_pos rfl] at typed
  split at typed
  case isTrue => cases typed
  cases typed
  exact ⟨rfl, by rw [decimal_scale, decimalOf_scale exactL, decimalOf_scale exactR]⟩

end Antb1.Plan
