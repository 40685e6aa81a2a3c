import Antb1.Exec.DecimalArithProofs

/-! Evaluation over whole columns, one operation after the other, by what it does to each row: the
columns it computes hold every row's exact value, and it fails exactly where a constant does not fit
or an operation of some row goes beyond its type. -/
namespace Antb1.Exec.Decimal

open Lib Plan

variable {expr : Expr}

namespace Evaluator

variable (evaluator : Evaluator)

/-- What a row reads of an expression that is no operation of the tree. -/
def leafValues (expr : Expr) : Option Values :=
  match evaluator.reused expr with
  | some values => some (.array values)
  | none =>
    match unscaledConstant expr with
    | some value => some (.scalar value)
    | none =>
      match expr with
      | .column column type =>
        if type.isDecimal then (evaluator.columnValues column).map .array else none
      | _ => none

/-- A tree of DECIMAL `+`, `-` and `*` over columns, constants and earlier expressions. -/
inductive Tree : Expr → Prop where
  | leaf {expr : Expr} {values : Values} (isLeaf : evaluator.leafValues expr = some values) :
      Tree expr
  | arith {op : ArithOp} {left right : Expr} {type : LogicalType}
      (inner : evaluator.leafValues (.arith op left right type) = none)
      (decimal : type.isDecimal = true) (among : op ∈ [.add, .subtract, .multiply])
      (isLeft : Tree left) (isRight : Tree right) : Tree (.arith op left right type)

/-- The exact value of a tree in a row, NULL where it reads one. -/
def value (row : Nat) : Expr → Option Int
  | .arith op left right type =>
    match evaluator.leafValues (.arith op left right type) with
    | some values => values.at row
    | none => rowValue op left.type right.type type (value row left) (value row right)
  | expr => (evaluator.leafValues expr).bind (·.at row)

def Overflows (row : Nat) : Expr → Prop
  | .arith op left right type =>
    evaluator.leafValues (.arith op left right type) = none ∧
      (Overflows row left ∨ Overflows row right ∨
        Beyond op left.type right.type type (evaluator.value row left) (evaluator.value row right))
  | _ => False

def OverflowsPresent (row : Nat) (expr : Expr) : Prop :=
  (evaluator.value row expr).isSome = true ∧ evaluator.Overflows row expr

/-- Some operation of a tree has a constant, and one only, that does not fit its scale. -/
def Misfit : Expr → Prop
  | .arith op left right type =>
    evaluator.leafValues (.arith op left right type) = none ∧
      (Misfit left ∨ Misfit right ∨ ConstantUnfit op left right type ∨
        ConstantUnfit op right left type)
  | _ => False

/-- The types the binder gives a tree, columns with any values they can hold, and constants within
their types. -/
def Typed : Expr → Prop
  | .arith op left right type => type.isExactNumber = true ∧ type.Valid ∧
      (type.isDecimal = true → Typed left ∧ Typed right ∧
        decimalArithType op left.type right.type = .ok type)
  | .constant constant type => type.isExactNumber = true ∧ type.Valid ∧
      ∀ x, constant.value = .int x → (rangeOf type).Holds x
  | .column column type => type.isExactNumber = true ∧ type.Valid ∧
      ∀ values, evaluator.columnValues column = some values →
        HeldColumn evaluator.numRows type values
  | expr => expr.type.isExactNumber = true ∧ expr.type.Valid

/-- What the values of an earlier DECIMAL expression are known to be: values of a column, of the
type where it is an operation, and a constant in every row. -/
structure Earlier (done : ComputedExpr) : Prop where
  held : HeldColumn evaluator.numRows done.expr.type done.values
  inRange : done.expr.isArith = true →
    ∀ x, some x ∈ done.values → (rangeOf done.expr.type).Holds x
  constant : ∀ value, unscaledConstant done.expr = some value →
    done.values = List.replicate evaluator.numRows (some value)

def EarlierAll : Prop := ∀ done ∈ evaluator.computed, done.expr.type.isDecimal = true →
  evaluator.Earlier done

end Evaluator

section Leaves

variable {evaluator : Evaluator}

theorem Evaluator.Typed.exact (typed : evaluator.Typed expr) :
    expr.type.isExactNumber = true ∧ expr.type.Valid := by
  cases expr with
  | arith _ _ _ _ => exact ⟨typed.1, typed.2.1⟩
  | constant _ _ => exact ⟨typed.1, typed.2.1⟩
  | column _ _ => exact ⟨typed.1, typed.2.1⟩
  | _ => exact typed

theorem unscaledConstant_eq {value : Int} (isConstant : unscaledConstant expr = some value) :
    ∃ s type, expr = .constant ⟨s, .int value⟩ type := by
  unfold unscaledConstant at isConstant
  split at isConstant
  · split at isConstant
    · cases isConstant
      exact ⟨_, _, rfl⟩
    · cases isConstant
  · cases isConstant

theorem reused_earlier (earlier : evaluator.EarlierAll) {values : Column}
    (isReused : evaluator.reused expr = some values) :
    expr.type.isDecimal = true ∧ HeldColumn evaluator.numRows expr.type values ∧
      (expr.isArith = true → ∀ x, some x ∈ values → (rangeOf expr.type).Holds x) ∧
      ∀ value, unscaledConstant expr = some value →
        values = List.replicate evaluator.numRows (some value) := by
  unfold Evaluator.reused at isReused
  split at isReused
  case isFalse => cases isReused
  case isTrue decimal =>
    obtain ⟨done, found, rfl⟩ := Option.map_eq_some_iff.mp isReused
    have same := List.find?_some found
    have type := same_type same
    have known := earlier done (List.mem_of_find?_eq_some found) (type ▸ decimal)
    refine ⟨decimal, type ▸ known.held, fun isArith => ?_, fun value isConstant => ?_⟩
    · rw [← type]
      exact known.inRange ((same_isArith same).trans isArith)
    · obtain ⟨s, t, rfl⟩ := unscaledConstant_eq isConstant
      exact known.constant value (same_constant same ▸ isConstant)

end Leaves

/-- What is known of a tree that is computed: its constants fit, and each row is the tree's. -/
def Evaluator.known (evaluator : Evaluator) (expr : Expr) : Knowledge where
  whole := ¬evaluator.Misfit expr
  Row := fun row out => ¬evaluator.Overflows row expr ∧ out = evaluator.value row expr

/-- A computed tree: values its type's column can hold, and every row's own. -/
abbrev Computes (evaluator : Evaluator) (expr : Expr) : Column → Prop :=
  EachRow evaluator.numRows expr.type (evaluator.known expr)

/-- Why a tree fails: a constant, or a row of it. -/
def SomeFails (evaluator : Evaluator) (expr : Expr) : Prop :=
  evaluator.Misfit expr ∨ ∃ row < evaluator.numRows, evaluator.Overflows row expr

section Node

variable {evaluator : Evaluator} {op : ArithOp} {left right : Expr} {type : LogicalType}
  {values : Values}

theorem value_leaf (isLeaf : evaluator.leafValues expr = some values) (row : Nat) :
    evaluator.value row expr = values.at row := by
  unfold Evaluator.value
  split
  · rw [isLeaf]
  · rw [isLeaf]
    rfl

theorem value_arith (inner : evaluator.leafValues (.arith op left right type) = none) (row : Nat) :
    evaluator.value row (.arith op left right type) = rowValue op left.type right.type type
      (evaluator.value row left) (evaluator.value row right) := by
  rw [Evaluator.value, inner]

theorem not_overflows_leaf (isLeaf : evaluator.leafValues expr = some values) (row : Nat) :
    ¬evaluator.Overflows row expr := by
  cases expr with
  | arith op left right type =>
    rintro ⟨inner, -⟩
    rw [inner] at isLeaf
    cases isLeaf
  | _ => exact id

theorem not_overflows_arith {row : Nat} (keptLeft : ¬evaluator.Overflows row left)
    (keptRight : ¬evaluator.Overflows row right)
    (kept : ¬Beyond op left.type right.type type (evaluator.value row left)
      (evaluator.value row right)) : ¬evaluator.Overflows row (.arith op left right type) := by
  rintro ⟨-, overflows | overflows | beyond⟩
  · exact keptLeft overflows
  · exact keptRight overflows
  · exact kept beyond

theorem not_misfit_leaf (isLeaf : evaluator.leafValues expr = some values) :
    ¬evaluator.Misfit expr := by
  cases expr with
  | arith op left right type =>
    rintro ⟨inner, -⟩
    rw [inner] at isLeaf
    cases isLeaf
  | _ => exact id

theorem leafValues_constant (earlier : evaluator.EarlierAll) {v : Int}
    (isConstant : unscaledConstant expr = some v) : ∃ values,
      evaluator.leafValues expr = some values ∧
        ∀ row < evaluator.numRows, values.at row = some v := by
  unfold Evaluator.leafValues
  cases isReused : evaluator.reused expr with
  | some values =>
    refine ⟨.array values, rfl, fun row bound => ?_⟩
    rw [(reused_earlier earlier isReused).2.2.2 v isConstant]
    exact List.getD_replicate _ bound
  | none =>
    refine ⟨.scalar v, ?_, fun _ _ => rfl⟩
    rw [isConstant]

theorem constant_holds (typed : evaluator.Typed expr) {v : Int}
    (isConstant : unscaledConstant expr = some v) : (rangeOf expr.type).Holds v := by
  obtain ⟨s, t, rfl⟩ := unscaledConstant_eq isConstant
  exact typed.2.2 v rfl

theorem constant_known (earlier : evaluator.EarlierAll) (typed : evaluator.Typed expr) {v : Int}
    (isConstant : unscaledConstant expr = some v) :
    (rangeOf expr.type).Holds v ∧ (evaluator.known expr).whole ∧
      ∀ row < evaluator.numRows, (evaluator.known expr).Row row (some v) := by
  obtain ⟨values, isLeaf, rows⟩ := leafValues_constant earlier isConstant
  refine ⟨constant_holds typed isConstant, not_misfit_leaf isLeaf, fun row bound => ?_⟩
  exact ⟨not_overflows_leaf isLeaf row, ((value_leaf isLeaf row).trans (rows row bound)).symm⟩

theorem nodeByNode_reused {values : Column} (isReused : evaluator.reused expr = some values) :
    evaluator.nodeByNode expr = .ok values := by
  unfold Evaluator.nodeByNode
  split <;> rw [isReused]

theorem leafValues_reused {values : Column} (isReused : evaluator.reused expr = some values) :
    evaluator.leafValues expr = some (.array values) := by
  unfold Evaluator.leafValues
  rw [isReused]

theorem reused_of_inner (inner : evaluator.leafValues expr = none) :
    evaluator.reused expr = none := by
  cases isReused : evaluator.reused expr with
  | none => rfl
  | some values =>
    rw [leafValues_reused isReused] at inner
    cases inner

theorem leaf_computes (earlier : evaluator.EarlierAll)
    (isLeaf : evaluator.leafValues expr = some values) (typed : evaluator.Typed expr) :
    ∃ out, evaluator.nodeByNode expr = .ok out ∧ Computes evaluator expr out := by
  have rows : ∀ row, (evaluator.known expr).Row row (values.at row) := fun row =>
    ⟨not_overflows_leaf isLeaf row, (value_leaf isLeaf row).symm⟩
  have fit := not_misfit_leaf isLeaf
  cases isReused : evaluator.reused expr with
  | some out =>
    rw [leafValues_reused isReused] at isLeaf
    cases isLeaf
    exact ⟨out, nodeByNode_reused isReused, (reused_earlier earlier isReused).2.1, fit,
      fun row _ => rows row⟩
  | none =>
    unfold Evaluator.leafValues at isLeaf
    rw [isReused] at isLeaf
    cases isConstant : unscaledConstant expr with
    | some value =>
      rw [isConstant] at isLeaf
      cases isLeaf
      obtain ⟨s, t, rfl⟩ := unscaledConstant_eq isConstant
      refine ⟨List.replicate evaluator.numRows (some value), ?_, ?_⟩
      · rw [Evaluator.nodeByNode, isReused]
      constructor
      case held =>
        refine ⟨List.length_replicate, fun x among => ?_⟩
        obtain rfl := Option.some.inj (List.eq_of_mem_replicate among)
        exact stored_of_holds typed.1 typed.2.1 (typed.2.2 x rfl)
      case rows =>
        intro row bound
        rw [List.getD_replicate _ bound]
        exact rows row
      case whole => exact fit
    | none =>
      rw [isConstant] at isLeaf
      cases expr with
      | column column t =>
        dsimp only at isLeaf
        split at isLeaf
        case isFalse => cases isLeaf
        case isTrue =>
          obtain ⟨out, isColumn, rfl⟩ := Option.map_eq_some_iff.mp isLeaf
          refine ⟨out, ?_, typed.2.2 out isColumn, fit, fun row _ => rows row⟩
          rw [Evaluator.nodeByNode, isReused, isColumn]
      | _ => cases isLeaf

theorem typed_aligned (typed : evaluator.Typed (.arith op left right type))
    (decimal : type.isDecimal = true) : op ≠ .multiply →
      Aligned left.type type ∧ Aligned right.type type := by
  intro other
  obtain ⟨typedLeft, typedRight, isType⟩ := typed.2.2 decimal
  exact decimalArithType_aligned typedLeft.exact.1 typedRight.exact.1 typedLeft.exact.2
    typedRight.exact.2 isType other decimal

/-- Evaluation over whole columns computes every row's value, or some row fails. -/
theorem nodeByNode_follows (earlier : evaluator.EarlierAll) (tree : evaluator.Tree expr)
    (typed : evaluator.Typed expr) :
    Follows (Computes evaluator expr) (SomeFails evaluator expr)
      (evaluator.nodeByNode expr) := by
  induction tree with
  | leaf isLeaf =>
    obtain ⟨out, isOut, computes⟩ := leaf_computes earlier isLeaf typed
    rw [isOut]
    exact computes
  | @arith op left right type inner decimal among _ _ ihLeft ihRight =>
    obtain ⟨typedLeft, typedRight, _⟩ := typed.2.2 decimal
    rw [Evaluator.nodeByNode, reused_of_inner inner]
    dsimp only
    rw [if_pos decimal]
    refine (arithValues_follows typedLeft.exact.1 typedRight.exact.1 (typed_aligned typed decimal)
      decimal typed.2.1
      (inputOf_supplies (fun _ => constant_known earlier typedLeft) (ihLeft typedLeft))
      (inputOf_supplies (fun _ => constant_known earlier typedRight) (ihRight typedRight))).imp
      ?_ ?_
    · intro out combines
      refine ⟨combines.held, ?_, fun row bound => ?_⟩
      · rintro ⟨-, misfit | misfit | unfit | unfit⟩
        · exact combines.wholeLeft misfit
        · exact combines.wholeRight misfit
        · exact combines.fitLeft unfit
        · exact combines.fitRight unfit
      · obtain ⟨x, y, ⟨keptLeft, rfl⟩, ⟨keptRight, rfl⟩, kept, isRow⟩ := combines.rows row bound
        exact ⟨not_overflows_arith keptLeft keptRight kept,
          isRow.trans (value_arith inner row).symm⟩
    · rintro ((misfit | ⟨row, bound, overflows⟩) | (misfit | ⟨row, bound, overflows⟩) | unfit |
        unfit | ⟨row, bound, x, ⟨-, rfl⟩, unfit | ⟨y, ⟨-, rfl⟩, beyond⟩⟩)
      · exact .inl ⟨inner, .inl misfit⟩
      · exact .inr ⟨row, bound, inner, .inl overflows⟩
      · exact .inl ⟨inner, .inr (.inl misfit)⟩
      · exact .inr ⟨row, bound, inner, .inr (.inl overflows)⟩
      · exact .inl ⟨inner, .inr (.inr (.inl unfit))⟩
      · exact .inl ⟨inner, .inr (.inr (.inr unfit))⟩
      · exact .inr ⟨row, bound, inner, .inr (.inr (.inl unfit))⟩
      · exact .inr ⟨row, bound, inner, .inr (.inr beyond)⟩

/-- The evaluation over whole columns fails where a constant does not fit its scale, also in an
empty batch, or an operation of some row goes beyond its type, also below a NULL. -/
theorem nodeByNode_none (earlier : evaluator.EarlierAll) (tree : evaluator.Tree expr)
    (typed : evaluator.Typed expr) :
    (evaluator.nodeByNode expr).toOption = none ↔
      evaluator.Misfit expr ∨ ∃ row < evaluator.numRows, evaluator.Overflows row expr := by
  refine (nodeByNode_follows earlier tree typed).toOption_none fun out computes => ?_
  rintro (misfit | ⟨row, bound, overflows⟩)
  · exact computes.whole misfit
  · exact (computes.rows row bound).1 overflows

end Node

end Antb1.Exec.Decimal
