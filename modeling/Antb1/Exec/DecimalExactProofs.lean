import Antb1.Exec.DecimalProgramProofs

/-! Every operation over exact numbers gives the exact result in every row, stored without loss, or
fails the query, except where a DECIMAL column holds the least value of its physical width: its
negation is cut to 64 bits in a narrow column, and so is its magnitude, which has no 128-bit value at
all in a wide one. An arithmetic tree is exact whether it runs as a program or by its operands. -/
namespace Antb1.Exec.Decimal

open Common Lib Plan List

variable {evaluator : Evaluator} {expr left right : Expr} {op : ArithOp} {type : LogicalType}
  {row : Nat} {program : DecimalProgram}

namespace Evaluator

variable (evaluator : Evaluator)

/-- The value an expression outside the arithmetic has in a row. -/
def Reads (row : Nat) (expr : Expr) (out : Option Int) : Prop :=
  ∃ values, evaluator.nodeByNode expr = .ok values ∧ values.getD row none = out

/-- What a row of a tree has to be: the exact result of its operands, NULL for a NULL operand or a
zero divisor. -/
def Means (row : Nat) : Expr → Option Int → Prop
  | .arith op left right type, out =>
    if type.isDecimal = true ∧ evaluator.reused (.arith op left right type) = none then
      ∃ x y, Means row left x ∧ Means row right y ∧
        ArithRowExact op left.type right.type type x y out
    else evaluator.Reads row (.arith op left right type) out
  | expr, out => evaluator.Reads row expr out

def exactly (expr : Expr) : Knowledge where
  Row := fun row => evaluator.Means row expr

/-- Expressions outside the arithmetic give values of their columns, or fail. -/
def OtherHeld : Prop := ∀ expr, expr.type.isExactNumber = true →
  Yields (HeldColumn evaluator.numRows expr.type) (evaluator.other expr)

end Evaluator

theorem means_arith (decimal : type.isDecimal = true)
    (fresh : evaluator.reused (.arith op left right type) = none) {out : Option Int} :
    evaluator.Means row (.arith op left right type) out ↔
      ∃ x y, evaluator.Means row left x ∧ evaluator.Means row right y ∧
        ArithRowExact op left.type right.type type x y out := by
  rw [Evaluator.Means, if_pos ⟨decimal, fresh⟩]

theorem inner_of_reused (fresh : evaluator.reused (.arith op left right type) = none) :
    evaluator.leafValues (.arith op left right type) = none := by
  unfold Evaluator.leafValues
  rw [fresh]
  rfl

theorem means_leaf {values : Values} (isLeaf : evaluator.leafValues expr = some values)
    {out : Option Int} : evaluator.Means row expr out ↔ evaluator.Reads row expr out := by
  cases expr with
  | arith op left right type =>
    refine iff_of_eq (if_neg ?_)
    rintro ⟨-, fresh⟩
    rw [inner_of_reused fresh] at isLeaf
    cases isLeaf
  | _ => rfl

theorem eachRow_iff {numRows : Nat} {Row : Nat → Option Int → Prop} {out : Column} :
    List.Forall₂ (fun row value => Row row value ∧ ∀ x ∈ value, Stored type x)
      (List.range numRows) out ↔ HeldColumn numRows type out ∧
        ∀ row < numRows, Row row (out.getD row none) := by
  rw [forall₂_range]
  constructor
  · rintro ⟨length, rows⟩
    refine ⟨⟨length, fun x among => ?_⟩, fun row bound => (rows row bound).1⟩
    obtain ⟨row, bound, same⟩ := getElem_of_mem among
    apply (rows row (length ▸ bound)).2
    rw [getD_eq_getElem _ _ bound, same]
    rfl
  · rintro ⟨held, rows⟩
    exact ⟨held.length, fun row bound => ⟨rows row bound, fun x isRow =>
      held.stored x (mem_of_getD isRow)⟩⟩

section

variable (earlier : evaluator.EarlierAll)
include earlier

theorem value_means (tree : evaluator.Tree expr) (typed : evaluator.Typed expr)
    (bound : row < evaluator.numRows) : evaluator.Means row expr (evaluator.value row expr) := by
  induction tree with
  | @leaf expr values isLeaf =>
    obtain ⟨out, isOut, computes⟩ := leaf_computes earlier isLeaf typed
    rw [means_leaf isLeaf, ← (computes.rows row bound).2]
    exact ⟨out, isOut, rfl⟩
  | @arith op left right type inner decimal among _ _ ihLeft ihRight =>
    obtain ⟨typedLeft, typedRight, isType⟩ := typed.2.2 decimal
    rw [means_arith decimal (reused_of_inner inner), value_arith inner]
    refine ⟨_, _, ihLeft typedLeft, ihRight typedRight, rowValue_exact typedLeft.exact.1
      typedRight.exact.1 (typed_aligned typed decimal) isType fun _ _ _ _ => ?_⟩
    rintro (rfl | rfl) <;> simp at among

/-- A program gives the exact value of its tree in every row, within the type, or fails. -/
theorem run_exact (typed : evaluator.Typed (.arith op left right type))
    (fresh : evaluator.reused (.arith op left right type) = none)
    (isProgram : evaluator.programOf (.arith op left right type) = some program) :
    Yields (EachRow evaluator.numRows type (evaluator.exactly (.arith op left right type)))
      (program.run evaluator.numRows type) := by
  obtain ⟨at_, covers⟩ := programOf_covers earlier typed isProgram
  refine (run_follows earlier typed isProgram).imp ?_ fun _ => trivial
  rintro out ⟨length, rows⟩
  have each : HeldColumn evaluator.numRows type out ∧ ∀ row < evaluator.numRows,
      evaluator.Means row (.arith op left right type) (out.getD row none) := by
    rw [← eachRow_iff, forall₂_range]
    refine ⟨length, fun row bound => ?_⟩
    obtain ⟨kept, isValue⟩ := rows row bound
    rw [isValue]
    refine ⟨value_means earlier covers.tree typed bound, fun x isX => ?_⟩
    have isSome : (evaluator.value row (.arith op left right type)).isSome = true := isX ▸ rfl
    rw [value_arith (inner_of_reused fresh)] at isX
    refine stored_of_holds typed.1 typed.2.1 (Gives.holds ⟨fun beyond => ?_, isX.symm⟩)
    exact kept ⟨isSome, inner_of_reused fresh, .inr (.inr beyond)⟩
  exact ⟨each.1, trivial, each.2⟩

/-- What an expression outside the arithmetic gives is a column of its type, or it fails. -/
theorem nodeByNode_held (others : evaluator.OtherHeld) (typed : evaluator.Typed expr)
    (outside : ∀ {op left right type}, expr = .arith op left right type →
      ¬(type.isDecimal = true ∧ evaluator.reused expr = none)) :
    Yields (HeldColumn evaluator.numRows expr.type) (evaluator.nodeByNode expr) := by
  cases isReused : evaluator.reused expr with
  | some values =>
    rw [nodeByNode_reused isReused]
    exact (reused_earlier earlier isReused).2.1
  | none =>
    have other := others expr typed.exact.1
    unfold Evaluator.nodeByNode
    split
    case h_1 =>
      rw [isReused]
      dsimp only
      rw [if_neg fun decimal => outside rfl ⟨decimal, isReused⟩]
      exact other
    case h_2 column type =>
      rw [isReused]
      dsimp only
      cases isColumn : evaluator.columnValues column with
      | none => trivial
      | some values => exact typed.2.2 values isColumn
    case h_3 s value type =>
      rw [isReused]
      refine ⟨length_replicate, fun x among => ?_⟩
      obtain rfl := Option.some.inj (eq_of_mem_replicate among)
      exact stored_of_holds typed.1 typed.2.1 (typed.2.2 x rfl)
    case h_4 =>
      rw [isReused]
      exact other

theorem constant_means (typed : evaluator.Typed expr) {v : Int}
    (isConstant : unscaledConstant expr = some v) : (rangeOf expr.type).Holds v ∧
      (evaluator.exactly expr).whole ∧
      ∀ row < evaluator.numRows, (evaluator.exactly expr).Row row (some v) := by
  obtain ⟨s, t, rfl⟩ := unscaledConstant_eq isConstant
  refine ⟨constant_holds typed isConstant, trivial, fun row bound => ?_⟩
  have isReplicate : evaluator.nodeByNode (.constant ⟨s, .int v⟩ t) =
      .ok (List.replicate evaluator.numRows (some v)) := by
    cases isReused : evaluator.reused (.constant ⟨s, .int v⟩ t) with
    | some values =>
      rw [nodeByNode_reused isReused, (reused_earlier earlier isReused).2.2.2 v isConstant]
    | none => rw [Evaluator.nodeByNode, isReused]
  exact ⟨_, isReplicate, getD_replicate _ bound⟩

theorem nodeByNode_exact (others : evaluator.OtherHeld) (typed : evaluator.Typed expr)
    (outside : ∀ {op left right type}, expr = .arith op left right type →
      ¬(type.isDecimal = true ∧ evaluator.reused expr = none)) :
    Yields (EachRow evaluator.numRows expr.type { Row := fun row => evaluator.Reads row expr })
      (evaluator.nodeByNode expr) := by
  have held := nodeByNode_held earlier others typed outside
  cases ran : evaluator.nodeByNode expr with
  | error fault =>
    rw [ran] at held
    cases fault with
    | failed _ => trivial
    | undefined _ => exact held
  | ok out =>
    rw [ran] at held
    exact ⟨held, trivial, fun row _ => ⟨out, ran, rfl⟩⟩

end

/-- An expression over exact numbers evaluates to what it stands for in every row, or fails. -/
theorem evaluate_exact (earlier : evaluator.EarlierAll) (others : evaluator.OtherHeld) :
    ∀ expr, evaluator.Typed expr →
      Yields (EachRow evaluator.numRows expr.type (evaluator.exactly expr))
        (evaluator.evaluate expr)
  | .arith op left right type, typed => by
    by_cases tree : type.isDecimal = true ∧ evaluator.reused (.arith op left right type) = none
    case neg =>
      have reads := nodeByNode_exact earlier others typed fun same => by
        cases same
        exact tree
      have means : evaluator.exactly (.arith op left right type) =
          { Row := fun row => evaluator.Reads row (.arith op left right type) } := by
        unfold Evaluator.exactly
        congr
        funext row out
        rw [Evaluator.Means, if_neg tree]
      rw [means]
      convert reads using 1
      rw [Evaluator.evaluate, Evaluator.nodeByNode]
      cases isReused : evaluator.reused (.arith op left right type) with
      | some values => rfl
      | none =>
        dsimp only
        rw [if_neg fun decimal => tree ⟨decimal, isReused⟩,
          if_neg fun decimal => tree ⟨decimal, isReused⟩]
    obtain ⟨decimal, fresh⟩ := tree
    obtain ⟨typedLeft, typedRight, isType⟩ := typed.2.2 decimal
    have ihLeft := evaluate_exact earlier others left typedLeft
    have ihRight := evaluate_exact earlier others right typedRight
    rw [Evaluator.evaluate, fresh]
    dsimp only
    rw [if_pos decimal]
    cases isProgram : evaluator.programOf (.arith op left right type) with
    | some program => exact run_exact earlier typed fresh isProgram
    | none =>
      refine (arithValues_follows typedLeft.exact.1 typedRight.exact.1
        (typed_aligned typed decimal) decimal typed.2.1
        (inputOf_supplies (fun _ => constant_means earlier typedLeft) ihLeft)
        (inputOf_supplies (fun _ => constant_means earlier typedRight) ihRight)).imp ?_ fun _ =>
        trivial
      intro out combines
      refine ⟨combines.held, trivial, fun row bound => (means_arith decimal fresh).mpr ?_⟩
      obtain ⟨x, y, isX, isY, isRow⟩ := combines.rows row bound
      refine ⟨x, y, isX, isY, isRow.value ▸ rowValue_exact typedLeft.exact.1 typedRight.exact.1
        (typed_aligned typed decimal) isType fun v isV w isW division => ?_⟩
      exact isRow.kept (.inr (.inr ⟨v, isV, w, isW, .inl division⟩))
  | .column _ _, typed | .constant _ _, typed | .null, typed | .negate _ _, typed
  | .function _ _ _, typed | .predicate _ _ _, typed | .bool _ _ _, typed
  | .caseWhen _ _ _ _, typed | .cast _ _, typed =>
    nodeByNode_exact earlier others typed fun same => nomatch same

/-- An operation over exact numbers, with the values it reads. -/
inductive Operation where
  | negate (type : LogicalType) (values : Column)
  | abs (type : LogicalType) (values : Column)
  | arith (evaluator : Evaluator) (op : ArithOp) (left right : Expr) (result : LogicalType)
  | cast (source target : LogicalType) (column : String) (values : Column)

namespace Operation

def evaluate : Operation → Except Fault Column
  | .negate type values => Decimal.negate type values
  | .abs type values => Decimal.abs type values
  | .arith evaluator op left right result => evaluator.evaluate (.arith op left right result)
  | .cast source target column values => castTo source target column values

def resultType : Operation → LogicalType
  | .negate type _ | .abs type _ | .arith _ _ _ _ type | .cast _ type _ _ => type

def Exact (operation : Operation) (row : Nat) (out : Option Int) : Prop :=
  match operation with
  | .negate type values =>
    Option.Rel (fun x y => number type y = -number type x) (values.getD row none) out
  | .abs type values =>
    Option.Rel (fun x y => number type y = |number type x|) (values.getD row none) out
  | .arith evaluator op left right result => evaluator.Means row (.arith op left right result) out
  | .cast source target _ values =>
    Option.Rel (fun x y => HalfAway (number source x * 10 ^ target.scale) y)
      (values.getD row none) out

/-- The exact result in every row, stored without loss, or a failed query. -/
def ExactOrFails (operation : Operation) (numRows : Nat) : Prop :=
  Yields (List.Forall₂ (fun row out => operation.Exact row out ∧
    ∀ x ∈ out, Stored operation.resultType x) (List.range numRows)) operation.evaluate

/-- The types the binder gives an operation over exact numbers. -/
def Typed : Operation → Prop
  | .negate type _ => type.isDecimal = true ∧ type.Valid
  | .abs type _ => type.isExactNumber = true ∧ type.Valid
  | .arith evaluator op left right result =>
    result.isDecimal = true ∧ evaluator.Typed (.arith op left right result)
  | .cast source target _ _ =>
    source.isExactNumber = true ∧ source.Valid ∧ target.isExactNumber = true ∧ target.Valid

/-- The values an operation reads are values of their columns. -/
def Held (numRows : Nat) : Operation → Prop
  | .negate type values | .abs type values | .cast type _ _ values =>
    HeldColumn numRows type values
  | .arith evaluator _ _ _ _ =>
    evaluator.numRows = numRows ∧ evaluator.EarlierAll ∧ evaluator.OtherHeld

/-- The operation meets no value without a result in its column. -/
def Spared : Operation → Prop
  | .negate type values => isNarrow type = true → some (least type) ∉ values
  | .abs type values => isArrowDecimal type = true → some (least type) ∉ values
  | .arith _ _ _ _ _ | .cast _ _ _ _ => True

end Operation

theorem optionRel_and {R : Int → Int → Prop} {S : Int → Prop} {a b : Option Int} :
    (Option.Rel R a b ∧ ∀ y ∈ b, S y) ↔ Option.Rel (fun x y => R x y ∧ S y) a b := by
  constructor
  · rintro ⟨related, all⟩
    cases related with
    | none => exact .none
    | some related => exact .some ⟨related, all _ rfl⟩
  · intro both
    cases both with
    | none => exact ⟨.none, fun _ none => nomatch none⟩
    | some both => exact ⟨.some both.1, fun _ same => Option.some.inj same ▸ both.2⟩

theorem yields_rows {R : Int → Int → Prop} {S : Int → Prop} {numRows : Nat}
    (length : values.length = numRows) (result : Except Fault Column) :
    Yields (List.Forall₂ (fun row out => Option.Rel R (values.getD row none) out ∧
      ∀ y ∈ out, S y) (List.range numRows)) result ↔
    Yields (List.Forall₂ (Option.Rel fun x y => R x y ∧ S y) values) result := by
  have same : ∀ out : Column, List.Forall₂ (fun row out =>
      Option.Rel (fun x y => R x y ∧ S y) (values.getD row none) out) (List.range numRows) out ↔
      List.Forall₂ (Option.Rel fun x y => R x y ∧ S y) values out := by
    intro out
    rw [← forall₂_map_left_iff, rows_eq length]
  simp only [optionRel_and]
  constructor
  · exact fun yields => yields.mono fun out => (same out).mp
  · exact fun yields => yields.mono fun out => (same out).mpr

/-- Every operation over exact numbers is exact or fails, but for negation of the least value of a
narrow DECIMAL column and `abs` of the least value of any. -/
theorem exactOrFails_iff (operation : Operation) (numRows : Nat) (typed : operation.Typed)
    (held : operation.Held numRows) : operation.ExactOrFails numRows ↔ operation.Spared := by
  cases operation with
  | negate type values =>
    exact (yields_rows held.length _).trans (negate_iff held.stored typed.1)
  | abs type values => exact (yields_rows held.length _).trans (abs_iff held.stored typed.1)
  | arith evaluator op left right result =>
    obtain ⟨rfl, earlier, others⟩ := held
    exact iff_of_true ((evaluate_exact earlier others _ typed.2).mono fun _ each =>
      eachRow_iff.mpr ⟨each.held, each.rows⟩) trivial
  | cast source target column values =>
    exact iff_of_true ((yields_rows held.length _).mpr
      (cast_exact held.stored typed.1 typed.2.2.1 typed.2.2.2 column)) trivial

/-- A batch of two rows of a DECIMAL(18,2) column `d`: its greatest value less 1, and a NULL. -/
def twoRows : Evaluator where
  numRows := 2
  columns := [[some (10 ^ 18 - 101), none]]

/-- `d + 1`. -/
def plusOne : Operation :=
  .arith twoRows .add (.column ⟨0, 1⟩ (.decimal 18 2)) (.constant ⟨.integer, .int 1⟩ .integer)
    (.decimal 18 2)

theorem exactOrFails_plusOne : plusOne.Typed ∧ plusOne.Held 2 ∧
    plusOne.evaluate = .ok [some (10 ^ 18 - 1), none] ∧
    (plusOne.ExactOrFails 2 ↔ plusOne.Spared) := by
  have typed : plusOne.Typed := by
    refine ⟨rfl, rfl, by decide, fun _ => ⟨⟨rfl, by decide, ?_⟩, ⟨rfl, trivial, ?_⟩, rfl⟩⟩
    · rintro values ⟨⟩
      refine ⟨rfl, fun x among => ?_⟩
      obtain rfl : x = 10 ^ 18 - 101 := by simpa using among
      decide
    · rintro x ⟨⟩
      decide
  have held : plusOne.Held 2 := ⟨rfl, (fun _ among => nomatch among), fun _ _ => trivial⟩
  exact ⟨typed, held, rfl, exactOrFails_iff plusOne 2 typed held⟩

/-- `-d` over a DECIMAL(18,2) column with the least 64-bit value. -/
def negatedLeast : Operation := .negate (.decimal 18 2) [some (-2 ^ 63)]

theorem negatedLeast_cut : negatedLeast.Typed ∧ negatedLeast.Held 1 ∧
    negatedLeast.evaluate = .ok [some (-2 ^ 63)] ∧ ¬ negatedLeast.ExactOrFails 1 := by
  have held : HeldColumn 1 (.decimal 18 2) [some (-2 ^ 63)] := by
    refine ⟨rfl, fun x among => ?_⟩
    obtain rfl : x = -2 ^ 63 := by simpa using among
    decide
  refine ⟨⟨rfl, by decide⟩, held, by decide, fun exact => ?_⟩
  exact (negate_iff held.stored rfl).mp ((yields_rows held.length _).mp exact) rfl
    mem_cons_self

end Antb1.Exec.Decimal
