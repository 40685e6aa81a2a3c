import Mathlib.Data.List.ReduceOption
import Antb1.Plan.SumRewrite

/-! The SUM rewrite is exact: by induction on the layers, the rewritten expression is the sum of
the argument's values over the unbounded integers, and NULL where there are none. -/
namespace Antb1.Plan.SumRewrite

open Lib List

variable {Node ε : Type} {reads : Node → Bool} {bind : Sql.Operand Node → Except ε Typed}
  {operand : Sql.Operand Node} {rows : List (OperandRow Node)} {doubles : DoubleAggregates}
  {v : Value} {values : List (Option Int)}

/-- The values of a row's operands, where a failing one has none. -/
def OperandRow.known (row : OperandRow Node) : Sql.Operand Node → Option Int :=
  fun operand => (row operand).join

theorem split_spec (left right : Sql.Operand Node) :
    ∃ side, split reads left right = .ok side ∧ ∀ constantRight c,
      side = some (constantRight, c) → ∀ other,
        (Sql.Operand.binary .add left right).value other =
          ((if constantRight then left else right).value other).map (· + c) := by
  obtain ⟨r, isRight, rightValues⟩ := constantValue_spec right
  obtain ⟨l, isLeft, leftValues⟩ := constantValue_spec left
  rw [split, isRight, ok_bind]
  split
  · next c reads =>
    refine ⟨_, rfl, ?_⟩
    rintro _ _ ⟨⟩ other
    have value := (rightValues c rfl).2 other
    cases isInner : left.value other <;> simp [Sql.Operand.value, value, isInner]
  · rw [isLeft, ok_bind]
    split
    · next c reads =>
      refine ⟨_, rfl, ?_⟩
      rintro _ _ ⟨⟩ other
      have value := (leftValues c rfl).2 other
      cases isInner : right.value other <;>
        simp [Sql.Operand.value, value, isInner, Int.add_comm]
    · exact ⟨_, rfl, fun _ _ isSide => by cases isSide⟩

/-- The operand without its layers is NULL exactly where the operand is. -/
theorem withoutLayers_spec (operand : Sql.Operand Node) :
    ∃ counted, withoutLayers reads operand = .ok counted ∧
      ∀ other, (counted.value other).isSome = (operand.value other).isSome := by
  fun_induction withoutLayers reads operand with
  | case1 left right leftSpec rightSpec =>
    obtain ⟨side, isSide, value⟩ := @split_spec _ reads left right
    rw [isSide, ok_bind]
    obtain _ | ⟨_ | _, c⟩ := side
    · exact ⟨_, rfl, fun other => rfl⟩
    · obtain ⟨counted, isCounted, same⟩ := rightSpec
      refine ⟨counted, isCounted, fun other => ?_⟩
      rw [same, value _ _ rfl]
      simp
    · obtain ⟨counted, isCounted, same⟩ := leftSpec
      refine ⟨counted, isCounted, fun other => ?_⟩
      rw [same, value _ _ rfl]
      simp
  | case2 operand _ => exact ⟨operand, rfl, fun other => rfl⟩

theorem checkedAs_eq {x v : Option Int} (is : checkedAs bind operand x = some v) : v = x := by
  unfold checkedAs at is
  cases x with
  | none => exact (Option.some.inj is).symm
  | some x =>
    dsimp only at is
    split at is
    · split_ifs at is
      exact (Option.some.inj is).symm
    · cases is

/-- A value that is computed is the one over the unbounded integers. -/
theorem computed_value {row : OperandRow Node} {v : Option Int}
    (is : computed bind row operand = some v) : v = operand.value row.known := by
  fun_induction computed bind row operand generalizing v with
  | case1 negative text => exact (Option.some.inj is).symm
  | case2 operand ih =>
    obtain ⟨x, isInner, is⟩ := Option.bind_eq_some_iff.mp is
    rw [checkedAs_eq is, ih isInner, Sql.Operand.value]
  | case3 left right leftValue rightValue | case4 left right leftValue rightValue
  | case5 left right leftValue rightValue =>
    obtain ⟨x, isLeft, is⟩ := Option.bind_eq_some_iff.mp is
    obtain ⟨y, isRight, is⟩ := Option.bind_eq_some_iff.mp is
    rw [checkedAs_eq is, leftValue isLeft, rightValue isRight, Sql.Operand.value]
  | case6 operand noInteger noNegate noAdd noSubtract noMultiply =>
    have opaque_ : operand.value row.known = row.known operand :=
      Sql.Operand.value.eq_6 _ _ noInteger noNegate noAdd noSubtract noMultiply
    rw [opaque_, OperandRow.known, is, Option.join_some]

theorem mapM_computed (is : (rows.mapM fun row => computed bind row operand) = some values) :
    values = rows.map fun row => operand.value row.known := by
  induction rows generalizing values with
  | nil => exact (Option.some.inj is).symm
  | cons row rest ih =>
    rw [mapM_cons] at is
    obtain ⟨v, isFirst, is⟩ := Option.bind_eq_some_iff.mp is
    obtain ⟨vs, isRest, is⟩ := Option.bind_eq_some_iff.mp is
    cases is
    rw [map_cons, computed_value isFirst, ih isRest]

theorem present_asValue (values : List (Option Int)) :
    (values.map asValue).filter (· ≠ .null) = values.reduceOption.map Value.int := by
  induction values with
  | nil => rfl
  | cons v rest ih => cases v <;> simp [asValue, reduceOption_cons_of_some, ← ih]

theorem aggregateValues_count (doubles : DoubleAggregates) (type : LogicalType)
    (values : List (Option Int)) :
    aggregateValues doubles .count type (values.map asValue) =
      some (.int values.reduceOption.length) := by
  simp only [aggregateValues, present_asValue, length_map]

theorem aggregateValues_sum {type : LogicalType} (signed : type.isSignedInteger = true)
    (is : aggregateValues doubles .sum type (values.map asValue) = some v) :
    v = if values.reduceOption = [] then .null else .int values.reduceOption.sum := by
  have ints : (values.reduceOption.map Value.int).map Value.asInt = values.reduceOption := by
    rw [map_map]
    exact map_id _
  simp only [aggregateValues, present_asValue, map_eq_nil_iff, ints] at is
  split_ifs at is ⊢ with empty double
  · exact (Option.some.inj is).symm
  · subst double
    cases signed
  · simp only [LogicalType.isSignedInteger, Bool.or_eq_true, decide_eq_true_eq] at signed
    unfold sumValue at is
    rw [if_neg (by rcases signed with (rfl | rfl) | rfl <;> simp [LogicalType.isDecimal]),
      Option.bind_some] at is
    split_ifs at is
    exact (Option.some.inj is).symm

/-- A constant added to every value adds it as often as there are values. -/
theorem sum_map_add (c : Int) (values : List (Option Int)) :
    (values.map (Option.map (· + c))).reduceOption.sum =
      values.reduceOption.sum + c * values.reduceOption.length := by
  induction values with
  | nil => simp
  | cons v rest ih =>
    cases v with
    | none => simpa using ih
    | some x =>
      simp only [map_cons, Option.map_some, reduceOption_cons_of_some, sum_cons, ih,
        length_cons]
      push_cast
      ring

theorem reduceOption_length_congr {α : Type} {rows : List α} {f g : α → Option Int}
    (same : ∀ row, (f row).isSome = (g row).isSome) :
    (rows.map f).reduceOption.length = (rows.map g).reduceOption.length := by
  induction rows with
  | nil => rfl
  | cons row rest ih =>
    have head := same row
    cases isF : f row <;> cases isG : g row <;> simp [isF, isG] at head ⊢ <;> exact ih

/-- The sum of an operand's values over the unbounded integers; NULL where there are none. -/
def unboundedSum (rows : List (OperandRow Node)) (operand : Sql.Operand Node) : Value :=
  let values := (rows.map fun row => operand.value row.known).reduceOption
  if values = [] then .null else .int values.sum

theorem column_exact {typed : Typed} (isTyped : bind operand = .ok typed)
    (signed : typed.type.isSignedInteger = true)
    (is : Call.value bind doubles rows ⟨.sum, operand, false⟩ = some v) :
    v = unboundedSum rows operand := by
  unfold Call.value at is
  obtain ⟨found, isFound, is⟩ := Option.bind_eq_some_iff.mp is
  obtain ⟨values, isValues, is⟩ := Option.bind_eq_some_iff.mp is
  rw [isTyped] at isFound
  cases isFound
  rw [mapM_computed isValues] at is
  exact aggregateValues_sum signed is

theorem count_exact (is : Call.value bind doubles rows ⟨.count, operand, false⟩ = some v) :
    v = .int (rows.map fun row => operand.value row.known).reduceOption.length := by
  unfold Call.value at is
  obtain ⟨typed, -, is⟩ := Option.bind_eq_some_iff.mp is
  obtain ⟨values, isValues, is⟩ := Option.bind_eq_some_iff.mp is
  rw [mapM_computed isValues] at is
  exact Option.some.inj (is.symm.trans (aggregateValues_count _ _ _))

theorem hugeArith_int {f : Int → Int → Int} {x y : Int}
    (is : hugeArith f (.int x) (.int y) = some v) : v = .int (f x y) := by
  unfold hugeArith at is
  dsimp only at is
  split_ifs at is
  exact (Option.some.inj is).symm

/-- One layer: the inner sum, and the constant as often as it is counted. -/
theorem plus_exact {whole other counted : Sql.Operand Node} {c : Int} {sum : Output Node}
    (layer : ∀ known, whole.value known = (other.value known).map (· + c))
    (same : ∀ known, (counted.value known).isSome = (other.value known).isSome)
    (inner : ∀ v, sum.value bind doubles rows = some v → v = unboundedSum rows other)
    (is : Output.value bind doubles rows (.plus sum c ⟨.count, counted, false⟩) = some v) :
    v = unboundedSum rows whole := by
  unfold Output.value at is
  obtain ⟨total, isTotal, is⟩ := Option.bind_eq_some_iff.mp is
  obtain ⟨number, isNumber, is⟩ := Option.bind_eq_some_iff.mp is
  obtain ⟨product, isProduct, is⟩ := Option.bind_eq_some_iff.mp is
  rw [count_exact isNumber] at isProduct
  rw [hugeArith_int isProduct, inner total isTotal] at is
  have counts : (rows.map fun row => counted.value row.known).reduceOption.length =
      (rows.map fun row => other.value row.known).reduceOption.length :=
    reduceOption_length_congr fun row => same row.known
  have layered : (rows.map fun row => whole.value row.known) =
      (rows.map fun row => other.value row.known).map (Option.map (· + c)) := by
    rw [map_map]
    exact map_congr_left fun row _ => layer row.known
  have lengths : ((rows.map fun row => other.value row.known).map
      (Option.map (· + c))).reduceOption.length =
        (rows.map fun row => other.value row.known).reduceOption.length := by
    rw [map_map]
    exact reduceOption_length_congr fun row => by simp
  rw [unboundedSum, layered, sum_map_add]
  rw [unboundedSum] at is
  simp only [← length_eq_zero_iff, lengths] at is ⊢
  split_ifs at is ⊢
  · exact (Option.some.inj is).symm
  · rw [hugeArith_int is, counts]

/-- What the rewrite accepts: the layer, the counted operand and the types. -/
structure Rewrite.Accepts (bind : Sql.Operand Node → Except ε Typed) (left right : Sql.Operand Node)
    (rewrite : Rewrite Node) : Prop where
  layer : ∀ known, (Sql.Operand.binary .add left right).value known =
    ((if rewrite.constantRight then left else right).value known).map (· + rewrite.constant)
  counted : ∀ known, (rewrite.counted.value known).isSome =
    ((if rewrite.constantRight then left else right).value known).isSome
  whole : ∃ typed, bind (.binary .add left right) = .ok typed ∧ typed.type.isSignedInteger = true
  other : ∃ typed, bind (if rewrite.constantRight then left else right) = .ok typed ∧
    typed.type.isSignedInteger = true

theorem bothSigned_true {whole other : Sql.Operand Node} (is : bothSigned bind whole other = .ok true) :
    (∃ typed, bind whole = .ok typed ∧ typed.type.isSignedInteger = true) ∧
      ∃ typed, bind other = .ok typed ∧ typed.type.isSignedInteger = true := by
  obtain ⟨wholeTyped, isWhole, is⟩ := bind_ok is
  obtain ⟨otherTyped, isOther, is⟩ := bind_ok is
  have both := (Bool.and_eq_true _ _).mp (Except.ok.inj is)
  exact ⟨⟨wholeTyped, isWhole, both.1⟩, otherTyped, isOther, both.2⟩

theorem rewritableSum_spec (left right : Sql.Operand Node) :
    ∃ result, rewritableSum reads bind left right = .ok result ∧
      ∀ rewrite, result = .ok (some rewrite) → rewrite.Accepts bind left right := by
  obtain ⟨side, isSide, layer⟩ := @split_spec _ reads left right
  rw [rewritableSum, isSide, ok_bind]
  obtain _ | ⟨constantRight, c⟩ := side
  · exact ⟨_, rfl, nofun⟩
  obtain ⟨counted, isCounted, same⟩ :=
    @withoutLayers_spec _ reads (if constantRight then left else right)
  simp only [isCounted, ok_bind]
  refine ⟨_, rfl, fun rewrite is => ?_⟩
  cases both : bothSigned bind (.binary .add left right) (if constantRight then left else right) with
  | error e =>
    rw [both] at is
    cases is
  | ok signed =>
    rw [both] at is
    cases signed with
    | false => cases is
    | true =>
      cases is
      obtain ⟨whole, other⟩ := bothSigned_true both
      exact ⟨layer _ _ rfl, same, whole, other⟩

theorem sumOutput_spec (operand : Sql.Operand Node) :
    ∃ result, sumOutput reads bind operand = .ok result ∧
      ∀ output typed, result = .ok output → bind operand = .ok typed →
        typed.type.isSignedInteger = true → ∀ doubles rows v,
          output.value bind doubles rows = some v → v = unboundedSum rows operand := by
  fun_induction sumOutput reads bind operand with
  | case1 left right leftSpec rightSpec =>
    obtain ⟨result, isResult, accepts⟩ := @rewritableSum_spec _ _ reads bind left right
    rw [isResult, ok_bind]
    obtain e | _ | rewrite := result
    · exact ⟨_, rfl, nofun⟩
    · refine ⟨_, rfl, ?_⟩
      rintro _ typed ⟨⟩ isTyped signed doubles rows v is
      exact column_exact isTyped signed is
    · have accepted := accepts rewrite rfl
      obtain ⟨inner, isInner, spec⟩ : ∃ inner,
          (if rewrite.constantRight then sumOutput reads bind left else sumOutput reads bind right) =
            .ok inner ∧ ∀ output typed, inner = .ok output →
              bind (if rewrite.constantRight then left else right) = .ok typed →
                typed.type.isSignedInteger = true → ∀ doubles rows v,
                  output.value bind doubles rows = some v →
                    v = unboundedSum rows (if rewrite.constantRight then left else right) := by
        split_ifs
        · exact leftSpec
        · exact rightSpec
      dsimp only
      rw [isInner, ok_bind]
      refine ⟨_, rfl, ?_⟩
      intro output typed isOutput _ _ doubles rows v is
      cases inner with
      | error e => cases isOutput
      | ok sum =>
        cases isOutput
        obtain ⟨otherTyped, isOther, otherSigned⟩ := accepted.other
        exact plus_exact accepted.layer accepted.counted
          (spec sum otherTyped rfl isOther otherSigned doubles rows) is
  | case2 operand _ =>
    refine ⟨_, rfl, ?_⟩
    rintro _ typed ⟨⟩ isTyped signed doubles rows v is
    exact column_exact isTyped signed is

theorem unboundedSum_eq_null (rows : List (OperandRow Node)) (operand : Sql.Operand Node) :
    unboundedSum rows operand = .null ↔ ∀ row ∈ rows, operand.value row.known = none := by
  have none_ : (rows.map fun row => operand.value row.known).reduceOption = [] ↔
      ∀ row ∈ rows, operand.value row.known = none := by
    simp [List.reduceOption, filterMap_eq_nil_iff]
  rw [← none_, unboundedSum]
  by_cases empty : (rows.map fun row => operand.value row.known).reduceOption = []
  · simp [empty]
  · simp [empty]

/-- A SUM that the binder rewrites, over any rows: no step of the rewrite overflows, and what it
gives, where it does not fail, is the sum of the argument's values over the unbounded integers,
NULL exactly where no row has one. -/
theorem aggregateOutput_exact (reads : Node → Bool) (bind : Sql.Operand Node → Except ε Typed)
    (left right : Sql.Operand Node) :
    ∃ result output, rewritableSum reads bind left right = .ok result ∧
      aggregateOutput reads bind false ⟨.sum, .binary .add left right, false⟩ = .ok output ∧
      ∀ rewrite, result = .ok (some rewrite) → ∀ sum, output = .ok sum →
        ∃ inner, sum = .plus inner rewrite.constant ⟨.count, rewrite.counted, false⟩ ∧
          ∀ doubles rows v, sum.value bind doubles rows = some v →
            v = unboundedSum rows (.binary .add left right) ∧
            (v = .null ↔ ∀ row ∈ rows,
              (Sql.Operand.binary .add left right).value row.known = none) := by
  obtain ⟨result, isResult, accepts⟩ := @rewritableSum_spec _ _ reads bind left right
  obtain ⟨output, isOutput, spec⟩ := @sumOutput_spec _ _ reads bind (.binary .add left right)
  refine ⟨result, output, isResult, isOutput, ?_⟩
  rintro rewrite rfl sum rfl
  rw [sumOutput, isResult, ok_bind] at isOutput
  dsimp only at isOutput
  obtain ⟨inner, -, isOutput⟩ := bind_ok isOutput
  cases inner with
  | error e => cases isOutput
  | ok inner =>
    cases isOutput
    obtain ⟨typed, isTyped, signed⟩ := (accepts rewrite rfl).whole
    refine ⟨inner, rfl, fun doubles rows v is => ?_⟩
    have exact_ := spec _ typed rfl isTyped signed doubles rows v is
    exact ⟨exact_, by rw [exact_, unboundedSum_eq_null]⟩

def seven : Sql.IntegerText where
  digits := ['7']
  some_ := by decide
  decimal := by simp [Digits.Decimal, Char.isDigit]
  short := by decide

def plusSeven (operand : Sql.Operand Unit) : Sql.Operand Unit :=
  .binary .add operand (.integer false seven)

/-- `SUM((x + 7) + 7)` over the INTEGERs 2147483647, NULL and 5: no row adds 7 to the largest, and
the sum is exact. -/
theorem aggregateOutput_exact_largest :
    let bind := bindInput fun _ : Unit => LogicalType.integer
    let arg := plusSeven (plusSeven (.node ()))
    let count : Call Unit := ⟨.count, .node (), false⟩
    let sum : Output Unit := .plus (.plus (.column ⟨.sum, .node (), false⟩) 7 count) 7 count
    let rows : List (OperandRow Unit) := [fun _ => some (some 2147483647), fun _ => some none,
      fun _ => some (some 5)]
    aggregateOutput (fun _ => true) bind false ⟨.sum, arg, false⟩ = .ok (.ok sum) ∧
      computed bind (fun _ => some (some 2147483647)) arg = none ∧
      (∀ doubles, sum.value bind doubles rows = some (.int 2147483680)) ∧
      .int 2147483680 = unboundedSum rows arg := by
  intro bind arg count sum rows
  have isOutput : aggregateOutput (fun _ => true) bind false ⟨.sum, arg, false⟩ = .ok (.ok sum) :=
    rfl
  have isValue (doubles) : sum.value bind doubles rows = some (.int 2147483680) := by
    have sums : Call.value bind doubles rows ⟨.sum, .node (), false⟩ = some (.int 2147483652) := rfl
    have counts : count.value bind doubles rows = some (.int 2) := rfl
    simp only [sum, Output.value, sums, counts, Option.bind_eq_bind, Option.bind_some]
    rfl
  obtain ⟨result, output, isResult, outputs, spec⟩ :=
    aggregateOutput_exact (fun _ => true) bind (plusSeven (.node ())) (.integer false seven)
  have isRewrite : rewritableSum (fun _ => true) bind (plusSeven (.node ())) (.integer false seven) =
      .ok (.ok (some ⟨true, 7, .node ()⟩)) := rfl
  obtain ⟨_, _, value⟩ := spec _ (Except.ok.inj (isResult.symm.trans isRewrite)) _
    (Except.ok.inj (outputs.symm.trans isOutput))
  exact ⟨isOutput, rfl, isValue, (value (fun _ _ _ => none) rows _ (isValue _)).1⟩

end Antb1.Plan.SumRewrite
