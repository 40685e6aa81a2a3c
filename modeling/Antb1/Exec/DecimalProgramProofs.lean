import Antb1.Exec.DecimalNodeProofs

/-! A compiled DECIMAL tree runs, on every row without a NULL among the columns it reads, as the
tree does one operation after the other. On a row with one it is NULL and nothing is computed, where
an operation below the NULL could fail. -/
namespace Antb1.Exec.Decimal

open Lib Plan List

variable {expr : Expr} {source : Source} {row : Nat}

section Step

variable {step : Step} {x y : Int}

theorem narrowValue_some {side : Side} (isValue : side.narrowValue step x = some y) :
    y = x * side.factor64 ∧ InInt64 y ∧
      ((side.factor64 ≠ 1 ∨ side.check = true) → step.min64 ≤ y ∧ y ≤ step.max64) := by
  have product : (if side.factor64 ≠ 1 then x * side.factor64 else x) = x * side.factor64 := by
    split
    case isTrue => rfl
    case isFalse one => rw [not_not.mp one, mul_one]
  unfold Side.narrowValue at isValue
  dsimp only at isValue
  rw [product] at isValue
  split at isValue
  case isTrue => cases isValue
  case isFalse fits =>
  split at isValue
  case isTrue => cases isValue
  case isFalse inRange =>
    cases isValue
    refine ⟨rfl, by simpa using fits, fun checks => ?_⟩
    by_contra beyond
    apply inRange
    simp only [ne_eq, Bool.and_eq_true, Bool.or_eq_true, decide_eq_true_eq]
    exact ⟨by simpa using checks, by omega⟩

theorem inInt128_of_inInt64 (held : InInt64 x) : InInt128 x := by
  unfold InInt64 at held
  exact ⟨by omega, by omega⟩

theorem value_of_narrow {side : Side} (sameMin : step.min64 = step.range.min)
    (sameMax : step.max64 = step.range.max) (sameFactor : side.factor64 = side.factor)
    (isValue : side.narrowValue step x = some y) : side.value step x = .ok y := by
  obtain ⟨rfl, fits, inRange⟩ := narrowValue_some isValue
  rw [sameMin, sameMax, sameFactor] at inRange
  rw [sameFactor] at fits ⊢
  unfold Side.value
  split
  case isTrue scaled => exact if_pos ⟨inInt128_of_inInt64 fits, inRange (.inl scaled)⟩
  case isFalse one =>
    rw [not_not.mp one, mul_one] at inRange ⊢
    refine if_neg ?_
    rintro ⟨check, beyond⟩
    exact beyond (inRange (.inr check))

/-- A step whose int64 form has the bounds and factors of its Int128 form. -/
structure Faithful (step : Step) : Prop where
  min : step.narrow = true → step.min64 = step.range.min
  max : step.narrow = true → step.max64 = step.range.max
  left : step.narrow = true → step.left.factor64 = step.left.factor
  right : step.narrow = true → step.right.factor64 = step.right.factor

theorem narrowed_faithful (fresh : step.narrow = false) : Faithful step.narrowed := by
  unfold Step.narrowed
  split
  case isTrue => exact ⟨fun _ => rfl, fun _ => rfl, fun _ => rfl, fun _ => rfl⟩
  case isFalse =>
    rw [← Bool.not_eq_true] at fresh
    constructor <;> exact fun narrow => absurd narrow fresh

theorem finish_narrow (faithful : Faithful step) (narrow : step.narrow = true) {x y z : Int}
    (fits : InInt64 z) (low : step.min64 ≤ z) (high : z ≤ step.max64) :
    step.finish x y z = .ok (some z) := by
  rw [faithful.min narrow] at low
  rw [faithful.max narrow] at high
  exact if_pos ⟨inInt128_of_inInt64 fits, low, high⟩

/-- The int64 form of a step agrees with the Int128 form wherever it has a value. -/
theorem wideStep_of_narrow (faithful : Faithful step) (narrow : step.narrow = true)
    {x y value : Int} (isValue : step.narrowStep x y = some value) :
    step.wideStep x y = .ok (some value) := by
  unfold Step.narrowStep at isValue
  split at isValue
  case isTrue => cases isValue
  case isFalse =>
  obtain ⟨l, isLeft, isValue⟩ := Option.bind_eq_some_iff.mp isValue
  obtain ⟨r, isRight, isValue⟩ := Option.bind_eq_some_iff.mp isValue
  obtain ⟨z, isResult, isValue⟩ := Option.bind_eq_some_iff.mp isValue
  split at isValue
  case isTrue => cases isValue
  case isFalse inRange =>
  cases isValue
  rw [Bool.or_eq_true, decide_eq_true_eq, decide_eq_true_eq, not_or] at inRange
  have finish : ∀ {a b : Int}, InInt64 value → step.finish a b value = .ok (some value) := fun fits =>
    finish_narrow faithful narrow fits (by omega) (by omega)
  have leftValue := value_of_narrow (faithful.min narrow) (faithful.max narrow)
    (faithful.left narrow) isLeft
  have rightValue := value_of_narrow (faithful.min narrow) (faithful.max narrow)
    (faithful.right narrow) isRight
  rw [Step.wideStep, leftValue, ok_bind, rightValue, ok_bind]
  unfold narrowResult at isResult
  obtain ⟨w, isCombined, isResult⟩ := Option.bind_eq_some_iff.mp isResult
  split at isResult
  case isFalse => cases isResult
  case isTrue fits =>
    cases isResult
    cases isOp : step.op <;> rw [isOp] at isCombined <;> cases isCombined <;> exact finish fits

theorem run_eq_wideStep (faithful : Faithful step) (x y : Int) :
    step.run x y = step.wideStep x y := by
  unfold Step.run
  split
  case isFalse => rfl
  case isTrue narrow =>
    cases isValue : step.narrowStep x y with
    | none => rfl
    | some value => exact (wideStep_of_narrow faithful narrow isValue).symm

theorem narrowed_wideStep (x y : Int) : step.narrowed.wideStep x y = step.wideStep x y := by
  unfold Step.narrowed
  split <;> rfl

end Step

/-- A value is within its type wherever the program does not check it. -/
def DecimalProgram.trusts (program : DecimalProgram) : Source → Bool
  | .column at_ => (program.columns[at_]?.map (·.checked)).getD true
  | _ => true

theorem unchecked_eq (program : DecimalProgram) (op : ArithOp) (source : Source) (factor : Int) :
    program.unchecked op source factor =
      (op ≠ .multiply && factor = 1 && !program.trusts source) := by
  cases source <;> simp [DecimalProgram.unchecked, DecimalProgram.trusts]

section Tree

variable {op : ArithOp} {operand left right result : LogicalType} {program : DecimalProgram}
  {x y : Int}

theorem stepFactor_eq_one (le : op ≠ .multiply → operand.scale ≤ result.scale) :
    stepFactor operand result op = 1 ↔ op = .multiply ∨ operand.scale = result.scale := by
  refine ⟨fun one => or_iff_not_imp_left.mpr fun other => ?_, stepFactor_same⟩
  have scale_le := le other
  rw [stepFactor_scaled other] at one
  have zero : result.scale - operand.scale = 0 := by
    by_contra positive
    have large : (10 : Int) ≤ 10 ^ (result.scale - operand.scale) := by
      exact_mod_cast Nat.le_self_pow positive 10
    unfold scaleFactor at one
    omega
  omega

/-- What the combination of two values still asks of an operand. -/
def Admits (op : ArithOp) (result : LogicalType) (x : Int) : Prop :=
  op = .multiply ∨ (rangeOf result).Holds x

instance (op : ArithOp) (result : LogicalType) : DecidablePred (Admits op result) :=
  fun _ => inferInstanceAs (Decidable (_ ∨ _))

/-- One side of a step gives the operand's value where the operation admits it, and fails where it
does not. -/
theorem side_follows (exact : result.isExactNumber = true) (valid : result.Valid) (column : String)
    {step : Step} (range : step.range = rangeOf result)
    (aligned : op ≠ .multiply → Aligned operand result)
    (trusted : program.trusts source = true → (rangeOf operand).Holds x) :
    Follows (fun y => Admits op result y ∧ y = x * stepFactor operand result op)
      (¬Admits op result (x * stepFactor operand result op))
      ((program.side op source operand column result).value step x) := by
  have one := stepFactor_eq_one fun other => (aligned other).scale_le
  unfold Side.value
  rw [range]
  by_cases kept : op = .multiply ∨ operand.scale = result.scale
  · have isOne : (program.side op source operand column result).factor = 1 := one.mpr kept
    have check : (program.side op source operand column result).check =
        (op ≠ .multiply && !program.trusts source) := by
      change program.unchecked op source _ = _
      rw [unchecked_eq, decide_eq_true (one.mpr kept), Bool.and_true]
    rw [if_neg (not_not.mpr isOne), one.mpr kept, mul_one]
    by_cases admits : Admits op result x
    · rw [if_neg]
      · exact ⟨admits, rfl⟩
      rintro ⟨checked, beyond⟩
      rw [check, Bool.and_eq_true, decide_eq_true_eq] at checked
      exact beyond (admits.resolve_left checked.1)
    · have other : op ≠ .multiply := fun product => admits (.inl product)
      have beyond : ¬ (rangeOf result).Holds x := fun holds => admits (.inr holds)
      rw [if_pos]
      · exact admits
      refine ⟨?_, beyond⟩
      rw [check, Bool.and_eq_true, decide_eq_true_eq, Bool.not_eq_true']
      refine ⟨other, Bool.eq_false_iff.mpr fun trusts => beyond ?_⟩
      exact (aligned other).nested (kept.resolve_left other) x (trusted trusts)
  · have factor : (program.side op source operand column result).factor =
        stepFactor operand result op := rfl
    rw [factor, if_pos fun isOne => kept (one.mp isOne)]
    by_cases holds : (rangeOf result).Holds (x * stepFactor operand result op)
    · rw [if_pos ⟨holds_inInt128 exact valid holds, holds⟩]
      exact ⟨.inr holds, rfl⟩
    · rw [if_neg fun fits => holds fits.2]
      exact fun admits => admits.elim (fun product => kept (.inl product)) holds

theorem finish_follows (exact : result.isExactNumber = true) (valid : result.Valid) {step : Step}
    (range : step.range = rangeOf result) (x y value : Int) :
    Follows (fun out => (rangeOf result).Holds value ∧ out = some value)
      (¬(rangeOf result).Holds value) (step.finish x y value) := by
  unfold Step.finish
  rw [range]
  by_cases holds : (rangeOf result).Holds value
  · rw [if_pos ⟨holds_inInt128 exact valid holds, holds⟩]
    exact ⟨holds, rfl⟩
  · rw [if_neg fun fits => holds fits.2]
    exact holds

section Among

variable (among : op ∈ [.add, .subtract, .multiply])
include among

theorem not_exceeds_iff : ¬Exceeds op result x y ↔
    Admits op result x ∧ Admits op result y ∧ (rangeOf result).Holds (combine op x y) := by
  have known : ¬(op = .divide ∨ op = .integerDivide) := by
    rintro (rfl | rfl) <;> simp at among
  unfold Exceeds Admits
  tauto

theorem rowValue_some : rowValue op left right result (some x) (some y) =
    some (combine op (x * stepFactor left result op) (y * stepFactor right result op)) := by
  refine if_neg ?_
  rintro ⟨rfl, -⟩
  simp at among

theorem wideStep_follows (exact : result.isExactNumber = true) (valid : result.Valid)
    {leftSource rightSource : Source} {leftColumn rightColumn : String} (step : Step)
    (isLeft : step.left = program.side op leftSource left leftColumn result)
    (isRight : step.right = program.side op rightSource right rightColumn result)
    (isOp : step.op = op) (range : step.range = rangeOf result)
    (aligned : op ≠ .multiply → Aligned left result ∧ Aligned right result)
    (trustedLeft : program.trusts leftSource = true → (rangeOf left).Holds x)
    (trustedRight : program.trusts rightSource = true → (rangeOf right).Holds y) :
    Follows (Gives op left right result (some x) (some y))
      (Beyond op left right result (some x) (some y)) (step.wideStep x y) := by
  have admits : ¬Exceeds op result (x * stepFactor left result op)
      (y * stepFactor right result op) ↔ _ := not_exceeds_iff among
  rw [beyond_some, Step.wideStep, isLeft, isRight]
  refine ((side_follows exact valid leftColumn range (fun other => (aligned other).1)
    trustedLeft).imp (fun _ => id) fun rejected => not_not.mp (mt (fun kept => (admits.mp kept).1)
      rejected)).bind ?_
  rintro _ ⟨admitsLeft, rfl⟩
  refine ((side_follows exact valid rightColumn range (fun other => (aligned other).2)
    trustedRight).imp (fun _ => id) fun rejected => not_not.mp (mt (fun kept =>
      (admits.mp kept).2.1) rejected)).bind ?_
  rintro _ ⟨admitsRight, rfl⟩
  have finish : Follows (Gives op left right result (some x) (some y))
      (Exceeds op result (x * stepFactor left result op) (y * stepFactor right result op))
      (step.finish (x * stepFactor left result op) (y * stepFactor right result op)
        (combine op (x * stepFactor left result op) (y * stepFactor right result op))) := by
    refine (finish_follows exact valid range _ _ _).imp ?_ fun beyond => .inr (.inr beyond)
    rintro out ⟨holds, isOut⟩
    exact ⟨mt beyond_some.mp (admits.mpr ⟨admitsLeft, admitsRight, holds⟩),
      isOut.trans (rowValue_some among).symm⟩
  rw [isOp]
  simp only [mem_cons, not_mem_nil, or_false] at among
  rcases among with rfl | rfl | rfl <;> exact finish

end Among

end Tree

section Compile

variable {evaluator : Evaluator}

/-- What a program does on a row for a tree whose steps follow the slots: the tree's value, which
later steps read, or a failure where the tree overflows. -/
inductive Outcome (evaluator : Evaluator) (expr : Expr) (final : DecimalProgram) (row : Nat)
    (steps : List Step) (slots : List Int) (source : Source) : Prop where
  | value (v : Int) (new : List Int) (isValue : evaluator.value row expr = some v)
      (kept : ¬evaluator.Overflows row expr) (length : new.length = steps.length)
      (runs : ∀ rest, final.runSteps row (steps ++ rest) slots =
        final.runSteps row rest (slots ++ new))
      (reads : ∀ later, final.read row (slots ++ new ++ later) source = v)
      (trusted : final.trusts source = true → (rangeOf expr.type).Holds v)
  | fails (overflows : evaluator.Overflows row expr) (failed : ∀ rest, ∃ status,
      final.runSteps row (steps ++ rest) slots = .error (.failed status))

structure Compiled (evaluator : Evaluator) (expr : Expr) (program : DecimalProgram)
    (source : Source) (next : DecimalProgram) (columns : List DecimalOperand)
    (constants : List Int) (steps : List Step) : Prop where
  columnsEq : next.columns = program.columns ++ columns
  constantsEq : next.constants = program.constants ++ constants
  stepsEq : next.steps = program.steps ++ steps
  faithful : ∀ step ∈ steps, Faithful step
  /-- Later columns change nothing about the source. -/
  stable : ∀ final : DecimalProgram, next.columns <+: final.columns →
    final.trusts source = next.trusts source
  /-- The tree has a value where every column it reads has one. -/
  present : ∀ row, (∀ operand ∈ columns, (operand.values.at row).isSome = true) ↔
    (evaluator.value row expr).isSome = true
  runs : ∀ row < evaluator.numRows, (∀ operand ∈ columns, (operand.values.at row).isSome = true) →
    ∀ final : DecimalProgram, next.columns <+: final.columns →
      next.constants <+: final.constants → ∀ slots : List Int,
      slots.length = program.steps.length →
      Outcome evaluator expr final row steps slots source

theorem runSteps_cons {program : DecimalProgram} {step : Step} (rest : List Step) {slots : List Int}
    {value : Int} (ran : step.run (program.read row slots step.left.source)
      (program.read row slots step.right.source) = .ok (some value)) :
    program.runSteps row (step :: rest) slots = program.runSteps row rest (slots ++ [value]) := by
  rw [DecimalProgram.runSteps, ran]
  rfl

theorem getElem?_of_isPrefix {α : Type} {list final : List α} {a : α}
    (isPrefix : list ++ [a] <+: final) : final[list.length]? = some a := by
  obtain ⟨rest, rfl⟩ := isPrefix
  simp

/-- A column the program reads in place. -/
theorem column_compiled {values : Column} (program : DecimalProgram)
    (isLeaf : evaluator.leafValues expr = some (.array values)) {operand : DecimalOperand}
    (isOperand : operand.values = .array values)
    (trusted : operand.checked = true → ∀ x, some x ∈ values → (rangeOf expr.type).Holds x) :
    Compiled evaluator expr program (.column program.columns.length)
      { program with columns := program.columns ++ [operand] } [operand] [] [] := by
  constructor
  case columnsEq => rfl
  case constantsEq => exact (append_nil _).symm
  case stepsEq => exact (append_nil _).symm
  case faithful => exact fun _ among => nomatch among
  case stable =>
    intro final columns
    rw [DecimalProgram.trusts, DecimalProgram.trusts, getElem?_of_isPrefix columns,
      getElem?_of_isPrefix prefix_rfl]
  case present =>
    intro row
    rw [forall_mem_singleton, isOperand, value_leaf isLeaf]
  case runs =>
    intro row _ present final columns _ slots _
    have found := getElem?_of_isPrefix columns
    obtain ⟨v, isValue⟩ := Option.isSome_iff_exists.mp (present operand mem_cons_self)
    have inRow : (Values.array values).at row = some v := isOperand ▸ isValue
    apply Outcome.value v []
    case isValue => rw [value_leaf isLeaf, inRow]
    case kept => exact not_overflows_leaf isLeaf row
    case length => rfl
    case runs => exact fun rest => by rw [nil_append, append_nil]
    case reads =>
      intro later
      rw [DecimalProgram.read, found, Option.bind_some, isValue, Option.getD_some]
    case trusted =>
      intro trusts
      rw [DecimalProgram.trusts, found] at trusts
      exact trusted trusts v (mem_of_getD inRow)

theorem constant_compiled {value : Int} (program : DecimalProgram)
    (isLeaf : evaluator.leafValues expr = some (.scalar value))
    (held : (rangeOf expr.type).Holds value) :
    Compiled evaluator expr program (.constant program.constants.length)
      { program with constants := program.constants ++ [value] } [] [value] [] := by
  constructor
  case columnsEq => exact (append_nil _).symm
  case constantsEq => rfl
  case stepsEq => exact (append_nil _).symm
  case faithful => exact fun _ among => nomatch among
  case stable => exact fun _ _ => rfl
  case present =>
    intro row
    rw [value_leaf isLeaf]
    exact iff_of_true (forall_mem_nil _) rfl
  case runs =>
    intro row _ _ final _ constants slots _
    apply Outcome.value value []
    case isValue => exact value_leaf isLeaf row
    case kept => exact not_overflows_leaf isLeaf row
    case length => rfl
    case runs => exact fun rest => by rw [nil_append, append_nil]
    case reads =>
      intro later
      rw [DecimalProgram.read, getD_eq_getElem?_getD, getElem?_of_isPrefix constants,
        Option.getD_some]
    case trusted => exact fun _ => held

/-- How an expression is compiled as a leaf, if it is one. -/
inductive Leaf (expr : Expr) (program : DecimalProgram) :
    Option Values → Option (Source × DecimalProgram) → Prop
  | none : Leaf expr program none none
  | constant {value : Int} (held : (rangeOf expr.type).Holds value) :
      Leaf expr program (some (.scalar value)) (some (.constant program.constants.length,
        { program with constants := program.constants ++ [value] }))
  | column {values : Column} {operand : DecimalOperand} (isOperand : operand.values = .array values)
      (trusted : operand.checked = true → ∀ x, some x ∈ values → (rangeOf expr.type).Holds x) :
      Leaf expr program (some (.array values)) (some (.column program.columns.length,
        { program with columns := program.columns ++ [operand] }))

theorem compileLeaf_leaf (earlier : evaluator.EarlierAll) (typed : evaluator.Typed expr)
    (program : DecimalProgram) :
    Leaf expr program (evaluator.leafValues expr) (compileLeaf evaluator expr program) := by
  unfold compileLeaf Evaluator.leafValues
  cases isReused : evaluator.reused expr with
  | some values => exact .column rfl (reused_earlier earlier isReused).2.2.1
  | none =>
    cases isConstant : unscaledConstant expr with
    | some value => exact .constant (constant_holds typed isConstant)
    | none =>
      cases expr with
      | column column type =>
        dsimp only
        split
        case isFalse => exact .none
        case isTrue decimal =>
          cases evaluator.columnValues column with
          | none => exact .none
          | some values =>
            refine .column rfl fun checked => ?_
            change (!isArrowDecimal type) = true at checked
            rw [arrowDecimal_of_decimal decimal] at checked
            cases checked
      | _ => exact .none

theorem compileLeaf_none (earlier : evaluator.EarlierAll) (typed : evaluator.Typed expr)
    {program : DecimalProgram} (notCompiled : compileLeaf evaluator expr program = none) :
    evaluator.leafValues expr = none := by
  have leaf := compileLeaf_leaf earlier typed program
  rw [notCompiled] at leaf
  generalize evaluator.leafValues expr = values at leaf ⊢
  cases leaf
  rfl

variable {op : ArithOp} {left right : Expr} {type : LogicalType}

/-- The step of an operation, over the programs of its operands. -/
def stepOf (evaluator : Evaluator) (program : DecimalProgram) (op : ArithOp) (left right : Expr)
    (leftSource rightSource : Source) (type : LogicalType) : Step where
  left := program.side op leftSource left.type (evaluator.columnName left) type
  right := program.side op rightSource right.type (evaluator.columnName right) type
  op := op
  type := type
  range := rangeOf type

theorem narrowed_sources (step : Step) : step.narrowed.left.source = step.left.source ∧
    step.narrowed.right.source = step.right.source := by
  unfold Step.narrowed
  split <;> exact ⟨rfl, rfl⟩

/-- An operation's own step, after those of its operands. -/
theorem Outcome.step {final : DecimalProgram} {steps : List Step} {slots new : List Int} {step : Step}
    {v w : Int} (among : op ∈ [.add, .subtract, .multiply])
    (inner : evaluator.leafValues (.arith op left right type) = none)
    (isLeft : evaluator.value row left = some v) (keptLeft : ¬evaluator.Overflows row left)
    (isRight : evaluator.value row right = some w) (keptRight : ¬evaluator.Overflows row right)
    (follows : Follows (Gives op left.type right.type type (some v) (some w))
      (Beyond op left.type right.type type (some v) (some w)) (step.run v w))
    (length : new.length = steps.length) (runs : ∀ rest, final.runSteps row (steps ++ rest) slots =
      final.runSteps row rest (slots ++ new))
    (readLeft : final.read row (slots ++ new) step.left.source = v)
    (readRight : final.read row (slots ++ new) step.right.source = w) :
    Outcome evaluator (.arith op left right type) final row (steps ++ [step]) slots
      (.step (slots ++ new).length) := by
  rw [← isLeft, ← isRight] at follows
  cases ran : step.run v w with
  | error fault =>
    rw [ran] at follows
    cases fault with
    | undefined _ => exact follows.elim
    | failed status =>
      refine .fails ⟨inner, .inr (.inr follows)⟩ fun rest => ⟨status, ?_⟩
      rw [append_assoc, runs]
      change final.runSteps row (step :: rest) _ = _
      rw [DecimalProgram.runSteps, readLeft, readRight, ran]
      rfl
  | ok out =>
    rw [ran] at follows
    have gives : Gives op left.type right.type type _ _ out := follows
    have isValue : evaluator.value row (.arith op left right type) = out :=
      (value_arith inner row).trans gives.value.symm
    cases out with
    | none =>
      rw [value_arith inner, isLeft, isRight, rowValue_some among] at isValue
      cases isValue
    | some z =>
    apply Outcome.value z (new ++ [z]) isValue
    case kept => exact not_overflows_arith keptLeft keptRight gives.kept
    case length => rw [length_append, length_append, length]; rfl
    case runs =>
      intro rest
      rw [append_assoc, runs, ← append_assoc]
      apply runSteps_cons
      rw [readLeft, readRight]
      exact ran
    case reads =>
      intro later
      rw [DecimalProgram.read, ← append_assoc, append_assoc, getD_append_right _ _ _ _ le_rfl,
        Nat.sub_self]
      rfl
    case trusted => exact fun _ => gives.holds

section Operation

variable {program x y final : DecimalProgram} {leftSource rightSource : Source}
  {leftColumns rightColumns : List DecimalOperand} {leftConstants rightConstants : List Int}
  {leftSteps rightSteps : List Step}
  (isLeft : Compiled evaluator left program leftSource x leftColumns leftConstants leftSteps)
  (isRight : Compiled evaluator right x rightSource y rightColumns rightConstants rightSteps)
  (inner : evaluator.leafValues (.arith op left right type) = none)
  (decimal : type.isDecimal = true) (among : op ∈ [.add, .subtract, .multiply])
  (typed : evaluator.Typed (.arith op left right type)) {step : Step}
  (isStep : step = stepOf evaluator y op left right leftSource rightSource type)
include isLeft isRight inner decimal among typed isStep

theorem arith_outcome (bound : row < evaluator.numRows)
    (present : ∀ operand ∈ leftColumns ++ rightColumns, (operand.values.at row).isSome = true)
    (columns : y.columns <+: final.columns) (constants : y.constants <+: final.constants)
    {slots : List Int} (length : slots.length = program.steps.length) :
    Outcome evaluator (.arith op left right type) final row
      (leftSteps ++ rightSteps ++ [step.narrowed]) slots (.step y.steps.length) := by
  obtain ⟨leftPresent, rightPresent⟩ := forall_mem_append.mp present
  have leftInY : x.columns <+: y.columns := isRight.columnsEq ▸ prefix_append _ _
  have leftConstantsInY : x.constants <+: y.constants :=
    isRight.constantsEq ▸ prefix_append _ _
  have ranLeft := isLeft.runs row bound leftPresent final (leftInY.trans columns)
    (leftConstantsInY.trans constants) slots length
  cases ranLeft with
  | fails overflows failed =>
    refine .fails ⟨inner, .inl overflows⟩ fun rest => ?_
    rw [append_assoc, append_assoc]
    exact failed _
  | value v new isLeftValue keptLeft newLength runs reads trusted =>
  have slotsLength : (slots ++ new).length = x.steps.length := by
    rw [length_append, length, newLength, isLeft.stepsEq, length_append]
  have ranRight := isRight.runs row bound rightPresent final columns constants (slots ++ new)
    slotsLength
  cases ranRight with
  | fails overflows failed =>
    refine .fails ⟨inner, .inr (.inl overflows)⟩ fun rest => ?_
    rw [append_assoc, append_assoc, runs]
    exact failed _
  | value w newer isRightValue keptRight newerLength runsRight readsRight trustedRight =>
  obtain ⟨ofLeft, ofRight⟩ : step.narrowed.left.source = leftSource ∧
      step.narrowed.right.source = rightSource := isStep ▸ narrowed_sources _
  have isLast : (slots ++ (new ++ newer)).length = y.steps.length := by
    rw [← append_assoc, length_append, slotsLength, newerLength, isRight.stepsEq, length_append]
  rw [← isLast]
  apply Outcome.step among inner isLeftValue keptLeft isRightValue keptRight
  case follows =>
    rw [run_eq_wideStep (narrowed_faithful (isStep ▸ rfl)), narrowed_wideStep, isStep]
    apply wideStep_follows among typed.1 typed.2.1 _ rfl rfl rfl rfl (typed_aligned typed decimal)
    -- the step trusts what the final program trusts: later columns change nothing
    · rw [isLeft.stable y leftInY, ← isLeft.stable final (leftInY.trans columns)]
      exact trusted
    · rw [← isRight.stable final columns]
      exact trustedRight
  case length => rw [length_append, length_append, newLength, newerLength]
  case runs =>
    intro rest
    rw [append_assoc, runs, runsRight, append_assoc]
  case readLeft =>
    rw [ofLeft, ← append_assoc]
    exact reads newer
  case readRight =>
    rw [ofRight, ← append_assoc, ← append_nil (_ ++ newer)]
    exact readsRight []

theorem arith_compiled :
    Compiled evaluator (.arith op left right type) program (.step y.steps.length)
      { y with steps := y.steps ++ [step.narrowed] }
      (leftColumns ++ rightColumns) (leftConstants ++ rightConstants)
      (leftSteps ++ rightSteps ++ [step.narrowed]) := by
  constructor
  case columnsEq => rw [isRight.columnsEq, isLeft.columnsEq, append_assoc]
  case constantsEq => rw [isRight.constantsEq, isLeft.constantsEq, append_assoc]
  case stepsEq =>
    change y.steps ++ _ = _
    rw [isRight.stepsEq, isLeft.stepsEq]
    simp only [append_assoc]
  case faithful =>
    intro other among'
    rcases mem_append.mp among' with operand | own
    · rcases mem_append.mp operand with ofLeft | ofRight
      · exact isLeft.faithful other ofLeft
      · exact isRight.faithful other ofRight
    · obtain rfl := mem_singleton.mp own
      exact narrowed_faithful (isStep ▸ rfl)
  case stable => exact fun _ _ => rfl
  case present =>
    intro row
    rw [forall_mem_append, isLeft.present, isRight.present, value_arith inner]
    cases evaluator.value row left with
    | none => simp [rowValue]
    | some x =>
      cases evaluator.value row right with
      | none => simp [rowValue]
      | some y => simp [rowValue_some among]
  case runs =>
    intro row bound present final columns constants slots length
    exact arith_outcome isLeft isRight inner decimal among typed isStep bound present columns
      constants length

end Operation

/-- What a compiled expression is: a tree whose steps, within the slots, follow every row of it. -/
structure Covers (evaluator : Evaluator) (expr : Expr) (program : DecimalProgram) (source : Source)
    (next : DecimalProgram) : Prop where
  tree : evaluator.Tree expr
  bounded : program.steps.length ≤ kMaxProgramSteps → next.steps.length ≤ kMaxProgramSteps
  last : ∀ at_, source = .step at_ → at_ + 1 = next.steps.length
  compiled : ∃ columns constants steps,
    Compiled evaluator expr program source next columns constants steps

theorem compileLeaf_covers (earlier : evaluator.EarlierAll) (typed : evaluator.Typed expr)
    {program next : DecimalProgram}
    (isLeaf : compileLeaf evaluator expr program = some (source, next)) :
    Covers evaluator expr program source next := by
  have leaf := compileLeaf_leaf earlier typed program
  generalize found : evaluator.leafValues expr = values at leaf
  rw [isLeaf] at leaf
  cases leaf with
  | constant held => exact ⟨.leaf found, id, nofun, _, _, [], constant_compiled program found held⟩
  | column isOperand trusted =>
    exact ⟨.leaf found, id, nofun, _, _, [], column_compiled program found isOperand trusted⟩

theorem arith_covers {program x y : DecimalProgram}
    {leftSource rightSource : Source} (isLeft : Covers evaluator left program leftSource x)
    (isRight : Covers evaluator right x rightSource y)
    (inner : evaluator.leafValues (.arith op left right type) = none)
    (decimal : type.isDecimal = true) (among : op ∈ [.add, .subtract, .multiply])
    (typed : evaluator.Typed (.arith op left right type))
    (fits : y.steps.length + 1 ≤ kMaxProgramSteps) :
    Covers evaluator (.arith op left right type) program (.step y.steps.length)
      { y with steps := y.steps ++
        [(stepOf evaluator y op left right leftSource rightSource type).narrowed] } := by
  obtain ⟨_, _, _, compiledLeft⟩ := isLeft.compiled
  obtain ⟨_, _, _, compiledRight⟩ := isRight.compiled
  have length : (y.steps ++
      [(stepOf evaluator y op left right leftSource rightSource type).narrowed]).length =
        y.steps.length + 1 := by rw [length_append, length_singleton]
  constructor
  case tree => exact .arith inner decimal among isLeft.tree isRight.tree
  case bounded => exact fun _ => length ▸ fits
  case last =>
    intro at_ isStep
    cases isStep
    exact length.symm
  case compiled =>
    exact ⟨_, _, _, arith_compiled compiledLeft compiledRight inner decimal among typed rfl⟩

theorem compile_covers (earlier : evaluator.EarlierAll) (typed : evaluator.Typed expr)
    {program next : DecimalProgram}
    (compiled : compile evaluator expr program = some (source, next)) :
    Covers evaluator expr program source next := by
  fun_induction compile evaluator expr program generalizing source next with
  | case1 op left right type program leaf isLeaf =>
    cases compiled
    exact compileLeaf_covers earlier typed isLeaf
  | case2 => cases compiled
  | case3 => cases compiled
  | case4 op left right type program notLeaf covered isOp ihLeft ihRight =>
    have decimal : type.isDecimal = true := by
      simp only [Bool.or_eq_true, Bool.not_eq_true', not_or] at covered
      exact Bool.eq_true_of_not_eq_false covered.1
    have among : op ∈ [.add, .subtract, .multiply] := by
      cases op <;> simp_all
    obtain ⟨typedLeft, typedRight, _⟩ := typed.2.2 decimal
    obtain ⟨⟨leftSource, x⟩, isX, compiled⟩ := Option.bind_eq_some_iff.mp compiled
    obtain ⟨⟨rightSource, y⟩, isY, compiled⟩ := Option.bind_eq_some_iff.mp compiled
    split at compiled
    case isTrue => cases compiled
    case isFalse fits =>
      cases compiled
      exact arith_covers (ihLeft typedLeft isX) (ihRight (leftSource, x) typedRight isY)
        (compileLeaf_none earlier typed notLeaf) decimal among typed (not_lt.mp fits)
  | case5 expr program => exact compileLeaf_covers earlier typed compiled

end Compile

section Run

variable {evaluator : Evaluator} {program : DecimalProgram}

theorem programOf_compiled (isProgram : evaluator.programOf expr = some program) :
    ∃ at_, compile evaluator expr {} = some (.step at_, program) ∧ program.columns ≠ [] := by
  unfold Evaluator.programOf at isProgram
  split at isProgram
  case h_2 => cases isProgram
  case h_1 at_ found compiled =>
    split at isProgram
    case isTrue => cases isProgram
    case isFalse some_ =>
      cases isProgram
      exact ⟨at_, compiled, fun none => some_ (isEmpty_iff.mpr none)⟩

section Row

variable (earlier : evaluator.EarlierAll) (typed : evaluator.Typed expr)
  (isProgram : evaluator.programOf expr = some program)
include earlier typed isProgram

theorem programOf_covers : ∃ at_, Covers evaluator expr {} (.step at_) program := by
  obtain ⟨at_, compiled, _⟩ := programOf_compiled isProgram
  exact ⟨at_, compile_covers earlier typed compiled⟩

theorem validRow_iff (row : Nat) :
    program.validRow row = true ↔ (evaluator.value row expr).isSome = true := by
  obtain ⟨at_, covers⟩ := programOf_covers earlier typed isProgram
  obtain ⟨columns, constants, steps, compiled⟩ := covers.compiled
  have isColumns : program.columns = columns := compiled.columnsEq
  rw [← compiled.present, ← isColumns]
  exact all_eq_true

/-- One row of a program: what the tree is, unless it overflows where it is not NULL. -/
theorem runRow_follows (bound : row < evaluator.numRows) :
    Follows (fun out => ¬evaluator.OverflowsPresent row expr ∧ out = evaluator.value row expr)
      (evaluator.OverflowsPresent row expr) (program.runRow expr.type row) := by
  have validRow := validRow_iff earlier typed isProgram row
  obtain ⟨at_, covers⟩ := programOf_covers earlier typed isProgram
  obtain ⟨columns, constants, steps, compiled⟩ := covers.compiled
  have isSteps : program.steps = steps := compiled.stepsEq
  unfold DecimalProgram.runRow
  split
  case isFalse isNull =>
    rw [validRow] at isNull
    exact ⟨fun present => isNull present.1, (Option.not_isSome_iff_eq_none.mp isNull).symm⟩
  case isTrue valid =>
    have present := validRow.mp valid
    have ran := compiled.runs row bound ((compiled.present row).mpr present) program
      prefix_rfl prefix_rfl [] rfl
    rw [isSteps]
    cases ran with
    | fails overflows failed =>
      obtain ⟨status, isFault⟩ := failed []
      rw [append_nil] at isFault
      rw [isFault]
      exact ⟨present, overflows⟩
    | value v new isValue kept length runs reads trusted =>
      have ends := runs []
      rw [append_nil] at ends
      have isLast : at_ = steps.length - 1 := by
        have last := covers.last at_ rfl
        rw [isSteps] at last
        omega
      have slot : new.getD (steps.length - 1) 0 = v := by
        have atEnd := reads []
        rw [append_nil, isLast] at atEnd
        exact atEnd
      rw [ends]
      refine ⟨fun overflows => kept overflows.2, ?_⟩
      change some (append expr.type (new.getD (steps.length - 1) 0)) = _
      rw [slot, isValue, append_stored typed.exact.1
        (stored_of_holds typed.exact.1 typed.exact.2 (trusted rfl))]

theorem run_follows : Follows (fun out => out.length = evaluator.numRows ∧
      ∀ row < evaluator.numRows, ¬evaluator.OverflowsPresent row expr ∧
        out.getD row none = evaluator.value row expr)
    (∃ row < evaluator.numRows, evaluator.OverflowsPresent row expr)
    (program.run evaluator.numRows expr.type) :=
  (follows_mapM fun _ inRows => runRow_follows earlier typed isProgram (mem_range.mp inRows)).imp
    (fun _ => forall₂_range.mp) fun ⟨row, inRows, overflows⟩ => ⟨row, mem_range.mp inRows, overflows⟩

theorem run_of_computes {out : Column} (computes : Computes evaluator expr out) :
    program.run evaluator.numRows expr.type = .ok out := by
  have follows := run_follows earlier typed isProgram
  generalize program.run evaluator.numRows expr.type = ran at follows
  rcases ran with (_ | _) | ran
  · obtain ⟨row, bound, overflows⟩ := follows
    exact absurd overflows.2 (computes.rows row bound).1
  · exact follows.elim
  · obtain ⟨length, rows⟩ := follows
    rw [← rows_eq length, ← rows_eq computes.held.length]
    refine congrArg _ (map_congr_left fun row inRows => ?_)
    rw [(rows row (mem_range.mp inRows)).2, ← (computes.rows row (mem_range.mp inRows)).2]

/-- A program fails where an operation goes beyond its type in a row that is not NULL. -/
theorem run_none : (program.run evaluator.numRows expr.type).toOption = none ↔
    ∃ row < evaluator.numRows,
      (evaluator.value row expr).isSome = true ∧ evaluator.Overflows row expr :=
  (run_follows earlier typed isProgram).toOption_none fun _ kept ⟨row, bound, overflows⟩ =>
    (kept.2 row bound).1 overflows

end Row

def Fails {T : Type} (result : Except Fault T) : Prop := ∃ fault, result = .error fault

end Run

/-- A compiled tree and the tree's evaluation, one operation after the other over whole columns,
fail together and have the same values otherwise, exactly where a batch with a constant that does
not fit its scale, or a row with an operation beyond its type, has such a row that is not NULL. No
step's int64 form changes what it does, and the steps fit the slots. -/
theorem programOf_agrees_iff (evaluator : Evaluator) (expr : Expr) (program : DecimalProgram)
    (isProgram : evaluator.programOf expr = some program) (typed : evaluator.Typed expr)
    (earlier : evaluator.EarlierAll) :
    ((program.run evaluator.numRows expr.type).toOption = (evaluator.nodeByNode expr).toOption ↔
      ((evaluator.Misfit expr ∨ ∃ row < evaluator.numRows, evaluator.Overflows row expr) →
        ∃ row < evaluator.numRows,
          (evaluator.value row expr).isSome = true ∧ evaluator.Overflows row expr)) ∧
    (∀ step ∈ program.steps, ∀ x y, step.run x y = step.wideStep x y) ∧
    program.steps.length ≤ kMaxProgramSteps := by
  obtain ⟨at_, covers⟩ := programOf_covers earlier typed isProgram
  obtain ⟨columns, constants, steps, compiled⟩ := covers.compiled
  have isSteps : program.steps = steps := compiled.stepsEq
  refine ⟨?_, ?_, covers.bounded (Nat.zero_le _)⟩
  · rw [← nodeByNode_none earlier covers.tree typed, ← run_none earlier typed isProgram]
    have follows := nodeByNode_follows earlier covers.tree typed
    cases ran : evaluator.nodeByNode expr with
    | ok out =>
      rw [ran] at follows
      rw [run_of_computes earlier typed isProgram follows]
      exact iff_of_true rfl fun none => nomatch none
    | error fault =>
      constructor
      · exact fun same _ => same
      · exact fun fails => fails rfl
  · intro step isStep
    exact run_eq_wideStep (compiled.faithful step (isSteps ▸ isStep))

/-- `(a + a) + b` over DECIMAL(38,0) columns. -/
def doubledSum : Expr :=
  let a : Expr := .column ⟨0, 1⟩ (.decimal 38 0)
  let b : Expr := .column ⟨1, 2⟩ (.decimal 38 0)
  .arith .add (.arith .add a a (.decimal 38 0)) b (.decimal 38 0)

/-- A batch of one row of `a` and `b`. -/
def oneRow (a b : Option Int) : Evaluator where
  numRows := 1
  columns := [[a], [b]]

theorem oneRow_typed {a b : Option Int} (heldA : ∀ x ∈ a, InInt128 x) (heldB : ∀ x ∈ b, InInt128 x) :
    (oneRow a b).Typed doubledSum := by
  have column : ∀ {values : Column} {value : Option Int}, (∀ x ∈ value, InInt128 x) →
      some [value] = some values → HeldColumn 1 (.decimal 38 0) values := by
    rintro values value held same
    cases same
    exact ⟨rfl, fun x among => held x (mem_singleton.mp among).symm⟩
  have isA : (oneRow a b).Typed (.column ⟨0, 1⟩ (.decimal 38 0)) :=
    ⟨rfl, by decide, fun values isColumn => column heldA isColumn⟩
  have isB : (oneRow a b).Typed (.column ⟨1, 2⟩ (.decimal 38 0)) :=
    ⟨rfl, by decide, fun values isColumn => column heldB isColumn⟩
  exact ⟨rfl, by decide, fun _ => ⟨⟨rfl, by decide, fun _ => ⟨isA, isA, rfl⟩⟩, isB, rfl⟩⟩

theorem oneRow_earlier (a b : Option Int) : (oneRow a b).EarlierAll :=
  fun _ among => nomatch among

theorem oneRow_agrees : ∃ program, (oneRow (some 1) none).programOf doubledSum = some program ∧
    ((program.run 1 (.decimal 38 0)).toOption =
      ((oneRow (some 1) none).nodeByNode doubledSum).toOption) := by
  have typed : (oneRow (some 1) none).Typed doubledSum :=
    oneRow_typed (fun x same => by cases same; decide) fun x none => nomatch none
  have earlier := oneRow_earlier (some 1) none
  refine ⟨_, rfl, ((programOf_agrees_iff _ _ _ rfl typed earlier).1).mpr fun beyond => ?_⟩
  obtain ⟨_, covers⟩ := programOf_covers earlier typed rfl
  have fails := (nodeByNode_none earlier covers.tree typed).mpr beyond
  cases fails

/-- The sum below a NULL overflows, and the program returns NULL. -/
theorem oneRow_overflow_below_null :
    (oneRow (some (10 ^ 38 - 1)) none).Typed doubledSum ∧
      (oneRow (some (10 ^ 38 - 1)) none).EarlierAll ∧
      ∃ program, (oneRow (some (10 ^ 38 - 1)) none).programOf doubledSum = some program ∧
        program.run 1 (.decimal 38 0) = .ok [none] ∧
        Fails ((oneRow (some (10 ^ 38 - 1)) none).nodeByNode doubledSum) := by
  have held : ∀ x ∈ some ((10 : Int) ^ 38 - 1), InInt128 x := by
    intro x same
    cases same
    decide
  exact ⟨oneRow_typed held (fun x none => nomatch none), oneRow_earlier _ _, _, rfl, rfl, _, rfl⟩

end Antb1.Exec.Decimal
