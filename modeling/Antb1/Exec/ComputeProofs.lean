import Mathlib.Data.List.GetD
import Antb1.Exec.Compute
import Antb1.Plan.ExprColumns

/-! Column-wise evaluation is row-by-row evaluation: it fails where some row fails, and gives every
row its own value. The invariant is the one of the masks: a row is open exactly where its own
evaluation still looks at the next part. -/
namespace Antb1.Exec.Compute

open Plan Masked List

variable {part : Part} {type : LogicalType} {branches : List (Part × Part)}
  {states : List (Value × Bool)} {result : List Value} {exprs : List Expr} {expr : Expr}

namespace RecordBatch

def Rectangular (batch : RecordBatch) : Prop :=
  ∀ column ∈ batch.columns, column.length = batch.numRows

def row (batch : RecordBatch) (i : Nat) : Row := fun position =>
  (batch.columns.getD position []).getD i .null

def rows (batch : RecordBatch) : List Row := (List.range batch.numRows).map batch.row

@[simp] theorem length_rows (batch : RecordBatch) : batch.rows.length = batch.numRows := by
  simp [rows]

end RecordBatch

mutual

/-- An expression as the binder builds them, over an input of `width` columns: what it reads is
there, AND, OR, NOT and conditions are over BOOLEANs, a predicate fits the types of its operands,
and a null pointer stands only for a THEN or
ELSE NULL or for the condition of a COALESCE argument. -/
def formed (width : Nat) : Expr → Bool
  | .null => false
  | .column column _ => 0 ≤ column.index && column.index.toNat < width
  | .constant _ _ => true
  | .arith _ left right _ => formed width left && formed width right
  | .negate operand _ => formed width operand
  | .function _ args _ => formedEach width args
  | .predicate predicate operands _ =>
    formedEach width operands && (PredicateEvaluator.make (operands.map Expr.type) predicate).isOk
  | .bool op args _ =>
    (if op = .not then args.length = 1 else 2 ≤ args.length : Bool) && formedEach width args &&
      args.all fun arg => arg.type = .boolean
  | .caseWhen whens thens otherwise _ =>
    whens.length = thens.length && formedOptional width whens && formedOptional width thens &&
      (whens.zip thens).all (fun branch => !(branch.1.isNull && branch.2.isNull)) &&
      whens.all (fun condition => condition.isNull || condition.type = .boolean) &&
      (otherwise.isNull || formed width otherwise)
  | .cast operand type => isExecutableCast operand.type type && formed width operand

def formedEach (width : Nat) : List Expr → Bool
  | [] => true
  | expr :: rest => formed width expr && formedEach width rest

def formedOptional (width : Nat) : List Expr → Bool
  | [] => true
  | expr :: rest => (expr.isNull || formed width expr) && formedOptional width rest

end

section Lists

variable (k : Kernels)

theorem evaluateEach_eq (exprs : List Expr) :
    evaluateEach k exprs = exprs.map fun expr => ⟨expr, evaluate k expr⟩ := by
  induction exprs with
  | nil => rfl
  | cons expr rest ih => rw [evaluateEach, ih, map_cons]

theorem formedEach_iff {width : Nat} :
    formedEach width exprs = true ↔ ∀ expr ∈ exprs, formed width expr = true := by
  induction exprs with
  | nil => simp [formedEach]
  | cons expr rest ih => simp [formedEach, ih]

theorem formedOptional_iff {width : Nat} :
    formedOptional width exprs = true ↔
      ∀ expr ∈ exprs, expr.isNull = true ∨ formed width expr = true := by
  induction exprs with
  | nil => simp [formedOptional]
  | cons expr rest ih => simp [formedOptional, ih]

end Lists

@[simp] theorem type_byPosition (expr : Expr) : (byPosition expr).type = expr.type := by
  cases expr <;> rfl

@[simp] theorem isNull_byPosition (expr : Expr) : (byPosition expr).isNull = expr.isNull := by
  cases expr <;> rfl

namespace RecordBatch

variable {batch : RecordBatch} {mask : List Bool} {reads : List Nat}

theorem Rectangular.filter (rectangular : batch.Rectangular) (same : mask.length = batch.numRows) :
    (batch.filter reads mask).Rectangular := by
  intro column member
  obtain ⟨source, among, rfl⟩ := mem_map.mp member
  split_ifs
  · have inside : source.1 ∈ batch.columns := fst_mem_of_mem_zipIdx among
    exact length_select (same.trans (rectangular source.1 inside).symm)
  · exact length_replicate

@[simp] theorem length_columns_filter :
    (batch.filter reads mask).columns.length = batch.columns.length := by
  simp [RecordBatch.filter]

theorem Rectangular.rows_at (rectangular : batch.Rectangular) {position : Nat}
    (inside : position < batch.columns.length) :
    batch.rows.map (fun row => row position) = batch.columns.getD position [] := by
  have long : (batch.columns.getD position []).length = batch.numRows := by
    rw [getD_eq_getElem _ _ inside]
    exact rectangular _ (getElem_mem inside)
  refine ext_getElem (by rw [long, length_map, length_rows]) fun i bound bound' => ?_
  simp only [rows, row, map_map, getElem_map, Function.comp_apply, getElem_range]
  exact getD_eq_getElem _ _ bound'

/-- The rows of the filtered batch agree with the selected rows in the columns that are read. -/
theorem Rectangular.rows_filter (rectangular : batch.Rectangular)
    (same : mask.length = batch.numRows) {position : Nat} (read : position ∈ reads) :
    (batch.filter reads mask).rows.map (fun row => row position) =
      (select mask batch.rows).map fun row => row position := by
  rw [← select_map]
  by_cases inside : position < batch.columns.length
  · rw [(rectangular.filter same).rows_at (by simpa using inside), rectangular.rows_at inside]
    simp [RecordBatch.filter, inside, read]
  · -- a column that is not there reads as NULL on both sides
    have nulls : ∀ other : RecordBatch, other.columns.length = batch.columns.length →
        other.rows.map (fun row => row position) = (List.range other.numRows).map fun _ => .null := by
      intro other width
      simp [rows, RecordBatch.row, width ▸ inside, Function.comp_def]
    rw [nulls batch rfl, nulls _ length_columns_filter, select_map]
    simp [length_select (same.trans length_range.symm), RecordBatch.filter]

end RecordBatch

theorem mapM_eval_congr {k : Kernels} {rows rows' : List Row}
    (length : rows.length = rows'.length)
    (same : ∀ id ∈ expr.columnIds, rows.map (fun row => row id) = rows'.map fun row => row id) :
    rows.mapM (expr.eval k) = rows'.mapM (expr.eval k) := by
  induction rows generalizing rows' with
  | nil =>
    cases rows' with
    | nil => rfl
    | cons => cases length
  | cons row rows ih =>
    cases rows' with
    | nil => cases length
    | cons row' rows' =>
      simp only [map_cons, List.cons.injEq] at same
      rw [mapM_cons, mapM_cons, eval_congr k expr fun id member => (same id member).1,
        ih (Nat.succ.inj length) fun id member => (same id member).2]

def valueAt (k : Kernels) (expr : Expr) (row : Row) : Option Value := (byPosition expr).eval k row

def Rowwise (k : Kernels) (width : Nat) (part : Part) : Prop :=
  ∀ batch : RecordBatch, batch.Rectangular → batch.columns.length = width →
    part.run batch = batch.rows.mapM (valueAt k part.expr)

theorem undecided_iff {isAnd : Bool} {value : Value} :
    undecided isAnd value = true ↔ value.truth ≠ some (!isAnd) := by
  rcases value with _ | _ | _ | _ | _ | _ <;> cases isAnd <;>
    simp [undecided, Value.truth]

def connectNext (k : Kernels) (isAnd : Bool) (row : Row) (result : Value) (part : Part) :
    Option Value :=
  if undecided isAnd result then (valueAt k part.expr row).map (kleene isAnd result)
  else some (kleene isAnd result .null)

@[simp] theorem truth_ofTruth (truth : Option Bool) : (Value.ofTruth truth).truth = truth := by
  rcases truth with _ | _ <;> rfl

theorem truth_kleene (isAnd : Bool) (left right : Value) : (kleene isAnd left right).truth =
    if isAnd then kleeneAnd left.truth right.truth else kleeneOr left.truth right.truth := by
  rw [kleene, truth_ofTruth]

/-- One more argument of AND or OR, as the row-wise evaluation takes it. -/
theorem connectNext_values (k : Kernels) (isAnd : Bool) (row : Row) (part : Part) (result : Value)
    (rest : List (Option Value)) :
    ((connectNext k isAnd row result part).bind fun next => connectValues isAnd next.truth rest) =
      connectValues isAnd result.truth (valueAt k part.expr row :: rest) := by
  rw [connectNext, connectValues]
  by_cases isOpen : undecided isAnd result = true
  · rw [if_pos isOpen, if_neg (undecided_iff.mp isOpen)]
    cases valueAt k part.expr row with
    | none => rfl
    | some value => simp [truth_kleene]
  · have decided := not_not.mp (mt undecided_iff.mpr isOpen)
    rw [if_neg isOpen, if_pos decided, Option.bind_some, truth_kleene, decided]
    cases isAnd <;> rfl

theorem connectNext_own {k : Kernels} {isAnd : Bool} {row : Row} {result next : Value}
    (isNext : connectNext k isAnd row result part = some next) : next = .ofTruth next.truth := by
  rw [connectNext] at isNext
  split_ifs at isNext
  · obtain ⟨value, -, rfl⟩ := Option.map_eq_some_iff.mp isNext
    rw [truth_kleene]
    rfl
  · cases isNext
    rw [truth_kleene]
    rfl

theorem connectNext_all (k : Kernels) (isAnd : Bool) (row : Row) (rest : List Part) :
    ∀ result : Value, result = .ofTruth result.truth →
      rest.foldlM (connectNext k isAnd row) result =
        connectValues isAnd result.truth (rest.map fun part => valueAt k part.expr row) := by
  induction rest with
  | nil => exact fun result own => congrArg some own
  | cons part rest ih =>
    intro result _
    rw [foldlM_cons, map_cons, ← connectNext_values]
    exact Option.bind_congr fun next isNext => ih next (connectNext_own isNext)

/-! A CASE on one row: its result so far and whether the row is open. -/

def thenNext (k : Kernels) (type : LogicalType) (part : Part) (row : Row) (taken : Bool)
    (result : Value) : Option Value :=
  if part.expr.isNull then some result
  else if taken then (valueAt k part.expr row).bind (convert k part.expr.type type)
  else some result

def conditionNext (k : Kernels) (part : Part) (row : Row) (remaining : Bool) : Option Bool :=
  if remaining then (valueAt k part.expr row).map fun value => value.truth.getD false
  else some false

/-- A row stays open where COALESCE's argument is NULL. -/
def staysOpen (value : Value) (state : Value × Bool) : Bool :=
  state.2 && !(value ≠ .null && state.2)

def branchNext (k : Kernels) (type : LogicalType) (row : Row) (state : Value × Bool)
    (branch : Part × Part) : Option (Value × Bool) :=
  if branch.1.expr.isNull then
    (thenNext k type branch.2 row state.2 state.1).map fun value => (value, staysOpen value state)
  else
    (conditionNext k branch.1 row state.2).bind fun taken =>
      (thenNext k type branch.2 row taken state.1).map fun value => (value, state.2 && !taken)

def branchAt (k : Kernels) (row : Row) (branch : Part × Part) : CaseBranch where
  condition := if branch.1.expr.isNull then none else some (valueAt k branch.1.expr row)
  value := if branch.2.expr.isNull then none
    else some (branch.2.expr.type, valueAt k branch.2.expr row)

theorem truth_true {value : Value} : value.truth.getD false = decide (value = .bool true) := by
  rcases value with _ | _ | _ | _ | _ | _ <;> simp [Value.truth]

theorem branchNext_closed (k : Kernels) (type : LogicalType) (row : Row) (value : Value)
    (branch : Part × Part) : branchNext k type row (value, false) branch = some (value, false) := by
  simp [branchNext, thenNext, conditionNext, staysOpen]

theorem branches_closed (k : Kernels) (type : LogicalType) (row : Row) (value : Value)
    (branches : List (Part × Part)) :
    branches.foldlM (branchNext k type row) (value, false) = some (value, false) := by
  induction branches with
  | nil => rfl
  | cons branch branches ih =>
    rw [foldlM_cons, branchNext_closed]
    exact ih

theorem branchValue_null (k : Kernels) (type : LogicalType) (part : Part) (row : Row) :
    thenNext k type part row true .null = branchValue k type
      (if part.expr.isNull then none else some (part.expr.type, valueAt k part.expr row)) := by
  simp only [thenNext, if_true]
  split_ifs <;> rfl

theorem branches_value (k : Kernels) (type : LogicalType) (row : Row) (otherwise : Part)
    (present : ∀ branch ∈ branches, ¬ (branch.1.expr.isNull = true ∧ branch.2.expr.isNull = true)) :
    ((branches.foldlM (branchNext k type row) (.null, true)).bind fun state =>
        thenNext k type otherwise row state.2 state.1) =
      caseValue k type (if otherwise.expr.isNull then none
        else some (otherwise.expr.type, valueAt k otherwise.expr row))
        (branches.map (branchAt k row)) := by
  have closed : ∀ (value : Value) (branches : List (Part × Part)),
      ((branches.foldlM (branchNext k type row) (value, false)).bind fun state =>
        thenNext k type otherwise row state.2 state.1) = some value := by
    intro value branches
    simp [branches_closed, thenNext]
  induction branches with
  | nil => exact branchValue_null k type otherwise row
  | cons branch branches ih =>
    have rest := ih fun other member => present other (mem_cons_of_mem _ member)
    rw [foldlM_cons, map_cons, caseValue, branchNext]
    by_cases argument : branch.1.expr.isNull = true
    · have some_ : branch.2.expr.isNull = false := by
        simpa [argument] using present branch mem_cons_self
      simp only [argument, if_true, branchAt, some_, Bool.false_eq_true, if_false,
        Option.isNone_some, branchValue_null]
      cases branchValue k type (some (branch.2.expr.type, valueAt k branch.2.expr row)) with
      | none => rfl
      | some value =>
        by_cases isNull : value = .null
        · simpa [isNull, staysOpen] using rest
        · simpa [isNull, staysOpen] using closed value branches
    · simp only [argument, Bool.false_eq_true, if_false, branchAt, conditionNext, if_true]
      cases valueAt k branch.1.expr row with
      | none => rfl
      | some condition =>
        simp only [Option.map_some, Option.bind_some, truth_true]
        by_cases taken : condition = .bool true
        · simp only [taken, decide_true, if_true, branchValue_null]
          cases branchValue k type (if branch.2.expr.isNull = true then none
            else some (branch.2.expr.type, valueAt k branch.2.expr row)) with
          | none => rfl
          | some value => simpa using closed value branches
        · simpa [taken, thenNext] using rest

theorem length_of_rows {k : Kernels} {batch : RecordBatch} {values : List Value}
    (computed : batch.rows.mapM (valueAt k expr) = some values) :
    values.length = batch.rows.length := by
  rw [← length_map some, ← mapM_eq_some.mp computed, length_map]

section Parts

variable {k : Kernels} {batch : RecordBatch} (rectangular : batch.Rectangular) {σ : Type}

include rectangular

section

variable (rowwise : Rowwise k batch.columns.length part)
include rowwise

theorem evaluateSelected_eq {mask : List Bool} (same : mask.length = batch.numRows)
    (target : LogicalType) :
    evaluateSelected k batch part mask target =
      (select mask batch.rows).mapM fun row =>
        (valueAt k part.expr row).bind (convert k part.expr.type target) := by
  have rows : mask.length = batch.rows.length := by rw [same, batch.length_rows]
  have selected := length_select rows
  rw [← mapM_bind_mapM]
  dsimp only [evaluateSelected]
  split_ifs with all nothing
  · rw [rowwise batch rectangular rfl, select_all rows (by rw [all, batch.length_rows])]
    rfl
  · rw [length_eq_zero_iff.mp (selected.trans nothing)]
    rfl
  · rw [rowwise _ (rectangular.filter same) RecordBatch.length_columns_filter]
    have agree : (batch.filter (collectColumns part.expr) mask).rows.mapM (valueAt k part.expr) =
        (select mask batch.rows).mapM (valueAt k part.expr) :=
      mapM_eval_congr (by rw [RecordBatch.length_rows, selected]; rfl)
        fun id read => rectangular.rows_filter same read
    rw [agree]
    rfl

/-- The values of a part at the chosen rows, and what was there elsewhere. -/
theorem evaluateSelected_scatter {states : List σ} (length : batch.rows.length = states.length)
    (chosen : σ → Bool) (old : σ → Value) (target : LogicalType) :
    (evaluateSelected k batch part (states.map chosen) target).map
        (scatter (states.map old) (states.map chosen)) =
      pass (fun row state => if chosen state then
        (valueAt k part.expr row).bind (convert k part.expr.type target) else some (old state))
        batch.rows states := by
  rw [evaluateSelected_eq rectangular rowwise (by rw [length_map, ← length, batch.length_rows]),
    select_scatter length]

/-- The truth of a part at the chosen rows, NULL elsewhere, combined with each row's state. -/
theorem evaluateSelected_combine (boolean : part.expr.type = .boolean) {states : List σ}
    (length : batch.rows.length = states.length) (chosen : σ → Bool) {τ : Type}
    (combine : Value → σ → τ) :
    (evaluateSelected k batch part (states.map chosen) .boolean).map (fun compact =>
        (scatter (List.replicate batch.numRows .null) (states.map chosen) compact).zipWith combine
          states) =
      pass (fun row state => if chosen state then
        (valueAt k part.expr row).map fun value => combine value state
        else some (combine .null state)) batch.rows states := by
  have nulls : states.map (fun _ => Value.null) = List.replicate batch.numRows .null := by
    rw [map_const', ← length, batch.length_rows]
  have unchanged : convert k part.expr.type .boolean = some := by
    funext value
    simp [convert, boolean]
  have combined := congrArg (Option.map fun next => next.zipWith combine states)
    (evaluateSelected_scatter rectangular rowwise length chosen (fun _ => .null) .boolean)
  rw [pass_zipWith _ length, nulls, Option.map_map] at combined
  refine combined.trans (pass_congr fun row state => ?_)
  rw [unchanged]
  split_ifs <;> simp

theorem evaluateConnected_cons (boolean : part.expr.type = .boolean) (isAnd : Bool)
    (rest : List Part) (length : batch.rows.length = result.length) :
    evaluateConnected k isAnd batch (part :: rest) result =
      (pass (fun row value => connectNext k isAnd row value part) batch.rows result).bind
        (evaluateConnected k isAnd batch rest) := by
  have combined := evaluateSelected_combine rectangular rowwise boolean length (undecided isAnd)
    fun other value => kleene isAnd value other
  rw [show pass (fun row value => connectNext k isAnd row value part) batch.rows result = _ from
    combined.symm, Option.bind_map, evaluateConnected]
  refine Option.bind_congr fun compact _ => ?_
  rw [Function.comp_apply, zipWith_comm]

end

theorem evaluateConnected_eq (isAnd : Bool) {rest : List Part}
    (rowwise : ∀ part ∈ rest, Rowwise k batch.columns.length part ∧ part.expr.type = .boolean)
    (length : batch.rows.length = result.length) :
    evaluateConnected k isAnd batch rest result =
      pass (fun row value => rest.foldlM (connectNext k isAnd row) value) batch.rows result := by
  induction rest generalizing result with
  | nil =>
    have kept := pass_some length fun value : Value => value
    rw [map_id'] at kept
    exact kept.symm
  | cons part rest ih =>
    obtain ⟨first, boolean⟩ := rowwise part mem_cons_self
    rw [evaluateConnected_cons rectangular first boolean isAnd rest length]
    simp only [foldlM_cons, Option.bind_eq_bind]
    rw [← pass_bind _ length]
    refine Option.bind_congr fun next passed => ?_
    exact ih (fun other member => rowwise other (mem_cons_of_mem _ member))
      (length_of_pass length passed).symm

theorem evaluateBool_eq {op : BoolOp} {parts : List Part}
    (rowwise : ∀ part ∈ parts, Rowwise k batch.columns.length part ∧ part.expr.type = .boolean)
    (count : if op = .not then parts.length = 1 else 2 ≤ parts.length) :
    evaluateBool k batch op parts =
      batch.rows.mapM fun row => boolValue op (parts.map fun part => valueAt k part.expr row) := by
  cases parts with
  | nil => cases op <;> simp at count
  | cons first rest =>
    have run := (rowwise first mem_cons_self).1 batch rectangular rfl
    have others := fun part member => rowwise part (mem_cons_of_mem _ member)
    have connected : ∀ isAnd, rest ≠ [] → ((first.run batch).bind (evaluateConnected k isAnd batch rest)) =
        batch.rows.mapM fun row => (valueAt k first.expr row).bind fun value =>
          connectValues isAnd value.truth (rest.map fun part => valueAt k part.expr row) := by
      intro isAnd some_
      obtain ⟨second, rest, rfl⟩ := exists_cons_of_ne_nil some_
      rw [run, ← mapM_bind_pass]
      refine Option.bind_congr fun result passed => ?_
      rw [evaluateConnected_eq rectangular isAnd others (length_of_rows passed).symm]
      refine pass_congr fun row value => ?_
      rw [foldlM_cons, map_cons, ← connectNext_values]
      exact Option.bind_congr fun next isNext =>
        connectNext_all k isAnd row rest next (connectNext_own isNext)
    cases op with
    | and => exact connected true (by rintro rfl; simp at count)
    | or => exact connected false (by rintro rfl; simp at count)
    | not =>
      rw [evaluateBool, run]
      exact map_mapM _ _ batch.rows

def CaseState.of (states : List (Value × Bool)) : CaseState :=
  ⟨states.map Prod.fst, states.map Prod.snd⟩

theorem evaluateThen_eq (rowwise : part.expr.isNull = true ∨ Rowwise k batch.columns.length part)
    {states : List σ} (length : batch.rows.length = states.length) (taken : σ → Bool) (old : σ → Value) :
    evaluateThen k batch type part (states.map taken) (states.map old) =
      pass (fun row state => thenNext k type part row (taken state) (old state)) batch.rows states := by
  rw [evaluateThen]
  split_ifs with isNull
  · simp only [thenNext, isNull, if_true]
    exact (pass_some length old).symm
  · simp only [thenNext, isNull, Bool.false_eq_true, if_false]
    exact evaluateSelected_scatter rectangular (rowwise.resolve_left isNull) length taken old type

theorem evaluateCondition_eq (rowwise : Rowwise k batch.columns.length part)
    (boolean : part.expr.type = .boolean) {states : List σ}
    (length : batch.rows.length = states.length) (remaining : σ → Bool) :
    evaluateCondition k batch part (states.map remaining) =
      pass (fun row state => conditionNext k part row (remaining state)) batch.rows states := by
  have combined := evaluateSelected_combine rectangular rowwise boolean length remaining
    fun value state => value.truth.getD false && remaining state
  refine Eq.trans ?_ (combined.trans (pass_congr fun row state => ?_))
  · simp [evaluateCondition, Option.map_eq_bind, zipWith_map_right]
  · rw [conditionNext]
    split_ifs with isOpen <;> simp [isOpen, Value.truth]

omit rectangular in
theorem CaseState.of_zipWith {states : List σ} (same : result.length = states.length)
    (isOpen : Value → σ → Bool) :
    CaseState.of (result.zipWith (fun value state => (value, isOpen value state)) states) =
      ⟨result, result.zipWith isOpen states⟩ := by
  rw [CaseState.of, map_zipWith, map_zipWith]
  congr 1
  exact ext_getElem (by simp [same]) fun i bound bound' => by simp

theorem evaluateArgument_eq (some_ : part.expr.isNull = false)
    (rowwise : Rowwise k batch.columns.length part) (length : batch.rows.length = states.length) :
    evaluateArgument k batch type part (.of states) =
      (pass (fun row state => (thenNext k type part row state.2 state.1).map fun value =>
        (value, staysOpen value state)) batch.rows states).map .of := by
  have values : evaluateThen k batch type part (states.map Prod.snd) (states.map Prod.fst) = _ :=
    evaluateThen_eq rectangular (.inr rowwise) length Prod.snd Prod.fst
  have answered : evaluateArgument k batch type part (.of states) =
      (evaluateThen k batch type part (states.map Prod.snd) (states.map Prod.fst)).map fun result =>
        CaseState.of (result.zipWith (fun value state => (value, staysOpen value state)) states) := by
    rw [evaluateThen, some_, if_neg Bool.false_ne_true, Option.map_map, evaluateArgument,
      Option.map_eq_bind]
    refine Option.bind_congr fun found _ => congrArg some ?_
    rw [Function.comp_apply, CaseState.of_zipWith (by rw [length_scatter, length_map])]
    simp only [CaseState.of, CaseState.mk.injEq, true_and, zipWith_map_left,
      zipWith_map_right]
    refine ext_getElem (by simp [length_scatter]) fun i bound bound' => ?_
    simp [staysOpen]
  rw [answered, values, ← pass_zipWith _ length fun value state => (value, staysOpen value state),
    Option.map_map]
  rfl

theorem evaluateBranch_eq {branch : Part × Part} (condition : branch.1.expr.isNull = true ∨
      (Rowwise k batch.columns.length branch.1 ∧ branch.1.expr.type = .boolean))
    (value : branch.2.expr.isNull = true ∨ Rowwise k batch.columns.length branch.2)
    (present : ¬ (branch.1.expr.isNull = true ∧ branch.2.expr.isNull = true))
    (length : batch.rows.length = states.length) :
    evaluateBranch k batch type branch (.of states) =
      (pass (fun row state => branchNext k type row state branch) batch.rows states).map .of := by
  simp only [evaluateBranch, branchNext]
  split_ifs with argument none_
  · exact absurd ⟨argument, none_⟩ present
  · exact evaluateArgument_eq rectangular (by simpa using none_) (value.resolve_left none_) length
  · obtain ⟨first, boolean⟩ := condition.resolve_left argument
    rw [← pass_zip _ length fun row (state : (Value × Bool) × Bool) =>
      (thenNext k type branch.2 row state.2 state.1.1).map
        fun value => (value, state.1.2 && !state.2)]
    change (evaluateCondition k batch branch.1 (states.map Prod.snd)).bind _ = _
    rw [evaluateCondition_eq rectangular first boolean length Prod.snd, Option.map_bind]
    refine Option.bind_congr fun taken passed => ?_
    have count : taken.length = states.length := (length_of_pass length passed).trans length
    have zipped : batch.rows.length = (states.zip taken).length := by simp [count, length]
    have isTaken : (states.zip taken).map Prod.snd = taken := map_snd_zip count.le
    have result : (states.zip taken).map (fun state => state.1.1) = states.map Prod.fst := by
      have firsts : (states.zip taken).map Prod.fst = states := map_fst_zip count.ge
      conv_rhs => rw [← firsts, map_map]
      rfl
    have values : evaluateThen k batch type branch.2 taken (states.map Prod.fst) =
        pass (fun row state => thenNext k type branch.2 row state.2 state.1.1) batch.rows
          (states.zip taken) := by
      rw [← evaluateThen_eq rectangular value zipped Prod.snd fun state => state.1.1, isTaken, result]
    change (evaluateThen k batch type branch.2 taken (states.map Prod.fst)).bind _ = _
    rw [values, Function.comp_apply, ← pass_zipWith _ zipped fun value state =>
      (value, state.1.2 && !state.2), Option.map_map, Option.map_eq_bind]
    refine Option.bind_congr fun found isFound => congrArg some ?_
    have many : found.length = (states.zip taken).length := (length_of_pass zipped isFound).trans zipped
    rw [Function.comp_apply, CaseState.of_zipWith many]
    simp only [CaseState.of, CaseState.mk.injEq, true_and, zipWith_map_left]
    refine ext_getElem (by simp [many, count]) fun i bound bound' => ?_
    simp

/-- The parts of a branch as the evaluation needs them. -/
structure BranchReady (k : Kernels) (width : Nat) (branch : Part × Part) : Prop where
  condition : branch.1.expr.isNull = true ∨
    (Rowwise k width branch.1 ∧ branch.1.expr.type = .boolean)
  value : branch.2.expr.isNull = true ∨ Rowwise k width branch.2
  present : ¬ (branch.1.expr.isNull = true ∧ branch.2.expr.isNull = true)

theorem evaluateBranches_eq (ready : ∀ branch ∈ branches, BranchReady k batch.columns.length branch)
    (length : batch.rows.length = states.length) :
    branches.foldlM (fun state branch => evaluateBranch k batch type branch state) (.of states) =
      (pass (fun row state => branches.foldlM (branchNext k type row) state) batch.rows states).map
        .of := by
  induction branches generalizing states with
  | nil =>
    have kept := pass_some length fun state : Value × Bool => state
    rw [map_id'] at kept
    exact (congrArg (Option.map CaseState.of) kept).symm
  | cons branch branches ih =>
    obtain ⟨condition, value, present⟩ := ready branch mem_cons_self
    simp only [foldlM_cons, Option.bind_eq_bind]
    rw [evaluateBranch_eq rectangular condition value present length, ← pass_bind _ length,
      Option.bind_map, Option.map_bind]
    refine Option.bind_congr fun next passed => ?_
    exact ih (fun other member => ready other (mem_cons_of_mem _ member))
      (length_of_pass length passed).symm

theorem evaluateCase_eq {otherwise : Part}
    (ready : ∀ branch ∈ branches, BranchReady k batch.columns.length branch)
    (last : otherwise.expr.isNull = true ∨ Rowwise k batch.columns.length otherwise) :
    evaluateCase k batch type branches otherwise =
      batch.rows.mapM fun row => caseValue k type (if otherwise.expr.isNull then none
        else some (otherwise.expr.type, valueAt k otherwise.expr row))
        (branches.map (branchAt k row)) := by
  have count : batch.rows.length = (List.replicate batch.rows.length (Value.null, true)).length :=
    length_replicate.symm
  have start : (⟨List.replicate batch.numRows .null, List.replicate batch.numRows true⟩ : CaseState) =
      .of (List.replicate batch.rows.length (.null, true)) := by
    simp [CaseState.of]
  have row : ∀ row, _ := fun row => branches_value k type row otherwise
    fun branch member => (ready branch member).present
  simp only [← row]
  rw [← pass_replicate (fun row state => (branches.foldlM (branchNext k type row) state).bind
      fun state => thenNext k type otherwise row state.2 state.1), ← pass_bind _ count,
    evaluateCase, start, evaluateBranches_eq rectangular ready count, Option.bind_eq_bind,
    Option.bind_map]
  refine Option.bind_congr fun states passed => ?_
  exact evaluateThen_eq rectangular last (length_of_pass count passed).symm Prod.snd Prod.fst

end Parts

theorem transpose_cons {numRows : Nat} {column : List Value} (long : column.length = numRows)
    (columns : List (List Value)) :
    transpose numRows (column :: columns) = column.zipWith List.cons (transpose numRows columns) := by
  refine ext_getElem (by simp [transpose, long]) fun i bound bound' => ?_
  have inside : i < column.length := by
    rw [long]
    simpa [transpose] using bound
  simp [transpose, inside]

theorem transpose_parts {k : Kernels} {batch : RecordBatch} (rectangular : batch.Rectangular)
    {parts : List Part} (rowwise : ∀ part ∈ parts, Rowwise k batch.columns.length part) :
    (parts.mapM fun part : Part => part.run batch).map (transpose batch.numRows) =
      batch.rows.mapM fun row => parts.mapM fun part : Part => valueAt k part.expr row := by
  induction parts with
  | nil =>
    have none_ := mapM_some (fun _ : Row => ([] : List Value)) batch.rows
    rw [map_const', batch.length_rows] at none_
    simpa [transpose] using none_.symm
  | cons part parts ih =>
    have rest := ih fun other member => rowwise other (mem_cons_of_mem _ member)
    simp only [mapM_cons, Option.bind_eq_bind, Option.pure_def]
    rw [rowwise part mem_cons_self batch rectangular rfl,
      ← mapM_bind_pass _ (fun row value => (parts.mapM fun part : Part =>
        valueAt k part.expr row).bind fun values => some (value :: values)), Option.map_bind]
    refine Option.bind_congr fun column computed => ?_
    have long := length_of_rows computed
    have combined := pass_zipWith (fun (row : Row) (_ : Value) => parts.mapM fun part : Part =>
      valueAt k part.expr row) long.symm fun values value => value :: values
    rw [pass_rows long.symm, ← rest, Option.map_map] at combined
    simp only [Option.map_eq_bind] at combined
    refine Eq.trans ?_ (combined.trans (pass_congr fun row value => ?_))
    · rw [Function.comp_apply, Option.map_bind]
      refine Option.bind_congr fun columns _ => congrArg some ?_
      rw [transpose_cons (long.trans batch.length_rows), zipWith_comm]
      rfl
    · rfl

/-! The value of each kind of expression on a row, by the values of its parts. -/

section Values

variable {k : Kernels} {row : Row}

abbrev byPositionEach : List Expr → List Expr :=
  mapColumnsEach fun c => { c with id := c.index.toNat }

theorem byPositionEach_eq (exprs : List Expr) : byPositionEach exprs = exprs.map byPosition :=
  mapColumnsEach_eq _ _

theorem evalEach_values (k : Kernels) (row : Row) (exprs : List Expr) :
    (evalEach k row (byPositionEach exprs)) =
      (evaluateEach k exprs).map fun part => valueAt k part.expr row := by
  rw [evalEach_eq, byPositionEach_eq, evaluateEach_eq, map_map, map_map]
  rfl

theorem map_mapColumnsEach {α : Type} {f : Expr → α} (same : ∀ expr, f (byPosition expr) = f expr)
    (exprs : List Expr) :
    (byPositionEach exprs).map f = exprs.map f := by
  rw [byPositionEach_eq, map_map]
  exact map_congr_left fun expr _ => same expr

theorem mapM_values (k : Kernels) (row : Row) (exprs : List Expr) :
    (evalEach k row (byPositionEach exprs)).mapM id =
      (evaluateEach k exprs).mapM fun part : Part => valueAt k part.expr row := by
  rw [evalEach_values, mapM_map]
  rfl

theorem valueAt_arith {op : ArithOp} {left right : Expr} :
    valueAt k (.arith op left right type) = fun row => (valueAt k left row).bind fun x =>
      (valueAt k right row).bind fun y => arithValue k op type (left.type, x) (right.type, y) := by
  funext row
  rw [← type_byPosition left, ← type_byPosition right]
  rfl

theorem valueAt_function {function : Function} {args : List Expr} :
    valueAt k (.function function args type) = fun row =>
      ((evaluateEach k args).mapM fun part : Part => valueAt k part.expr row).bind fun values =>
        k.function function type ((args.map Expr.type).zip values) := by
  funext row
  rw [← mapM_values, ← map_mapColumnsEach type_byPosition]
  rfl

theorem valueAt_predicate {predicate : Predicate} {operands : List Expr} :
    valueAt k (.predicate predicate operands type) = fun row =>
      ((evaluateEach k operands).mapM fun part : Part => valueAt k part.expr row).map fun values =>
        .ofTruth (predicate.truth k true (values.getD 0 .null) (values.getD 1 .null)) := by
  funext row
  rw [← mapM_values]
  rfl

theorem valueAt_bool {op : BoolOp} {args : List Expr} : valueAt k (.bool op args type) = fun row =>
    boolValue op ((evaluateEach k args).map fun part => valueAt k part.expr row) := by
  funext row
  rw [← evalEach_values]
  rfl

theorem branches_zip {whens thens : List Expr} (same : whens.length = thens.length) :
    (((whens.map Expr.isNull).zipWith (fun absent value => if absent then none else some value)
        ((evaluateEach k whens).map fun part => valueAt k part.expr row)).zipWith CaseBranch.mk
      ((thens.map fun e => (e.isNull, e.type)).zipWith
        (fun then_ value => if then_.1 then none else some (then_.2, value))
        ((evaluateEach k thens).map fun part => valueAt k part.expr row))) =
      ((evaluateEach k whens).zip (evaluateEach k thens)).map (branchAt k row) := by
  induction whens generalizing thens with
  | nil => rfl
  | cons condition whens ih =>
    cases thens with
    | nil => cases same
    | cons value thens =>
      simp only [evaluateEach, map_cons, zipWith_cons_cons, zip_cons_cons,
        ih (Nat.succ.inj same)]
      rfl

theorem valueAt_case {whens thens : List Expr} {otherwise : Expr}
    (same : whens.length = thens.length) :
    valueAt k (.caseWhen whens thens otherwise type) = fun row =>
      caseValue k type
        (if otherwise.isNull then none else some (otherwise.type, valueAt k otherwise row))
        (((evaluateEach k whens).zip (evaluateEach k thens)).map (branchAt k row)) := by
  have lengths : (byPositionEach whens).length =
      (byPositionEach thens).length := by
    simp [byPositionEach_eq, same]
  funext row
  rw [valueAt, byPosition, Expr.mapColumns, Expr.eval, if_neg (not_not.mpr lengths),
    evalEach_values, evalEach_values, map_mapColumnsEach isNull_byPosition,
    map_mapColumnsEach fun expr => by rw [isNull_byPosition, type_byPosition]]
  dsimp only
  rw [branches_zip same, ← isNull_byPosition otherwise, ← type_byPosition otherwise]
  rfl

end Values

section Kinds

variable {k : Kernels} {width : Nat}

theorem column_rowwise {column : ColumnExpr} (inside : 0 ≤ column.index)
    (within : column.index.toNat < width) :
    Rowwise k width ⟨.column column type, evaluate k (.column column type)⟩ := by
  intro batch rectangular isWidth
  rw [← isWidth] at within
  change (if column.index < 0 then none else batch.columns[column.index.toNat]?) =
    batch.rows.mapM fun row => some (row column.index.toNat)
  rw [if_neg (not_lt.mpr inside), mapM_some, rectangular.rows_at within,
    getD_eq_getElem _ _ within, getElem?_eq_getElem within]

theorem constant_rowwise {constant : Constant} :
    Rowwise k width ⟨.constant constant type, evaluate k (.constant constant type)⟩ := by
  intro batch _ _
  change some _ = batch.rows.mapM fun _ => some constant.value
  rw [mapM_some, map_const', batch.length_rows]

theorem arith_rowwise {op : ArithOp} {left right : Expr}
    (first : Rowwise k width ⟨left, evaluate k left⟩)
    (second : Rowwise k width ⟨right, evaluate k right⟩) :
    Rowwise k width ⟨.arith op left right type, evaluate k (.arith op left right type)⟩ := by
  intro batch rectangular isWidth
  have xs := first batch rectangular isWidth
  have ys := second batch rectangular isWidth
  dsimp only at xs ys ⊢
  rw [evaluate, xs, ys, valueAt_arith, ← mapM_bind_pass _ fun row x => (valueAt k right row).bind fun y =>
    arithValue k op type (left.type, x) (right.type, y)]
  refine Option.bind_congr fun lefts computed => ?_
  have long := length_of_rows computed
  have both := pass_zip (fun row (_ : Value) => valueAt k right row) long.symm
    fun _ (state : Value × Value) => arithValue k op type (left.type, state.1) (right.type, state.2)
  rw [← both, pass_rows long.symm]
  refine Option.bind_congr fun rights computed' => ?_
  have zipped : batch.rows.length = (lefts.zip rights).length := by
    simp [long, length_of_rows computed']
  exact (pass_own zipped _).symm

theorem negate_rowwise {operand : Expr} (inner : Rowwise k width ⟨operand, evaluate k operand⟩) :
    Rowwise k width ⟨.negate operand type, evaluate k (.negate operand type)⟩ := by
  intro batch rectangular isWidth
  have xs := inner batch rectangular isWidth
  dsimp only at xs ⊢
  rw [evaluate, xs, mapM_bind_mapM]
  rfl

theorem cast_rowwise {operand : Expr} (executable : isExecutableCast operand.type type = true)
    (inner : Rowwise k width ⟨operand, evaluate k operand⟩) :
    Rowwise k width ⟨.cast operand type, evaluate k (.cast operand type)⟩ := by
  intro batch rectangular isWidth
  have xs := inner batch rectangular isWidth
  have cast : valueAt k (.cast operand type) = fun row =>
      (valueAt k operand row).bind (convert k operand.type type) := by
    funext row
    refine Option.bind_congr fun value _ => ?_
    rw [show Expr.mapColumns _ operand = byPosition operand from rfl, type_byPosition, castValue,
      if_pos executable]
  dsimp only at xs ⊢
  rw [evaluate, if_pos executable, xs, cast, ← mapM_bind_mapM]
  rfl

theorem function_rowwise {function : Function} {args : List Expr}
    (each : ∀ part ∈ evaluateEach k args, Rowwise k width part) :
    Rowwise k width ⟨.function function args type, evaluate k (.function function args type)⟩ := by
  intro batch rectangular isWidth
  have columns := transpose_parts rectangular fun part member => isWidth ▸ each part member
  dsimp only
  rw [valueAt_function, ← mapM_bind_mapM, ← columns, Option.bind_map]
  rfl

theorem predicate_rowwise {predicate : Predicate} {operands : List Expr}
    (made : (PredicateEvaluator.make (operands.map Expr.type) predicate).isOk = true)
    (each : ∀ part ∈ evaluateEach k operands, Rowwise k width part) :
    Rowwise k width ⟨.predicate predicate operands type,
      evaluate k (.predicate predicate operands type)⟩ := by
  intro batch rectangular isWidth
  have columns := transpose_parts rectangular fun part member => isWidth ▸ each part member
  dsimp only
  rw [valueAt_predicate, ← map_mapM, ← columns, Option.map_map, evaluate]
  cases isMade : PredicateEvaluator.make (operands.map Expr.type) predicate with
  | error _ =>
    rw [isMade] at made
    cases made
  | ok _ => cases (evaluateEach k operands).mapM fun (part : Part) => part.run batch <;> rfl

end Kinds

theorem formed_isNull {width : Nat} (isFormed : formed width expr = true) :
    expr.isNull = false := by
  cases expr with
  | null => cases isFormed
  | _ => rfl

theorem mem_evaluateEach {k : Kernels} (member : part ∈ evaluateEach k exprs) :
    part.expr ∈ exprs := by
  rw [evaluateEach_eq] at member
  obtain ⟨expr, among, rfl⟩ := mem_map.mp member
  exact among

mutual

theorem evaluate_rowwise (k : Kernels) (width : Nat) : (expr : Expr) → formed width expr = true →
    Rowwise k width ⟨expr, evaluate k expr⟩
  | .null, wrong => by cases wrong
  | .column column type, inside => by
    simp only [formed, Bool.and_eq_true, decide_eq_true_eq] at inside
    exact column_rowwise inside.1 inside.2
  | .constant constant type, _ => constant_rowwise
  | .arith op left right type, both => by
    simp only [formed, Bool.and_eq_true] at both
    exact arith_rowwise (evaluate_rowwise k width left both.1) (evaluate_rowwise k width right both.2)
  | .negate operand type, inner => negate_rowwise (evaluate_rowwise k width operand inner)
  | .function function args type, each => function_rowwise fun part member =>
    evaluateEach_rowwise k width args part member (formedEach_iff.mp each _ (mem_evaluateEach member))
  | .predicate predicate operands type, each => by
    simp only [formed, Bool.and_eq_true] at each
    exact predicate_rowwise each.2 fun part member =>
      evaluateEach_rowwise k width operands part member
        (formedEach_iff.mp each.1 _ (mem_evaluateEach member))
  | .bool op args type, each => by
    simp only [formed, Bool.and_eq_true, all_eq_true, decide_eq_true_eq] at each
    obtain ⟨⟨count, inner⟩, boolean⟩ := each
    intro batch rectangular isWidth
    have length : (evaluateEach k args).length = args.length := by simp [evaluateEach_eq]
    dsimp only
    rw [valueAt_bool, evaluate]
    refine evaluateBool_eq rectangular (fun part member => ?_) ?_
    · have among := mem_evaluateEach member
      exact ⟨isWidth ▸ evaluateEach_rowwise k width args part member
        (formedEach_iff.mp inner _ among), boolean _ among⟩
    · rw [length]
      split_ifs at count ⊢ <;> simpa using count
  | .caseWhen whens thens otherwise type, each => by
    simp only [formed, Bool.and_eq_true, all_eq_true, decide_eq_true_eq, Bool.or_eq_true,
      formedOptional_iff] at each
    obtain ⟨⟨⟨⟨⟨count, conditions⟩, values⟩, present⟩, boolean⟩, last⟩ := each
    intro batch rectangular isWidth
    have paired : ∀ branch ∈ (evaluateEach k whens).zip (evaluateEach k thens),
        (branch.1.expr, branch.2.expr) ∈ whens.zip thens := by
      intro branch member
      rw [evaluateEach_eq, evaluateEach_eq, zip_map] at member
      obtain ⟨pair, among, rfl⟩ := mem_map.mp member
      exact among
    dsimp only
    rw [valueAt_case count, evaluate, if_neg (not_not.mpr count)]
    refine evaluateCase_eq rectangular (fun branch member => ?_) ?_
    · have inside := of_mem_zip member
      have among := of_mem_zip (paired branch member)
      have both := present _ (paired branch member)
      constructor
      case condition =>
        refine (conditions _ among.1).imp_right fun isFormed => ⟨?_, ?_⟩
        · exact isWidth ▸ evaluateEach_rowwise k width whens _ inside.1 isFormed
        · exact (boolean _ among.1).resolve_left (by simp [formed_isNull isFormed])
      case value =>
        exact (values _ among.2).imp_right fun isFormed =>
          isWidth ▸ evaluateEach_rowwise k width thens _ inside.2 isFormed
      case present =>
        intro nulls
        simp [nulls.1, nulls.2] at both
    · exact last.imp_right fun isFormed => isWidth ▸ evaluate_rowwise k width otherwise isFormed
  | .cast operand type, inner => by
    simp only [formed, Bool.and_eq_true] at inner
    exact cast_rowwise inner.1 (evaluate_rowwise k width operand inner.2)

theorem evaluateEach_rowwise (k : Kernels) (width : Nat) : (exprs : List Expr) →
    ∀ part ∈ evaluateEach k exprs, formed width part.expr = true → Rowwise k width part
  | [], _, member => by cases member
  | expr :: rest, part, member => by
    intro isFormed
    rw [evaluateEach, mem_cons] at member
    rcases member with rfl | later
    · exact evaluate_rowwise k width expr isFormed
    · exact evaluateEach_rowwise k width rest part later isFormed

end

/-- The evaluator fails exactly where the evaluation of some row fails, and otherwise gives every row
its own value. -/
theorem evaluate_rowByRow (k : Kernels) {expr : Expr} {batch : RecordBatch}
    (rectangular : batch.Rectangular) (isFormed : formed batch.columns.length expr = true) :
    (evaluate k expr batch = none ↔
      ∃ i < batch.numRows, (byPosition expr).eval k (batch.row i) = none) ∧
    ∀ values, evaluate k expr batch = some values → values.length = batch.numRows ∧
      ∀ i < batch.numRows, values[i]? = (byPosition expr).eval k (batch.row i) := by
  have rows : evaluate k expr batch = batch.rows.mapM (valueAt k expr) :=
    evaluate_rowwise k _ expr isFormed batch rectangular rfl
  constructor
  · rw [rows, mapM_eq_none]
    simp [RecordBatch.rows, valueAt]
  · intro values computed
    rw [rows] at computed
    refine ⟨(length_of_rows computed).trans batch.length_rows, fun i bound => ?_⟩
    have each := congrArg (fun list => list[i]?) (mapM_eq_some.mp computed)
    simp only [RecordBatch.rows, getElem?_map, getElem?_range bound, Option.map_some] at each
    cases found : values[i]? with
    | none => simp [found] at each
    | some value => simpa [found, valueAt] using each.symm

/-- `CASE WHEN x >= 2147483647 THEN NULL ELSE x + 1 END` over an INTEGER column. -/
def successor : Expr :=
  .caseWhen
    [.predicate { kind := .compare, column := some { type := .integer }, op := .ge,
                  constant := ⟨.integer, .int 2147483647⟩ } [.column {} .integer] .boolean]
    [.null] (.arith .add (.column {} .integer) (.constant ⟨.integer, .int 1⟩ .integer) .integer)
    .integer

/-- The addition overflows in the last row, which the condition keeps away from it. -/
theorem evaluate_successor : evaluate integerKernels successor ⟨[[.int 1, .null, .int 2147483647]], 3⟩ =
      some [.int 2, .null, .null] ∧
    ∀ i < 3, ([.int 2, .null, .null] : List Value)[i]? = (byPosition successor).eval integerKernels
      (RecordBatch.row ⟨[[.int 1, .null, .int 2147483647]], 3⟩ i) := by
  have computed : evaluate integerKernels successor ⟨[[.int 1, .null, .int 2147483647]], 3⟩ =
      some [.int 2, .null, .null] := by decide
  have rectangular : RecordBatch.Rectangular ⟨[[.int 1, .null, .int 2147483647]], 3⟩ := by
    simp [RecordBatch.Rectangular]
  exact ⟨computed, ((evaluate_rowByRow integerKernels rectangular (by decide)).2 _ computed).2⟩

end Antb1.Exec.Compute
