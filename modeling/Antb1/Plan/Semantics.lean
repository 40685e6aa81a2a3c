import Antb1.Lib.Outcomes
import Antb1.Plan.Aggregate

/-! What a plan answers (the comments on each node of `plan/logical_plan.h`). A row
holds a value for every column id; outside a node's output it holds its environment,
from which a correlated input reads its free variables. Where the row order is
unspecified, every order the context allows is a possible answer; an expression or
a SUM that fails makes the answer fail. -/
namespace Antb1.Plan

/-- Everything an answer depends on besides the plan. `arrange rows taken`: an
operator whose row order is unspecified may take or emit `rows` in the order `taken`. -/
structure Context where
  kernels : Kernels
  doubles : DoubleAggregates
  tables : TableId → List (List Value)
  arrange : List Row → List Row → Prop
  perm : ∀ {rows taken}, arrange rows taken → rows.Perm taken
  total : ∀ rows, ∃ taken, arrange rows taken

/-- The row with values for `ids`. -/
def Row.assign (row : Row) : List ColumnId → List Value → Row
  | id :: ids, value :: values => fun column =>
    if column = id then value else Row.assign row ids values column
  | _, _ => row

def Row.combine (rightIds : List ColumnId) (left right : Row) : Row :=
  fun column => if column ∈ rightIds then right column else left column

/-- The row with NULLs for `ids`. -/
def Row.pad (ids : List ColumnId) (row : Row) : Row :=
  fun column => if column ∈ ids then .null else row column

/-- A Project's output: constants replace columns. -/
def projectValues (row : Row) : List BoundColumn → List (Option Constant) → List Value
  | [], _ => []
  | column :: rest, [] => row column.id :: projectValues row rest []
  | column :: rest, none :: constants => row column.id :: projectValues row rest constants
  | _ :: rest, some constant :: constants => constant.value :: projectValues row rest constants

section Join

variable (k : Kernels)

/-- Every conjunct is true; a conjunct is computed where those before it are. -/
def holdsAll (row : Row) : List Expr → Option Bool
  | [] => some true
  | conjunct :: rest => (conjunct.eval k row).bind fun value =>
    if value = .bool true then holdsAll row rest else some false

def keysMatch (keys : List JoinKey) (left right : Row) : Bool :=
  keys.all fun key => left key.left.id ≠ .null ∧ left key.left.id = right key.right.id

/-- A match: equal keys, none of them NULL, and a true residual. -/
def isMatch (spec : JoinSpec) (rightIds : List ColumnId) (left right : Row) : Option Bool :=
  if keysMatch spec.keys left right then holdsAll k (left.combine rightIds right) spec.residual
  else some false

def keepM {α : Type} (test : α → Option Bool) : List α → Option (List α)
  | [] => some []
  | a :: rest => (test a).bind fun keep =>
    (keepM test rest).map fun kept => if keep then a :: kept else kept

def matchesOf (spec : JoinSpec) (rightIds : List ColumnId) (left right : List Row) :
    Option (List (Row × List Row)) :=
  left.mapM fun row => (keepM (isMatch k spec rightIds row) right).map fun found => (row, found)

def hasNullKey (side : JoinKey → BoundColumn) (keys : List JoinKey) (row : Row) : Bool :=
  keys.any fun key => row (side key).id = .null

/-- The rows one left row gives, from its matches and whether the right input is
empty or has a NULL key. -/
def rowsOfLeft (spec : JoinSpec) (rightIds : List ColumnId) (right : List Row) (row : Row)
    (found : List Row) : List Row :=
  match spec.kind with
  | .inner | .oneRow => found.map (row.combine rightIds)
  | .left | .full =>
    if found = [] then [row.pad rightIds] else found.map (row.combine rightIds)
  | .semi => if found = [] then [] else [row]
  | .anti => if found = [] then [row] else []
  | .nullAwareAnti =>
    if right = [] then [row]
    else if right.any (hasNullKey JoinKey.right spec.keys) || hasNullKey JoinKey.left spec.keys row
      then []
    else if found = [] then [row] else []

/-- The right rows of a FULL join that no left row matches. -/
def unmatchedRight (spec : JoinSpec) (leftIds rightIds : List ColumnId) (env : Row)
    (left right : List Row) : Option (List Row) :=
  (keepM (fun row => (keepM (fun other => isMatch k spec rightIds other row) left).map
    fun found => found.isEmpty) right).map fun rows =>
      rows.map fun row => (env.pad leftIds).combine rightIds row

def joinRows (spec : JoinSpec) (leftIds rightIds : List ColumnId) (env : Row)
    (left right : List Row) : Option (List Row) :=
  if spec.kind = .oneRow ∧ right.length ≠ 1 then none
  else (matchesOf k spec rightIds left right).bind fun found =>
    let rows := found.flatMap fun match_ => rowsOfLeft spec rightIds right match_.1 match_.2
    if spec.kind = .full then
      (unmatchedRight k spec leftIds rightIds env left right).map (rows ++ ·)
    else some rows

/-- What a left row of a dependent join gives, from the right input's rows. -/
def dependentRows (kind : JoinKind) (rightIds : List ColumnId) (row : Row) (right : List Row) :
    Option (List Row) :=
  match kind with
  | .semi => some (if right = [] then [] else [row])
  | .anti => some (if right = [] then [row] else [])
  | .oneRow =>
    match right with
    | [value] => some [row.combine rightIds value]
    | _ => none
  | .inner | .left | .nullAwareAnti | .full => none

end Join

section Rows

variable (doubles : DoubleAggregates)

def groupRow (env : Row) (keys : List BoundColumn) (keyIds : List ColumnId)
    (calls : List AggregateCall) (rows : List Row) : Option Row :=
  (calls.mapM fun (call : AggregateCall) => call.value doubles rows).map fun values =>
    env.assign (LogicalNode.callIds keyIds calls) (firstKeys keys rows ++ values)

def groupRows (env : Row) (keys : List BoundColumn) (keyIds : List ColumnId)
    (calls : List AggregateCall) (rows : List Row) : Option (List Row) :=
  (Grouping.classes (groupKey keys) rows).mapM (groupRow doubles env keys keyIds calls)

/-- GROUPING of a set: bit `n - 1 - i` is set when argument `i` is not in the set. -/
def groupingValue (set : List Nat) (args : List Nat) : Value :=
  .int (args.foldl (fun bits arg => 2 * bits + if arg ∈ set then 0 else 1) 0)

/-- The groups of one grouping set, NULL where the set lacks a key. -/
def groupingSetRows (env : Row) (keys : List BoundColumn) (keyIds : List ColumnId)
    (calls : List AggregateCall) (grouping : List GroupingCall) (rows : List Row)
    (set : List Nat) : Option (List Row) :=
  let chosen := (keys.zipIdx.filter fun key => key.2 ∈ set).map Prod.fst
  let groups := if set = [] then [rows] else Grouping.classes (groupKey chosen) rows
  groups.mapM fun group =>
    (calls.mapM fun (call : AggregateCall) => call.value doubles group).map fun values =>
      let keyValues := keys.zipIdx.map fun key =>
        if key.2 ∈ set then (group.head?.map fun row => row key.1.id).getD .null else .null
      env.assign (LogicalNode.callIds keyIds calls ++ grouping.map GroupingCall.id)
        (keyValues ++ values ++ grouping.map fun call => groupingValue set call.args)

def SortKey.order (key : SortKey) (a b : Value) : Ordering :=
  match decide (a = .null), decide (b = .null) with
  | true, true => .eq
  | true, false => if key.nullsFirst then .lt else .gt
  | false, true => if key.nullsFirst then .gt else .lt
  | false, false => if key.descending then b.order a else a.order b

def sortOrder (a b : Row) : List SortKey → Ordering
  | [] => .eq
  | key :: rest => (key.order (a key.column.id) (b key.column.id)).then (sortOrder a b rest)

def sortRows (keys : List SortKey) (rows : List Row) : List Row :=
  rows.mergeSort fun a b => sortOrder a b keys ≠ .gt

/-- A row of an input of a UnionAll or SetOperation, as its output's values. -/
def branchValues (columns : List BoundColumn) (row : Row) : List Value :=
  columns.map fun column => row column.id

def normalizedRow (row : List Value) : List Value := row.map Value.normalized

def startedRows (formula : List SetTerm) (inputs : List (List (List Value))) :
    List (List Value) :=
  (inputs.zip (setStarters formula inputs.length)).flatMap fun input =>
    if input.2 then input.1 else []

/-- How often a formula's tree answers a row, from its count in every input. -/
def copies (root : SetTreeNode) (inputs : List (List (List Value))) (key : List Value) : Nat :=
  root.value fun input => ((inputs.getD input []).map normalizedRow).count key

/-- The values of a set operation's rows: those first seen under a DISTINCT root, the
normalized keys under an ALL root. -/
def setOperationRows (formula : List SetTerm) (inputs : List (List (List Value))) :
    List (List Value) :=
  match setTreeOf formula with
  | none => []
  | some root =>
    let allRoot := formula.getLast?.any fun term =>
      term.kind = .intersectAll ∨ term.kind = .exceptAll
    (Grouping.classes normalizedRow (startedRows formula inputs)).flatMap fun same =>
      let key := normalizedRow (same.headD [])
      List.replicate (copies root inputs key) (if allRoot then key else same.headD [])

end Rows

section Eval

open Outcomes

variable (ctx : Context)

mutual

def LogicalNode.eval (env : Row) : LogicalNode → Outcomes (List Row)
  | .scan table fields ids => pure ((ctx.tables table).map fun tuple =>
      env.assign ids (fields.map fun field => tuple.getD field .null))
  | .filter input predicates _ =>
    if predicates.any (fun p => p.kind = .isFalse) then pure []
    else bind (input.eval env) fun rows =>
      pure (rows.filter fun row => predicates.all fun p => p.holds ctx.kernels row)
  | .compute input exprs ids => bind (input.eval env) fun rows =>
      ofOption (rows.mapM fun row =>
        (exprs.mapM fun (expr : Expr) => expr.eval ctx.kernels row).map (row.assign ids))
  | .project input columns constants ids => bind (input.eval env) fun rows =>
      pure (rows.map fun row => env.assign ids (projectValues row columns constants))
  | .aggregate input calls => bind (input.eval env) fun rows =>
      bind (choose (ctx.arrange rows)) fun taken =>
        ofOption ((groupRow ctx.doubles env [] [] calls taken).map fun row => [row])
  | .groupAggregate input keys keyIds calls => bind (input.eval env) fun rows =>
      bind (choose (ctx.arrange rows)) fun taken =>
        ofOption (groupRows ctx.doubles env keys keyIds calls taken)
  | .sort input keys => bind (input.eval env) fun rows =>
      bind (choose (ctx.arrange rows)) fun taken => pure (sortRows keys taken)
  | .limit input limit offset => bind (input.eval env) fun rows =>
      pure (match limit with
        | some limit => (rows.drop offset).take limit
        | none => rows.drop offset)
  | .rowCount table id => pure [env.assign [id] [.int (ctx.tables table).length]]
  | .join spec left right => bind (left.eval env) fun leftRows =>
      bind (right.eval env) fun rightRows =>
        bind (ofOption (joinRows ctx.kernels spec left.outputIds right.outputIds env
          leftRows rightRows)) fun rows => choose (ctx.arrange rows)
  | .dependentJoin kind left right _ => bind (left.eval env) fun leftRows =>
      bind (Outcomes.mapM (fun row => bind (right.eval row) fun rows =>
        ofOption (dependentRows kind right.outputIds row rows)) leftRows) fun rows =>
          choose (ctx.arrange rows.flatten)
  | .unionAll inputs columns ids => bind (evalInputs env inputs) fun branches =>
      pure ((branches.zip columns).flatMap fun branch =>
        branch.1.map fun row => env.assign ids (branchValues branch.2 row))
  | .groupingSets input keys keyIds sets calls grouping => bind (input.eval env) fun rows =>
      bind (choose (ctx.arrange rows)) fun taken =>
        ofOption ((sets.mapM (groupingSetRows ctx.doubles env keys keyIds calls grouping taken)).map
          List.flatten)
  | .setOperation inputs columns ids formula => bind (evalInputs env inputs) fun branches =>
      bind (Outcomes.mapM (fun rows => choose (ctx.arrange rows)) branches) fun taken =>
        choose (ctx.arrange ((setOperationRows formula
          ((taken.zip columns).map fun branch => branch.1.map (branchValues branch.2))).map
            (env.assign ids)))

def evalInputs (env : Row) : List LogicalNode → Outcomes (List (List Row))
  | [] => pure []
  | input :: rest => bind (input.eval env) fun rows =>
      bind (evalInputs env rest) fun others => pure (rows :: others)

end

end Eval

end Antb1.Plan
