import Antb1.Plan.BranchTruthProofs
import Antb1.Plan.Refinement
import Antb1.Plan.TypesProofs

/-! Filters moved into the branches of a UNION ALL keep its rows and their order. -/
namespace Antb1.Plan

open Outcomes LogicalNode

variable {predicates : List Predicate} {inputs : List LogicalNode} {p moved : Predicate}

/-- What a node's own predicates and constants hold, as the binder makes them. -/
def OwnValid : LogicalNode → Prop
  | .filter _ predicates _ => ∀ p ∈ predicates, p.Valid
  | .compute _ exprs _ => ∀ constant type, Expr.constant constant type ∈ exprs → ValidConstant constant
  | .project _ _ constants _ => ∀ constant, some constant ∈ constants → ValidConstant constant
  | _ => True

inductive LogicalNode.Valid : LogicalNode → Prop
  | node {node : LogicalNode} (own : OwnValid node)
      (inputs : ∀ input ∈ node.inputsOf, input.Valid) : node.Valid

theorem LogicalNode.Valid.own {node : LogicalNode} (valid : node.Valid) : OwnValid node := by
  cases valid
  assumption

theorem LogicalNode.Valid.input {node input : LogicalNode} (valid : node.Valid)
    (member : input ∈ node.inputsOf) : input.Valid := by
  cases valid with
  | node _ inputs => exact inputs input member

theorem assign_at (row : Row) {ids : List ColumnId} {id : ColumnId} {position : Nat}
    (found : positionOf ids id = some position) {values : List Value} {value : Value}
    (at_ : values[position]? = some value) : row.assign ids values id = value := by
  induction ids generalizing values position with
  | nil => cases found
  | cons first rest ih =>
    cases values with
    | nil => cases at_
    | cons head tail =>
      rw [positionOf, List.idxOf?_cons] at found
      dsimp only [Row.assign]
      by_cases same : first = id
      · subst same
        simp only [beq_self_eq_true, if_true, Option.some.injEq] at found
        subst found
        simpa using at_
      · simp only [beq_iff_eq, same, if_false, Option.map_eq_some_iff] at found
        obtain ⟨before, earlier, rfl⟩ := found
        rw [if_neg (Ne.symm same)]
        exact ih earlier at_

theorem widen_cast (k : Kernels) {constant widened : Constant} {target : LogicalType}
    (valid : ValidConstant constant) (found : widen constant target = some widened) :
    ValidConstant widened ∧
      ∀ value, castValue k constant.type target constant.value = some value →
        value = widened.value := by
  unfold widen at found
  by_cases same : constant.type = target
  · rw [if_pos same] at found
    cases found
    refine ⟨valid, fun value cast => ?_⟩
    subst same
    rw [castValue_exact k (isExactWidening_iff.mpr (.refl _)) cast, widenValue_self]
  rw [if_neg same] at found
  cases of : constant.value with
  | int x =>
    rw [of] at found
    dsimp only at found
    split_ifs at found with narrow integer outside other scales
    · cases found
      refine ⟨fun y held => valid y (of.trans held), fun value cast => ?_⟩
      rw [castValue_exact k (eq_true_of_ne_false narrow) cast, widenValue, integer_scale integer]
      simp
    · obtain ⟨scaled, rescaled, kept⟩ := Option.bind_eq_some_iff.mp found
      split_ifs at kept
      cases kept
      dsimp only [rescaleUp] at rescaled
      split_ifs at rescaled with held
      cases rescaled
      refine ⟨fun y same => Value.int.inj same ▸ held, fun value cast => ?_⟩
      rw [castValue_exact k (eq_true_of_ne_false narrow) cast, widenValue]
  | _ =>
    rw [of] at found
    cases found

theorem projectValues_constant (row : Row) {columns : List BoundColumn}
    {constants : List (Option Constant)} {position : Nat} {column : BoundColumn}
    {constant : Constant} (read : columns[position]? = some column)
    (given : constants[position]? = some (some constant)) :
    (projectValues row columns constants)[position]? = some constant.value := by
  induction columns generalizing constants position with
  | nil => cases read
  | cons first rest ih =>
    cases constants with
    | nil => cases given
    | cons own others =>
      cases position with
      | zero =>
        cases given
        rfl
      | succ position =>
        cases own <;> exact ih read given

theorem compute_at {k : Kernels} {exprs : List Expr} {ids : List ColumnId} {rows computed : List Row}
    (evaluated : rows.mapM (fun row =>
      (exprs.mapM fun (expr : Expr) => expr.eval k row).map (row.assign ids)) = some computed)
    {row : Row} (member : row ∈ computed) :
    ∃ source ∈ rows, (∀ id, positionOf ids id = none → row id = source id) ∧
      ∀ {id position expr}, positionOf ids id = some position → exprs[position]? = some expr →
        expr.eval k source = some (row id) := by
  obtain ⟨source, among, each⟩ := mem_mapM evaluated member
  obtain ⟨values, valued, rfl⟩ := Option.map_eq_some_iff.mp each
  refine ⟨source, among, fun id absent => ?_, fun {id position expr} found given => ?_⟩
  · exact assign_other source (List.idxOf?_eq_none_iff.mp absent) values
  · have at_ := getElem?_mapM valued position
    rw [given, Option.bind_some] at at_
    cases result : expr.eval k source with
    | some value =>
      rw [result] at at_
      rw [assign_at source found at_]
    | none =>
      -- the expression at a position of the list was computed
      rw [result, List.getElem?_eq_none_iff] at at_
      have inside := (List.getElem?_eq_some_iff.mp given).1
      rw [← (mapM_eq_some.mp valued).length_eq] at at_
      exact absurd inside (by omega)

theorem constantColumn_holds (ctx : Context) (env : Row) : (node : LogicalNode) → node.Valid →
    {id : ColumnId} → {constant : Constant} → constantColumn node id = some constant →
    ValidConstant constant ∧
      ∀ rows, (node.eval ctx env).Yields rows → ∀ row ∈ rows, row id = constant.value
  | .filter input predicates needed, valid, id, constant, found => by
    obtain ⟨held, each⟩ :=
      constantColumn_holds ctx env input (valid.input (by simp [inputsOf])) found
    refine ⟨held, fun rows yields row member => ?_⟩
    rw [LogicalNode.eval] at yields
    split_ifs at yields
    · rw [pure_yields] at yields
      rw [yields] at member
      cases member
    · obtain ⟨before, earlier, kept⟩ := bind_yields.mp yields
      rw [pure_yields] at kept
      rw [kept] at member
      exact each before earlier row (List.mem_of_mem_filter member)
  | .sort input keys, valid, id, constant, found => by
    obtain ⟨held, each⟩ :=
      constantColumn_holds ctx env input (valid.input (by simp [inputsOf])) found
    refine ⟨held, fun rows yields row member => ?_⟩
    obtain ⟨before, earlier, later⟩ := bind_yields.mp yields
    obtain ⟨taken, arranged, sorted⟩ := bind_yields.mp later
    rw [pure_yields] at sorted
    rw [sorted, sortRows, List.mem_mergeSort] at member
    exact each before earlier row
      ((ctx.perm (choose_yields.mp arranged)).mem_iff.mpr member)
  | .limit input count offset, valid, id, constant, found => by
    obtain ⟨held, each⟩ :=
      constantColumn_holds ctx env input (valid.input (by simp [inputsOf])) found
    refine ⟨held, fun rows yields row member => ?_⟩
    obtain ⟨before, earlier, kept⟩ := bind_yields.mp yields
    rw [pure_yields] at kept
    rw [kept] at member
    apply each before earlier row
    cases count with
    | none => exact List.mem_of_mem_drop member
    | some count => exact List.mem_of_mem_drop (List.mem_of_mem_take member)
  | .compute input exprs ids, valid, id, constant, found => by
    have recursive := fun {id : ColumnId} {constant : Constant} =>
      @constantColumn_holds ctx env input (valid.input (by simp [inputsOf])) id constant
    rw [constantColumn] at found
    split at found
    · rename_i absent
      obtain ⟨held, each⟩ := recursive found
      refine ⟨held, fun rows yields row member => ?_⟩
      obtain ⟨before, earlier, computed⟩ := bind_yields.mp yields
      obtain ⟨source, among, other, -⟩ := compute_at (ofOption_yields.mp computed) member
      rw [other id absent]
      exact each before earlier source among
    rename_i position at_
    split at found
    · rename_i value type given
      cases found
      refine ⟨valid.own _ type (List.mem_of_getElem? given), fun rows yields row member => ?_⟩
      obtain ⟨before, -, computed⟩ := bind_yields.mp yields
      obtain ⟨source, -, -, own⟩ := compute_at (ofOption_yields.mp computed) member
      exact (Option.some.inj (own at_ given)).symm
    · rename_i column type target given
      obtain ⟨inner, traced, rest⟩ := Option.bind_eq_some_iff.mp found
      split_ifs at rest with typed
      obtain ⟨held, each⟩ := recursive traced
      obtain ⟨heldWide, casts⟩ := widen_cast ctx.kernels held rest
      refine ⟨heldWide, fun rows yields row member => ?_⟩
      obtain ⟨before, earlier, computed⟩ := bind_yields.mp yields
      obtain ⟨source, among, -, own⟩ := compute_at (ofOption_yields.mp computed) member
      have cast := own at_ given
      simp only [Expr.eval, Expr.type, Option.bind_some, each before earlier source among,
        ← typed] at cast
      exact casts _ cast
    · cases found
  | .project input columns constants ids, valid, id, constant, found => by
    obtain ⟨position, at_, rest⟩ := Option.bind_eq_some_iff.mp found
    split at rest
    · rename_i column own read given
      split_ifs at rest
      cases rest
      refine ⟨valid.own _ (List.mem_of_getElem? given), fun rows yields row member => ?_⟩
      obtain ⟨before, -, projected⟩ := bind_yields.mp yields
      rw [pure_yields] at projected
      rw [projected] at member
      obtain ⟨source, -, rfl⟩ := List.mem_map.mp member
      exact assign_at env at_ (projectValues_constant source read given)
    · cases rest
  | .scan _ _ _, _, _, _, found | .aggregate _ _, _, _, _, found
  | .groupAggregate _ _ _ _, _, _, _, found | .rowCount _ _, _, _, _, found
  | .join _ _ _, _, _, _, found | .dependentJoin _ _ _ _, _, _, _, found
  | .unionAll _ _ _, _, _, _, found | .groupingSets _ _ _ _ _ _, _, _, _, found
  | .setOperation _ _ _ _, _, _, _, found => by cases found

section Branch

variable {ctx : Context} (env : Row) {ids : List ColumnId} {input : LogicalNode}
  {columns : List BoundColumn}

def unionRow (ids : List ColumnId) (columns : List BoundColumn) (row : Row) : Row :=
  env.assign ids (branchValues columns row)

theorem unionRow_at {id : ColumnId} {position : Nat} {source : BoundColumn} (row : Row)
    (found : positionOf ids id = some position) (read : columns[position]? = some source) :
    unionRow env ids columns row id = row source.id :=
  assign_at env found (by simp [branchValues, read])

theorem branchConstant_holds (valid : input.Valid) {rows : List Row}
    (yields : (input.eval ctx env).Yields rows) {row : Row} (member : row ∈ rows)
    (column : Option BoundColumn) :
    Holds (branchConstant ids input columns column)
      (unionRow env ids columns row ((column.map BoundColumn.id).getD kNoColumnId)) := by
  intro known found
  obtain ⟨own, rfl, rest⟩ := Option.bind_eq_some_iff.mp found
  obtain ⟨position, at_, rest⟩ := Option.bind_eq_some_iff.mp rest
  obtain ⟨source, read, rest⟩ := Option.bind_eq_some_iff.mp rest
  obtain ⟨value, traced, typed⟩ := Option.bind_eq_some_iff.mp rest
  split_ifs at typed
  cases typed
  obtain ⟨held, each⟩ := constantColumn_holds ctx env input valid traced
  refine ⟨held, ?_⟩
  rw [Option.map_some, Option.getD_some, unionRow_at env row at_ read,
    each rows yields row member]

variable (ids columns) in
/-- What a branch's constants decide of a predicate holds of all its rows. -/
theorem truthInBranch_decides (valid : input.Valid) {rows : List Row}
    (yields : (input.eval ctx env).Yields rows) {row : Row} (member : row ∈ rows) {p : Predicate}
    (validP : p.Valid) (reads : p.column.isSome) :
    (truthInBranch ids input columns p = .never →
      p.holds ctx.kernels (unionRow env ids columns row) = false) ∧
    (truthInBranch ids input columns p = .always →
      p.holds ctx.kernels (unionRow env ids columns row) = true) := by
  have holds := @branchConstant_holds ctx env ids input columns valid rows yields row member
  have decided := truthOver_decides ctx.kernels validP reads (holds p.column) (holds p.other)
  exact ⟨fun never => decide_eq_false (decided.1 never),
    fun always => decide_eq_true (decided.2 always)⟩

theorem sideInBranch_some {side moved : Option BoundColumn}
    (found : sideInBranch ids columns side = some moved) :
    (side = none ∧ moved = none) ∨ ∃ own source, side = some own ∧
      moved = some { own with id := source } ∧
      ∀ row, unionRow env ids columns row own.id = row source := by
  cases side with
  | none => exact .inl ⟨rfl, (Option.some.inj found).symm⟩
  | some own =>
    obtain ⟨position, at_, rest⟩ := Option.bind_eq_some_iff.mp found
    obtain ⟨source, read, rfl⟩ := Option.map_eq_some_iff.mp rest
    exact .inr ⟨own, source.id, rfl, rfl, fun row => unionRow_at env row at_ read⟩

section

variable (found : inBranch ids columns p = some moved)
include found

/-- A predicate in a branch is the union's predicate on the branch's rows. -/
theorem inBranch_holds (k : Kernels) (row : Row) :
    moved.holds k row = p.holds k (unionRow env ids columns row) := by
  obtain ⟨column, side, rest⟩ := Option.bind_eq_some_iff.mp found
  obtain ⟨other, otherSide, rfl⟩ := Option.map_eq_some_iff.mp rest
  unfold Predicate.holds Predicate.truth
  rcases sideInBranch_some env side with ⟨none_, rfl⟩ | ⟨own, source, some_, rfl, same⟩
  · simp [none_]
  rcases sideInBranch_some env otherSide with ⟨noneO, rfl⟩ | ⟨ownO, sourceO, someO, rfl, sameO⟩
  · simp only [some_, noneO, Option.map_some, Option.map_none, Option.getD_some, same,
      Option.bind_none]
  · simp only [some_, someO, Option.map_some, Option.getD_some, same, sameO, Option.bind_some]

theorem inBranch_kind : moved.kind = p.kind := by
  obtain ⟨column, -, rest⟩ := Option.bind_eq_some_iff.mp found
  obtain ⟨other, -, rfl⟩ := Option.map_eq_some_iff.mp rest
  rfl

theorem inBranch_valid (valid : p.Valid) : moved.Valid := by
  obtain ⟨column, side, rest⟩ := Option.bind_eq_some_iff.mp found
  obtain ⟨other, otherSide, rfl⟩ := Option.map_eq_some_iff.mp rest
  refine ⟨fun some_ => valid.other ?_, valid.values, valid.constant, valid.constants⟩
  rcases sideInBranch_some (fun _ => .null) otherSide with ⟨-, rfl⟩ | ⟨own, -, some_, -, -⟩
  · cases some_
  · rw [some_]
    rfl

end

/-- A branch ruled out has no row the predicates keep; the predicates left keep the same rows. -/
theorem branchPredicates_keep (valid : input.Valid) {rows : List Row}
    (yields : (input.eval ctx env).Yields rows) {row : Row} (member : row ∈ rows)
    (valids : ∀ p ∈ predicates, p.Valid ∧ p.column.isSome) {left : Option (List Predicate)}
    (found : branchPredicates ids input columns predicates = some left) :
    (predicates.all fun p => p.holds ctx.kernels (unionRow env ids columns row)) =
      left.any fun kept => kept.all fun p => p.holds ctx.kernels row := by
  induction predicates generalizing left with
  | nil =>
    cases found
    rfl
  | cons first rest ih =>
    have recursive := fun {left} => @ih (fun p among => valids p (by simp [among])) left
    obtain ⟨validP, reads⟩ := valids first (by simp)
    have decided := truthInBranch_decides env ids columns valid yields member validP reads
    rw [branchPredicates] at found
    rw [List.all_cons]
    split at found
    · rename_i never
      cases found
      rw [decided.1 never]
      rfl
    · rename_i always
      rw [decided.2 always, Bool.true_and, recursive found]
    · obtain ⟨moved, movedFrom, rest⟩ := Option.bind_eq_some_iff.mp found
      obtain ⟨others, later, rfl⟩ := Option.map_eq_some_iff.mp rest
      rw [recursive later, ← inBranch_holds env movedFrom]
      cases others <;> simp

theorem branchPredicates_valid {predicates kept : List Predicate}
    (valids : ∀ p ∈ predicates, p.Valid ∧ p.kind ≠ .isFalse)
    (found : branchPredicates ids input columns predicates = some (some kept)) :
    ∀ p ∈ kept, p.Valid ∧ p.kind ≠ .isFalse := by
  induction predicates generalizing kept with
  | nil =>
    cases found
    simp
  | cons first rest ih =>
    have recursive := fun {kept} => @ih kept (fun p among => valids p (by simp [among]))
    rw [branchPredicates] at found
    split at found
    · cases found
    · exact recursive found
    · obtain ⟨moved, movedFrom, rest⟩ := Option.bind_eq_some_iff.mp found
      obtain ⟨others, later, mapped⟩ := Option.map_eq_some_iff.mp rest
      obtain ⟨others, rfl, rfl⟩ := Option.map_eq_some_iff.mp mapped
      obtain ⟨validP, kind⟩ := valids first (by simp)
      intro p among
      rcases List.mem_cons.mp among with rfl | inside
      · exact ⟨inBranch_valid movedFrom validP, inBranch_kind movedFrom ▸ kind⟩
      · exact recursive later p inside

end Branch

section Branches

variable {ctx : Context} {env : Row} {ids : List ColumnId}

def branchRows (ctx : Context) (env : Row) (ids : List ColumnId)
    (branch : LogicalNode × List BoundColumn) : Outcomes (List Row) :=
  map (fun rows => rows.map (unionRow env ids branch.2)) (branch.1.eval ctx env)

def concatRows (ctx : Context) (env : Row) (ids : List ColumnId)
    (branches : List (LogicalNode × List BoundColumn)) : Outcomes (List Row) :=
  map List.flatten (Outcomes.mapM (branchRows ctx env ids) branches)

theorem flatten_zipWith_unionRow {columns : List (List BoundColumn)} {results : List (List Row)}
    (length : results.length = inputs.length) :
    (List.zipWith (fun (branch : LogicalNode × List BoundColumn) rows =>
      rows.map (unionRow env ids branch.2)) (inputs.zip columns) results).flatten =
    (results.zip columns).flatMap fun branch =>
      branch.1.map fun row => env.assign ids (branchValues branch.2 row) := by
  induction inputs generalizing columns results with
  | nil =>
    rw [List.length_nil, List.length_eq_zero_iff] at length
    simp [length]
  | cons first rest ih =>
    cases results with
    | nil => cases length
    | cons rows others =>
      cases columns with
      | nil => rfl
      | cons column columns =>
        simp only [List.zip_cons_cons, List.zipWith_cons_cons, List.flatten_cons,
          List.flatMap_cons, ih (Nat.succ.inj length)]
        rfl

theorem eval_unionAll {columns : List (List BoundColumn)}
    (length : columns.length = inputs.length) :
    LogicalNode.eval ctx env (.unionAll inputs columns ids) =
      concatRows ctx env ids (inputs.zip columns) := by
  have each : Outcomes.mapM (fun (branch : LogicalNode × List BoundColumn) =>
      branch.1.eval ctx env) (inputs.zip columns) = evalInputs ctx env inputs := by
    rw [evalInputs_eq, ← mapM_map (fun input : LogicalNode => input.eval ctx env) Prod.fst,
      List.map_fst_zip length.ge]
  unfold concatRows branchRows
  rw [mapM_map_zip (fun (branch : LogicalNode × List BoundColumn) => branch.1.eval ctx env)
    fun branch rows => rows.map (unionRow env ids branch.2), each, map_map]
  refine map_congr fun results yields => ?_
  rw [evalInputs_eq] at yields
  exact (flatten_zipWith_unionRow (mapM_yields_length yields)).symm

theorem concatRows_cons (first : LogicalNode × List BoundColumn)
    (rest : List (LogicalNode × List BoundColumn)) :
    concatRows ctx env ids (first :: rest) = Outcomes.bind (branchRows ctx env ids first)
      fun rows => map (rows ++ ·) (concatRows ctx env ids rest) := by
  simp only [concatRows, Outcomes.mapM_cons, map_bind, map_pure, List.flatten_cons, map_map]
  rfl

theorem branchRows_total (branch : LogicalNode × List BoundColumn) :
    (branchRows ctx env ids branch).Total :=
  (eval_total ctx env branch.1).bind fun _ => total_pure _

def kept (k : Kernels) (predicates : List Predicate) (rows : List Row) : List Row :=
  rows.filter fun row => predicates.all fun p => p.holds k row

theorem eval_withPredicates (input : LogicalNode) (kinds : ∀ p ∈ predicates, p.kind ≠ .isFalse) :
    (withPredicates input predicates).eval ctx env =
      map (kept ctx.kernels predicates) (input.eval ctx env) := by
  unfold withPredicates
  split_ifs with none_
  · subst none_
    exact (map_eq_self fun rows _ => by simp [kept]).symm
  · have present : ¬ predicates.any (fun p => p.kind = .isFalse) = true := by
      simpa using kinds
    rw [LogicalNode.eval, if_neg present]
    rfl

theorem kept_append (k : Kernels) (predicates : List Predicate) (rows others : List Row) :
    kept k predicates (rows ++ others) = kept k predicates rows ++ kept k predicates others :=
  List.filter_append ..

section Predicates

variable {input : LogicalNode} {columns : List BoundColumn}
  (valids : ∀ p ∈ predicates, p.Valid ∧ p.column.isSome ∧ p.kind ≠ .isFalse)

include valids

theorem kept_unionRow (valid : input.Valid) {rows : List Row}
    (yields : (input.eval ctx env).Yields rows) {left : Option (List Predicate)}
    (found : branchPredicates ids input columns predicates = some left) :
    kept ctx.kernels predicates (rows.map (unionRow env ids columns)) =
      (rows.filter fun row => left.any fun kept => kept.all fun p => p.holds ctx.kernels row).map
        (unionRow env ids columns) := by
  rw [kept, List.filter_map]
  refine congrArg _ (List.filter_congr fun row member => ?_)
  exact branchPredicates_keep env valid yields member
    (fun p among => ⟨(valids p among).1, (valids p among).2.1⟩) found

theorem branchRows_ruledOut (valid : input.Valid) (safe : ¬ (input.eval ctx env).Fails)
    (found : branchPredicates ids input columns predicates = some none) :
    map (kept ctx.kernels predicates) (branchRows ctx env ids (input, columns)) = pure [] := by
  rw [branchRows, map_map]
  refine map_eq_pure safe ((eval_total ctx env input).resolve_left safe) fun rows yields => ?_
  rw [kept_unionRow valids valid yields found]
  simp

theorem branchRows_kept (valid : input.Valid) {left : List Predicate}
    (found : branchPredicates ids input columns predicates = some (some left)) :
    map (kept ctx.kernels predicates) (branchRows ctx env ids (input, columns)) =
      branchRows ctx env ids (withPredicates input left, columns) := by
  have kinds := branchPredicates_valid
    (fun p among => ⟨(valids p among).1, (valids p among).2.2⟩) found
  rw [branchRows, branchRows, eval_withPredicates input fun p among => (kinds p among).2, map_map,
    map_map]
  exact map_congr fun rows yields => kept_unionRow valids valid yields found

/-- The branches left give the rows the Filter keeps, in their order. -/
theorem branchesLeft_rows {branches left : List (LogicalNode × List BoundColumn)}
    (valid : ∀ branch ∈ branches, branch.1.Valid)
    (found : branchesLeft predicates ids branches = some left)
    (safe : ¬ (concatRows ctx env ids branches).Fails) :
    map (kept ctx.kernels predicates) (concatRows ctx env ids branches) =
      concatRows ctx env ids left := by
  induction branches generalizing left with
  | nil =>
    cases found
    simp [concatRows, kept]
  | cons first rest ih =>
    obtain ⟨input, columns⟩ := first
    have validFirst := valid (input, columns) (by simp)
    obtain ⟨own, ofFirst, later⟩ := Option.bind_eq_some_iff.mp found
    obtain ⟨others, ofRest, joined⟩ := Option.map_eq_some_iff.mp later
    rw [concatRows_cons, bind_fails, not_or, not_exists] at safe
    obtain ⟨rows, yields⟩ := (branchRows_total (input, columns)).resolve_left safe.1
    have safeRest : ¬ (concatRows ctx env ids rest).Fails := fun fails =>
      safe.2 rows ⟨yields, map_fails.mpr fails⟩
    have tail := ih (fun branch among => valid branch (by simp [among])) ofRest safeRest
    have split : map (kept ctx.kernels predicates)
        (concatRows ctx env ids ((input, columns) :: rest)) =
        Outcomes.bind (map (kept ctx.kernels predicates) (branchRows ctx env ids (input, columns)))
          fun rows => map (rows ++ ·) (concatRows ctx env ids others) := by
      rw [concatRows_cons, map_bind, bind_map, ← tail]
      simp only [map_map, kept_append]
    rw [split, ← joined]
    cases own with
    | none =>
      rw [branchRows_ruledOut valids validFirst (mt map_fails.mpr safe.1) ofFirst, pure_bind]
      exact map_eq_self fun _ _ => rfl
    | some left => rw [branchRows_kept valids validFirst ofFirst, concatRows_cons]

end Predicates

end Branches

theorem movable_predicates {columns : List (List BoundColumn)} {ids : List ColumnId}
    (may : movable predicates inputs columns ids = true) :
    columns.length = inputs.length ∧
      ∀ p ∈ predicates, p.column.isSome ∧ p.kind ≠ .isFalse := by
  simp only [movable, Bool.and_eq_true, List.all_eq_true, decide_eq_true_eq, beq_iff_eq] at may
  refine ⟨may.1.2, fun p member => ⟨?_, (may.2 p member).1.1⟩⟩
  have reads := (may.2 p member).1.2
  cases of : p.column with
  | none =>
    rw [of] at reads
    cases reads
  | some column => rfl

theorem withPredicates_valid {input : LogicalNode} (valid : input.Valid) {kept : List Predicate}
    (valids : ∀ p ∈ kept, p.Valid) : (withPredicates input kept).Valid := by
  unfold withPredicates
  split_ifs
  · exact valid
  · refine .node valids fun other member => ?_
    rw [inputsOf, List.mem_singleton] at member
    exact member ▸ valid

theorem branchesLeft_valid {ids : List ColumnId}
    (valids : ∀ p ∈ predicates, p.Valid ∧ p.kind ≠ .isFalse)
    {branches left : List (LogicalNode × List BoundColumn)}
    (valid : ∀ branch ∈ branches, branch.1.Valid)
    (found : branchesLeft predicates ids branches = some left) :
    ∀ branch ∈ left, branch.1.Valid := by
  induction branches generalizing left with
  | nil =>
    cases found
    simp
  | cons first rest ih =>
    obtain ⟨own, ofFirst, later⟩ := Option.bind_eq_some_iff.mp found
    obtain ⟨others, ofRest, rfl⟩ := Option.map_eq_some_iff.mp later
    have tail := ih (fun branch among => valid branch (by simp [among])) ofRest
    cases own with
    | none => exact tail
    | some kept =>
      intro branch member
      rcases List.mem_cons.mp member with rfl | inside
      · exact withPredicates_valid (valid first (by simp)) fun p among =>
          (branchPredicates_valid valids ofFirst p among).1
      · exact tail branch inside

section Step

variable {columns : List (List BoundColumn)} {ids : List ColumnId} {needed : Option (List ColumnId)}
  {left : List (LogicalNode × List BoundColumn)}
  (valid : (LogicalNode.filter (.unionAll inputs columns ids) predicates needed).Valid)
  (found : intoBranches predicates inputs columns ids = some left)

include valid found

theorem intoBranches_valid : ∀ branch ∈ left, branch.1.Valid := by
  unfold intoBranches at found
  split_ifs at found with may
  obtain ⟨-, reads⟩ := movable_predicates may
  refine branchesLeft_valid (fun p member => ⟨valid.own p member, (reads p member).2⟩) ?_ found
  intro branch member
  have union : (LogicalNode.unionAll inputs columns ids).Valid := valid.input (by simp [inputsOf])
  exact union.input (List.of_mem_zip member).1

theorem intoBranches_rows (ctx : Context) (env : Row)
    (safe : ¬ (LogicalNode.eval ctx env
      (.filter (.unionAll inputs columns ids) predicates needed)).Fails) :
    LogicalNode.eval ctx env (.filter (.unionAll inputs columns ids) predicates needed) =
      concatRows ctx env ids left := by
  unfold intoBranches at found
  split_ifs at found with may
  obtain ⟨length, reads⟩ := movable_predicates may
  have kinds : ¬ predicates.any (fun p => p.kind = .isFalse) = true := by
    simpa using fun p member => (reads p member).2
  have union : (LogicalNode.unionAll inputs columns ids).Valid := valid.input (by simp [inputsOf])
  have filtered : LogicalNode.eval ctx env (.filter (.unionAll inputs columns ids) predicates needed)
      = map (kept ctx.kernels predicates) (concatRows ctx env ids (inputs.zip columns)) := by
    rw [LogicalNode.eval, if_neg kinds, eval_unionAll length]
    rfl
  rw [filtered] at safe ⊢
  exact branchesLeft_rows (fun p member => ⟨valid.own p member, reads p member⟩)
    (fun branch member => union.input (List.of_mem_zip member).1) found (mt map_fails.mpr safe)

end Step

section Rewritten

variable {columns : List (List BoundColumn)} {ids : List ColumnId} {needed : Option (List ColumnId)}
  {left : List (LogicalNode × List BoundColumn)}

theorem filterIntoUnionBranches_stays (found : intoBranches predicates inputs columns ids = none) :
    filterIntoUnionBranches (.filter (.unionAll inputs columns ids) predicates needed) =
      .filter (filterIntoUnionBranches (.unionAll inputs columns ids)) predicates needed := by
  rw [filterIntoUnionBranches]
  split <;> simp_all

theorem filterIntoUnionBranches_none_left
    (found : intoBranches predicates inputs columns ids = some []) :
    filterIntoUnionBranches (.filter (.unionAll inputs columns ids) predicates needed) =
      .filter (.unionAll ((inputs.attach.take 1).map fun input => filterIntoUnionBranches input.1)
        (columns.take 1) ids) [{ kind := .isFalse }] none := by
  rw [filterIntoUnionBranches]
  split <;> simp_all

theorem filterIntoUnionBranches_left
    (found : intoBranches predicates inputs columns ids = some left) (present : ¬ left.isEmpty) :
    filterIntoUnionBranches (.filter (.unionAll inputs columns ids) predicates needed) =
      .unionAll ((left.map Prod.fst).map filterIntoUnionBranches) (left.map Prod.snd) ids := by
  rw [filterIntoUnionBranches]
  split
  · simp_all
  · rename_i other found'
    cases found.symm.trans found'
    have attached : (left.attach.map fun branch => filterIntoUnionBranches branch.1.1) =
        left.map fun branch => filterIntoUnionBranches branch.1 := by
      simp only [List.map_attach_eq_pmap, List.pmap_eq_map]
    rw [if_neg present, attached, List.map_map]
    rfl

end Rewritten

theorem filterIntoUnionBranches_refines (ctx : Context) {root : LogicalNode} (valid : root.Valid) :
    Refines ctx (filterIntoUnionBranches root) root := by
  induction root using filterIntoUnionBranches.induct with
  | case1 inputs columns ids predicates needed found ih =>
    have inner := ih (valid.input (by simp [inputsOf]))
    rw [filterIntoUnionBranches_stays found]
    refine @Refines.mapInputs ctx filterIntoUnionBranches
      (.filter (.unionAll inputs columns ids) predicates needed) fun input member => ?_
    rw [inputsOf, List.mem_singleton] at member
    exact member ▸ inner
  | case2 inputs columns ids predicates needed left found empty _ =>
    have rows := intoBranches_rows valid found ctx
    rw [List.isEmpty_iff.mp empty] at rows found
    rw [filterIntoUnionBranches_none_left found]
    refine ⟨rfl, fun env safe => ?_⟩
    rw [rows env safe]
    simp [LogicalNode.eval, concatRows]
  | case3 inputs columns ids predicates needed left found present ih =>
    have pushed : Refines ctx (.unionAll ((left.map Prod.fst).map filterIntoUnionBranches)
        (left.map Prod.snd) ids) (.unionAll (left.map Prod.fst) (left.map Prod.snd) ids) := by
      refine ⟨rfl, fun env safe => ?_⟩
      refine bind_congr_safe safe (fun first => evalInputs_congr ?_ first) fun _ _ _ => rfl
      intro input member
      obtain ⟨branch, among, rfl⟩ := List.mem_map.mp member
      exact ih ⟨branch, among⟩ (intoBranches_valid valid found branch among)
    rw [filterIntoUnionBranches_left found present]
    refine pushed.trans ⟨rfl, fun env safe => ?_⟩
    rw [intoBranches_rows valid found ctx env safe, eval_unionAll (by simp)]
    simp [List.zip_map']
  | case4 root other ih =>
    rw [filterIntoUnionBranches.eq_2 root other]
    exact Refines.mapInputs fun input member => ih input member (valid.input member)

/-- Filters moved into union branches keep a plan's columns, its rows and their order. -/
theorem filterIntoUnionBranches_rows {root : LogicalNode} (valid : root.Valid) :
    (filterIntoUnionBranches root).outputIds = root.outputIds ∧
      ∀ (ctx : Context) (env : Row), ¬ (root.eval ctx env).Fails →
        (filterIntoUnionBranches root).eval ctx env = root.eval ctx env :=
  ⟨(filterIntoUnionBranches_refines (Context.ordered fun _ => []) valid).ids,
    fun ctx => (filterIntoUnionBranches_refines ctx valid).eval⟩

/-- A union of two branches that differ in a constant column, filtered by that column. -/
def channels : LogicalNode :=
  .filter (.unionAll
    [.compute (.scan 0 [0] [1]) [.constant ⟨.integer, .int 1⟩ .integer] [2],
      .compute (.scan 0 [0] [3]) [.constant ⟨.integer, .int 2⟩ .integer] [4]]
    [[⟨0, 1, .integer⟩, ⟨1, 2, .integer⟩], [⟨0, 3, .integer⟩, ⟨1, 4, .integer⟩]] [5, 6])
    [{ column := some ⟨1, 6, .integer⟩, constant := ⟨.integer, .int 2⟩ }] none

theorem channels_valid : channels.Valid := by
  have small : ∀ n : Int, InInt128 n → ValidConstant ⟨.integer, .int n⟩ :=
    fun n held x same => Value.int.inj same ▸ held
  have branch : ∀ (id column : ColumnId) (n : Int), InInt128 n →
      (LogicalNode.compute (.scan 0 [0] [id]) [.constant ⟨.integer, .int n⟩ .integer]
        [column]).Valid := by
    intro id column n held
    refine .node (fun constant type member => ?_) fun input member => ?_
    · cases List.mem_singleton.mp member
      exact small n held
    · cases List.mem_singleton.mp member
      exact .node trivial fun _ none_ => nomatch none_
  refine .node (fun p member => ?_) fun input member => ?_
  · cases List.mem_singleton.mp member
    exact ⟨nofun, nofun, small 2 (by decide), nofun⟩
  · cases List.mem_singleton.mp member
    refine .node trivial fun input member => ?_
    rcases List.mem_pair.mp member with rfl | rfl
    · exact branch 1 2 1 (by decide)
    · exact branch 3 4 2 (by decide)

theorem filterIntoUnionBranches_rows_channels :
    (filterIntoUnionBranches channels).eval (Context.ordered fun _ => [[.int 7]]) (fun _ => .null) =
      pure [Row.assign (fun _ => .null) [5, 6] [.int 7, .int 2]] := by
  have answer : channels.eval (Context.ordered fun _ => [[.int 7]]) (fun _ => .null) =
      pure [Row.assign (fun _ => .null) [5, 6] [.int 7, .int 2]] := by
    simp only [channels, LogicalNode.eval, evalInputs, Context.ordered, Expr.eval, List.map,
      List.mapM_cons, List.mapM_nil, Option.pure_def, Option.bind_eq_bind, Option.bind_some,
      Option.map_some, ofOption_some, pure_bind]
    rfl
  rw [← answer]
  refine (filterIntoUnionBranches_rows channels_valid).2 _ _ ?_
  rw [answer]
  exact pure_fails

end Antb1.Plan
