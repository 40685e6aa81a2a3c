import Antb1.Plan.SetOperationBuildProofs

/-! The plan of a compound: what each pass of `SetOperationBinder` gives the next, and
that the plan answers the compound's bag. -/
namespace Antb1.Plan.SetOperationBinder

open Sql Outcomes
open List hiding map_map

variable {operands : List (SetTree Leaf)} {outs : List OutputColumn} {tree : SetTree Leaf}
  {op : SetOp} {all : Bool} {last : ColumnId} {out : OutputColumn} {type : LogicalType} {i : Nat}

theorem bind_eq_ok {Failure α β : Type} {x : Except Failure α} {f : α → Except Failure β} {b : β} :
    (x >>= f) = .ok b ↔ ∃ a, x = .ok a ∧ f a = .ok b := by
  cases x with
  | error failure => simp [Bind.bind, Except.bind]
  | ok a => simp [Bind.bind, Except.bind]

section Bind

variable {ctx : Context} {env : Row}

/-- A bound leaf: its width, ids minted before `last`, and rows of its types. -/
structure LeafBound (ctx : Context) (env : Row) (width last : Nat) (leaf : Leaf) : Prop where
  width : leaf.plan.output.length = width
  ids : ∀ out ∈ leaf.plan.output, out.id ≤ last
  typed : ∀ rows, (leaf.plan.root.eval ctx env).Yields rows → ∀ row ∈ rows,
    ∀ out ∈ leaf.plan.output, (row out.id).InType out.type

theorem LeafBound.mono {width last last' : Nat} (le : last ≤ last') {leaf : Leaf}
    (bound : LeafBound ctx env width last leaf) : LeafBound ctx env width last' leaf :=
  ⟨bound.width, fun out member => (bound.ids out member).trans le, bound.typed⟩

theorem wide_imp {Query : Type} {P Q : Query → Prop} (imp : ∀ query, P query → Q query)
    {tree : SetTree Query} (wide : tree.Wide P) : tree.Wide Q := by
  induction wide with
  | leaf holds => exact .leaf (imp _ holds)
  | run two _ ih => exact .run two ih

variable {Query : Type} {bindBlock : Query → ColumnId → Except BindFailure (LogicalPlan × ColumnId)}

/-- The written tree with its queries' plans as leaves: the same operators, quantifiers and
nesting. -/
inductive BoundTree (bindBlock : Query → ColumnId → Except BindFailure (LogicalPlan × ColumnId)) :
    SetTree Query → SetTree Leaf → Prop
  | leaf {query leaf last last'} : bindBlock query last = .ok (leaf.plan, last') →
      BoundTree bindBlock (.leaf query) (.leaf leaf)
  | run {op all operands bounds} : List.Forall₂ (BoundTree bindBlock) operands bounds →
      BoundTree bindBlock (.run op all operands) (.run op all bounds)

mutual

theorem bindLeaves_bound (blocks : BindsBlocks ctx env bindBlock) : ∀ {tree : SetTree Query}, (tree.Wide fun _ => True) →
    ∀ {counters counters' : Counters} {bound : SetTree Leaf} {width : Nat},
    bindLeaves bindBlock tree counters = .ok ((bound, width), counters') →
    bound.Wide (LeafBound ctx env width counters'.last) ∧ counters.last ≤ counters'.last ∧
      BoundTree bindBlock tree bound
  | .leaf query, _, counters, counters', bound, width, done => by
    rw [bindLeaves, bind_eq_ok] at done
    obtain ⟨⟨plan, last⟩, block, done⟩ := done
    simp only [Except.ok.injEq, Prod.mk.injEq] at done
    obtain ⟨⟨rfl, rfl⟩, rfl⟩ := done
    exact ⟨.leaf ⟨rfl, blocks.ids block, blocks.typed block⟩, blocks.minted block, .leaf block⟩
  | .run op all operands, .run two each, counters, counters', bound, width, done => by
    rw [bindLeaves, bind_eq_ok] at done
    obtain ⟨⟨bounds, last⟩, block, done⟩ := done
    obtain ⟨wides, widths, length, le, trees⟩ := bindOperands_bound blocks each block
    simp only at done
    split at done
    · cases done
    · rename_i checked
      simp only [Except.ok.injEq, Prod.mk.injEq] at done
      obtain ⟨⟨rfl, rfl⟩, rfl⟩ := done
      refine ⟨.run (by simpa [length] using two) ?_, le, .run trees⟩
      intro operand member
      obtain ⟨bound, among, rfl⟩ := mem_map.mp member
      have width : bound.2 = (bounds.map Prod.snd).headD 0 := by
        by_cases union : op = .union
        · by_contra different
          exact checked ⟨union, bound.2, mem_map_of_mem among, different⟩
        · exact widths union bound among
      exact width ▸ wides bound among

theorem bindOperands_bound (blocks : BindsBlocks ctx env bindBlock) : ∀ {operands : List (SetTree Query)},
    (∀ operand ∈ operands, operand.Wide fun _ => True) → ∀ {op : SetOp} {first : Option Nat}
    {counters counters' : Counters} {bounds : List (SetTree Leaf × Nat)},
    bindOperands bindBlock op first operands counters = .ok (bounds, counters') →
    (∀ bound ∈ bounds, bound.1.Wide (LeafBound ctx env bound.2 counters'.last)) ∧
      (op ≠ .union → ∀ bound ∈ bounds, bound.2 = first.getD ((bounds.map Prod.snd).headD 0)) ∧
      bounds.length = operands.length ∧ counters.last ≤ counters'.last ∧
      List.Forall₂ (BoundTree bindBlock) operands (bounds.map Prod.fst)
  | [], _, op, first, counters, counters', bounds, done => by
    simp only [bindOperands, Except.ok.injEq, Prod.mk.injEq] at done
    obtain ⟨rfl, rfl⟩ := done
    exact ⟨by simp, by simp, rfl, le_rfl, .nil⟩
  | operand :: rest, each, op, first, counters, counters', bounds, done => by
    rw [bindOperands, bind_eq_ok] at done
    obtain ⟨⟨bound, middle⟩, block, done⟩ := done
    simp only at done
    split at done
    · cases done
    rename_i checked
    rw [bind_eq_ok] at done
    obtain ⟨⟨others, last⟩, blocks', done⟩ := done
    simp only [Except.ok.injEq, Prod.mk.injEq] at done
    obtain ⟨rfl, rfl⟩ := done
    rw [forall_mem_cons] at each
    obtain ⟨wide, le, tree⟩ := bindLeaves_bound blocks each.1 block
    obtain ⟨wides, widths, length, le', trees⟩ := bindOperands_bound blocks each.2 blocks'
    refine ⟨?_, ?_, by simp [length], le.trans le', .cons tree trees⟩
    · exact forall_mem_cons.mpr ⟨wide_imp (fun _ => LeafBound.mono le') wide, wides⟩
    · intro binary
      refine forall_mem_cons.mpr ⟨?_, widths binary⟩
      by_contra different
      exact checked ⟨binary, different⟩

end

end Bind

/-- A column of one type, or of NULLs, becomes one of another type exactly. -/
def WidensTo (source target : Option LogicalType) : Prop :=
  ∀ type, source = some type → ∃ wide, target = some wide ∧ Widens type wide

theorem WidensTo.trans {a b c : Option LogicalType} (first : WidensTo a b)
    (second : WidensTo b c) : WidensTo a c := by
  intro type same
  obtain ⟨middle, same, widens⟩ := first type same
  obtain ⟨wide, same, widens'⟩ := second middle same
  exact ⟨wide, same, widens.trans widens'⟩

theorem checkParts_widens {target : LogicalType} {parts : List (Nat × Column)}
    (checked : checkParts op all i target parts = .ok ()) :
    ∀ part ∈ parts, WidensTo part.2.type (some target) := by
  induction parts with
  | nil => simp
  | cons first rest ih =>
    obtain ⟨leaf, part⟩ := first
    rw [checkParts] at checked
    rw [forall_mem_cons]
    cases typed : part.type with
    | none =>
      simp only [typed] at checked
      refine ⟨fun type same => ?_, ih checked⟩
      simp at same
    | some source =>
      simp only [typed] at checked
      split at checked
      · rename_i exact_
        refine ⟨fun type same => ?_, ih checked⟩
        obtain rfl : source = type := by simpa [typed] using same
        exact ⟨target, rfl, isExactWidening_iff.mp exact_⟩
      · cases checked

/-- A run without a type has no part with one. -/
def RunFold.Untyped (run : RunFold) : Prop :=
  run.column.type = none → ∀ part ∈ run.parts, part.2.type = none

theorem RunFold.add_parts {i leaf : Nat} {run run' : RunFold} {next : Column}
    (added : run.add op all i leaf next = .ok run') :
    run'.parts = run.parts ++ [(leaf, next)] ∧
      (run'.column.type = none → run.column.type = none ∧ next.type = none) := by
  unfold RunFold.add at added
  split at added
  · rename_i untyped
    simp only [Except.ok.injEq] at added
    subst added
    exact ⟨rfl, fun none => ⟨none, untyped⟩⟩
  · rename_i typed _
    simp only [Except.ok.injEq] at added
    subst added
    refine ⟨rfl, fun none => ?_⟩
    rw [typed] at none
    cases none
  · split at added
    · cases added
    · split at added
      · cases added
      · split at added
        · cases added
        · simp only [Except.ok.injEq] at added
          subst added
          exact ⟨rfl, fun none => by cases none⟩

theorem RunFold.Untyped.add {i leaf : Nat} {run run' : RunFold} {next : Column}
    (untyped : run.Untyped) (added : run.add op all i leaf next = .ok run') :
    run'.Untyped := by
  obtain ⟨parts, types⟩ := RunFold.add_parts added
  intro none part member
  obtain ⟨before, last⟩ := types none
  rw [parts, mem_append, mem_singleton] at member
  rcases member with inside | rfl
  · exact untyped before part inside
  · exact last

theorem foldOperands_parts {run run' : RunFold} (untyped : run.Untyped)
    (folded : foldOperands op all i run operands = .ok run') :
    run'.Untyped ∧ (∀ part ∈ run.parts, part ∈ run'.parts) ∧
      ∀ operand ∈ operands, ∃ column leaf, fold i operand = .ok column ∧
        (leaf, column) ∈ run'.parts := by
  induction operands generalizing run with
  | nil =>
    simp only [foldOperands, Except.ok.injEq] at folded
    subst folded
    exact ⟨untyped, fun _ member => member, by simp⟩
  | cons first rest ih =>
    rw [foldOperands, bind_eq_ok] at folded
    obtain ⟨next, here, folded⟩ := folded
    rw [bind_eq_ok] at folded
    obtain ⟨middle, added, folded⟩ := folded
    obtain ⟨untyped', kept, found⟩ := ih (untyped.add added) folded
    have parts := (RunFold.add_parts added).1
    refine ⟨untyped', fun part member => kept part (by simp [parts, member]),
      forall_mem_cons.mpr ⟨?_, found⟩⟩
    exact ⟨next, leafIndex first, here, kept _ (by simp [parts])⟩

/-- Every operand of a run that folds widens exactly to the run's type. -/
theorem fold_run {column : Column} (folded : fold i (.run op all operands) = .ok column) :
    ∀ operand ∈ operands, ∃ part, fold i operand = .ok part ∧ WidensTo part.type column.type := by
  rw [fold, bind_eq_ok] at folded
  obtain ⟨run, runs, folded⟩ := folded
  have start : ({} : RunFold).Untyped := fun _ _ member => by cases member
  obtain ⟨untyped, _, found⟩ := foldOperands_parts start runs
  intro operand member
  obtain ⟨part, leaf, here, inside⟩ := found operand member
  refine ⟨part, here, ?_⟩
  cases typed : run.column.type with
  | none =>
    intro type same
    rw [untyped typed _ inside] at same
    cases same
  | some target =>
    simp only [typed, bind_eq_ok] at folded
    obtain ⟨_, checked, done⟩ := folded
    simp only [Except.ok.injEq] at done
    rw [← done, typed]
    exact checkParts_widens checked _ inside

/-- A tree whose first `width` columns fold to types that widen to `types`. -/
def FoldsTo (types : Nat → Option LogicalType) (width : Nat) (tree : SetTree Leaf) : Prop :=
  ∀ i < width, ∃ column, fold i tree = .ok column ∧ WidensTo column.type (types i)

theorem FoldsTo.foldedType {types : Nat → Option LogicalType} {width i : Nat}
    (folds : FoldsTo types width tree) (bound : i < width) :
    WidensTo (foldedType tree i) (types i) := by
  obtain ⟨column, folded, widens⟩ := folds i bound
  simpa [SetOperationBinder.foldedType, folded] using widens

/-- The operands of a run fold to the run's types, and so to any it widens to. -/
theorem FoldsTo.operand {types : Nat → Option LogicalType} {width : Nat}
    (folds : FoldsTo types width (.run op all operands)) {operand : SetTree Leaf}
    (member : operand ∈ operands) :
    FoldsTo (SetOperationBinder.foldedType (.run op all operands)) width operand ∧
      FoldsTo types width operand := by
  constructor
  · intro i bound
    obtain ⟨column, folded, _⟩ := folds i bound
    obtain ⟨part, here, widens⟩ := fold_run folded operand member
    exact ⟨part, here, by simpa [SetOperationBinder.foldedType, folded] using widens⟩
  · intro i bound
    obtain ⟨column, folded, widens⟩ := folds i bound
    obtain ⟨part, here, widens'⟩ := fold_run folded operand member
    exact ⟨part, here, widens'.trans widens⟩

theorem length_widenRow (source target : Nat → Option LogicalType) (row : List Value) :
    (widenRow source target row).length = row.length := by
  simp [widenRow]

theorem widenCell_injective (source target : Option LogicalType) :
    Function.Injective (widenCell source target) := by
  intro a b same
  match source, target with
  | some x, some y => exact widenValue_injective x y same
  | none, _ => exact same
  | some _, none => exact same

theorem widenRow_injective (source target : Nat → Option LogicalType) :
    Function.Injective (widenRow source target) := by
  intro a b same
  have length : a.length = b.length := by
    simpa [length_widenRow] using congrArg List.length same
  refine ext_getElem length fun i bound bound' => ?_
  have cell := congrArg (·[i]?) same
  simp only [widenRow, getElem?_mapIdx, getElem?_eq_getElem bound,
    getElem?_eq_getElem bound', Option.map_some, Option.some.injEq] at cell
  exact widenCell_injective _ _ cell

/-- Rows of a tree: its width, and NULL where it has no type. -/
def RowOf (types : Nat → Option LogicalType) (width : Nat) (row : List Value) : Prop :=
  row.length = width ∧ ∀ i value, types i = none → row[i]? = some value → value = .null

theorem widenRow_widenRow {a b c : Nat → Option LogicalType} {width : Nat} {row : List Value}
    (rowOf : RowOf a width row) (first : ∀ i < width, WidensTo (a i) (b i))
    (second : ∀ i < width, WidensTo (b i) (c i)) :
    widenRow b c (widenRow a b row) = widenRow a c row := by
  obtain ⟨length, nulls⟩ := rowOf
  simp only [widenRow, mapIdx_mapIdx]
  refine ext_getElem (by simp) fun i bound _ => ?_
  simp only [length_mapIdx] at bound
  simp only [getElem_mapIdx, Function.comp_apply]
  cases source : a i with
  | none =>
    have null := nulls i row[i] source (getElem?_eq_getElem bound)
    rw [null]
    cases b i <;> cases c i <;> rfl
  | some type =>
    obtain ⟨middle, same, widens⟩ := first i (length ▸ bound) type source
    obtain ⟨wide, same', widens'⟩ := second i (length ▸ bound) middle same
    rw [same, same']
    exact widenValue_widenValue widens widens' _

section Rows

variable {ctx : Context} {env : Row}

theorem operandAnswers_eq (types : Nat → Option LogicalType) (operands : List (SetTree Leaf)) :
    operandAnswers ctx env types operands = Outcomes.mapM (fun operand =>
      map (Multiset.map (widenRow (foldedType operand) types)) (compoundAnswers ctx env operand))
        operands := by
  induction operands with
  | nil => rfl
  | cons operand rest ih => rw [operandAnswers, Outcomes.mapM_cons, ih]

theorem foldedType_leaf (leaf : Leaf) (i : Nat) : foldedType (.leaf leaf) i =
    if (leaf.plan.output.getD i {}).nullItem then none
    else some (leaf.plan.output.getD i {}).type := by
  unfold foldedType
  rw [fold]
  split
  · rename_i folded
    simp only [Except.ok.injEq] at folded
    rw [← folded]
    split <;> rfl
  · rename_i folded
    cases folded

/-- The rows of a compound have its width, and NULL where it has no type. -/
theorem compound_rows {width last : Nat} (wide : tree.Wide (LeafBound ctx env width last))
    {types : Nat → Option LogicalType} (folds : FoldsTo types width tree) {bag : RowBag}
    (yields : (compoundAnswers ctx env tree).Yields bag) :
    ∀ row ∈ bag, RowOf (foldedType tree) width row := by
  induction wide generalizing types bag with
  | @leaf leaf bound =>
    rw [compoundAnswers, planAnswers, map_yields] at yields
    obtain ⟨rows, _, rfl⟩ := yields
    intro row member
    rw [outputBag, Multiset.mem_coe, mem_map] at member
    obtain ⟨source, _, rfl⟩ := member
    refine ⟨by simpa using bound.width, fun i value untyped found => ?_⟩
    simp only [getElem?_map, Option.map_eq_some_iff] at found
    obtain ⟨out, here, rfl⟩ := found
    rw [foldedType_leaf, getD_eq_getElem?_getD, here, Option.getD_some] at untyped
    split at untyped
    · rename_i null
      rw [if_pos null]
    · cases untyped
  | @run op all operands _ _ ih =>
    rw [compoundAnswers, operandAnswers_eq, map_yields] at yields
    obtain ⟨bags, yields, rfl⟩ := yields
    intro row member
    obtain ⟨bag, among, inside⟩ := mem_foldRun member
    obtain ⟨operand, isOperand, answers⟩ := mapM_yields_mem yields among
    rw [map_yields] at answers
    obtain ⟨source, found, rfl⟩ := answers
    obtain ⟨before, isRow, rfl⟩ := Multiset.mem_map.mp inside
    obtain ⟨length, nulls⟩ := ih operand isOperand (folds.operand isOperand).2 found before isRow
    refine ⟨by rw [length_widenRow, length], fun i value untyped found => ?_⟩
    simp only [widenRow, getElem?_mapIdx, Option.map_eq_some_iff] at found
    obtain ⟨cell, here, rfl⟩ := found
    have bound : i < width := length ▸ (List.getElem?_eq_some_iff.mp here).1
    have widens := (folds.operand isOperand).1.foldedType bound
    cases typed : foldedType operand i with
    | none =>
      rw [nulls i cell typed here, untyped]
      rfl
    | some type =>
      obtain ⟨wide, same, _⟩ := widens type typed
      rw [untyped] at same
      cases same

end Rows

section Cast

variable {row env : Row} {types : List LogicalType} {ctx : Context} {width : Nat} {last' : ColumnId}

def castCell (row : Row) (out : OutputColumn) (type : LogicalType) : Value :=
  if out.nullItem then .null else widenValue out.type type (row out.id)

/-- Each column that is no NULL item widens exactly to its type. -/
def ColumnsWiden (outs : List OutputColumn) (types : List LogicalType) : Prop :=
  List.Forall₂ (fun out type => out.nullItem = false → Widens out.type type) outs types

theorem castExpr_widening (cast : out.nullItem = true ∨ out.type ≠ type)
    (widens : out.nullItem = false → Widens out.type type) (member : out ∈ outs) :
    IsWidening outs (castExpr out type) := by
  unfold castExpr widenTo
  cases null : out.nullItem with
  | true => exact .inl ⟨type, by simp⟩
  | false =>
    have different : out.type ≠ type := by simpa [null] using cast
    refine .inr ⟨out, member, type, ?_, isExactWidening_iff.mpr (widens null)⟩
    simp [Expr.type, different]

theorem castExpr_eval (k : Kernels) (widens : out.nullItem = false → Widens out.type type)
    (typed : (row out.id).InType out.type) :
    (castExpr out type).eval k row = some (castCell row out type) := by
  unfold castExpr castCell widenTo
  cases null : out.nullItem with
  | true => simp [Expr.eval]
  | false =>
    by_cases same : out.type = type
    · simp [Expr.type, Expr.eval, same]
    · have cast := castValue_widens k (widens null) typed
      simp [Expr.type, Expr.eval, same, cast]

/-- Casts of a leaf's columns: new ids, exact widenings, and reads of either the new
columns or the leaf's own. -/
structure CastsOf (outs : List OutputColumn) (last last' : ColumnId) (casts : Casts) : Prop where
  minted : Minted last last' casts.ids
  widenings : ∀ expr ∈ casts.exprs, IsWidening outs expr
  paired : casts.exprs = [] → casts.ids = []
  length : casts.reads.length = outs.length
  reads : ∀ read ∈ casts.reads, read.id ∈ casts.ids ∨ ∃ out ∈ outs, read.id = out.id

theorem IsWidening.cons {expr : Expr} (widening : IsWidening outs expr) (out : OutputColumn) :
    IsWidening (out :: outs) expr :=
  widening.imp_right exists_mem_cons_of_exists

theorem CastsOf.cast {casts : Casts} (rest : CastsOf outs (last + 1) last' casts)
    (widening : IsWidening (out :: outs) (castExpr out type)) :
    CastsOf (out :: outs) last last' ⟨castExpr out type :: casts.exprs, (last + 1) :: casts.ids,
      { id := last + 1, type := type } :: casts.reads⟩ where
  minted := (Minted.newIds last 1).append rest.minted
  widenings := forall_mem_cons.mpr ⟨widening, fun expr among => (rest.widenings expr among).cons out⟩
  paired none := by cases none
  length := by simpa using rest.length
  reads := forall_mem_cons.mpr ⟨.inl mem_cons_self, fun read among =>
    (rest.reads read among).imp (mem_cons_of_mem _) exists_mem_cons_of_exists⟩

theorem CastsOf.keep {casts : Casts} (rest : CastsOf outs last last' casts) (out : OutputColumn)
    (type : LogicalType) :
    CastsOf (out :: outs) last last'
      { casts with reads := { id := out.id, type := type } :: casts.reads } where
  minted := rest.minted
  widenings expr member := (rest.widenings expr member).cons out
  paired := rest.paired
  length := by simpa using rest.length
  reads := forall_mem_cons.mpr ⟨.inr ⟨out, mem_cons_self, rfl⟩, fun read among =>
    (rest.reads read among).imp_right exists_mem_cons_of_exists⟩

theorem castColumns_casts (widen : ColumnsWiden outs types) (last : ColumnId) :
    CastsOf outs last (castColumns outs types last).2 (castColumns outs types last).1 := by
  induction widen generalizing last with
  | nil => exact ⟨.nil last, by simp [castColumns], fun _ => rfl, rfl, by simp [castColumns]⟩
  | @cons out type outs types here _ ih =>
    rw [castColumns]
    split
    · rename_i cast
      exact (ih (last + 1)).cast (castExpr_widening cast here (by simp))
    · exact (ih last).keep out type

/-- The casts succeed on rows of the leaf's types, and what is read of them are the
leaf's values, widened. -/
theorem castColumns_values (k : Kernels) (widen : ColumnsWiden outs types)
    (ids : ∀ out ∈ outs, out.id ≤ last) (typed : ∀ out ∈ outs, (row out.id).InType out.type) :
    ∃ values, ((castColumns outs types last).1.exprs.mapM fun (expr : Expr) => expr.eval k row) =
        some values ∧
      branchValues (castColumns outs types last).1.reads
        (row.assign (castColumns outs types last).1.ids values) =
          List.zipWith (castCell row) outs types := by
  induction widen generalizing last with
  | nil => exact ⟨[], rfl, rfl⟩
  | @cons out type outs types here rest ih =>
    obtain ⟨outId, ids'⟩ := forall_mem_cons.mp ids
    obtain ⟨outTyped, typed'⟩ := forall_mem_cons.mp typed
    rw [castColumns]
    split
    · have older : ∀ other ∈ outs, other.id ≤ last + 1 :=
        fun other among => Nat.le_succ_of_le (ids' other among)
      obtain ⟨values, found, read⟩ := ih older typed'
      have casts := castColumns_casts rest (last + 1)
      refine ⟨castCell row out type :: values, ?_, ?_⟩
      · simp [List.mapM_cons, castExpr_eval k here outTyped, found]
      · -- The new column is read first and no other read sees it.
        have others : ∀ column ∈ (castColumns outs types (last + 1)).1.reads,
            column.id ≠ last + 1 := by
          intro column among
          rcases casts.reads column among with inside | ⟨other, inside, same⟩
          · exact ne_of_gt (casts.minted.new _ inside)
          · exact same ▸ ne_of_lt (Nat.lt_succ_of_le (ids' other inside))
        simp only [branchValues, map_cons, Row.assign, if_true, zipWith_cons_cons]
        congr 1
        rw [← read]
        exact map_congr_left fun column among => if_neg (others column among)
    · rename_i kept
      rw [not_or, not_not] at kept
      obtain ⟨values, found, read⟩ := ih ids' typed'
      have minted := (castColumns_casts rest last).minted
      refine ⟨values, found, ?_⟩
      have old : out.id ∉ (castColumns outs types last).1.ids :=
        fun inside => absurd (minted.new _ inside) (not_lt.mpr outId)
      simp only [branchValues, map_cons, zipWith_cons_cons, assign_other row old]
      congr 1
      simp [castCell, kept]

theorem castLeaf_eval (ctx : Context) (env : Row) {plan : LogicalPlan}
    (widen : ColumnsWiden plan.output types) (last : ColumnId) :
    (castLeaf types plan last).1.node.eval ctx env =
      Outcomes.bind (plan.root.eval ctx env) fun rows => ofOption (rows.mapM fun row =>
        ((castColumns plan.output types last).1.exprs.mapM fun (expr : Expr) =>
          expr.eval ctx.kernels row).map (row.assign (castColumns plan.output types last).1.ids)) := by
  have noIds := (castColumns_casts widen last).paired
  simp only [castLeaf]
  split
  · rename_i none
    have noExprs := isEmpty_iff.mp none
    rw [noExprs, noIds noExprs]
    refine (Outcomes.bind_pure _).symm.trans (bind_congr fun rows _ => ?_)
    have unchanged : ∀ rows : List Row, (rows.mapM fun row =>
        (([] : List Expr).mapM fun (expr : Expr) => expr.eval ctx.kernels row).map
          (row.assign [])) = some rows := by
      intro rows
      induction rows with
      | nil => rfl
      | cons row rest ih =>
        rw [List.mapM_cons, ih]
        rfl
    rw [unchanged]
    rfl
  · rfl

theorem normalized_cast (row : Row) {leaf : Leaf}
    (length : leaf.plan.output.length = types.length) :
    normalizedRow (List.zipWith (castCell row) leaf.plan.output types) =
      widenRow (foldedType (.leaf leaf)) (types[·]?) (leaf.plan.output.map fun out =>
        if out.nullItem then .null else (row out.id).normalized) := by
  refine ext_getElem (by simp [normalizedRow, widenRow, length]) fun i bound bound' => ?_
  have inside : i < leaf.plan.output.length := by simpa [widenRow] using bound'
  simp only [normalizedRow, widenRow, getElem_map, getElem_zipWith, getElem_mapIdx,
    foldedType_leaf, getD_eq_getElem?_getD, getElem?_eq_getElem inside,
    getElem?_eq_getElem (length ▸ inside), Option.getD_some, castCell]
  split
  · rfl
  · rw [widenValue_normalized]
    rfl

theorem read_cast {leaf : Leaf} (bound : LeafBound ctx env width last leaf)
    (widen : ColumnsWiden leaf.plan.output types)
    (typed : ∀ out ∈ leaf.plan.output, (row out.id).InType out.type) :
    ∃ result, ((castColumns leaf.plan.output types last).1.exprs.mapM fun (expr : Expr) =>
        expr.eval ctx.kernels row).map
          (row.assign (castColumns leaf.plan.output types last).1.ids) = some result ∧
      normalizedRow (branchValues (castLeaf types leaf.plan last).1.columns result) =
        widenRow (foldedType (.leaf leaf)) (types[·]?) (leaf.plan.output.map fun out =>
          if out.nullItem then .null else (row out.id).normalized) := by
  obtain ⟨values, computed, read⟩ := castColumns_values ctx.kernels widen bound.ids typed
  refine ⟨_, by rw [computed, Option.map_some], ?_⟩
  rw [← normalized_cast row widen.length_eq]
  exact congrArg normalizedRow read

theorem castLeaf_answers {leaf : Leaf} (bound : LeafBound ctx env width last leaf)
    (widen : ColumnsWiden leaf.plan.output types) :
    (castLeaf types leaf.plan last).1.answers ctx env =
      map (Multiset.map (widenRow (foldedType (.leaf leaf)) (types[·]?)))
        (planAnswers ctx env leaf.plan) := by
  rw [Built.answers, castLeaf_eval ctx env widen, planAnswers, map_map, Outcomes.map_bind]
  refine bind_congr fun rows yields => ?_
  obtain ⟨results, computed, read⟩ := mapM_read fun row member =>
    read_cast bound widen (bound.typed rows yields row member)
  rw [computed]
  refine (Outcomes.map_pure _ _).trans ?_
  beta_reduce
  rw [readBag, read, outputBag, Multiset.map_coe, List.map_map]
  rfl

theorem FoldsTo.columns {leaf : Leaf} (folds : FoldsTo (types[·]?) width (.leaf leaf))
    (output : leaf.plan.output.length = width) (length : types.length = width) :
    ColumnsWiden leaf.plan.output types := by
  refine forall₂_iff_get.mpr ⟨output.trans length.symm, fun i bound bound' null => ?_⟩
  have widens := folds.foldedType (output ▸ bound)
  simp only [get_eq_getElem] at null ⊢
  rw [foldedType_leaf, getD_eq_getElem?_getD, getElem?_eq_getElem bound,
    Option.getD_some, null, getElem?_eq_getElem bound'] at widens
  obtain ⟨wide, same, widens⟩ := widens _ rfl
  exact Option.some.inj same ▸ widens

theorem widen_run {width last : Nat} {types : Nat → Option LogicalType}
    (wides : ∀ operand ∈ operands, operand.Wide (LeafBound ctx env width last))
    (folds : FoldsTo types width (.run op all operands)) :
    map (Multiset.map (widenRow (foldedType (.run op all operands)) types))
        (compoundAnswers ctx env (.run op all operands)) =
      map (foldRun op all) (Outcomes.mapM (fun operand =>
        map (Multiset.map (widenRow (foldedType operand) types)) (compoundAnswers ctx env operand))
          operands) := by
  have injective := widenRow_injective (foldedType (.run op all operands)) types
  have here : ∀ i < width, WidensTo (foldedType (.run op all operands) i) (types i) :=
    fun i bound => folds.foldedType bound
  rw [compoundAnswers, operandAnswers_eq, map_map]
  simp only [map_foldRun injective]
  rw [← map_map (foldRun op all) (List.map (Multiset.map _)), map_mapM]
  congr 1
  refine mapM_congr fun operand member => ?_
  rw [map_map]
  refine map_congr fun bag yields => ?_
  rw [Multiset.map_map]
  refine Multiset.map_congr rfl fun row isRow => ?_
  exact widenRow_widenRow
    (compound_rows (wides operand member) (folds.operand member).2 yields row isRow)
    (fun i bound => (folds.operand member).1.foldedType bound) here

end Cast

section CastTree

variable (ctx : Context) (env : Row) (width : Nat) (types : List LogicalType)

def widenedAnswers (trees : List (SetTree Leaf)) : Outcomes (List RowBag) :=
  Outcomes.mapM (fun tree => map (Multiset.map (widenRow (foldedType tree) (types[·]?)))
    (compoundAnswers ctx env tree)) trees

/-- Trees over leaves and the same trees over what is read of the leaves. -/
structure CastTrees (trees : List (SetTree Leaf)) (last last' : ColumnId)
    (casts : List (SetTree Built)) : Prop where
  answers : treeAnswersEach ctx env casts = widenedAnswers ctx env types trees
  widths : ∀ tree ∈ casts, OfWidth width tree
  length : casts.length = trees.length
  reads : ∃ inputs : List (LogicalNode × List ColumnId),
    List.Forall₂ (fun plan input => ReadsLeaf plan input.1 input.2)
      ((trees.flatMap SetTree.leaves).map Leaf.plan) inputs ∧
    leafNodes casts = inputs.map Prod.fst ∧ Minted last last' (inputs.flatMap Prod.snd)

variable {ctx env width types}

theorem CastTrees.nil (last : ColumnId) : CastTrees ctx env width types [] last last [] where
  answers := rfl
  widths := by simp
  length := rfl
  reads := ⟨[], .nil, rfl, .nil last⟩

theorem CastTrees.append {trees trees' : List (SetTree Leaf)} {a b c : ColumnId}
    {casts casts' : List (SetTree Built)} (left : CastTrees ctx env width types trees a b casts)
    (right : CastTrees ctx env width types trees' b c casts') :
    CastTrees ctx env width types (trees ++ trees') a c (casts ++ casts') where
  answers := by
    rw [treeAnswersEach_eq, widenedAnswers, mapM_append, mapM_append, ← treeAnswersEach_eq,
      ← treeAnswersEach_eq, left.answers, right.answers]
    rfl
  widths tree member := by
    rcases mem_append.mp member with inside | inside
    · exact left.widths tree inside
    · exact right.widths tree inside
  length := by simp [left.length, right.length]
  reads := by
    obtain ⟨inputs, reads, nodes, minted⟩ := left.reads
    obtain ⟨inputs', reads', nodes', minted'⟩ := right.reads
    refine ⟨inputs ++ inputs', ?_, ?_, ?_⟩
    · rw [flatMap_append, map_append]
      exact rel_append reads reads'
    · rw [leafNodes_append, nodes, nodes', map_append]
    · rw [flatMap_append]
      exact minted.append minted'

theorem CastTrees.leaf {leaf : Leaf} (bound : LeafBound ctx env width last leaf)
    (widen : ColumnsWiden leaf.plan.output types) :
    CastTrees ctx env width types [.leaf leaf] last (castLeaf types leaf.plan last).2
      [.leaf (castLeaf types leaf.plan last).1] where
  answers := by
    rw [treeAnswersEach_eq, widenedAnswers, mapM_singleton, mapM_singleton, treeAnswers,
      castLeaf_answers bound widen, compoundAnswers]
  widths tree member := by
    rw [mem_singleton.mp member]
    exact .leaf ((castColumns_casts widen last).length.trans bound.width)
  length := rfl
  reads := by
    have casts := castColumns_casts widen last
    refine ⟨[((castLeaf types leaf.plan last).1.node,
      (castColumns leaf.plan.output types last).1.ids)], ?_, ?_, ?_⟩
    · simp only [flatMap_cons, flatMap_nil, SetTree.leaves, append_nil,
        map_cons, map_nil]
      refine .cons ?_ .nil
      simp only [castLeaf]
      split
      · rename_i none
        rw [casts.paired (isEmpty_iff.mp none)]
        exact .root
      · exact .compute casts.widenings
    · simp [leafNodes, SetTree.leaves]
    · simpa [castLeaf] using casts.minted

theorem CastTrees.run {last last' bound : ColumnId} {casts : List (SetTree Built)}
    (each : CastTrees ctx env width types operands last last' casts) (two : 2 ≤ operands.length)
    (wides : ∀ operand ∈ operands, operand.Wide (LeafBound ctx env width bound))
    (folds : FoldsTo (types[·]?) width (.run op all operands)) :
    CastTrees ctx env width types [.run op all operands] last last' [.run op all casts] where
  answers := by
    rw [treeAnswersEach_eq, widenedAnswers, mapM_singleton, mapM_singleton, treeAnswers,
      each.answers, widen_run wides folds]
    rfl
  widths tree member := by
    rw [mem_singleton.mp member]
    exact .run (each.length ▸ two) each.widths
  length := rfl
  reads := by
    obtain ⟨inputs, reads, nodes, minted⟩ := each.reads
    refine ⟨inputs, ?_, by rw [leafNodes_run, nodes], minted⟩
    simpa [SetTree.leaves] using reads

mutual

theorem castLeaves_casts (length : types.length = width) {bound : ColumnId} :
    ∀ {tree : SetTree Leaf}, tree.Wide (LeafBound ctx env width bound) →
    FoldsTo (types[·]?) width tree → ∀ {last : ColumnId}, bound ≤ last →
    CastTrees ctx env width types [tree] last (castLeaves types tree last).2
      [(castLeaves types tree last).1]
  | .leaf _, .leaf leaf, folds, _, le =>
    .leaf (leaf.mono le) (folds.columns leaf.width length)
  | .run _ _ _, .run two wides, folds, _, le =>
    (castEach_casts length wides (fun _ member => (folds.operand member).2) le).run two wides folds

theorem castEach_casts (length : types.length = width) {bound : ColumnId} :
    ∀ {trees : List (SetTree Leaf)}, (∀ tree ∈ trees, tree.Wide (LeafBound ctx env width bound)) →
    (∀ tree ∈ trees, FoldsTo (types[·]?) width tree) → ∀ {last : ColumnId}, bound ≤ last →
    CastTrees ctx env width types trees last (castEach types trees last).2
      (castEach types trees last).1
  | [], _, _, last, _ => .nil last
  | tree :: rest, wides, folds, last, le => by
    rw [forall_mem_cons] at wides folds
    have first := castLeaves_casts length wides.1 folds.1 le
    obtain ⟨_, _, _, minted⟩ := first.reads
    exact first.append (castEach_casts length wides.2 folds.2 (le.trans minted.le))

end

end CastTree

theorem refuse_isSome (first : Option Refusal) (next : Refusal) : (refuse first next).isSome := by
  unfold refuse
  split
  · rfl
  · split <;> rfl

theorem firstRefusal_none {results : List (Except Refusal Column)}
    (none_ : firstRefusal results = none) :
    results = (results.filterMap Except.toOption).map Except.ok := by
  have kept : ∀ (results : List (Except Refusal Column)) (first : Option Refusal),
      results.foldl addResult first = none →
      first = none ∧ results = (results.filterMap Except.toOption).map Except.ok := by
    intro results
    induction results with
    | nil => exact fun first same => ⟨same, rfl⟩
    | cons result rest ih =>
      intro first same
      obtain ⟨before, others⟩ := ih _ same
      cases result with
      | error refusal =>
        have some := refuse_isSome first refusal
        rw [show refuse first refusal = none from before] at some
        cases some
      | ok column => exact ⟨before, by simpa [Except.toOption] using others⟩
  exact (kept results none none_).2

theorem foldColumns_ok {width : Nat} {columns : List Column}
    (folded : foldColumns tree width = .ok columns) :
    (List.range width).map (foldRoot tree) = columns.map Except.ok := by
  unfold foldColumns at folded
  simp only at folded
  split at folded
  · cases folded
  · rename_i none_
    simp only [Except.ok.injEq] at folded
    rw [← folded]
    exact firstRefusal_none none_

theorem foldRoot_ok {column : Column} (folded : foldRoot tree i = .ok column) :
    fold i tree = .ok column ∧ ∃ type, column.type = some type := by
  unfold foldRoot at folded
  split at folded
  · cases folded
  · rename_i found
    split at folded
    · cases folded
    · rename_i typed
      simp only [Except.ok.injEq] at folded
      subst folded
      exact ⟨found, Option.ne_none_iff_exists'.mp (by simpa using typed)⟩

theorem foldColumns_types {width : Nat} {columns : List Column}
    (folded : foldColumns tree width = .ok columns) :
    columns.length = width ∧
      ∀ i < width, foldedType tree i =
        (columns.map fun column => column.type.getD .integer)[i]? ∧
          ∃ column, fold i tree = .ok column := by
  have results := foldColumns_ok folded
  have length : columns.length = width := by
    simpa using (congrArg List.length results).symm
  refine ⟨length, fun i bound => ?_⟩
  have here := congrArg (·[i]?) results
  simp only [getElem?_map, getElem?_range bound, Option.map_some,
    getElem?_eq_getElem (length ▸ bound), Option.some.injEq] at here
  obtain ⟨found, type, typed⟩ := foldRoot_ok here
  refine ⟨?_, _, found⟩
  simp [foldedType, found, typed, getElem?_eq_getElem (length ▸ bound)]

theorem WidensTo.of_eq {source target : Option LogicalType} (same : source = target) :
    WidensTo source target := by
  subst same
  exact fun type same => ⟨type, same, .refl type⟩

theorem foldColumns_folds {width : Nat} {columns : List Column}
    (folded : foldColumns tree width = .ok columns) :
    FoldsTo ((columns.map fun column => column.type.getD .integer)[·]?) width tree := by
  intro i bound
  obtain ⟨same, column, found⟩ := (foldColumns_types folded).2 i bound
  refine ⟨column, found, .of_eq ?_⟩
  simpa [foldedType, found] using same

theorem widenRow_self {types target : Nat → Option LogicalType} {width : Nat} {row : List Value}
    (length : row.length = width) (same : ∀ i < width, types i = target i) :
    widenRow types target row = row := by
  refine ext_getElem (length_widenRow ..) fun i _ bound => ?_
  simp only [widenRow, getElem_mapIdx]
  rw [same i (length ▸ bound)]
  cases target i with
  | none => rfl
  | some type => exact widenValue_self type _

theorem outputBag_zip {columns : List BoundColumn} {types : List Column}
    (length : columns.length = types.length) (rows : List Row) :
    outputBag ((columns.zip types).map fun column =>
      { type := column.1.type, id := column.1.id, storedAsFloat := column.2.storedAsFloat }) rows =
      readBag columns rows := by
  have first : (columns.zip types).map Prod.fst = columns := map_fst_zip (by omega)
  have read : ∀ row : Row, branchValues columns row =
      (columns.zip types).map fun column => row column.1.id := by
    intro row
    conv_lhs => rw [← first]
    rw [branchValues, List.map_map]
    rfl
  rw [readBag, outputBag]
  congr 2
  funext row
  rw [read, normalizedRow, List.map_map, List.map_map]
  rfl

section Main

variable {ctx : Context} {env : Row} {Query : Type}
  {bindBlock : Query → ColumnId → Except BindFailure (LogicalPlan × ColumnId)}

theorem build_compound {leaves : SetTree Leaf} {width : Nat}
    (wide : leaves.Wide (LeafBound ctx env width last)) {columns : List Column}
    (folded : foldColumns leaves width = .ok columns) {cast : SetTree Built} {last' : ColumnId}
    (casts : castLeaves (columns.map fun column => column.type.getD .integer) leaves last =
      (cast, last')) :
    (build cast last').1.answers ctx env = compoundAnswers ctx env leaves ∧
      (build cast last').1.columns.length = width ∧
      IsPlanOf (leaves.leaves.map Leaf.plan) last (build cast last').1.node := by
  obtain ⟨length, types⟩ := foldColumns_types folded
  have folds := foldColumns_folds folded
  have trees := castLeaves_casts (by simpa using length) wide folds (le_refl last)
  simp only [casts] at trees
  obtain ⟨inputs, reads, nodes, minted⟩ := trees.reads
  have ofWidth := trees.widths cast (by simp)
  obtain ⟨answers, columns_length, ids, shaped, minted'⟩ :
      Builds ctx env width cast (build cast last').1 last' _ := build_builds ofWidth last'
  refine ⟨?_, columns_length, ⟨inputs, ids, ?_, nodes ▸ shaped, (minted.append minted').nodup,
    (minted.append minted').new⟩⟩
  · have single := trees.answers
    rw [treeAnswersEach_eq, widenedAnswers, mapM_singleton, mapM_singleton] at single
    rw [answers, map_injective singleton_injective single]
    refine map_eq_self fun bag yields => ?_
    conv_rhs => rw [← Multiset.map_id bag]
    refine Multiset.map_congr rfl fun row isRow => ?_
    exact widenRow_self (compound_rows wide folds yields row isRow).1
      fun i bound => (types i bound).1
  · simpa [SetTree.leaves] using reads

/-- For every tree of runs that binds, over blocks bound as `BindBlock` binds them:
the plan reads each leaf once and in written order, widens exactly, has formulas the
check accepts and new ids, and answers the bag of the written tree computed run by run. -/
theorem bind_answers (blocks : BindsBlocks ctx env bindBlock) {tree : SetTree Query}
    (wide : tree.Wide fun _ => True) {last last' : ColumnId} {plan : LogicalPlan}
    (bound : bind bindBlock tree last = .ok (plan, last')) :
    ∃ leaves width counters,
      bindLeaves bindBlock tree ⟨0, last⟩ = .ok ((leaves, width), counters) ∧
      BoundTree bindBlock tree leaves ∧
      IsPlanOf (leaves.leaves.map Leaf.plan) counters.last plan.root ∧
      planAnswers ctx env plan = compoundAnswers ctx env leaves := by
  rw [bind, bind_eq_ok] at bound
  obtain ⟨⟨⟨leaves, width⟩, counters⟩, bindsLeaves, bound⟩ := bound
  rw [bind_eq_ok] at bound
  obtain ⟨columns, folded, bound⟩ := bound
  obtain ⟨boundWide, _, boundTree⟩ := bindLeaves_bound blocks wide bindsLeaves
  obtain ⟨answers, length, isPlan⟩ := build_compound boundWide folded rfl
  simp only [Except.ok.injEq, Prod.mk.injEq] at bound
  obtain ⟨rfl, rfl⟩ := bound
  refine ⟨leaves, width, counters, bindsLeaves, boundTree, isPlan, ?_⟩
  rw [← answers, planAnswers, Built.answers]
  refine map_congr fun rows _ => outputBag_zip ?_ rows
  rw [length, (foldColumns_types folded).1]

def scanBlock (query : TableId × Bool) (last : ColumnId) :
    Except BindFailure (LogicalPlan × ColumnId) :=
  .ok (⟨.scan query.1 [0] [last + 1],
    [{ type := if query.2 then .smallInt else .integer, id := last + 1 }]⟩, last + 1)

def threeRows : Context := .ordered fun _ => [[.int 1], [.int 1], [.null]]

theorem scanBlock_binds : BindsBlocks threeRows (fun _ => .null) scanBlock where
  minted := by
    rintro query last plan last' ⟨⟩
    exact Nat.le_succ last
  ids := by
    rintro query last plan last' ⟨⟩ out member
    rw [mem_singleton.mp member]
  typed := by
    rintro query last plan last' ⟨⟩ rows yields row member out among
    rw [mem_singleton.mp among]
    rw [LogicalNode.eval, pure_yields] at yields
    rw [yields] at member
    obtain ⟨tuple, inTable, rfl⟩ := mem_map.mp member
    simp only [threeRows, Context.ordered, mem_cons, not_mem_nil, or_false] at inTable
    obtain ⟨table, small⟩ := query
    rcases inTable with rfl | rfl | rfl <;> cases small <;>
      simp [Row.assign, Value.InType, rangeOf]

/-- `SELECT a FROM s EXCEPT ALL (SELECT b FROM t UNION ALL SELECT c FROM u)`. -/
def exceptUnionAll : SetTree (TableId × Bool) :=
  .run .except true [.leaf (0, true), .run .union true [.leaf (1, false), .leaf (2, true)]]

theorem bind_answers_exceptUnionAll : ∃ plan last', bind scanBlock exceptUnionAll 0 =
      .ok (plan, last') ∧
    ∃ leaves width counters,
      bindLeaves scanBlock exceptUnionAll ⟨0, 0⟩ = .ok ((leaves, width), counters) ∧
      BoundTree scanBlock exceptUnionAll leaves ∧
      IsPlanOf (leaves.leaves.map Leaf.plan) counters.last plan.root ∧
      planAnswers threeRows (fun _ => .null) plan =
        compoundAnswers threeRows (fun _ => .null) leaves :=
  ⟨_, _, rfl, bind_answers scanBlock_binds
    (.run (by simp) (by
      simp only [mem_cons, not_mem_nil, or_false, forall_eq_or_imp, forall_eq]
      exact ⟨.leaf trivial, .run (by simp) (by simp [SetTree.Wide.leaf])⟩)) rfl⟩

end Main

end Antb1.Plan.SetOperationBinder
