import Antb1.Plan.SetRunProofs
import Antb1.Plan.SetOperationShapeProofs
import Antb1.Plan.SemanticsProofs

/-! The Build pass: the node built for a tree of cast leaves answers the tree's bag,
computed run by run over the answers of its leaves, and reads the leaves once and in order. -/
namespace Antb1.Plan.SetOperationBinder

open Sql Outcomes Bag

variable {inputs : List Built} {operands : List (SetTree Built)} {branches : List (List Row)}

def readBag (columns : List BoundColumn) (rows : List Row) : RowBag :=
  (rows.map fun row => normalizedRow (branchValues columns row) : List (List Value))

theorem readBag_perm (columns : List BoundColumn) {rows taken : List Row} (perm : rows.Perm taken) :
    readBag columns taken = readBag columns rows :=
  Multiset.coe_eq_coe.mpr (perm.symm.map _)

/-- What is read of each input. -/
def readBags (inputs : List Built) (branches : List (List Row)) : List RowBag :=
  inputs.zipWith (fun built rows => readBag built.columns rows) branches

variable (ctx : Context) (env : Row)

def Built.answers (built : Built) : Outcomes RowBag :=
  map (readBag built.columns) (built.node.eval ctx env)

mutual

def treeAnswers : SetTree Built → Outcomes RowBag
  | .leaf built => built.answers ctx env
  | .run op all operands => map (foldRun op all) (treeAnswersEach operands)

def treeAnswersEach : List (SetTree Built) → Outcomes (List RowBag)
  | [] => pure []
  | operand :: rest => Outcomes.bind (treeAnswers operand) fun bag =>
      Outcomes.bind (treeAnswersEach rest) fun bags => pure (bag :: bags)

end

variable {ctx env}

theorem treeAnswersEach_eq (operands : List (SetTree Built)) :
    treeAnswersEach ctx env operands = Outcomes.mapM (treeAnswers ctx env) operands := by
  induction operands with
  | nil => rfl
  | cons operand rest ih => rw [treeAnswersEach, Outcomes.mapM_cons, ih]

theorem mapM_answers (inputs : List Built) :
    Outcomes.mapM (Built.answers ctx env) inputs =
      map (readBags inputs) (evalInputs ctx env (inputs.map Built.node)) := by
  rw [evalInputs_eq, mapM_map]
  exact mapM_map_zip _ (fun built rows => readBag built.columns rows) inputs

section Finish

theorem branchValues_newColumns (last : ColumnId) (first : List BoundColumn) (row : Row) :
    branchValues (newColumns last first) row = (newIds last first.length).map row := by
  have ids : (newColumns last first).map BoundColumn.id = newIds last first.length := by
    rw [newColumns, List.map_map]
    exact List.map_fst_zip (by simp [length_newIds])
  rw [branchValues, ← ids, List.map_map]
  rfl

theorem readBag_newColumns {last : ColumnId} {first : List BoundColumn} (env : Row)
    {values : List (List Value)} (lengths : ∀ row ∈ values, row.length = first.length) :
    readBag (newColumns last first) (values.map (env.assign (newIds last first.length))) =
      (values.map normalizedRow : List (List Value)) := by
  rw [readBag, List.map_map]
  congr 1
  apply List.map_congr_left
  intro row member
  simp only [Function.comp_apply, branchValues_newColumns]
  rw [map_assign env (newIds_nodup ..) (by rw [length_newIds, lengths row member])]

def branchRows (inputs : List Built) (branches : List (List Row)) : List (List (List Value)) :=
  (branches.zip (inputs.map Built.columns)).map fun branch => branch.1.map (branchValues branch.2)

theorem readBags_eq (inputs : List Built) (branches : List (List Row)) :
    readBags inputs branches =
      (branchRows inputs branches).map fun rows => (rows.map normalizedRow : Multiset _) := by
  induction inputs generalizing branches with
  | nil => simp [branchRows, readBags]
  | cons built rest ih =>
    cases branches with
    | nil => rfl
    | cons rows others =>
      have here := ih others
      simp only [branchRows, readBags] at here
      simp only [branchRows, readBags, List.map_cons, List.zip_cons_cons, List.zipWith_cons_cons, here]
      simp [readBag, Function.comp_def]

theorem sum_readBags : (readBags inputs branches).sum =
    ((branchRows inputs branches).flatten.map normalizedRow : Multiset (List Value)) := by
  rw [readBags_eq]
  induction branchRows inputs branches with
  | nil => rfl
  | cons rows rest ih =>
    rw [List.flatten_cons, List.map_append, ← Multiset.coe_add, ← ih, List.map_cons, List.sum_cons]

theorem branch_lengths {width : Nat} (widths : ∀ built ∈ inputs, built.columns.length = width) :
    ∀ rows ∈ branchRows inputs branches, ∀ row ∈ rows, row.length = width := by
  intro rows member row inside
  obtain ⟨branch, paired, rfl⟩ := List.mem_map.mp member
  obtain ⟨built, among, same⟩ := List.mem_map.mp (List.of_mem_zip paired).2
  obtain ⟨source, _, rfl⟩ := List.mem_map.mp inside
  rw [branchValues, List.length_map, ← same, widths built among]

theorem head_length {width : Nat} (some : inputs ≠ [])
    (widths : ∀ built ∈ inputs, built.columns.length = width) :
    ((inputs.map Built.columns).headD []).length = width := by
  cases inputs with
  | nil => exact absurd rfl some
  | cons first rest => exact widths first (by simp)

theorem finish_length
    {make : List LogicalNode → List (List BoundColumn) → List ColumnId → LogicalNode} {width : Nat}
    (some : inputs ≠ []) (widths : ∀ built ∈ inputs, built.columns.length = width)
    (last : ColumnId) :
    (finish make inputs last).1.columns.length = width := by
  simp only [finish, newColumns, List.length_map, List.length_zip, length_newIds, Nat.min_self]
  exact head_length some widths

theorem finishUnionAll_answers {width : Nat} (some : inputs ≠ [])
    (widths : ∀ built ∈ inputs, built.columns.length = width) (last : ColumnId) :
    (finishUnionAll inputs last).1.answers ctx env =
      map (foldRun .union true) (Outcomes.mapM (Built.answers ctx env) inputs) := by
  have width_eq := head_length some widths
  rw [mapM_answers, map_map]
  simp only [Built.answers, finishUnionAll, finish, LogicalNode.eval, map_bind, map_pure]
  refine bind_congr fun branches _ => ?_
  congr 1
  beta_reduce
  rw [foldRun_union_all, sum_readBags, ← readBag_newColumns env]
  · rw [branchRows, ← List.flatMap_def, List.map_flatMap]
    simp only [List.map_map]
    rfl
  · intro row member
    obtain ⟨rows, among, inside⟩ := List.mem_flatten.mp member
    rw [width_eq]
    exact branch_lengths widths rows among row inside

theorem count_branch (inputs : List Built) (branches : List (List Row)) (input : Nat)
    (key : List Value) :
    (((branchRows inputs branches).getD input []).map normalizedRow).count key =
      ((readBags inputs branches).getD input 0).count key := by
  rw [← count_coe, readBags_eq]
  simp only [List.getD_eq_getElem?_getD, List.getElem?_map]
  cases (branchRows inputs branches)[input]? <;> rfl

theorem readBags_perm (inputs : List Built) {branches taken : List (List Row)}
    (perms : List.Forall₂ List.Perm branches taken) :
    readBags inputs taken = readBags inputs branches := by
  induction perms generalizing inputs with
  | nil => rfl
  | cons perm _ ih =>
    cases inputs with
    | nil => rfl
    | cons built rest => exact congrArg₂ List.cons (readBag_perm _ perm) (ih rest)

def regionRows (env : Row) (region : Region) (last : ColumnId) (branches : List (List Row)) :
    List Row :=
  (setOperationRows region.formula (branchRows region.inputs branches)).map
    (env.assign (newIds last ((region.inputs.map Built.columns).headD []).length))

section Region

variable {region : Region} {width : Nat} (some : region.inputs ≠ [])
  (widths : ∀ built ∈ region.inputs, built.columns.length = width)
  (checked : checkSetFormula region.formula region.inputs.length = none)
  {root : SetTreeNode} (tree : setTreeOf region.formula = Option.some root)
  {combine : List RowBag → RowBag}
  (counts : ∀ bags, bags.length = region.inputs.length → ∀ key, (combine bags).count key =
    root.value fun input => (bags.getD input 0).count key)
include some widths checked tree counts

theorem readBag_regionRows (last : ColumnId) (length : branches.length = region.inputs.length) :
    readBag (finishRegion region last).1.columns (regionRows env region last branches) =
      combine (readBags region.inputs branches) := by
  have lengths : (branchRows region.inputs branches).length = region.inputs.length := by
    simp [branchRows, length]
  refine (readBag_newColumns env ?_).trans ?_
  · intro row member
    rw [head_length some widths]
    exact setOperationRows_length (branch_lengths widths) row member
  · ext key
    rw [count_coe, count_setOperationRows (by rw [lengths]; exact checked) tree,
      counts _ (by simp [readBags, length])]
    simp only [copies, count_branch]

theorem finishRegion_answers (last : ColumnId) :
    (finishRegion region last).1.answers ctx env =
      map combine (Outcomes.mapM (Built.answers ctx env) region.inputs) := by
  have rows : ∀ branches : List (List Row), branches.length = region.inputs.length →
      readBag (finishRegion region last).1.columns (regionRows env region last branches) = _ :=
    fun _ => readBag_regionRows some widths checked tree counts last
  rw [mapM_answers, map_map]
  change map _ (Outcomes.bind _ fun branches => Outcomes.bind _ fun taken =>
    choose (ctx.arrange (regionRows env region last taken))) = _
  simp only [Outcomes.map_bind]
  refine bind_congr fun branches yields => ?_
  have length : branches.length = region.inputs.length := by
    rw [evalInputs_eq] at yields
    simpa using mapM_yields_length yields
  -- No order of the output or of the inputs changes the bag.
  calc
    _ = map (fun taken => readBag (finishRegion region last).1.columns
          (regionRows env region last taken))
        (Outcomes.mapM (fun rows => choose (ctx.arrange rows)) branches) :=
      bind_congr fun taken _ => map_arrange fun _ perm => readBag_perm _ perm
    _ = pure (readBag (finishRegion region last).1.columns
          (regionRows env region last branches)) := by
      refine map_arrange_each fun taken perms => ?_
      rw [rows taken (perms.length_eq.symm.trans length), rows branches length,
        readBags_perm _ perms]
    _ = _ := by rw [rows branches length]

end Region

end Finish

section Reads

variable (ctx env)

/-- The node built for a tree: it answers the tree's bag, and reads the tree's leaves in order. -/
structure Builds (width : Nat) (tree : SetTree Built) (built : Built) (last last' : ColumnId) :
    Prop where
  answers : built.answers ctx env = treeAnswers ctx env tree
  length : built.columns.length = width
  shaped : ∃ ids, BuiltOver built.node (leafNodes [tree]) ids ∧ Minted last last' ids

structure BuildsEach (width : Nat) (operands : List (SetTree Built)) (inputs : List Built)
    (last last' : ColumnId) : Prop where
  answers : Outcomes.mapM (Built.answers ctx env) inputs = treeAnswersEach ctx env operands
  widths : ∀ built ∈ inputs, built.columns.length = width
  length : inputs.length = operands.length
  shaped : ∃ ids, AllBuiltOver (inputs.map Built.node) (leafNodes operands) ids ∧
    Minted last last' ids

/-- What the operands of a run add to a region with `first` inputs: terms that leave
one tree per operand, whose values are the counts in the operands' answers. -/
structure Reads (width first : Nat) (operands : List (SetTree Built)) (added : List Built)
    (terms : List SetTerm) (last last' : ColumnId) : Prop
    extends Adds first operands added terms last last' where
  widths : ∀ built ∈ added, built.columns.length = width
  answers : ∃ trees : List SetTreeNode, ∃ combine : List RowBag → List RowBag,
    trees.length = operands.length ∧ (∀ stack, buildTrees terms stack = some (stack ++ trees)) ∧
      treeAnswersEach ctx env operands =
        map combine (Outcomes.mapM (Built.answers ctx env) added) ∧
      ∀ before bags after, before.length = first → bags.length = added.length → ∀ key,
        (combine bags).map (Multiset.count key) = trees.map (SetTreeNode.value fun input =>
          ((before ++ bags ++ after).getD input 0).count key)

variable {ctx env} {width first : Nat} {added : List Built} {terms : List SetTerm}
  {last last' : ColumnId}

theorem Builds.leaf {built : Built} (length : built.columns.length = width) (last : ColumnId) :
    Builds ctx env width (.leaf built) built last last where
  answers := rfl
  length := length
  shaped := ⟨[], by simpa [leafNodes, SetTree.leaves] using .leaf _, .nil last⟩

theorem Builds.cons {operand : SetTree Built} {built : Built} {middle : ColumnId}
    (first : Builds ctx env width operand built last middle)
    (rest : BuildsEach ctx env width operands inputs middle last') :
    BuildsEach ctx env width (operand :: operands) (built :: inputs) last last' where
  answers := by rw [Outcomes.mapM_cons, treeAnswersEach, first.answers, rest.answers]
  widths := by simpa [first.length] using rest.widths
  length := by simpa using rest.length
  shaped := by
    obtain ⟨ids, shaped, minted⟩ := first.shaped
    obtain ⟨ids', shaped', minted'⟩ := rest.shaped
    have leaves : leafNodes (operand :: operands) = leafNodes [operand] ++ leafNodes operands :=
      leafNodes_append [operand] operands
    rw [leaves]
    exact ⟨ids ++ ids', .cons shaped shaped', minted.append minted'⟩

theorem BuildsEach.unionAll (two : 2 ≤ operands.length)
    (each : BuildsEach ctx env width operands inputs last last') :
    Builds ctx env width (.run .union true operands) (finishUnionAll inputs last').1 last
      (finishUnionAll inputs last').2 := by
  have some : inputs ≠ [] := by
    rintro rfl
    have length := each.length
    simp only [List.length_nil] at length
    omega
  constructor
  case answers => rw [finishUnionAll_answers some each.widths, each.answers, treeAnswers]
  case length => exact finish_length some each.widths last'
  case shaped =>
    obtain ⟨ids, shaped, minted⟩ := each.shaped
    rw [leafNodes_run]
    exact ⟨_, .unionAll shaped, minted.finish _ _⟩

theorem Reads.nil (last : ColumnId) : Reads ctx env width first [] [] [] last last where
  toAdds := .nil first last
  widths := by simp
  answers := ⟨[], fun _ => [], rfl, fun stack => by simp [buildTrees], by
    simp [treeAnswersEach], by simp⟩

theorem Reads.append {operands operands' : List (SetTree Built)} {added added' : List Built}
    {terms terms' : List SetTerm} {middle : ColumnId}
    (left : Reads ctx env width first operands added terms last middle)
    (right : Reads ctx env width (first + added.length) operands' added' terms' middle last') :
    Reads ctx env width first (operands ++ operands') (added ++ added') (terms ++ terms') last
      last' where
  toAdds := left.toAdds.append right.toAdds
  widths built member := by
    rcases List.mem_append.mp member with inside | inside
    · exact left.widths built inside
    · exact right.widths built inside
  answers := by
    obtain ⟨trees, combine, lengths, builds, answers, counts⟩ := left.answers
    obtain ⟨trees', combine', lengths', builds', answers', counts'⟩ := right.answers
    refine ⟨trees ++ trees', fun bags => combine (bags.take added.length) ++
      combine' (bags.drop added.length), by simp [lengths, lengths'], ?_, ?_, ?_⟩
    · intro stack
      rw [buildTrees_append, builds, Option.bind_some, builds', List.append_assoc]
    · rw [treeAnswersEach_eq, mapM_append, ← treeAnswersEach_eq, ← treeAnswersEach_eq, answers,
        answers', mapM_append, bind_map, Outcomes.map_bind]
      refine bind_congr fun bags yields => ?_
      have length := mapM_yields_length yields
      rw [map_map, map_map]
      refine map_congr fun bags' _ => ?_
      rw [List.take_left' length, List.drop_left' length]
    · intro before bags after start length key
      have split : bags = bags.take added.length ++ bags.drop added.length :=
        (List.take_append_drop ..).symm
      rw [List.length_append] at length
      have here := counts before (bags.take added.length) (bags.drop added.length ++ after) start
        (by rw [List.length_take]; omega) key
      have there := counts' (before ++ bags.take added.length) (bags.drop added.length) after
        (by rw [List.length_append, List.length_take]; omega) (by rw [List.length_drop]; omega) key
      simp only [List.append_assoc, ← List.append_assoc (bags.take _), List.take_append_drop]
        at here there
      rw [List.map_append, List.map_append, here, there, ← List.append_assoc]

theorem Reads.input {operand : SetTree Built} {built : Built}
    (builds : Builds ctx env width operand built last last') :
    Reads ctx env width first [operand] [built] [⟨.input, first, 0⟩] last last' where
  toAdds := .input builds.shaped first
  widths := by simpa using builds.length
  answers := by
    refine ⟨[.mk .input first []], id, rfl, fun stack => rfl, ?_, ?_⟩
    · simp [treeAnswersEach, Outcomes.mapM_cons, builds.answers, map, Outcomes.bind_assoc]
    · intro before bags after start single key
      obtain ⟨bag, rfl⟩ := List.length_eq_one_iff.mp single
      simp [SetTreeNode.value, ← start]

theorem Reads.operator {op : SetOp} {all : Bool} (term : ¬ (op = .union ∧ all = true))
    (two : 2 ≤ operands.length) (reads : Reads ctx env width first operands added terms last last') :
    Reads ctx env width first [.run op all operands] added
      (terms ++ [⟨termKind op all, 0, operands.length⟩]) last last' where
  toAdds := reads.toAdds.operator two op all
  widths := reads.widths
  answers := by
    obtain ⟨trees, combine, lengths, builds, answers, counts⟩ := reads.answers
    refine ⟨[.mk (termKind op all) 0 trees], fun bags => [foldRun op all (combine bags)], rfl,
      ?_, ?_, ?_⟩
    · intro stack
      rw [buildTrees_append, builds, Option.bind_some, ← lengths]
      simp only [buildTrees, List.map_cons, List.map_nil, SetTerm.action,
        if_neg (termKind_operator op all), Postfix.run_cons, Postfix.step_node, Option.bind_some,
        Postfix.run_nil]
    · rw [treeAnswersEach, treeAnswers, answers, treeAnswersEach]
      simp [map, Outcomes.bind_assoc]
    · intro before bags after start length key
      have each := counts before bags after start length key
      have enough : 2 ≤ (combine bags).length := by
        have := congrArg List.length each
        simp only [List.length_map] at this
        omega
      rw [List.map_singleton, List.map_singleton, count_foldRun key term enough, each,
        value_operator (termKind_operator op all)]

theorem Reads.finish {op : SetOp} {all : Bool} (term : ¬ (op = .union ∧ all = true))
    (two : 2 ≤ operands.length) (reads : Reads ctx env width 0 operands added terms last last') :
    let region := ⟨added, terms ++ [⟨termKind op all, 0, operands.length⟩]⟩
    Builds ctx env width (.run op all operands) (finishRegion region last').1 last
      (finishRegion region last').2 := by
  intro region
  obtain ⟨some, checked⟩ := reads.checked two op all
  obtain ⟨trees, combine, lengths, builds, answers, counts⟩ := (reads.operator term two).answers
  obtain ⟨root, rfl⟩ := List.length_eq_one_iff.mp lengths
  have tree : setTreeOf region.formula = Option.some root := by
    have built := builds []
    simp only [buildTrees] at built
    simp only [setTreeOf, region, built, List.nil_append]
  have single : treeAnswers ctx env (.run op all operands) =
      map (fun bags => (combine bags).headD 0)
        (Outcomes.mapM (Built.answers ctx env) added) := by
    rw [← map_map (fun bags => List.headD bags 0) combine, ← answers, treeAnswersEach,
      treeAnswersEach]
    simp [map, Outcomes.bind_assoc, Outcomes.bind_pure]
  refine ⟨?_, finish_length some reads.widths last', ?_⟩
  case refine_2 =>
    obtain ⟨ids, shaped, minted⟩ := reads.shaped
    rw [leafNodes_run]
    exact ⟨_, .setOperation (by simpa using checked) shaped, minted.finish _ _⟩
  rw [single]
  refine finishRegion_answers some reads.widths checked tree (fun bags length key => ?_) last'
  have counted := counts [] bags [] rfl length key
  cases result : combine bags with
  | nil => simp [result] at counted
  | cons bag rest =>
    simp only [result, List.map_cons, List.map_nil, List.cons.injEq, List.nil_append,
      List.append_nil] at counted
    exact counted.1

end Reads

section Build

variable {width : Nat}

abbrev OfWidth (width : Nat) (tree : SetTree Built) : Prop :=
  tree.Wide fun built => built.columns.length = width

mutual

theorem build_builds : ∀ {tree : SetTree Built}, OfWidth width tree → ∀ last : ColumnId,
    Builds ctx env width tree (build tree last).1 last (build tree last).2
  | .leaf _, .leaf length, last => .leaf length last
  | .run op all operands, .run two each, last => by
    rw [build]
    split
    · rename_i unionAll
      obtain ⟨rfl, rfl⟩ := unionAll
      exact (buildEach_builds each last).unionAll two
    · rename_i term
      obtain ⟨added, terms, region, reads⟩ := regionOperands_reads each {} last
      simp only [region, Region.operator, List.nil_append]
      exact reads.finish term two

theorem buildEach_builds : ∀ {operands : List (SetTree Built)},
    (∀ operand ∈ operands, OfWidth width operand) → ∀ last : ColumnId,
    BuildsEach ctx env width operands (buildEach operands last).1 last (buildEach operands last).2
  | [], _, last => ⟨rfl, by simp [buildEach], rfl, [], .nil, .nil last⟩
  | operand :: rest, each, last => by
    rw [List.forall_mem_cons] at each
    rw [buildEach]
    exact (build_builds each.1 last).cons (buildEach_builds each.2 _)

theorem regionOperands_reads : ∀ {operands : List (SetTree Built)},
    (∀ operand ∈ operands, OfWidth width operand) → ∀ (region : Region) (last : ColumnId),
    ∃ added terms, (regionOperands operands region last).1 =
        ⟨region.inputs ++ added, region.formula ++ terms⟩ ∧
      Reads ctx env width region.inputs.length operands added terms last
        (regionOperands operands region last).2
  | [], _, region, last => ⟨[], [], by simp [regionOperands], .nil last⟩
  | operand :: rest, each, region, last => by
    rw [List.forall_mem_cons] at each
    obtain ⟨added, terms, here, reads⟩ := regionOperand_reads each.1 region last
    obtain ⟨added', terms', there, reads'⟩ := regionOperands_reads each.2
      (regionOperand operand region last).1 (regionOperand operand region last).2
    have lengths : (regionOperand operand region last).1.inputs.length =
        region.inputs.length + added.length := by rw [here, List.length_append]
    rw [lengths] at reads'
    refine ⟨added ++ added', terms ++ terms', ?_, reads.append reads'⟩
    rw [regionOperands, there, here]
    simp only [List.append_assoc]

theorem regionOperand_reads : ∀ {operand : SetTree Built}, OfWidth width operand →
    ∀ (region : Region) (last : ColumnId),
    ∃ added terms, (regionOperand operand region last).1 =
        ⟨region.inputs ++ added, region.formula ++ terms⟩ ∧
      Reads ctx env width region.inputs.length [operand] added terms last
        (regionOperand operand region last).2
  | .leaf built, .leaf length, region, last =>
    ⟨[built], _, by rw [regionOperand, Region.input], .input (.leaf length last)⟩
  | .run op all operands, .run two each, region, last => by
    rw [regionOperand]
    split
    · rename_i unionAll
      obtain ⟨rfl, rfl⟩ := unionAll
      exact ⟨[_], _, rfl, .input ((buildEach_builds each last).unionAll two)⟩
    · rename_i term
      obtain ⟨added, terms, inner, reads⟩ := regionOperands_reads each region last
      refine ⟨added, _, ?_, reads.operator term two⟩
      simp only [inner, Region.operator, List.append_assoc]

end

end Build

end Antb1.Plan.SetOperationBinder
