import Mathlib.Data.List.Induction
import Antb1.Sql.SetOperationTree

/-! The tree of a compound denotes the bag of every reading of the compound, and
its leaves are the branches in written order. The induction follows the grammar:
a term grows the pending INTERSECT run, an outer operator closes it. -/
namespace Antb1.Sql

open List

variable {Part Query Row : Type} [DecidableEq Row] (op : SetOp) (all : Bool)
  {first : SetBranch (SelectStatement Part)} {left right : SetTree Query}
  {query : SelectStatement Part} {rest : List (SetBranch (SelectStatement Part))}

instance (all : Bool) :
    Std.Associative (SetOp.bag .union all : Multiset Row → Multiset Row → Multiset Row) where
  assoc a b c := by
    cases all with
    | true => exact Multiset.add_assoc a b c
    | false => exact Bag.unionDistinct_assoc a b c

/-- A run has operands, so that a left run can take one more. -/
def SetTree.Proper (tree : SetTree Query) : Prop := ∀ op all, tree ≠ .run op all []

/-- The operands `combine` takes from one side. -/
def SetTree.operandsFor (op : SetOp) (all : Bool) (tree : SetTree Query) : List (SetTree Query) :=
  (tree.runOf op all).getD [tree]

theorem operandsFor_cases (tree : SetTree Query) :
    tree.operandsFor op all = [tree] ∨ tree = .run op all (tree.operandsFor op all) := by
  cases tree with
  | leaf query => exact .inl rfl
  | run op' all' operands =>
    by_cases same : op' = op ∧ all' = all
    · obtain ⟨rfl, rfl⟩ := same
      exact .inr (by simp [SetTree.operandsFor, SetTree.runOf])
    · exact .inl (by simp [SetTree.operandsFor, SetTree.runOf, same])

theorem operandsFor_leaves (tree : SetTree Query) :
    (tree.operandsFor op all).flatMap SetTree.leaves = tree.leaves := by
  obtain single | run := operandsFor_cases op all tree
  · simp [single]
  · conv_rhs => rw [run, SetTree.leaves]

theorem operandsFor_ne_nil {tree : SetTree Query} (proper : tree.Proper) (op : SetOp)
    (all : Bool) : tree.operandsFor op all ≠ [] := by
  intro empty
  obtain single | run := operandsFor_cases op all tree
  · simp [single] at empty
  · exact proper op all (empty ▸ run)

theorem operandsFor_bag (rows : Query → Multiset Row) (op : SetOp) (all : Bool)
    (tree : SetTree Query) :
    foldRun op all ((tree.operandsFor op all).map (SetTree.bag rows)) = tree.bag rows := by
  obtain single | run := operandsFor_cases op all tree
  · simp [single, foldRun]
  · conv_rhs => rw [run, SetTree.bag]

theorem foldRun_append {first : List (Multiset Row)} (present : first ≠ [])
    (rest : List (Multiset Row)) :
    foldRun op all (first ++ rest) = rest.foldl (op.bag all) (foldRun op all first) := by
  cases first with
  | nil => exact absurd rfl present
  | cons bag more => simp [foldRun]

theorem foldl_union (bag : Multiset Row) {run : List (Multiset Row)} (present : run ≠ []) :
    run.foldl (SetOp.bag .union all) bag = SetOp.bag .union all bag (foldRun .union all run) := by
  cases run with
  | nil => exact absurd rfl present
  | cons head rest => simp only [foldl_cons, foldRun, foldl_assoc]

theorem combine_operands (left right : SetTree Query) (op : SetOp) (all : Bool) :
    combine left right op all = .run op all (left.operandsFor op all ++
      if op = .union then right.operandsFor op all else [right]) := rfl

theorem combine_proper (proper : left.Proper) (right : SetTree Query) (op : SetOp) (all : Bool) :
    (combine left right op all).Proper := by
  intro op' all' empty
  rw [combine_operands] at empty
  injection empty with _ _ none
  exact operandsFor_ne_nil proper op all (append_eq_nil_iff.mp none).1

theorem combine_leaves (left right : SetTree Query) (op : SetOp) (all : Bool) :
    (combine left right op all).leaves = left.leaves ++ right.leaves := by
  rw [combine_operands, SetTree.leaves, flatMap_append, operandsFor_leaves]
  split
  · rw [operandsFor_leaves]
  · simp

theorem combine_bag (rows : Query → Multiset Row) (left_proper : left.Proper)
    (right_proper : right.Proper) (op : SetOp) (all : Bool) :
    (combine left right op all).bag rows = op.bag all (left.bag rows) (right.bag rows) := by
  have present : (left.operandsFor op all).map (SetTree.bag rows) ≠ [] := by
    simpa using operandsFor_ne_nil left_proper op all
  rw [combine_operands, SetTree.bag, map_append, foldRun_append op all present,
    operandsFor_bag]
  split
  · rename_i union
    subst union
    rw [foldl_union, operandsFor_bag]
    simpa using operandsFor_ne_nil right_proper .union all
  · simp

/-- A tree that denotes a reading and has these leaves. -/
structure Agrees (rows : Query → Multiset Row) (tree : SetTree Query) (expr : SetExpr Query)
    (written : List Query) : Prop where
  proper : tree.Proper
  bag : tree.bag rows = expr.bag rows
  leaves : tree.leaves = written

theorem Agrees.combine {rows : Query → Multiset Row} {leftExpr rightExpr : SetExpr Query}
    {leftWritten rightWritten : List Query} (hl : Agrees rows left leftExpr leftWritten)
    (hr : Agrees rows right rightExpr rightWritten) (op : SetOp) (all : Bool) :
    Agrees rows (combine left right op all) (.node op all leftExpr rightExpr)
      (leftWritten ++ rightWritten) where
  proper := combine_proper hl.proper right op all
  bag := by rw [combine_bag rows hl.proper hr.proper, hl.bag, hr.bag, SetExpr.bag]
  leaves := by rw [combine_leaves, hl.leaves, hr.leaves]

def operandTree (query : SelectStatement Part) : SetTree (SelectStatement Part) :=
  if query.isPlainCompound then setOperationTree query else .leaf query

def operandWritten (query : SelectStatement Part) : List (SelectStatement Part) :=
  if query.isPlainCompound then query.written else [query]

theorem operand_eq (branch : SetBranch (SelectStatement Part)) :
    operand branch = ⟨operandTree branch.query, branch.op, branch.all⟩ := by
  obtain ⟨query, op, all⟩ := branch
  rw [operand, operandTree]

theorem operands_eq (branches : List (SetBranch (SelectStatement Part))) :
    operands branches = branches.map operand := by
  induction branches with
  | nil => rw [operands, map_nil]
  | cons branch rest ih => rw [operands, ih, map_cons]

theorem branchesWritten_eq (branches : List (SetBranch (SelectStatement Part))) :
    branchesWritten branches = branches.flatMap fun branch => operandWritten branch.query := by
  induction branches with
  | nil => rw [branchesWritten, flatMap_nil]
  | cons branch rest ih =>
    obtain ⟨query, op, all⟩ := branch
    rw [branchesWritten, branchWritten, ih, flatMap_cons, operandWritten]

def loop (outer : Option (SetTree (SelectStatement Part) × SetOp × Bool))
    (first : SelectStatement Part) (rest : List (SetBranch (SelectStatement Part))) :
    TreeState (SelectStatement Part) :=
  (operands rest).foldl TreeState.step ⟨outer, operandTree first⟩

theorem setOperationTree_loop (branches : query.setOperation = first :: rest) :
    setOperationTree query = (loop none first.query rest).close := by
  obtain ⟨withList, block, orderBy, limit, offset, all⟩ := query
  simp only [SelectStatement.setOperation] at branches
  subst branches
  rw [setOperationTree, operands, operand_eq]
  rfl

theorem written_eq (branches : query.setOperation = first :: rest) :
    query.written = operandWritten first.query ++ branchesWritten rest := by
  obtain ⟨withList, block, orderBy, limit, offset, all⟩ := query
  simp only [SelectStatement.setOperation] at branches
  subst branches
  rw [SelectStatement.written, branchesWritten_eq, branchesWritten_eq, flatMap_cons]

/-- The loop at a branch: INTERSECT grows the term, another operator closes it. -/
theorem loop_append (outer : Option (SetTree (SelectStatement Part) × SetOp × Bool))
    (first : SelectStatement Part) (branches : List (SetBranch (SelectStatement Part)))
    (branch : SetBranch (SelectStatement Part)) (tail : List (SetBranch (SelectStatement Part))) :
    loop outer first (branches ++ branch :: tail) =
      (operands tail).foldl TreeState.step
        ((loop outer first branches).step (operand branch)) := by
  simp only [loop, operands_eq, map_append, map_cons, foldl_append,
    foldl_cons]

mutual

theorem OperandReads.agrees (rows : SelectStatement Part → Multiset Row)
    {query : SelectStatement Part} {expr : SetExpr (SelectStatement Part)} :
    OperandReads query expr → Agrees rows (operandTree query) expr (operandWritten query)
  | .leaf single => by
    rw [operandTree, operandWritten, single]
    exact ⟨fun _ _ h => by simp at h, by simp [SetTree.bag, SetExpr.bag], by simp [SetTree.leaves]⟩
  | .nested plain branches reads => by
    have inner := CompoundReads.agrees rows reads
    rw [← written_eq branches, ← setOperationTree_loop branches] at inner
    simpa only [operandTree, operandWritten, plain, if_true] using inner

theorem TermReads.agrees (rows : SelectStatement Part → Multiset Row)
    {query : SelectStatement Part} {branches : List (SetBranch (SelectStatement Part))}
    {expr : SetExpr (SelectStatement Part)} :
    TermReads query branches expr →
      ∀ outer, ∃ term, loop outer query branches = ⟨outer, term⟩ ∧
        Agrees rows term expr (operandWritten query ++ branchesWritten branches)
  | .operand reads => by
    intro outer
    refine ⟨operandTree query, rfl, ?_⟩
    simpa [branchesWritten] using OperandReads.agrees rows reads
  | @TermReads.intersect _ _ _ _ branch _ left is reads => by
    intro outer
    obtain ⟨term, run, agrees⟩ := TermReads.agrees rows left outer
    refine ⟨Sql.combine term (operandTree branch.query) .intersect branch.all, ?_, ?_⟩
    · rw [loop_append, run, operand_eq]
      simp [operands, TreeState.step, precedence, is]
    · have both := agrees.combine (OperandReads.agrees rows reads) .intersect branch.all
      simpa [branchesWritten_eq, append_assoc] using both

theorem CompoundReads.agrees (rows : SelectStatement Part → Multiset Row)
    {query : SelectStatement Part} {branches : List (SetBranch (SelectStatement Part))}
    {expr : SetExpr (SelectStatement Part)} :
    CompoundReads query branches expr →
      Agrees rows (loop none query branches).close expr
        (operandWritten query ++ branchesWritten branches)
  | .term reads => by
    obtain ⟨term, run, agrees⟩ := TermReads.agrees rows reads none
    rw [run]
    exact agrees
  | @CompoundReads.outer _ _ branches _ branch tail _ left not reads => by
    have closed := CompoundReads.agrees rows left
    obtain ⟨term, run, agrees⟩ := TermReads.agrees rows reads
      (some ((loop none query branches).close, branch.op, branch.all))
    have next : (loop none query branches).step (operand branch) =
        ⟨some ((loop none query branches).close, branch.op, branch.all),
          operandTree branch.query⟩ := by
      simp [operand_eq, TreeState.step, precedence, not]
    rw [loop_append, next]
    rw [loop] at run
    rw [run]
    have both := closed.combine agrees branch.op branch.all
    simpa [TreeState.close, branchesWritten_eq, append_assoc] using both

end

/-- A compound grows by one branch: an INTERSECT branch extends the last term. -/
theorem CompoundReads.snoc {branches : List (SetBranch (SelectStatement Part))}
    {expr : SetExpr (SelectStatement Part)} {branch : SetBranch (SelectStatement Part)}
    {right : SetExpr (SelectStatement Part)} (reads : CompoundReads query branches expr)
    (operand : OperandReads branch.query right) :
    ∃ grown, CompoundReads query (branches ++ [branch]) grown := by
  by_cases is : branch.op = .intersect
  · cases reads with
    | term term => exact ⟨_, .term (.intersect term is operand)⟩
    | outer left not term =>
      have grown := CompoundReads.outer left not (.intersect term is operand)
      exact ⟨_, by simpa using grown⟩
  · exact ⟨_, .outer reads is (.operand operand)⟩

theorem compound_reads (first : ∃ expr, OperandReads query expr)
    (branches : List (SetBranch (SelectStatement Part)))
    (each : ∀ branch ∈ branches, ∃ expr, OperandReads branch.query expr) :
    ∃ expr, CompoundReads query branches expr := by
  induction branches using List.reverseRecOn with
  | nil =>
    obtain ⟨expr, reads⟩ := first
    exact ⟨expr, .term (.operand reads)⟩
  | append_singleton branches branch ih =>
    obtain ⟨expr, reads⟩ := ih fun other member => each other (by simp [member])
    obtain ⟨right, operand⟩ := each branch (by simp)
    exact reads.snoc operand

theorem operand_reads (query : SelectStatement Part) : ∃ expr, OperandReads query expr := by
  obtain ⟨withList, block, orderBy, limit, offset, branches⟩ := query
  by_cases plain :
      (SelectStatement.mk withList block orderBy limit offset branches).isPlainCompound = true
  · obtain _ | ⟨first, rest⟩ := branches
    · simp [SelectStatement.isPlainCompound] at plain
    · have each : ∀ branch ∈ first :: rest, ∃ expr, OperandReads branch.query expr :=
        fun branch member => operand_reads branch.query
      obtain ⟨expr, reads⟩ := compound_reads (each first (by simp)) rest
        fun branch member => each branch (by simp [member])
      exact ⟨expr, .nested plain rfl reads⟩
  · exact ⟨_, .leaf (by simpa using plain)⟩
termination_by sizeOf query
decreasing_by
  obtain ⟨query, op, all⟩ := branch
  have smaller := sizeOf_lt_of_mem member
  simp only [SetBranch.mk.sizeOf_spec, SelectStatement.mk.sizeOf_spec] at smaller ⊢
  omega

/-- `SetOperationTree` keeps a compound's meaning: the grammar reads the compound,
the tree's bag is that of every reading, whatever rows the leaves have, and the
tree's leaves are the branches in written order. -/
theorem setOperationTree_meaning (withList : List Part) (block : Part) (orderBy : List Part)
    (limit offset : Option Int) (first : SetBranch (SelectStatement Part))
    (rest : List (SetBranch (SelectStatement Part))) :
    let compound := SelectStatement.mk withList block orderBy limit offset (first :: rest)
    (∃ expr, CompoundReads first.query rest expr) ∧
    (∀ expr, CompoundReads first.query rest expr → ∀ rows : SelectStatement Part → Multiset Row,
      (setOperationTree compound).bag rows = expr.bag rows) ∧
    (setOperationTree compound).leaves = compound.written := by
  intro compound
  have branches : compound.setOperation = first :: rest := rfl
  have reading := compound_reads (operand_reads first.query) rest
    fun branch _ => operand_reads branch.query
  refine ⟨reading, fun expr reads rows => ?_, ?_⟩
  · rw [setOperationTree_loop branches]
    exact (CompoundReads.agrees rows reads).bag
  · obtain ⟨expr, reads⟩ := reading
    rw [setOperationTree_loop branches, written_eq branches]
    exact (CompoundReads.agrees (fun _ => (0 : Multiset Unit)) reads).leaves

end Antb1.Sql
