import Antb1.Lib.Bag

/-! The tree of a compound query (`SetOperationTree` of `sql/ast.cc`) and the
grammar it has to agree with. Spans are left out; every other part of a query
that the tree does not read is one abstract type. -/
namespace Antb1.Sql

/-- A set operator. UNION ALL is `union` with the branch's `all`. -/
inductive SetOp where
  | union
  | intersect
  | except
  deriving DecidableEq, Repr

/-- One query of a compound and the operator written before it (unused for the
first branch). -/
structure SetBranch (Query : Type) where
  query : Query
  op : SetOp := .union
  all : Bool := false
  deriving Repr

/-- A query: its WITH list, its block, its tail, and the branches of a compound
(none for a block). -/
inductive SelectStatement (Part : Type) where
  | mk (withList : List Part) (block : Part) (orderBy : List Part) (limit offset : Option Int)
      (setOperation : List (SetBranch (SelectStatement Part)))

/-- A leaf is a branch's query; a run is one operator and quantifier over its
operands in written order. -/
inductive SetTree (Query : Type) where
  | leaf (query : Query)
  | run (op : SetOp) (all : Bool) (operands : List (SetTree Query))

variable {Part Query : Type}

def SelectStatement.setOperation : SelectStatement Part → List (SetBranch (SelectStatement Part))
  | .mk _ _ _ _ _ branches => branches

/-- A parenthesized compound without a WITH list or tail of its own. -/
def SelectStatement.isPlainCompound : SelectStatement Part → Bool
  | .mk withList _ orderBy limit offset branches =>
    !branches.isEmpty && withList.isEmpty && orderBy.isEmpty && limit.isNone && offset.isNone

def precedence (op : SetOp) : Nat := if op = .intersect then 2 else 1

def SetTree.runOf (op : SetOp) (all : Bool) : SetTree Query → Option (List (SetTree Query))
  | .leaf _ => none
  | .run op' all' operands => if op' = op ∧ all' = all then some operands else none

/-- `left` op `right`. A left run of the same kind takes the right operand; a
right run of the same kind is spliced only for UNION. -/
def combine (left right : SetTree Query) (op : SetOp) (all : Bool) : SetTree Query :=
  let first := (left.runOf op all).getD [left]
  let second := if op = .union then (right.runOf op all).getD [right] else [right]
  .run op all (first ++ second)

/-- The two levels of the loop: the pending UNION/EXCEPT operand with the
operator after it, and the INTERSECT run being built. -/
structure TreeState (Query : Type) where
  outer : Option (SetTree Query × SetOp × Bool)
  term : SetTree Query

def TreeState.close (state : TreeState Query) : SetTree Query :=
  match state.outer with
  | some (left, op, all) => combine left state.term op all
  | none => state.term

def TreeState.step (state : TreeState Query) (branch : SetBranch (SetTree Query)) :
    TreeState Query :=
  if precedence branch.op = 2 then
    { state with term := combine state.term branch.query branch.op branch.all }
  else { outer := some (state.close, branch.op, branch.all), term := branch.query }

mutual

/-- `SetOperationTree`. A statement without branches is its own leaf, which the
source never asks for. -/
def setOperationTree : SelectStatement Part → SetTree (SelectStatement Part)
  | .mk withList block orderBy limit offset branches =>
    match operands branches with
    | [] => .leaf (.mk withList block orderBy limit offset branches)
    | first :: rest => (rest.foldl TreeState.step ⟨none, first.query⟩).close

/-- Each branch with its `Operand`. -/
def operands : List (SetBranch (SelectStatement Part)) →
    List (SetBranch (SetTree (SelectStatement Part)))
  | [] => []
  | branch :: rest => operand branch :: operands rest

def operand : SetBranch (SelectStatement Part) → SetBranch (SetTree (SelectStatement Part))
  | ⟨query, op, all⟩ =>
    ⟨if query.isPlainCompound then setOperationTree query else .leaf query, op, all⟩

end

/-! ## The grammar

`compound := compound (UNION | EXCEPT) term | term` and
`term := term INTERSECT operand | operand`, over the branches as written. -/

inductive SetExpr (Query : Type) where
  | leaf (query : Query)
  | node (op : SetOp) (all : Bool) (left right : SetExpr Query)

mutual

/-- A branch's query as an operand: parentheses hold a compound of their own. -/
inductive OperandReads : SelectStatement Part → SetExpr (SelectStatement Part) → Prop
  | leaf {query} : query.isPlainCompound = false → OperandReads query (.leaf query)
  | nested {query first rest expr} : query.isPlainCompound = true →
      query.setOperation = first :: rest → CompoundReads first.query rest expr →
      OperandReads query expr

inductive TermReads : SelectStatement Part → List (SetBranch (SelectStatement Part)) →
    SetExpr (SelectStatement Part) → Prop
  | operand {query expr} : OperandReads query expr → TermReads query [] expr
  | intersect {query branches left branch right} : TermReads query branches left →
      branch.op = .intersect → OperandReads branch.query right →
      TermReads query (branches ++ [branch]) (.node .intersect branch.all left right)

/-- UNION and EXCEPT, left-associative, over INTERSECT terms. -/
inductive CompoundReads : SelectStatement Part → List (SetBranch (SelectStatement Part)) →
    SetExpr (SelectStatement Part) → Prop
  | term {query branches expr} : TermReads query branches expr →
      CompoundReads query branches expr
  | outer {query branches left branch tail right} : CompoundReads query branches left →
      branch.op ≠ .intersect → TermReads branch.query tail right →
      CompoundReads query (branches ++ branch :: tail) (.node branch.op branch.all left right)

end

section Meaning

variable {Row : Type} [DecidableEq Row]

def SetOp.bag : SetOp → Bool → Multiset Row → Multiset Row → Multiset Row
  | .union, true, a, b => a + b
  | .union, false, a, b => Bag.unionDistinct a b
  | .intersect, true, a, b => a ∩ b
  | .intersect, false, a, b => Bag.intersectDistinct a b
  | .except, true, a, b => a - b
  | .except, false, a, b => Bag.exceptDistinct a b

def foldRun (op : SetOp) (all : Bool) : List (Multiset Row) → Multiset Row
  | [] => 0
  | first :: rest => rest.foldl (op.bag all) first

def SetTree.bag (rows : Query → Multiset Row) : SetTree Query → Multiset Row
  | .leaf query => rows query
  | .run op all operands => foldRun op all (operands.map (SetTree.bag rows))

def SetExpr.bag (rows : Query → Multiset Row) : SetExpr Query → Multiset Row
  | .leaf query => rows query
  | .node op all left right => op.bag all (left.bag rows) (right.bag rows)

def SetTree.leaves : SetTree Query → List Query
  | .leaf query => [query]
  | .run _ _ operands => operands.flatMap SetTree.leaves

end Meaning

mutual

/-- The branches in written order, those of parenthesized compounds in place. -/
def SelectStatement.written : SelectStatement Part → List (SelectStatement Part)
  | .mk _ _ _ _ _ branches => branchesWritten branches

def branchesWritten : List (SetBranch (SelectStatement Part)) → List (SelectStatement Part)
  | [] => []
  | branch :: rest => branchWritten branch ++ branchesWritten rest

def branchWritten : SetBranch (SelectStatement Part) → List (SelectStatement Part)
  | ⟨query, _, _⟩ => if query.isPlainCompound then query.written else [query]

end

end Antb1.Sql
