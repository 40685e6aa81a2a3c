import Antb1.Plan.Expr
import Antb1.Plan.OrFactoringProofs

/-! Factoring keeps the filter. Whatever three-valued truth the atoms of a predicate have, an
element is TRUE exactly where all conjuncts that factoring leaves of it are TRUE. -/
namespace Antb1.Plan.OrFactoring

open Sql Grouping List

variable {Node : Type}

/-- Three-valued truth for the atoms of predicates, one for structurally equal atoms. What a
literal stands for beside an expression is left open, so that `equals` may be the equality of any
type; IN is the disjunction of the equalities with its list. -/
structure Assignment (Node : Type) where
  atom : Sql.Expr Node → Option Bool
  equals : Sql.Expr Node → Literal → Option Bool
  eq_literal : ∀ c value, atom (.binary .eq c (.literal value)) = equals c value
  literal_eq : ∀ c value, c.isLiteral = false →
    atom (.binary .eq (.literal value) c) = equals c value
  inList : ∀ c list, atom (.inList c list false) =
    list.foldl (fun any value => kleeneOr any (atom (.binary .eq c value))) (some false)

namespace Assignment

variable (a : Assignment Node)

/-- The truth of a predicate: AND and OR are Kleene's, everything else is an atom. -/
def truth : Sql.Expr Node → Option Bool
  | .binary .and left right => kleeneAnd (truth left) (truth right)
  | .binary .or left right => kleeneOr (truth left) (truth right)
  | e => a.atom e

/-- The equality of values that may be NULL. -/
def equalValues {V : Type} [DecidableEq V] : Option V → Option V → Option Bool
  | some x, some y => some (x = y)
  | _, _ => none

/-- The assignment of a row: SQL's equality of the values of two expressions, and any truth for
the atoms of other kinds. -/
def ofValues {V : Type} [DecidableEq V] (value : Sql.Expr Node → Option V)
    (other : Sql.Expr Node → Option Bool) : Assignment Node where
  atom
    | .binary .eq left right => equalValues (value left) (value right)
    | .inList c list false => list.foldl (fun any element =>
        kleeneOr any (equalValues (value c) (value element))) (some false)
    | e => other e
  equals c literal := equalValues (value c) (value (.literal literal))
  eq_literal _ _ := rfl
  literal_eq c literal _ := by
    cases left : value c <;> cases right : value (.literal literal) <;>
      simp [equalValues, left, right, eq_comm]
  inList _ _ := rfl

/-- Every value NULL. -/
instance : Inhabited (Assignment Node) := ⟨ofValues (fun _ => (none : Option Nat)) fun _ => none⟩

/-- A filter keeps a row exactly where its predicate is TRUE. -/
def Holds (e : Sql.Expr Node) : Prop := a.truth e = some true

end Assignment

namespace Assignment

variable {a : Assignment Node} {right e c left : Sql.Expr Node}

@[simp] theorem holds_and :
    a.Holds (.binary .and left right) ↔ a.Holds left ∧ a.Holds right := kleeneAnd_true

@[simp] theorem holds_or :
    a.Holds (.binary .or left right) ↔ a.Holds left ∨ a.Holds right := kleeneOr_true

theorem holds_conjuncts : a.Holds e ↔ ∀ c ∈ conjuncts e, a.Holds c := by
  fun_induction conjuncts e with
  | case1 left right ihLeft ihRight =>
    rw [holds_and, ihLeft, ihRight, forall_mem_append]
  | case2 e other => simp

theorem holds_branches : a.Holds e ↔ ∃ b ∈ branches e, a.Holds b := by
  fun_induction branches e with
  | case1 left right ihLeft ihRight =>
    simp only [holds_or, ihLeft, ihRight, mem_append, or_and_right, exists_or]
  | case2 e other => simp

/-- An expression holds where some branch has all its conjuncts hold. -/
theorem holds_perBranch : a.Holds e ↔ ∃ branch ∈ perBranch e, ∀ c ∈ branch, a.Holds c := by
  rw [holds_branches]
  simp only [perBranch, mem_map, exists_exists_and_eq_and, ← holds_conjuncts]

theorem holds_conjunction {parts : List (Sql.Expr Node)} (some_ : parts ≠ []) :
    a.Holds (conjunction parts) ↔ ∀ c ∈ parts, a.Holds c := by
  have more : ∀ (others : List (Sql.Expr Node)) (first : Sql.Expr Node),
      a.Holds (others.foldl (.binary .and) first) ↔ a.Holds first ∧ ∀ c ∈ others, a.Holds c := by
    intro others
    induction others with
    | nil => simp
    | cons next others ih =>
      intro first
      rw [foldl_cons, ih, holds_and, forall_mem_cons, and_assoc]
  obtain ⟨first, others, rfl⟩ := exists_cons_of_ne_nil some_
  exact (more others first).trans forall_mem_cons.symm

theorem holds_folded {left : List (List (Sql.Expr Node))} (some_ : left ≠ [])
    (each : ∀ branch ∈ left, branch ≠ []) :
    a.Holds (folded left) ↔ ∃ branch ∈ left, ∀ c ∈ branch, a.Holds c := by
  have more : ∀ (others : List (List (Sql.Expr Node))) (e : Sql.Expr Node),
      (∀ branch ∈ others, branch ≠ []) →
      (a.Holds (others.foldl (fun left branch => disjunction left (conjunction branch)) e) ↔
        a.Holds e ∨ ∃ branch ∈ others, ∀ c ∈ branch, a.Holds c) := by
    intro others
    induction others with
    | nil => simp
    | cons next others ih =>
      intro e each
      rw [foldl_cons, ih _ fun branch member => each branch (mem_cons_of_mem _ member),
        disjunction, holds_or, holds_conjunction (each next mem_cons_self), or_assoc]
      simp
  obtain ⟨first, others, rfl⟩ := exists_cons_of_ne_nil some_
  rw [folded, tail_cons, headD_cons,
    more others _ fun branch member => each branch (mem_cons_of_mem _ member),
    holds_conjunction (each first mem_cons_self)]
  simp

theorem holds_inList {list : List (Sql.Expr Node)} :
    a.Holds (.inList c list false) ↔ ∃ value ∈ list, a.Holds (.binary .eq c value) := by
  change a.atom _ = some true ↔ _
  rw [a.inList, foldl_kleeneOr_true]
  simp [Holds, truth]

def HoldsAll (a : Assignment Node) (out : List (FactoredConjunct Node)) : Prop :=
  ∀ c ∈ out, c.bindOnly = false → a.Holds c.expr

theorem holdsAll_append {out more : List (FactoredConjunct Node)} :
    a.HoldsAll (out ++ more) ↔ a.HoldsAll out ∧ a.HoldsAll more := forall_mem_append

theorem holdsAll_plain {exprs : List (Sql.Expr Node)} :
    a.HoldsAll (exprs.map fun e => { expr := e }) ↔ ∀ e ∈ exprs, a.Holds e := by
  simp [HoldsAll]

variable [DecidableEq Node] {parts : List (List (Sql.Expr Node))} {column : Sql.Expr Node}

/-- A conjunct that holds and bounds a column makes the column one of its values. -/
theorem holds_valuesOf {column conjunct : Sql.Expr Node} (plain : column.isLiteral = false)
    (bounds : valuesOf column conjunct ≠ []) (holds : a.Holds conjunct) :
    ∃ value ∈ valuesOf column conjunct, a.Holds (.binary .eq column value) := by
  cases conjunct with
  | binary op left right =>
    cases op with
    | eq =>
      simp only [valuesOf] at bounds ⊢
      split_ifs at bounds ⊢ with isLeft literal isRight literal
      · exact ⟨right, by simp, isLeft ▸ holds⟩
      · exact absurd rfl bounds
      · -- `literal = column` is written the other way round
        cases left with
        | literal value =>
          subst isRight
          refine ⟨.literal value, by simp, ?_⟩
          exact (a.eq_literal right value).trans
            ((a.literal_eq right value plain).symm.trans holds)
        | _ => cases literal
      · exact absurd rfl bounds
      · exact absurd rfl bounds
    | _ => exact absurd rfl bounds
  | inList operand list negated =>
    simp only [valuesOf] at bounds ⊢
    split_ifs at bounds ⊢ with other literals
    · exact absurd rfl bounds
    · simp only [not_or, Bool.not_eq_true, not_not] at other
      obtain ⟨rfl, rfl⟩ := other
      exact holds_inList.mp holds
    · exact absurd rfl bounds
  | _ => exact absurd rfl bounds

/-- The IN list that branches imply holds wherever one of them does. -/
theorem holds_derivedIn (plain : column.isLiteral = false)
    (found : derivedIn parts column = some e) (some_ : ∃ branch ∈ parts, ∀ c ∈ branch, a.Holds c) :
    a.Holds e := by
  obtain ⟨branch, among, holds⟩ := some_
  dsimp only [derivedIn] at found
  split_ifs at found with unbound few
  cases found
  simp only [any_eq_true, mem_map, not_or, not_exists, not_and] at unbound
  have bounds : branch.flatMap (valuesOf column) ≠ [] := fun empty =>
    unbound.1 _ ⟨branch, among, rfl⟩ (by simp [empty])
  obtain ⟨bound, isBound⟩ := exists_mem_of_ne_nil _ bounds
  obtain ⟨conjunct, member, inside⟩ := mem_flatMap.mp isBound
  obtain ⟨value, isValue, equal⟩ :=
    holds_valuesOf plain (ne_nil_of_mem inside) (holds conjunct member)
  refine holds_inList.mpr ⟨value, mem_distinct.mpr ?_, equal⟩
  exact mem_flatten.mpr ⟨_, mem_map.mpr ⟨branch, among, rfl⟩,
    mem_flatMap.mpr ⟨conjunct, member, isValue⟩⟩

theorem candidates_plain (candidate : column ∈ candidates parts) : column.isLiteral = false := by
  simpa using (mem_filter.mp (mem_distinct.mp candidate)).2

/-- Some branch holds exactly where the shared conjuncts and some branch's rest do. -/
theorem holds_rest :
    (∃ branch ∈ parts, ∀ c ∈ branch, a.Holds c) ↔
      (∀ c ∈ shared parts, a.Holds c) ∧ ∃ left ∈ rest parts, ∀ c ∈ left, a.Holds c := by
  constructor
  · rintro ⟨branch, among, holds⟩
    constructor
    · exact fun c isShared => holds c ((mem_shared.mp isShared).2 branch among)
    · exact ⟨_, mem_map.mpr ⟨branch, among, rfl⟩,
        fun c member => holds c (mem_filter.mp member).1⟩
  · rintro ⟨common, left, isLeft, holds⟩
    obtain ⟨branch, among, rfl⟩ := mem_map.mp isLeft
    refine ⟨branch, among, fun c member => ?_⟩
    by_cases isShared : c ∈ shared parts
    · exact common c isShared
    · exact holds c (mem_filter.mpr ⟨member, by simpa using isShared⟩)

/-- What a conjunct leaves beside IN lists holds exactly where it does. -/
theorem holdsAll_own : a.HoldsAll (own c) ↔ a.Holds c := by
  have single : ∀ e : Sql.Expr Node, a.HoldsAll [{ expr := e }] ↔ a.Holds e := by
    simp [HoldsAll]
  have parts : perBranch c ≠ [] := by simpa [perBranch] using branches_ne_nil c
  rw [own]
  split_ifs with isOr none_ empty
  · exact single c
  · -- a branch of shared conjuncts only makes the OR hold wherever they do
    have emptyRest : ∃ left ∈ rest (perBranch c), ∀ c ∈ left, a.Holds c := by
      obtain ⟨left, among, nothing⟩ := any_eq_true.mp empty
      exact ⟨left, among, by simp [isEmpty_iff.mp nothing]⟩
    rw [holdsAll_append, holdsAll_plain, holds_perBranch, holds_rest]
    simp [HoldsAll, emptyRest]
  · have each : ∀ branch ∈ rest (perBranch c), branch ≠ [] := by
      rintro branch among rfl
      exact empty (any_eq_true.mpr ⟨[], among, rfl⟩)
    rw [holdsAll_append, holdsAll_plain, single, holds_folded (by simpa [rest] using parts) each,
      ← holds_rest, ← holds_perBranch]
  · exact single c

/-- The branches an IN list is derived from: one of them holds where the conjunct does. -/
theorem holds_implying (holds : a.Holds c) (implied : Implied (implying c) e) : a.Holds e := by
  obtain ⟨column, candidate, found⟩ := implied
  refine holds_derivedIn (candidates_plain candidate) found ?_
  have some_ := holds_perBranch.mp holds
  rw [implying] at candidate ⊢
  split_ifs at candidate ⊢ with isOr none_ empty
  · exact some_
  · cases candidate
  · exact (holds_rest.mp some_).2
  · cases candidate

/-- Factoring one conjunct adds what holds exactly where the conjunct does. -/
theorem holdsAll_factorConjunct {siblings : List (Sql.Expr Node)}
    {out : List (FactoredConjunct Node)} :
    a.HoldsAll (factorConjunct siblings out c) ↔ a.HoldsAll out ∧ a.Holds c := by
  obtain ⟨more, same, derives⟩ := factorConjunct_kept siblings out c
  rw [same, holdsAll_append, holdsAll_append, holdsAll_own, holdsAll_plain]
  constructor
  · exact And.left
  · intro both
    exact ⟨both, fun e member => holds_implying both.2 (derives.implied e member)⟩

end Assignment

variable [DecidableEq Node]

/-- An element is TRUE exactly where every conjunct that factoring adds for it, those only bound
left out, is TRUE. -/
theorem factorSharedConjuncts_truth (a : Assignment Node) (element : Sql.Expr Node)
    (siblings : List (Sql.Expr Node)) (out : List (FactoredConjunct Node)) :
    (∀ c ∈ factorSharedConjuncts element siblings out, c.bindOnly = false →
        a.truth c.expr = some true) ↔
      (∀ c ∈ out, c.bindOnly = false → a.truth c.expr = some true) ∧
        a.truth element = some true := by
  have each : ∀ (flat : List (Sql.Expr Node)) (out : List (FactoredConjunct Node)),
      a.HoldsAll (flat.foldl (factorConjunct siblings) out) ↔
        a.HoldsAll out ∧ ∀ c ∈ flat, a.Holds c := by
    intro flat
    induction flat with
    | nil => simp
    | cons c flat ih =>
      intro out
      rw [foldl_cons, ih, Assignment.holdsAll_factorConjunct, forall_mem_cons, and_assoc]
  exact (each (conjuncts element) out).trans
    (and_congr_right fun _ => Assignment.holds_conjuncts.symm)

end Antb1.Plan.OrFactoring
