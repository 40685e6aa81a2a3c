import Antb1.Lib.Grouping
import Antb1.Sql.Expr

/-! Conjuncts that every branch of an OR shares, factored out of it, and the IN lists an
OR implies: `plan/or_factoring.cc`. -/
namespace Antb1.Plan.OrFactoring

open Sql Grouping

variable {Node : Type} [DecidableEq Node]

def branches : Sql.Expr Node → List (Sql.Expr Node)
  | .binary .or left right => branches left ++ branches right
  | expr => [expr]

def disjunction (left right : Sql.Expr Node) : Sql.Expr Node := .binary .or left right

/-- Parts AND-ed in order; the parts are never empty. -/
def conjunction (parts : List (Sql.Expr Node)) : Sql.Expr Node :=
  parts.tail.foldl (.binary .and) (parts.headD (.literal {}))

/-- The literals a conjunct constrains a column to: none where it does not bound it. -/
def valuesOf (column : Sql.Expr Node) : Sql.Expr Node → List (Sql.Expr Node)
  | .binary .eq left right =>
    if left = column then (if right.isLiteral then [right] else [])
    else if right = column then (if left.isLiteral then [left] else [])
    else []
  | .inList operand list negated =>
    if negated ∨ operand ≠ column then []
    else if list.all Sql.Expr.isLiteral then list else []
  | _ => []

def kindOf : Sql.Expr Node → Option LiteralKind
  | .literal value => some value.kind
  | _ => none

def sameKind : List (Sql.Expr Node) → Bool
  | [] => true
  | first :: rest => rest.all fun value => kindOf value = kindOf first

def constrainedColumn : Sql.Expr Node → Option (Sql.Expr Node)
  | .binary .eq left right => some (if right.isLiteral then left else right)
  | .inList operand _ false => some operand
  | _ => none

def candidates (perBranch : List (List (Sql.Expr Node))) : List (Sql.Expr Node) :=
  distinct (((perBranch.headD []).filterMap constrainedColumn).filter fun column => !column.isLiteral)

def derivedIn (perBranch : List (List (Sql.Expr Node))) (column : Sql.Expr Node) : Option (Sql.Expr Node) :=
  let each := perBranch.map fun branch => branch.flatMap (valuesOf column)
  let values := each.flatten
  if each.any List.isEmpty ∨ values.length < 2 ∨ sameKind values = false then none
  else
    let list := distinct values
    if list.length < 2 then none else some (.inList column list false)

/-- A conjunct the factoring leaves; an OR its shared conjuncts imply is only bound. -/
structure FactoredConjunct (Node : Type) where
  expr : Sql.Expr Node
  bindOnly : Bool := false

/-- One column's IN list, unless the predicate holds it already. -/
def deriveFor (perBranch : List (List (Sql.Expr Node))) (already : List (Sql.Expr Node))
    (out : List (FactoredConjunct Node)) (column : Sql.Expr Node) : List (FactoredConjunct Node) :=
  match derivedIn perBranch column with
  | none => out
  | some derived =>
    if derived ∈ already ∨ derived ∈ out.map FactoredConjunct.expr then out
    else out ++ [{ expr := derived }]

def deriveImpliedInLists (perBranch : List (List (Sql.Expr Node))) (already : List (Sql.Expr Node))
    (out : List (FactoredConjunct Node)) : List (FactoredConjunct Node) :=
  (candidates perBranch).foldl (deriveFor perBranch already) out

def conjuncts : Sql.Expr Node → List (Sql.Expr Node)
  | .binary .and left right => conjuncts left ++ conjuncts right
  | expr => [expr]

def conjunctsOf (predicate : List (Sql.Expr Node)) : List (Sql.Expr Node) := predicate.flatMap conjuncts

def perBranch (conjunct : Sql.Expr Node) : List (List (Sql.Expr Node)) := (branches conjunct).map conjuncts

def shared (perBranch : List (List (Sql.Expr Node))) : List (Sql.Expr Node) :=
  distinct ((perBranch.headD []).filter fun candidate =>
    perBranch.all fun branch => candidate ∈ branch)

def rest (perBranch : List (List (Sql.Expr Node))) : List (List (Sql.Expr Node)) :=
  perBranch.map fun branch => branch.filter fun e => e ∉ shared perBranch

def folded (rest : List (List (Sql.Expr Node))) : Sql.Expr Node :=
  rest.tail.foldl (fun left branch => disjunction left (conjunction branch))
    (conjunction (rest.headD []))

def factorConjunct (siblings : List (Sql.Expr Node)) (out : List (FactoredConjunct Node))
    (conjunct : Sql.Expr Node) : List (FactoredConjunct Node) :=
  if conjunct.isOr then
    let parts := perBranch conjunct
    if shared parts = [] then deriveImpliedInLists parts siblings (out ++ [{ expr := conjunct }])
    else
      let out := out ++ (shared parts).map fun e => { expr := e }
      if (rest parts).any List.isEmpty then out ++ [{ expr := conjunct, bindOnly := true }]
      else deriveImpliedInLists (rest parts) siblings (out ++ [{ expr := folded (rest parts) }])
  else out ++ [{ expr := conjunct }]

def factorSharedConjuncts (element : Sql.Expr Node) (siblings : List (Sql.Expr Node))
    (out : List (FactoredConjunct Node)) : List (FactoredConjunct Node) :=
  (conjuncts element).foldl (factorConjunct siblings) out

/-- The conjuncts that factoring leaves of a predicate, those only bound left out. -/
def factored (predicate : List (Sql.Expr Node)) : List (Sql.Expr Node) :=
  predicate.flatMap fun element =>
    ((factorSharedConjuncts element (conjunctsOf predicate) []).filter fun c => !c.bindOnly).map
      FactoredConjunct.expr

end Antb1.Plan.OrFactoring
