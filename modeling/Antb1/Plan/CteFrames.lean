import Antb1.Lib.Results

/-! How the binder finds the common table expressions that a query's blocks see (`CteFrame`,
`BindFromItem` and `BindBlock`, `plan/binder.cc`), and what they mean by where they are written. Of
a query its tables and the queries in it are kept. -/
namespace Antb1.Plan.Cte

mutual

/-- A block with the queries of its subqueries, or a compound with its branches. -/
inductive Query where
  | block (ctes : List CommonTableExpr) (items : List FromItem) (subqueries : List Query)
  | compound (ctes : List CommonTableExpr) (branches : List Query)

/-- The address is what tells one from another. -/
inductive CommonTableExpr where
  | mk (address : Nat) (name : String) (query : Query)

inductive FromItem where
  | table (name : String)
  | derived (query : Query)

end

def Query.ctes : Query → List CommonTableExpr
  | .block ctes _ _ | .compound ctes _ => ctes

namespace CommonTableExpr

def address : CommonTableExpr → Nat
  | .mk address _ _ => address

def name : CommonTableExpr → String
  | .mk _ name _ => name

def query : CommonTableExpr → Query
  | .mk _ _ query => query

end CommonTableExpr

mutual

inductive BoundQuery (Table : Type) where
  | block (outer : Scope Table) (bindings : List (Binding Table))
      (subqueries : List (BoundQuery Table))
  | compound (outer : Scope Table) (branches : List (BoundQuery Table))

/-- A plan has the name of the CTE it is the body of. -/
inductive Binding (Table : Type) where
  | table (table : Table)
  | plan (query : BoundQuery Table) (cte : Option String)

inductive Scope (Table : Type) where
  | none
  | around (bindings : List (Binding Table)) (outer : Scope Table)

end

inductive BindError where
  | noTable (name : String)
  | outOfFuel

variable {Table : Type} (catalog : String → Option Table)

def resolveTable (name : String) : Except BindError (Binding Table) :=
  match catalog name with
  | some table => .ok (.table table)
  | none => .error (.noTable name)

def asciiLower (name : String) : List Char := name.toList.map Char.toLower

/-- A frame of a block: of its list, those before one of them or all. -/
structure CteFrame (Table : Type) where
  ctes : List CommonTableExpr
  count : Nat
  scope : Scope Table

def CteFrame.visible (frame : CteFrame Table) : List CommonTableExpr := frame.ctes.take frame.count

abbrev Frames (Table : Type) := List (CteFrame Table)

namespace Frames

def find (frames : Frames Table) (name : String) : Option CommonTableExpr :=
  frames.findSome? fun frame =>
    frame.visible.find? fun cte => asciiLower cte.name = asciiLower name

def scopeOf : Frames Table → CommonTableExpr → Scope Table
  | [], _ => .none
  | frame :: outer, cte =>
    if cte.address ∈ frame.visible.map CommonTableExpr.address then frame.scope
    else scopeOf outer cte

/-- Every frame of a block knows where each of its list is declared: after those before it. -/
def scopeFrameOf : Frames Table → CommonTableExpr → Frames Table
  | [], _ => []
  | frame :: outer, cte =>
    match frame.ctes.findIdx? fun other => other.address = cte.address with
    | some i => { frame with count := i } :: outer
    | none => scopeFrameOf outer cte

end Frames

/-- `bind` binds a query in frames and a scope. -/
def bindFromItem (bind : Frames Table → Scope Table → Query → Except BindError (BoundQuery Table))
    (ctes : Frames Table) (outer : Scope Table) (siblings : List (Binding Table)) :
    FromItem → Except BindError (Binding Table)
  | .table name =>
    match ctes.find name with
    | none => resolveTable catalog name
    | some cte => do
      return .plan (← bind (ctes.scopeFrameOf cte) (ctes.scopeOf cte) cte.query) (some cte.name)
  | .derived query => do return .plan (← bind ctes (.around siblings outer) query) none

/-- A CTE's body is bound again at each reference: the fuel is the depth of the calls. -/
def bindBlock : Nat → Frames Table → Scope Table → Query → Except BindError (BoundQuery Table)
  | 0, _, _, _ => .error .outOfFuel
  | fuel + 1, ctes, outer, query =>
    let own := ⟨query.ctes, query.ctes.length, outer⟩ :: ctes
    match query with
    | .compound _ branches => do
      return .compound outer (← branches.mapM (bindBlock fuel own outer))
    | .block _ items subqueries => do
      let bindings ← items.foldlM (fun siblings item => do
        return siblings ++ [← bindFromItem catalog (bindBlock fuel) own outer siblings item]) []
      return .block outer bindings (← subqueries.mapM (bindBlock fuel own (.around bindings outer)))

structure Meaning (Table : Type) where
  name : String
  query : Except BindError (BoundQuery Table)

abbrev Env (Table : Type) := List (List (Meaning Table))

def Env.find (env : Env Table) (name : String) : Option (Meaning Table) :=
  env.findSome? fun list => list.find? fun meaning => asciiLower meaning.name = asciiLower name

mutual

def meaning (env : Env Table) (outer : Scope Table) :
    Query → Except BindError (BoundQuery Table)
  | .compound ctes branches => do
    return .compound outer (← meaningEach (meanings env outer [] ctes :: env) outer branches)
  | .block ctes items subqueries => do
    let own := meanings env outer [] ctes :: env
    let bindings ← meaningFrom own outer [] items
    return .block outer bindings (← meaningEach own (.around bindings outer) subqueries)

def meaningEach (env : Env Table) (outer : Scope Table) :
    List Query → Except BindError (List (BoundQuery Table))
  | [] => .ok []
  | query :: rest => do return (← meaning env outer query) :: (← meaningEach env outer rest)

/-- A list after its `earlier` ones: the body of each sees those, and the lists around. -/
def meanings (env : Env Table) (outer : Scope Table) (earlier : List (Meaning Table)) :
    List CommonTableExpr → List (Meaning Table)
  | [] => earlier
  | .mk _ name query :: rest =>
    meanings env outer (earlier ++ [⟨name, meaning (earlier :: env) outer query⟩]) rest

def meaningFrom (env : Env Table) (outer : Scope Table) (siblings : List (Binding Table)) :
    List FromItem → Except BindError (List (Binding Table))
  | [] => .ok siblings
  | item :: rest => do
    meaningFrom env outer (siblings ++ [← meaningOf env outer siblings item]) rest

def meaningOf (env : Env Table) (outer : Scope Table) (siblings : List (Binding Table)) :
    FromItem → Except BindError (Binding Table)
  | .table name =>
    match env.find name with
    | none => resolveTable catalog name
    | some cte => do return .plan (← cte.query) (some cte.name)
  | .derived query => do return .plan (← meaning env (.around siblings outer) query) none

end

mutual

def Query.addresses : Query → List Nat
  | .block ctes items subqueries =>
    addressesIn ctes ++ (addressesFrom items ++ addressesEach subqueries)
  | .compound ctes branches => addressesIn ctes ++ addressesEach branches

def addressesEach : List Query → List Nat
  | [] => []
  | query :: rest => query.addresses ++ addressesEach rest

def addressesIn : List CommonTableExpr → List Nat
  | [] => []
  | .mk address _ query :: rest => address :: (query.addresses ++ addressesIn rest)

def addressesFrom : List FromItem → List Nat
  | [] => []
  | .table _ :: rest => addressesFrom rest
  | .derived query :: rest => query.addresses ++ addressesFrom rest

end

end Antb1.Plan.Cte
