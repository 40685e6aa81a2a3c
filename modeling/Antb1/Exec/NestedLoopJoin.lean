import Antb1.Plan.Semantics

/-! The nested-loop join, by positions: what a hash join of each kind and build side answers. A
residual sees the left input's columns, then the right one's; `none` is a run with an error. -/
namespace Antb1.Exec

open Plan

abbrev Tuple := List Value

abbrev Condition := Tuple → Option Value

def keyAt (columns : List Nat) (row : Tuple) : List Value := columns.map fun c => row.getD c .null

def nulls (width : Nat) : Tuple := List.replicate width .null

/-- Every condition is true; one is computed where those before it are. -/
def passes (row : Tuple) : List Condition → Option Bool
  | [] => some true
  | condition :: rest => (condition row).bind fun value =>
    if value = .bool true then passes row rest else some false

structure EquiJoin where
  kind : JoinKind
  side : BuildSide
  probeKeys : List Nat
  buildKeys : List Nat
  residual : List Condition
  probeWidth : Nat
  buildWidth : Nat

namespace EquiJoin

def pair (join : EquiJoin) (probe build : Tuple) : Tuple :=
  match join.side with
  | .left => build ++ probe
  | .right => probe ++ build

def hasNull (key : List Value) : Bool := key.any (· = .null)

/-- Equal keys, none of them NULL. -/
def isCandidate (join : EquiJoin) (probe build : Tuple) : Bool :=
  !hasNull (keyAt join.probeKeys probe) && keyAt join.probeKeys probe = keyAt join.buildKeys build

def matchesOf (join : EquiJoin) (build : List Tuple) (probe : Tuple) : Option (List Tuple) :=
  keepM (fun row => passes (join.pair probe row) join.residual)
    (build.filter (join.isCandidate probe))

/-- Whether a join that filters its left input keeps a left row with these matches. -/
def keeps (join : EquiJoin) (build : List Tuple) (probe : Tuple) (found : List Tuple) : Bool :=
  if join.kind.traits.nullAware then
    build.isEmpty ||
      (!build.any (fun row => hasNull (keyAt join.buildKeys row)) &&
        !hasNull (keyAt join.probeKeys probe) && found.isEmpty)
  else found.isEmpty != join.kind.traits.dropsUnmatchedLeft

def padsProbe (join : EquiJoin) : Bool :=
  match join.side with
  | .left => join.kind.traits.padsLeft
  | .right => join.kind.traits.padsRight

/-- What a probe row with these matches gives while the probe runs. -/
def probeRows (join : EquiJoin) (build : List Tuple) (probe : Tuple) (found : List Tuple) :
    List Tuple :=
  if join.kind.traits.outputsRight then
    if found.isEmpty && join.padsProbe then [join.pair probe (nulls join.buildWidth)]
    else found.map (join.pair probe)
  else if emitsBuildRows join.kind join.side then []
  else if join.keeps build probe found then [probe]
  else []

/-- The build rows that come out after the probe, from the probe rows' matches. -/
def buildRows (join : EquiJoin) (build : List Tuple) (found : List (Tuple × List Tuple)) :
    List Tuple :=
  if emitsBuildRows join.kind join.side then
    let rows := build.filter fun row =>
      (found.any fun probe => row ∈ probe.2) != emitsUnmatchedBuildRows join.kind join.side
    if join.kind.traits.outputsRight then rows.map (join.pair (nulls join.probeWidth)) else rows
  else []

/-- The rows of the join: the probe's in probe order, then the build's. -/
def rows (join : EquiJoin) (build probe : List Tuple) : Option (List Tuple) :=
  if join.kind.traits.keyless ∧ build.length ≠ 1 then none
  else (probe.mapM fun row => (join.matchesOf build row).map fun found => (row, found)).map
    fun found => (found.flatMap fun row => join.probeRows build row.1 row.2) ++
      join.buildRows build found

end EquiJoin

end Antb1.Exec
