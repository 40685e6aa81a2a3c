import Antb1.Common.Checked
import Antb1.Lib.Masks
import Antb1.Plan.LogicalPlan

/-! The join order of an inner block (`plan/join_order.cc`): the estimates, the search over
connected subsets and the greedy walk. A failed check is no result. -/
namespace Antb1.Plan.JoinOrder

/-- The largest int64_t. -/
def kLargest : Int := 2 ^ 63 - 1

def kInt128Max : Int := 2 ^ 127 - 1

structure JoinRelation where
  rows : Option Int
  deriving DecidableEq, Repr

structure JoinEdge where
  a : Nat
  b : Nat
  aDomain : Option Int
  bDomain : Option Int
  deriving DecidableEq, Repr

/-- The relations of a block and the edges between them, with the ends that `EdgesOf` checks. -/
structure JoinGraph where
  relations : List JoinRelation
  edges : List JoinEdge
  ends : ∀ edge ∈ edges, edge.a < relations.length ∧ edge.b < relations.length ∧ edge.a ≠ edge.b

abbrev RelationSet := Finset Nat

/-- An input of a step: a relation, or the result of an earlier step. -/
structure JoinOperand where
  step : Bool
  index : Nat
  deriving DecidableEq, Repr

structure JoinStep where
  left : JoinOperand
  right : JoinOperand
  edges : List Nat
  build : BuildSide
  estimate : Int
  deriving DecidableEq, Repr

/-- A count that is not negative, saturated. -/
def saturated (count : Int) : Int := if InInt64 count then count else kLargest

/-- `a * b`, saturated. -/
def multiplied (a b : Int) : Int := if InInt128 (a * b) then a * b else kInt128Max

/-- What an edge divides by, and whether a key of it has no value at all. -/
structure EdgeDivisor where
  divisor : Int := 1
  empty : Bool := false
  deriving DecidableEq, Repr

def divisorOf (edge : JoinEdge) : EdgeDivisor :=
  [edge.aDomain, edge.bDomain].foldl (fun out domain =>
    match domain with
    | none => out
    | some domain =>
      let values := max domain 0
      { divisor := max out.divisor values, empty := out.empty || values = 0 }) {}

def chooseBuildSide (left right : Option Int) (ratio : Int) : BuildSide :=
  match left, right with
  | some left, some right =>
    if right < 0 ∨ left ≤ 0 then .right
    else if right * 100 > ratio * left then .left
    else .right
  | _, _ => .right

namespace JoinGraph

variable (g : JoinGraph)

def edgeAt (e : Nat) : JoinEdge := g.edges.getD e ⟨0, 0, none, none⟩

/-- The rows of a relation; unknown counts as the most. -/
def blockRows (r : Nat) : Int := max ((g.relations.getD r ⟨none⟩).rows.getD kLargest) 0

/-- The rows of a join, by the largest domain of the edges across it. -/
def joinRowsOf (left right : Int) (crossing : List Nat) : Int :=
  let across := crossing.foldl (fun out e =>
    let edge := divisorOf (g.edgeAt e)
    { divisor := max out.divisor edge.divisor, empty := out.empty || edge.empty : EdgeDivisor })
    { empty := left = 0 ∨ right = 0 }
  if across.empty then 0 else max (saturated ((left * right).tdiv across.divisor)) 1

/-- What the edges between each two relations divide by, by the lower and the higher one; 0 where
there is no edge. -/
def pairProducts : (Nat × Nat → Int) × (Nat × Nat → Bool) :=
  g.edges.foldl (fun (product, empty) edge =>
    let one := divisorOf edge
    let at_ := (min edge.a edge.b, max edge.a edge.b)
    (Function.update product at_ (max (max (product at_) 1) one.divisor),
      if one.empty then Function.update empty at_ true else empty))
    (fun _ => 0, fun _ => false)

/-- `DivisorsOf`. -/
def pairDivisor (u v : Nat) : EdgeDivisor :=
  { divisor := if u = v then 1 else saturated (max (g.pairProducts.1 (min u v, max u v)) 1)
    empty := g.pairProducts.2 (min u v, max u v) }

/-- The running product of `SubsetRows`, with the relations taken in. -/
structure Running where
  rows : Int := 1
  done : RelationSet := ∅
  empty : Bool := false

/-- The pair of `r` with a relation taken in already. -/
def closePair (r : Nat) (run : Running) (u : Nat) : Running :=
  if u ∈ run.done then
    let pair := g.pairDivisor u r
    { run with empty := run.empty || pair.empty, rows := run.rows.tdiv pair.divisor }
  else run

def takeIn (set : RelationSet) (run : Running) (r : Nat) : Running :=
  if r ∈ set then
    let rows := g.blockRows r
    let run := { run with rows := multiplied run.rows rows, empty := run.empty || rows = 0 }
    let run := (List.range r).foldl (g.closePair r) run
    { run with done := insert r run.done }
  else run

/-- The rows that the relations of a set produce, as the search's cost reads them. -/
def subsetRows (set : RelationSet) : Int :=
  let run := (List.range g.relations.length).foldl (g.takeIn set) {}
  if run.empty then 0 else max (saturated run.rows) 1

end JoinGraph

/-- The relations below an operand, from those below each earlier step. -/
def setOf (below : List RelationSet) (operand : JoinOperand) : RelationSet :=
  if operand.step then below.getD operand.index ∅ else {operand.index}

/-- One step's rows and those of its smaller input, added as int64_t, and the relations below it. -/
def costStep (g : JoinGraph) (state : List RelationSet × Int) (step : JoinStep) :
    Except Overflow (List RelationSet × Int) := do
  let left := setOf state.1 step.left
  let right := setOf state.1 step.right
  let added ← int64 (g.subsetRows (left ∪ right) + min (g.subsetRows left) (g.subsetRows right))
  let cost ← int128 (state.2 + added)
  return (state.1 ++ [left ∪ right], cost)

def orderCost (g : JoinGraph) (steps : List JoinStep) : Except Overflow Int := do
  let state ← steps.foldlM (costStep g) ([], 0)
  return saturated state.2

abbrev Mask := BitVec 32

namespace Searcher

open Masks

structure Entry where
  cost : Int := -1
  left : Mask := 0
  right : Mask := 0
  deriving DecidableEq, Repr

abbrev Memo := Mask → Entry

variable (g : JoinGraph)

def adjacent (r : Nat) : Mask :=
  g.edges.foldl (fun out edge =>
    let out := if edge.a = r then out ||| bit edge.b else out
    if edge.b = r then out ||| bit edge.a else out) 0

def neighbours (s forbidden : Mask) : Mask :=
  (List.range g.relations.length).foldl
    (fun out r => if s &&& bit r ≠ 0 then out ||| adjacent g r else out) 0 &&& ~~~s &&& ~~~forbidden

/-- Whether the masks of an edge's ends lie in two sets, one in each. -/
def joins (edge : JoinEdge) (s1 s2 : Mask) : Bool :=
  let u : Mask := bit edge.a
  let v : Mask := bit edge.b
  (u &&& s1 = u ∧ v &&& s2 = v) ∨ (v &&& s1 = v ∧ u &&& s2 = u)

def connected (s1 s2 : Mask) : Bool := g.edges.any fun edge => joins edge s1 s2

theorem neighbours_grow {s forbidden add : Mask} (among : add ∈ submasks (neighbours g s forbidden)) :
    32 - popcount (s ||| add) < 32 - popcount s := by
  obtain ⟨some_, subset⟩ := mem_submasks.mp among
  rw [neighbours, members_and_not, members_and_not] at subset
  have apart : Disjoint (members s) (members add) := by
    rw [Finset.disjoint_right]
    exact fun r isAdd => (Finset.mem_sdiff.mp (Finset.mem_sdiff.mp (subset isAdd)).1).2
  have more := Finset.card_pos.mpr (members_nonempty.mpr some_)
  have most := popcount_le (s ||| add)
  rw [popcount, members_or, Finset.card_union_of_disjoint apart] at most ⊢
  rw [popcount]
  omega

/-- The sets that grow from `s` by neighbours that are not forbidden: those one ring larger first,
then what grows from each of them. -/
def grow {α : Type} (visit : Mask → List α) (s forbidden : Mask) : List α :=
  let near := neighbours g s forbidden
  (submasks near).flatMap (fun add => visit (s ||| add)) ++
    (submasks near).attach.flatMap fun add => grow visit (s ||| add.1) (forbidden ||| near)
  termination_by 32 - popcount s
  decreasing_by exact neighbours_grow g add.2

/-- Grows the complement `s2` of `s1`, pairing the two whenever an edge joins them. -/
def growComplement (s1 s2 forbidden : Mask) : List (Mask × Mask) :=
  grow g (fun s2 => if connected g s1 s2 then [(s1, s2)] else []) s2 forbidden

/-- The connected complements of `s`, each paired with it. -/
def findComplements (s : Mask) : List (Mask × Mask) :=
  let forbidden := s ||| below (lowest s)
  let near := neighbours g s forbidden
  (List.range g.relations.length).reverse.flatMap fun v =>
    if near &&& bit v = 0 then []
    else (s, bit v) :: growComplement g s (bit v) (forbidden ||| (near &&& (below v ||| bit v)))

def growSubgraph (s forbidden : Mask) : List (Mask × Mask) := grow g (findComplements g) s forbidden

def pairs : List (Mask × Mask) :=
  (List.range g.relations.length).reverse.flatMap fun i =>
    findComplements g (bit i) ++ growSubgraph g (bit i) (below i ||| bit i)

/-- Pairs in order of the size of their union, then of the union. -/
def before (x y : Mask × Mask) : Bool :=
  let sx := x.1 ||| x.2
  let sy := y.1 ||| y.2
  if popcount sx ≠ popcount sy then popcount sx < popcount sy else sx < sy

def sortedPairs : List (Mask × Mask) := (pairs g).mergeSort fun x y => !before y x

/-- `Rows`, by the set the mask stands for. -/
def rows (s : Mask) : Int :=
  g.subsetRows ((Finset.range g.relations.length).filter fun r => s &&& bit r ≠ 0)

/-- The join of two solved subsets, if it is the cheapest for their union so far. -/
def consider (memo : Memo) (pair : Mask × Mask) : Option Memo :=
  let left := memo pair.1
  let right := memo pair.2
  if left.cost < 0 ∨ right.cost < 0 then none
  else
    let s := pair.1 ||| pair.2
    let total := saturated (left.cost + right.cost + rows g s + min (rows g pair.1) (rows g pair.2))
    let out := memo s
    if 0 ≤ out.cost ∧ out.cost ≤ total then some memo
    else
      let flip := lowest pair.2 < lowest pair.1
      some (Function.update memo s
        { cost := total
          left := if flip then pair.2 else pair.1
          right := if flip then pair.1 else pair.2 })

def singles : Memo :=
  (List.range g.relations.length).foldl
    (fun memo r => Function.update memo (bit r) { memo (bit r) with cost := 0 }) fun _ => {}

def solve : Option Memo := (sortedPairs g).foldlM (consider g) (singles g)

def all : Mask := BitVec.ofNat 32 (2 ^ g.relations.length - 1)

structure Emitted where
  operand : JoinOperand
  rows : Option Int

def emit (memo : Memo) (ratio : Int) :
    Nat → Mask → List JoinStep → Option (Emitted × List JoinStep)
  | 0, _, _ => none
  | fuel + 1, s, steps =>
    if popcount s = 1 then
      let r := lowest s
      some (⟨⟨false, r⟩, (g.relations.getD r ⟨none⟩).rows⟩, steps)
    else do
      let entry := memo s
      let (first, steps) ← emit memo ratio fuel entry.left steps
      let (second, steps) ← emit memo ratio fuel entry.right steps
      -- A side whose rows nothing knows is the left, so that the other is built.
      let unknownRight := second.rows.isNone && first.rows.isSome
      let left := if unknownRight then second else first
      let right := if unknownRight then first else second
      let leftMask := if unknownRight then entry.right else entry.left
      let rightMask := if unknownRight then entry.left else entry.right
      let crossing := (List.range g.edges.length).filter fun e =>
        joins (g.edgeAt e) leftMask rightMask
      let rows := g.joinRowsOf (max (left.rows.getD kLargest) 0) (max (right.rows.getD kLargest) 0)
        crossing
      let step : JoinStep :=
        { left := left.operand, right := right.operand, edges := crossing,
          build := chooseBuildSide left.rows right.rows ratio, estimate := rows }
      some (⟨⟨true, steps.length⟩, some rows⟩, steps ++ [step])

end Searcher

namespace Orderer

variable (g : JoinGraph)

def edgesOf (r : Nat) : List Nat :=
  (List.range g.edges.length).filter fun e => (g.edgeAt e).a = r ∨ (g.edgeAt e).b = r

/-- The edges between a candidate and the relations joined so far, ascending. -/
def crossing (joined : RelationSet) (candidate : Nat) : List Nat :=
  (edgesOf g candidate).filter fun e =>
    let edge := g.edgeAt e
    (if edge.a = candidate then edge.b else edge.a) ∈ joined

def estimate (joined : RelationSet) (candidate : Nat) (rows : Int) : Option Int :=
  let keys := crossing g joined candidate
  if keys = [] then none else some (g.joinRowsOf rows (g.blockRows candidate) keys)

def probe : Nat :=
  (List.range' 1 (g.relations.length - 1)).foldl
    (fun probe r => if g.blockRows r > g.blockRows probe then r else probe) 0

structure Walk where
  steps : List JoinStep
  joined : RelationSet
  left : JoinOperand
  rows : Int

def pick (walk : Walk) (found : Option (Nat × Int)) (c : Nat) : Option (Nat × Int) :=
  if c ∈ walk.joined then found
  else
    match estimate g walk.joined c walk.rows with
    | none => found
    | some rows =>
      match found with
      | none => some (c, rows)
      | some (_, smallest) => if rows < smallest then some (c, rows) else found

def next (walk : Walk) : Option (Nat × Int) :=
  (List.range g.relations.length).foldl (pick g walk) none

def add (ratio : Int) (walk : Walk) (relation : Nat) (estimate : Int) : Walk :=
  let step : JoinStep :=
    { left := walk.left, right := ⟨false, relation⟩, edges := crossing g walk.joined relation,
      build := chooseBuildSide (some walk.rows) (g.relations.getD relation ⟨none⟩).rows ratio,
      estimate }
  { steps := walk.steps ++ [step], joined := insert relation walk.joined,
    left := ⟨true, walk.steps.length⟩, rows := estimate }

def walkOn (ratio : Int) : Nat → Walk → Option Walk
  | 0, walk => some walk
  | left + 1, walk =>
    match next g walk with
    | none => none
    | some (relation, estimate) => walkOn ratio left (add g ratio walk relation estimate)

def greedy (ratio : Int) : Option (List JoinStep) :=
  if g.relations.length < 2 then some []
  else
    let first := probe g
    (walkOn g ratio (g.relations.length - 1) ⟨[], {first}, ⟨false, first⟩, g.blockRows first⟩).map
      (·.steps)

/-- The search's steps; the greedy walk's where it finds no plan. -/
def searched (ratio : Int) : Option (List JoinStep) := do
  let memo ← Searcher.solve g
  if 0 ≤ (memo (Searcher.all g)).cost then
    let (_, steps) ← Searcher.emit g memo ratio g.relations.length (Searcher.all g) []
    return steps
  else greedy g ratio

end Orderer

inductive JoinOrderSearch where
  | cost
  | greedy
  deriving DecidableEq, Repr

def kSearchRelations : Nat := 12

def orderJoins (g : JoinGraph) (ratio : Int) (search : JoinOrderSearch) : Option (List JoinStep) :=
  if ratio < 100 then none
  else if search = .cost ∧ 2 ≤ g.relations.length ∧ g.relations.length ≤ kSearchRelations then
    Orderer.searched g ratio
  else Orderer.greedy g ratio

end Antb1.Plan.JoinOrder
