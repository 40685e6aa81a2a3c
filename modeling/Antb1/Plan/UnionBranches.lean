import Antb1.Plan.BranchTruth
import Antb1.Plan.LogicalPlan

/-! Filters moved into the branches of a UNION ALL, and the branches they rule out
dropped: `plan/union_branches.cc`. -/
namespace Antb1.Plan

open LogicalNode

variable {predicates : List Predicate} {branch : LogicalNode × List BoundColumn}

def positionOf (ids : List ColumnId) (id : ColumnId) : Option Nat := ids.idxOf? id

def widen (constant : Constant) (target : LogicalType) : Option Constant :=
  if constant.type = target then some constant
  else match constant.value with
  | .int value =>
    if isExactWidening constant.type target = false then none
    else if target.isInteger then
      if constant.type.isInteger = false ∨ value < (rangeOf target).min ∨
        value > (rangeOf target).max then none
      else some ⟨target, .int value⟩
    else if target.isDecimal = false ∨ constant.type.isExactNumber = false then none
    else if constant.type.scale > target.scale then none
    else (rescaleUp value constant.type.scale target.scale).bind fun scaled =>
      if scaled ≥ 10 ^ target.width ∨ scaled ≤ -(10 ^ target.width) then none
      else some ⟨target, .int scaled⟩
  | _ => none

/-- The constant a column holds in every row of a plan, where that is certain. -/
def constantColumn : LogicalNode → ColumnId → Option Constant
  | .filter input _ _, id | .sort input _, id | .limit input _ _, id => constantColumn input id
  | .compute input exprs ids, id =>
    match positionOf ids id with
    | none => constantColumn input id
    | some position =>
      match exprs[position]? with
      | some (.constant value _) => some value
      | some (.cast (.column column type) target) =>
        (constantColumn input column.id).bind fun source =>
          if source.type = type then widen source target else none
      | _ => none
  | .project _ columns constants ids, id =>
    (positionOf ids id).bind fun position =>
      match columns[position]?, constants[position]? with
      | some column, some (some constant) =>
        if constant.type = column.type then some constant else none
      | _, _ => none
  | .scan _ _ _, _ | .aggregate _ _, _ | .groupAggregate _ _ _ _, _ | .rowCount _ _, _
  | .join _ _ _, _ | .dependentJoin _ _ _ _, _ | .unionAll _ _ _, _
  | .groupingSets _ _ _ _ _ _, _ | .setOperation _ _ _ _, _ => none

/-- The constant of a column the predicate reads, in a branch. -/
def branchConstant (ids : List ColumnId) (input : LogicalNode) (columns : List BoundColumn)
    (column : Option BoundColumn) : Option Constant :=
  column.bind fun column => (positionOf ids column.id).bind fun position =>
    (columns[position]?).bind fun source => (constantColumn input source.id).bind fun value =>
      if value.type = source.type then some value else none

/-- What a predicate over a union is in every row of one of its branches. -/
def truthInBranch (ids : List ColumnId) (input : LogicalNode) (columns : List BoundColumn)
    (p : Predicate) : BranchTruth :=
  truthOver p (branchConstant ids input columns p.column) (branchConstant ids input columns p.other)

/-- A column the predicate reads, in the branch; its type stays the union's. -/
def sideInBranch (ids : List ColumnId) (columns : List BoundColumn) :
    Option BoundColumn → Option (Option BoundColumn)
  | none => some none
  | some side => (positionOf ids side.id).bind fun position =>
    (columns[position]?).map fun source => some { side with id := source.id }

def inBranch (ids : List ColumnId) (columns : List BoundColumn) (p : Predicate) :
    Option Predicate :=
  (sideInBranch ids columns p.column).bind fun column =>
    (sideInBranch ids columns p.other).map fun other => { p with column := column, other := other }

/-- Whether a Filter's predicates may move into a union's branches. -/
def movable (predicates : List Predicate) (inputs : List LogicalNode)
    (columns : List (List BoundColumn)) (ids : List ColumnId) : Bool :=
  !predicates.isEmpty && !inputs.isEmpty && columns.length == inputs.length &&
    predicates.all fun p => p.kind ≠ .isFalse && p.column.any (fun c => (positionOf ids c.id).isSome) &&
      p.other.all fun c => (positionOf ids c.id).isSome

/-- The predicates left of a branch: `some none` where one rules it out, none where a column is
not the branch's. -/
def branchPredicates (ids : List ColumnId) (input : LogicalNode) (columns : List BoundColumn) :
    List Predicate → Option (Option (List Predicate))
  | [] => some (some [])
  | p :: rest =>
    match truthInBranch ids input columns p with
    | .never => some none
    | .always => branchPredicates ids input columns rest
    | .unknown => (inBranch ids columns p).bind fun moved =>
      (branchPredicates ids input columns rest).map (Option.map (moved :: ·))

def withPredicates (input : LogicalNode) (kept : List Predicate) : LogicalNode :=
  if kept = [] then input else .filter input kept none

def branchesLeft (predicates : List Predicate) (ids : List ColumnId) :
    List (LogicalNode × List BoundColumn) → Option (List (LogicalNode × List BoundColumn))
  | [] => some []
  | (input, columns) :: rest =>
    (branchPredicates ids input columns predicates).bind fun kept =>
      (branchesLeft predicates ids rest).map fun left =>
        match kept with
        | none => left
        | some kept => (withPredicates input kept, columns) :: left

namespace LogicalNode

mutual

def height : LogicalNode → Nat
  | .scan _ _ _ | .rowCount _ _ => 1
  | .filter input _ _ | .compute input _ _ | .project input _ _ _ | .aggregate input _
  | .groupAggregate input _ _ _ | .sort input _ | .limit input _ _
  | .groupingSets input _ _ _ _ _ => input.height + 1
  | .join _ left right | .dependentJoin _ left right _ => max left.height right.height + 1
  | .unionAll inputs _ _ | .setOperation inputs _ _ _ => heightEach inputs + 1

def heightEach : List LogicalNode → Nat
  | [] => 0
  | node :: rest => max node.height (heightEach rest)

end

def mapInputs : (node : LogicalNode) → (∀ input ∈ node.inputsOf, LogicalNode) → LogicalNode
  | .scan table fields ids, _ => .scan table fields ids
  | .rowCount table id, _ => .rowCount table id
  | .filter input predicates needed, f => .filter (f input (by simp [inputsOf])) predicates needed
  | .compute input exprs ids, f => .compute (f input (by simp [inputsOf])) exprs ids
  | .project input columns constants ids, f =>
    .project (f input (by simp [inputsOf])) columns constants ids
  | .aggregate input calls, f => .aggregate (f input (by simp [inputsOf])) calls
  | .groupAggregate input keys keyIds calls, f =>
    .groupAggregate (f input (by simp [inputsOf])) keys keyIds calls
  | .sort input keys, f => .sort (f input (by simp [inputsOf])) keys
  | .limit input count offset, f => .limit (f input (by simp [inputsOf])) count offset
  | .join spec left right, f =>
    .join spec (f left (by simp [inputsOf])) (f right (by simp [inputsOf]))
  | .dependentJoin kind left right mark, f =>
    .dependentJoin kind (f left (by simp [inputsOf])) (f right (by simp [inputsOf])) mark
  | .unionAll inputs columns ids, f =>
    .unionAll (inputs.attach.map fun input => f input.1 input.2) columns ids
  | .groupingSets input keys keyIds sets calls grouping, f =>
    .groupingSets (f input (by simp [inputsOf])) keys keyIds sets calls grouping
  | .setOperation inputs columns ids formula, f =>
    .setOperation (inputs.attach.map fun input => f input.1 input.2) columns ids formula

theorem height_le_heightEach {input : LogicalNode} {inputs : List LogicalNode}
    (member : input ∈ inputs) : input.height ≤ heightEach inputs := by
  induction inputs with
  | nil => cases member
  | cons first rest ih =>
    rw [heightEach]
    rcases List.mem_cons.mp member with rfl | later
    · exact Nat.le_max_left ..
    · exact (ih later).trans (Nat.le_max_right ..)

theorem height_lt_of_input {node input : LogicalNode} (member : input ∈ node.inputsOf) :
    input.height < node.height := by
  cases node with
  | scan _ _ _ | rowCount _ _ => cases member
  | filter _ _ _ | compute _ _ _ | project _ _ _ _ | aggregate _ _ | groupAggregate _ _ _ _
  | sort _ _ | limit _ _ _ | groupingSets _ _ _ _ _ _ =>
    rw [inputsOf, List.mem_singleton] at member
    rw [member, height]
    exact Nat.lt_succ_self _
  | join _ _ _ | dependentJoin _ _ _ _ =>
    simp only [inputsOf, List.mem_cons, List.not_mem_nil, or_false] at member
    rw [height]
    rcases member with rfl | rfl <;> omega
  | unionAll _ _ _ | setOperation _ _ _ _ =>
    rw [height]
    exact Nat.lt_succ_of_le (height_le_heightEach member)

end LogicalNode

theorem height_withPredicates_le (input : LogicalNode) (kept : List Predicate) :
    (withPredicates input kept).height ≤ input.height + 1 := by
  rw [withPredicates]
  split_ifs
  · exact Nat.le_succ _
  · rw [height]

/-- The branches left of a union under a Filter; none where its predicates stay. -/
def intoBranches (predicates : List Predicate) (inputs : List LogicalNode)
    (columns : List (List BoundColumn)) (ids : List ColumnId) :
    Option (List (LogicalNode × List BoundColumn)) :=
  if movable predicates inputs columns ids then branchesLeft predicates ids (inputs.zip columns)
  else none

theorem branchesLeft_height {ids : List ColumnId}
    {branches left : List (LogicalNode × List BoundColumn)}
    (found : branchesLeft predicates ids branches = some left) (member : branch ∈ left) :
    ∃ input ∈ branches.map Prod.fst, branch.1.height ≤ input.height + 1 := by
  induction branches generalizing left with
  | nil =>
    cases found
    cases member
  | cons first rest ih =>
    obtain ⟨kept, -, mapped⟩ := Option.bind_eq_some_iff.mp found
    obtain ⟨others, later, rfl⟩ := Option.map_eq_some_iff.mp mapped
    have among : branch ∈ others → ∃ input ∈ (first :: rest).map Prod.fst,
        branch.1.height ≤ input.height + 1 := by
      intro inside
      obtain ⟨input, member, le⟩ := ih later inside
      exact ⟨input, List.mem_cons_of_mem _ member, le⟩
    cases kept with
    | none => exact among member
    | some kept =>
      rcases List.mem_cons.mp member with rfl | inside
      · exact ⟨first.1, by simp, height_withPredicates_le _ _⟩
      · exact among inside

theorem intoBranches_height {inputs : List LogicalNode} {columns : List (List BoundColumn)}
    {ids : List ColumnId} {left : List (LogicalNode × List BoundColumn)}
    (found : intoBranches predicates inputs columns ids = some left) (member : branch ∈ left) :
    branch.1.height ≤ heightEach inputs + 1 := by
  rw [intoBranches] at found
  split_ifs at found
  obtain ⟨input, among, le⟩ := branchesLeft_height found member
  obtain ⟨pair, inside, rfl⟩ := List.mem_map.mp among
  have bound := height_le_heightEach (List.of_mem_zip inside).1
  omega

/-- Every Filter directly above a UnionAll goes into the union's branches; a union none of whose
branches is left becomes a FALSE Filter over its first branch. -/
def filterIntoUnionBranches (root : LogicalNode) : LogicalNode :=
  match root with
  | .filter (.unionAll inputs columns ids) predicates needed =>
    match _found : intoBranches predicates inputs columns ids with
    | none => .filter (filterIntoUnionBranches (.unionAll inputs columns ids)) predicates needed
    | some left =>
      if left.isEmpty then
        .filter (.unionAll ((inputs.attach.take 1).map fun input => filterIntoUnionBranches input.1)
          (columns.take 1) ids) [{ kind := .isFalse }] none
      else .unionAll (left.attach.map fun branch => filterIntoUnionBranches branch.1.1)
        (left.map Prod.snd) ids
  | root => root.mapInputs fun input _ => filterIntoUnionBranches input
termination_by root.height
decreasing_by
  · exact height_lt_of_input (by simp [inputsOf])
  · have bound := height_le_heightEach input.2
    simp only [height]
    omega
  · have bound := intoBranches_height _found branch.2
    simp only [height]
    omega
  · exact height_lt_of_input (by assumption)

end Antb1.Plan
