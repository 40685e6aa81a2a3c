import Antb1.Exec.DynamicFilter
import Antb1.Exec.KeyFilterProofs
import Antb1.Lib.Thinning
import Antb1.Plan.SemanticsProofs

/-! Dynamic join filters leave the rows of a part pipeline as they are, and find the join's key at
the scan. -/
namespace Antb1.Exec

open Plan Join Lib List Option

variable {builds : List (List Tuple)} {build : List Tuple} {scan : ScanNode}
  {left right : LogicalNode} {top : LogicalNode} {rows out : List Tuple} {node : LogicalNode}

theorem shapeOf_ok {join : JoinNode} {shape : JoinShape} (ok : shapeOf join = .ok shape) :
    shape = ⟨join.spec.keys.map join.probeKey, join.spec.keys.map join.buildKey⟩ := by
  simp only [shapeOf, bind, Except.bind, pure, Except.pure, throw, throwThe,
    MonadExceptOf.throw] at ok
  repeat' split at ok
  all_goals simp_all

/-- The column of a join's rows that holds a column of its probe rows. -/
def JoinNode.above (join : JoinNode) (column : Nat) : Nat :=
  if join.spec.build = .right then column else join.left.outputIds.length + column

/-- The walk from a node's column down to the scan's. -/
inductive Walks : LogicalNode → Nat → Nat → Prop where
  | scan {table fields ids column} : Walks (.scan table fields ids) column column
  | filter {input predicates needed column position} (below : Walks input column position) :
      Walks (.filter input predicates needed) column position
  | join {spec left right column position}
      (quiet : emitsBuildRows spec.kind spec.build = false)
      (both : spec.build = .left → spec.kind.traits.outputsRight = true)
      (below : Walks (JoinNode.mk spec left right).probe column position) :
      Walks (.join spec left right) (JoinNode.above ⟨spec, left, right⟩ column) position

theorem scanPosition_walks {column position : Int} (inside : 0 ≤ column)
    (walked : scanPosition node column = some position) :
    0 ≤ position ∧ Walks node column.toNat position.toNat := by
  fun_induction scanPosition node column with
  | case1 =>
    cases walked
    exact ⟨inside, .scan⟩
  | case2 input predicates needed column ih =>
    exact (ih inside walked).imp id .filter
  | case4 spec left right column quiet side ih =>
    refine (ih inside walked).imp id fun below => ?_
    have walks : Walks (.join spec left right) _ _ :=
      .join (by simpa using quiet) (by simp [side]) (by simpa only [JoinNode.probe, side] using below)
    rwa [JoinNode.above, if_pos side] at walks
  | case8 spec left right column quiet side before both _ after ih =>
    have shifted : column.toNat = left.outputIds.length + (column - left.outputIds.length).toNat := by
      have : before.length = left.outputIds.length := rfl
      omega
    refine (ih (by omega) walked).imp id fun below => ?_
    have walks : Walks (.join spec left right) _ _ := .join (by simpa using quiet)
      (fun _ => by simpa using both) (by simpa only [JoinNode.probe, side] using below)
    rwa [JoinNode.above, if_neg (by simp [side]), ← shifted] at walks
  | _ => contradiction

theorem pipelineScan_join (spec : JoinSpec) (left right : LogicalNode) :
    pipelineScan (.join spec left right) = pipelineScan (JoinNode.mk spec left right).probe := by
  rw [pipelineScan, JoinNode.probe]
  cases spec.build <;> rfl

namespace Walks

variable {column position : Nat}

/-- A position among the scan's columns comes from a column of the node, with the same id. -/
theorem column_id (walks : Walks node column position) (found : pipelineScan node = some scan)
    (inside : position < scan.ids.length) :
    node.outputIds[column]? = scan.ids[position]? := by
  induction walks with
  | scan =>
    cases found
    rfl
  | filter _ ih => exact ih found inside
  | @join spec left right column position _ both _ ih =>
    rw [pipelineScan_join] at found
    have same := ih found inside
    rw [← same, LogicalNode.outputIds, LogicalNode.joinIds, JoinNode.above]
    unfold JoinNode.probe at same ⊢
    cases side : spec.build <;> simp only [side] at same ⊢
    · simp [both side, getElem?_append_right]
    · have within : column < left.outputIds.length := by
        rw [getElem?_eq_getElem inside] at same
        exact (List.getElem?_eq_some_iff.mp same).1
      rw [if_pos trivial, append_assoc, getElem?_append_left within]

theorem column_lt (walks : Walks node column position) (found : pipelineScan node = some scan)
    (inside : position < scan.ids.length) :
    column < node.outputIds.length := by
  have same := walks.column_id found inside
  rw [getElem?_eq_getElem inside] at same
  exact (List.getElem?_eq_some_iff.mp same).1

end Walks

theorem probeColumn_some {join : JoinNode} {column : Int} (some_ : probeColumn join = some column) :
    probeDropsUnmatchedRows join.spec.kind join.spec.build = true ∧
      ∃ key, join.spec.keys = [key] ∧ 0 ≤ (join.probeKey key).index ∧ 0 ≤ column ∧
        Walks join.probe (join.probeKey key).index.toNat column.toNat := by
  unfold probeColumn at some_
  split at some_
  · contradiction
  rename_i drops
  split at some_
  · contradiction
  rename_i shape ok
  have isShape := shapeOf_ok ok
  split at some_
  · contradiction
  split at some_
  · rename_i probeKey only
    split at some_
    · contradiction
    · rw [isShape] at only
      simp only [map_eq_singleton_iff] at only
      obtain ⟨key, isKey, rfl⟩ := only
      obtain ⟨inside, walks⟩ := scanPosition_walks (by omega) some_
      exact ⟨by simpa using drops, key, isKey, by omega, inside, walks⟩
  · contradiction

theorem keepM_subset {α : Type} {test : α → Option Bool} {xs ys : List α}
    (kept : keepM test xs = some ys) : ys ⊆ xs := by
  induction xs generalizing ys with
  | nil =>
    cases kept
    exact List.Subset.refl _
  | cons x xs ih =>
    simp only [keepM, bind_eq_some_iff, map_eq_some_iff] at kept
    obtain ⟨keep, -, rest, later, rfl⟩ := kept
    have subset := ih later
    split
    · exact cons_subset_cons x subset
    · exact subset_cons_of_subset x subset

theorem thins_keepM {α : Type} {out : α → Prop} {test : α → Option Bool} {xs ys kept : List α}
    (thins : Thins out xs ys) (run : keepM test xs = some kept) :
    ∃ kept', keepM test ys = some kept' ∧ Thins out kept kept' := by
  induction thins generalizing kept with
  | nil => exact ⟨kept, run, .refl kept⟩
  | keep x _ ih =>
    simp only [keepM, bind_eq_some_iff, map_eq_some_iff] at run
    obtain ⟨keep, tested, rest, later, rfl⟩ := run
    obtain ⟨rest', later', thinned⟩ := ih later
    refine ⟨if keep then x :: rest' else rest', by simp [keepM, tested, later'], ?_⟩
    split
    · exact .keep x thinned
    · exact thinned
  | drop left _ ih =>
    simp only [keepM, bind_eq_some_iff, map_eq_some_iff] at run
    obtain ⟨keep, tested, rest, later, rfl⟩ := run
    obtain ⟨rest', later', thinned⟩ := ih later
    refine ⟨rest', later', ?_⟩
    split
    · exact .drop left thinned
    · exact thinned

namespace EquiJoin

variable {join : EquiJoin}

/-- A row that matches nothing gives nothing where the join drops such rows. -/
theorem probeRows_unmatched (drops : probeDropsUnmatchedRows join.kind join.side = true)
    (probe : Tuple) : join.probeRows build probe [] = [] := by
  unfold probeRows keeps padsProbe
  unfold probeDropsUnmatchedRows at drops
  cases kind : join.kind <;> cases side : join.side <;>
    simp_all [JoinKind.traits, emitsBuildRows]

/-- Probe rows without a candidate may be left out of a join that drops them. -/
theorem rows_thinned (drops : probeDropsUnmatchedRows join.kind join.side = true)
    {probe kept out : List Tuple}
    (thins : Thins (fun row => build.filter (join.isCandidate row) = []) probe kept)
    (run : join.rows build probe = some out) : join.rows build kept = some out := by
  unfold rows at run ⊢
  split at run
  · contradiction
  · rename_i keyed
    rw [if_neg keyed]
    obtain ⟨found, mapped, rfl⟩ := Option.map_eq_some_iff.mp run
    obtain ⟨found', mapped', thinned⟩ := thins.mapM mapped
    rw [mapped', map_some]
    have unmatched : ∀ row : Tuple × List Tuple,
        (∃ probe, build.filter (join.isCandidate probe) = [] ∧
          (join.matchesOf build probe).map (fun found => (probe, found)) = some row) →
        row.2 = [] := by
      rintro row ⟨probe, none, isRow⟩
      rw [matchesOf, none] at isRow
      cases isRow
      rfl
    have same := thinned.flatMap_eq (f := fun row => join.probeRows build row.1 row.2)
      fun row left => by rw [unmatched row left, probeRows_unmatched drops]
    have marks : ∀ row, (found.any fun probe => row ∈ probe.2) =
        found'.any fun probe => row ∈ probe.2 := by
      intro row
      exact thinned.any_eq fun probe left => by simp [unmatched probe left]
    simp only [same, buildRows, marks]

theorem matchesOf_subset {probe : Tuple} {found : List Tuple}
    (matched : join.matchesOf build probe = some found) : found ⊆ build :=
  List.Subset.trans (keepM_subset matched) filter_sublist.subset

/-- What a probe row gives: itself, or itself with a build row or NULLs. -/
theorem mem_probeRows {probe row : Tuple} {found : List Tuple}
    (member : row ∈ join.probeRows build probe found) :
    (join.kind.traits.outputsRight = true ∧
      ∃ other, (other ∈ found ∨ other = nulls join.buildWidth) ∧ row = join.pair probe other) ∨
    (join.kind.traits.outputsRight = false ∧ join.side = .right ∧ row = probe) := by
  unfold probeRows at member
  split at member
  · rename_i both
    refine .inl ⟨both, ?_⟩
    split at member
    · exact ⟨_, .inr rfl, mem_singleton.mp member⟩
    · obtain ⟨other, isFound, rfl⟩ := mem_map.mp member
      exact ⟨other, .inl isFound, rfl⟩
  · rename_i one
    have one : join.kind.traits.outputsRight = false := by simpa using one
    split at member
    · contradiction
    · rename_i quiet
      split at member
      · refine .inr ⟨one, ?_, mem_singleton.mp member⟩
        cases kind : join.kind <;> cases side : join.side <;>
          simp_all [JoinKind.traits, emitsBuildRows]
      · contradiction

/-- The probe rows' matches, in a run of a join that emits no build rows. -/
theorem rows_quiet (quiet : emitsBuildRows join.kind join.side = false)
    {probe out : List Tuple} (run : join.rows build probe = some out) :
    ∃ found, (probe.mapM fun row => (join.matchesOf build row).map fun found => (row, found)) =
      some found ∧ out = found.flatMap fun row => join.probeRows build row.1 row.2 := by
  unfold rows at run
  split at run
  · contradiction
  · obtain ⟨found, mapped, rfl⟩ := Option.map_eq_some_iff.mp run
    exact ⟨found, mapped, by simp [buildRows, quiet]⟩

/-- Where every row of a dropped probe row is `other`, fewer probe rows leave out only those. -/
theorem rows_thins (quiet : emitsBuildRows join.kind join.side = false) {dead other : Tuple → Prop}
    {probe kept out : List Tuple} (thins : Thins dead probe kept)
    (dies : ∀ row found, dead row → found ⊆ build → ∀ y ∈ join.probeRows build row found, other y)
    (run : join.rows build probe = some out) :
    ∃ out', join.rows build kept = some out' ∧ Thins other out out' := by
  obtain ⟨found, mapped, rfl⟩ := rows_quiet quiet run
  obtain ⟨found', mapped', thinned⟩ := thins.mapM mapped
  have keyed : ¬(join.kind.traits.keyless = true ∧ build.length ≠ 1) := by
    intro keyless
    rw [rows, if_pos keyless] at run
    contradiction
  refine ⟨_, by rw [rows, if_neg keyed, mapped', map_some], ?_⟩
  rw [buildRows, if_neg (by simp [quiet]), append_nil]
  apply thinned.flatMap
  rintro row ⟨probe, isDead, isRow⟩ y member
  obtain ⟨found, matched, rfl⟩ := Option.map_eq_some_iff.mp isRow
  exact dies probe found isDead (matchesOf_subset matched) y member

end EquiJoin

def Wide (width : Nat) (rows : List Tuple) : Prop := ∀ row ∈ rows, row.length = width

/-- The build rows of a pipeline's joins have the columns of their build inputs. -/
def BuildsFit (node : LogicalNode) (builds : List (List Tuple)) : Prop :=
  List.Forall₂ (fun (join : JoinNode) build => Wide join.build.outputIds.length build)
    (pipelineJoins node) builds

section Run

variable {evaluator : Evaluator} {probe : List Tuple} {column position : Nat} {dead : Value → Prop}

theorem pair_length (join : EquiJoin) (probe other : Tuple) :
    (join.pair probe other).length = probe.length + other.length := by
  unfold EquiJoin.pair
  cases join.side
  · rw [length_append, Nat.add_comm]
  · exact length_append

theorem pipelineJoins_join (spec : JoinSpec) (left right : LogicalNode) :
    pipelineJoins (.join spec left right) =
      ⟨spec, left, right⟩ :: pipelineJoins (JoinNode.mk spec left right).probe := by
  rw [pipelineJoins, JoinNode.probe]
  cases spec.build <;> rfl

/-- A run of a join: of its probe input with the builds below, then of the join itself. -/
theorem runPipeline_join {spec : JoinSpec}
    (run : runPipeline evaluator (.join spec left right) builds rows = some out) :
    ∃ build rest probe, builds = build :: rest ∧
      runPipeline evaluator (JoinNode.mk spec left right).probe rest rows = some probe ∧
      (equiJoin evaluator ⟨spec, left, right⟩).rows build probe = some out := by
  cases builds with
  | nil => contradiction
  | cons build rest =>
    rw [runPipeline] at run
    obtain ⟨probe, ran, joined⟩ := Option.bind_eq_some_iff.mp run
    refine ⟨build, rest, probe, rfl, ?_, joined⟩
    rw [JoinNode.probe]
    cases side : spec.build <;> simpa [side] using ran

theorem runPipeline_cons {spec : JoinSpec} {rest : List (List Tuple)}
    (ran : runPipeline evaluator (JoinNode.mk spec left right).probe rest rows = some probe) :
    runPipeline evaluator (.join spec left right) (build :: rest) rows =
      (equiJoin evaluator ⟨spec, left, right⟩).rows build probe := by
  rw [runPipeline]
  rw [JoinNode.probe] at ran
  cases side : spec.build <;> simp [side] at ran ⊢ <;> rw [ran, bind_some]

theorem BuildsFit.join {spec : JoinSpec} {rest : List (List Tuple)}
    (fit : BuildsFit (.join spec left right) (build :: rest)) :
    Wide (JoinNode.mk spec left right).build.outputIds.length build ∧
      BuildsFit (JoinNode.mk spec left right).probe rest := by
  rw [BuildsFit, pipelineJoins_join] at fit
  exact forall₂_cons.mp fit

/-- The build row or the NULLs a probe row comes with are as wide as the build input. -/
theorem other_wide {join : JoinNode} {build found : List Tuple} {other : Tuple}
    (wide : Wide join.build.outputIds.length build) (subset : found ⊆ build)
    (isOther : other ∈ found ∨ other = nulls (equiJoin evaluator join).buildWidth) :
    other.length = join.build.outputIds.length := by
  rcases isOther with member | rfl
  · exact wide other (subset member)
  · exact length_replicate

theorem rows_wide {join : JoinNode}
    (quiet : emitsBuildRows join.spec.kind join.spec.build = false)
    (buildWide : Wide join.build.outputIds.length build)
    (probeWide : Wide join.probe.outputIds.length probe)
    (run : (equiJoin evaluator join).rows build probe = some out) :
    Wide (LogicalNode.join join.spec join.left join.right).outputIds.length out := by
  have ids : (LogicalNode.join join.spec join.left join.right).outputIds =
      join.left.outputIds ++ if join.spec.kind.traits.outputsRight then join.right.outputIds else []
    := by simp [LogicalNode.outputIds, LogicalNode.joinIds]
  obtain ⟨found, mapped, rfl⟩ := EquiJoin.rows_quiet quiet run
  intro row member
  obtain ⟨entry, isEntry, isRow⟩ := mem_flatMap.mp member
  obtain ⟨probeRow, isProbe, matched⟩ := mem_mapM mapped isEntry
  obtain ⟨matches_, isMatches, rfl⟩ := Option.map_eq_some_iff.mp matched
  have width := probeWide probeRow isProbe
  rw [ids, length_append]
  rcases EquiJoin.mem_probeRows isRow with ⟨both, other, isOther, rfl⟩ | ⟨one, side, rfl⟩
  · have otherWidth := other_wide buildWide (EquiJoin.matchesOf_subset isMatches) isOther
    have both : join.spec.kind.traits.outputsRight = true := both
    rw [pair_length, width, otherWidth, if_pos both, JoinNode.probe, JoinNode.build]
    cases join.spec.build
    · exact Nat.add_comm _ _
    · rfl
  · have one : join.spec.kind.traits.outputsRight = false := one
    have side : join.spec.build = .right := side
    rw [width, one, JoinNode.probe, side]
    rfl

theorem runPipeline_wide (walks : Walks node column position)
    (found : pipelineScan node = some scan) (fit : BuildsFit node builds)
    (wide : Wide scan.ids.length rows) (run : runPipeline evaluator node builds rows = some out) :
    Wide node.outputIds.length out := by
  induction walks generalizing builds out with
  | scan =>
    cases found
    cases run
    exact wide
  | filter _ ih =>
    rw [runPipeline] at run
    obtain ⟨below, ran, kept⟩ := Option.bind_eq_some_iff.mp run
    have belowWide := ih found fit ran
    exact fun row member => belowWide row (keepM_subset kept member)
  | join quiet _ _ ih =>
    obtain ⟨build, rest, probe, rfl, ran, joined⟩ := runPipeline_join run
    obtain ⟨buildWide, restFit⟩ := fit.join
    rw [pipelineScan_join] at found
    exact rows_wide quiet buildWide (ih found restFit ran) joined

/-- A column of a join's rows that holds a column of its probe rows. -/
def Carries (join : EquiJoin) (build probe : List Tuple) (column above : Nat) : Prop :=
  ∀ row ∈ probe, ∀ found ⊆ build, ∀ y ∈ join.probeRows build row found,
    y.getD above .null = row.getD column .null

theorem carries_above {join : JoinNode} (within : ∀ row ∈ probe, column < row.length)
    (wide : Wide join.build.outputIds.length build) :
    Carries (equiJoin evaluator join) build probe column (join.above column) := by
  intro row isProbe found subset y member
  have isSide : (equiJoin evaluator join).side = join.spec.build := rfl
  rcases EquiJoin.mem_probeRows member with ⟨-, other, isOther, rfl⟩ | ⟨-, isRight, rfl⟩
  · have width := other_wide wide subset isOther
    unfold JoinNode.build at width
    rw [EquiJoin.pair, isSide, JoinNode.above]
    cases side : join.spec.build <;> simp only [side] at width ⊢
    · rw [if_neg nofun, ← width]
      exact (getD_append_right _ _ _ _ (Nat.le_add_right _ _)).trans
        (by rw [Nat.add_sub_cancel_left])
    · exact getD_append _ _ _ _ (within row isProbe)
  · rw [JoinNode.above, if_pos (isSide.symm.trans isRight)]

theorem Carries.thins {join : EquiJoin} {build probe kept out : List Tuple} {column above : Nat}
    (carries : Carries join build probe column above)
    (quiet : emitsBuildRows join.kind join.side = false)
    (thins : Thins (fun row => dead (row.getD column .null)) probe kept)
    (run : join.rows build probe = some out) :
    ∃ out', join.rows build kept = some out' ∧
      Thins (fun row => dead (row.getD above .null)) out out' := by
  have among : Thins (fun row => row ∈ probe ∧ dead (row.getD column .null)) probe kept :=
    thins.mono fun row member isDead => ⟨member, isDead⟩
  refine EquiJoin.rows_thins quiet among ?_ run
  rintro row found ⟨isProbe, isDead⟩ subset y member
  rw [carries row isProbe found subset y member]
  exact isDead

/-- Rows left out of the scan for their key leave out rows with that key above. -/
theorem thinned_below (walks : Walks node column position) {rows kept out : List Tuple}
    (found : pipelineScan node = some scan) (inside : position < scan.ids.length)
    (fit : BuildsFit node builds) (wide : Wide scan.ids.length rows)
    (thins : Thins (fun row => dead (row.getD position .null)) rows kept)
    (run : runPipeline evaluator node builds rows = some out) :
    ∃ out', runPipeline evaluator node builds kept = some out' ∧
      Thins (fun row => dead (row.getD column .null)) out out' := by
  induction walks generalizing builds out with
  | scan =>
    cases run
    exact ⟨kept, rfl, thins⟩
  | filter _ ih =>
    rw [runPipeline] at run
    obtain ⟨below, ran, tested⟩ := Option.bind_eq_some_iff.mp run
    obtain ⟨below', ran', thinned⟩ := ih found inside fit thins ran
    obtain ⟨out', tested', thinned'⟩ := thins_keepM thinned tested
    exact ⟨out', by rw [runPipeline, ran', bind_some, tested'], thinned'⟩
  | join quiet _ below ih =>
    obtain ⟨build, rest, probe, rfl, ran, joined⟩ := runPipeline_join run
    obtain ⟨buildWide, restFit⟩ := fit.join
    rw [pipelineScan_join] at found
    have probeWide := runPipeline_wide below found restFit wide ran
    have within : ∀ row ∈ probe, _ < row.length := fun row member =>
      probeWide row member ▸ below.column_lt found inside
    obtain ⟨probe', ran', thinned⟩ := ih found inside restFit thins ran
    obtain ⟨out', joined', thinned'⟩ := (carries_above within buildWide).thins quiet thinned joined
    exact ⟨out', (runPipeline_cons ran').trans joined', thinned'⟩

def NoMatch (build : List Tuple) (column : Nat) (value : Value) : Prop :=
  value = .null ∨ ∀ row ∈ build, row.getD column .null ≠ value

theorem NoMatch.no_candidate {join : JoinNode} {key : JoinKey} (only : join.spec.keys = [key])
    {row : Tuple} (none : NoMatch build (join.buildKey key).index.toNat
      (row.getD (join.probeKey key).index.toNat .null)) :
    build.filter ((equiJoin evaluator join).isCandidate row) = [] := by
  simp only [filter_eq_nil_iff, EquiJoin.isCandidate, equiJoin, only, keyAt, EquiJoin.hasNull,
    map_cons, map_nil, any_cons, any_nil, Bool.or_false, Bool.and_eq_true,
    Bool.not_eq_true', decide_eq_false_iff_not, decide_eq_true_eq, List.cons.injEq, and_true]
  rintro other member ⟨notNull, same⟩
  rcases none with null | others
  · exact notNull null
  · exact others other member same.symm

theorem pipelineScan_of_join {join : JoinNode} (member : join ∈ pipelineJoins top) :
    pipelineScan top = pipelineScan join.probe := by
  fun_induction pipelineJoins top with
  | case1 input predicates needed ih | case2 input computed ids ih | case3 input columns constants ids ih =>
    exact ih member
  | case4 spec left right ihRight ihLeft =>
    rw [pipelineScan_join]
    rcases mem_cons.mp member with rfl | below
    · rfl
    · unfold JoinNode.probe
      cases side : spec.build
      · exact ihRight (by simpa [side] using below)
      · exact ihLeft (by simpa [side] using below)
  | _ => contradiction

/-- A run of a pipeline goes through each of its joins: the same rows from the join give the same
answer. -/
def Through (evaluator : Evaluator) (top : LogicalNode) (builds : List (List Tuple))
    (join : JoinNode) (build rows out : List Tuple) : Prop :=
  ∃ rest probe joined, BuildsFit join.probe rest ∧
    runPipeline evaluator join.probe rest rows = some probe ∧
    (equiJoin evaluator join).rows build probe = some joined ∧
    ∀ kept probe', runPipeline evaluator join.probe rest kept = some probe' →
      (equiJoin evaluator join).rows build probe' = some joined →
      runPipeline evaluator top builds kept = some out

theorem runPipeline_through {place : Nat} {join : JoinNode}
    (isJoin : (pipelineJoins top)[place]? = some join) (isBuild : builds[place]? = some build)
    (fit : BuildsFit top builds) (run : runPipeline evaluator top builds rows = some out) :
    Through evaluator top builds join build rows out := by
  fun_induction pipelineJoins top generalizing builds place out with
  | case1 input predicates needed ih =>
    rw [runPipeline] at run
    obtain ⟨below, ran, tested⟩ := Option.bind_eq_some_iff.mp run
    obtain ⟨rest, probe, joined, restFit, probed, ranJoin, again⟩ := ih isJoin isBuild fit ran
    refine ⟨rest, probe, joined, restFit, probed, ranJoin, ?_⟩
    intro kept probe' probed' joined'
    rw [runPipeline, again kept probe' probed' joined', bind_some, tested]
  | case4 spec left right ihRight ihLeft =>
    have ih : ∀ {builds} {place : Nat} {out},
        (pipelineJoins (JoinNode.mk spec left right).probe)[place]? = some join →
        builds[place]? = some build → BuildsFit (JoinNode.mk spec left right).probe builds →
        runPipeline evaluator (JoinNode.mk spec left right).probe builds rows = some out →
        Through evaluator (JoinNode.mk spec left right).probe builds join build rows out := by
      unfold JoinNode.probe
      cases spec.build
      · exact ihRight
      · exact ihLeft
    obtain ⟨first, rest, probe, rfl, ran, joined⟩ := runPipeline_join run
    obtain ⟨-, restFit⟩ := fit.join
    cases place with
    | zero =>
      cases isJoin
      cases isBuild
      refine ⟨rest, probe, out, restFit, ran, joined, ?_⟩
      intro kept probe' ran' joined'
      exact (runPipeline_cons ran').trans joined'
    | succ place =>
      have isBelow : (pipelineJoins (.join spec left right))[place + 1]? = some join := by
        rw [pipelineJoins]
        exact isJoin
      rw [pipelineJoins_join] at isBelow
      obtain ⟨rest', probe', joined', restFit', probed, ranJoin, again⟩ :=
        ih isBelow isBuild restFit ran
      refine ⟨rest', probe', joined', restFit', probed, ranJoin, ?_⟩
      intro kept probe'' probed' ranJoin'
      exact (runPipeline_cons (again kept probe'' probed' ranJoin')).trans joined
  | _ => contradiction

/-- What a pipeline answers when its scan leaves out rows a join of it would drop. -/
theorem runPipeline_thinned {place : Nat} {join : JoinNode} {key : JoinKey}
    {rows kept out : List Tuple} (isJoin : (pipelineJoins top)[place]? = some join)
    (isBuild : builds[place]? = some build)
    (drops : probeDropsUnmatchedRows join.spec.kind join.spec.build = true)
    (only : join.spec.keys = [key])
    (walks : Walks join.probe (join.probeKey key).index.toNat position)
    (found : pipelineScan top = some scan) (inside : position < scan.ids.length)
    (fit : BuildsFit top builds) (wide : Wide scan.ids.length rows)
    (thins : Thins (fun row => NoMatch build (join.buildKey key).index.toNat
      (row.getD position .null)) rows kept)
    (run : runPipeline evaluator top builds rows = some out) :
    runPipeline evaluator top builds kept = some out := by
  rw [pipelineScan_of_join (mem_of_getElem? isJoin)] at found
  obtain ⟨rest, probe, joined, restFit, probed, ranJoin, again⟩ :=
    runPipeline_through isJoin isBuild fit run
  obtain ⟨probe', probed', thinned⟩ :=
    thinned_below walks found inside restFit wide thins probed
  refine again kept probe' probed' (EquiJoin.rows_thinned drops (thinned.mono ?_) ranJoin)
  exact fun row _ none => none.no_candidate only

end Run

inductive Publishes (hash : List Value → Nat) (join : JoinNode) : List Tuple → KeyFilter → Prop where
  | made {spec : JoinBuildSpec} {parts : List (List Batch)} {affordable : Nat → Bool}
      {reserves : Bool} {filter : KeyFilter}
      (keys : spec.keys = keyColumns (join.spec.keys.map join.buildKey))
      (made : publishedFilter spec hash parts affordable reserves = some filter) :
      Publishes hash join (buildTuples parts.flatten) filter

def TablePart.StatsTrue (column : Nat) (part : TablePart) : Prop :=
  ∀ stats, part.stats = some stats →
    stats.TrueOf (part.rows.map (·.getD column .null)) ∧ stats.rows = part.rows.length

section Scan

variable {hash : List Value → Nat} {join : JoinNode} {key : JoinKey} {filter : KeyFilter}

/-- A key column with integers and NULLs only. -/
def IntegerKeys (join : JoinNode) (build : List Tuple) : Prop :=
  ∀ key ∈ join.spec.keys, ∀ row ∈ build,
    row.getD (join.buildKey key).index.toNat .null = .null ∨
      ∃ number, row.getD (join.buildKey key).index.toNat .null = .int number

variable (published : Publishes hash join build filter) (only : join.spec.keys = [key])
include published only

theorem Publishes.holds {row : Tuple} (member : row ∈ build) {value : Value}
    (isValue : row.getD (join.buildKey key).index.toNat .null = value) (notNull : value ≠ .null) :
    filter.mayContain (hash [value]) = true ∧ ∀ number, value = .int number → filter.Covers number := by
  obtain ⟨keys, made⟩ := published
  rename_i spec parts affordable reserves
  have isKey : keyOf spec row = [value] := by
    simp only [keyOf, keys, keyColumns, only, map_cons, map_nil, isValue]
  have kept : row ∈ parts.flatten.flatMap (keptRows spec) := by
    obtain ⟨batch, isBatch, isRow⟩ := mem_flatMap.mp member
    obtain ⟨entry, isEntry, rfl⟩ := mem_map.mp isRow
    refine mem_flatMap.mpr ⟨batch, isBatch, mem_map.mpr ⟨entry, ?_, rfl⟩⟩
    have selected := mem_filter.mp isEntry
    simp [selected, isKey, Join.hasNullKey, notNull]
  have holds := publishedFilter_holdsKeys made
  refine ⟨isKey ▸ holds.hashes row kept, ?_⟩
  rintro number rfl
  exact holds.values row kept number isKey

theorem noMatch_of_not_contained {value : Value}
    (missing : filter.mayContain (hash [value]) = false) :
    NoMatch build (join.buildKey key).index.toNat value := by
  by_cases null : value = .null
  · exact .inl null
  · refine .inr fun row member same => ?_
    rw [(published.holds only member same null).1] at missing
    contradiction

variable (integers : IntegerKeys join build)
include integers

theorem noMatch_of_partHasNoKey {part : TablePart} {column : Nat}
    (statsTrue : part.StatsTrue column) (skipped : partHasNoKey filter part.stats = true) {row : Tuple} (member : row ∈ part.rows) :
    NoMatch build (join.buildKey key).index.toNat (row.getD column .null) := by
  by_cases null : row.getD column .null = .null
  · exact .inl null
  refine .inr fun other isBuild same => ?_
  obtain ⟨number, isNumber⟩ : ∃ number, row.getD column .null = .int number := by
    have typed := integers key (by simp [only]) other isBuild
    rw [same] at typed
    exact typed.resolve_left null
  have isValue : row.getD column .null ∈ part.rows.map (·.getD column .null) :=
    mem_map_of_mem member
  unfold partHasNoKey at skipped
  split at skipped
  · contradiction
  split at skipped
  · contradiction
  rename_i stats isStats
  obtain ⟨trueOf, rows⟩ := statsTrue stats isStats
  split at skipped
  · contradiction
  split at skipped
  · rename_i low high isLow isHigh
    have covers := (published.holds only isBuild same null).2 number isNumber
    have isNumber : number ∈ (part.rows.map (·.getD column .null)).filterMap PartStats.number :=
      mem_filterMap.mpr ⟨_, isValue, by rw [isNumber, PartStats.number]⟩
    have below := (min?_eq_some_iff.mp (trueOf.min.symm.trans isLow)).2 number isNumber
    have above := (max?_eq_some_iff.mp (trueOf.max.symm.trans isHigh)).2 number isNumber
    simp [covers low high below above] at skipped
  · have all : (part.rows.map (·.getD column .null)).count .null =
        (part.rows.map (·.getD column .null)).length := by
      have bound := count_le_length (a := Value.null) (l := part.rows.map (·.getD column .null))
      rw [length_map] at bound ⊢
      have := trueOf.nullCount
      have := of_decide_eq_true skipped
      omega
    exact null (count_eq_length.mp all _ isValue).symm

theorem scanPart_thins {part : TablePart} {column : Nat} (statsTrue : part.StatsTrue column)
    (filtersRows : Bool) :
    Thins (fun row => NoMatch build (join.buildKey key).index.toNat (row.getD column .null))
      part.rows (scanPart filter hash column filtersRows part) := by
  unfold scanPart
  split
  · rename_i skipped
    exact .all_dropped fun row member =>
      noMatch_of_partHasNoKey published only integers statsTrue skipped member
  split
  · exact (Thins.filter _ part.rows).mono fun row _ missing =>
      noMatch_of_not_contained published only missing
  · exact .refl _

theorem flatMap_scanPart_thins {table : List TablePart} {column : Nat}
    (statsTrue : ∀ part ∈ table, part.StatsTrue column) (filtersRows : Bool) :
    Thins (fun row => NoMatch build (join.buildKey key).index.toNat (row.getD column .null))
      (table.flatMap TablePart.rows) (table.flatMap (scanPart filter hash column filtersRows)) := by
  induction table with
  | nil => exact .nil
  | cons part rest ih =>
    rw [flatMap_cons, flatMap_cons]
    have first := scanPart_thins published only integers (statsTrue part mem_cons_self)
      filtersRows
    exact first.append (ih fun part member => statsTrue part (mem_cons_of_mem _ member))

end Scan

/-- A plan whose columns have been given their positions. -/
structure Positioned (top : LogicalNode) (scan : ScanNode) : Prop where
  isScan : pipelineScan top = some scan
  fields : scan.fields.length = scan.ids.length
  keys : ∀ join ∈ pipelineJoins top, ∀ key ∈ join.spec.keys, 0 ≤ (join.probeKey key).index →
    join.probe.outputIds[(join.probeKey key).index.toNat]? = some (join.probeKey key).id

theorem probeKeyAt_some {late : Bool} {fromInnermost : Nat} {key : ProbeKey}
    (isScan : pipelineScan top = some scan)
    (offered : probeKeyAt top late fromInnermost = some key) :
    key.join = (pipelineJoins top).length - 1 - fromInnermost ∧
      ∃ join column, (pipelineJoins top)[key.join]? = some join ∧ probeColumn join = some column ∧
        column.toNat = key.column ∧ column < scan.fields.length := by
  unfold probeKeyAt at offered
  simp only [isScan] at offered
  split at offered
  · contradiction
  split at offered
  · rename_i column scan' bound isScan'
    cases isScan'
    obtain ⟨join, isJoin, isColumn⟩ := Option.bind_eq_some_iff.mp bound
    split at offered
    · contradiction
    · cases offered
      exact ⟨rfl, join, column, isJoin, isColumn, rfl, by omega⟩
  · contradiction

/-- The key a join offers at the scan: the scan's column of that key, by which rows and parts may
be left out. -/
structure FilterSafe (evaluator : Evaluator) (hash : List Value → Nat) (top : LogicalNode)
    (scan : ScanNode) (key : ProbeKey) (join : JoinNode) (joinKey : JoinKey) : Prop where
  isJoin : (pipelineJoins top)[key.join]? = some join
  only : join.spec.keys = [joinKey]
  position : scan.ids[key.column]? = some (join.probeKey joinKey).id
  answer : ∀ {builds build filter} {table : List TablePart} {filtersRows out},
    builds[key.join]? = some build → BuildsFit top builds →
    IntegerKeys join build → Publishes hash join build filter →
    (∀ part ∈ table, Wide scan.ids.length part.rows ∧ part.StatsTrue key.column) →
    runPipeline evaluator top builds (table.flatMap TablePart.rows) = some out →
    runPipeline evaluator top builds (table.flatMap (scanPart filter hash key.column filtersRows)) =
      some out

theorem probeKeyAt_filterSafe (evaluator : Evaluator) (hash : List Value → Nat) {top : LogicalNode}
    {scan : ScanNode} (positioned : Positioned top scan) (late : Bool) (fromInnermost : Nat) :
    (∀ key, probeKeyAt top late fromInnermost = some key →
      ∃ join joinKey, FilterSafe evaluator hash top scan key join joinKey) ∧
    ∀ join, (pipelineJoins top)[(pipelineJoins top).length - 1 - fromInnermost]? = some join →
      (∀ key ∈ join.spec.keys, (join.probeKey key).id ∉ scan.ids) →
      probeKeyAt top late fromInnermost = none := by
  have safe : ∀ key, probeKeyAt top late fromInnermost = some key →
      ∃ join joinKey, FilterSafe evaluator hash top scan key join joinKey := by
    intro key offered
    obtain ⟨-, join, column, isJoin, isColumn, same, below⟩ :=
      probeKeyAt_some positioned.isScan offered
    obtain ⟨drops, joinKey, only, resolved, inside, walks⟩ := probeColumn_some isColumn
    rw [same] at walks
    have within : key.column < scan.ids.length := by
      have := positioned.fields
      omega
    have member := mem_of_getElem? isJoin
    refine ⟨join, joinKey, isJoin, only, ?_, ?_⟩
    · have found := (pipelineScan_of_join member).symm.trans positioned.isScan
      rw [← walks.column_id found within]
      exact positioned.keys join member joinKey (by simp [only]) resolved
    · intro builds build filter table filtersRows out isBuild fit integers published parts run
      refine runPipeline_thinned isJoin isBuild drops only walks positioned.isScan within fit ?_ ?_ run
      · intro row member
        obtain ⟨part, isPart, isRow⟩ := mem_flatMap.mp member
        exact (parts part isPart).1 row isRow
      · exact flatMap_scanPart_thins published only integers (fun part member =>
          (parts part member).2) filtersRows
  refine ⟨safe, ?_⟩
  intro join isJoin absent
  cases offered : probeKeyAt top late fromInnermost with
  | none => rfl
  | some key =>
    obtain ⟨other, joinKey, holds⟩ := safe key offered
    have same := (probeKeyAt_some positioned.isScan offered).1
    have isOther := holds.isJoin
    rw [same, isJoin] at isOther
    cases isOther
    exact absurd (mem_of_getElem? holds.position) (absent joinKey (by simp [holds.only]))

section Example

/-- `t JOIN a ON t.k = a.k` with `a` as its left input, then `JOIN b ON t.k = b.k`. -/
def twoJoins : LogicalNode :=
  .join { keys := [⟨{ index := 1, id := 3 }, { index := 0, id := 4 }⟩] }
    (.join { keys := [⟨{ index := 0, id := 1 }, { index := 0, id := 3 }⟩], build := .left }
      (.scan 0 [0] [1]) (.scan 1 [0] [3]))
    (.scan 2 [0] [4])

def keyHash (key : List Value) : Nat := (directKey key).toNat * 0x9e3779b97f4a7c15 % 2 ^ 64

def fiveSpec : JoinBuildSpec where
  keys := [⟨0, .bigInt⟩]
  directCandidate := false
  someKey := by simp
  bytewise := by simp
  candidate := by simp

def fiveFilter : KeyFilter where
  words := [0x00080000, 0x02000000, 0x00080000, 0x00000020, 0x80000000, 0x00000008, 0x80000000,
    0x02000000]
  blockMask := 0
  keyRange := some (5, 5)
  keyValues := [5]

def twoParts : List TablePart :=
  [⟨[[.int 5], [.int 6], [.null]], none⟩, ⟨[[.int 7]], some ⟨some 7, some 7, 0, 1⟩⟩]

theorem twoJoins_positioned : Positioned twoJoins ⟨[0], [3]⟩ := by
  constructor
  case isScan => rfl
  case fields => rfl
  case keys =>
    intro join member
    simp only [twoJoins, pipelineJoins, mem_cons, not_mem_nil, or_false] at member
    rcases member with rfl | rfl <;>
      simp [JoinNode.probe, JoinNode.probeKey, LogicalNode.outputIds, LogicalNode.joinIds,
        JoinKind.traits, kNoColumnId]

theorem twoJoins_fit : BuildsFit twoJoins [[[.int 5]], [[.int 5], [.int 6], [.int 7]]] := by
  refine .cons ?_ (.cons ?_ .nil) <;> simp [Wide, JoinNode.build, LogicalNode.outputIds]

theorem twoParts_true : ∀ part ∈ twoParts, Wide 1 part.rows ∧ part.StatsTrue 0 := by
  simp only [twoParts, forall_mem_cons, not_mem_nil, false_imp_iff, implies_true, and_true]
  refine ⟨⟨by simp [Wide], fun stats isStats => by contradiction⟩, by simp [Wide], ?_⟩
  intro stats isStats
  cases isStats
  exact ⟨⟨rfl, rfl, rfl⟩, rfl⟩

/-- The outer join's filter reaches the scan through the inner one: the row of 6 is left out, and
the whole part of 7. -/
theorem probeKeyAt_filterSafe_outer :
    twoParts.flatMap (scanPart fiveFilter keyHash 0 true) = [[.int 5]] ∧
      runPipeline ⟨fun _ _ => none, fun _ _ => none⟩ twoJoins
        [[[.int 5]], [[.int 5], [.int 6], [.int 7]]]
        (twoParts.flatMap (scanPart fiveFilter keyHash 0 true)) =
          some [[.int 5, .int 5, .int 5]] := by
  refine ⟨by decide +kernel, ?_⟩
  obtain ⟨join, joinKey, safe⟩ := (probeKeyAt_filterSafe ⟨fun _ _ => none, fun _ _ => none⟩ keyHash
    twoJoins_positioned false 1).1 ⟨0, 0, true⟩ (by rfl)
  have isKey := safe.only
  cases safe.isJoin
  cases isKey
  have isBuild : [[[Value.int 5]], [[.int 5], [.int 6], [.int 7]]][0]? = some [[.int 5]] := rfl
  have published : publishedFilter fiveSpec keyHash [[[⟨true, [.int 5]⟩]]] (fun _ => true) true =
      some fiveFilter := by decide +kernel
  refine safe.answer isBuild twoJoins_fit ?_ (.made rfl published) twoParts_true ?_
  · intro key isKey row isRow
    cases mem_singleton.mp isKey
    cases mem_singleton.mp isRow
    exact .inr ⟨5, rfl⟩
  · decide +kernel

end Example

end Antb1.Exec
