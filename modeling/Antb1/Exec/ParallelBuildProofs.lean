import Antb1.Exec.ParallelBuild
import Antb1.Exec.PartitionLanesProofs

/-! A parallel join build fails as the serial one does, and holds its segments where neither
fails. -/
namespace Antb1.Exec

open Common Join PartitionLanes List

namespace PartsBuild

variable (build : PartsBuild)

def countsTo : Nat → Result JoinTableBuilder
  | 0 => .ok {}
  | k + 1 => countsTo k >>= fun counts => build.release counts k

def handedTo : Nat → List Int
  | 0 => []
  | k + 1 =>
    if (build.countsTo (k + 1)).status = none ∧ (build.parts k).pieces ≠ [] then
      handedTo k ++ [(k : Int)]
    else handedTo k

variable {build} {k : Nat} {counts : JoinTableBuilder}

theorem countsTo_succ (ok : build.countsTo k = .ok counts) :
    build.countsTo (k + 1) = build.release counts k := by
  rw [countsTo, ok]
  rfl

theorem countsTo_failed {status : Status} (failed : build.countsTo k = .error status) :
    build.countsTo (k + 1) = .error status := by
  rw [countsTo, failed]
  rfl

theorem handedTo_same
    (none_ : (build.countsTo (k + 1)).status ≠ none ∨ (build.parts k).pieces = []) :
    build.handedTo (k + 1) = build.handedTo k := by
  rw [handedTo, if_neg]
  rintro ⟨ok, pieces⟩
  exact none_.elim (absurd ok) pieces

theorem handedTo_more (ok : build.countsTo (k + 1) = .ok counts)
    (pieces : (build.parts k).pieces ≠ []) :
    build.handedTo (k + 1) = build.handedTo k ++ [(k : Int)] := by
  rw [handedTo, ok]
  exact if_pos ⟨rfl, pieces⟩

theorem handedTo_grows (k : Nat) : build.handedTo k <+: build.handedTo (k + 1) := by
  rw [handedTo]
  split
  · exact prefix_append _ _
  · exact prefix_rfl

theorem lt_of_mem_handedTo {part : Int} (handed : part ∈ build.handedTo k) : part < k := by
  induction k with
  | zero => cases handed
  | succ k ih =>
    rw [handedTo] at handed
    split at handed
    · rcases mem_append.mp handed with earlier | last
      · have := ih earlier
        omega
      · cases mem_singleton.mp last
        omega
    · have := ih handed
      omega

theorem release_counts (counts : JoinTableBuilder) (part : Int) :
    build.release { counts with segments := [] } part =
      (build.release counts part).map fun counts => { counts with segments := [] } := by
  unfold release Join.release
  split_ifs <;> rfl

/-- The segments of the parts handed, each merged from its first chunk. -/
theorem countsTo_segments (chunk : Int → Nat) (ok : build.countsTo k = .ok counts)
    (chunks : ∀ (j : Nat) before, (j : Int) ∈ build.handedTo k → build.countsTo j = .ok before →
      chunk j = before.numChunks % machineWords.narrow) :
    counts.segments = (List.range kJoinPartitions).map fun partition =>
      (build.handedTo k).flatMap fun part =>
        mergePieces machineWords partition (chunk part) (build.parts part).pieces := by
  induction k generalizing counts with
  | zero =>
    cases ok
    rfl
  | succ k ih =>
    cases before : build.countsTo k with
    | error status =>
      rw [countsTo_failed before] at ok
      cases ok
    | ok earlier =>
      have segments := ih before fun j b handed =>
        chunks j b ((handedTo_grows k).subset handed)
      have released := ok
      rw [countsTo_succ before] at released
      have isCounts : counts.segments = earlier.segments.mapIdx fun partition segments =>
          segments ++ mergePieces machineWords partition
            (earlier.numChunks % machineWords.narrow) (build.parts k).pieces := by
        unfold release Join.release at released
        split_ifs at released
        cases released
        rfl
      rw [isCounts, segments]
      apply ext_getElem
      · simp
      intro partition inside _
      simp only [getElem_mapIdx, getElem_map, getElem_range]
      by_cases pieces : (build.parts k).pieces = []
      · rw [handedTo_same (.inr pieces), pieces, mergePieces, append_nil]
      · have more := handedTo_more ok pieces
        rw [more, flatMap_append, flatMap_singleton, chunks k earlier (by simp [more]) before]

end PartsBuild

namespace SerialBuild

variable {build : PartsBuild} {outcome : Nat → List Int → Int → Option Status}

end SerialBuild

namespace ParallelBuild

variable {build : PartsBuild} {s t : ParallelBuild} {lanes : PartitionLanes} {part : Int}

/-- The lanes rest, and the failure that comes first is known. -/
def Settled (build : PartsBuild) (s : ParallelBuild) : Prop :=
  s.lanes.running = 0 ∧
    s.failed = (s.lanes.failure.map Failure.status).or (build.countsTo s.nextPart).status

/-- The loop of `Add` has nothing to release. -/
def Waits (build : PartsBuild) (s : ParallelBuild) : Prop :=
  ¬(s.nextPart < build.numParts ∧ s.arrived s.nextPart = true)

def Replied (build : PartsBuild) (s : ParallelBuild) (call : Call) (status : Option Status) : Prop :=
  status = s.answer build call ∧ (call = .finish → Settled build s)

/-- What holds at a point of the consumer only. -/
def Fits (build : PartsBuild) (s : ParallelBuild) : Pc → Prop
  | .idle last =>
    s.lanes.pc.isIdle ∧ (s.failed ≠ none → Settled build s) ∧ (s.failed = none → Waits build s) ∧
      ∀ call status, last = some (call, status) → Replied build s call status
  | .looping call => s.lanes.pc.isIdle ∧ s.failed = none ∧ ∃ part, call = .add part
  | .adding call => s.lanes.pc.call = some .add ∧ s.failed = none ∧ ∃ part, call = .add part
  | .merging _ => s.lanes.pc.call = some .finish ∧
    (s.failed = none → s.lanes.failure = none → Waits build s)

/-- The invariant of a build, wherever the consumer is. -/
structure Core (build : PartsBuild) (s : ParallelBuild) : Prop where
  holds : PartitionLanes.Holds build.merges s.lanes
  handed : Handed s.lanes (build.handedTo s.nextPart)
  /-- A failure that no merge explains is the release's. -/
  cause : s.lanes.failure = none → s.failed = (build.countsTo s.nextPart).status
  counts : s.failed = none → ∃ counts, build.countsTo s.nextPart = .ok counts ∧
    s.counts = { counts with segments := [] }
  chunks : ∀ (k : Nat) before, (k : Int) ∈ build.handedTo s.nextPart →
    build.countsTo k = .ok before → s.firstChunk k = before.numChunks % machineWords.narrow
  released : s.released = List.range s.nextPart
  within : s.nextPart ≤ build.numParts
  arrived : ∀ part, s.arrived part = true → part ∈ s.called
  called : s.failed = none → s.lanes.failure = none → ∀ part ∈ s.called, s.arrived part = true

structure Sound (build : PartsBuild) (s : ParallelBuild) : Prop extends Core build s where
  point : Fits build s s.pc

theorem Sound.fits (sound : Sound build s) {pc : Pc} (isPc : s.pc = pc) : Fits build s pc :=
  isPc ▸ sound.point

/-- The lanes move on by a step that carries the parts. -/
theorem Core.carried (core : Core build s) (holds : PartitionLanes.Holds build.merges lanes)
    (carries : Carries s.lanes lanes) : Core build { s with lanes } :=
  { core with
    holds
    handed := core.handed.carried carries
    cause := fun clean => core.cause (carries.clean clean).1
    called := fun ok clean => core.called ok (carries.clean clean).1 }

theorem Core.merged (core : Core build s) (called : s.lanes.pc.inAdd = []) {call : Call}
    (point : s.failed = none → s.lanes.failure = none → Waits build s) :
    Sound build (s.merged call) := by
  have handed : Handed { s.lanes with pc := .waiting .finish false } (build.handedTo s.nextPart) := by
    refine ⟨core.handed.offered, fun clean => ?_⟩
    have all := core.handed.clean clean
    rwa [called] at all
  exact { core with holds := core.holds.at _ nofun, handed, point := ⟨rfl, point⟩ }

theorem inAdd_of_isIdle {pc : PartitionLanes.Pc} (idle : pc.isIdle) : pc.inAdd = [] := by
  cases pc with
  | idle last => rfl
  | _ => cases idle

theorem Sound.works_lanes (sound : Sound build s)
    (works : PartitionLanes.Works build.merges s.lanes lanes) : Sound build { s with lanes } := by
  have carries := works_carries sound.holds (show kJoinPartitions ≠ 0 by decide) works
  refine ⟨sound.carried (sound.holds.works _ _ works) carries, ?_⟩
  have stays : s.lanes.pc.isIdle → lanes.pc.isIdle := by
    intro idle
    cases pc : s.lanes.pc with
    | idle last =>
      rw [carries.idle last pc]
      trivial
    | _ =>
      rw [pc] at idle
      cases idle
  cases pc : s.pc with
  | idle last =>
    obtain ⟨idle, settled, waits, replied⟩ := sound.fits pc
    -- Nothing works on settled lanes.
    have unsettled : ¬Settled build s := fun settled => sound.holds.still settled.1 idle works
    have ok : s.failed = none := by
      by_contra failed
      exact unsettled (settled failed)
    refine ⟨stays idle, fun failed => absurd ok failed, waits, fun call status isLast => ?_⟩
    obtain ⟨isStatus, finished⟩ := replied call status isLast
    exact ⟨isStatus, fun isFinish => absurd (finished isFinish) unsettled⟩
  | looping call => exact (sound.fits pc).imp_left stays
  | adding call => exact (sound.fits pc).imp_left carries.call.trans
  | merging call =>
    exact (sound.fits pc).imp carries.call.trans fun waits ok clean =>
      waits ok (carries.clean clean).1

theorem Sound.wake (sound : Sound build s) : Sound build { s with lanes := s.lanes.notifyAll } := by
  have kept : Kept s.lanes s.lanes.notifyAll := ⟨.inr rfl, rfl, rfl, id⟩
  refine ⟨sound.carried sound.holds.wake kept.carries, ?_⟩
  cases pc : s.pc with
  | adding call | merging call => exact (sound.fits pc).imp_left kept.carries.call.trans
  | idle last | looping call =>
    refine (sound.fits pc).imp_left fun idle => ?_
    show s.lanes.pc.wake.isIdle
    cases lanesPc : s.lanes.pc <;> rw [lanesPc] at idle <;> trivial

theorem Sound.turn (sound : Sound build s) {call : Call} (pc : s.pc = .looping call) :
    Sound build (s.turn build call) := by
  obtain ⟨idle, ok, part, rfl⟩ := sound.fits pc
  have called := inAdd_of_isIdle idle
  obtain ⟨counts, isCounts, isHere⟩ := sound.counts ok
  have next := PartsBuild.countsTo_succ isCounts
  have here : build.release s.counts s.nextPart =
      (build.release counts s.nextPart).map fun counts => { counts with segments := [] } := by
    rw [isHere, PartsBuild.release_counts]
  have range : s.released ++ [s.nextPart] = List.range (s.nextPart + 1) := by
    rw [sound.released, range_succ]
  unfold ParallelBuild.turn
  split
  case isFalse waits =>
    refine { sound with point := ⟨idle, fun failed => absurd ok failed, fun _ => waits, ?_⟩ }
    rintro _ _ ⟨⟩
    exact ⟨ok.symm, nofun⟩
  case isTrue ready =>
    rw [here]
    cases released : build.release counts s.nextPart with
    | error status =>
      rw [released] at next
      have same := PartsBuild.handedTo_same (k := s.nextPart) (.inl (by rw [next]; exact nofun))
      simp only [Except.map]
      have core : Core build { s with
          nextPart := s.nextPart + 1
          released := s.released ++ [s.nextPart]
          failed := some status } :=
        { sound with
          handed := same.symm ▸ sound.handed
          cause := fun _ => by rw [next]; rfl
          counts := nofun
          chunks := same.symm ▸ sound.chunks
          released := range
          within := ready.1
          called := nofun }
      exact core.merged called nofun
    | ok after =>
      rw [released] at next
      simp only [Except.map]
      split
      case isTrue pieces =>
        have same := PartsBuild.handedTo_same (k := s.nextPart) (.inr pieces)
        exact { sound with
          handed := same.symm ▸ sound.handed
          cause := fun _ => by rw [next]; exact ok
          counts := fun _ => ⟨after, next, rfl⟩
          chunks := same.symm ▸ sound.chunks
          released := range
          within := ready.1
          point := ⟨idle, ok, part, rfl⟩ }
      case isFalse pieces =>
        have more := PartsBuild.handedTo_more next pieces
        have above : ∀ q ∈ s.lanes.added ++ s.lanes.lost, q < s.nextPart := fun q offered =>
          PartsBuild.lt_of_mem_handedTo (sound.handed.offered.subset offered)
        refine { sound with
          holds := sound.holds.at _ ⟨above, nofun⟩
          handed := ⟨?_, fun clean => ?_⟩
          cause := fun _ => by rw [next]; exact ok
          counts := fun _ => ⟨after, next, rfl⟩
          chunks := fun k before handed isBefore => ?_
          released := range
          within := ready.1
          point := ⟨rfl, ok, part, rfl⟩ }
        · rw [more]
          exact sound.handed.offered.trans (prefix_append _ _)
        · have all := sound.handed.clean clean
          rw [called, append_nil] at all
          rw [more, ← all]
          rfl
        · rw [more] at handed
          simp only
          by_cases last : (k : Int) = s.nextPart
          · rw [last, Function.update_self, isHere]
            rw [Int.ofNat_inj.mp last, isCounts] at isBefore
            cases isBefore
            rfl
          · rw [Function.update_of_ne last]
            rcases mem_append.mp handed with earlier | isLast
            · exact sound.chunks k before earlier isBefore
            · exact absurd (mem_singleton.mp isLast) last

theorem Sound.advance (sound : Sound build s) (advanced : s.advance build = some t) :
    Sound build t := by
  unfold ParallelBuild.advance at advanced
  split at advanced
  case h_1 call _ pc =>
    cases advanced
    exact sound.turn pc
  case h_2 call pc lanesPc =>
    cases advanced
    refine { sound with point := ⟨?_, (sound.fits pc).2⟩ }
    rw [lanesPc]
    trivial
  case h_3 call status pc lanesPc =>
    cases advanced
    have failed : s.lanes.failure ≠ none := by
      intro clean
      have isFailure := (sound.holds.fits lanesPc).2
      rw [clean] at isFailure
      cases isFailure
    refine Core.merged ?_ (by rw [lanesPc]; rfl) fun ok => by cases ok
    exact { sound with
      cause := fun clean => absurd clean failed
      counts := nofun
      called := nofun }
  case h_4 call status pc lanesPc =>
    cases advanced
    obtain ⟨rest, rfl⟩ := sound.holds.fits lanesPc
    have waits := (sound.fits pc).2
    have settled : (s.lanes.failure.map Failure.status).or s.failed =
        (s.lanes.failure.map Failure.status).or (build.countsTo s.nextPart).status := by
      cases failure : s.lanes.failure with
      | none => rw [sound.cause failure]
      | some f => rfl
    have clean : (s.lanes.failure.map Failure.status).or s.failed = none →
        s.failed = none ∧ s.lanes.failure = none := by
      cases s.lanes.failure with
      | none => exact fun ok => ⟨ok, rfl⟩
      | some f => exact nofun
    have idle : s.lanes.pc.isIdle := by
      rw [lanesPc]
      trivial
    refine { sound with
      cause := fun unknown => ?_
      counts := fun ok => sound.counts (clean ok).1
      called := fun ok => sound.called (clean ok).1
      point := ⟨idle, fun _ => ⟨rest, settled⟩,
        fun ok => waits (clean ok).1 (clean ok).2, ?_⟩ }
    · rw [show s.lanes.failure = none from unknown] at settled
      exact (congrArg (fun f => (Option.map Failure.status f).or s.failed) unknown).trans settled
    · rintro _ _ ⟨⟩
      exact ⟨rfl, fun _ => ⟨rest, settled⟩⟩
  case h_5 => cases advanced

theorem Sound.works (s t : ParallelBuild) (works : Works build s t) (sound : Sound build s) :
    Sound build t := by
  cases works with
  | lanes _ works => exact sound.works_lanes works
  | consumer _ advanced => exact sound.advance advanced

theorem Sound.add (sound : Sound build s) {last : Option (Call × Option Status)} {part : Int}
    (pc : s.pc = .idle last) (unfinished : s.finished = false)
    (within : 0 ≤ part ∧ part < build.numParts) (once : part ∉ s.called) :
    Sound build (s.add build part) := by
  obtain ⟨idle, settled, waits, -⟩ := sound.fits pc
  have arrived : ∀ other, s.arrived other = true → other ∈ s.called ++ [part] := fun other here =>
    mem_append_left _ (sound.arrived other here)
  unfold ParallelBuild.add
  simp only
  split
  case h_1 status failed =>
    refine { sound with
      arrived
      called := fun ok => by rw [failed] at ok; cases ok
      point := ⟨idle, settled, waits, ?_⟩ }
    rintro _ _ ⟨⟩
    exact ⟨failed.symm, nofun⟩
  case h_2 ok =>
    split
    case isTrue known =>
      have failed : s.lanes.failure ≠ none := Option.isSome_iff_ne_none.mp known
      have core : Core build { s with called := s.called ++ [part] } :=
        { sound with arrived, called := fun _ clean => absurd clean failed }
      exact core.merged (inAdd_of_isIdle idle) fun _ clean => absurd clean failed
    case isFalse unknown =>
      have fresh : ¬s.arrived part = true := fun here => once (sound.arrived part here)
      rw [if_neg (by simp [unfinished]), if_neg (by omega), if_neg fresh]
      refine { sound with
        arrived := fun other here => ?_
        called := fun _ clean other called => ?_
        point := ⟨idle, ok, part, rfl⟩ }
      · by_cases same : other = part
        · simp [same]
        · exact arrived other ((Function.update_of_ne same true s.arrived).symm.trans here)
      · by_cases same : other = part
        · rw [same]
          exact Function.update_self part true s.arrived
        · refine (Function.update_of_ne same true s.arrived).trans (sound.called ok clean other ?_)
          simpa [same] using called

theorem Sound.step (s t : ParallelBuild) (step : Step build s t) (sound : Sound build s) :
    Sound build t := by
  cases step with
  | add last part idle unfinished within once => exact sound.add idle unfinished within once
  | finish last idle unfinished =>
    have point := sound.fits idle
    rw [ParallelBuild.finish, if_neg (by simp [unfinished])]
    have core : Core build { s with finished := true } := { sound with }
    exact core.merged (inAdd_of_isIdle point.1) fun ok _ => point.2.2.1 ok
  | spurious => exact sound.wake
  | works _ works => exact sound.works s t works

def Pc.left : Pc → Nat
  | .idle _ => 0
  | .merging _ => 1
  | .looping _ => 2
  | .adding _ => 3

def left (build : PartsBuild) (s : ParallelBuild) : Nat ×ₗ Nat ×ₗ Nat ×ₗ Nat ×ₗ Nat :=
  toLex (build.numParts - s.nextPart, toLex (s.pc.left, s.lanes.left build.merges))

theorem turn_left (s : ParallelBuild) (call : Call) :
    build.numParts - (s.turn build call).nextPart < build.numParts - s.nextPart ∨
      (s.turn build call).nextPart = s.nextPart ∧ (s.turn build call).pc.left = 0 := by
  unfold ParallelBuild.turn
  split
  case isTrue ready =>
    have less : build.numParts - (s.nextPart + 1) < build.numParts - s.nextPart := by omega
    left
    simp only
    split
    · exact less
    · split <;> exact less
  case isFalse => exact .inr ⟨rfl, rfl⟩

theorem works_left (works : Works build s t) : t.left build < s.left build := by
  simp only [left, Prod.Lex.toLex_lt_toLex]
  cases works with
  | lanes _ works => exact .inr ⟨rfl, .inr ⟨rfl, PartitionLanes.works_left works⟩⟩
  | consumer _ advanced =>
    unfold ParallelBuild.advance at advanced
    split at advanced
    case h_1 _ call pc =>
      cases advanced
      rw [pc]
      refine (turn_left s call).imp id ?_
      rintro ⟨same, ends⟩
      refine ⟨by rw [same], .inl ?_⟩
      rw [ends]
      exact Nat.zero_lt_two
    case h_2 call pc _ =>
      cases advanced
      rw [pc]
      exact .inr ⟨rfl, .inl (Nat.lt_succ_self 2)⟩
    case h_3 call _ pc _ =>
      cases advanced
      rw [pc]
      exact .inr ⟨rfl, .inl (show 1 < 3 by decide)⟩
    case h_4 call _ pc _ =>
      cases advanced
      rw [pc]
      exact .inr ⟨rfl, .inl Nat.zero_lt_one⟩
    case h_5 => cases advanced

theorem works_wellFounded (build : PartsBuild) : WellFounded fun t s => Works build s t :=
  Subrelation.wf works_left (InvImage.wf (left build) wellFounded_lt)

def Pc.isIdle : Pc → Prop
  | .idle _ => True
  | _ => False

theorem Sound.progress (sound : Sound build s) : s.pc.isIdle ∨ ∃ t, Works build s t := by
  -- The lanes go on, or have answered their call.
  have lanes : ∀ call, s.lanes.pc.call = some call → (∃ t, Works build s t) ∨
      ∃ status, s.lanes.pc = .idle (some (call.reply status)) := by
    intro call isCall
    obtain idle | ⟨t, works⟩ := sound.holds.progress
    · right
      cases pc : s.lanes.pc with
      | idle last =>
        rw [pc] at isCall
        obtain _ | (status | status | _) := last <;> cases isCall
        · exact ⟨status, rfl⟩
        · exact ⟨status, rfl⟩
        · exact ⟨none, rfl⟩
      | _ =>
        rw [pc] at idle
        cases idle
    · exact .inl ⟨_, .lanes s t works⟩
  have consumer : ∀ t, s.advance build = some t → ∃ t, Works build s t :=
    fun t advanced => ⟨t, .consumer s t advanced⟩
  unfold ParallelBuild.advance at consumer
  cases pc : s.pc with
  | idle last => exact .inl trivial
  | looping call =>
    simp only [pc] at consumer
    exact .inr (consumer _ rfl)
  | adding call =>
    obtain works | ⟨status, answered⟩ := lanes _ (sound.fits pc).1
    · exact .inr works
    · simp only [pc, answered, PartitionLanes.Call.reply] at consumer
      cases status <;> exact .inr (consumer _ rfl)
  | merging call =>
    obtain works | ⟨status, answered⟩ := lanes _ (sound.fits pc).1
    · exact .inr works
    · simp only [pc, answered, PartitionLanes.Call.reply] at consumer
      exact .inr (consumer _ rfl)

def serial (build : PartsBuild) (s : ParallelBuild) : SerialBuild :=
  .run build (s.lanes.outcome build.merges) build.numParts

section

variable (sound : Sound build s)
include sound

/-- At rest and without a failure, each partition has the segments of the parts handed. -/
theorem Sound.segments_eq (idle : s.lanes.pc.isIdle) (rest : s.lanes.running = 0)
    (clean : s.lanes.failure = none) {counts : JoinTableBuilder}
    (isCounts : build.countsTo s.nextPart = .ok counts) :
    counts.segments = (List.range kJoinPartitions).map (s.segments build) := by
  rw [PartsBuild.countsTo_segments s.firstChunk isCounts sound.chunks]
  apply map_congr_left
  intro partition within
  have inside : partition < build.merges.lanes := mem_range.mp within
  obtain ⟨ok, -, lost⟩ := sound.holds.unfailed clean
  have all := sound.handed.clean clean
  rw [inAdd_of_isIdle idle, lost, append_nil, append_nil] at all
  rw [segments, ← (sound.holds.at_rest rest inside).2,
    (sound.holds.lanes partition inside).all (ok partition inside), all]

end

end ParallelBuild

end Antb1.Exec
