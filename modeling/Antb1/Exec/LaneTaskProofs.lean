import Antb1.Exec.LaneSerialProofs
import Antb1.Lib.Runs
import Mathlib.Algebra.Order.BigOperators.Group.Finset

/-! The invariant of the partition lanes, and the steps of their tasks. -/
namespace Antb1.Exec.PartitionLanes

open Common Serial Multiset

variable {part : Int} {status' : Status} {phase : Phase} {l : Nat}

/-- The counters count the parts some lane is not done with, each as often as there are such
lanes. -/
structure Counts (s : PartitionLanes) (owed : Multiset Int) : Prop where
  remaining : ∀ part, s.remaining part = owed.count part
  pending : s.pending = owed.toFinset.card

theorem card_add_singleton (owed : Multiset Int) (part : Int) :
    (owed + {part}).toFinset.card =
      owed.toFinset.card + if owed.count part = 0 then 1 else 0 := by
  rw [toFinset_add, toFinset_singleton, Finset.union_comm,
    ← Finset.insert_eq, Finset.card_insert_eq_ite]
  simp only [mem_toFinset, count_eq_zero]
  split <;> simp_all

theorem Counts.done {s : PartitionLanes} {owed : Multiset Int} (counts : Counts s (owed + {part})) :
    Counts (s.done part) owed := by
  have here : s.remaining part - 1 = owed.count part := by
    rw [counts.remaining, count_add, count_singleton_self,
      Nat.add_sub_cancel]
  have remaining : ∀ other,
      Function.update s.remaining part (s.remaining part - 1) other = owed.count other := by
    intro other
    by_cases same : other = part
    · rw [same, Function.update_self, here]
    · rw [Function.update_of_ne same, counts.remaining, count_add,
        count_singleton, if_neg same, Nat.add_zero]
  have pending := counts.pending
  rw [card_add_singleton] at pending
  rw [PartitionLanes.done, here]
  split
  · rename_i last
    rw [if_pos last] at pending
    exact ⟨here ▸ remaining, by simp [pending]⟩
  · rename_i more
    rw [if_neg more, Nat.add_zero] at pending
    exact ⟨here ▸ remaining, pending⟩

theorem Counts.made {s : PartitionLanes} {owed : Multiset Int} (counts : Counts s owed)
    (new : part ∉ owed) {lanes : Nat} (some : lanes ≠ 0) (added : List Int) :
    Counts
      { s with
        pending := s.pending + 1
        remaining := Function.update s.remaining part lanes
        added }
      (owed + Multiset.replicate lanes part) where
  remaining := by
    intro q
    by_cases same : q = part
    · subst same
      simp [Multiset.count_eq_zero.mpr new]
    · rw [count_add, count_replicate, if_neg (Ne.symm same), Nat.add_zero]
      simp only [Function.update_of_ne same]
      exact counts.remaining q
  pending := by
    have one : (Multiset.replicate lanes part).toFinset = {part} := by
      ext q
      simp [some]
    rw [toFinset_add, one, Finset.union_comm, ← Finset.insert_eq,
      Finset.card_insert_of_notMem (by simpa using new), counts.pending]
    rfl

/-- What `Done` does beside counting: it may wake the consumer. -/
structure Counted (s t : PartitionLanes) : Prop where
  lanes : t.lanes = s.lanes
  running : t.running = s.running
  failure : t.failure = s.failure
  added : t.added = s.added
  lost : t.lost = s.lost
  refused : t.refused = s.refused
  pc : t.pc = s.pc ∨ t.pc = s.pc.wake

theorem Pc.wake_wake (pc : Pc) : pc.wake.wake = pc.wake := by
  cases pc <;> rfl

theorem Pc.woken_trans {pc pc' pc'' : Pc} (first : pc' = pc ∨ pc' = pc.wake)
    (second : pc'' = pc' ∨ pc'' = pc'.wake) : pc'' = pc ∨ pc'' = pc.wake := by
  obtain rfl | rfl := first
  · exact second
  · rw [Pc.wake_wake, or_self] at second
    exact .inr second

theorem done_counted (s : PartitionLanes) (part : Int) : Counted s (s.done part) := by
  unfold done
  split
  · exact ⟨rfl, rfl, rfl, rfl, rfl, rfl, .inr rfl⟩
  · exact ⟨rfl, rfl, rfl, rfl, rfl, rfl, .inl rfl⟩

theorem Counted.trans {s t u : PartitionLanes} (first : Counted s t) (second : Counted t u) :
    Counted s u where
  lanes := second.lanes.trans first.lanes
  running := second.running.trans first.running
  failure := second.failure.trans first.failure
  added := second.added.trans first.added
  lost := second.lost.trans first.lost
  refused := second.refused.trans first.refused
  pc := Pc.woken_trans first.pc second.pc

theorem dones_counted (queue : List Int) (s : PartitionLanes) : Counted s (queue.foldl done s) := by
  induction queue generalizing s with
  | nil => exact ⟨rfl, rfl, rfl, rfl, rfl, rfl, .inl rfl⟩
  | cons part rest ih => exact (done_counted s part).trans (ih (s.done part))

theorem Counts.dones (queue : List Int) {s : PartitionLanes} {owed : Multiset Int}
    (counts : Counts s (owed + queue)) : Counts (queue.foldl PartitionLanes.done s) owed := by
  induction queue generalizing s with
  | nil => simpa using counts
  | cons part rest ih =>
    have split : owed + (part :: rest : List Int) = owed + (rest : Multiset Int) + {part} := by
      rw [← cons_coe, ← singleton_add]
      abel
    rw [split] at counts
    exact ih counts.done

namespace Phase

def due : Phase → List Int
  | .merging part => [part]
  | _ => []

@[simp] theorem due_merging (part : Int) : (merging part).due = [part] := rfl

/-- The part a task is not done with. -/
def inHand : Phase → List Int
  | .start => []
  | .merging part | .merged part _ => [part]

/-- The failure a task has not reported yet. -/
def failing : Phase → Option (Int × Status)
  | .merged part (some status) => some (part, status)
  | _ => none

end Phase

namespace Lane

/-- The parts a lane was given and has not dropped. -/
def held (lane : Lane) : List Int := lane.merged ++ lane.tasks.flatMap Phase.due ++ lane.queue

/-- The parts a lane is not done with. -/
def owed (lane : Lane) : Multiset Int := ↑(lane.tasks.flatMap Phase.inHand ++ lane.queue)

/-- The lane after the head of the loop of `Drain`. -/
def drained (lane : Lane) : Lane :=
  match lane.queue with
  | [] => { lane with running := false, tasks := [] }
  | part :: rest => { lane with queue := rest, tasks := [.merging part] }

end Lane

/-- A failure at least as early is known. -/
def Recorded (failure : Option Failure) (part : Int) (lane : Nat) : Prop :=
  ∃ f, failure = some f ∧ NotAfter f.part f.lane part lane

def status (merges : Merges) (lane : Nat) (before : List Int) (part : Int) : Option Status :=
  run (merges.merge lane before part)

/-- The lane has failed to merge a part, and said so. -/
structure Stopped (merges : Merges) (l : Nat) (failure : Option Failure) (lane : Lane) :
    Prop where
  tasks : lane.tasks = []
  failed : lane.failed = true
  recorded : ∃ part status', laneFailure (status merges) l lane.merged = some (part, status') ∧
    Recorded failure part l

/-- The invariant of lane `l`, when `added` were added and it could not take those of
`refused`. -/
structure LaneSound (merges : Merges) (l : Nat) (added : List Int) (failure : Option Failure)
    (refused : Int → Option Status) (lane : Lane) : Prop where
  one : lane.running = false ∧ lane.tasks = [] ∧ lane.queue = [] ∨
    lane.running = true ∧ ∃ phase, lane.tasks = [phase]
  held : lane.held <+: added
  all : lane.failed = false → lane.held = added
  owed : ∀ part ∈ lane.owed, part ∈ added
  health : laneFailure (status merges) l lane.merged = lane.tasks.findSome? Phase.failing ∨
    Stopped merges l failure lane
  failed : lane.failed = true → Stopped merges l failure lane ∨
    ∃ part status', refused part = some status' ∧ lane.held ++ [part] <+: added

namespace LaneSound

variable {merges : Merges} {added : List Int} {failure failure' : Option Failure}
  {refused : Int → Option Status} {lane : Lane}

section Sound

variable (sound : LaneSound merges l added failure refused lane)
include sound

theorem recorded (keeps : ∀ part, Recorded failure part l → Recorded failure' part l) :
    LaneSound merges l added failure' refused lane := by
  have stopped : Stopped merges l failure lane → Stopped merges l failure' lane := by
    rintro ⟨tasks, failed, part, status', fails, recorded⟩
    exact ⟨tasks, failed, part, status', fails, keeps part recorded⟩
  exact { sound with
    health := sound.health.imp id stopped
    failed := fun failed => (sound.failed failed).imp stopped id }

/-- A lane whose task runs has reported every failure but that of its task. -/
theorem health_of_task (task : lane.tasks = [phase]) :
    laneFailure (status merges) l lane.merged = phase.failing := by
  obtain health | stopped := sound.health
  · rw [health, task, List.findSome?_singleton]
  · rw [stopped.tasks] at task
    contradiction

theorem health_of_ok (ok : lane.failed = false) :
    laneFailure (status merges) l lane.merged = lane.tasks.findSome? Phase.failing := by
  refine sound.health.resolve_right fun stopped => ?_
  rw [stopped.failed] at ok
  contradiction

theorem of_ok (ok : lane.failed = false) (failure' : Option Failure)
    (refused' : Int → Option Status) :
    LaneSound merges l added failure' refused' lane where
  __ := sound
  health := .inl (sound.health_of_ok ok)
  failed := by
    intro failed
    rw [ok] at failed
    contradiction

theorem running_of_task (task : lane.tasks = [phase]) : lane.running = true := by
  obtain ⟨-, none, -⟩ | ⟨running, -⟩ := sound.one
  · rw [none] at task
    contradiction
  · exact running

/-- The head of the loop of `Drain`, where the task has nothing in hand. -/
theorem drained (task : lane.tasks = [phase]) (due : phase.due = [])
    (failing : phase.failing = none) :
    LaneSound merges l added failure refused lane.drained := by
  have clean := sound.health_of_task task
  rw [failing] at clean
  have running := sound.running_of_task task
  have held : lane.drained.held = lane.held := by
    unfold Lane.drained Lane.held
    split <;> rename_i queue <;> simp [task, due, queue]
  have stillFailed : lane.drained.failed = lane.failed := by
    unfold Lane.drained
    split <;> rfl
  have merged : lane.drained.merged = lane.merged := by
    unfold Lane.drained
    split <;> rfl
  refine ⟨?_, held ▸ sound.held, ?_, ?_, ?_, ?_⟩
  · unfold Lane.drained
    split
    · rename_i queue
      exact .inl ⟨rfl, rfl, queue⟩
    · exact .inr ⟨running, _, rfl⟩
  · rw [stillFailed, held]
    exact sound.all
  · intro part member
    apply sound.owed
    unfold Lane.drained Lane.owed at member
    split at member
    · rename_i queue
      simp [queue] at member
    · rename_i queue
      simp [Phase.inHand] at member
      simp [Lane.owed, queue, member]
  · rw [merged, clean]
    unfold Lane.drained
    split <;> exact .inl rfl
  · rw [stillFailed, held]
    intro failed
    obtain stopped | refusal := sound.failed failed
    · rw [stopped.tasks] at task
      contradiction
    · exact .inr refusal

theorem mergeEnds (task : lane.tasks = [.merging part]) :
    LaneSound merges l added failure refused
      { lane with
        tasks := [.merged part (status merges l lane.merged part)]
        merged := lane.merged ++ [part] } := by
  have clean : laneFailure (status merges) l lane.merged = none := sound.health_of_task task
  have held : lane.held = lane.merged ++ [part] ++ lane.queue := by
    simp [Lane.held, task, Phase.due]
  have sameHeld : Lane.held
      { lane with
        tasks := [.merged part (status merges l lane.merged part)]
        merged := lane.merged ++ [part] } = lane.held := by
    rw [held]
    simp [Lane.held, Phase.due]
  refine ⟨.inr ⟨sound.running_of_task task, _, rfl⟩, sameHeld ▸ sound.held, ?_, ?_, ?_, ?_⟩
  · rw [sameHeld]
    exact sound.all
  · intro other member
    apply sound.owed
    simpa [Lane.owed, task, Phase.inHand] using member
  · left
    rw [laneFailure_snoc, clean, Option.none_or, List.findSome?_singleton]
    cases status merges l lane.merged part <;> rfl
  · rw [sameHeld]
    intro failed
    obtain stopped | refusal := sound.failed failed
    · rw [stopped.tasks] at task
      contradiction
    · exact .inr refusal

theorem stops (task : lane.tasks = [.merged part (some status')])
    (recorded : Recorded failure part l) :
    LaneSound merges l added failure refused
      { lane with queue := [], running := false, failed := true, tasks := [] } := by
  have fails : laneFailure (status merges) l lane.merged = some (part, status') :=
    sound.health_of_task task
  have stopped : Stopped merges l failure
      { lane with queue := [], running := false, failed := true, tasks := [] } :=
    ⟨rfl, rfl, part, status', fails, recorded⟩
  refine ⟨.inl ⟨rfl, rfl, rfl⟩, ?_, nofun, ?_, .inr stopped, fun _ => .inl stopped⟩
  · refine List.IsPrefix.trans ?_ sound.held
    simp [Lane.held]
  · simp [Lane.owed]

theorem give (ok : lane.failed = false) (part : Int) (failure' : Option Failure)
    (refused' : Int → Option Status) :
    LaneSound merges l (added ++ [part]) failure' refused' (lane.give part) := by
  have health := sound.health_of_ok ok
  have held : (lane.give part).held = lane.held ++ [part] := by
    unfold Lane.give Lane.held
    split <;> simp [Phase.due]
  rw [sound.all ok] at held
  refine ⟨.inr ⟨rfl, ?_⟩, held ▸ List.prefix_rfl, fun _ => held, ?_, .inl ?_, ?_⟩
  · unfold Lane.give
    obtain ⟨idle, none, -⟩ | ⟨running, phase, task⟩ := sound.one
    · exact ⟨.start, by simp [idle, none]⟩
    · exact ⟨phase, by simp [running, task]⟩
  · intro other member
    rw [List.mem_append]
    unfold Lane.give Lane.owed at member
    by_cases old : other ∈ lane.owed
    · exact .inl (sound.owed other old)
    · right
      simp only [Lane.owed, mem_coe, List.mem_append, not_or] at old
      split at member <;> simpa [Phase.inHand, old] using member
  · rw [show (lane.give part).merged = lane.merged from rfl, health]
    unfold Lane.give
    split
    · rfl
    · simp [List.findSome?_append, Phase.failing]
  · intro failed
    rw [show (lane.give part).failed = lane.failed from rfl, ok] at failed
    contradiction

theorem refuse (ok : lane.failed = false) {refused' : Int → Option Status}
    (isRefused : refused' part = some status') :
    LaneSound merges l (added ++ [part]) failure' refused' { lane with failed := true } := by
  have held : Lane.held { lane with failed := true } = added := sound.all ok
  refine ⟨sound.one, held ▸ List.prefix_append _ _, nofun, ?_, .inl (sound.health_of_ok ok), ?_⟩
  · intro other member
    exact List.mem_append_left _ (sound.owed other member)
  · intro _
    exact .inr ⟨part, status', isRefused, held ▸ List.prefix_rfl⟩

end Sound

end LaneSound

/-- The parts some lane is not done with. -/
def owed (merges : Merges) (s : PartitionLanes) : Multiset Int :=
  ∑ l ∈ Finset.range merges.lanes, (s.lanes l).owed

/-- The tasks that have not ended. -/
def live (merges : Merges) (s : PartitionLanes) : Nat :=
  ∑ l ∈ Finset.range merges.lanes, (s.lanes l).tasks.length

theorem live_pos {merges : Merges} {s : PartitionLanes} (within : l < merges.lanes)
    (busy : (s.lanes l).tasks ≠ []) : 0 < live merges s :=
  Finset.sum_pos' (fun _ _ => Nat.zero_le _)
    ⟨l, Finset.mem_range.mpr within, List.length_pos_iff.mpr busy⟩

/-- What holds at a point of the consumer only. -/
def Fits (merges : Merges) (s : PartitionLanes) : Pc → Prop
  | .idle none | .idle (some (.add none)) => True
  | .idle (some .wait) | .reading _ => s.running = 0
  | .idle (some (.add (some status'))) =>
    s.running = 0 ∧ s.failure.map Failure.status = some status'
  | .idle (some (.finish status')) => s.running = 0 ∧ s.failure.map Failure.status = status'
  | .adding part blocked =>
    (∀ q ∈ s.added ++ s.lost, q < part) ∧ (blocked = true → 0 < live merges s)
  | .waiting _ blocked => blocked = true → 0 < live merges s

structure Holds (merges : Merges) (s : PartitionLanes) : Prop where
  increasing : (s.added ++ s.lost).Pairwise (· < ·)
  lanes : ∀ l < merges.lanes,
    LaneSound merges l s.added s.failure (s.refused · l) (s.lanes l)
  running : s.running = live merges s
  counts : Counts s (owed merges s)
  failure : ∀ f, s.failure = some f → f.lane < merges.lanes ∧
    (s.refused f.part f.lane = some f.status ∨
      laneFailure (status merges) f.lane (s.lanes f.lane).merged = some (f.part, f.status))
  refused : ∀ part l status', s.refused part l = some status' →
    Recorded s.failure part l ∧ ∀ q ∈ (s.lanes l).held, q < part
  last : ∀ part l status', s.refused part l = some status' →
    (s.added ++ s.lost).getLast? = some part
  lost : s.lost = [] ∨ ∃ part status', s.lost = [part] ∧ s.refused part 0 = some status'
  point : Fits merges s s.pc

variable {merges : Merges} {s t : PartitionLanes}

theorem Holds.fits (h : Holds merges s) {pc : Pc} (isPc : s.pc = pc) : Fits merges s pc :=
  isPc ▸ h.point

theorem new_holds (merges : Merges) : Holds merges {} where
  increasing := .nil
  lanes := by
    intro l _
    exact ⟨.inl ⟨rfl, rfl, rfl⟩, List.prefix_rfl, fun _ => rfl, nofun, .inl rfl, nofun⟩
  running := by simp [live]
  counts := by
    have none : owed merges {} = 0 := by
      simp only [owed, Lane.owed, List.flatMap_nil, List.append_nil, coe_nil,
        Finset.sum_const_zero]
    rw [none]
    exact ⟨fun _ => rfl, rfl⟩
  failure := nofun
  refused := nofun
  last := nofun
  lost := .inl rfl
  point := trivial

/-- Lane `l` becomes `lane`, and nothing else that the invariant reads gets lost. -/
structure Replaced (merges : Merges) (s t : PartitionLanes) (l : Nat) (lane : Lane) : Prop where
  lanes : t.lanes = Function.update s.lanes l lane
  added : t.added = s.added
  lost : t.lost = s.lost
  refused : t.refused = s.refused
  running : t.running + (s.lanes l).tasks.length = s.running + lane.tasks.length
  recorded : ∀ part other, Recorded s.failure part other → Recorded t.failure part other
  failure : ∀ f, t.failure = some f → s.failure = some f ∨
    f.lane = l ∧ laneFailure (status merges) l lane.merged = some (f.part, f.status)
  counts : ∀ left, left + (s.lanes l).owed = owed merges s + lane.owed → Counts t left
  pc : t.pc = s.pc ∧ lane.tasks ≠ [] ∨ t.pc = s.pc.wake

theorem Fits.replaced {lane : Lane} (fits : Fits merges s s.pc) (within : l < merges.lanes)
    (replaced : Replaced merges s t l lane) (busy : 0 < s.running) :
    Fits merges t t.pc := by
  have liveAfter : lane.tasks ≠ [] → 0 < live merges t := by
    intro tasks
    apply live_pos within
    rwa [replaced.lanes, Function.update_self]
  have idle : ¬s.running = 0 := Nat.ne_of_gt busy
  cases pc : s.pc with
  | idle last =>
    rw [pc] at fits
    have same : t.pc = .idle last := by
      obtain ⟨same, -⟩ | woken := replaced.pc
      · exact same.trans pc
      · rw [woken, pc]
        rfl
    rw [same]
    match last with
    | none | some (.add none) => trivial
    | some .wait => exact absurd fits idle
    | some (.add (some _)) | some (.finish _) => exact absurd fits.1 idle
  | reading call =>
    rw [pc] at fits
    exact absurd fits idle
  | adding part blocked =>
    rw [pc] at fits
    have above : ∀ q ∈ t.added ++ t.lost, q < part := by
      rw [replaced.added, replaced.lost]
      exact fits.1
    obtain ⟨same, tasks⟩ | woken := replaced.pc
    · rw [same, pc]
      exact ⟨above, fun _ => liveAfter tasks⟩
    · rw [woken, pc]
      exact ⟨above, nofun⟩
  | waiting call blocked =>
    obtain ⟨same, tasks⟩ | woken := replaced.pc
    · rw [same, pc]
      exact fun _ => liveAfter tasks
    · rw [woken, pc]
      exact nofun

theorem Holds.replaced {lane : Lane} (h : Holds merges s) (within : l < merges.lanes)
    (replaced : Replaced merges s t l lane) (busy : (s.lanes l).tasks ≠ [])
    (sound : LaneSound merges l s.added t.failure (s.refused · l) lane)
    (held : lane.held <+: (s.lanes l).held) (merged : (s.lanes l).merged <+: lane.merged) :
    Holds merges t := by
  have member : l ∈ Finset.range merges.lanes := Finset.mem_range.mpr within
  have lengths := Lib.sum_update_add _ s.lanes member lane fun lane => lane.tasks.length
  have owedSum := Lib.sum_update_add _ s.lanes member lane Lane.owed
  rw [← replaced.lanes] at lengths owedSum
  have other : ∀ l', l' ≠ l → t.lanes l' = s.lanes l' := by
    intro l' different
    rw [replaced.lanes, Function.update_of_ne different]
  have here : t.lanes l = lane := by rw [replaced.lanes, Function.update_self]
  constructor
  case increasing =>
    rw [replaced.added, replaced.lost]
    exact h.increasing
  case lanes =>
    intro l' within'
    rw [replaced.added, replaced.refused]
    by_cases same : l' = l
    · subst same
      rw [here]
      exact sound
    · rw [other l' same]
      exact (h.lanes l' within').recorded fun part => replaced.recorded part l'
  case running =>
    have before := h.running
    have after := replaced.running
    unfold live at before ⊢
    omega
  case counts => exact replaced.counts _ owedSum
  case failure =>
    intro f isFailure
    rw [replaced.refused]
    obtain old | ⟨rfl, fails⟩ := replaced.failure f isFailure
    · obtain ⟨inside, real⟩ := h.failure f old
      refine ⟨inside, real.imp id fun fails => ?_⟩
      by_cases same : f.lane = l
      · rw [same] at fails ⊢
        rw [here]
        exact laneFailure_of_prefix merged fails
      · rwa [other f.lane same]
    · rw [here]
      exact ⟨within, .inr fails⟩
  case refused =>
    intro part l' status' isRefused
    rw [replaced.refused] at isRefused
    obtain ⟨recorded, above⟩ := h.refused part l' status' isRefused
    refine ⟨replaced.recorded part l' recorded, fun q inHeld => above q ?_⟩
    by_cases same : l' = l
    · subst same
      rw [here] at inHeld
      exact held.subset inHeld
    · rwa [other l' same] at inHeld
  case last =>
    rw [replaced.added, replaced.lost, replaced.refused]
    exact h.last
  case lost =>
    rw [replaced.lost, replaced.refused]
    exact h.lost
  case point => exact h.point.replaced within replaced (h.running ▸ live_pos within busy)

/-- The head of the loop of `Drain` changes the lane, and its end is counted and told. -/
structure Drained (s t : PartitionLanes) (l : Nat) : Prop where
  lanes : t.lanes = Function.update s.lanes l (s.lanes l).drained
  added : t.added = s.added
  lost : t.lost = s.lost
  refused : t.refused = s.refused
  failure : t.failure = s.failure
  remaining : t.remaining = s.remaining
  pending : t.pending = s.pending
  running : t.running + 1 = s.running + (s.lanes l).drained.tasks.length
  pc : t.pc = s.pc ∧ (s.lanes l).drained.tasks ≠ [] ∨ t.pc = s.pc.wake

theorem drain_drained (s : PartitionLanes) (l : Nat) (busy : 0 < s.running) :
    Drained s (s.drain l [] []) l := by
  cases queue : (s.lanes l).queue with
  | nil =>
    constructor
    case running =>
      simp only [drain, Lane.drained, queue, List.length_nil]
      omega
    case pc => exact .inr (by simp [drain, queue])
    all_goals simp [drain, Lane.drained, queue, setLane]
  | cons part rest =>
    constructor
    case pc => exact .inl (by simp [drain, Lane.drained, queue, setLane])
    all_goals simp [drain, Lane.drained, queue, setLane]

/-- The loop of `Drain` from a state in which only the counters have changed. -/
theorem drain_replaced (counted : Counted s t) (task : (s.lanes l).tasks = [phase])
    (busy : 0 < s.running)
    (counts : ∀ left, left + (s.lanes l).owed = owed merges s + (s.lanes l).drained.owed →
      Counts t left) :
    Replaced merges s (t.drain l [] []) l (s.lanes l).drained := by
  have drained := drain_drained t l (counted.running ▸ busy)
  have sameLane : t.lanes l = s.lanes l := by rw [counted.lanes]
  have failure : (t.drain l [] []).failure = s.failure := drained.failure.trans counted.failure
  constructor
  case lanes =>
    rw [drained.lanes, counted.lanes]
  case added => exact drained.added.trans counted.added
  case lost => exact drained.lost.trans counted.lost
  case refused => exact drained.refused.trans counted.refused
  case running =>
    rw [task, ← counted.running, ← sameLane]
    exact drained.running
  case recorded =>
    intro part other recorded
    rwa [failure]
  case failure =>
    intro f isFailure
    exact .inl (failure ▸ isFailure)
  case counts =>
    intro left same
    obtain ⟨remaining, pending⟩ := counts left same
    exact ⟨drained.remaining ▸ remaining, drained.pending ▸ pending⟩
  case pc =>
    obtain ⟨same, tasks⟩ | woken := drained.pc <;> obtain same' | woken' := counted.pc
    · exact .inl ⟨same.trans same', sameLane ▸ tasks⟩
    · exact .inr (same.trans woken')
    · exact .inr (woken.trans (congrArg Pc.wake same'))
    · rw [woken', Pc.wake_wake] at woken
      exact .inr woken

theorem fail_first (first : ∀ f, s.failure = some f → part < f.part ∨ part = f.part ∧ l < f.lane) :
    s.fail part l status' = { s with failure := some ⟨part, l, status'⟩ } := by
  unfold fail
  split
  · rfl
  · rename_i f old
    exact if_pos (first f old)

theorem fail_later {f : Failure} (old : s.failure = some f)
    (later : NotAfter f.part f.lane part l) :
    s.fail part l status' = s := by
  unfold fail
  rw [old]
  refine if_neg ?_
  unfold NotAfter at later
  omega

theorem fail_spec (s : PartitionLanes) (part : Int) (l : Nat) (status' : Status) :
    ∃ failure, s.fail part l status' = { s with failure } ∧ Recorded failure part l ∧
      (∀ q other, Recorded s.failure q other → Recorded failure q other) ∧
      ∀ f, failure = some f → s.failure = some f ∨ f = ⟨part, l, status'⟩ := by
  by_cases known : Recorded s.failure part l
  · obtain ⟨f, old, later⟩ := known
    exact ⟨s.failure, fail_later old later, ⟨f, old, later⟩, fun _ _ => id, fun _ => .inl⟩
  · have first : ∀ f, s.failure = some f → part < f.part ∨ part = f.part ∧ l < f.lane := by
      intro f old
      have after : ¬NotAfter f.part f.lane part l := fun later => known ⟨f, old, later⟩
      unfold NotAfter at after
      omega
    refine ⟨_, fail_first first, ⟨_, rfl, .inr ⟨rfl, le_refl _⟩⟩, ?_, ?_⟩
    · rintro q other ⟨f, old, notAfter⟩
      refine ⟨_, rfl, ?_⟩
      have earlier := first f old
      unfold NotAfter at notAfter ⊢
      simp only
      omega
    · exact fun f isNew => .inr (Option.some.inj isNew).symm

theorem settle_counted {failure : Option Failure}
    (failed : (s.setLane l { s.lanes l with failed := true }).fail part l status' =
      { s.setLane l { s.lanes l with failed := true } with failure }) :
    Counted { s.setLane l { s.lanes l with failed := true, queue := [] } with failure }
      (s.settle l part (some status')) := by
  simp only [settle, failed]
  refine Counted.trans ?_ (done_counted _ part)
  have counted := dones_counted (s.lanes l).queue
    { s.setLane l { s.lanes l with failed := true } with failure }
  generalize (s.lanes l).queue.foldl done _ = u at counted
  obtain ⟨lanes, running, failure', added, lost, refused, pc⟩ := counted
  refine ⟨?_, running, failure', added, lost, refused, pc⟩
  simp [setLane, lanes]

theorem settle_counts {left : Multiset Int} {failure : Option Failure}
    (counts : Counts s (left + {part} + ↑(s.lanes l).queue))
    (failed : (s.setLane l { s.lanes l with failed := true }).fail part l status' =
      { s.setLane l { s.lanes l with failed := true } with failure }) :
    Counts (s.settle l part (some status')) left := by
  have start : Counts { s.setLane l { s.lanes l with failed := true } with failure }
      (left + {part} + ↑(s.lanes l).queue) := ⟨counts.remaining, counts.pending⟩
  obtain ⟨remaining, pending⟩ := start.dones
  simp only [settle, failed]
  exact Counts.done ⟨remaining, pending⟩

theorem drained_owed (lane : Lane) : lane.drained.owed = ↑lane.queue := by
  unfold Lane.drained Lane.owed
  split <;> rename_i queue <;> simp [Phase.inHand, queue]

theorem drained_held {lane : Lane} (task : lane.tasks = [phase]) (due : phase.due = []) :
    lane.drained.held = lane.held := by
  unfold Lane.drained Lane.held
  split <;> rename_i queue <;> simp [task, due, queue]

theorem drained_merged (lane : Lane) : lane.drained.merged = lane.merged := by
  unfold Lane.drained
  split <;> rfl

namespace Holds

section

variable (h : Holds merges s) (within : l < merges.lanes)
include h within

theorem running_pos (busy : (s.lanes l).tasks ≠ []) : 0 < s.running := by
  rw [h.running]
  exact live_pos within busy

theorem startStep (task : (s.lanes l).tasks = [.start]) : Holds merges (s.drain l [] []) := by
  have busy : (s.lanes l).tasks ≠ [] := by simp [task]
  have replaced : Replaced merges s (s.drain l [] []) l (s.lanes l).drained := by
    refine drain_replaced ⟨rfl, rfl, rfl, rfl, rfl, rfl, .inl rfl⟩ task
      (h.running_pos within busy) fun left same => ?_
    have here : (s.lanes l).owed = ↑(s.lanes l).queue := by simp [Lane.owed, task, Phase.inHand]
    rw [drained_owed, here, add_left_inj] at same
    exact same ▸ h.counts
  have sound := (h.lanes l within).drained task rfl rfl
  refine h.replaced within replaced busy ?_ ?_ ?_
  · rwa [(drain_drained s l (h.running_pos within busy)).failure]
  · rw [drained_held task rfl]
  · rw [drained_merged]

theorem mergeStep (task : (s.lanes l).tasks = [.merging part]) :
    Holds merges (s.work merges l [] [] (.merging part)) := by
  have sound := (h.lanes l within).mergeEnds task
  refine h.replaced within ⟨rfl, rfl, rfl, rfl, ?_, fun _ _ => id, fun _ => .inl, ?_,
    .inl ⟨rfl, List.cons_ne_nil _ _⟩⟩ (by simp [task]) sound ?_ ?_
  · simp [task, work, setLane]
  · intro left same
    have owedSame : Lane.owed
        { s.lanes l with
          tasks := [.merged part (status merges l (s.lanes l).merged part)]
          merged := (s.lanes l).merged ++ [part] } = (s.lanes l).owed := by
      simp [Lane.owed, task, Phase.inHand]
    have same := same.trans (congrArg _ owedSame)
    rw [add_left_inj] at same
    exact same ▸ ⟨h.counts.remaining, h.counts.pending⟩
  · simp [Lane.held, task, Phase.due]
  · exact List.prefix_append _ _

theorem mergedStep (task : (s.lanes l).tasks = [.merged part none]) :
    Holds merges (s.work merges l [] [] (.merged part none)) := by
  have busy : (s.lanes l).tasks ≠ [] := by simp [task]
  have replaced : Replaced merges s ((s.done part).drain l [] []) l (s.lanes l).drained := by
    refine drain_replaced (done_counted s part) task (h.running_pos within busy) fun left same => ?_
    have here : (s.lanes l).owed = {part} + ↑(s.lanes l).queue := by
      simp [Lane.owed, task, Phase.inHand, ← cons_coe]
    rw [drained_owed, here, ← add_assoc, add_left_inj] at same
    exact (same ▸ h.counts).done
  refine h.replaced within replaced busy ?_ ?_ ?_
  · have failure := replaced.failure
    have sound := (h.lanes l within).drained task rfl rfl
    exact sound.recorded fun q => replaced.recorded q l
  · rw [drained_held task rfl]
  · rw [drained_merged]

/-- The lane stops at its failure: what it has queued is dropped. -/
theorem failedStep (task : (s.lanes l).tasks = [.merged part (some status')]) :
    Holds merges (s.work merges l [] [] (.merged part (some status'))) := by
  have busy : (s.lanes l).tasks ≠ [] := by simp [task]
  have positive := h.running_pos within busy
  obtain ⟨failure, failed, recorded, keeps, either⟩ :=
    fail_spec (s.setLane l { s.lanes l with failed := true }) part l status'
  have sound := (h.lanes l within).recorded fun q => keeps q l
  have fails : laneFailure (status merges) l (s.lanes l).merged = some (part, status') :=
    sound.health_of_task task
  have counted := settle_counted failed
  have drained := drain_drained (s.settle l part (some status')) l (counted.running ▸ positive)
  have lane : ((s.settle l part (some status')).lanes l).drained =
      { s.lanes l with queue := [], running := false, failed := true, tasks := [] } := by
    rw [counted.lanes]
    simp [setLane, Lane.drained]
  have newFailure := drained.failure.trans counted.failure
  refine h.replaced within (?_ : Replaced merges s _ l { s.lanes l with
    queue := [], running := false, failed := true, tasks := [] }) busy ?_ ?_ ?_
  · constructor
    case lanes =>
      rw [work, drained.lanes, lane, counted.lanes]
      simp [setLane]
    case added => exact drained.added.trans counted.added
    case lost => exact drained.lost.trans counted.lost
    case refused => exact drained.refused.trans counted.refused
    case running =>
      have running := drained.running
      rw [lane, counted.running] at running
      rw [task]
      exact running
    case recorded =>
      intro q other old
      rw [work, newFailure]
      exact keeps q other old
    case failure =>
      intro f isFailure
      rw [work, newFailure] at isFailure
      refine (either f isFailure).imp id ?_
      rintro rfl
      exact ⟨rfl, fails⟩
    case counts =>
      intro left same
      have none : Lane.owed
          { s.lanes l with queue := [], running := false, failed := true, tasks := [] } = 0 := rfl
      have here : (s.lanes l).owed = {part} + ↑(s.lanes l).queue := by
        simp [Lane.owed, task, Phase.inHand, ← cons_coe]
      rw [none, add_zero, here, ← add_assoc] at same
      have counts := settle_counts (same ▸ h.counts) failed
      exact ⟨drained.remaining ▸ counts.remaining, drained.pending ▸ counts.pending⟩
    case pc =>
      right
      obtain ⟨-, tasks⟩ | woken := drained.pc
      · rw [lane] at tasks
        contradiction
      · obtain same' | woken' := counted.pc
        · exact woken.trans (congrArg Pc.wake same')
        · exact woken.trans ((congrArg Pc.wake woken').trans s.pc.wake_wake)
  · rw [work, newFailure]
    exact sound.stops task recorded
  · simp [Lane.held]
  · exact List.prefix_rfl

end

/-- A lane has one task at most, and its steps keep the invariant. -/
theorem task {before after : List Phase} (h : Holds merges s) (within : l < merges.lanes)
    (live : (s.lanes l).tasks = before ++ phase :: after) :
    Holds merges (s.work merges l before after phase) := by
  obtain ⟨-, none, -⟩ | ⟨-, only, one⟩ := (h.lanes l within).one
  · rw [none] at live
    simp at live
  · rw [one, eq_comm, List.append_eq_singleton_iff] at live
    obtain ⟨rfl, task⟩ | ⟨-, none⟩ := live
    · obtain ⟨rfl, rfl⟩ := List.cons.inj task
      cases phase with
      | start => exact h.startStep within one
      | merging part => exact h.mergeStep within one
      | merged part status' =>
        cases status' with
        | none => exact h.mergedStep within one
        | some status' => exact h.failedStep within one
    · contradiction

end Holds

end Antb1.Exec.PartitionLanes
