import Antb1.Exec.LaneTaskProofs
import Mathlib.Data.Prod.Lex

/-! The partition lanes merge the parts in order, fail as the serial run does, and let every
call return. -/
namespace Antb1.Exec.PartitionLanes

open Common Serial List Nat Function

variable {merges : Merges} {s t : PartitionLanes} {part : Int} {state : PartitionLanes × Bool}
  {queuing : Nat → Queuing} {pressure room : Bool}

theorem Holds.unfailed (h : Holds merges s) (clean : s.failure = none) :
    (∀ l < merges.lanes, (s.lanes l).failed = false) ∧ (∀ part l, s.refused part l = none) ∧
      s.lost = [] := by
  have unrecorded : ∀ part l, ¬Recorded s.failure part l := by
    rintro part l ⟨f, isFailure, -⟩
    rw [clean] at isFailure
    contradiction
  have unrefused : ∀ part l, s.refused part l = none := by
    intro part l
    by_contra isRefused
    obtain ⟨status', isRefused⟩ := Option.ne_none_iff_exists'.mp isRefused
    exact unrecorded part l (h.refused part l status' isRefused).1
  refine ⟨?_, unrefused, ?_⟩
  · intro l within
    by_contra failed
    obtain ⟨-, -, part, status', -, recorded⟩ | ⟨part, status', isRefused, -⟩ :=
      (h.lanes l within).failed (by simpa using failed)
    · exact unrecorded part l recorded
    · rw [unrefused] at isRefused
      contradiction
  · obtain none | ⟨part, status', -, isRefused⟩ := h.lost
    · exact none
    · rw [unrefused] at isRefused
      contradiction

/-- Lane `l` after its turn in the loop of `Add`. -/
def Given (s t : PartitionLanes) (part : Int) (l : Nat) : Prop :=
  t.refused part l = none ∧ t.lanes l = (s.lanes l).give part ∨
    (t.refused part l).isSome ∧ t.lanes l = { s.lanes l with failed := true }

/-- A failure is that of the first lane, among those before lane `turn`, that refused the part. -/
def FirstRefused (s : PartitionLanes) (part : Int) (turn : Nat) (failure : Option Failure) : Prop :=
  ∃ l status', l < turn ∧ failure = some ⟨part, l, status'⟩ ∧ s.refused part l = some status' ∧
    ∀ other < l, s.refused part other = none

/-- The loop of `Add` before lane `turn`; `s` is the state `Add` found. -/
structure Giving (merges : Merges) (s : PartitionLanes) (part : Int) (turn : Nat)
    (state : PartitionLanes × Bool) : Prop where
  given : ∀ l < turn, Given s state.1 part l
  waiting : ∀ l, turn ≤ l → state.1.lanes l = s.lanes l ∧ state.1.refused part l = none
  refused : ∀ q l, q ≠ part → state.1.refused q l = none
  failure : state.1.failure = none ∧ state.2 = false ∧ (∀ l, state.1.refused part l = none) ∨
    state.2 = true ∧ FirstRefused state.1 part turn state.1.failure
  running : state.1.running = live merges state.1
  counts : Counts state.1
    (owed merges state.1 + Multiset.replicate (merges.lanes - turn) part)
  added : state.1.added = s.added ++ [part]
  lost : state.1.lost = []
  pc : state.1.pc = .adding part false

theorem give_owed (lane : Lane) (part : Int) : (lane.give part).owed = lane.owed + {part} := by
  unfold Lane.give Lane.owed
  split <;> simp [Phase.inHand, ← Multiset.coe_add, add_assoc]

theorem give_tasks (lane : Lane) (part : Int) :
    (lane.give part).tasks.length = lane.tasks.length + if lane.running then 0 else 1 := by
  unfold Lane.give
  split <;> simp_all

theorem Given.of_eq {t' : PartitionLanes} {l : Nat} (given : Given s t part l)
    (lanes : t'.lanes l = t.lanes l) (refused : t'.refused part l = t.refused part l) :
    Given s t' part l := by
  rwa [Given, lanes, refused]

section Turn

variable {turn : Nat} {failed : Bool} {status' : Status}

theorem refused_self : (t.refuse turn part status').refused part turn = some status' := by
  simp [PartitionLanes.refuse]

theorem refused_of_ne {l : Nat} (different : l ≠ turn) :
    (t.refuse turn part status').refused part l = t.refused part l := by
  simp [PartitionLanes.refuse, different]

variable (giving : Giving merges s part turn (t, failed))
include giving

theorem Giving.queue (within : turn < merges.lanes) :
    Giving merges s part (turn + 1) (t.queue turn part, failed) := by
  obtain ⟨here, unrefused⟩ := giving.waiting turn (le_refl _)
  have member : turn ∈ Finset.range merges.lanes := Finset.mem_range.mpr within
  have elsewhere : ∀ l, l ≠ turn → (t.queue turn part).lanes l = t.lanes l :=
    fun l different => update_of_ne different _ _
  have owedSum : owed merges (t.queue turn part) = owed merges t + {part} := by
    have sum := Lib.sum_update_add _ t.lanes member ((t.lanes turn).give part) Lane.owed
    rw [give_owed, add_comm (t.lanes turn).owed, ← add_assoc, add_left_inj] at sum
    exact sum
  have liveSum : live merges (t.queue turn part) =
      live merges t + if (t.lanes turn).running then 0 else 1 := by
    have sum := Lib.sum_update_add _ t.lanes member ((t.lanes turn).give part)
      fun lane => lane.tasks.length
    rw [give_tasks, add_comm (t.lanes turn).tasks.length, ← add_assoc, add_left_inj] at sum
    exact sum
  constructor
  case given =>
    intro l below
    obtain below | rfl := Nat.lt_succ_iff_lt_or_eq.mp below
    · exact (giving.given l below).of_eq (elsewhere l (Nat.ne_of_lt below)) rfl
    · exact .inl ⟨unrefused, by rw [← here]; exact update_self ..⟩
  case waiting =>
    intro l above
    rw [elsewhere l (Nat.ne_of_gt above)]
    exact giving.waiting l (le_of_succ_le above)
  case refused => exact giving.refused
  case failure =>
    obtain clean | ⟨isFailed, l, status', below, rest⟩ := giving.failure
    · exact .inl clean
    · exact .inr ⟨isFailed, l, status', lt_succ_of_lt below, rest⟩
  case running =>
    rw [liveSum, ← giving.running]
    simp only [PartitionLanes.queue]
    split <;> rfl
  case counts =>
    have left : merges.lanes - turn = merges.lanes - (turn + 1) + 1 := by omega
    have counts := giving.counts
    rw [left, Multiset.replicate_succ, ← Multiset.singleton_add, ← add_assoc, ← owedSum] at counts
    exact ⟨counts.remaining, counts.pending⟩
  case added => exact giving.added
  case lost => exact giving.lost
  case pc => exact giving.pc

theorem Giving.refuse_failure (status' : Status) : ∃ failure,
    (t.refuse turn part status').fail part turn status' =
      { t.refuse turn part status' with failure } ∧
    FirstRefused (t.refuse turn part status') part (turn + 1) failure := by
  obtain ⟨clean, -, unrefused⟩ | ⟨-, l, status'', below, isFailure, isRefused, first⟩ :=
    giving.failure
  · have clean : (t.refuse turn part status').failure = none := clean
    refine ⟨_, fail_first (by simp [clean]), turn, status', lt_succ_self _, rfl, refused_self, ?_⟩
    intro other below
    exact (refused_of_ne (Nat.ne_of_lt below)).trans (unrefused other)
  · refine ⟨_, fail_later isFailure (.inr ⟨rfl, below.le⟩), l, status'', lt_succ_of_lt below,
      isFailure, (refused_of_ne (Nat.ne_of_lt below)).trans isRefused, ?_⟩
    intro other less
    exact (refused_of_ne (Nat.ne_of_lt (less.trans below))).trans (first other less)

theorem Giving.refuse (within : turn < merges.lanes) : Giving merges s part (turn + 1)
      (((t.refuse turn part status').fail part turn status').done part, true) := by
  obtain ⟨here, unrefused⟩ := giving.waiting turn (le_refl _)
  have member : turn ∈ Finset.range merges.lanes := Finset.mem_range.mpr within
  have elsewhere : ∀ l, l ≠ turn → (t.refuse turn part status').lanes l = t.lanes l :=
    fun l different => update_of_ne different _ _
  have owedSum : owed merges (t.refuse turn part status') = owed merges t := by
    have sum := Lib.sum_update_add _ t.lanes member { t.lanes turn with failed := true } Lane.owed
    exact add_right_cancel sum
  have liveSum : live merges (t.refuse turn part status') = live merges t := by
    have sum := Lib.sum_update_add _ t.lanes member { t.lanes turn with failed := true }
      fun lane => lane.tasks.length
    exact add_right_cancel sum
  obtain ⟨failure, failed', first⟩ := giving.refuse_failure status'
  rw [failed']
  have counted := done_counted { t.refuse turn part status' with failure } part
  constructor
  case given =>
    intro l below
    obtain below | rfl := Nat.lt_succ_iff_lt_or_eq.mp below
    · have different := Nat.ne_of_lt below
      apply (giving.given l below).of_eq
      · rw [counted.lanes]
        exact elsewhere l different
      · rw [counted.refused]
        exact refused_of_ne different
    · right
      rw [counted.lanes, counted.refused]
      refine ⟨by simp [refused_self], ?_⟩
      rw [← here]
      exact update_self ..
  case waiting =>
    intro l above
    have different := Nat.ne_of_gt above
    rw [counted.lanes, counted.refused]
    refine ⟨(elsewhere l different).trans ?_, (refused_of_ne different).trans ?_⟩
    · exact (giving.waiting l (le_of_succ_le above)).1
    · exact (giving.waiting l (le_of_succ_le above)).2
  case refused =>
    intro q l different
    rw [counted.refused]
    simp only [PartitionLanes.refuse, update_of_ne different]
    exact giving.refused q l different
  case failure =>
    refine .inr ⟨rfl, ?_⟩
    rw [FirstRefused, counted.failure, counted.refused]
    exact first
  case running =>
    have same : live merges (PartitionLanes.done { t.refuse turn part status' with failure } part) =
        live merges (t.refuse turn part status') := by
      unfold live
      rw [counted.lanes]
    rw [counted.running, same, liveSum]
    exact giving.running
  case counts =>
    have left : merges.lanes - turn = merges.lanes - (turn + 1) + 1 := by omega
    have counts := giving.counts
    rw [left, Multiset.replicate_succ, Multiset.add_cons, ← Multiset.singleton_add, add_comm,
      ← owedSum] at counts
    have same : owed merges (PartitionLanes.done { t.refuse turn part status' with failure } part) =
        owed merges (t.refuse turn part status') := by
      unfold owed
      rw [counted.lanes]
    rw [same]
    exact Counts.done ⟨counts.remaining, counts.pending⟩
  case added => exact counted.added.trans giving.added
  case lost => exact counted.lost.trans giving.lost
  case pc =>
    have adding : (t.refuse turn part status').pc = .adding part false := giving.pc
    obtain same | woken := counted.pc
    · exact same.trans adding
    · exact woken.trans (congrArg Pc.wake adding)

end Turn

theorem Giving.turn {turn : Nat} (giving : Giving merges s part turn state)
    (within : turn < merges.lanes) (ok : (s.lanes turn).failed = false) :
    Giving merges s part (turn + 1) (addLane part queuing state turn) := by
  obtain ⟨t, failed⟩ := state
  have ok : ¬(t.lanes turn).failed = true := by
    rw [(giving.waiting turn (le_refl _)).1, ok]
    exact Bool.false_ne_true
  simp only [addLane, if_neg ok]
  split
  · exact giving.queue within
  · exact giving.refuse within

theorem Holds.made (h : Holds merges s) (clean : s.failure = none) (lanes : merges.lanes ≠ 0)
    (above : ∀ q ∈ s.added ++ s.lost, q < part) (pc : s.pc = .adding part false) :
    Giving merges s part 0
      ({ s with
          pending := s.pending + 1
          remaining := Function.update s.remaining part merges.lanes
          added := s.added ++ [part] }, false) := by
  obtain ⟨-, unrefused, lost⟩ := h.unfailed clean
  constructor
  case given => exact nofun
  case waiting => exact fun l _ => ⟨rfl, unrefused part l⟩
  case refused => exact fun q l _ => unrefused q l
  case failure => exact .inl ⟨clean, rfl, unrefused part⟩
  case running => exact h.running
  case counts =>
    have new : part ∉ owed merges s := by
      intro member
      obtain ⟨l, within, inLane⟩ := Multiset.mem_sum.mp member
      have old := (h.lanes l (Finset.mem_range.mp within)).owed part inLane
      exact lt_irrefl part (above part (mem_append_left _ old))
    exact h.counts.made new lanes _
  case added => rfl
  case lost => exact lost
  case pc => exact pc

theorem Giving.all (giving : Giving merges s part 0 state) (queuing : Nat → Queuing)
    (ok : ∀ l < merges.lanes, (s.lanes l).failed = false) :
    Giving merges s part merges.lanes
      ((List.range merges.lanes).foldl (addLane part queuing) state) := by
  have turns : ∀ n ≤ merges.lanes, Giving merges s part n
      ((List.range n).foldl (addLane part queuing) state) := by
    intro n
    induction n with
    | zero => exact fun _ => giving
    | succ n ih =>
      intro within
      rw [range_succ, foldl_append]
      exact (ih (le_of_succ_le within)).turn within (ok n within)
  exact turns merges.lanes (le_refl _)

theorem Giving.holds (giving : Giving merges s part merges.lanes state) (h : Holds merges s)
    (clean : s.failure = none) (above : ∀ q ∈ s.added ++ s.lost, q < part) (pc : Pc)
    (fits : Fits merges { state.1 with pc } pc) : Holds merges { state.1 with pc } := by
  obtain ⟨ok, -, lost⟩ := h.unfailed clean
  rw [lost, append_nil] at above
  have increasing := h.increasing
  rw [lost, append_nil] at increasing
  have refusals : ∀ q l status', state.1.refused q l = some status' →
      q = part ∧ l < merges.lanes ∧ state.1.lanes l = { s.lanes l with failed := true } := by
    intro q l status' isRefused
    have same : q = part := by
      by_contra different
      rw [giving.refused q l different] at isRefused
      contradiction
    subst same
    have within : l < merges.lanes := by
      by_contra outside
      rw [(giving.waiting l (Nat.le_of_not_lt outside)).2] at isRefused
      contradiction
    obtain ⟨none, -⟩ | ⟨-, lane⟩ := giving.given l within
    · rw [none] at isRefused
      contradiction
    · exact ⟨rfl, within, lane⟩
  constructor
  case increasing =>
    rw [giving.added, giving.lost, append_nil, pairwise_append]
    exact ⟨increasing, pairwise_singleton _ _, by simpa using above⟩
  case lanes =>
    intro l within
    have sound := h.lanes l within
    rw [giving.added]
    obtain ⟨-, lane⟩ | ⟨isRefused, lane⟩ := giving.given l within
    · rw [lane]
      exact sound.give (ok l within) part _ _
    · obtain ⟨status', isRefused⟩ := Option.isSome_iff_exists.mp isRefused
      rw [lane]
      exact sound.refuse (ok l within) isRefused
  case running => exact giving.running
  case counts =>
    have counts := giving.counts
    rw [Nat.sub_self, Multiset.replicate_zero, add_zero] at counts
    exact ⟨counts.remaining, counts.pending⟩
  case failure =>
    intro f isFailure
    obtain ⟨none, -⟩ | ⟨-, l, status', below, some, isRefused, -⟩ := giving.failure
    · rw [none] at isFailure
      contradiction
    · rw [some] at isFailure
      cases isFailure
      exact ⟨below, .inl isRefused⟩
  case refused =>
    intro q l status' isRefused
    obtain ⟨rfl, within, lane⟩ := refusals q l status' isRefused
    constructor
    · obtain ⟨-, -, none⟩ | ⟨-, l', status'', -, some, -, first⟩ := giving.failure
      · rw [none] at isRefused
        contradiction
      · refine ⟨_, some, .inr ⟨rfl, ?_⟩⟩
        by_contra earlier
        rw [first l (Nat.lt_of_not_le earlier)] at isRefused
        contradiction
    · intro x inHeld
      have same : Lane.held (state.1.lanes l) = s.added := by
        rw [lane]
        exact (h.lanes l within).all (ok l within)
      rw [same] at inHeld
      exact above x inHeld
  case last =>
    intro q l status' isRefused
    obtain ⟨rfl, -⟩ := refusals q l status' isRefused
    rw [giving.added, giving.lost]
    simp
  case lost => exact .inl giving.lost
  case point => exact fits

theorem Holds.lose (h : Holds merges s) {status' : Status} (clean : s.failure = none)
    (lanes : merges.lanes ≠ 0) (above : ∀ q ∈ s.added ++ s.lost, q < part) :
    Holds merges
      { s.fail part 0 status' with
        lost := [part]
        refused := Function.update s.refused part
          (Function.update (s.refused part) 0 (some status'))
        pc := .waiting .add false } := by
  obtain ⟨ok, unrefused, lost⟩ := h.unfailed clean
  rw [lost, append_nil] at above
  have increasing := h.increasing
  rw [lost, append_nil] at increasing
  have only : ∀ q l status'', Function.update s.refused part
      (Function.update (s.refused part) 0 (some status')) q l = some status'' →
      q = part ∧ l = 0 := by
    intro q l status'' isRefused
    by_cases isPart : q = part
    · refine ⟨isPart, ?_⟩
      by_contra notFirst
      rw [isPart, update_self, update_of_ne notFirst, unrefused] at isRefused
      contradiction
    · rw [update_of_ne isPart, unrefused] at isRefused
      contradiction
  rw [fail_first (by simp [clean])]
  constructor
  case increasing =>
    rw [pairwise_append]
    exact ⟨increasing, pairwise_singleton _ _, by simpa using above⟩
  case lanes => exact fun l within => (h.lanes l within).of_ok (ok l within) _ _
  case running => exact h.running
  case counts => exact ⟨h.counts.remaining, h.counts.pending⟩
  case failure =>
    intro f isFailure
    cases isFailure
    exact ⟨pos_of_ne_zero lanes, .inl (by simp)⟩
  case refused =>
    intro q l status'' isRefused
    obtain ⟨rfl, rfl⟩ := only q l status'' isRefused
    refine ⟨⟨_, rfl, .inr ⟨rfl, le_refl _⟩⟩, fun x inHeld => above x ?_⟩
    exact (h.lanes 0 (pos_of_ne_zero lanes)).held.subset inHeld
  case last =>
    intro q l status'' isRefused
    obtain ⟨rfl, rfl⟩ := only q l status'' isRefused
    simp
  case lost => exact .inr ⟨part, status', rfl, by simp⟩
  case point => exact nofun

theorem Holds.above (h : Holds merges s) (pc : s.pc = .adding part false) :
    ∀ q ∈ s.added ++ s.lost, q < part := (h.fits pc).1

theorem Holds.add (h : Holds merges s) (room : Bool) (queuing : Nat → Queuing)
    (pc : s.pc = .adding part false) : Holds merges (s.add merges room queuing part) := by
  have above := h.above pc
  unfold PartitionLanes.add
  by_cases failed : s.failure.isSome = true
  · rw [if_pos failed]
    exact { h with counts := ⟨h.counts.remaining, h.counts.pending⟩, point := nofun }
  rw [if_neg failed]
  have clean : s.failure = none := by simpa using failed
  by_cases lanes : merges.lanes = 0
  · rw [if_pos lanes]
    exact { h with counts := ⟨h.counts.remaining, h.counts.pending⟩, point := trivial }
  rw [if_neg lanes]
  cases room with
  | false => exact h.lose clean lanes above
  | true =>
    have giving := (h.made clean lanes above pc).all queuing (h.unfailed clean).1
    rw [if_pos rfl]
    simp only
    split
    · exact giving.holds h clean above _ nofun
    · exact giving.holds h clean above _ trivial

theorem Holds.at (h : Holds merges s) (pc : Pc) (fits : Fits merges { s with pc } pc) :
    Holds merges { s with pc } :=
  { h with counts := ⟨h.counts.remaining, h.counts.pending⟩, point := fits }

theorem Counts.pending_le {owed : Multiset Int} (counts : Counts s owed) (positive : 0 < s.pending) :
    owed ≠ 0 := by
  rintro rfl
  rw [counts.pending] at positive
  simp at positive

theorem Holds.live_of_pending (h : Holds merges s) (positive : 0 < s.pending) :
    0 < live merges s := by
  obtain ⟨part, member⟩ := Multiset.exists_mem_of_ne_zero (h.counts.pending_le positive)
  obtain ⟨l, within, inLane⟩ := Multiset.mem_sum.mp member
  apply live_pos (Finset.mem_range.mp within)
  obtain ⟨-, tasks, queue⟩ | ⟨-, phase, tasks⟩ := (h.lanes l (Finset.mem_range.mp within)).one
  · simp [Lane.owed, tasks, queue] at inLane
  · simp [tasks]

theorem one_le_limit (merges : Merges) (pressure : Bool) : 1 ≤ limit merges pressure := by
  unfold limit
  split_ifs <;> omega

/-- Where a step of the consumer takes a call, unless it adds a part. -/
inductive Moves (s : PartitionLanes) : Pc → Pc → Prop
  | sleeps {part : Int} (full : 0 < s.pending) : Moves s (.adding part false) (.adding part true)
  | waits {call : Call} (busy : s.running ≠ 0) :
      Moves s (.waiting call false) (.waiting call true)
  | waited (rest : s.running = 0) : Moves s (.waiting .wait false) (.idle (some .wait))
  | reads {call : Call} (rest : s.running = 0) : Moves s (.waiting call false) (.reading call)
  | replies {call : Call} :
      Moves s (.reading call) (.idle (some (call.reply (s.failure.map Failure.status))))

theorem advance_moves (advanced : s.advance merges pressure room queuing = some t) :
    (∃ part, s.pc = .adding part false ∧ t = s.add merges room queuing part) ∨
      ∃ pc, Moves s s.pc pc ∧ t = { s with pc } := by
  unfold PartitionLanes.advance at advanced
  split at advanced
  case h_1 | h_2 | h_3 => cases advanced
  case h_4 part pc =>
    split at advanced <;> cases advanced
    · exact .inl ⟨part, pc, rfl⟩
    · rename_i full
      simp only [Bool.or_eq_true, not_or, decide_eq_true_eq, not_lt] at full
      have := one_le_limit merges pressure
      exact .inr ⟨_, pc ▸ .sleeps (by omega), rfl⟩
  case h_5 call pc =>
    split at advanced
    · rename_i rest
      cases call <;> cases advanced
      · exact .inr ⟨_, pc ▸ .reads rest, rfl⟩
      · exact .inr ⟨_, pc ▸ .reads rest, rfl⟩
      · exact .inr ⟨_, pc ▸ .waited rest, rfl⟩
    · rename_i busy
      cases advanced
      exact .inr ⟨_, pc ▸ .waits busy, rfl⟩
  case h_6 call pc =>
    cases advanced
    exact .inr ⟨_, pc ▸ .replies, rfl⟩

theorem Holds.advance (h : Holds merges s)
    (advanced : s.advance merges pressure room queuing = some t) : Holds merges t := by
  obtain ⟨part, pc, rfl⟩ | ⟨pc, moves, rfl⟩ := advance_moves advanced
  · exact h.add room queuing pc
  have point := h.point
  apply h.at
  generalize s.pc = before at moves point
  cases moves with
  | sleeps full => exact ⟨point.1, fun _ => h.live_of_pending full⟩
  | waits busy => exact fun _ => pos_of_ne_zero (h.running ▸ busy)
  | waited rest | reads rest => exact rest
  | @replies call =>
    cases call with
    | add =>
      cases failure : s.failure with
      | none => simp [Call.reply, Fits]
      | some f => exact ⟨point, by simp⟩
    | finish => exact ⟨point, rfl⟩
    | wait => exact point

theorem Holds.wake (h : Holds merges s) : Holds merges s.notifyAll := by
  apply h.at
  cases pc : s.pc with
  | adding part blocked => exact ⟨(h.fits pc).1, nofun⟩
  | waiting call blocked => exact nofun
  | idle last =>
    have point := h.fits pc
    match last with
    | none | some (.add none) | some .wait => exact point
    | some (.add (some _)) | some (.finish _) => exact point
  | reading call => exact h.fits pc

theorem Holds.works (s t : PartitionLanes) (works : Works merges s t) (h : Holds merges s) :
    Holds merges t := by
  cases works with
  | consumer _ _ _ _ advanced => exact h.advance advanced
  | task _ _ _ _ within live => exact h.task within live

namespace Holds

variable {l : Nat}

section Holds

variable (h : Holds merges s)
include h

theorem at_rest (rest : s.running = 0) (within : l < merges.lanes) :
    (s.lanes l).tasks = [] ∧ (s.lanes l).held = (s.lanes l).merged := by
  have tasks : (s.lanes l).tasks = [] := by
    by_contra busy
    exact absurd rest (Nat.ne_of_gt (h.running_pos within busy))
  obtain ⟨-, -, queue⟩ | ⟨-, phase, task⟩ := (h.lanes l within).one
  · exact ⟨tasks, by simp [Lane.held, tasks, queue]⟩
  · rw [tasks] at task
    contradiction

theorem outcome_held (held : part ∈ (s.lanes l).held) (before : List Int) :
    s.outcome merges l before part = status merges l before part := by
  cases isRefused : s.refused part l with
  | none => rw [outcome, isRefused, Option.none_or, status]
  | some status' => exact absurd ((h.refused part l status' isRefused).2 part held) (lt_irrefl part)

theorem laneFailure_merged :
    laneFailure (s.outcome merges) l (s.lanes l).merged =
      laneFailure (status merges) l (s.lanes l).merged := by
  apply laneFailureFrom_congr
  intro before part member
  exact h.outcome_held (by simp [Lane.held, member]) before

section

variable (rest : s.running = 0)
include rest

/-- How a lane at rest has ended: at its failure, at a part it could not take, or at the end of
the parts added. -/
theorem laneEnd (within : l < merges.lanes) :
    (∃ part status', part ∈ (s.lanes l).held ∧ Recorded s.failure part l ∧
      laneFailure (s.outcome merges) l (s.added ++ s.lost) = some (part, status')) ∨
    (∃ part status', s.refused part l = some status' ∧
      laneFailure (s.outcome merges) l (s.added ++ s.lost) = some (part, status')) ∨
    (s.lanes l).held = s.added ∧ laneFailure (s.outcome merges) l s.added = none := by
  obtain ⟨tasks, held⟩ := h.at_rest rest within
  have sound := h.lanes l within
  have inOrder := sound.held
  rw [held] at inOrder
  have stopped : Stopped merges l s.failure (s.lanes l) → ∃ part status',
      part ∈ (s.lanes l).held ∧ Recorded s.failure part l ∧
        laneFailure (s.outcome merges) l (s.added ++ s.lost) = some (part, status') := by
    rintro ⟨-, -, part, status', fails, recorded⟩
    rw [held]
    refine ⟨part, status', laneFailureFrom_mem fails, recorded, ?_⟩
    rw [← h.laneFailure_merged] at fails
    exact laneFailure_of_prefix (inOrder.trans (prefix_append _ _)) fails
  obtain clean | failed := sound.health
  · rw [tasks, findSome?_nil, ← h.laneFailure_merged] at clean
    cases failed : (s.lanes l).failed with
    | false =>
      have all := sound.all failed
      rw [held] at all
      exact .inr (.inr ⟨held.trans all, all ▸ clean⟩)
    | true =>
      obtain failed | ⟨part, status', isRefused, isPrefix⟩ := sound.failed failed
      · exact .inl (stopped failed)
      · refine .inr (.inl ⟨part, status', isRefused, ?_⟩)
        rw [held] at isPrefix
        apply laneFailure_of_prefix (isPrefix.trans (prefix_append _ _))
        rw [laneFailure_snoc, clean, outcome, isRefused]
        rfl
  · exact .inl (stopped failed)

theorem recorded_of_laneFailure (within : l < merges.lanes) {failure : Int × Status}
    (fails : laneFailure (s.outcome merges) l (s.added ++ s.lost) = some failure) :
    Recorded s.failure failure.1 l := by
  obtain ⟨part, status', -, recorded, same⟩ | ⟨part, status', isRefused, same⟩ | ⟨-, clean⟩ :=
    h.laneEnd rest within
  · rw [same] at fails
    cases fails
    exact recorded
  · rw [same] at fails
    cases fails
    exact (h.refused part l status' isRefused).1
  · rw [laneFailure_append, clean, Option.none_or] at fails
    obtain none | ⟨part, status', lost, isRefused⟩ := h.lost
    · rw [none] at fails
      contradiction
    · -- the part that was lost is a failure of lane 0, before any of this lane
      have member := laneFailureFrom_mem fails
      rw [lost, mem_singleton] at member
      obtain ⟨f, isFailure, notAfter⟩ := (h.refused part 0 status' isRefused).1
      refine ⟨f, isFailure, ?_⟩
      unfold NotAfter at notAfter ⊢
      omega

theorem laneFailure_of_failure {f : Failure} (isFailure : s.failure = some f) :
    f.lane < merges.lanes ∧
      laneFailure (s.outcome merges) f.lane (s.added ++ s.lost) = some (f.part, f.status) := by
  obtain ⟨within, real⟩ := h.failure f isFailure
  refine ⟨within, ?_⟩
  obtain isRefused | fails := real
  · have last := h.last f.part f.lane f.status isRefused
    have above := (h.refused f.part f.lane f.status isRefused).2
    obtain ⟨part, status', inHeld, ⟨f', same, notAfter⟩, -⟩ | ⟨part, status', isRefused', fails⟩ |
      ⟨held, clean⟩ := h.laneEnd rest within
    · -- an earlier failure of the lane would be the one that is known
      rw [isFailure] at same
      cases same
      have less := above part inHeld
      unfold NotAfter at notAfter
      omega
    · have last' := h.last part f.lane status' isRefused'
      rw [last, Option.some.injEq] at last'
      rw [← last', isRefused, Option.some.injEq] at isRefused'
      rw [fails, ← last', ← isRefused']
    · obtain none | ⟨part, status', lost, -⟩ := h.lost
      · rw [none, append_nil, ← held] at last
        exact absurd (above f.part (mem_of_getLast? last)) (lt_irrefl _)
      · rw [lost, getLast?_concat, Option.some.injEq] at last
        rw [laneFailure_append, clean, Option.none_or, lost, last, laneFailureFrom, outcome,
          isRefused]
        rfl
  · obtain ⟨-, held⟩ := h.at_rest rest within
    have inOrder := (h.lanes f.lane within).held
    rw [held] at inOrder
    rw [← h.laneFailure_merged] at fails
    exact laneFailure_of_prefix (inOrder.trans (prefix_append _ _)) fails

/-- At rest, the failure that is known is the least of the lanes' failures. -/
theorem least : Least (s.outcome merges) merges.lanes (s.added ++ s.lost) s.failure where
  clean := by
    intro none l within
    by_contra some
    obtain ⟨failure, fails⟩ := Option.ne_none_iff_exists'.mp some
    obtain ⟨f, isFailure, -⟩ := h.recorded_of_laneFailure rest within fails
    rw [none] at isFailure
    contradiction
  stops := fun f => h.laneFailure_of_failure rest
  first := by
    intro f isFailure l within other fails
    obtain ⟨f', same, notAfter⟩ := h.recorded_of_laneFailure rest within fails
    rw [isFailure] at same
    cases same
    exact notAfter

theorem failure_eq :
    s.failure = (Serial.run (s.outcome merges) merges.lanes (s.added ++ s.lost)).failure :=
  (h.least rest).unique (run_least merges.lanes _ h.increasing)

end

end Holds

end Holds

def Phase.left : Phase → Nat
  | .start | .merged _ _ => 1
  | .merging _ => 2

def Lane.left (lane : Lane) : Nat :=
  3 * lane.queue.length + (lane.tasks.map Phase.left).sum

def Pc.left : Pc → Nat
  | .adding _ _ => 3
  | .waiting _ _ => 2
  | .reading _ => 1
  | .idle _ => 0

theorem Pc.left_wake (pc : Pc) : pc.wake.left = pc.left := by
  cases pc <;> rfl

/-- Within a call first the consumer goes on, then the tasks do, then it goes to sleep. -/
def left (merges : Merges) (s : PartitionLanes) : Nat ×ₗ Nat ×ₗ Nat :=
  toLex (s.pc.left, toLex (∑ l ∈ Finset.range merges.lanes, (s.lanes l).left,
    if s.pc.blocked then 0 else 1))

theorem add_left (room : Bool) (queuing : Nat → Queuing) (part : Int) :
    (s.add merges room queuing part).pc.left < 3 := by
  unfold add
  split_ifs
  · exact lt_succ_self 2
  · exact zero_lt_succ 2
  · simp only
    split
    · exact lt_succ_self 2
    · exact zero_lt_succ 2
  · exact lt_succ_self 2

theorem advance_left (advanced : s.advance merges pressure room queuing = some t) :
    t.pc.left < s.pc.left ∨ t.pc.left = s.pc.left ∧ t.lanes = s.lanes ∧
      s.pc.blocked = false ∧ t.pc.blocked = true := by
  obtain ⟨part, pc, rfl⟩ | ⟨pc, moves, rfl⟩ := advance_moves advanced
  · rw [pc]
    exact .inl (add_left room queuing part)
  dsimp only
  generalize s.pc = before at moves ⊢
  cases moves with
  | sleeps _ | waits _ => exact .inr ⟨rfl, rfl, rfl, rfl⟩
  | waited _ | reads _ | replies => exact .inl (by simp [Pc.left])

/-- A task's step leaves its lane less to do, and the call where it is. -/
structure Worked (s t : PartitionLanes) (l : Nat) (bound : Nat) : Prop where
  pc : t.pc.left = s.pc.left
  lane : ∃ lane, t.lanes = Function.update s.lanes l lane ∧ lane.left < bound

theorem drain_worked (s : PartitionLanes) (l : Nat) (before after : List Phase) :
    Worked s (s.drain l before after) l
      (3 * (s.lanes l).queue.length + ((before ++ after).map Phase.left).sum + 1) := by
  unfold drain
  split
  · refine ⟨s.pc.left_wake, _, rfl, ?_⟩
    simp [Lane.left]
  · rename_i part rest queue
    refine ⟨rfl, _, rfl, ?_⟩
    rw [queue]
    simp only [Lane.left, map_append, map_cons, List.sum_append, sum_cons,
      length_cons, Phase.left]
    omega

theorem Counted.left (counted : Counted s t) : t.pc.left = s.pc.left := by
  obtain same | woken := counted.pc
  · rw [same]
  · rw [woken, Pc.left_wake]

theorem work_worked {l : Nat} {before after : List Phase} {phase : Phase}
    (live : (s.lanes l).tasks = before ++ phase :: after) :
    Worked s (s.work merges l before after phase) l (s.lanes l).left := by
  have total : (s.lanes l).left = 3 * (s.lanes l).queue.length +
      ((before ++ after).map Phase.left).sum + phase.left := by
    simp only [Lane.left, live, map_append, map_cons, List.sum_append, sum_cons]
    omega
  rw [total]
  cases phase with
  | start => exact drain_worked s l before after
  | merging part =>
    refine ⟨rfl, _, rfl, ?_⟩
    simp only [Lane.left, map_append, map_cons, List.sum_append, sum_cons,
      Phase.left]
    omega
  | merged part status' =>
    have settled : ∃ lane, (s.settle l part status').lanes = Function.update s.lanes l lane ∧
        lane.queue.length ≤ (s.lanes l).queue.length ∧
        (s.settle l part status').pc.left = s.pc.left := by
      cases status' with
      | none =>
        refine ⟨s.lanes l, ?_, le_refl _, (done_counted s part).left⟩
        rw [update_eq_self]
        exact (done_counted s part).lanes
      | some status' =>
        obtain ⟨failure, failed, -⟩ :=
          fail_spec (s.setLane l { s.lanes l with failed := true }) part l status'
        have counted := settle_counted failed
        exact ⟨_, counted.lanes, zero_le _, counted.left⟩
    obtain ⟨lane, lanes, shorter, pc⟩ := settled
    have drained := drain_worked (s.settle l part status') l before after
    obtain ⟨pc', lane', lanes', less⟩ := drained
    refine ⟨pc'.trans pc, lane', ?_, ?_⟩
    · rw [work, lanes', lanes, update_idem]
    · rw [lanes, update_self] at less
      simp only [Phase.left]
      omega

theorem works_left (works : Works merges s t) : t.left merges < s.left merges := by
  simp only [left, Prod.Lex.toLex_lt_toLex]
  cases works with
  | consumer _ _ _ _ advanced =>
    refine (advance_left advanced).imp id ?_
    rintro ⟨pc, lanes, awake, asleep⟩
    refine ⟨pc, .inr ⟨by rw [lanes], ?_⟩⟩
    simp [awake, asleep]
  | task l _ _ _ within live =>
    obtain ⟨pc, lane, lanes, less⟩ := work_worked live
    refine .inr ⟨pc, .inl ?_⟩
    have sum := Lib.sum_update_add _ s.lanes (Finset.mem_range.mpr within) lane Lane.left
    simp only [lanes]
    omega

theorem works_wellFounded (merges : Merges) : WellFounded fun t s => Works merges s t :=
  Subrelation.wf works_left (InvImage.wf (left merges) wellFounded_lt)

def Pc.isIdle : Pc → Prop
  | .idle _ => True
  | _ => False

/-- A call in progress is never stuck: who sleeps is woken by a task. -/
theorem Holds.progress (h : Holds merges s) : s.pc.isIdle ∨ ∃ t, Works merges s t := by
  have task : 0 < live merges s → ∃ t, Works merges s t := by
    intro positive
    obtain ⟨l, within, busy⟩ := Finset.sum_pos_iff.mp positive
    obtain ⟨phase, rest, tasks⟩ := exists_cons_of_length_pos busy
    exact ⟨_, .task s l [] rest phase (Finset.mem_range.mp within) tasks⟩
  have consumer : ∀ t, s.advance merges false true (fun _ => .queued) = some t →
      ∃ t, Works merges s t := fun t advanced => ⟨t, .consumer s t _ _ _ advanced⟩
  unfold PartitionLanes.advance at consumer
  cases pc : s.pc with
  | idle last => exact .inl trivial
  | adding part blocked =>
    simp only [pc] at consumer
    cases blocked with
    | true => exact .inr (task ((h.fits pc).2 rfl))
    | false =>
      right
      by_cases free : (s.failure.isSome || decide (s.pending < limit merges false)) = true
      · exact consumer _ (if_pos free)
      · exact consumer _ (if_neg free)
  | waiting call blocked =>
    simp only [pc] at consumer
    cases blocked with
    | true => exact .inr (task (h.fits pc rfl))
    | false =>
      right
      by_cases rest : s.running = 0
      · simp only [rest] at consumer
        cases call <;> exact consumer _ rfl
      · exact consumer _ (if_neg rest)
  | reading call =>
    simp only [pc] at consumer
    exact .inr (consumer _ rfl)

/-- The part of an `Add` that has not taken it. -/
def Pc.inAdd : Pc → List Int
  | .adding part _ => [part]
  | _ => []

def Pc.call : Pc → Option Call
  | .idle none => none
  | .idle (some (.add _)) | .adding _ _ => some .add
  | .idle (some (.finish _)) => some .finish
  | .idle (some .wait) => some .wait
  | .waiting call _ | .reading call => some call

/-- What a step does with the part of an `Add`: a failure may keep it from being added. -/
structure Carries (s t : PartitionLanes) : Prop where
  offered : t.added ++ t.lost = s.added ++ s.lost ∨
    s.failure = none ∧ t.added ++ t.lost = s.added ++ s.lost ++ s.pc.inAdd
  clean : t.failure = none → s.failure = none ∧
    t.added ++ t.lost ++ t.pc.inAdd = s.added ++ s.lost ++ s.pc.inAdd
  call : t.pc.call = s.pc.call
  idle : ∀ last, s.pc = .idle last → t.pc = .idle last

/-- The tasks take no part, and forget no failure. -/
structure Kept (s t : PartitionLanes) : Prop where
  pc : t.pc = s.pc ∨ t.pc = s.pc.wake
  added : t.added = s.added
  lost : t.lost = s.lost
  failure : t.failure = none → s.failure = none

theorem Kept.trans {u : PartitionLanes} (first : Kept s t) (second : Kept t u) : Kept s u where
  pc := Pc.woken_trans first.pc second.pc
  added := second.added.trans first.added
  lost := second.lost.trans first.lost
  failure := first.failure ∘ second.failure

theorem Kept.carries (kept : Kept s t) : Carries s t := by
  obtain ⟨inAdd, call, idle⟩ : t.pc.inAdd = s.pc.inAdd ∧ t.pc.call = s.pc.call ∧
      ∀ last, s.pc = .idle last → t.pc = .idle last := by
    obtain same | woken := kept.pc
    · rw [same]
      exact ⟨rfl, rfl, fun _ => id⟩
    · rw [woken]
      cases s.pc with
      | idle last => exact ⟨rfl, rfl, fun _ => id⟩
      | _ => exact ⟨rfl, rfl, fun _ idle => by cases idle⟩
  refine ⟨.inl (by rw [kept.added, kept.lost]), fun clean => ⟨kept.failure clean, ?_⟩, call,
    idle⟩
  rw [kept.added, kept.lost, inAdd]

theorem drain_kept (s : PartitionLanes) (l : Nat) (before after : List Phase) :
    Kept s (s.drain l before after) := by
  unfold drain
  split
  · exact ⟨.inr rfl, rfl, rfl, id⟩
  · exact ⟨.inl rfl, rfl, rfl, id⟩

theorem settle_kept (s : PartitionLanes) (l : Nat) (part : Int) (status' : Option Status) :
    Kept s (s.settle l part status') := by
  cases status' with
  | none =>
    have counted := done_counted s part
    exact ⟨counted.pc, counted.added, counted.lost, counted.failure.symm.trans⟩
  | some status' =>
    obtain ⟨failure, failed, ⟨f, isFailure, -⟩, -⟩ :=
      fail_spec (s.setLane l { s.lanes l with failed := true }) part l status'
    have counted := settle_counted failed
    refine ⟨counted.pc, counted.added, counted.lost, fun clean => ?_⟩
    have known : some f = none := isFailure.symm.trans (counted.failure.symm.trans clean)
    cases known

theorem work_kept (s : PartitionLanes) (l : Nat) (before after : List Phase) (phase : Phase) :
    Kept s (s.work merges l before after phase) := by
  cases phase with
  | start => exact drain_kept s l before after
  | merging part => exact ⟨.inl rfl, rfl, rfl, id⟩
  | merged part status' =>
    exact (settle_kept s l part status').trans (drain_kept _ l before after)

theorem add_carries (h : Holds merges s) (some_ : merges.lanes ≠ 0) (room : Bool)
    (queuing : Nat → Queuing) (pc : s.pc = .adding part false) :
    Carries s (s.add merges room queuing part) := by
  have called : ∀ last, s.pc = .idle last → (s.add merges room queuing part).pc = .idle last := by
    rw [pc]
    exact fun _ idle => by cases idle
  revert called
  unfold PartitionLanes.add
  by_cases failed : s.failure.isSome = true
  · rw [if_pos failed]
    refine fun called => ⟨.inl rfl, fun clean => ?_, by rw [pc]; rfl, called⟩
    rw [show s.failure = none from clean] at failed
    cases failed
  rw [if_neg failed, if_neg some_]
  have clean : s.failure = none := by simpa using failed
  obtain ⟨ok, -, lost⟩ := h.unfailed clean
  cases room with
  | false =>
    obtain ⟨failure, isFail, ⟨f, isFailure, -⟩, -⟩ := fail_spec s part 0
      (.outOfMemory "out of memory while queuing a part")
    simp only [Bool.false_eq_true, if_false, isFail]
    refine fun called => ⟨.inr ⟨clean, ?_⟩, fun none => ?_, by rw [pc]; rfl, called⟩
    · rw [lost, append_nil, pc]
      rfl
    · rw [isFailure] at none
      cases none
  | true =>
    have giving := (h.made clean some_ (h.above pc) pc).all queuing ok
    rw [if_pos rfl]
    simp only
    generalize (List.range merges.lanes).foldl (addLane part queuing) _ = state at giving
    have offered : state.1.added ++ state.1.lost = s.added ++ s.lost ++ s.pc.inAdd := by
      rw [giving.added, giving.lost, lost, append_nil, append_nil, pc]
      rfl
    have whole := (append_nil _).trans offered
    split
    · exact fun called => ⟨.inr ⟨clean, offered⟩, fun _ => ⟨clean, whole⟩, by rw [pc]; rfl, called⟩
    · exact fun called => ⟨.inr ⟨clean, offered⟩, fun _ => ⟨clean, whole⟩, by rw [pc]; rfl, called⟩

theorem Moves.carries {pc : Pc} (moves : Moves s s.pc pc) :
    pc.inAdd = s.pc.inAdd ∧ Carries s { s with pc } := by
  obtain ⟨call, inAdd, called⟩ : pc.call = s.pc.call ∧ pc.inAdd = s.pc.inAdd ∧
      ∀ last, s.pc ≠ .idle last := by
    generalize s.pc = before at moves ⊢
    cases moves with
    | @replies call => cases call <;> exact ⟨rfl, rfl, nofun⟩
    | _ => exact ⟨rfl, rfl, nofun⟩
  exact ⟨inAdd, .inl rfl, fun clean => ⟨clean, by rw [inAdd]⟩, call,
    fun last idle => absurd idle (called last)⟩

theorem advance_carries (h : Holds merges s) (some_ : merges.lanes ≠ 0)
    (advanced : s.advance merges pressure room queuing = some t) : Carries s t := by
  obtain ⟨part, pc, rfl⟩ | ⟨pc, moves, rfl⟩ := advance_moves advanced
  · exact add_carries h some_ room queuing pc
  · exact moves.carries.2

theorem works_carries (h : Holds merges s) (some_ : merges.lanes ≠ 0) (works : Works merges s t) :
    Carries s t := by
  cases works with
  | consumer _ _ _ _ advanced => exact advance_carries h some_ advanced
  | task l before after phase _ _ => exact (work_kept s l before after phase).carries

theorem Holds.still (h : Holds merges s) (rest : s.running = 0) (idle : s.pc.isIdle) :
    ¬Works merges s t := by
  intro works
  cases works with
  | consumer _ _ _ _ advanced =>
    unfold PartitionLanes.advance at advanced
    cases pc : s.pc with
    | idle last => simp [pc] at advanced
    | _ => simp [pc, Pc.isIdle] at idle
  | task l before after phase within live =>
    rw [(h.at_rest rest within).1] at live
    simp at live

/-- The parts given to the lanes: those offered to `Add`, up to a failure. -/
structure Handed (s : PartitionLanes) (parts : List Int) : Prop where
  offered : s.added ++ s.lost <+: parts
  clean : s.failure = none → s.added ++ s.lost ++ s.pc.inAdd = parts

theorem Handed.carried {parts : List Int} (handed : Handed s parts) (carries : Carries s t) :
    Handed t parts where
  offered := by
    obtain same | ⟨clean, more⟩ := carries.offered
    · exact same ▸ handed.offered
    · rw [more, handed.clean clean]
  clean := fun none => (carries.clean none).2.trans (handed.clean (carries.clean none).1)

/-- At rest, the failure is that of the serial run over the parts handed. -/
theorem Handed.failure_eq {parts : List Int} (handed : Handed s parts) (h : Holds merges s)
    (rest : s.running = 0) (called : s.pc.inAdd = []) :
    s.failure = (Serial.run (s.outcome merges) merges.lanes parts).failure := by
  have known := h.failure_eq rest
  cases failure : s.failure with
  | none =>
    have all := handed.clean failure
    rw [called, append_nil] at all
    rw [← all, ← known, failure]
  | some f =>
    obtain ⟨more, rfl⟩ := handed.offered
    rw [failure] at known
    rw [Serial.run_append_of_failed known.symm, known]

variable {calls : Calls}

theorem Calls.after_parts (calls : Calls) (pc : Pc) : (calls.after pc).parts = calls.parts := by
  unfold after
  split
  · next current =>
    simp [parts, current]
  · rfl

theorem Calls.after_add {status' : Option Status} (current : calls.current = some part) :
    calls.after (.idle (some (.add status'))) = ⟨none, calls.returned ++ [(part, status')]⟩ := by
  simp [after, current]

@[simp] theorem Calls.after_waiting (calls : Calls) (call : Call) (blocked : Bool) :
    calls.after (.waiting call blocked) = calls := by
  obtain ⟨_ | _, returned⟩ := calls <;> rfl

theorem Calls.accepted_eq (ok : ∀ call ∈ calls.returned, call.2 = none) :
    calls.accepted = calls.returned.map Prod.fst := by
  rw [accepted, filter_eq_self.mpr]
  intro call among
  rw [ok call among]
  rfl

/-- The call of `Add` that is in progress, where `failed` is whether a failure is known. -/
def Pc.Current (current : Option Int) (failed : Prop) : Pc → Prop
  | .adding part _ => current = some part
  | .waiting .add _ | .reading .add => current ≠ none ∧ failed
  | _ => current = none

theorem Pc.current_wake {current : Option Int} {failed : Prop} (pc : Pc) :
    pc.wake.Current current failed ↔ pc.Current current failed := by
  cases pc with
  | waiting call _ => cases call <;> rfl
  | _ => rfl

theorem Pc.Current.imp {current : Option Int} {p q : Prop} {pc : Pc} (is : pc.Current current p)
    (implies : p → q) : pc.Current current q := by
  cases pc with
  | waiting call _ | reading call =>
    cases call with
    | add => exact is.imp_right implies
    | _ => exact is
  | _ => exact is

/-- The lanes and the calls they were given: the parts whose `Add` returned OK were added. -/
structure Follows (calls : Calls) (s : PartitionLanes) : Prop where
  current : s.pc.Current calls.current (s.failure ≠ none)
  handed : Handed s calls.parts
  accepted : calls.accepted <+: s.added
  replies : s.failure = none → ∀ call ∈ calls.returned, call.2 = none

namespace Follows

theorem after (follows : Follows calls s) : calls.after s.pc = calls := by
  have current := follows.current
  unfold Calls.after
  split
  · next isCurrent pc =>
    rw [pc, isCurrent] at current
    cases current
  · rfl

theorem kept (follows : Follows calls s) (kept : Kept s t) : Follows calls t where
  current := by
    have current := follows.current.imp (mt kept.failure)
    obtain same | woken := kept.pc
    · rwa [same]
    · rwa [woken, Pc.current_wake]
  handed := follows.handed.carried kept.carries
  accepted := kept.added ▸ follows.accepted
  replies := fun clean => follows.replies (kept.failure clean)

section

variable (follows : Follows calls s) (pc : Pc) (inAdd : pc.inAdd = s.pc.inAdd)
include follows pc inAdd

theorem handed_moves : Handed { s with pc } calls.parts :=
  ⟨follows.handed.offered, fun clean => by rw [inAdd]; exact follows.handed.clean clean⟩

/-- The consumer moves on, and no `Add` returns. -/
theorem moved (current : pc.Current calls.current (s.failure ≠ none)) :
    Follows calls { s with pc } :=
  ⟨current, follows.handed_moves pc inAdd, follows.accepted, follows.replies⟩

theorem moves (current : pc.Current calls.current (s.failure ≠ none)) :
    Follows (calls.after pc) { s with pc } := by
  have moved := follows.moved pc inAdd current
  exact moved.after.symm ▸ moved

end

/-- An `Add` returns the failure that is known. -/
theorem fails (follows : Follows calls s) (current : calls.current = some part)
    (inAdd : s.pc.inAdd = []) {f : Failure} (failed : s.failure = some f) :
    Follows (calls.after (.idle (some (.add (some f.status)))))
      (s.returns (.add (some f.status))) where
  current := by
    rw [Calls.after_add current]
    rfl
  handed := by
    rw [Calls.after_parts]
    exact follows.handed_moves _ inAdd.symm
  accepted := by
    rw [Calls.after_add current]
    have same : Calls.accepted ⟨none, calls.returned ++ [(part, some f.status)]⟩ = calls.accepted := by
      simp [Calls.accepted]
    exact same ▸ follows.accepted
  replies := by
    intro clean
    cases failed.symm.trans clean

theorem add (follows : Follows calls s) (h : Holds merges s) (some_ : merges.lanes ≠ 0)
    (room : Bool) (queuing : Nat → Queuing) (pc : s.pc = .adding part false) :
    Follows (calls.after (s.add merges room queuing part).pc) (s.add merges room queuing part) := by
  have handed := follows.handed.carried (add_carries h some_ room queuing pc)
  rw [← calls.after_parts (s.add merges room queuing part).pc] at handed
  have current : calls.current = some part := by
    have current := follows.current
    rwa [pc] at current
  have begun : calls.current ≠ none := by simp [current]
  revert handed
  unfold PartitionLanes.add
  by_cases failed : s.failure.isSome = true
  · rw [if_pos failed, Calls.after_waiting]
    have known : s.failure ≠ none := Option.isSome_iff_ne_none.mp failed
    exact fun handed => ⟨⟨begun, known⟩, handed, follows.accepted, fun clean => absurd clean known⟩
  rw [if_neg failed, if_neg some_]
  have clean : s.failure = none := by simpa using failed
  cases room with
  | false =>
    obtain ⟨failure, isFail, ⟨f, isFailure, -⟩, -⟩ := fail_spec s part 0
      (.outOfMemory "out of memory while queuing a part")
    simp only [Bool.false_eq_true, if_false, isFail, isFailure, Calls.after_waiting]
    exact fun handed => ⟨⟨begun, nofun⟩, handed, follows.accepted, nofun⟩
  | true =>
    have giving := (h.made clean some_ (h.above pc) pc).all queuing (h.unfailed clean).1
    rw [if_pos rfl]
    simp only
    generalize (List.range merges.lanes).foldl (addLane part queuing) _ = state at giving
    obtain ⟨isClean, ok, -⟩ | ⟨isFailed, l, status', -, isFailure, -⟩ := giving.failure
    · rw [if_neg (by simp [ok]), returns, Calls.after_add current]
      intro handed
      have all := handed.clean isClean
      simp only [giving.lost, Pc.inAdd, append_nil, Calls.parts, Option.toList_none] at all
      have replies : ∀ call ∈ calls.returned ++ [(part, none)], call.2 = none := by
        simpa [or_imp, forall_and] using follows.replies clean
      refine ⟨rfl, handed, ?_, fun _ => replies⟩
      rw [Calls.accepted_eq replies]
      exact all ▸ prefix_rfl
    · rw [if_pos isFailed, Calls.after_waiting]
      intro handed
      have known : state.1.failure ≠ none := by simp [isFailure]
      refine ⟨⟨begun, known⟩, handed, ?_, fun clean => absurd clean known⟩
      rw [giving.added]
      exact follows.accepted.trans (prefix_append _ _)

theorem advance (follows : Follows calls s) (h : Holds merges s) (some_ : merges.lanes ≠ 0)
    {pressure room : Bool} (advanced : s.advance merges pressure room queuing = some t) :
    Follows (calls.after t.pc) t := by
  obtain ⟨part, pc, rfl⟩ | ⟨pc, moves, rfl⟩ := advance_moves advanced
  · exact follows.add h some_ room queuing pc
  have current := follows.current
  have inAdd := moves.carries.1
  generalize before : s.pc = pc₀ at moves current
  cases moves with
  | sleeps _ | waited _ => exact follows.moves _ inAdd current
  | @waits call _ | @reads call _ => cases call <;> exact follows.moves _ inAdd current
  | @replies call =>
    cases call with
    | add =>
      obtain ⟨part, isPart⟩ := Option.ne_none_iff_exists'.mp current.1
      obtain ⟨f, failed⟩ := Option.ne_none_iff_exists'.mp current.2
      have status' : s.failure.map Failure.status = some f.status := failed ▸ rfl
      rw [status']
      exact follows.fails isPart (by rw [before]; rfl) failed
    | finish | wait => exact follows.moves _ inAdd current

end Follows

/-- Without lanes nothing is added. -/
theorem works_none (none_ : merges.lanes = 0) (works : Works merges s t) :
    t.added ++ t.lost = s.added ++ s.lost := by
  cases works with
  | consumer _ _ _ _ advanced =>
    obtain ⟨part, -, rfl⟩ | ⟨pc, -, rfl⟩ := advance_moves advanced
    · unfold PartitionLanes.add
      split_ifs <;> rfl
    · rfl
  | task l before after phase within live => omega

namespace Run

theorem increasing (run : Run merges calls s) : calls.parts.Pairwise (· < ·) := by
  induction run with
  | new => exact .nil
  | @add calls _ _ part _ _ above ih =>
    have returned : calls.returned.map Prod.fst <+: calls.parts := prefix_append _ _
    refine pairwise_append.mpr ⟨ih.sublist returned.sublist, pairwise_singleton _ _, ?_⟩
    intro q among other isPart
    cases mem_singleton.mp isPart
    exact above q (returned.subset among)
  | finish _ _ ih | wait _ _ ih | spurious _ ih => exact ih
  | works _ _ ih =>
    rw [Calls.after_parts]
    exact ih

theorem sound (run : Run merges calls s) : Holds merges s ∧
    (merges.lanes = 0 ∧ s.added ++ s.lost = [] ∨ merges.lanes ≠ 0 ∧ Follows calls s) := by
  induction run with
  | new =>
    refine ⟨new_holds merges, ?_⟩
    by_cases none_ : merges.lanes = 0
    · exact .inl ⟨none_, rfl⟩
    · exact .inr ⟨none_, rfl, ⟨prefix_rfl, fun _ => rfl⟩, prefix_rfl, nofun⟩
  | @add calls s last part _ idle above ih =>
    obtain ⟨h, ⟨none_, empty⟩ | ⟨some_, follows⟩⟩ := ih
    · exact ⟨h.at _ ⟨by simp [empty], nofun⟩, .inl ⟨none_, empty⟩⟩
    · have current := follows.current
      rw [idle] at current
      have all : calls.parts = calls.returned.map Prod.fst := by
        rw [Calls.parts, show calls.current = none from current]
        simp
      have offered := follows.handed.offered
      refine ⟨h.at _ ⟨fun q among => above q (offered.subset among), nofun⟩, .inr ⟨some_, rfl,
        ⟨?_, fun clean => ?_⟩, follows.accepted, follows.replies⟩⟩
      · exact (all ▸ offered).trans (prefix_append _ _)
      · have whole := follows.handed.clean clean
        rw [idle, all] at whole
        simp only [Pc.inAdd, append_nil] at whole
        simp [Calls.parts, Pc.inAdd, whole]
  | finish _ idle ih | wait _ idle ih =>
    refine ⟨ih.1.at _ nofun, ih.2.imp_right (And.imp_right fun follows => ?_)⟩
    have current := follows.current
    rw [idle] at current
    exact follows.moved _ (by rw [idle]; rfl) current
  | spurious _ ih =>
    exact ⟨ih.1.wake, ih.2.imp_right (And.imp_right fun follows =>
      follows.kept ⟨.inr rfl, rfl, rfl, id⟩)⟩
  | works _ works ih =>
    obtain ⟨h, ⟨none_, empty⟩ | ⟨some_, follows⟩⟩ := ih
    · exact ⟨h.works _ _ works, .inl ⟨none_, (works_none none_ works).trans empty⟩⟩
    · refine ⟨h.works _ _ works, .inr ⟨some_, ?_⟩⟩
      cases works with
      | consumer _ _ _ _ advanced => exact follows.advance h some_ advanced
      | task l before after phase _ _ =>
        have kept := follows.kept (@work_kept merges _ l before after phase)
        exact kept.after.symm ▸ kept

/-- At rest, the failure that is known is that of the serial run over all the parts. -/
theorem failure_eq (run : Run merges calls s) (rest : s.running = 0) (called : s.pc.inAdd = []) :
    s.failure = (Serial.run (s.outcome merges) merges.lanes calls.parts).failure := by
  obtain ⟨h, ⟨none_, -⟩ | ⟨-, follows⟩⟩ := run.sound
  · have least : Least (s.outcome merges) merges.lanes calls.parts _ :=
      run_least merges.lanes _ run.increasing
    cases serial : (Serial.run (s.outcome merges) merges.lanes calls.parts).failure with
    | some f => exact absurd (least.stops f serial).1 (by omega)
    | none =>
      cases failure : s.failure with
      | none => rfl
      | some f => exact absurd (h.failure f failure).1 (by omega)
  · exact follows.handed.failure_eq h rest called

end Run

def Reply.waited : Reply → Bool
  | .add none => false
  | _ => true

/-- The serial run over the parts `Add` was called with. -/
def serial (merges : Merges) (calls : Calls) (s : PartitionLanes) : Serial :=
  Serial.run (s.outcome merges) merges.lanes calls.parts

theorem Holds.waited (h : Holds merges s) {reply : Reply} (idle : s.pc = .idle (some reply))
    (waited : reply.waited = true) : s.running = 0 := by
  have point := h.fits idle
  match reply with
  | .add none => contradiction
  | .add (some _) | .finish _ => exact point.1
  | .wait => exact point

end Antb1.Exec.PartitionLanes
