import Antb1.Exec.MemoryBudget
import Antb1.Lib.Runs
import Mathlib.Algebra.BigOperators.Group.Finset.Piecewise
import Mathlib.Algebra.Order.BigOperators.Group.Finset

/-! A budget's counter is the bytes granted and those of the calls in progress, the
charges it let pass stay within its limit, and its peak covers every total granted. -/
namespace Antb1.Exec

open Finset

variable {budget : MemoryBudget} {caller : Caller} {phase : Phase} {bytes : Int} {call : Call}
  {gain : Int} (weight : Phase → Int)

namespace MemoryBudget

theorem wrap_eq {x : Int} (low : 0 ≤ x) (high : x < 2 ^ 63) : wrap x = x := by
  rw [wrap]
  exact Int.bmod_eq_of_le (by omega) (by omega)

/-- The bytes a phase holds once its peak is recorded, or where the peak to record is at most
`total`. -/
def Phase.counted (total : Int) : Phase → Int
  | .loadPeak bytes now _ | .raisePeak bytes now _ _ => if now ≤ total then bytes else 0
  | phase => phase.accepted

/-- A phase of a call that adds `gain` to what its caller holds. -/
def Phase.Fits (budget : MemoryBudget) (gain : Int) : Phase → Prop
  | .add bytes _ => 0 ≤ bytes ∧ gain = bytes
  | .takeBack bytes => 0 ≤ bytes
  | .loadPeak bytes now _ => 0 ≤ bytes ∧ gain = bytes ∧ ∀ l ∈ budget.limit, now ≤ l
  | .raisePeak bytes now peak _ =>
    0 ≤ bytes ∧ gain = bytes ∧ (∀ l ∈ budget.limit, now ≤ l) ∧ peak ≤ budget.peak
  | .backend onFailure onSuccess =>
    0 ≤ onFailure.getD 0 ∧ 0 ≤ onSuccess.getD 0 ∧ gain = onFailure.getD 0 - onSuccess.getD 0 ∧
      (onFailure = none ∨ onSuccess = none)
  | .uncharge bytes ok => 0 ≤ bytes ∧ (ok = true → gain = -bytes)
  | .returned _ => True

theorem Phase.Fits.mono {budget budget' : MemoryBudget} (fits : phase.Fits budget gain)
    (limit : budget'.limit = budget.limit) (grows : budget.peak ≤ budget'.peak) :
    phase.Fits budget' gain := by
  cases phase with
  | raisePeak bytes now peak forBackend =>
    obtain ⟨positive, same, within, seen⟩ := fits
    exact ⟨positive, same, limit ▸ within, seen.trans grows⟩
  | loadPeak bytes now forBackend =>
    obtain ⟨positive, same, within⟩ := fits
    exact ⟨positive, same, limit ▸ within⟩
  | _ => exact fits

/-- What a phase weighs beside the bytes its caller held when the call began. -/
def Phase.worth (weight : Phase → Int) (gain : Int) : Phase → Int
  | .returned ok => if ok then gain else 0
  | phase => weight phase

theorem weigh_place (caller : Caller) (call : Call) (phase : Phase) (weight : Phase → Int) :
    (caller.place call phase).weigh weight =
      caller.held + phase.worth weight (caller.gain call) := by
  cases phase with
  | returned ok =>
    cases ok
    · simp [Caller.place, Caller.weigh, Phase.worth, Caller.held]
    · simp [Caller.place, Caller.weigh, Phase.worth, Caller.held, Caller.gain]
  | _ => rfl

theorem Phase.Fits.pending_le (fits : phase.Fits budget gain) :
    0 ≤ phase.accepted ∧ phase.accepted ≤ phase.pending ∧ phase.pending ≤ phase.demand := by
  cases phase with
  | uncharge bytes ok =>
    obtain ⟨positive, -⟩ := fits
    cases ok <;> simp [accepted, pending, demand, positive]
  | backend onFailure onSuccess => exact ⟨fits.1, le_refl _, le_refl _⟩
  | add bytes forBackend => simpa [accepted, pending, demand] using fits.1
  | takeBack bytes => exact ⟨le_refl 0, fits, le_refl _⟩
  | loadPeak bytes now forBackend => exact ⟨fits.1, le_refl _, le_refl _⟩
  | raisePeak bytes now peak forBackend => exact ⟨fits.1, le_refl _, le_refl _⟩
  | returned ok => simp [accepted, pending, demand]

structure Advanced (budget : MemoryBudget) (gain : Int) (phase : Phase)
    (budget' : MemoryBudget) (next : Phase) : Prop where
  limit : budget'.limit = budget.limit
  fits : next.Fits budget' gain
  used : budget'.used = wrap (budget.used + (next.worth Phase.pending gain - phase.pending))
  demand : next.worth Phase.demand gain ≤ phase.demand
  accepted : next.worth Phase.accepted gain ≤ phase.accepted ∨
    ∀ l ∈ budget.limit, budget'.used ≤ l
  peak : budget.peak ≤ budget'.peak
  counted : ∀ total, budget'.peak ≤ total →
    next.worth (Phase.counted total) gain ≤ phase.counted total ∨ budget'.used ≤ total
  recorded : ∀ l ∈ budget.limit, budget.peak ≤ max l 0 → budget'.peak ≤ max l 0

theorem charged_fits (budget : MemoryBudget) (positive : 0 ≤ bytes) (forBackend : Bool) :
    (charged bytes forBackend).Fits budget bytes := by
  cases forBackend
  · trivial
  · exact ⟨positive, le_refl 0, (Int.sub_zero bytes).symm, .inr rfl⟩

theorem worth_charged (bytes : Int) (backend : weight (.backend (some bytes) none) = bytes)
    (forBackend : Bool) :
    (charged bytes forBackend).worth weight bytes = bytes := by
  cases forBackend
  · rfl
  · exact backend

theorem Advanced.still (exact_ : wrap budget.used = budget.used) {phase next : Phase}
    (fits : next.Fits budget gain) (pending : next.worth Phase.pending gain = phase.pending)
    (demand : next.worth Phase.demand gain ≤ phase.demand)
    (accepted : next.worth Phase.accepted gain ≤ phase.accepted)
    (counted : ∀ total, budget.peak ≤ total →
      next.worth (Phase.counted total) gain ≤ phase.counted total) :
    Advanced budget gain phase budget next where
  limit := rfl
  fits := fits
  used := by rw [pending, Int.sub_self, Int.add_zero, exact_]
  demand := demand
  accepted := .inl accepted
  peak := le_refl _
  counted total above := .inl (counted total above)
  recorded _ _ := id

theorem Advanced.returns {ok : Bool} (pending : phase.pending = (if ok then gain else 0) + bytes)
    (demand : (if ok then gain else 0) ≤ phase.demand)
    (accepted : (if ok then gain else 0) ≤ phase.accepted)
    (counted : ∀ total, (if ok then gain else 0) ≤ phase.counted total) :
    Advanced budget gain phase { budget with used := wrap (budget.used - bytes) }
      (.returned ok) where
  limit := rfl
  fits := trivial
  used := by
    simp only [Phase.worth, pending]
    congr 1
    omega
  demand := demand
  accepted := .inl accepted
  peak := le_refl _
  counted total _ := .inl (counted total)
  recorded _ _ := id

theorem add_advanced (positive : 0 ≤ bytes) (forBackend choice : Bool) :
    Advanced budget bytes (.add bytes forBackend)
      (budget.advance choice (.add bytes forBackend)).1
      (budget.advance choice (.add bytes forBackend)).2 := by
  dsimp only [advance]
  split_ifs with beyond
  · exact {
      limit := rfl
      fits := positive
      used := by simp [Phase.worth, Phase.pending]
      demand := le_refl _
      accepted := .inl (le_refl _)
      peak := le_refl _
      counted := fun total _ => .inl (le_refl _)
      recorded := fun _ _ => id }
  · have within : ∀ l ∈ budget.limit, wrap (budget.used + bytes) ≤ l := by
      intro l given
      rw [Option.mem_def] at given
      simpa [given] using beyond
    exact {
      limit := rfl
      fits := ⟨positive, rfl, within⟩
      used := by simp [Phase.worth, Phase.pending]
      demand := le_refl _
      accepted := .inr within
      peak := le_refl _
      counted := by
        intro total _
        simp only [Phase.worth, Phase.counted]
        split_ifs with low
        · exact .inr low
        · exact .inl (le_refl _)
      recorded := fun _ _ => id }

section

variable (exact_ : wrap budget.used = budget.used)
include exact_

theorem raisePeak_advanced {bytes now peak : Int} (positive : 0 ≤ bytes)
    (within : ∀ l ∈ budget.limit, now ≤ l) (seen : peak ≤ budget.peak) (forBackend choice : Bool) :
    Advanced budget bytes (.raisePeak bytes now peak forBackend)
      (budget.advance choice (.raisePeak bytes now peak forBackend)).1
      (budget.advance choice (.raisePeak bytes now peak forBackend)).2 := by
  have pending := worth_charged Phase.pending bytes rfl forBackend
  have demand := worth_charged Phase.demand bytes rfl forBackend
  have accepted := worth_charged Phase.accepted bytes rfl forBackend
  have counted := fun total => worth_charged (Phase.counted total) bytes rfl forBackend
  dsimp only [advance]
  split_ifs with more swapped
  · exact {
      limit := rfl
      fits := charged_fits _ positive forBackend
      used := by simp [pending, Phase.pending, exact_]
      demand := demand.le
      accepted := .inl accepted.le
      peak := by
        rw [swapped.1]
        exact more.le
      counted := by
        intro total above
        left
        simp only [counted, Phase.counted, if_pos above, le_refl]
      recorded := fun l given _ => (within l given).trans (le_max_left _ _) }
  · exact .still exact_ ⟨positive, rfl, within, le_refl _⟩ rfl (le_refl _) (le_refl _)
      fun total _ => le_refl _
  · refine .still exact_ (charged_fits _ positive forBackend) pending demand.le accepted.le ?_
    intro total above
    have low : now ≤ total := by omega
    simp only [counted, Phase.counted, if_pos low, le_refl]

theorem backend_advanced {onFailure onSuccess : Option Int}
    (fits : (Phase.backend onFailure onSuccess).Fits budget gain) (choice : Bool) :
    Advanced budget gain (.backend onFailure onSuccess)
      (budget.advance choice (.backend onFailure onSuccess)).1
      (budget.advance choice (.backend onFailure onSuccess)).2 := by
  obtain ⟨failure, success, rfl, one⟩ := fits
  dsimp only [advance]
  cases choice with
  | false =>
    cases onFailure with
    | none => exact .still exact_ trivial rfl (le_refl _) (le_refl _) fun _ _ => le_refl _
    | some bytes =>
      exact .still exact_ ⟨failure, nofun⟩ rfl (le_refl _) (le_refl _) fun _ _ => le_refl _
  | true =>
    cases onSuccess with
    | none =>
      have gained : (Phase.returned true).worth Phase.pending
          (onFailure.getD 0 - (none : Option Int).getD 0) = onFailure.getD 0 := Int.sub_zero _
      exact .still exact_ trivial gained gained.le gained.le fun _ _ => gained.le
    | some bytes =>
      obtain rfl := one.resolve_right nofun
      refine .still exact_ ⟨success, fun _ => by simp⟩ rfl (le_refl _) (le_refl _)
        fun _ _ => le_refl _

theorem advance_spec (fits : phase.Fits budget gain) (running : ∀ ok, phase ≠ .returned ok)
    (choice : Bool) :
    Advanced budget gain phase (budget.advance choice phase).1
      (budget.advance choice phase).2 := by
  cases phase with
  | add bytes forBackend =>
    obtain ⟨positive, rfl⟩ := fits
    exact add_advanced positive forBackend choice
  | takeBack bytes =>
    refine Advanced.returns ?_ fits (le_refl 0) fun _ => le_refl 0
    simp [Phase.pending]
  | loadPeak bytes now forBackend =>
    obtain ⟨positive, rfl, within⟩ := fits
    exact .still exact_ ⟨positive, rfl, within, le_refl _⟩ rfl (le_refl _) (le_refl _)
      fun _ _ => le_refl _
  | raisePeak bytes now peak forBackend =>
    obtain ⟨positive, rfl, within, seen⟩ := fits
    exact raisePeak_advanced exact_ positive within seen forBackend choice
  | backend onFailure onSuccess => exact backend_advanced exact_ fits choice
  | uncharge bytes ok =>
    obtain ⟨positive, gained⟩ := fits
    cases ok with
    | false => exact .returns (by simp [Phase.pending]) positive positive fun _ => positive
    | true =>
      obtain rfl := gained rfl
      have negative : -bytes ≤ 0 := by omega
      exact .returns (by simp [Phase.pending]) negative negative fun _ => negative
  | returned ok => exact absurd rfl (running ok)

end

structure Started (budget : MemoryBudget) (gain : Int) (phase : Phase) : Prop where
  fits : phase.Fits budget gain
  pending : phase.worth Phase.pending gain = 0
  demand : phase.worth Phase.demand gain ≤ max gain 0
  accepted : phase.worth Phase.accepted gain = 0
  counted : ∀ total, phase.worth (Phase.counted total) gain = 0

theorem started_returned (budget : MemoryBudget) : Started budget 0 (.returned true) where
  fits := trivial
  pending := rfl
  demand := le_refl _
  accepted := rfl
  counted _ := rfl

section

variable (budget) (positive : 0 ≤ bytes)
include positive

theorem started_add (forBackend : Bool) : Started budget bytes (.add bytes forBackend) where
  fits := ⟨positive, rfl⟩
  pending := rfl
  demand := le_max_left _ _
  accepted := rfl
  counted _ := rfl

theorem started_uncharge : Started budget (-bytes) (.uncharge bytes true) where
  fits := ⟨positive, fun _ => rfl⟩
  pending := rfl
  demand := le_max_right _ _
  accepted := rfl
  counted _ := rfl

theorem started_reserve : Started budget bytes (reserve bytes) := by
  unfold reserve
  split_ifs with none_
  · obtain rfl : bytes = 0 := by omega
    exact started_returned budget
  · exact started_add budget positive false

theorem started_release : Started budget (-bytes) (release bytes) := by
  unfold release
  split_ifs with some_
  · exact started_uncharge budget positive
  · obtain rfl : bytes = 0 := by omega
    exact started_returned budget

end

theorem started_reallocate (budget : MemoryBudget) (growth : Int) :
    Started budget growth (if growth > 0 then .add growth true
      else .backend none (if growth < 0 then some (-growth) else none)) := by
  split_ifs with grows shrinks
  · exact started_add budget grows.le true
  · exact ⟨⟨le_refl 0, by simpa using shrinks.le, by simp, .inl rfl⟩, rfl, le_max_right _ _, rfl,
      fun _ => rfl⟩
  · obtain rfl : growth = 0 := by omega
    exact ⟨⟨le_refl 0, le_refl 0, rfl, .inl rfl⟩, rfl, le_refl _, rfl, fun _ => rfl⟩

theorem gain_eq (caller : Caller) (call : Call) :
    caller.gain call = match call with
      | .allocate size => size
      | .reallocate oldSize newSize => newSize - oldSize
      | .free size => -size
      | .reserve bytes => bytes
      | .release bytes => -bytes
      | .resize bytes => if caller.hasBudget then bytes - caller.reservation else 0
      | .releaseAll => if caller.hasBudget then -caller.reservation else 0 := by
  cases call <;> cases charged : caller.hasBudget <;>
    simp [Caller.gain, Caller.settled, Caller.held, charged]

theorem start_spec (budget : MemoryBudget) (allowed : caller.Allows call)
    (owned : 0 ≤ caller.reservation) :
    Started budget (caller.gain call) (caller.start call) := by
  rw [gain_eq]
  cases call with
  | allocate size => exact started_add budget allowed true
  | reallocate oldSize newSize => exact started_reallocate budget _
  | free size => exact started_uncharge budget allowed.1
  | reserve bytes => exact started_reserve budget allowed
  | release bytes => exact started_release budget allowed.1
  | resize bytes =>
    simp only [Caller.start]
    split_ifs with charged grows
    · exact started_reserve budget (by omega)
    · have shrinks : Started budget (-(caller.reservation - bytes))
          (release (caller.reservation - bytes)) := started_release budget (by omega)
      rwa [Int.neg_sub] at shrinks
    · exact started_returned budget
  | releaseAll =>
    simp only [Caller.start]
    split_ifs
    · exact started_release budget owned
    · exact started_returned budget

def Caller.Owned (caller : Caller) : Prop := 0 ≤ caller.granted ∧ 0 ≤ caller.reservation

theorem settled_owned (allowed : caller.Allows call) (owned : caller.Owned) :
    (caller.settled call).Owned := by
  obtain ⟨granted, reservation⟩ := owned
  cases call <;> simp only [Caller.Allows] at allowed <;>
    refine ⟨?_, ?_⟩ <;> simp only [Caller.settled] <;> omega

end MemoryBudget

open MemoryBudget Lib

namespace BudgetState

variable {C : Type} [DecidableEq C] [Fintype C] {s t start : BudgetState C} {c : C}
  {event : Event C}

def total (weight : Phase → Int) (s : BudgetState C) : Int :=
  ∑ c, (s.callers c).weigh weight

theorem total_update (changed : t.callers = Function.update s.callers c caller) :
    t.total weight = s.total weight + (caller.weigh weight - (s.callers c).weigh weight) := by
  unfold total
  rw [changed]
  exact sum_update s.callers c caller fun caller => caller.weigh weight

/-- A call in progress fits the caller that made it. -/
structure CallerSound (budget : MemoryBudget) (caller : Caller) : Prop where
  owned : caller.Owned
  fits : ∀ call phase, caller.running = some (call, phase) →
    phase.Fits budget (caller.gain call) ∧ (∀ ok, phase ≠ .returned ok) ∧
      (caller.settled call).Owned

structure Sound (s : BudgetState C) : Prop where
  callers : ∀ c, CallerSound s.budget (s.callers c)
  used : s.budget.used = s.total Phase.pending
  small : s.total Phase.demand < 2 ^ 63
  limit : ∀ l ∈ s.budget.limit, s.total Phase.accepted ≤ max l 0
  counted : ∀ bound, s.budget.peak ≤ bound → s.total (Phase.counted bound) ≤ bound
  peak : ∀ l ∈ s.budget.limit, s.budget.peak ≤ max l 0

section Held

variable (sound : CallerSound budget caller)
include sound

theorem CallerSound.held_nonneg : 0 ≤ caller.held := by
  obtain ⟨granted, reservation⟩ := sound.owned
  unfold Caller.held
  split_ifs <;> omega

theorem CallerSound.weigh_le :
    0 ≤ caller.weigh Phase.accepted ∧
      caller.weigh Phase.accepted ≤ caller.weigh Phase.pending ∧
      caller.weigh Phase.pending ≤ caller.weigh Phase.demand := by
  have held := sound.held_nonneg
  unfold Caller.weigh
  cases running : caller.running with
  | none => simpa using held
  | some call =>
    obtain ⟨low, middle, high⟩ := (sound.fits call.1 call.2 running).1.pending_le
    simp only [Option.map_some, Option.getD_some]
    omega

theorem CallerSound.held_le_accepted : caller.held ≤ caller.weigh Phase.accepted := by
  unfold Caller.weigh
  cases running : caller.running with
  | none => simp
  | some call =>
    have accepted := (sound.fits call.1 call.2 running).1.pending_le.1
    simpa using accepted

theorem CallerSound.counted_le (bound : Int) :
    caller.held ≤ caller.weigh (Phase.counted bound) ∧
      caller.weigh (Phase.counted bound) ≤ caller.weigh Phase.pending := by
  unfold Caller.weigh
  cases running : caller.running with
  | none => simp
  | some call =>
    obtain ⟨call, phase⟩ := call
    have fits := (sound.fits call phase running).1
    have between := fits.pending_le
    have counted : 0 ≤ phase.counted bound ∧ phase.counted bound ≤ phase.pending := by
      cases phase with
      | loadPeak bytes now forBackend | raisePeak bytes now peak forBackend =>
        have positive := fits.1
        simp only [Phase.counted, Phase.pending]
        split_ifs <;> omega
      | _ => exact ⟨between.1, between.2.1⟩
    simp only [Option.map_some, Option.getD_some]
    omega

end Held

theorem CallerSound.mono {budget budget' : MemoryBudget} (sound : CallerSound budget caller)
    (limit : budget'.limit = budget.limit) (grows : budget.peak ≤ budget'.peak) :
    CallerSound budget' caller where
  owned := sound.owned
  fits call phase running := by
    obtain ⟨fits, rest⟩ := sound.fits call phase running
    exact ⟨fits.mono limit grows, rest⟩

omit [DecidableEq C] in
theorem total_le (callers : ∀ c, CallerSound s.budget (s.callers c)) :
    0 ≤ s.total Phase.accepted ∧ s.total Phase.accepted ≤ s.total Phase.pending ∧
      s.total Phase.pending ≤ s.total Phase.demand :=
  ⟨sum_nonneg fun c _ => (callers c).weigh_le.1,
    sum_le_sum fun c _ => (callers c).weigh_le.2.1,
    sum_le_sum fun c _ => (callers c).weigh_le.2.2⟩

omit [DecidableEq C] in
theorem granted_le_counted (callers : ∀ c, CallerSound s.budget (s.callers c)) (bound : Int) :
    s.granted ≤ s.total (Phase.counted bound) ∧
      s.total (Phase.counted bound) ≤ s.total Phase.pending :=
  ⟨sum_le_sum fun c _ => ((callers c).counted_le bound).1,
    sum_le_sum fun c _ => ((callers c).counted_le bound).2⟩

theorem Sound.replace (sound : s.Sound) (changed : t.callers = Function.update s.callers c caller)
    (same : t.budget.limit = s.budget.limit) (grows : s.budget.peak ≤ t.budget.peak)
    (own : CallerSound t.budget caller)
    (used : t.budget.used = wrap (s.budget.used +
      (caller.weigh Phase.pending - (s.callers c).weigh Phase.pending)))
    (small : s.total Phase.demand +
      (caller.weigh Phase.demand - (s.callers c).weigh Phase.demand) < 2 ^ 63)
    (accepted : caller.weigh Phase.accepted ≤ (s.callers c).weigh Phase.accepted ∨
      ∀ l ∈ s.budget.limit, t.budget.used ≤ l)
    (counted : ∀ bound, t.budget.peak ≤ bound → caller.weigh (Phase.counted bound) ≤
      (s.callers c).weigh (Phase.counted bound) ∨ t.budget.used ≤ bound)
    (peak : ∀ l ∈ s.budget.limit, t.budget.peak ≤ max l 0) : t.Sound := by
  have callers : ∀ x, CallerSound t.budget (t.callers x) := by
    intro x
    by_cases here : x = c
    · simpa [changed, here] using own
    · simpa [changed, here] using (sound.callers x).mono same grows
  have pending := total_update Phase.pending changed
  have demand := total_update Phase.demand changed
  obtain ⟨low, middle, high⟩ := total_le callers
  have exact_ : t.budget.used = t.total Phase.pending := by
    rw [used, sound.used, ← pending]
    exact wrap_eq (low.trans middle) (by omega)
  refine ⟨callers, exact_, by omega, fun l given => ?_, fun bound above => ?_, ?_⟩
  · have given : l ∈ s.budget.limit := same ▸ given
    rcases accepted with less | within
    · have before := sound.limit l given
      rw [total_update Phase.accepted changed]
      omega
    · have below := within l given
      omega
  · rcases counted bound above with less | within
    · have before := sound.counted bound (grows.trans above)
      rw [total_update (Phase.counted bound) changed]
      omega
    · have between := (granted_le_counted callers bound).2
      omega
  · exact fun l given => peak l (same ▸ given)

theorem settled_running (caller : Caller) (running : Option (Call × Phase)) (call : Call) :
    ({ caller with running := running } : Caller).settled call =
      { caller.settled call with running := running } := by
  cases call <;> rfl

theorem gain_running (caller : Caller) (running : Option (Call × Phase)) (call : Call) :
    ({ caller with running := running } : Caller).gain call = caller.gain call := by
  cases call <;> rfl

theorem CallerSound.place (owned : caller.Owned) (fits : phase.Fits budget (caller.gain call))
    (settled : (caller.settled call).Owned) :
    CallerSound budget (caller.place call phase) := by
  cases phase with
  | returned ok =>
    cases ok
    · exact ⟨owned, nofun⟩
    · exact ⟨settled, nofun⟩
  | _ =>
    refine ⟨owned, fun call' phase' running => ?_⟩
    cases running
    simp only [Caller.place, settled_running, gain_running]
    exact ⟨fits, nofun, settled⟩

omit [DecidableEq C] in
theorem Sound.used_lt (sound : s.Sound) : 0 ≤ s.budget.used ∧ s.budget.used < 2 ^ 63 := by
  obtain ⟨low, middle, high⟩ := total_le sound.callers
  have below := sound.small
  rw [sound.used]
  omega

theorem Sound.begins (sound : s.Sound) (idle : (s.callers c).running = none)
    (allowed : (s.callers c).Allows call)
    (small : s.demand + max ((s.callers c).gain call) 0 < 2 ^ 63) : (s.begin_ c call).Sound := by
  have owned := (sound.callers c).owned
  have started := start_spec s.budget allowed owned.2
  have before : ∀ weight, (s.callers c).weigh weight = (s.callers c).held := by
    simp [Caller.weigh, idle]
  refine sound.replace rfl rfl (le_refl _)
    (.place owned started.fits (settled_owned allowed owned)) ?_ ?_ ?_ ?_ sound.peak
  · rw [weigh_place, before, started.pending, Int.add_zero, Int.sub_self, Int.add_zero]
    exact (wrap_eq sound.used_lt.1 sound.used_lt.2).symm
  · rw [weigh_place, before]
    have more := started.demand
    have same : s.demand = s.total Phase.demand := rfl
    omega
  · left
    rw [weigh_place, before, started.accepted, Int.add_zero]
  · intro bound _
    left
    rw [weigh_place, before, started.counted, Int.add_zero]

theorem Sound.works (sound : s.Sound) (running : (s.callers c).running = some (call, phase))
    (choice : Bool) : (s.work c call phase choice).Sound := by
  obtain ⟨fits, open_, settled⟩ := (sound.callers c).fits call phase running
  have before : ∀ weight, (s.callers c).weigh weight = (s.callers c).held + weight phase := by
    simp [Caller.weigh, running]
  have exact_ := wrap_eq sound.used_lt.1 sound.used_lt.2
  have advanced := advance_spec exact_ fits open_ choice
  refine sound.replace rfl advanced.limit advanced.peak
    (.place (sound.callers c).owned advanced.fits settled) ?_ ?_ ?_ ?_ ?_
  · rw [weigh_place, before, Int.add_sub_add_left]
    exact advanced.used
  · rw [weigh_place, before, Int.add_sub_add_left]
    have less := advanced.demand
    have small := sound.small
    omega
  · rw [weigh_place, before]
    exact advanced.accepted.imp_left fun less => Int.add_le_add_left less _
  · intro bound above
    rw [weigh_place, before]
    exact (advanced.counted bound above).imp_left fun less => Int.add_le_add_left less _
  · exact fun l given => advanced.recorded l given (sound.peak l given)

omit [Fintype C] in
theorem hand_callers (s : BudgetState C) (giver taker : C) (bytes : Int) (c : C) :
    (s.hand giver taker bytes).callers c = { s.callers c with
      granted := (s.callers c).granted - (if c = giver then bytes else 0) +
        (if c = taker then bytes else 0) } := by
  unfold hand
  by_cases taken : c = taker
  · subst taken
    by_cases given : c = giver
    · subst given
      simp
    · simp [given]
  · by_cases given : c = giver
    · subst given
      simp [taken]
    · simp [taken, given]

theorem total_hand (s : BudgetState C) (giver taker : C) (bytes : Int) :
    (s.hand giver taker bytes).total weight = s.total weight := by
  have moved : ∀ c, ((s.hand giver taker bytes).callers c).weigh weight =
      (s.callers c).weigh weight + ((if c = taker then bytes else 0) -
        (if c = giver then bytes else 0)) := by
    intro c
    rw [hand_callers]
    simp only [Caller.weigh, Caller.held]
    omega
  unfold total
  simp only [moved, sum_add_distrib, sum_sub_distrib, sum_ite_eq',
    mem_univ, if_true, Int.sub_self, Int.add_zero]

theorem Sound.hands (sound : s.Sound) {giver taker : C} (idle : (s.callers giver).running = none)
    (idle' : (s.callers taker).running = none) (positive : 0 ≤ bytes)
    (owned : bytes ≤ (s.callers giver).granted) : (s.hand giver taker bytes).Sound := by
  refine ⟨fun c => ?_, ?_, ?_, ?_, ?_, sound.peak⟩
  · rw [hand_callers]
    obtain ⟨granted, reservation⟩ := (sound.callers c).owned
    by_cases apart : c = giver ∨ c = taker
    · have still : (s.callers c).running = none := by
        rcases apart with rfl | rfl
        · exact idle
        · exact idle'
      refine ⟨⟨?_, reservation⟩, fun call phase running => ?_⟩
      · by_cases gives : c = giver
        · subst gives
          simp only [if_true]
          split_ifs <;> omega
        · simp only [if_neg gives]
          split_ifs <;> omega
      · rw [still] at running
        cases running
    · rw [not_or] at apart
      simp only [if_neg apart.1, if_neg apart.2, Int.sub_zero, Int.add_zero]
      exact sound.callers c
  · exact sound.used.trans (total_hand ..).symm
  · exact (total_hand ..).trans_lt sound.small
  · exact fun l given => (total_hand ..).trans_le (sound.limit l given)
  · exact fun bound above => (total_hand ..).trans_le (sound.counted bound above)

theorem Sound.step (step : Step s event t) (sound : s.Sound) : t.Sound := by
  cases step with
  | begins c call idle allowed fits => exact sound.begins idle allowed fits
  | works c call phase choice running => exact sound.works running choice
  | hands giver taker bytes idle idle' positive owned =>
    exact sound.hands idle idle' positive owned

omit [DecidableEq C] in
theorem Initial.sound (initial : s.Initial) : s.Sound := by
  have weigh : ∀ weight c, (s.callers c).weigh weight = 0 := by
    intro weight c
    simp [Caller.weigh, Caller.held, initial.granted c, initial.reservation c, initial.idle c]
  have total : ∀ weight, s.total weight = 0 := by
    intro weight
    exact sum_eq_zero fun c _ => weigh weight c
  refine ⟨fun c => ⟨⟨(initial.granted c).ge, (initial.reservation c).ge⟩, fun call phase running => ?_⟩,
    ?_, ?_, ?_, ?_, ?_⟩
  · rw [initial.idle c] at running
    cases running
  · rw [initial.used, total]
  · rw [total]
    decide
  · intro l _
    rw [total]
    exact le_max_right _ _
  · intro bound above
    rw [total]
    exact initial.peak ▸ above
  · intro l _
    rw [initial.peak]
    exact le_max_right _ _

/-- Steps of the system while a caller's call is in progress. -/
def During (c : C) (call : Call) : BudgetState C → BudgetState C → Prop :=
  Relation.ReflTransGen fun s t => (∃ event, Step s event t) ∧
    (∃ phase, (s.callers c).running = some (call, phase)) ∧
      ∃ phase, (t.callers c).running = some (call, phase)

theorem place_running {call call' : Call} {phase phase' : Phase}
    (running : (caller.place call phase).running = some (call', phase')) :
    caller.place call phase = { caller with running := some (call', phase') } := by
  cases phase with
  | returned ok => cases running
  | _ =>
    cases running
    rfl

theorem running_keeps (step : Step s event t)
    (running : (t.callers c).running = some (call, phase)) :
    t.callers c = { s.callers c with running := some (call, phase) } := by
  have other : ∀ {x caller}, x ≠ c → (Function.update s.callers x caller c).running =
      some (call, phase) → Function.update s.callers x caller c =
        { s.callers c with running := some (call, phase) } := by
    intro x caller apart running
    rw [Function.update_of_ne apart.symm] at running ⊢
    rw [← running]
  cases step with
  | begins x call' idle allowed fits =>
    by_cases here : x = c
    · subst here
      simp only [begin_, Function.update_self] at running ⊢
      exact place_running running
    · exact other here running
  | works x call' phase' choice running' =>
    by_cases here : x = c
    · subst here
      simp only [work, Function.update_self] at running ⊢
      exact place_running running
    · exact other here running
  | hands giver taker bytes idle idle' positive owned =>
    rw [hand_callers] at running ⊢
    have busy : (s.callers c).running = some (call, phase) := running
    have notGiver : c ≠ giver := by
      rintro rfl
      rw [idle] at busy
      cases busy
    have notTaker : c ≠ taker := by
      rintro rfl
      rw [idle'] at busy
      cases busy
    simp only [if_neg notGiver, if_neg notTaker, Int.sub_zero, Int.add_zero, ← busy]

theorem during_keeps (running : (s.callers c).running = some (call, phase))
    (during : During c call s t) :
    ∃ phase', t.callers c = { s.callers c with running := some (call, phase') } := by
  induction during with
  | refl => exact ⟨phase, by rw [← running]⟩
  | tail _ last ih =>
    obtain ⟨⟨event, step⟩, -, phase', running'⟩ := last
    obtain ⟨before, same⟩ := ih
    exact ⟨phase', by rw [running_keeps step running', same]⟩

theorem failed_call {s s₁ s₂ t : BudgetState C} (begins : Step s (.begins c call) s₁)
    (during : During c call s₁ s₂) (fails : Step s₂ (.works c call (.returned false)) t) :
    t.callers c = s.callers c := by
  obtain ⟨idle, started⟩ : (s.callers c).running = none ∧
      s₁.callers c = (s.callers c).place call ((s.callers c).start call) := by
    cases begins with
    | begins _ _ idle allowed fits => exact ⟨idle, by simp [begin_]⟩
  obtain ⟨phase, running, returned⟩ : ∃ phase, (s₂.callers c).running = some (call, phase) ∧
      t.callers c = (s₂.callers c).place call (.returned false) := by
    generalize event : Event.works c call (.returned false) = label at fails
    cases fails with
    | works c' call' phase choice running =>
      injection event with sameCaller sameCall sameNext
      subst sameCaller sameCall
      exact ⟨phase, running, by simp [work, ← sameNext]⟩
    | begins | hands => cases event
  -- the call was in progress from its first step on
  obtain ⟨first, open_⟩ : ∃ phase, (s₁.callers c).running = some (call, phase) := by
    rcases during.cases_head with rfl | ⟨_, ⟨-, busy, -⟩, -⟩
    · exact ⟨phase, running⟩
    · exact busy
  obtain ⟨last, same⟩ := during_keeps open_ during
  rw [started] at open_
  rw [returned, same, started, place_running open_]
  change { s.callers c with running := none } = s.callers c
  rw [← idle]

theorem sound_of_run (initial : start.Initial) (run : Runs start s) : s.Sound :=
  run_keeps (fun _ _ step sound => sound.step step.choose_spec) run initial.sound

theorem budget_step (step : Step s event t) :
    t.budget.limit = s.budget.limit ∧ s.budget.peak ≤ t.budget.peak := by
  cases step with
  | begins | hands => exact ⟨rfl, le_refl _⟩
  | works c call phase choice running =>
    cases phase with
    | raisePeak bytes now peak forBackend =>
      dsimp only [work, advance]
      split_ifs with more swapped
      · exact ⟨rfl, swapped.1 ▸ more.le⟩
      · exact ⟨rfl, le_refl _⟩
      · exact ⟨rfl, le_refl _⟩
    | _ => exact ⟨rfl, le_refl _⟩

theorem limit_of_run (run : Runs start s) : s.budget.limit = start.budget.limit := by
  induction run with
  | refl => rfl
  | tail _ last ih => exact (budget_step last.choose_spec).1.trans ih

omit [DecidableEq C] in
theorem total_pending (s : BudgetState C) : s.total Phase.pending = s.granted + s.inProgress :=
  sum_add_distrib

/-- The budget is never exceeded and never leaks. A negative limit grants nothing. -/
theorem memoryBudget_safe {start s : BudgetState C} (initial : start.Initial)
    (run : Runs start s) :
    -- the limit holds for every charge granted and not given back
    (∀ l ∈ start.budget.limit, s.granted ≤ s.charges ∧ s.charges ≤ max l 0) ∧
    -- a call that fails leaves its caller as it was
    (∀ (c : C) (call : Call) (s₁ s₂ t : BudgetState C), Step s (.begins c call) s₁ →
      During c call s₁ s₂ → Step s₂ (.works c call (.returned false)) t →
      t.callers c = s.callers c) ∧
    -- the counter
    s.budget.used = s.granted + s.inProgress ∧
    ((∀ c, (s.callers c).running = none) → s.budget.used = s.granted) ∧
    -- the peak
    (∀ t, Runs s t → s.granted ≤ t.budget.peak) ∧
    ∀ l ∈ start.budget.limit, s.budget.peak ≤ max l 0 := by
  have sound := sound_of_run initial run
  have limit := limit_of_run run
  have counter : s.budget.used = s.granted + s.inProgress := by
    rw [sound.used, total_pending]
  refine ⟨fun l given => ⟨?_, sound.limit l (limit ▸ given)⟩, ?_, counter, ?_, ?_, ?_⟩
  · exact sum_le_sum fun c _ => (sound.callers c).held_le_accepted
  · exact fun c call s₁ s₂ t => failed_call
  · intro idle
    have none_ : s.inProgress = 0 := sum_eq_zero fun c _ => by simp [idle c]
    rw [counter, none_, Int.add_zero]
  · intro t later
    have here := (granted_le_counted sound.callers s.budget.peak).1.trans
      (sound.counted s.budget.peak (le_refl _))
    exact here.trans (run_mono (fun _ _ step => (budget_step step.choose_spec).2) later)
  · exact fun l given => sound.peak l (limit ▸ given)

def twoCallers : BudgetState Bool := ⟨{ limit := some 10 }, fun _ => {}⟩

/-- Both callers have added their bytes, and one of them has passed the limit. -/
def overCounted : BudgetState Bool :=
  (((twoCallers.begin_ true (.allocate 6)).begin_ false (.reserve 5)).work true (.allocate 6)
    (.add 6 true) true).work false (.reserve 5) (.add 5 false) true

theorem twoCallers_initial : twoCallers.Initial where
  used := rfl
  peak := rfl
  idle _ := rfl
  granted _ := rfl
  reservation _ := rfl

theorem runs_overCounted : Runs twoCallers overCounted := by
  refine (((Relation.ReflTransGen.single ⟨_, .begins _ true (.allocate 6) rfl ?_ ?_⟩).tail
    ⟨_, .begins _ false (.reserve 5) rfl ?_ ?_⟩).tail
    ⟨_, .works _ true (.allocate 6) (.add 6 true) true rfl⟩).tail
    ⟨_, .works _ false (.reserve 5) (.add 5 false) true rfl⟩
  · exact (by decide : (0 : Int) ≤ 6)
  · decide
  · exact (by decide : (0 : Int) ≤ 5)
  · decide

theorem memoryBudget_safe_overCounted :
    overCounted.budget.used = 11 ∧ overCounted.charges ≤ 10 ∧
      overCounted.budget.used = overCounted.granted + overCounted.inProgress := by
  obtain ⟨limit, -, counter, -⟩ := memoryBudget_safe twoCallers_initial runs_overCounted
  exact ⟨by decide, (limit 10 rfl).2, counter⟩

/-- The counter covers what is granted and never wraps, also while charges past the limit are in
it, in whatever order the steps of the calls come. -/
theorem used_bounds {start s : BudgetState C} (initial : start.Initial) (run : Runs start s) :
    0 ≤ s.granted ∧ s.granted ≤ s.budget.used ∧ s.budget.used < 2 ^ 63 := by
  have sound := sound_of_run initial run
  obtain ⟨low, middle⟩ := granted_le_counted sound.callers 0
  exact ⟨sum_nonneg fun c _ => (sound.callers c).held_nonneg, sound.used ▸ low.trans middle,
    sound.used_lt.2⟩

theorem used_bounds_overCounted : overCounted.granted ≤ 11 :=
  (used_bounds twoCallers_initial runs_overCounted).2.1

end BudgetState

end Antb1.Exec
