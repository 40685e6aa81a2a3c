import Antb1.Exec.PartitionLanes
import Mathlib.Data.List.Induction

/-! Merging part by part on one thread fails where the lanes, each on its own, fail first. -/
namespace Antb1.Exec.PartitionLanes

open Common List

variable {parts : List Int} {lanes : Nat}

/-- The order of failures: by part, then by lane. -/
def NotAfter (part : Int) (lane : Nat) (part' : Int) (lane' : Nat) : Prop :=
  part < part' ∨ part = part' ∧ lane ≤ lane'

theorem NotAfter.antisymm {part part' : Int} {lane lane' : Nat}
    (first : NotAfter part lane part' lane') (second : NotAfter part' lane' part lane) :
    part = part' ∧ lane = lane' := by
  unfold NotAfter at first second
  omega

namespace Serial

variable {outcome outcome' : Nat → List Int → Int → Option Status} {lane : Nat}
  {failure : Int × Status} {before : List Int}

theorem laneFailureFrom_append (lane : Nat) (before parts more : List Int) :
    laneFailureFrom outcome lane before (parts ++ more) =
      (laneFailureFrom outcome lane before parts).or
        (laneFailureFrom outcome lane (before ++ parts) more) := by
  induction parts generalizing before with
  | nil => simp [laneFailureFrom]
  | cons part rest ih =>
    cases fails : outcome lane before part with
    | some status => simp [laneFailureFrom, fails]
    | none => simp [laneFailureFrom, fails, ih]

theorem laneFailure_append (lane : Nat) (parts more : List Int) :
    laneFailure outcome lane (parts ++ more) =
      (laneFailure outcome lane parts).or (laneFailureFrom outcome lane parts more) :=
  laneFailureFrom_append lane [] parts more

theorem laneFailure_snoc (lane : Nat) (parts : List Int) (part : Int) :
    laneFailure outcome lane (parts ++ [part]) =
      (laneFailure outcome lane parts).or ((outcome lane parts part).map (part, ·)) := by
  rw [laneFailure_append, laneFailureFrom]
  cases outcome lane parts part <;> rfl

theorem laneFailure_of_prefix {parts more : List Int} (isPrefix : parts <+: more)
    (fails : laneFailure outcome lane parts = some failure) :
    laneFailure outcome lane more = some failure := by
  obtain ⟨rest, rfl⟩ := isPrefix
  rw [laneFailure_append, fails, Option.some_or]

theorem laneFailureFrom_mem (fails : laneFailureFrom outcome lane before parts = some failure) :
    failure.1 ∈ parts := by
  induction parts generalizing before with
  | nil => contradiction
  | cons part rest ih =>
    rw [laneFailureFrom] at fails
    split at fails
    · cases fails
      exact mem_cons_self
    · exact mem_cons_of_mem _ (ih fails)

theorem laneFailureFrom_congr
    (same : ∀ before, ∀ part ∈ parts, outcome lane before part = outcome' lane before part) :
    laneFailureFrom outcome lane before parts = laneFailureFrom outcome' lane before parts := by
  induction parts generalizing before with
  | nil => rfl
  | cons part rest ih =>
    rw [laneFailureFrom, laneFailureFrom, same before part mem_cons_self]
    split
    · rfl
    · exact ih fun before other member => same before other (mem_cons_of_mem _ member)

/-- The failure of the smallest part and lane at which a lane stops. -/
structure Least (outcome : Nat → List Int → Int → Option Status) (lanes : Nat) (parts : List Int)
    (failure : Option Failure) : Prop where
  clean : failure = none → ∀ lane < lanes, laneFailure outcome lane parts = none
  stops : ∀ f, failure = some f →
    f.lane < lanes ∧ laneFailure outcome f.lane parts = some (f.part, f.status)
  first : ∀ f, failure = some f → ∀ lane < lanes, ∀ other,
    laneFailure outcome lane parts = some other → NotAfter f.part f.lane other.1 lane

theorem Least.unique {failure failure' : Option Failure} (least : Least outcome lanes parts failure)
    (least' : Least outcome lanes parts failure') :
    failure = failure' := by
  cases failure with
  | none =>
    cases failure' with
    | none => rfl
    | some f =>
      obtain ⟨within, fails⟩ := least'.stops f rfl
      rw [least.clean rfl f.lane within] at fails
      contradiction
  | some f =>
    obtain ⟨within, fails⟩ := least.stops f rfl
    cases failure' with
    | none =>
      rw [least'.clean rfl f.lane within] at fails
      contradiction
    | some f' =>
      obtain ⟨within', fails'⟩ := least'.stops f' rfl
      obtain ⟨part, lane⟩ := NotAfter.antisymm (least.first f rfl f'.lane within' _ fails')
        (least'.first f' rfl f.lane within _ fails)
      rw [lane, fails', Option.some.injEq, Prod.mk.injEq] at fails
      obtain ⟨p, l, st⟩ := f
      obtain ⟨p', l', st'⟩ := f'
      simp_all

/-- The loop of `Add` before lane `turn`, after the parts before were added. -/
structure Loop (outcome : Nat → List Int → Int → Option Status) (lanes : Nat) (parts : List Int)
    (part : Int) (turn : Nat) (s : Serial) : Prop where
  merged : s.failure = none → ∀ lane < turn, s.merged lane = parts ++ [part] ∧
    laneFailure outcome lane (parts ++ [part]) = none
  unmerged : s.failure = none → ∀ lane < lanes, turn ≤ lane → s.merged lane = parts ∧
    laneFailure outcome lane parts = none
  failed : ∀ f, s.failure = some f → Least outcome lanes (parts ++ [part]) s.failure

theorem Loop.turn {part : Int} {turn : Nat} {s : Serial}
    (loop : Loop outcome lanes parts part turn s) (within : turn < lanes) :
    Loop outcome lanes parts part (turn + 1) (mergeLane outcome part s turn) := by
  cases failed : s.failure with
  | some f =>
    have same : mergeLane outcome part s turn = s := by simp [mergeLane, failed]
    have ended : s.failure ≠ none := by simp [failed]
    rw [same]
    exact ⟨fun clean => absurd clean ended, fun clean => absurd clean ended, loop.failed⟩
  | none =>
    obtain ⟨mergedHere, cleanHere⟩ := loop.unmerged failed turn within (le_refl _)
    have here : laneFailure outcome turn (parts ++ [part]) =
        (outcome turn parts part).map (part, ·) := by
      rw [laneFailure_snoc, cleanHere, Option.none_or]
    have step : mergeLane outcome part s turn =
        { merged := Function.update s.merged turn (parts ++ [part])
          failure := (outcome turn parts part).map (⟨part, turn, ·⟩) } := by
      simp [mergeLane, failed, mergedHere]
    rw [step]
    cases fails : outcome turn parts part with
    | none =>
      rw [fails] at here
      refine ⟨?_, ?_, by simp⟩
      · intro _ lane below
        obtain below | rfl := Nat.lt_succ_iff_lt_or_eq.mp below
        · simp only [Function.update_of_ne (Nat.ne_of_lt below)]
          exact loop.merged failed lane below
        · exact ⟨Function.update_self .., here⟩
      · intro _ lane inside above
        simp only [Function.update_of_ne (Nat.ne_of_gt above)]
        exact loop.unmerged failed lane inside (Nat.le_of_succ_le above)
    | some status =>
      rw [fails] at here
      refine ⟨by simp, by simp, ?_⟩
      intro f _
      refine ⟨by simp, ?_, ?_⟩
      · intro f isF
        cases isF
        exact ⟨within, here⟩
      · -- the lanes before this one merged the part, and those behind had merged all before it
        intro f isF lane inside other otherFails
        cases isF
        obtain below | above := Nat.lt_or_ge lane turn
        · rw [(loop.merged failed lane below).2] at otherFails
          contradiction
        · have clean := (loop.unmerged failed lane inside above).2
          rw [laneFailure_snoc, clean, Option.none_or] at otherFails
          obtain ⟨status', -, rfl⟩ := Option.map_eq_some_iff.mp otherFails
          exact .inr ⟨rfl, above⟩

theorem Loop.all {part : Int} {s : Serial} (loop : Loop outcome lanes parts part 0 s) :
    Loop outcome lanes parts part lanes (add outcome lanes s part) := by
  have turns : ∀ n ≤ lanes, Loop outcome lanes parts part n
      ((List.range n).foldl (mergeLane outcome part) s) := by
    intro n
    induction n with
    | zero => exact fun _ => loop
    | succ n ih =>
      intro within
      rw [range_succ, foldl_append]
      exact (ih (Nat.le_of_succ_le within)).turn within
  exact turns lanes (le_refl _)

structure Ran (outcome : Nat → List Int → Int → Option Status) (lanes : Nat) (parts : List Int)
    (s : Serial) : Prop where
  least : Least outcome lanes parts s.failure
  merged : s.failure = none → ∀ lane < lanes, s.merged lane = parts

theorem Ran.add {s : Serial} (ran : Ran outcome lanes parts s) (part : Int)
    (above : ∀ q ∈ parts, q < part) :
    Ran outcome lanes (parts ++ [part]) (add outcome lanes s part) := by
  have loop : Loop outcome lanes parts part 0 s := by
    refine ⟨fun _ lane below => absurd below (Nat.not_lt_zero _), ?_, ?_⟩
    · exact fun clean lane within _ =>
        ⟨ran.merged clean lane within, ran.least.clean clean lane within⟩
    · intro f failed
      refine ⟨by simp [failed], ?_, ?_⟩
      · intro f failed
        obtain ⟨within, fails⟩ := ran.least.stops f failed
        exact ⟨within, laneFailure_of_prefix (prefix_append _ _) fails⟩
      · intro f failed lane within other fails
        rw [laneFailure_snoc] at fails
        obtain old | ⟨-, new⟩ := Option.or_eq_some_iff.mp fails
        · exact ran.least.first f failed lane within other old
        · obtain ⟨status, -, rfl⟩ := Option.map_eq_some_iff.mp new
          exact .inl (above _ (laneFailureFrom_mem (ran.least.stops f failed).2))
  have ended := loop.all
  refine ⟨?_, fun clean lane within => (ended.merged clean lane within).1⟩
  cases failure : (Serial.add outcome lanes s part).failure with
  | none => exact ⟨fun _ lane within => (ended.merged failure lane within).2, nofun, nofun⟩
  | some f => exact failure ▸ ended.failed f failure

/-- The serial run fails where the lanes, each on its own, fail first. -/
theorem run_least (lanes : Nat) (parts : List Int) (increasing : parts.Pairwise (· < ·)) :
    Least outcome lanes parts (run outcome lanes parts).failure := by
  suffices ran : Ran outcome lanes parts (run outcome lanes parts) from ran.least
  induction parts using List.reverseRecOn with
  | nil => exact ⟨⟨fun _ _ _ => rfl, nofun, nofun⟩, fun _ _ _ => rfl⟩
  | append_singleton parts part ih =>
    rw [pairwise_append] at increasing
    rw [run, foldl_append]
    exact (ih increasing.1).add part fun q member => increasing.2.2 q member part (by simp)

theorem run_append_of_failed {f : Failure} (failed : (run outcome lanes parts).failure = some f)
    (more : List Int) :
    run outcome lanes (parts ++ more) = run outcome lanes parts := by
  have still : ∀ (loop : List Nat) (part : Int),
      loop.foldl (mergeLane outcome part) (run outcome lanes parts) = run outcome lanes parts := by
    intro loop part
    induction loop with
    | nil => rfl
    | cons lane rest ih =>
      have same : mergeLane outcome part (run outcome lanes parts) lane =
          run outcome lanes parts := by simp [mergeLane, failed]
      rw [foldl_cons, same, ih]
  induction more using List.reverseRecOn with
  | nil => rw [append_nil]
  | append_singleton more part ih =>
    rw [← append_assoc, run, foldl_append]
    exact (congrArg (add outcome lanes · part) ih).trans (still _ part)

end Serial

end Antb1.Exec.PartitionLanes
