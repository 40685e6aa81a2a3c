import Antb1.Exec.PartFlightProofs
import Antb1.Lib.Runs
import Mathlib.Data.Prod.Lex

/-! The part scheduler gives what the parts give one after another, keeps its window, and
leaves nothing behind when it is stopped. -/
namespace Antb1.Exec

namespace PartScheduler

open Common List

variable {T : Type} {parts : Parts T} {replies : List (Reply T)} {future : Nat} {pc : Pc T}
  {result : Outcome T}

namespace Serial

variable {outcome outcome' : Nat → Result T} {s : Serial}

theorem call_next (parts : Parts T) (outcome : Nat → Result T) (s : Serial) (result : Result T) :
    s.done parts = true ∧ s.call parts outcome (.next result) = (s, .next noPartsLeft) ∨
      (s.stopped = false ∧ s.nextResult < parts.numParts) ∧
        s.call parts outcome (.next result) =
          (⟨s.nextResult + 1, !(outcome s.nextResult).isOk⟩, .next (outcome s.nextResult)) := by
  by_cases done : s.done parts = true
  · exact .inl ⟨done, by simp [call, next, done]⟩
  · have running : s.stopped = false ∧ s.nextResult < parts.numParts := by
      simpa [Serial.done] using done
    refine .inr ⟨running, ?_⟩
    simp only [call, next, if_neg done]
    cases outcome s.nextResult with
    | ok value => rw [running.1]; rfl
    | error status => rfl

theorem call_grows (s : Serial) (reply : Reply T) :
    s.nextResult ≤ (s.call parts outcome reply).1.nextResult := by
  cases reply with
  | stop => exact le_refl _
  | next result =>
    obtain ⟨-, same⟩ | ⟨-, moved⟩ := call_next parts outcome s result
    · rw [same]
    · rw [moved]
      exact Nat.le_succ _

theorem call_congr {reply : Reply T}
    (same : ∀ part < (s.call parts outcome reply).1.nextResult, outcome part = outcome' part) :
    s.call parts outcome reply = s.call parts outcome' reply := by
  cases reply with
  | stop => rfl
  | next result =>
    obtain ⟨done, -⟩ | ⟨-, moved⟩ := call_next parts outcome s result
    · simp [call, next, done]
    · rw [moved] at same
      simp only [call, next, same s.nextResult (Nat.lt_succ_self _)]

theorem Replies.congr (before : Replies parts outcome replies s)
    (same : ∀ part < s.nextResult, outcome part = outcome' part) :
    Replies parts outcome' replies s := by
  induction before with
  | none => exact .none
  | call replies s reply before sameReply ih =>
    have last := call_congr same
    rw [last]
    exact .call replies s reply
      (ih fun part below => same part (below.trans_le (call_grows s reply))) (last ▸ sameReply)

theorem results_snoc_next (replies : List (Reply T)) (result : Result T) :
    results (replies ++ [.next result]) = results replies ++ [result] := by
  simp [results, Reply.result?]

theorem results_snoc_stop (replies : List (Reply T)) :
    results (replies ++ [.stop]) = results replies := by
  simp [results, Reply.result?]

/-- Until `Next` fails, it has returned one result for each part it passed. -/
theorem Replies.passed (before : Replies parts outcome replies s)
    (ok : ∀ result ∈ results replies, result.isOk = true) :
    (results replies).length = s.nextResult ∧ s.nextResult ≤ parts.numParts ∧
      (s.stopped = true → .stop ∈ replies) := by
  induction before with
  | none => simp [results]
  | call replies s reply before sameReply ih =>
    cases reply with
    | stop =>
      rw [results_snoc_stop] at ok ⊢
      obtain ⟨count, within, -⟩ := ih ok
      exact ⟨count, within, fun _ => by simp⟩
    | next result =>
      rw [results_snoc_next] at ok ⊢
      obtain ⟨count, within, stopped⟩ := ih fun result member => ok result (by simp [member])
      have isOk : result.isOk = true := ok result (by simp)
      obtain ⟨-, left⟩ | ⟨running, moved⟩ := call_next parts outcome s result
      · -- the reply that no part is left is no value
        rw [left, Reply.next.injEq] at sameReply
        rw [← sameReply] at isOk
        contradiction
      · rw [moved, Reply.next.injEq] at sameReply
        rw [moved, sameReply, isOk]
        exact ⟨by simp [count], running.2, nofun⟩

/-- Up to its first failure, `Next` returns the outcomes of the parts in order. -/
theorem Replies.in_order (before : Replies parts outcome replies s) (i : Nat) (result : Result T)
    (returned : (results replies)[i]? = some result)
    (ok : ∀ earlier ∈ (results replies).take i, earlier.isOk = true) :
    (i < s.nextResult ∧ i < parts.numParts) ∧ result = outcome i ∨
      result = noPartsLeft ∧ (i = parts.numParts ∨ .stop ∈ replies) := by
  induction before with
  | none => simp [results] at returned
  | call replies s reply before sameReply ih =>
    have grows : i < s.nextResult ∧ i < parts.numParts →
        i < (s.call parts outcome reply).1.nextResult ∧ i < parts.numParts :=
      And.imp_left fun below => below.trans_le (call_grows s reply)
    cases reply with
    | stop =>
      rw [results_snoc_stop] at returned ok
      exact (ih returned ok).imp id fun left => ⟨left.1, left.2.imp id fun member => by simp⟩
    | next last =>
      rw [results_snoc_next] at returned ok
      by_cases inside : i < (results replies).length
      · rw [getElem?_append_left inside] at returned
        rw [take_append_of_le_length inside.le] at ok
        exact (ih returned ok).imp (fun passed => ⟨grows passed.1, passed.2⟩) fun left =>
          ⟨left.1, left.2.imp id fun member => by simp [member]⟩
      · have isLast : i = (results replies).length := by
          have bound := (List.getElem?_eq_some_iff.mp returned).1
          rw [length_append, length_singleton] at bound
          omega
        subst isLast
        rw [getElem?_concat_length, Option.some.injEq] at returned
        rw [take_left] at ok
        obtain ⟨count, within, stopped⟩ := before.passed ok
        rw [← returned, count]
        obtain ⟨done, left⟩ | ⟨running, moved⟩ := call_next parts outcome s last
        · rw [left, Reply.next.injEq] at sameReply
          refine .inr ⟨sameReply.symm, ?_⟩
          have done : s.stopped = true ∨ parts.numParts ≤ s.nextResult := by
            simpa [Serial.done] using done
          exact done.symm.imp within.antisymm fun isStopped => by simp [stopped isStopped]
        · rw [moved, Reply.next.injEq] at sameReply
          rw [moved]
          exact .inl ⟨⟨Nat.lt_succ_self _, running.2⟩, sameReply.symm⟩

theorem Replies.init {reply : Reply T} (before : Replies parts outcome (replies ++ [reply]) s) :
    ∃ s', Replies parts outcome replies s' ∧ s'.nextResult ≤ s.nextResult := by
  generalize all : replies ++ [reply] = before' at before
  cases before with
  | none => simp at all
  | call replies' s' reply' before same =>
    obtain ⟨rfl, -⟩ := append_inj' all rfl
    exact ⟨s', before, call_grows s' reply'⟩

section

variable (before : Replies parts outcome replies s)
include before

theorem Replies.stopped (member : .stop ∈ replies) : s.stopped = true := by
  induction before with
  | none => contradiction
  | call replies s reply before same ih =>
    cases reply with
    | stop => rfl
    | next result =>
      have stopped := ih (by simpa using member)
      simp [Serial.call, Serial.next, Serial.done, stopped]

theorem Replies.stopped_of_error (fails : (outcome 0).isOk = false) (passed : 0 < s.nextResult) :
    s.stopped = true := by
  induction before with
  | none => contradiction
  | call replies s reply before same ih =>
    cases reply with
    | stop => rfl
    | next result =>
      obtain ⟨-, same⟩ | ⟨⟨running, -⟩, moved⟩ := call_next parts outcome s result
      · rw [same] at passed ⊢
        exact ih passed
      · rw [moved]
        have first : s.nextResult = 0 := by
          by_contra later
          cases running.symm.trans (ih (Nat.pos_of_ne_zero later))
        simp [first, fails]

theorem Replies.next_done (done : s.done parts = true) :
    Replies parts outcome (replies ++ [.next noPartsLeft]) s := by
  have called : s.call parts outcome (.next noPartsLeft) = (s, .next noPartsLeft) := by
    simp [Serial.call, Serial.next, done]
  have replied := Replies.call replies s (.next noPartsLeft) before (by rw [called])
  rwa [called] at replied

end

theorem Replies.next_part {part : Nat} (before : Replies parts outcome replies ⟨part, false⟩)
    (within : part < parts.numParts) :
    Replies parts outcome (replies ++ [.next (outcome part)])
      ⟨part + 1, !(outcome part).isOk⟩ := by
  obtain ⟨done, -⟩ | ⟨-, moved⟩ := call_next parts outcome ⟨part, false⟩ (outcome part)
  · have passed : parts.numParts ≤ part := by simpa [Serial.done] using done
    omega
  · have replied := Replies.call replies _ (.next (outcome part)) before (by rw [moved])
    rwa [moved] at replied

end Serial

namespace Pc

/-- The part `Take` took off the front once its task was completed. -/
def taken : Pc T → Nat
  | .taking | .stopping .retry | .dropping .retry | .retrying | .delivering _ => 1
  | _ => 0

def tracked (inFlight : List Nat) : Pc T → List Nat
  | .waiting future => future :: inFlight
  | _ => inFlight

def low : Pc T → Nat
  | .taking => 0
  | pc => pc.taken

def ran : Pc T → Nat
  | .delivering _ => 1
  | _ => 0

def pending : Pc T → List (Reply T)
  | .submitting (some value) => [.next (.ok value)]
  | .stopping (.reply reply) | .dropping (.reply reply) => [reply]
  | _ => []

/-- The stop flag may be raised though the scheduler is not stopped. -/
def pausing : Pc T → Bool
  | .dropping .retry => true
  | _ => false

/-- What holds at a point of the scheduler's thread only. -/
def Fits (parts : Parts T) (s : PartScheduler T) : Pc T → Prop
  | .idle => s.stopped = true → s.inFlight = []
  | .submitting (some _) => s.stopped = false
  | .stopping (.reply _) | .dropping (.reply _) => s.stopped = true
  | .taking => (s.stopped = false ∧ s.nextResult < parts.numParts) ∧
      (s.slots s.nextResult).isSome
  | .retrying => (s.stopped = false ∧ s.nextResult < parts.numParts) ∧ s.inFlight = []
  | .delivering result => (s.stopped = false ∧ s.nextResult < parts.numParts) ∧
      result = s.outcome parts s.nextResult
  | .overflowed => False
  | _ => s.stopped = false ∧ s.nextResult < parts.numParts

theorem pending_cases (pc : Pc T) : pc.pending = [] ∨ ∃ reply, pc.pending = [reply] := by
  cases pc with
  | submitting taken =>
    cases taken with
    | none => exact .inl rfl
    | some value => exact .inr ⟨_, rfl⟩
  | stopping reason | dropping reason =>
    cases reason with
    | retry => exact .inl rfl
    | reply reply => exact .inr ⟨_, rfl⟩
  | _ => exact .inl rfl

theorem low_le_taken (pc : Pc T) : pc.low ≤ pc.taken := by
  cases pc with
  | taking => exact Nat.zero_le _
  | _ => exact Nat.le_refl _

end Pc

/-- The invariant of a scheduler whose thread is at `pc`. -/
structure Holds (parts : Parts T) (s : PartScheduler T) (pc : Pc T) : Prop where
  window : 1 ≤ s.window ∧ s.window ≤ maxWindow parts
  bound : ((pc.taken + (pc.tracked s.inFlight).length : Nat) : Int) ≤ maxWindow parts
  flight : Flight s.tasks s.slots (s.nextResult + pc.low) (s.nextResult + pc.taken)
    (pc.tracked s.inFlight)
  submitted : s.stopped = false →
    s.nextSubmit = s.nextResult + pc.taken + (pc.tracked s.inFlight).length
  flag : s.stop = true → s.stopped = true ∨ pc.pausing = true
  clean : s.stop = false → Clean parts s.tasks s.slots (pc.tracked s.inFlight)
  alone : ∀ part result, s.alone part = some result →
    part < s.nextResult + pc.ran ∧ Honest parts part result
  retried : ∀ part < s.nextResult + pc.ran, (s.outcome parts part).isOutOfMemory = true →
    s.alone part = some (s.outcome parts part)
  serial : Serial.Replies parts (s.outcome parts) (s.replies ++ pc.pending)
    ⟨s.nextResult, s.stopped⟩
  point : pc.Fits parts s

theorem one_le_maxWindow (parts : Parts T) : 1 ≤ maxWindow parts := by
  unfold maxWindow
  split <;> omega

theorem make_holds (parts : Parts T) : Holds parts (make parts) .idle where
  window := ⟨one_le_maxWindow parts, le_refl _⟩
  bound := Int.le_trans (Int.zero_le_ofNat 1) (one_le_maxWindow parts)
  flight := ⟨rfl, by simp [make], by simp [make], by simp [make]⟩
  submitted := fun _ => rfl
  flag := nofun
  clean := fun _ => .none parts []
  alone := nofun
  retried := nofun
  serial := .none
  point := nofun

/-- No part that is taken widens a window of INT64_MAX: the window is smaller, or no part is taken,
as there is none or the first one fails. -/
def WidensTo (parts : Parts T) : Prop :=
  parts.window < 2 ^ 63 - 1 ∨ parts.numParts = 0 ∨ (parts.result 0).isOk = false

theorem deliver_ok {s : PartScheduler T} {value : T} {pressure : Bool}
    (wider : int64 (s.window + 1) = .ok (s.window + 1)) :
    s.deliver parts pressure (.ok value) =
      { s with
        nextResult := s.nextResult + 1
        window := if pressure then max 1 (s.window / 2) else min (maxWindow parts) (s.window + 1)
        pc := .submitting (some value) } := by
  simp only [deliver, wider]
  cases pressure <;> rfl

namespace Holds

variable {s : PartScheduler T}

theorem not_done (done : ¬s.done parts = true) :
    s.stopped = false ∧ s.nextResult < parts.numParts := by
  simpa [PartScheduler.done] using done

theorem next (h : Holds parts s .idle) : Holds parts (s.next parts) (s.next parts).pc := by
  unfold PartScheduler.next
  split
  · rename_i done
    have replied := h.serial.next_done done
    have same : s.replies ++ [.next noPartsLeft] ++ [] =
        s.replies ++ [] ++ [.next noPartsLeft] := by simp
    exact { h with serial := same ▸ replied }
  · rename_i done
    exact { h with point := not_done done }

theorem stopCall (h : Holds parts s .idle) : Holds parts s.stopCall (.stopping (.reply .stop)) where
  __ := h
  submitted := nofun
  flag := fun _ => .inl rfl
  serial := by
    have stopped := Serial.Replies.call (s.replies ++ []) _ .stop h.serial rfl
    rwa [append_nil] at stopped
  point := rfl

theorem submitPart {taken : Option T} {pressure : Bool} (h : Holds parts s (.submitting taken))
    (more : s.submitsMore parts pressure = true) : Holds parts s.submitPart (.submitting taken) := by
  simp only [submitsMore, Bool.and_eq_true, Bool.not_eq_true', decide_eq_true_eq] at more
  obtain ⟨⟨⟨running, within⟩, room⟩, -⟩ := more
  have part : s.nextSubmit = s.nextResult + s.inFlight.length := h.submitted running
  refine { h with bound := ?_, flight := ?_, submitted := ?_, clean := ?_, point := ?_ }
  · have := h.window.2
    simp only [Pc.taken, Pc.tracked, PartScheduler.submitPart, length_append,
      length_singleton]
    omega
  · have flight := Flight.submit h.flight
    simpa [PartScheduler.submitPart, part, Pc.tracked, Pc.taken, Pc.low] using flight
  · intro _
    simp only [Pc.taken, Pc.tracked, PartScheduler.submitPart, length_append,
      length_singleton]
    omega
  · intro lowered
    exact (h.clean lowered).submit s.nextSubmit
  · cases taken with
    | none => exact h.point
    | some value => exact h.point

theorem returnValue {value : T} (h : Holds parts s (.submitting (some value))) :
    Holds parts (s.returns (.next (.ok value))) .idle := by
  have running : s.stopped = false := h.point
  refine { h with serial := ?_, point := ?_ }
  · have serial := h.serial
    rwa [← append_nil (s.replies ++ _)] at serial
  · intro stopped
    rw [PartScheduler.returns, running] at stopped
    contradiction

theorem popFront {rest : List Nat} (h : Holds parts s (.submitting none))
    (front : s.inFlight = future :: rest) :
    Holds parts { s with inFlight := rest, pc := .waiting future } (.waiting future) := by
  obtain ⟨window, bound, flight, submitted, flag, clean, alone, retried, serial, point⟩ := h
  simp only [Pc.tracked, front] at bound flight submitted clean
  exact ⟨window, bound, flight, submitted, flag, clean, alone, retried, serial, point⟩

theorem completed_eq (completed : s.completed future = true) :
    ∃ part, s.tasks[future]? = some ⟨part, .completed⟩ := by
  unfold PartScheduler.completed at completed
  split at completed
  · rename_i part submitted
    exact ⟨part, submitted⟩
  · contradiction

theorem waited (h : Holds parts s (.waiting future)) (completed : s.completed future = true) :
    Holds parts { s with pc := .taking } .taking := by
  obtain ⟨part, ended⟩ := completed_eq completed
  obtain ⟨flight, held⟩ := Flight.pop h.flight ended
  refine { h with bound := ?_, flight := flight, submitted := ?_, clean := ?_, point := ?_ }
  · have bound := h.bound
    simp only [Pc.taken, Pc.tracked, length_cons] at bound ⊢
    omega
  · intro running
    have submitted := h.submitted running
    simp only [Pc.taken, Pc.tracked, length_cons] at submitted ⊢
    omega
  · intro lowered
    exact (h.clean lowered).subset (subset_cons_self _ _)
  · exact ⟨h.point, held⟩

theorem takeSlot_eq {part : Nat} {result : Result T} (held : s.slots part = some result) :
    s.takeSlot part = (result, Function.update s.slots part none) := by
  simp [takeSlot, held]

/-- While the scheduler runs, only a `Drop` sees the stop flag raised. -/
theorem lowered (h : Holds parts s pc) (running : s.stopped = false) (quiet : pc.pausing = false) :
    s.stop = false := by
  by_contra raised
  obtain stopped | pausing := h.flag (by simpa using raised)
  · rw [running] at stopped
    contradiction
  · rw [quiet] at pausing
    contradiction

theorem take (h : Holds parts s .taking) : Holds parts s.take s.take.pc := by
  obtain ⟨⟨running, within⟩, held⟩ := h.point
  obtain ⟨result, held⟩ := Option.isSome_iff_exists.mp held
  have clean := h.clean (h.lowered running rfl)
  have flight := Flight.takeSlot h.flight
  simp only [PartScheduler.take, takeSlot_eq held]
  by_cases outOfMemory : result.isOutOfMemory = true
  · simp only [if_pos outOfMemory]
    exact { h with
      flight := flight
      clean := fun _ => clean.takeSlot s.nextResult
      point := ⟨running, within⟩ }
  · simp only [if_neg outOfMemory]
    have unrun : s.alone s.nextResult = none := by
      by_contra ranAlone
      obtain ⟨again, ranAlone⟩ := Option.ne_none_iff_exists'.mp ranAlone
      exact Nat.lt_irrefl _ (h.alone _ _ ranAlone).1
    have fixed : result = parts.result s.nextResult :=
      (clean.slots _ _ held).resolve_right outOfMemory
    have same : s.outcome parts s.nextResult = result := by simp [outcome, unrun, fixed]
    exact { h with
      flight := flight
      clean := fun _ => clean.takeSlot s.nextResult
      alone := fun part result ranAlone =>
        (h.alone part result ranAlone).imp_left Nat.lt_succ_of_lt
      retried := by
        intro part below isOutOfMemory
        obtain earlier | rfl := Nat.lt_succ_iff_lt_or_eq.mp below
        · exact h.retried part earlier isOutOfMemory
        · exact absurd (same ▸ isOutOfMemory) outOfMemory
      point := ⟨⟨running, within⟩, same.symm⟩ }

theorem raiseStop {reason : Reason T} (h : Holds parts s (.stopping reason)) :
    Holds parts { s with stop := true, pc := .dropping reason } (.dropping reason) := by
  cases reason with
  | retry => exact { h with flag := fun _ => .inr rfl, clean := nofun }
  | reply reply => exact { h with flag := fun _ => .inl h.point, clean := nofun }

theorem resume {reason : Reason T} (h : Holds parts s (.dropping reason))
    (completed : s.inFlight.all s.completed = true) :
    Holds parts (s.dropped.resume reason) (s.dropped.resume reason).pc := by
  have completed : ∀ future ∈ s.inFlight, ∃ part, s.tasks[future]? = some ⟨part, .completed⟩ :=
    fun future member => completed_eq (all_eq_true.mp completed future member)
  cases reason with
  | retry =>
    exact { h with
      window := ⟨le_refl _, one_le_maxWindow parts⟩
      bound := one_le_maxWindow parts
      flight := Flight.drop h.flight completed _ _
      submitted := fun _ => rfl
      flag := nofun
      clean := fun _ => .none parts s.tasks
      point := ⟨h.point, rfl⟩ }
  | reply reply =>
    exact { h with
      bound := Int.le_trans (Int.zero_le_ofNat 1) (one_le_maxWindow parts)
      flight := Flight.drop h.flight completed _ _
      submitted := fun running => absurd (running.symm.trans h.point) Bool.false_ne_true
      clean := fun _ => .none parts s.tasks
      flag := fun _ => .inl h.point
      serial := by
        have serial := h.serial
        rwa [← append_nil (s.replies ++ _)] at serial
      point := fun _ => rfl }

theorem runAlone (h : Holds parts s .retrying) (allowed : Allows parts s.stop s.nextResult result) :
    Holds parts
      { s with
        alone := Function.update s.alone s.nextResult (some (run s.nextResult result))
        pc := .delivering (run s.nextResult result) }
      (.delivering (run s.nextResult result)) := by
  obtain ⟨⟨running, within⟩, empty⟩ := h.point
  have honest : Honest parts s.nextResult (run s.nextResult result) := by
    rw [Allows, h.lowered running rfl] at allowed
    exact allowed.resolve_left Bool.false_ne_true
  refine { h with alone := ?_, retried := ?_, serial := ?_, point := ?_ }
  · intro part other ranAlone
    by_cases same : part = s.nextResult
    · subst same
      simp only [Function.update_self, Option.some.injEq] at ranAlone
      exact ⟨Nat.lt_succ_self _, ranAlone ▸ honest⟩
    · simp only [Function.update_of_ne same] at ranAlone
      exact (h.alone part other ranAlone).imp_left Nat.lt_succ_of_lt
  · intro part below isOutOfMemory
    obtain earlier | rfl := Nat.lt_succ_iff_lt_or_eq.mp below
    · simp only [outcome, Function.update_of_ne (Nat.ne_of_lt earlier)] at isOutOfMemory ⊢
      exact h.retried part earlier isOutOfMemory
    · simp [outcome]
  · apply h.serial.congr
    intro part below
    simp only [outcome, Function.update_of_ne (Nat.ne_of_lt below)]
  · exact ⟨⟨running, within⟩, by simp [outcome]⟩

theorem outcome_honest (h : Holds parts s pc) (part : Nat) :
    Honest parts part (s.outcome parts part) := by
  cases ranAlone : s.alone part with
  | none => exact .inl (by rw [outcome, ranAlone]; rfl)
  | some result =>
    rw [outcome, ranAlone]
    exact (h.alone part result ranAlone).2

/-- A part is taken without an overflow. -/
theorem widens (widest : WidensTo parts) {value : T} (h : Holds parts s (.delivering (.ok value))) :
    int64 (s.window + 1) = .ok (s.window + 1) := by
  obtain ⟨⟨running, within⟩, same⟩ := h.point
  rcases widest with small | none_ | fails
  · have least := h.window.1
    have most := h.window.2
    unfold maxWindow at most
    refine int64_ok ⟨by omega, ?_⟩
    split at most <;> omega
  · omega
  · have error : (s.outcome parts 0).isOk = false := by
      rcases h.outcome_honest 0 with fixed | outOfMemory
      · rw [fixed, fails]
      · cases isOutcome : s.outcome parts 0 with
        | ok value => simp [isOutcome, Result.isOutOfMemory] at outOfMemory
        | error status => rfl
    have first : s.nextResult = 0 := by
      by_contra later
      cases running.symm.trans (h.serial.stopped_of_error error (Nat.pos_of_ne_zero later))
    rw [first] at same
    rw [← same] at error
    cases error

theorem deliver (widest : WidensTo parts) {result : Result T} (pressure : Bool)
    (h : Holds parts s (.delivering result)) :
    Holds parts (s.deliver parts pressure result) (s.deliver parts pressure result).pc := by
  obtain ⟨⟨running, within⟩, same⟩ := h.point
  have before := h.serial
  rw [running] at before
  have serial := before.next_part within
  rw [← same] at serial
  have bound := h.bound
  simp only [Pc.taken, Pc.tracked] at bound
  cases result with
  | error status =>
    exact { h with
      bound := by
        simp only [PartScheduler.deliver, Pc.taken, Pc.tracked]
        omega
      submitted := nofun
      flag := fun _ => .inl rfl
      serial := append_nil s.replies ▸ serial
      point := rfl }
  | ok value =>
    rw [deliver_ok (h.widens widest)]
    exact { h with
      window := by
        have := h.window
        dsimp only
        split <;> omega
      bound := by
        simp only [Pc.taken, Pc.tracked]
        omega
      serial := by
        rw [running]
        exact append_nil s.replies ▸ serial
      point := running }

theorem move (h : Holds parts s pc) {task : PartTask T} {phase : Phase T}
    (submitted : s.tasks[future]? = some task)
    (moves : Phase.Moves parts s.stop task.part task.phase phase) :
    Holds parts (s.move future task phase) pc where
  __ := h
  flight := h.flight.move (Nat.add_le_add_left pc.low_le_taken _) submitted moves
  clean := by
    intro lowered
    have lowered : s.stop = false := lowered
    rw [lowered] at moves
    exact (h.clean lowered).move submitted (h.flight.moves_mem submitted moves) moves
  point := by
    cases pc with
    | taking => exact ⟨h.point.1, Flight.isSome_slotsAfter h.point.2⟩
    | submitting taken => cases taken <;> exact h.point
    | stopping reason => cases reason <;> exact h.point
    | dropping reason => cases reason <;> exact h.point
    | _ => exact h.point

theorem advance (widest : WidensTo parts) {t : PartScheduler T} {pressure : Bool}
    (h : Holds parts s s.pc)
    (allowed : s.pc = .retrying → Allows parts s.stop s.nextResult result)
    (advanced : s.advance parts pressure result = some t) : Holds parts t t.pc := by
  unfold PartScheduler.advance at advanced
  cases pc : s.pc with
  | idle => simp [pc] at advanced
  | submitting taken =>
    rw [pc] at h
    simp only [pc] at advanced
    split at advanced
    · rename_i more
      cases advanced
      exact pc.symm ▸ h.submitPart more
    · split at advanced
      · cases advanced
        exact h.returnValue
      · rename_i front
        cases advanced
        exact h.popFront front
      · contradiction
  | waiting future =>
    rw [pc] at h
    simp only [pc] at advanced
    split at advanced
    · rename_i completed
      cases advanced
      exact h.waited completed
    · contradiction
  | taking =>
    simp only [pc, Option.some.injEq] at advanced
    exact advanced ▸ take (pc ▸ h)
  | stopping reason =>
    simp only [pc, Option.some.injEq] at advanced
    exact advanced ▸ raiseStop (pc ▸ h)
  | dropping reason =>
    rw [pc] at h
    simp only [pc] at advanced
    split at advanced
    · rename_i completed
      cases advanced
      exact h.resume completed
    · contradiction
  | retrying =>
    simp only [pc, Option.some.injEq] at advanced
    exact advanced ▸ runAlone (pc ▸ h) (allowed pc)
  | delivering result =>
    simp only [pc, Option.some.injEq] at advanced
    exact advanced ▸ deliver widest pressure (pc ▸ h)
  | overflowed => simp [pc] at advanced

theorem step (widest : WidensTo parts) (s t : PartScheduler T) (step : Step parts s t)
    (h : Holds parts s s.pc) : Holds parts t t.pc := by
  cases step with
  | next idle => exact next (idle ▸ h)
  | stop idle => exact stopCall (idle ▸ h)
  | works _ works =>
    cases works with
    | scheduler _ _ _ allowed advanced => exact h.advance widest allowed advanced
    | task _ _ _ submitted moves => exact h.move submitted moves

end Holds

theorem reachable_holds (widest : WidensTo parts) {s : PartScheduler T}
    (reachable : Reachable parts s) : Holds parts s s.pc :=
  Lib.run_keeps (Holds.step widest) reachable (make_holds parts)

namespace Phase

def left : Phase T → Nat
  | .queued => 5
  | .running false => 4
  | .running true => 3
  | .ran _ => 2
  | .stored => 1
  | .completed => 0

theorem Moves.left_lt {stop : Bool} {part : Nat} {phase phase' : Phase T}
    (moves : Moves parts stop part phase phase') : phase'.left < phase.left := by
  cases moves with
  | finish sawStop outcome allowed => cases sawStop <;> simp [left]
  | _ => simp [left]

theorem moves_of_ne_completed (parts : Parts T) (stop : Bool) (part : Nat) {phase : Phase T}
    (unfinished : phase ≠ .completed) : ∃ phase', Moves parts stop part phase phase' := by
  cases phase with
  | queued => exact ⟨_, .start⟩
  | running sawStop => exact ⟨_, .finish sawStop (.returns (parts.result part)) (.inr (.inl rfl))⟩
  | ran result => exact ⟨_, .store result⟩
  | stored => exact ⟨_, .complete⟩
  | completed => contradiction

end Phase

def Pc.left : Pc T → Nat
  | .submitting none => 10
  | .waiting _ => 9
  | .taking => 8
  | .stopping .retry => 7
  | .dropping .retry => 6
  | .retrying => 5
  | .delivering _ => 4
  | .submitting (some _) => 3
  | .stopping (.reply _) => 2
  | .dropping (.reply _) => 1
  | .idle | .overflowed => 0

/-- Within a call first the scheduler's thread goes on, then parts are submitted, then tasks
run. -/
def left (parts : Parts T) (s : PartScheduler T) : Nat ×ₗ Nat ×ₗ Nat :=
  toLex (s.pc.left, toLex (parts.numParts - s.nextSubmit,
    (s.tasks.map fun task => task.phase.left).sum))

theorem advance_left {s t : PartScheduler T} {pressure : Bool}
    (advanced : s.advance parts pressure result = some t) :
    t.pc.left < s.pc.left ∨ t.pc.left = s.pc.left ∧
      parts.numParts - t.nextSubmit < parts.numParts - s.nextSubmit := by
  unfold PartScheduler.advance at advanced
  cases pc : s.pc with
  | idle => simp [pc] at advanced
  | submitting taken =>
    simp only [pc] at advanced
    split at advanced
    · rename_i more
      cases advanced
      refine .inr ⟨by simp [submitPart, pc], ?_⟩
      simp only [submitsMore, Bool.and_eq_true, decide_eq_true_eq] at more
      simp only [submitPart]
      omega
    · split at advanced
      · cases advanced
        exact .inl (by simp [returns, Pc.left])
      · cases advanced
        exact .inl (by simp [Pc.left])
      · contradiction
  | waiting future =>
    simp only [pc, Option.ite_none_right_eq_some, Option.some.injEq] at advanced
    obtain ⟨-, rfl⟩ := advanced
    exact .inl (by simp [Pc.left])
  | taking =>
    simp only [pc, Option.some.injEq] at advanced
    rw [← advanced, take]
    simp only
    split <;> exact .inl (by simp [Pc.left])
  | stopping reason =>
    simp only [pc, Option.some.injEq] at advanced
    rw [← advanced]
    cases reason <;> exact .inl (by simp [Pc.left])
  | dropping reason =>
    simp only [pc, Option.ite_none_right_eq_some, Option.some.injEq] at advanced
    obtain ⟨-, rfl⟩ := advanced
    cases reason <;> exact .inl (by simp [resume, returns, Pc.left])
  | retrying =>
    simp only [pc, Option.some.injEq] at advanced
    rw [← advanced]
    exact .inl (by simp [Pc.left])
  | delivering result =>
    simp only [pc, Option.some.injEq] at advanced
    rw [← advanced]
    refine .inl ?_
    cases result with
    | error status => simp [deliver, Pc.left]
    | ok value =>
      unfold deliver
      dsimp only
      split
      · simp [Pc.left]
      · split <;> simp [Pc.left]
  | overflowed => simp [pc] at advanced

theorem works_left {s t : PartScheduler T} (works : Works parts s t) :
    t.left parts < s.left parts := by
  simp only [left, Prod.Lex.toLex_lt_toLex]
  cases works with
  | scheduler _ _ _ _ advanced =>
    exact (advance_left advanced).imp id fun ⟨same, fewer⟩ => ⟨same, .inl fewer⟩
  | task future task phase submitted moves =>
    exact .inr ⟨rfl, .inr ⟨rfl, Lib.sum_map_set_lt _ s.tasks submitted moves.left_lt⟩⟩

theorem works_wellFounded (parts : Parts T) : WellFounded fun t s => Works parts s t :=
  Subrelation.wf works_left (InvImage.wf (left parts) wellFounded_lt)

namespace Holds

variable {s : PartScheduler T}

theorem task_works (h : Holds parts s pc) (member : future ∈ pc.tracked s.inFlight)
    (unfinished : s.completed future = false) :
    ∃ t, Works parts s t := by
  obtain ⟨task, submitted, -⟩ := h.flight.part_of_mem member
  have running : task.phase ≠ .completed := by
    intro ended
    obtain ⟨part, phase⟩ := task
    have ended : phase = .completed := ended
    simp [PartScheduler.completed, submitted, ended] at unfinished
  obtain ⟨phase, moves⟩ := Phase.moves_of_ne_completed parts s.stop task.part running
  exact ⟨_, .task s future task phase submitted moves⟩

theorem progress (h : Holds parts s s.pc) : s.pc = .idle ∨ ∃ t, Works parts s t := by
  by_cases waits : s.advance parts false (.returns (parts.result s.nextResult)) = none
  · unfold PartScheduler.advance at waits
    cases pc : s.pc with
    | idle => exact .inl rfl
    | submitting taken =>
      rw [pc] at h
      simp only [pc] at waits
      split at waits
      · contradiction
      · rename_i full
        split at waits
        · contradiction
        · contradiction
        · -- an empty deque always has room for the next part
          rename_i empty
          obtain ⟨running, within⟩ := h.point
          have first := h.submitted running
          have room := h.window.1
          simp only [Pc.taken, Pc.tracked, empty, length_nil] at first
          simp only [submitsMore, running, empty] at full
          exact absurd (by simp; omega) full
    | waiting future =>
      rw [pc] at h
      simp only [pc, ite_eq_right_iff, reduceCtorEq, imp_false, Bool.not_eq_true] at waits
      exact .inr (h.task_works mem_cons_self waits)
    | dropping reason =>
      rw [pc] at h
      simp only [pc, ite_eq_right_iff, reduceCtorEq, imp_false, Bool.not_eq_true,
        all_eq_false] at waits
      obtain ⟨future, member, unfinished⟩ := waits
      exact .inr (h.task_works member (by simpa using unfinished))
    | overflowed =>
      rw [pc] at h
      exact h.point.elim
    | _ => simp [pc] at waits
  · obtain ⟨t, advanced⟩ := Option.ne_none_iff_exists'.mp waits
    exact .inr ⟨t, .scheduler s t false _ (fun _ => .inr (.inl rfl)) advanced⟩

theorem replied (h : Holds parts s pc) :
    ∃ before, Serial.Replies parts (s.outcome parts) s.replies before ∧
      before.nextResult ≤ s.nextResult := by
  have serial := h.serial
  obtain none | ⟨reply, one⟩ := pc.pending_cases
  · rw [none, append_nil] at serial
    exact ⟨_, serial, le_refl _⟩
  · rw [one] at serial
    exact serial.init

theorem inHand_add (s : PartScheduler T) :
    s.inHand + s.inFlight.length = s.pc.taken + (s.pc.tracked s.inFlight).length := by
  cases pc : s.pc with
  | waiting future => simp [inHand, pc, Pc.taken, Pc.tracked, Nat.add_comm]
  | stopping reason | dropping reason => cases reason <;> simp [inHand, pc, Pc.taken, Pc.tracked]
  | _ => simp [inHand, pc, Pc.taken, Pc.tracked]

theorem mem_tracked {inFlight : List Nat} (member : future ∈ pc.tracked inFlight) :
    future ∈ inFlight ∨ pc = .waiting future := by
  cases pc with
  | waiting front =>
    obtain rfl | member := mem_cons.mp member
    · exact .inr rfl
    · exact .inl member
  | _ => exact .inl member

theorem consecutive (h : Holds parts s s.pc) : s.inFlight.map (partOf s.tasks) =
    (List.range' (s.nextResult + s.inHand) s.inFlight.length).map some := by
  have inOrder := h.flight.inOrder
  cases pc : s.pc with
  | waiting future =>
    rw [pc] at inOrder
    simp only [Pc.tracked, Pc.taken, map_cons, length_cons, range'_succ,
      List.cons.injEq] at inOrder
    simpa [inHand, pc] using inOrder.2
  | stopping reason | dropping reason =>
    cases reason <;> simpa [inHand, pc, Pc.taken, Pc.tracked] using inOrder
  | _ => simpa [inHand, pc, Pc.taken, Pc.tracked] using inOrder

theorem untaken (h : Holds parts s s.pc) {part : Nat} (untaken : s.Untaken part) :
    s.nextResult ≤ part ∧ part < s.nextResult + (s.inHand + s.inFlight.length) := by
  rw [inHand_add]
  obtain ⟨task, member, rfl, running⟩ | held := untaken
  · obtain ⟨future, submitted⟩ := mem_iff_getElem?.mp member
    have inFlight : future ∈ s.pc.tracked s.inFlight := by
      by_contra untracked
      exact running (h.flight.others future task submitted untracked)
    obtain ⟨task', submitted', above, below⟩ := h.flight.part_of_mem inFlight
    rw [submitted, Option.some.injEq] at submitted'
    subst submitted'
    omega
  · obtain ⟨above, below⟩ := h.flight.slots part held
    omega

theorem stopped (h : Holds parts s s.pc) (idle : s.pc = .idle) (stopped : s.stopped = true) :
    (∀ task ∈ s.tasks, task.phase = .completed) ∧ s.inFlight = [] ∧
      ∀ part, s.slots part = none := by
  have empty : s.inFlight = [] := by
    have point := h.point
    rw [idle] at point
    exact point stopped
  have none : s.pc.tracked s.inFlight = [] := by
    rw [idle, empty]
    rfl
  refine ⟨?_, empty, ?_⟩
  · intro task member
    obtain ⟨future, submitted⟩ := mem_iff_getElem?.mp member
    exact h.flight.others future task submitted (by simp [none])
  · intro part
    by_contra held
    obtain ⟨above, below⟩ := h.flight.slots part (Option.isSome_iff_ne_none.mpr held)
    rw [none, length_nil] at below
    simp only [idle, Pc.low, Pc.taken] at above below
    omega

end Holds

theorem maxWindow_eq (parts : Parts T) : maxWindow parts = max 1 parts.window := by
  unfold maxWindow
  split <;> omega

theorem Holds.runsSerially (widest : WidensTo parts) {s : PartScheduler T}
    (h : Holds parts s s.pc) : RunsSerially parts s := by
  constructor
  case defined =>
    intro overflowed
    have point := h.point
    rw [overflowed] at point
    exact point
  case serial =>
    intro idle
    have serial := h.serial
    rw [idle] at serial
    exact append_nil s.replies ▸ serial
  case inOrder =>
    intro i result returned ok
    obtain ⟨before, replied, passed⟩ := h.replied
    obtain ⟨⟨below, within⟩, rfl⟩ | left := replied.in_order i result returned ok
    · have below : i < s.nextResult + s.pc.ran :=
        (below.trans_le passed).trans_le (Nat.le_add_right _ _)
      exact .inl ⟨within, h.outcome_honest i, h.retried i below⟩
    · exact .inr left
  case window =>
    rw [Holds.inHand_add, ← maxWindow_eq]
    exact h.bound
  case untaken => exact fun part untaken => h.untaken untaken
  case tracked =>
    intro future task submitted running
    apply Holds.mem_tracked
    by_contra untracked
    exact running (h.flight.others future task submitted untracked)
  case consecutive => exact h.consecutive
  case stopped => exact h.stopped
  case stopReply => exact fun member => h.serial.stopped (mem_append_left _ member)
  case ends => exact (works_wellFounded parts).apply s
  case returns =>
    refine Lib.comes_to_rest (works_wellFounded parts) ?_ (fun _ => Holds.progress) s h
    exact fun s t works => Holds.step widest s t (.works s t works)

section Runs

variable {s t : PartScheduler T}

theorem Reachable.advance (pressure : Bool)
    (advanced : s.advance parts pressure (.returns (parts.result s.nextResult)) = some t)
    (run : Reachable parts s) : Reachable parts t :=
  run.tail (.works _ _ (.scheduler _ _ pressure _ (fun _ => .inr (.inl rfl)) advanced))

theorem Reachable.move (future : Nat) {task : PartTask T} {phase : Phase T}
    (submitted : s.tasks[future]? = some task)
    (moves : Phase.Moves parts s.stop task.part task.phase phase) (run : Reachable parts s) :
    Reachable parts (s.move future task phase) :=
  run.tail (.works _ _ (.task _ _ _ _ submitted moves))

theorem deliver_overflows {value : T} (overflows : int64 (s.window + 1) = .error .int64) :
    (s.deliver parts false (.ok value)).pc = .overflowed := by
  simp [deliver, overflows]

/-- The first part taken without pressure overflows a window of INT64_MAX. -/
theorem reachable_overflowed {value : T} (widest : parts.window = 2 ^ 63 - 1)
    (some_ : 0 < parts.numParts) (first : parts.result 0 = .ok value) :
    ∃ s, Reachable parts s ∧ s.pc = .overflowed := by
  let calling : PartScheduler T := { make parts with pc := .submitting none }
  have isCall : (make parts).next parts = calling := if_neg (by simp [done, make]; omega)
  have called : Reachable parts calling := isCall ▸ .tail .refl (.next _ rfl)
  have submits : calling.advance parts true (.returns (parts.result 0)) = some calling.submitPart :=
    if_pos (by simp [submitsMore, calling, make, maxWindow, widest]; omega)
  have submitted := called.advance true submits
  have waits : calling.submitPart.advance parts true (.returns (parts.result 0)) =
      some { calling.submitPart with inFlight := [], pc := .waiting 0 } :=
    if_neg (by simp [submitsMore, PartScheduler.submitPart])
  have waiting := submitted.advance true waits
  have running := waiting.move 0 rfl .start
  have ran := running.move 0 rfl (.finish false (.returns (.ok value)) (.inr (.inl first.symm)))
  have stored := ran.move 0 rfl (.store _)
  have completed := stored.move 0 rfl .complete
  have taking := completed.advance true rfl
  have delivering := taking.advance true rfl
  have overflows : int64 (maxWindow parts + 1) = .error .int64 := by
    simp [maxWindow, widest, int64, InInt64]
  exact ⟨_, delivering.advance false rfl, deliver_overflows overflows⟩

end Runs

/-- The scheduler gives what the parts give one after another, in every run, however the tasks
interleave with the calls and whatever the budget answers, just when no part that is taken widens a
window of INT64_MAX. -/
theorem partScheduler_runsSerially (parts : Parts T) (isWindow : InInt64 parts.window) :
    (∀ s, Reachable parts s → RunsSerially parts s) ↔ WidensTo parts := by
  refine ⟨fun all => ?_, fun widest s reachable => (reachable_holds widest reachable).runsSerially widest⟩
  by_contra widens
  obtain ⟨large, some_, passes⟩ : ¬ parts.window < 2 ^ 63 - 1 ∧ ¬ parts.numParts = 0 ∧
      ¬ (parts.result 0).isOk = false := by
    simpa only [WidensTo, not_or] using widens
  cases first : parts.result 0 with
  | error status => simp [first, Except.isOk, Except.toBool] at passes
  | ok value =>
    have most := isWindow.2
    obtain ⟨s, reachable, overflowed⟩ := reachable_overflowed (by omega) (by omega) first
    exact (all s reachable).defined overflowed

def twoParts : Parts Nat := ⟨2, 2, fun part => .ok (part + 7)⟩

def bothSubmitted : PartScheduler Nat :=
  { window := 2, nextSubmit := 2, inFlight := [1], tasks := [⟨0, .queued⟩, ⟨1, .queued⟩],
    pc := .waiting 0 }

def bothRan : PartScheduler Nat :=
  { bothSubmitted with
    tasks := [⟨0, .completed⟩, ⟨1, .completed⟩]
    slots := Function.update (Function.update (fun _ => none) 1 (some (.ok 8))) 0
      (some (run 0 .badAlloc)) }

/-- The second part is dropped and submitted again, the first one returned. -/
def firstReturned : PartScheduler Nat :=
  { window := 2, nextSubmit := 2, nextResult := 1, inFlight := [2]
    tasks := [⟨0, .completed⟩, ⟨1, .completed⟩, ⟨1, .queued⟩]
    replies := [.next (.ok 7)]
    alone := Function.update (fun _ => none) 0 (some (.ok 7)) }

theorem reachable_bothRan : Reachable twoParts bothRan := by
  have called : Reachable twoParts ((make twoParts).next twoParts) := .tail .refl (.next _ rfl)
  have first := called.advance false rfl
  have second := first.advance false rfl
  have waiting : Reachable twoParts bothSubmitted := second.advance false rfl
  have running := waiting.move 1 rfl .start
  have ran := running.move 1 rfl (.finish false (.returns (.ok 8)) (.inr (.inl rfl)))
  have stored := ran.move 1 rfl (.store _)
  have completed := stored.move 1 rfl .complete
  have running := completed.move 0 rfl .start
  have ran := running.move 0 rfl (.finish false .badAlloc (.inr (.inr rfl)))
  have stored := ran.move 0 rfl (.store _)
  exact stored.move 0 rfl .complete

theorem reachable_firstReturned : Reachable twoParts firstReturned := by
  have taking := reachable_bothRan.advance false rfl
  have stopping := taking.advance false rfl
  have dropping := stopping.advance false rfl
  have retrying := dropping.advance false rfl
  have delivering := retrying.advance false rfl
  have delivered := delivering.advance false rfl
  have again := delivered.advance false rfl
  exact again.advance false rfl

/-- Two parts: the second ends first and is dropped, as the first runs out of memory on the executor
and is run again alone; the second runs again. -/
theorem partScheduler_runsSerially_retried :
    ∃ s : PartScheduler Nat, Reachable twoParts s ∧ s.pc = .idle ∧
      results s.replies = [.ok 7, .ok 8] ∧ s.alone 0 = some (.ok 7) ∧
      s.tasks.map PartTask.part = [0, 1, 1] ∧ RunsSerially twoParts s := by
  have called : Reachable twoParts (firstReturned.next twoParts) :=
    reachable_firstReturned.tail (.next _ rfl)
  have waiting := called.advance false rfl
  have running := waiting.move 2 rfl .start
  have ran := running.move 2 rfl (.finish false (.returns (.ok 8)) (.inr (.inl rfl)))
  have stored := ran.move 2 rfl (.store _)
  have completed := stored.move 2 rfl .complete
  have taking := completed.advance false rfl
  have delivering := taking.advance false rfl
  have delivered := delivering.advance false rfl
  have returned := delivered.advance false rfl
  exact ⟨_, returned, rfl, rfl, rfl, rfl,
    (partScheduler_runsSerially twoParts (by decide)).mpr (.inl (by decide)) _ returned⟩

/-- One part and a window of INT64_MAX. -/
theorem window_overflows :
    let parts : Parts Nat := ⟨1, 2 ^ 63 - 1, fun _ => .ok 7⟩
    InInt64 parts.window ∧ ∃ s, Reachable parts s ∧ s.pc = .overflowed ∧ ¬ RunsSerially parts s := by
  intro parts
  obtain ⟨s, reachable, overflowed⟩ := @reachable_overflowed _ parts _ rfl Nat.zero_lt_one rfl
  exact ⟨by decide, s, reachable, overflowed, fun serial => serial.defined overflowed⟩

end PartScheduler

end Antb1.Exec
