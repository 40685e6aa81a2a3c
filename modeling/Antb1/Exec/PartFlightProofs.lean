import Antb1.Exec.PartScheduler

/-! The parts a scheduler has in flight, their tasks and their slots, through the steps of
both. -/
namespace Antb1.Exec

namespace PartScheduler

open Common List

variable {T : Type}

def Phase.finished : Phase T → Bool
  | .stored | .completed => true
  | _ => false

/-- The futures are those of consecutive parts, no other task runs, and the slots hold only
their parts' results, and parts from `low` on. -/
structure Flight (tasks : List (PartTask T)) (slots : Nat → Option (Result T)) (low first : Nat)
    (futures : List Nat) : Prop where
  inOrder : futures.map (partOf tasks) = (List.range' first futures.length).map some
  others : ∀ future task, tasks[future]? = some task → future ∉ futures →
    task.phase = .completed
  filled : ∀ future task, tasks[future]? = some task → future ∈ futures →
    task.phase.finished = true → (slots task.part).isSome
  slots : ∀ part, (slots part).isSome → low ≤ part ∧ part < first + futures.length

def Phase.Clean (parts : Parts T) (part : Nat) : Phase T → Prop
  | .running sawStop => sawStop = false
  | .ran result => Honest parts part result
  | _ => True

/-- No stop flag changed what the futures' tasks and the slots hold. -/
structure Clean (parts : Parts T) (tasks : List (PartTask T)) (slots : Nat → Option (Result T))
    (futures : List Nat) : Prop where
  tasks : ∀ future task, tasks[future]? = some task → future ∈ futures →
    task.phase.Clean parts task.part
  slots : ∀ part result, slots part = some result → Honest parts part result

namespace Flight

variable {tasks : List (PartTask T)} {slots : Nat → Option (Result T)} {low first : Nat}
  {futures : List Nat}

theorem part_of_mem (flight : Flight tasks slots low first futures) {future : Nat}
    (member : future ∈ futures) :
    ∃ task, tasks[future]? = some task ∧ first ≤ task.part ∧
      task.part < first + futures.length := by
  have listed : partOf tasks future ∈ (List.range' first futures.length).map some := by
    rw [← flight.inOrder]
    exact mem_map_of_mem member
  obtain ⟨part, inRange, same⟩ := mem_map.mp listed
  obtain ⟨task, submitted, isPart⟩ := Option.map_eq_some_iff.mp same.symm
  obtain ⟨low, high⟩ := mem_range'_1.mp inRange
  exact ⟨task, submitted, isPart ▸ low, isPart ▸ high⟩

theorem submitted_snoc {new task : PartTask T} {future : Nat}
    (submitted : (tasks ++ [new])[future]? = some task) :
    tasks[future]? = some task ∧ future < tasks.length ∨ future = tasks.length ∧ new = task := by
  rw [getElem?_append] at submitted
  split at submitted
  · exact .inl ⟨submitted, ‹_›⟩
  · obtain ⟨inside, isNew⟩ := List.getElem?_eq_some_iff.mp submitted
    rw [length_singleton] at inside
    exact .inr ⟨by omega, (getElem_singleton _).symm.trans isNew⟩

theorem submitted_set {old new task : PartTask T} {future other : Nat}
    (submitted : tasks[future]? = some old)
    (submitted' : (tasks.set future new)[other]? = some task) :
    other = future ∧ new = task ∨ tasks[other]? = some task := by
  by_cases same : future = other
  · subst same
    rw [List.getElem?_set_self (List.getElem?_eq_some_iff.mp submitted).1] at submitted'
    exact .inl ⟨rfl, Option.some.inj submitted'⟩
  · exact .inr ((getElem?_set_ne same).symm.trans submitted')

theorem submit (flight : Flight tasks slots low first futures) :
    Flight (tasks ++ [⟨first + futures.length, .queued⟩]) slots low first
      (futures ++ [tasks.length]) where
  inOrder := by
    have old : futures.map (partOf (tasks ++ [⟨first + futures.length, .queued⟩])) =
        futures.map (partOf tasks) := by
      apply map_congr_left
      intro future member
      obtain ⟨task, submitted, -⟩ := flight.part_of_mem member
      have bound := (List.getElem?_eq_some_iff.mp submitted).1
      rw [partOf, partOf, getElem?_append_left bound]
    rw [map_append, old, flight.inOrder, length_append, length_singleton,
      range'_concat, map_append]
    simp [partOf]
  others := by
    intro future task submitted untracked
    rw [mem_append, not_or, mem_singleton] at untracked
    obtain ⟨submitted, -⟩ | ⟨same, -⟩ := submitted_snoc submitted
    · exact flight.others future task submitted untracked.1
    · exact absurd same untracked.2
  filled := by
    intro future task submitted member finished
    obtain ⟨submitted, inside⟩ | ⟨-, rfl⟩ := submitted_snoc submitted
    · obtain member | last := mem_append.mp member
      · exact flight.filled future task submitted member finished
      · exact absurd (mem_singleton.mp last) (Nat.ne_of_lt inside)
    · contradiction
  slots := by
    intro part held
    obtain ⟨low, high⟩ := flight.slots part held
    rw [length_append]
    exact ⟨low, by omega⟩

/-- The front of the futures, once it is completed, is taken off. -/
theorem pop {future : Nat} (flight : Flight tasks slots low first (future :: futures))
    {part : Nat} (completed : tasks[future]? = some ⟨part, .completed⟩) :
    Flight tasks slots low (first + 1) futures ∧ (slots first).isSome := by
  have parted := flight.inOrder
  rw [map_cons, length_cons, range'_succ, map_cons, List.cons.injEq] at parted
  have isFirst : part = first := by
    simpa [partOf, completed] using parted.1
  refine ⟨⟨parted.2, ?_, ?_, ?_⟩, ?_⟩
  · intro other task submitted untracked
    by_cases same : other = future
    · rw [same, completed, Option.some.injEq] at submitted
      rw [← submitted]
    · exact flight.others other task submitted (by simp [same, untracked])
  · intro other task submitted member
    exact flight.filled other task submitted (mem_cons_of_mem _ member)
  · intro part held
    obtain ⟨low, high⟩ := flight.slots part held
    rw [length_cons] at high
    exact ⟨low, by omega⟩
  · rw [← isFirst]
    exact flight.filled future _ completed mem_cons_self rfl

theorem takeSlot (flight : Flight tasks slots low (low + 1) futures) :
    Flight tasks (Function.update slots low none) (low + 1) (low + 1) futures := by
  refine ⟨flight.inOrder, flight.others, ?_, ?_⟩
  · intro future task submitted member finished
    obtain ⟨task', submitted', above, -⟩ := flight.part_of_mem member
    rw [submitted, Option.some.injEq] at submitted'
    subst submitted'
    have different : task.part ≠ low := Nat.ne_of_gt above
    rw [Function.update_of_ne different]
    exact flight.filled future task submitted member finished
  · intro part held
    by_cases same : part = low
    · simp [same] at held
    · rw [Function.update_of_ne same] at held
      obtain ⟨above, below⟩ := flight.slots part held
      exact ⟨by omega, below⟩

theorem drop (flight : Flight tasks slots low first futures)
    (completed : ∀ future ∈ futures, ∃ part, tasks[future]? = some ⟨part, .completed⟩)
    (low' first' : Nat) : Flight tasks (fun _ => none) low' first' [] where
  inOrder := rfl
  others := by
    intro future task submitted _
    by_cases member : future ∈ futures
    · obtain ⟨part, ended⟩ := completed future member
      rw [submitted, Option.some.injEq] at ended
      rw [ended]
    · exact flight.others future task submitted member
  filled := by simp
  slots := by simp

theorem slotsAfter_ran {task : PartTask T} {result : Result T} (ran : task.phase = .ran result) :
    slotsAfter slots task = Function.update slots task.part (some result) := by
  simp [slotsAfter, ran]

theorem slotsAfter_isSome {task : PartTask T} {part : Nat}
    (held : (slotsAfter slots task part).isSome) :
    (slots part).isSome ∨ part = task.part ∧ ∃ result, task.phase = .ran result := by
  cases ran : task.phase with
  | ran result =>
    by_cases same : part = task.part
    · exact .inr ⟨same, result, rfl⟩
    · rw [slotsAfter_ran ran, Function.update_of_ne same] at held
      exact .inl held
  | _ =>
    rw [slotsAfter, ran] at held
    exact .inl held

theorem isSome_slotsAfter {task : PartTask T} {part : Nat} (held : (slots part).isSome) :
    (slotsAfter slots task part).isSome := by
  cases ran : task.phase with
  | ran result =>
    rw [slotsAfter_ran ran, Function.update_apply]
    split
    · rfl
    · exact held
  | _ => rwa [slotsAfter, ran]

variable {parts : Parts T} {stop : Bool} {future : Nat} {task : PartTask T} {phase : Phase T}

theorem moves_mem (flight : Flight tasks slots low first futures)
    (submitted : tasks[future]? = some task)
    (moves : Phase.Moves parts stop task.part task.phase phase) : future ∈ futures := by
  by_contra untracked
  rw [flight.others future task submitted untracked] at moves
  cases moves

theorem move (flight : Flight tasks slots low first futures) (below : low ≤ first)
    (submitted : tasks[future]? = some task)
    (moves : Phase.Moves parts stop task.part task.phase phase) :
    Flight (tasks.set future ⟨task.part, phase⟩) (slotsAfter slots task) low first futures where
  inOrder := by
    rw [← flight.inOrder]
    apply map_congr_left
    intro other _
    by_cases same : future = other
    · subst same
      have bound := (List.getElem?_eq_some_iff.mp submitted).1
      rw [partOf, partOf, List.getElem?_set_self bound, submitted]
      rfl
    · rw [partOf, partOf, getElem?_set_ne same]
  others := by
    intro other task' submitted' untracked
    have different : future ≠ other := by
      rintro rfl
      exact untracked (flight.moves_mem submitted moves)
    rw [getElem?_set_ne different] at submitted'
    exact flight.others other task' submitted' untracked
  filled := by
    intro other task' submitted' member finished
    obtain ⟨rfl, rfl⟩ | submitted' := submitted_set submitted submitted'
    · -- of the steps only two end in a finished task
      cases before : task.phase with
      | ran result => simp [slotsAfter, before]
      | stored =>
        exact isSome_slotsAfter (flight.filled other task submitted member (by rw [before]; rfl))
      | completed =>
        rw [before] at moves
        cases moves
      | _ =>
        rw [before] at moves
        cases moves <;> contradiction
    · exact isSome_slotsAfter (flight.filled other task' submitted' member finished)
  slots := by
    intro part held
    obtain old | ⟨rfl, -⟩ := slotsAfter_isSome held
    · exact flight.slots part old
    · obtain ⟨task', submitted', lower, upper⟩ :=
        flight.part_of_mem (flight.moves_mem submitted moves)
      rw [submitted, Option.some.injEq] at submitted'
      subst submitted'
      exact ⟨Nat.le_trans below lower, upper⟩

end Flight

namespace Clean

variable {parts : Parts T} {tasks : List (PartTask T)} {slots : Nat → Option (Result T)}
  {futures : List Nat}

theorem subset (clean : Clean parts tasks slots futures) {futures' : List Nat}
    (subset : futures' ⊆ futures) : Clean parts tasks slots futures' :=
  ⟨fun future task submitted member => clean.tasks future task submitted (subset member),
    clean.slots⟩

theorem none (parts : Parts T) (tasks : List (PartTask T)) :
    Clean parts tasks (fun _ => .none) [] := by
  constructor <;> simp

theorem takeSlot (clean : Clean parts tasks slots futures) (part : Nat) :
    Clean parts tasks (Function.update slots part .none) futures where
  tasks := clean.tasks
  slots := by
    intro other result held
    by_cases same : other = part
    · simp [same] at held
    · rw [Function.update_of_ne same] at held
      exact clean.slots other result held

theorem submit (clean : Clean parts tasks slots futures) (part : Nat) :
    Clean parts (tasks ++ [⟨part, .queued⟩]) slots (futures ++ [tasks.length]) where
  tasks := by
    intro future task submitted member
    obtain ⟨submitted, inside⟩ | ⟨-, rfl⟩ := Flight.submitted_snoc submitted
    · obtain member | last := mem_append.mp member
      · exact clean.tasks future task submitted member
      · exact absurd (mem_singleton.mp last) (Nat.ne_of_lt inside)
    · trivial
  slots := clean.slots

variable {future : Nat} {task : PartTask T} {phase : Phase T}

theorem move (clean : Clean parts tasks slots futures)
    (submitted : tasks[future]? = some task) (member : future ∈ futures)
    (moves : Phase.Moves parts false task.part task.phase phase) :
    Clean parts (tasks.set future ⟨task.part, phase⟩) (slotsAfter slots task) futures where
  tasks := by
    intro other task' submitted' member'
    obtain ⟨rfl, rfl⟩ | submitted' := Flight.submitted_set submitted submitted'
    · have before := clean.tasks other task submitted member
      generalize task.phase = old at moves before
      cases moves with
      | start => rfl
      | observe raised => contradiction
      | finish sawStop outcome allowed =>
        have unseen : sawStop = false := before
        exact allowed.resolve_left (by simp [unseen])
      | store result => trivial
      | complete => trivial
    · exact clean.tasks other task' submitted' member'
  slots := by
    intro part result held
    have before := clean.tasks future task submitted member
    cases ran : task.phase with
    | ran stored =>
      rw [Flight.slotsAfter_ran ran, Function.update_apply] at held
      split at held
      · rename_i same
        rw [ran] at before
        rw [same, ← Option.some.inj held]
        exact before
      · exact clean.slots part result held
    | _ =>
      rw [slotsAfter, ran] at held
      exact clean.slots part result held

end Clean

end PartScheduler

end Antb1.Exec
