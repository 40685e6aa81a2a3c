import Mathlib.Data.List.Infix

/-! Patterns of wildcards over any alphabet: what it means that a text splits into pieces that the
pattern's items match in turn, and, for patterns without a wildcard for one element, that this is
finding the literal segments in order. -/
namespace Wildcard

open List

variable {α : Type} {text : List α} {segments : List (List α)}

inductive Item (α : Type) where
  | run
  | one
  | lit (a : α)
  deriving DecidableEq, Repr

def Item.Takes : Item α → List α → Prop
  | .run, _ => True
  | .one, piece => piece.length = 1
  | .lit a, piece => piece = [a]

/-- The text splits into consecutive pieces that the items match in turn. -/
def Matches (items : List (Item α)) (text : List α) : Prop :=
  ∃ pieces, pieces.flatten = text ∧ List.Forall₂ Item.Takes items pieces

variable {items : List (Item α)}

theorem matches_nil : Matches [] text ↔ text = [] := by
  constructor
  · rintro ⟨pieces, rfl, takes⟩
    cases takes
    rfl
  · rintro rfl
    exact ⟨[], rfl, .nil⟩

theorem matches_cons {item : Item α} :
    Matches (item :: items) text ↔ ∃ piece rest, text = piece ++ rest ∧ item.Takes piece ∧
      Matches items rest := by
  constructor
  · rintro ⟨pieces, rfl, takes⟩
    cases takes with
    | cons first others => exact ⟨_, _, flatten_cons, first, _, rfl, others⟩
  · rintro ⟨piece, rest, rfl, first, pieces, rfl, others⟩
    exact ⟨piece :: pieces, flatten_cons, .cons first others⟩

theorem matches_run : Matches (.run :: items) text ↔ ∃ n, Matches items (text.drop n) := by
  rw [matches_cons]
  constructor
  · rintro ⟨piece, rest, rfl, -, others⟩
    exact ⟨piece.length, by rwa [drop_left]⟩
  · rintro ⟨n, others⟩
    exact ⟨text.take n, text.drop n, (take_append_drop n text).symm, trivial, others⟩

theorem matches_one :
    Matches (.one :: items) text ↔ ∃ a rest, text = a :: rest ∧ Matches items rest := by
  rw [matches_cons]
  constructor
  · rintro ⟨piece, rest, rfl, single, others⟩
    obtain ⟨a, rfl⟩ := List.length_eq_one_iff.mp single
    exact ⟨a, rest, rfl, others⟩
  · rintro ⟨a, rest, rfl, others⟩
    exact ⟨[a], rest, rfl, rfl, others⟩

theorem matches_lit {a : α} :
    Matches (.lit a :: items) text ↔ ∃ rest, text = a :: rest ∧ Matches items rest := by
  rw [matches_cons]
  constructor
  · rintro ⟨_, rest, rfl, rfl, others⟩
    exact ⟨rest, rfl, others⟩
  · rintro ⟨rest, rfl, others⟩
    exact ⟨[a], rest, rfl, rfl, others⟩

theorem matches_append {items others : List (Item α)} :
    Matches (items ++ others) text ↔
      ∃ first rest, text = first ++ rest ∧ Matches items first ∧ Matches others rest := by
  induction items generalizing text with
  | nil =>
    constructor
    · exact fun matched => ⟨[], text, rfl, matches_nil.mpr rfl, matched⟩
    · rintro ⟨first, rest, rfl, empty, matched⟩
      rwa [matches_nil.mp empty]
  | cons item items ih =>
    rw [cons_append, matches_cons]
    constructor
    · rintro ⟨piece, rest, rfl, takes, matched⟩
      obtain ⟨first, rest, rfl, left, right⟩ := ih.mp matched
      exact ⟨piece ++ first, rest, by rw [append_assoc],
        matches_cons.mpr ⟨piece, first, rfl, takes, left⟩, right⟩
    · rintro ⟨_, rest, rfl, left, right⟩
      obtain ⟨piece, first, rfl, takes, left⟩ := matches_cons.mp left
      exact ⟨piece, first ++ rest, by rw [append_assoc], takes,
        ih.mpr ⟨first, rest, rfl, left, right⟩⟩

def Item.isRun : Item α → Bool
  | .run => true
  | _ => false

theorem Matches.length_eq (matched : Matches items text)
    (fixed : ∀ item ∈ items, item.isRun = false) : text.length = items.length := by
  induction items generalizing text with
  | nil => rw [matches_nil.mp matched]; rfl
  | cons item items ih =>
    obtain ⟨first, others⟩ := List.forall_mem_cons.mp fixed
    cases item with
    | run => cases first
    | one =>
      obtain ⟨a, rest, rfl, tail⟩ := matches_one.mp matched
      rw [length_cons, length_cons, ih tail others]
    | lit a =>
      obtain ⟨rest, rfl, tail⟩ := matches_lit.mp matched
      rw [length_cons, length_cons, ih tail others]

/-- A text has at least one element for each item that is no run. -/
theorem Matches.countP_le (matched : Matches items text) :
    items.countP (! ·.isRun) ≤ text.length := by
  induction items generalizing text with
  | nil => exact Nat.zero_le _
  | cons item items ih =>
    cases item with
    | run =>
      obtain ⟨n, tail⟩ := matches_run.mp matched
      have least := ih tail
      rw [length_drop] at least
      rw [countP_cons_of_neg (by simp [Item.isRun])]
      omega
    | one =>
      obtain ⟨a, rest, rfl, tail⟩ := matches_one.mp matched
      rw [countP_cons_of_pos rfl, length_cons]
      exact Nat.succ_le_succ (ih tail)
    | lit a =>
      obtain ⟨rest, rfl, tail⟩ := matches_lit.mp matched
      rw [countP_cons_of_pos rfl, length_cons]
      exact Nat.succ_le_succ (ih tail)

theorem matches_map_lit {segment text : List α} :
    Matches (segment.map .lit) text ↔ text = segment := by
  induction segment generalizing text with
  | nil => exact matches_nil
  | cons a rest ih =>
    rw [map_cons, matches_lit]
    constructor
    · rintro ⟨_, rfl, matched⟩
      rw [ih.mp matched]
    · rintro rfl
      exact ⟨rest, rfl, ih.mpr rfl⟩

/-- The segments stand in the text in order, without overlapping. -/
def InOrder : List (List α) → List α → Prop
  | [], _ => True
  | segment :: segments, text => ∃ before after, text = before ++ (segment ++ after) ∧
      InOrder segments after

theorem InOrder.mono {text longer : List α} (inOrder : InOrder segments text)
    (suffix : text <:+ longer) : InOrder segments longer := by
  cases segments with
  | nil => trivial
  | cons segment segments =>
    obtain ⟨before, after, rfl, rest⟩ := inOrder
    obtain ⟨more, rfl⟩ := suffix
    exact ⟨more ++ before, after, by rw [append_assoc], rest⟩

theorem inOrder_filter : InOrder (segments.filter (! ·.isEmpty)) text ↔ InOrder segments text := by
  induction segments generalizing text with
  | nil => rfl
  | cons segment segments ih =>
    cases segment with
    | nil =>
      rw [filter_cons_of_neg (by simp), ih]
      constructor
      · exact fun rest => ⟨[], text, rfl, rest⟩
      · rintro ⟨before, after, rfl, rest⟩
        exact rest.mono ⟨before, rfl⟩
    | cons a segment =>
      rw [filter_cons_of_pos (by simp), InOrder, InOrder]
      simp only [ih]

def joined (segment : List α) : List (List α) → List (Item α)
  | [] => segment.map .lit
  | next :: segments => segment.map .lit ++ .run :: joined next segments

/-- A pattern of segments holds of the texts that begin with the first, end with the last and have
the others in order between. -/
theorem matches_joined {first last : List α} {middle : List (List α)} :
    Matches (joined first (middle ++ [last])) text ↔
      ∃ window, text = first ++ (window ++ last) ∧ InOrder middle window := by
  induction middle generalizing first text with
  | nil =>
    simp only [nil_append, joined, matches_append, matches_map_lit, matches_run]
    constructor
    · rintro ⟨_, rest, rfl, rfl, n, isLast⟩
      refine ⟨rest.take n, ?_, trivial⟩
      rw [← isLast, take_append_drop]
    · rintro ⟨window, rfl, -⟩
      exact ⟨first, window ++ last, rfl, rfl, window.length, drop_left⟩
  | cons segment middle ih =>
    simp only [cons_append, joined, matches_append, matches_map_lit, matches_run, ih]
    constructor
    · rintro ⟨_, rest, rfl, rfl, n, window, isRest, inOrder⟩
      refine ⟨rest.take n ++ (segment ++ window), ?_, rest.take n, window, rfl, inOrder⟩
      rw [append_assoc, append_assoc, ← isRest, take_append_drop]
    · rintro ⟨_, rfl, before, after, rfl, inOrder⟩
      refine ⟨first, _, rfl, rfl, before.length, after, ?_, inOrder⟩
      rw [append_assoc, drop_left, append_assoc]

section Find

variable [DecidableEq α] {segment : List α}

def find (segment : List α) : List α → Option Nat
  | [] => if segment = [] then some 0 else none
  | a :: text => if segment <+: a :: text then some 0 else (find segment text).map (· + 1)

theorem find_some {n : Nat} (found : find segment text = some n) :
    n ≤ text.length ∧ segment <+: text.drop n ∧ ∀ m, segment <+: text.drop m → n ≤ m := by
  induction text generalizing n with
  | nil =>
    unfold find at found
    split_ifs at found with empty
    cases found
    exact ⟨le_rfl, by simp [empty], fun m _ => Nat.zero_le m⟩
  | cons a text ih =>
    unfold find at found
    split_ifs at found with here
    · cases found
      exact ⟨Nat.zero_le _, here, fun m _ => Nat.zero_le m⟩
    · obtain ⟨k, isFound, rfl⟩ := Option.map_eq_some_iff.mp found
      obtain ⟨inside, stands, least⟩ := ih isFound
      refine ⟨Nat.succ_le_succ inside, by simpa using stands, fun m other => ?_⟩
      cases m with
      | zero => exact absurd other here
      | succ m => exact Nat.succ_le_succ (least m (by simpa using other))

theorem find_none (found : find segment text = none) (n : Nat) : ¬ segment <+: text.drop n := by
  induction text generalizing n with
  | nil =>
    unfold find at found
    split_ifs at found with empty
    simpa using empty
  | cons a text ih =>
    unfold find at found
    split_ifs at found with here
    cases n with
    | zero => exact here
    | succ n => simpa using ih (Option.map_eq_none_iff.mp found) n

/-- The first place a segment stands leaves the most text for those after it. -/
theorem inOrder_find :
    InOrder (segment :: segments) text ↔
      ∃ n, find segment text = some n ∧ InOrder segments (text.drop (n + segment.length)) := by
  constructor
  · rintro ⟨before, after, rfl, rest⟩
    have stands : segment <+: (before ++ (segment ++ after)).drop before.length := by
      rw [drop_left]
      exact prefix_append _ _
    cases found : find segment (before ++ (segment ++ after)) with
    | none => exact absurd stands (find_none found _)
    | some n =>
      refine ⟨n, rfl, rest.mono ?_⟩
      have least := (find_some found).2.2 _ stands
      have isAfter : after = (before ++ (segment ++ after)).drop (before.length + segment.length) := by
        rw [← drop_drop, drop_left, drop_left]
      rw [isAfter]
      have split : before.length + segment.length =
          n + segment.length + (before.length - n) := by omega
      nth_rewrite 1 [split]
      rw [← drop_drop]
      rw [← isAfter]
      exact drop_suffix _ _
  · rintro ⟨n, found, rest⟩
    obtain ⟨-, ⟨after, stands⟩, -⟩ := find_some found
    refine ⟨text.take n, after, ?_, ?_⟩
    · rw [stands, take_append_drop]
    · rw [← drop_drop, ← stands, drop_left] at rest
      exact rest

end Find

end Wildcard
