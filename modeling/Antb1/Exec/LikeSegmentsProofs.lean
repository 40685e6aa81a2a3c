import Antb1.Exec.LikeProofs

/-! The path by literal segments matches bytes; for a pattern of well-formed characters that is
matching characters, since no such character begins inside another. -/
namespace Antb1.Exec

open Wildcard List

/-- What a byte of a pattern without `_` matches. -/
def byteItem (b : UInt8) : Item UInt8 := if b = kPercent then .run else .lit b

def byteItems (pattern : List UInt8) : List (Item UInt8) := pattern.map byteItem

theorem byteItems_append_plain {c rest : List UInt8} (plain : ∀ b ∈ c, b ≠ kPercent) :
    byteItems (c ++ rest) = c.map .lit ++ byteItems rest := by
  rw [byteItems, map_append]
  refine congrArg (· ++ byteItems rest) (map_congr_left fun b among => ?_)
  rw [byteItem, if_neg (plain b among)]

theorem matches_bytes_char {c rest t : List UInt8} (plain : ∀ b ∈ c, b ≠ kPercent) :
    Matches (byteItems (c ++ rest)) t ↔ ∃ t', t = c ++ t' ∧ Matches (byteItems rest) t' := by
  rw [byteItems_append_plain plain, matches_append]
  simp only [matches_map_lit]
  constructor
  · rintro ⟨_, t', rfl, rfl, matched⟩
    exact ⟨t', rfl, matched⟩
  · rintro ⟨t', rfl, matched⟩
    exact ⟨c, t', rfl, rfl, matched⟩

/-- A rest of the text that the pattern matches begins where a character does; a pattern that
begins with `%` matches the whole text then. -/
theorem exists_boundary {p t : List UInt8} (wellFormed : WellFormed p) (noUnderscore : kUnderscore ∉ p)
    {i : Nat} (matched : Matches (byteItems p) (t.drop i)) :
    ∃ i' j, Matches (byteItems p) (t.drop i') ∧ (chars t).drop j = chars (t.drop i') := by
  by_cases empty : p = []
  · subst empty
    have ended := matches_nil.mp matched
    obtain ⟨j, same⟩ := drop_chars_of_not_trails t i (by simp [ended])
    exact ⟨i, j, matched, same⟩
  obtain ⟨c, rest, rfl, isChar, -, -⟩ := exists_first empty wellFormed
  by_cases percent : c = [kPercent]
  · subst percent
    obtain ⟨n, tail⟩ := matches_run.mp matched
    rw [drop_drop] at tail
    exact ⟨0, 0, matches_run.mpr ⟨_, tail⟩, rfl⟩
  · have underscore : c ≠ [kUnderscore] := by
      rintro rfl
      simp at noUnderscore
    have plain := plain_of_isChar isChar percent underscore
    obtain ⟨t', isText, -⟩ := (matches_bytes_char fun b among => (plain b among).1).mp matched
    obtain ⟨j, same⟩ := drop_chars_of_not_trails t i (by
      rw [isText, head?_append_of_ne_nil _ isChar.ne_nil]
      intro b first
      have notTrails := isChar.first
      rwa [getD_eq_getElem?_getD, ← head?_eq_getElem?, Option.mem_def.mp first] at notTrails)
    exact ⟨i, j, matched, same⟩

theorem matches_byteItems {p : List UInt8} (wellFormed : WellFormed p)
    (noUnderscore : kUnderscore ∉ p) (t : List UInt8) :
    Matches (byteItems p) t ↔ LikeMatches p t := by
  revert noUnderscore t
  refine wellFormed_induction (motive := fun p => kUnderscore ∉ p → ∀ t,
    (Matches (byteItems p) t ↔ LikeMatches p t)) ?_ ?_ wellFormed
  · intro _ t
    rw [LikeMatches, likeItems, chars, byteItems, map_nil, map_nil, matches_nil,
      matches_nil, chars_eq_nil]
  · intro c rest isChar restFormed items ih noUnderscore t
    have others : kUnderscore ∉ rest := fun among => noUnderscore (mem_append_right _ among)
    by_cases percent : c = [kPercent]
    · subst percent
      have isRun : likeItem [kPercent] = .run := if_pos rfl
      have bytes : byteItems ([kPercent] ++ rest) = .run :: byteItems rest := rfl
      rw [LikeMatches, items, isRun, bytes, matches_run, matches_run]
      constructor
      · rintro ⟨i, matched⟩
        obtain ⟨i', j, matched, same⟩ := exists_boundary restFormed others matched
        exact ⟨j, by rw [same]; exact (ih others _).mp matched⟩
      · rintro ⟨j, matched⟩
        obtain ⟨i, same⟩ := exists_drop_chars t j
        rw [same] at matched
        exact ⟨i, (ih others _).mpr matched⟩
    · have underscore : c ≠ [kUnderscore] := by
        rintro rfl
        simp at noUnderscore
      have plain := plain_of_isChar isChar percent underscore
      have isLit : likeItem c = .lit c := by rw [likeItem, if_neg percent, if_neg underscore]
      rw [matches_bytes_char fun b among => (plain b among).1, LikeMatches, items, isLit, matches_lit]
      constructor
      · rintro ⟨t', rfl, matched⟩
        exact ⟨chars t', isChar.chars_append t', (ih others t').mp matched⟩
      · rintro ⟨_, isText, matched⟩
        obtain ⟨t', rfl, rfl⟩ := chars_eq_cons isText
        exact ⟨t', rfl, (ih others t').mpr matched⟩

theorem splitPercent_plain {p : List UInt8} (plain : kPercent ∉ p) : splitPercent p = [p] := by
  induction p with
  | nil => rfl
  | cons b p ih =>
    rw [mem_cons, not_or] at plain
    rw [splitPercent, if_neg (Ne.symm plain.1), ih plain.2]

theorem splitPercent_append {plain rest : List UInt8} (noPercent : kPercent ∉ plain) :
    splitPercent (plain ++ kPercent :: rest) = plain :: splitPercent rest := by
  induction plain with
  | nil => rw [nil_append, splitPercent, if_pos rfl]
  | cons b plain ih =>
    rw [mem_cons, not_or] at noPercent
    rw [cons_append, splitPercent, if_neg (Ne.symm noPercent.1), ih noPercent.2]

theorem percent_induction {motive : List UInt8 → Prop} (plain : ∀ p, kPercent ∉ p → motive p)
    (append : ∀ piece rest, kPercent ∉ piece → motive rest → motive (piece ++ kPercent :: rest))
    (p : List UInt8) : motive p := by
  induction size : p.length using Nat.strong_induction_on generalizing p with
  | _ size ih =>
    by_cases percent : kPercent ∈ p
    · obtain ⟨piece, rest, rfl, noPercent⟩ := eq_append_cons_of_mem percent
      rw [length_append, length_cons] at size
      exact append piece rest noPercent (ih rest.length (by omega) rest rfl)
    · exact plain p percent

theorem splitPercent_ne_nil (p : List UInt8) : splitPercent p ≠ [] := by
  refine percent_induction (motive := fun p => splitPercent p ≠ []) ?_ ?_ p
  · intro p plain
    rw [splitPercent_plain plain]
    exact cons_ne_nil _ _
  · intro piece rest noPercent _
    rw [splitPercent_append noPercent]
    exact cons_ne_nil _ _

theorem byteItems_plain {p : List UInt8} (plain : kPercent ∉ p) : byteItems p = p.map .lit := by
  have items := @byteItems_append_plain p [] fun b among is => plain (is ▸ among)
  rwa [append_nil, show byteItems [] = [] from rfl, append_nil] at items

theorem byteItems_eq_joined (p : List UInt8) :
    ∀ first others, splitPercent p = first :: others → byteItems p = joined first others := by
  refine percent_induction (motive := fun p => ∀ first others,
    splitPercent p = first :: others → byteItems p = joined first others) ?_ ?_ p
  · intro p plain first others split
    rw [splitPercent_plain plain] at split
    cases split
    exact byteItems_plain plain
  · intro piece rest noPercent ih first others split
    rw [splitPercent_append noPercent] at split
    obtain ⟨next, more, isRest⟩ := exists_cons_of_ne_nil (splitPercent_ne_nil rest)
    cases split
    rw [byteItems_append_plain fun b among is => noPercent (is ▸ among), isRest, joined,
      ← ih next more isRest]
    rfl

theorem splitPercent_last (p : List UInt8) : ∀ middle last, splitPercent p = middle ++ [last] →
    kPercent ∉ last ∧ ∃ before, kPercent :: p = before ++ kPercent :: last := by
  refine percent_induction (motive := fun p => ∀ middle last, splitPercent p = middle ++ [last] →
    kPercent ∉ last ∧ ∃ before, kPercent :: p = before ++ kPercent :: last) ?_ ?_ p
  · intro p plain middle last split
    rw [splitPercent_plain plain] at split
    have sides : [] ++ [p] = middle ++ [last] := split
    obtain ⟨rfl, ⟨⟩⟩ := append_inj' sides rfl
    exact ⟨plain, [], rfl⟩
  · intro piece rest noPercent ih middle last split
    rw [splitPercent_append noPercent] at split
    cases middle with
    | nil => exact absurd (List.cons.inj split).2 (splitPercent_ne_nil rest)
    | cons _ middle =>
      obtain ⟨plain, before, isRest⟩ := ih middle last (List.cons.inj split).2
      refine ⟨plain, kPercent :: piece ++ before, ?_⟩
      rw [isRest, append_assoc, cons_append]

/-- The pieces of a pattern with a `%`. -/
structure Pieces (p first : List UInt8) (middle : List (List UInt8)) (last : List UInt8) : Prop where
  split : splitPercent p = first :: (middle ++ [last])
  firstPlain : kPercent ∉ first
  begins : ∃ rest, p = first ++ kPercent :: rest
  lastPlain : kPercent ∉ last
  ends : ∃ before, p = before ++ kPercent :: last

theorem exists_pieces {p : List UInt8} (percent : kPercent ∈ p) :
    ∃ first middle last, Pieces p first middle last := by
  obtain ⟨first, rest, rfl, firstPlain⟩ := eq_append_cons_of_mem percent
  rcases eq_nil_or_concat (splitPercent rest) with none_ | ⟨middle, last, isRest⟩
  · exact absurd none_ (splitPercent_ne_nil rest)
  · rw [concat_eq_append] at isRest
    obtain ⟨lastPlain, before, isEnd⟩ := splitPercent_last rest middle last isRest
    refine ⟨first, middle, last, ?_, firstPlain, ⟨rest, rfl⟩, lastPlain, first ++ before, ?_⟩
    · rw [splitPercent_append firstPlain, isRest]
    · rw [isEnd, append_assoc]

namespace LikePattern

variable {p first last : List UInt8} {middle : List (List UInt8)}

section Pieces

variable (pieces : Pieces p first middle last)
include pieces

theorem leadingPercent_iff : (make p).leadingPercent = true ↔ first = [] := by
  obtain ⟨rest, rfl⟩ := pieces.begins
  have plain := pieces.firstPlain
  cases first with
  | nil => simp [make]
  | cons b first =>
    have other : b ≠ kPercent := fun is => plain (is ▸ mem_cons_self)
    simp [make, other]

theorem trailingPercent_iff : (make p).trailingPercent = true ↔ last = [] := by
  obtain ⟨before, rfl⟩ := pieces.ends
  have plain := pieces.lastPlain
  rcases eq_nil_or_concat last with rfl | ⟨last, b, rfl⟩
  · simp [make]
  · have other : b ≠ kPercent := fun is => plain (is ▸ by simp)
    simp [make, other, getLast?_cons]

theorem segments_eq :
    (make p).segments = (if (make p).leadingPercent then [] else [first]) ++
      (middle.filter (! ·.isEmpty) ++ if (make p).trailingPercent then [] else [last]) := by
  have leading := leadingPercent_iff pieces
  have trailing := trailingPercent_iff pieces
  rw [show (make p).segments = (splitPercent p).filter (! ·.isEmpty) from rfl, pieces.split]
  by_cases noFirst : first = [] <;> by_cases noLast : last = [] <;>
    simp_all

theorem afterFirst_eq (t : List UInt8) :
    (make p).afterFirst t = if first <+: t then some first.length else none := by
  have leading := leadingPercent_iff pieces
  unfold afterFirst
  rw [segments_eq pieces]
  by_cases noFirst : first = []
  · simp [leading.mpr noFirst, noFirst]
  · simp [show (make p).leadingPercent = false from Bool.eq_false_iff.mpr (mt leading.mp noFirst)]

theorem beforeLast_eq (t : List UInt8) (pos : Nat) :
    (make p).beforeLast t pos =
      if last.length > t.length - pos ∨ ¬ last <:+ t then none else some (t.length - last.length) := by
  have trailing := trailingPercent_iff pieces
  unfold beforeLast
  rw [segments_eq pieces]
  by_cases noLast : last = []
  · simp [trailing.mpr noLast, noLast]
  · simp [show (make p).trailingPercent = false from Bool.eq_false_iff.mpr (mt trailing.mp noLast),
      ← append_assoc]

theorem middle_eq :
    (if (make p).trailingPercent then
        (if (make p).leadingPercent then (make p).segments else (make p).segments.tail)
      else (if (make p).leadingPercent then (make p).segments else (make p).segments.tail).dropLast) =
      middle.filter (! ·.isEmpty) := by
  rw [segments_eq pieces]
  cases (make p).leadingPercent <;> cases (make p).trailingPercent <;> simp

end Pieces

theorem findEach_iff {window : List UInt8} {segments : List (List UInt8)} {pos : Nat} :
    findEach window segments pos = true ↔ InOrder segments (window.drop pos) := by
  induction segments generalizing pos with
  | nil => simp [findEach, InOrder]
  | cons segment segments ih =>
    rw [inOrder_find, findEach]
    cases found : find segment (window.drop pos) with
    | none => simp
    | some n => simp [ih, drop_drop, Nat.add_assoc]

theorem exists_window_iff {t : List UInt8} {P : List UInt8 → Prop} :
    (∃ window, t = first ++ (window ++ last) ∧ P window) ↔
      first <+: t ∧ last.length ≤ t.length - first.length ∧ last <:+ t ∧
        P ((t.take (t.length - last.length)).drop first.length) := by
  constructor
  · rintro ⟨window, rfl, holds⟩
    refine ⟨prefix_append _ _, ?_, ?_, ?_⟩
    · simp
    · exact ⟨first ++ window, by rw [append_assoc]⟩
    · have cut : (first ++ (window ++ last)).length - last.length = (first ++ window).length := by
        simp only [length_append]
        omega
      rwa [cut, ← append_assoc, take_left, drop_left]
  · rintro ⟨⟨rest, rfl⟩, fits, isSuffix, holds⟩
    rw [length_append, Nat.add_sub_cancel_left] at fits
    obtain ⟨window, rfl⟩ := suffix_of_suffix_length_le isSuffix (suffix_append _ _) fits
    have cut : (first ++ (window ++ last)).length - last.length = (first ++ window).length := by
      simp only [length_append]
      omega
    rw [cut, ← append_assoc, take_left, drop_left] at holds
    exact ⟨window, rfl, holds⟩

theorem matchSegments_iff (p t : List UInt8) :
    (make p).matchSegments t = true ↔ Matches (byteItems p) t := by
  by_cases percent : kPercent ∈ p
  · obtain ⟨first, middle, last, pieces⟩ := exists_pieces percent
    have contains : (!(make p).pattern.contains kPercent) = false := by simp [make, percent]
    rw [byteItems_eq_joined p first _ pieces.split, matches_joined, exists_window_iff, matchSegments,
      contains, afterFirst_eq pieces]
    by_cases begins : first <+: t
    · simp only [begins, if_true, beforeLast_eq pieces, middle_eq pieces]
      by_cases ends : last.length > t.length - first.length ∨ ¬ last <:+ t
      · simp only [ends, if_true]
        have not : ¬ (last.length ≤ t.length - first.length ∧ last <:+ t) := by
          rintro ⟨fits, isSuffix⟩
          rcases ends with long | apart
          · omega
          · exact apart isSuffix
        simp_all
      · rw [if_neg ends]
        rw [not_or, not_not, not_lt] at ends
        simp [ends, findEach_iff, inOrder_filter]
    · simp [begins]
  · rw [byteItems_plain percent, matches_map_lit]
    simp [matchSegments, make, percent]

/-- The pattern holds of a text where the text splits into what its characters match, on either
path. -/
theorem matchesText_iff {pattern : List UInt8} (wellFormed : WellFormed pattern)
    (text : List UInt8) :
    ((make pattern).matchesText text = true ↔ LikeMatches pattern text) ∧
    ((make pattern).matchGeneral text = true ↔ LikeMatches pattern text) ∧
    ((make pattern).hasUnderscore = false →
      (make pattern).matchSegments text = (make pattern).matchGeneral text) := by
  have general_ : (make pattern).matchGeneral text = true ↔ LikeMatches pattern text := by
    have noLater : ¬ Later none := by rintro ⟨s, isStar, -⟩; cases isStar
    have noStar : ∀ s ∈ (none : Option Star), text.length ≤ s.text.length := by
      intro s isStar
      cases isStar
    have loop := @general_iff pattern text none noStar wellFormed fun s isStar => by cases isStar
    rwa [or_iff_left noLater] at loop
  have segments : (make pattern).hasUnderscore = false →
      ((make pattern).matchSegments text = true ↔ LikeMatches pattern text) := by
    intro plain
    have noUnderscore : kUnderscore ∉ pattern := by simpa [make] using plain
    rw [matchSegments_iff, matches_byteItems wellFormed noUnderscore]
  refine ⟨?_, general_, fun plain => ?_⟩
  · unfold matchesText
    cases underscore : (make pattern).hasUnderscore with
    | false => simpa using segments underscore
    | true => simpa using general_
  · rw [Bool.eq_iff_iff, segments plain, general_]

/-- `é%_` against a text that ends in an invalid byte. -/
theorem matchesText_iff_accent :
    WellFormed [0xC3, 0xA9, 0x25, 0x5F] ∧
      (make [0xC3, 0xA9, 0x25, 0x5F]).matchesText [0xC3, 0xA9, 0xFF] = true := by
  have wellFormed : WellFormed [0xC3, 0xA9, 0x25, 0x5F] := by decide +kernel
  have items : likeItems [0xC3, 0xA9, 0x25, 0x5F] = [.lit [0xC3, 0xA9], .run, .one] := by
    decide +kernel
  have text : chars [0xC3, 0xA9, 0xFF] = [[0xC3, 0xA9], [0xFF]] := by decide +kernel
  refine ⟨wellFormed, (matchesText_iff wellFormed _).1.mpr ?_⟩
  rw [LikeMatches, items, text]
  exact ⟨[[[0xC3, 0xA9]], [], [[0xFF]]], rfl, .cons rfl (.cons trivial (.cons rfl .nil))⟩

end LikePattern

end Antb1.Exec
