import Antb1.Exec.Like

/-! The general path of LIKE is its meaning: going back to the last `%` only loses no match, since
what stands before it has taken the fewest characters it can. -/
namespace Antb1.Exec

open Wildcard List

def likeItem (c : List UInt8) : Item (List UInt8) :=
  if c = [kPercent] then .run else if c = [kUnderscore] then .one else .lit c

def likeItems (pattern : List UInt8) : List (Item (List UInt8)) := (chars pattern).map likeItem

/-- The text's characters split into pieces that the pattern's characters match in turn. -/
def LikeMatches (pattern text : List UInt8) : Prop := Matches (likeItems pattern) (chars text)

theorem likeItem_isRun {c : List UInt8} : (likeItem c).isRun = true ↔ c = [kPercent] := by
  unfold likeItem
  split_ifs <;> simp_all [Item.isRun]

theorem plain_of_isChar {c : List UInt8} (isChar : IsChar c) (noPercent : c ≠ [kPercent])
    (noUnderscore : c ≠ [kUnderscore]) : ∀ b ∈ c, b ≠ kPercent ∧ b ≠ kUnderscore := by
  rcases isChar with ⟨short, -⟩ | ⟨long, sequence⟩
  · obtain ⟨b, rfl⟩ := length_eq_one_iff.mp short
    simpa using And.intro noPercent noUnderscore
  · intro b among
    obtain ⟨-, first, others⟩ := sequence_spec (s := c) (by omega)
    obtain ⟨i, inside, rfl⟩ := mem_iff_getElem.mp among
    have large : 0x80 ≤ c.getD i 0 := by
      by_cases zero : i = 0
      · rw [zero]
        exact UInt8.le_trans (by decide) first
      · exact (others i (by omega) (by omega)).1
    rw [getD_eq_getElem?_getD, getElem?_eq_getElem inside, Option.getD_some] at large
    constructor <;>
      · intro same
        rw [same] at large
        exact absurd large (by decide)

theorem wellFormed_append {c p : List UInt8} (isChar : IsChar c) (wellFormed : WellFormed (c ++ p)) :
    WellFormed p := by
  unfold WellFormed at wellFormed
  rw [isChar.chars_append] at wellFormed
  exact fun d among => wellFormed d (mem_cons_of_mem _ among)

theorem exists_first {p : List UInt8} (some_ : p ≠ []) (wellFormed : WellFormed p) :
    ∃ c rest, p = c ++ rest ∧ IsChar c ∧ WellFormed rest ∧
      likeItems p = likeItem c :: likeItems rest := by
  have first := chars_of_ne_nil some_
  obtain ⟨rest, isRest, others⟩ := chars_eq_cons first
  have isChar : IsChar (p.take (charLength p)) :=
    wellFormed _ (by rw [first]; exact mem_cons_self)
  refine ⟨_, rest, isRest, isChar, wellFormed_append isChar (isRest ▸ wellFormed), ?_⟩
  rw [likeItems, first, map_cons, others]
  rfl

theorem wellFormed_induction {motive : List UInt8 → Prop} (nil : motive [])
    (append : ∀ c rest, IsChar c → WellFormed rest →
      likeItems (c ++ rest) = likeItem c :: likeItems rest → motive rest → motive (c ++ rest))
    {p : List UInt8} (wellFormed : WellFormed p) : motive p := by
  induction size : p.length using Nat.strong_induction_on generalizing p with
  | _ size ih =>
    by_cases empty : p = []
    · rwa [empty]
    · obtain ⟨c, rest, rfl, isChar, restFormed, items⟩ := exists_first empty wellFormed
      have positive := length_pos_iff.mpr isChar.ne_nil
      rw [length_append] at size
      exact append c rest isChar restFormed items (ih rest.length (by omega) restFormed rfl)

theorem all_percent_iff {p : List UInt8} (wellFormed : WellFormed p) :
    p.all (· = kPercent) = true ↔ (likeItems p).countP (! ·.isRun) = 0 := by
  refine wellFormed_induction (motive := fun p => p.all (· = kPercent) = true ↔
    (likeItems p).countP (! ·.isRun) = 0) ?_ ?_ wellFormed
  · simp [likeItems, chars]
  · intro c rest isChar _ items ih
    rw [all_append, items, Bool.and_eq_true, ih]
    by_cases percent : c = [kPercent]
    · rw [countP_cons_of_neg (by simp [likeItem_isRun.mpr percent])]
      simp [percent]
    · have noRun : (likeItem c).isRun = false := by
        rw [← Bool.not_eq_true, likeItem_isRun]
        exact percent
      rw [countP_cons_of_pos (by simp [noRun])]
      refine ⟨fun both => ?_, fun none_ => by cases none_⟩
      by_cases underscore : c = [kUnderscore]
      · simp [underscore, kPercent, kUnderscore] at both
      · obtain ⟨b, more, rfl⟩ := exists_cons_of_ne_nil isChar.ne_nil
        have plain := (plain_of_isChar isChar percent underscore b mem_cons_self).1
        simp [plain] at both

theorem matches_nil_of_runs {α : Type} {items : List (Item α)}
    (runs : items.countP (! ·.isRun) = 0) : Matches items [] := by
  induction items with
  | nil => exact matches_nil.mpr rfl
  | cons item items ih =>
    rw [countP_eq_zero, forall_mem_cons] at runs
    cases item with
    | run => exact matches_run.mpr ⟨0, ih (countP_eq_zero.mpr runs.2)⟩
    | one => exact absurd rfl runs.1
    | lit a => exact absurd rfl runs.1

namespace LikePattern

theorem Star.advance_le (star : Star) :
    ∀ s ∈ some star.advance, star.advance.text.length ≤ s.text.length := by
  rintro _ ⟨⟩
  exact le_rfl

/-- The text after the last `%` tried one character later. -/
def retry : Option Star → Bool
  | none => false
  | some star => general star.pattern star.advance.text (some star.advance) star.advance_le

section Steps

variable {p t : List UInt8} {b c : UInt8} {star : Option Star}

theorem general_nil (inside : ∀ s ∈ star, [].length ≤ s.text.length) :
    general p [] star inside = p.all (· = kPercent) := by
  rw [general.eq_def]

section

variable (inside : ∀ s ∈ star, (b :: t).length ≤ s.text.length)
include inside

theorem general_end : general [] (b :: t) star inside = retry star := by
  rw [general.eq_def]
  cases star <;> rfl

theorem general_percent :
    general (kPercent :: p) (b :: t) star inside =
      general p (b :: t) (some ⟨p, b :: t⟩) fun _ is => by cases is; rfl := by
  rw [general.eq_def]
  simp

theorem general_underscore :
    general (kUnderscore :: p) (b :: t) star inside =
      general p ((b :: t).drop (charLength (b :: t))) star fun s is =>
        (drop_sublist _ _).length_le.trans (inside s is) := by
  rw [general.eq_def]
  simp [kPercent, kUnderscore]

end

theorem general_same (noPercent : b ≠ kPercent) (noUnderscore : b ≠ kUnderscore)
    (inside : ∀ s ∈ star, (b :: t).length ≤ s.text.length) :
    general (b :: p) (b :: t) star inside =
      general p t star fun s is => (Nat.le_succ _).trans (inside s is) := by
  rw [general.eq_def]
  simp [noPercent, noUnderscore]

theorem general_other (noPercent : c ≠ kPercent) (noUnderscore : c ≠ kUnderscore) (other : c ≠ b)
    (inside : ∀ s ∈ star, (b :: t).length ≤ s.text.length) :
    general (c :: p) (b :: t) star inside = retry star := by
  rw [general.eq_def]
  simp only [noPercent, noUnderscore, other, if_false]
  cases star <;> rfl

end Steps

/-- A literal character read byte by byte: the text goes on with it, or breaks off in it, or the
last `%` takes more. -/
theorem general_literal {c : List UInt8} (plain : ∀ b ∈ c, b ≠ kPercent ∧ b ≠ kUnderscore)
    {p t : List UInt8} {star : Option Star} (inside : ∀ s ∈ star, t.length ≤ s.text.length) :
    (∀ t', t = c ++ t' → ∃ inside', general (c ++ p) t star inside = general p t' star inside') ∧
    (¬ c <+: t → general (c ++ p) t star inside = if t <+: c then false else retry star) := by
  induction c generalizing t with
  | nil => exact ⟨fun t' is => by subst is; exact ⟨inside, rfl⟩, fun no => absurd nil_prefix no⟩
  | cons b c ih =>
    obtain ⟨⟨noPercent, noUnderscore⟩, others⟩ := forall_mem_cons.mp plain
    cases t with
    | nil =>
      refine ⟨nofun, fun _ => ?_⟩
      rw [general_nil, if_pos nil_prefix]
      simp [noPercent]
    | cons b' t =>
      by_cases same : b = b'
      · subst same
        obtain ⟨goesOn, breaksOff⟩ := ih others
          (fun s is => (Nat.le_succ _).trans (inside s is) : ∀ s ∈ star, t.length ≤ s.text.length)
        rw [cons_append, general_same noPercent noUnderscore]
        constructor
        · intro t' is
          exact goesOn t' (List.cons.inj is).2
        · intro apart
          simp only [prefix_cons_inj] at apart ⊢
          exact breaksOff apart
      · refine ⟨fun t' is => absurd (List.cons.inj is).1.symm same, fun _ => ?_⟩
        have apart : ¬ b' :: t <+: b :: c := fun begins =>
          same (cons_prefix_cons.mp begins).1.symm
        rw [cons_append, general_other noPercent noUnderscore same, if_neg apart]

/-- What the pattern and the text after the last `%` have read since: as many characters, none of
them a `%`. -/
def Tracks (star : Option Star) (p t : List UInt8) : Prop :=
  ∀ s ∈ star, WellFormed s.pattern ∧ ∃ q m, likeItems s.pattern = q ++ likeItems p ∧
    (∀ item ∈ q, item.isRun = false) ∧ chars s.text = m ++ chars t ∧ m.length = q.length

/-- A later start for the last `%` matches. -/
def Later (star : Option Star) : Prop :=
  ∃ s ∈ star, ∃ j, Matches (likeItems s.pattern) ((chars s.text).drop (j + 1))

/-- What a later start leaves for the rest of the pattern is a part of the text that is left. -/
theorem Tracks.later {star : Option Star} {p t : List UInt8} (tracks : Tracks star p t)
    (later : Later star) : ∃ j, Matches (likeItems p) ((chars t).drop j) := by
  obtain ⟨s, isStar, j, matched⟩ := later
  obtain ⟨-, q, m, items, fixed, isText, length⟩ := tracks s isStar
  rw [items, matches_append] at matched
  obtain ⟨first, rest, whole, isFirst, isRest⟩ := matched
  have size := isFirst.length_eq fixed
  refine ⟨j + 1, ?_⟩
  have after : rest = (chars t).drop (j + 1) := by
    have dropped := congrArg (List.drop first.length) whole
    rw [drop_left, drop_drop, isText, size, ← length, Nat.add_comm,
      ← drop_drop, drop_left] at dropped
    exact dropped.symm
  rwa [← after]

theorem Tracks.read {star : Option Star} {p p' t t' : List UInt8} {item : Item (List UInt8)}
    {c : List UInt8} (tracks : Tracks star p t) (items : likeItems p = item :: likeItems p')
    (fixed : item.isRun = false) (text : chars t = c :: chars t') : Tracks star p' t' := by
  intro s isStar
  obtain ⟨wellFormed, q, m, isItems, qFixed, isText, length⟩ := tracks s isStar
  refine ⟨wellFormed, q ++ [item], m ++ [c], ?_, ?_, ?_, ?_⟩
  · rw [isItems, items, append_assoc]
    rfl
  · rw [forall_mem_append]
    exact ⟨qFixed, by simpa using fixed⟩
  · rw [isText, text, append_assoc]
    rfl
  · rw [length_append, length_append, length]
    rfl

theorem Tracks.start {p t : List UInt8} (wellFormed : WellFormed p) : Tracks (some ⟨p, t⟩) p t := by
  rintro s ⟨⟩
  exact ⟨wellFormed, [], [], rfl, nofun, rfl, rfl⟩

/-- A text that breaks off: no start of the last `%` matches either. -/
theorem Tracks.not_later {star : Option Star} {p t : List UInt8} (tracks : Tracks star p t)
    (short : (chars t).length < (likeItems p).countP (! ·.isRun)) : ¬ Later star := by
  intro later
  obtain ⟨j, matched⟩ := tracks.later later
  have least := matched.countP_le
  rw [length_drop] at least
  omega

theorem matches_run_iff {α : Type} {items : List (Item α)} {text : List α} :
    Matches (.run :: items) text ↔
      Matches items text ∨ ∃ j, Matches items (text.drop (j + 1)) := by
  rw [matches_run]
  constructor
  · rintro ⟨n, matched⟩
    cases n with
    | zero => exact .inl matched
    | succ n => exact .inr ⟨n, matched⟩
  · rintro (matched | ⟨j, matched⟩)
    · exact ⟨0, matched⟩
    · exact ⟨j + 1, matched⟩

theorem retry_iff {star : Option Star} (texts : ∀ s ∈ star, s.text ≠ [])
    (later : ∀ s ∈ star, (retry (some s) = true ↔
      LikeMatches s.pattern s.advance.text ∨ Later (some s.advance))) :
    retry star = true ↔ Later star := by
  cases star with
  | none => simp [retry, Later]
  | some s =>
    have advanced : chars s.advance.text = (chars s.text).drop 1 := by
      rw [chars_of_ne_nil (texts s rfl)]
      rfl
    have first : ∀ j, ((chars s.text).drop 1).drop (j + 1) = (chars s.text).drop (j + 1 + 1) := by
      intro j
      rw [drop_drop, Nat.add_comm]
    rw [later s rfl, LikeMatches, advanced]
    constructor
    · rintro (matched | ⟨_, ⟨⟩, j, matched⟩)
      · exact ⟨s, rfl, 0, matched⟩
      · exact ⟨s, rfl, j + 1, by rwa [advanced, first] at matched⟩
    · rintro ⟨_, ⟨⟩, j, matched⟩
      cases j with
      | zero => exact .inl matched
      | succ j => exact .inr ⟨s.advance, rfl, j, by rwa [advanced, first]⟩

theorem texts_ne_nil {star : Option Star} {t : List UInt8} (some_ : t ≠ [])
    (inside : ∀ s ∈ star, t.length ≤ s.text.length) : ∀ s ∈ star, s.text ≠ [] := by
  intro s isStar empty
  have short := inside s isStar
  rw [empty] at short
  exact some_ (length_eq_zero_iff.mp (Nat.le_zero.mp short))

/-- A character that a text does not begin with is not what it matches. -/
theorem not_likeMatches_literal {c p t : List UInt8} (items : likeItems (c ++ p) = .lit c :: likeItems p)
    (apart : ¬ c <+: t) : ¬ LikeMatches (c ++ p) t := by
  intro matched
  rw [LikeMatches, items, matches_lit] at matched
  obtain ⟨rest, isText, -⟩ := matched
  obtain ⟨t', rfl, -⟩ := chars_eq_cons isText
  exact apart (prefix_append _ _)

/-- The loop finds the matches of the pattern that is left and those of a later start. -/
theorem general_iff {p t : List UInt8} {star : Option Star}
    (inside : ∀ s ∈ star, t.length ≤ s.text.length) (wellFormed : WellFormed p)
    (tracks : Tracks star p t) :
    general p t star inside = true ↔ LikeMatches p t ∨ Later star := by
  by_cases empty : t = []
  · subst empty
    rw [general_nil, all_percent_iff wellFormed]
    constructor
    · intro runs
      refine .inl ?_
      rw [LikeMatches, chars]
      exact matches_nil_of_runs runs
    · intro matched
      by_contra some_
      have short : (chars []).length < (likeItems p).countP (! ·.isRun) := by
        rw [chars]
        exact Nat.pos_of_ne_zero some_
      rcases matched with matched | later
      · exact absurd matched.countP_le (by omega)
      · exact tracks.not_later short later
  obtain ⟨b, rest, rfl⟩ := exists_cons_of_ne_nil empty
  have again : retry star = true ↔ Later star :=
    retry_iff (texts_ne_nil empty inside) fun s isStar =>
      general_iff (fun _ is => by cases is; rfl) (tracks s isStar).1
        (Tracks.start (tracks s isStar).1)
  by_cases ended : p = []
  · subst ended
    have none_ : ¬ LikeMatches [] (b :: rest) := by
      rw [LikeMatches, likeItems, chars, map_nil, matches_nil, chars_eq_nil]
      exact cons_ne_nil _ _
    rw [general_end, again]
    simp [none_]
  obtain ⟨c, p', rfl, isChar, restFormed, items⟩ := exists_first ended wellFormed
  by_cases percent : c = [kPercent]
  · subst percent
    have isRun : likeItem [kPercent] = .run := if_pos rfl
    have step := @general_iff p' (b :: rest) (some ⟨p', b :: rest⟩)
      (fun _ is => by cases is; rfl) restFormed (Tracks.start restFormed)
    rw [singleton_append, general_percent, step]
    rw [singleton_append, isRun] at items
    have whole : LikeMatches (kPercent :: p') (b :: rest) ↔
        LikeMatches p' (b :: rest) ∨ Later (some ⟨p', b :: rest⟩) := by
      rw [LikeMatches, items, matches_run_iff]
      simp [Later, LikeMatches]
    rw [← whole]
    refine ⟨.inl, fun either => either.elim id fun later => ?_⟩
    obtain ⟨j, matched⟩ := tracks.later later
    rw [singleton_append, items, matches_run] at matched
    obtain ⟨n, matched⟩ := matched
    rw [LikeMatches, items, matches_run]
    rw [drop_drop] at matched
    exact ⟨_, matched⟩
  by_cases underscore : c = [kUnderscore]
  · subst underscore
    have isOne : likeItem [kUnderscore] = .one := by
      rw [likeItem, if_neg percent, if_pos rfl]
    have text := chars_of_ne_nil (cons_ne_nil b rest)
    rw [isOne] at items
    have step := @general_iff p' ((b :: rest).drop (charLength (b :: rest))) star
      (fun s is => (drop_sublist _ _).length_le.trans (inside s is)) restFormed
      (tracks.read items rfl text)
    rw [singleton_append] at items ⊢
    rw [general_underscore, step]
    refine or_congr_left ?_
    rw [LikeMatches, LikeMatches, items, matches_one, text]
    simp
  · have isLit : likeItem c = .lit c := by rw [likeItem, if_neg percent, if_neg underscore]
    rw [isLit] at items
    obtain ⟨goesOn, breaksOff⟩ :=
      general_literal (p := p') (plain_of_isChar isChar percent underscore) inside
    by_cases begins : c <+: b :: rest
    · obtain ⟨t', begun⟩ := begins
      have text : chars (b :: rest) = c :: chars t' := by rw [← begun, isChar.chars_append]
      obtain ⟨inside', same⟩ := goesOn t' begun.symm
      have step := @general_iff p' t' star inside' restFormed (tracks.read items rfl text)
      rw [same, step]
      refine or_congr_left ?_
      rw [LikeMatches, LikeMatches, items, matches_lit, text]
      simp
    · have none_ := not_likeMatches_literal items begins
      rw [breaksOff begins]
      simp only [none_, false_or]
      split_ifs with short
      · refine ⟨fun never => (by cases never), fun later => ?_⟩
        -- The text has no character as long as `c`.
        obtain ⟨j, matched⟩ := tracks.later later
        rw [items, matches_lit] at matched
        obtain ⟨others, isText, -⟩ := matched
        have among : c ∈ chars (b :: rest) :=
          mem_of_mem_drop (isText ▸ mem_cons_self)
        have long := length_le_of_mem_chars among
        have same := short.eq_of_length (le_antisymm short.length_le long)
        exact absurd (same ▸ prefix_rfl) begins
      · exact again
termination_by (untried t star, p.length)
decreasing_by
  all_goals have isText : t = b :: rest := ‹_›
  · cases isStar
    exact .left _ _ (advance_lt empty (inside s rfl))
  all_goals have isPattern : p = c ++ p' := ‹_›
  all_goals have positive := length_pos_iff.mpr isChar.ne_nil
  all_goals have read : p'.length < p.length := by rw [isPattern, length_append]; omega
  · rw [isText]
    exact untried_star inside read
  · refine untried_lt ?_ read
    have taken := charLength_pos (b :: rest)
    rw [isText, length_drop, length_cons]
    omega
  · refine untried_lt ?_ read
    rw [isText, ← begun, length_append]
    omega

end LikePattern

end Antb1.Exec
