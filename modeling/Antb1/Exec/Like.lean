import Antb1.Common.Utf8
import Antb1.Lib.Wildcard

/-! LIKE patterns (`exec/like.cc`): the path by literal segments, and the general one that goes back
to the last `%`. A position in the pattern or the text is the suffix that begins there. -/
namespace Antb1.Exec

def kPercent : UInt8 := 0x25

def kUnderscore : UInt8 := 0x5F

/-- The pieces of a pattern between its `%`, empty ones included. -/
def splitPercent : List UInt8 → List (List UInt8)
  | [] => [[]]
  | b :: rest =>
    if b = kPercent then [] :: splitPercent rest
    else
      match splitPercent rest with
      | [] => [[b]]
      | piece :: pieces => (b :: piece) :: pieces

structure LikePattern where
  pattern : List UInt8
  segments : List (List UInt8)
  hasUnderscore : Bool
  leadingPercent : Bool
  trailingPercent : Bool
  deriving DecidableEq, Repr

namespace LikePattern

def make (pattern : List UInt8) : LikePattern where
  pattern
  segments := (splitPercent pattern).filter (! ·.isEmpty)
  hasUnderscore := pattern.contains kUnderscore
  leadingPercent := pattern.head? = some kPercent
  trailingPercent := pattern.getLast? = some kPercent

/-- The segments found one after another in a window of the text, from `pos` on. -/
def findEach (window : List UInt8) : List (List UInt8) → Nat → Bool
  | [], _ => true
  | segment :: segments, pos =>
    match Wildcard.find segment (window.drop pos) with
    | none => false
    | some found => findEach window segments (pos + found + segment.length)

/-- Where the segments after the first one may start; none where the text does not begin with the
first one. -/
def afterFirst (like : LikePattern) (text : List UInt8) : Option Nat :=
  if like.leadingPercent then some 0
  else if like.segments.headD [] <+: text then some (like.segments.headD []).length
  else none

/-- Where the segments before the last one must end; none where the text does not end with it. -/
def beforeLast (like : LikePattern) (text : List UInt8) (pos : Nat) : Option Nat :=
  let suffix := like.segments.getLastD []
  if like.trailingPercent then some text.length
  else if suffix.length > text.length - pos ∨ ¬ suffix <:+ text then none
  else some (text.length - suffix.length)

def matchSegments (like : LikePattern) (text : List UInt8) : Bool :=
  if !like.pattern.contains kPercent then text = like.pattern
  else
    match like.afterFirst text with
    | none => false
    | some pos =>
      match like.beforeLast text pos with
      | none => false
      | some last =>
        let segments := if like.leadingPercent then like.segments else like.segments.tail
        let segments := if like.trailingPercent then segments else segments.dropLast
        findEach (text.take last) segments pos

/-- What is tried again where the text goes on otherwise than the pattern: the pattern after the
last `%`, and the text after it. -/
structure Star where
  pattern : List UInt8
  text : List UInt8
  deriving DecidableEq, Repr

/-- The `%` takes one more character. -/
def Star.advance (star : Star) : Star :=
  { star with text := star.text.drop (charLength star.text) }

def untried (t : List UInt8) : Option Star → Nat
  | none => t.length + 1
  | some star => star.text.length

theorem advance_lt {t : List UInt8} {star : Star} (some_ : t ≠ [])
    (inside : t.length ≤ star.text.length) :
    star.advance.text.length < star.text.length := by
  have positive := List.length_pos_iff.mpr some_
  have taken := charLength_pos star.text
  simp only [Star.advance, List.length_drop]
  omega

theorem untried_lt {t t' : List UInt8} {star : Option Star} (less : t'.length < t.length)
    {m n : Nat} (read : m < n) :
    Prod.Lex (· < ·) (· < ·) (untried t' star, m) (untried t star, n) := by
  cases star with
  | none => exact .left _ _ (Nat.succ_lt_succ less)
  | some star => exact .right _ read

theorem untried_star {p t : List UInt8} {star : Option Star}
    (inside : ∀ s ∈ star, t.length ≤ s.text.length) {m n : Nat} (read : m < n) :
    Prod.Lex (· < ·) (· < ·) (untried t (some ⟨p, t⟩), m) (untried t star, n) := by
  cases star with
  | none => exact .left _ _ (Nat.lt_succ_self _)
  | some s =>
    rcases Nat.lt_or_eq_of_le (inside s rfl) with less | same
    · exact .left _ _ less
    · rw [untried, untried, same]
      exact .right _ read

/-- The loop; it never goes back beyond the last `%`. -/
def general (p t : List UInt8) (star : Option Star)
    (inside : ∀ s ∈ star, t.length ≤ s.text.length) : Bool :=
  match t with
  | [] => p.all (· = kPercent)
  | b :: rest =>
    match p with
    | [] =>
      match star with
      | none => false
      | some s => general s.pattern s.advance.text (some s.advance) fun _ is => by cases is; rfl
    | c :: p =>
      if c = kPercent then
        general p (b :: rest) (some ⟨p, b :: rest⟩) fun _ is => by cases is; rfl
      else if c = kUnderscore then
        general p ((b :: rest).drop (charLength (b :: rest))) star fun s is =>
          (List.drop_sublist _ _).length_le.trans (inside s is)
      else if c = b then
        general p rest star fun s is => (Nat.le_succ _).trans (inside s is)
      else
        match star with
        | none => false
        | some s => general s.pattern s.advance.text (some s.advance) fun _ is => by cases is; rfl
  termination_by (untried t star, p.length)
  decreasing_by
    · exact .left _ _ (advance_lt (List.cons_ne_nil _ _) (inside s rfl))
    · exact untried_star inside (Nat.lt_succ_self _)
    · have taken := charLength_pos (b :: rest)
      refine untried_lt ?_ (Nat.lt_succ_self _)
      simp only [List.length_drop, List.length_cons]
      omega
    · exact untried_lt (Nat.lt_succ_self _) (Nat.lt_succ_self _)
    · exact .left _ _ (advance_lt (List.cons_ne_nil _ _) (inside s rfl))

def matchGeneral (like : LikePattern) (text : List UInt8) : Bool :=
  general like.pattern text none nofun

def matchesText (like : LikePattern) (text : List UInt8) : Bool :=
  if like.hasUnderscore then like.matchGeneral text else like.matchSegments text

end LikePattern

end Antb1.Exec
