import Mathlib.Data.UInt

/-! UTF-8 sequences in byte strings (`common/utf8.cc`): a text as characters, each a well-formed
sequence or, failing that, one byte. A position is the suffix that begins there. -/
namespace Antb1

open List

variable {s c : List UInt8}

/-- How a sequence with a lead byte goes on: its length and the range of its second byte. -/
structure Utf8Lead where
  length : Nat
  lo : UInt8
  hi : UInt8
  deriving DecidableEq, Repr

def utf8Lead (lead : UInt8) : Option Utf8Lead :=
  if 0xC2 ≤ lead ∧ lead ≤ 0xDF then some ⟨2, 0x80, 0xBF⟩
  else if 0xE0 ≤ lead ∧ lead ≤ 0xEF then
    some ⟨3, if lead = 0xE0 then 0xA0 else 0x80, if lead = 0xED then 0x9F else 0xBF⟩
  else if 0xF0 ≤ lead ∧ lead ≤ 0xF4 then
    some ⟨4, if lead = 0xF0 then 0x90 else 0x80, if lead = 0xF4 then 0x8F else 0xBF⟩
  else none

def isContinuation (b : UInt8) : Bool := (b &&& 0xC0) = 0x80

/-- `Utf8SequenceLength`: the length of the sequence a text begins with; 0 where there is none. -/
def utf8SequenceLength (s : List UInt8) : Nat :=
  match utf8Lead (s.getD 0 0) with
  | none => 0
  | some lead =>
    if lead.length > s.length ∨ s.getD 1 0 < lead.lo ∨ s.getD 1 0 > lead.hi then 0
    else if ((s.take lead.length).drop 2).all isContinuation then lead.length
    else 0

/-- The length of the character a text begins with: its sequence, or one byte. -/
def charLength (s : List UInt8) : Nat :=
  if s.getD 0 0 < 0x80 then 1
  else
    let length := utf8SequenceLength s
    if length = 0 then 1 else length

theorem charLength_pos (s : List UInt8) : 0 < charLength s := by
  unfold charLength
  dsimp only
  split_ifs <;> omega

def chars : List UInt8 → List (List UInt8)
  | [] => []
  | b :: s => (b :: s).take (charLength (b :: s)) :: chars ((b :: s).drop (charLength (b :: s)))
  termination_by s => s.length
  decreasing_by
    have := charLength_pos (b :: s)
    simp only [length_drop, length_cons]
    omega

/-- A character that is well formed: ASCII, or one sequence. -/
def IsChar (c : List UInt8) : Prop :=
  (c.length = 1 ∧ c.getD 0 0 < 0x80) ∨ (2 ≤ c.length ∧ utf8SequenceLength c = c.length)

instance : DecidablePred IsChar := fun _ => inferInstanceAs (Decidable (_ ∨ _))

/-- Well-formed UTF-8: every character is. -/
def WellFormed (s : List UInt8) : Prop := ∀ c ∈ chars s, IsChar c

instance : DecidablePred WellFormed := fun s => inferInstanceAs (Decidable (∀ c ∈ chars s, IsChar c))

theorem chars_of_ne_nil (some_ : s ≠ []) :
    chars s = s.take (charLength s) :: chars (s.drop (charLength s)) := by
  obtain ⟨b, rest, rfl⟩ := exists_cons_of_ne_nil some_
  rw [chars]

theorem utf8SequenceLength_le (s : List UInt8) : utf8SequenceLength s ≤ s.length := by
  unfold utf8SequenceLength
  split
  · exact Nat.zero_le _
  · split_ifs with outside
    · exact Nat.zero_le _
    · simp only [not_or, not_lt] at outside
      exact outside.1
    · exact Nat.zero_le _

theorem charLength_le (some_ : s ≠ []) : charLength s ≤ s.length := by
  have positive := length_pos_iff.mpr some_
  have most := utf8SequenceLength_le s
  unfold charLength
  dsimp only
  split_ifs <;> omega

theorem flatten_chars (s : List UInt8) : (chars s).flatten = s := by
  induction s using chars.induct with
  | case1 => rw [chars]; rfl
  | case2 b s ih => rw [chars, flatten_cons, ih, take_append_drop]

theorem chars_eq_nil : chars s = [] ↔ s = [] := by
  constructor
  · intro empty
    rw [← flatten_chars s, empty]
    rfl
  · rintro rfl
    rw [chars]

theorem length_le_of_mem_chars (among : c ∈ chars s) : c.length ≤ s.length := by
  have sublist := sublist_flatten_of_mem among
  rw [flatten_chars] at sublist
  exact sublist.length_le

theorem getD_append_left {n : Nat} (inside : n < c.length) : (c ++ s).getD n 0 = c.getD n 0 := by
  rw [getD_eq_getElem?_getD, getD_eq_getElem?_getD, getElem?_append_left inside]

def Trails (b : UInt8) : Prop := 0x80 ≤ b ∧ b ≤ 0xBF

theorem trails_of_isContinuation {b : UInt8} (is : isContinuation b = true) : Trails b := by
  have each : ∀ n < 256, isContinuation (UInt8.ofNat n) = true →
      0x80 ≤ UInt8.ofNat n ∧ UInt8.ofNat n ≤ 0xBF := by decide +kernel
  have inside := each b.toNat b.toNat_lt
  rw [UInt8.ofNat_toNat] at inside
  exact inside is

theorem utf8Lead_spec {b : UInt8} {lead : Utf8Lead} (is : utf8Lead b = some lead) :
    2 ≤ lead.length ∧ 0x80 ≤ lead.lo ∧ lead.hi ≤ 0xBF ∧ 0xC2 ≤ b := by
  unfold utf8Lead at is
  split_ifs at is <;> cases is <;> refine ⟨by decide, by decide, by decide, ?_⟩ <;> grind

theorem sequence_spec (some_ : utf8SequenceLength s ≠ 0) :
    2 ≤ utf8SequenceLength s ∧ 0xC2 ≤ s.getD 0 0 ∧
      ∀ i, 0 < i → i < utf8SequenceLength s → Trails (s.getD i 0) := by
  have most := utf8SequenceLength_le s
  unfold utf8SequenceLength at some_ most ⊢
  split at some_
  · exact absurd rfl some_
  · next lead isLead =>
    obtain ⟨long, lo, hi, first⟩ := utf8Lead_spec isLead
    simp only [isLead] at most ⊢
    split_ifs at some_ most ⊢ with outside trail
    · exact absurd rfl some_
    · simp only [not_or, UInt8.not_lt] at outside
      refine ⟨long, first, fun i positive inside => ?_⟩
      obtain rfl | more : i = 1 ∨ 2 ≤ i := by omega
      · exact ⟨UInt8.le_trans lo outside.2.1, UInt8.le_trans outside.2.2 hi⟩
      · apply trails_of_isContinuation
        refine all_eq_true.mp trail _ ?_
        have at_ : ((s.take lead.length).drop 2)[i - 2]? = some (s.getD i 0) := by
          rw [getElem?_drop, getElem?_take_of_lt (by omega), getD_eq_getElem?_getD,
            show 2 + (i - 2) = i by omega, getElem?_eq_getElem (by omega), Option.getD_some]
        exact mem_of_getElem? at_
    · exact absurd rfl some_

theorem trails_inside {i : Nat} (positive : 0 < i) (inside : i < charLength s) :
    Trails (s.getD i 0) := by
  unfold charLength at inside
  dsimp only at inside
  split_ifs at inside with ascii none_
  · omega
  · omega
  · exact (sequence_spec none_).2.2 i positive inside

theorem IsChar.ne_nil (isChar : IsChar c) : c ≠ [] := by
  rintro rfl
  rcases isChar with ⟨short, -⟩ | ⟨long, -⟩
  · cases short
  · cases long

/-- A well-formed character begins with no byte that stands inside one. -/
theorem IsChar.first (isChar : IsChar c) : ¬ Trails (c.getD 0 0) := by
  rintro ⟨least, most⟩
  rcases isChar with ⟨-, ascii⟩ | ⟨long, sequence⟩
  · exact absurd ascii (UInt8.not_lt.mpr least)
  · have first := (sequence_spec (s := c) (by omega)).2.1
    exact absurd (UInt8.le_trans first most) (by decide)

theorem IsChar.charLength_append (isChar : IsChar c) (s : List UInt8) :
    charLength (c ++ s) = c.length := by
  have positive := length_pos_iff.mpr isChar.ne_nil
  unfold charLength
  rw [getD_append_left positive]
  rcases isChar with ⟨short, ascii⟩ | ⟨long, sequence⟩
  · rw [if_pos ascii, short]
  · have spec := sequence_spec (s := c) (by omega)
    have notAscii : ¬ c.getD 0 0 < 0x80 := fun ascii =>
      absurd (UInt8.lt_of_le_of_lt spec.2.1 ascii) (by decide)
    have whole : utf8SequenceLength (c ++ s) = c.length := by
      have nonzero : c.length ≠ 0 := by omega
      rw [← sequence] at nonzero
      unfold utf8SequenceLength at sequence nonzero ⊢
      rw [getD_append_left positive, getD_append_left (by omega : 1 < c.length)]
      split at sequence
      · omega
      · next lead isLead =>
        simp only [isLead] at nonzero ⊢
        split_ifs at sequence nonzero with outside trail
        · exact absurd rfl nonzero
        · have inside : ¬ (lead.length > (c ++ s).length ∨ c.getD 1 0 < lead.lo ∨
              c.getD 1 0 > lead.hi) := by
            simp only [not_or, length_append] at outside ⊢
            exact ⟨by omega, outside.2⟩
          rw [sequence, take_length] at trail
          rw [if_neg inside, sequence, take_left, if_pos trail]
        · exact absurd rfl nonzero
    rw [if_neg notAscii, whole]
    exact if_neg (by omega)

theorem IsChar.chars_append (isChar : IsChar c) (s : List UInt8) :
    chars (c ++ s) = c :: chars s := by
  have some_ : c ++ s ≠ [] := by simp [isChar.ne_nil]
  rw [chars_of_ne_nil some_, isChar.charLength_append, take_left, drop_left]

theorem chars_eq_cons {rest : List (List UInt8)} (is : chars s = c :: rest) :
    ∃ s', s = c ++ s' ∧ rest = chars s' := by
  have some_ : s ≠ [] := by
    rintro rfl
    rw [chars] at is
    cases is
  rw [chars_of_ne_nil some_] at is
  cases is
  exact ⟨s.drop (charLength s), (take_append_drop _ s).symm, rfl⟩

theorem exists_drop_chars (s : List UInt8) (j : Nat) : ∃ i, (chars s).drop j = chars (s.drop i) := by
  induction j generalizing s with
  | zero => exact ⟨0, rfl⟩
  | succ j ih =>
    by_cases empty : s = []
    · exact ⟨0, by simp [empty, chars]⟩
    · obtain ⟨i, isRest⟩ := ih (s.drop (charLength s))
      refine ⟨charLength s + i, ?_⟩
      rw [chars_of_ne_nil empty, drop_succ_cons, isRest, drop_drop]

/-- A position at no byte inside a sequence is one between characters. -/
theorem drop_chars_of_not_trails (s : List UInt8) (i : Nat)
    (boundary : ∀ b ∈ (s.drop i).head?, ¬ Trails b) :
    ∃ j, (chars s).drop j = chars (s.drop i) := by
  induction s using chars.induct generalizing i with
  | case1 => exact ⟨0, by simp⟩
  | case2 b s ih =>
    by_cases zero : i = 0
    · exact ⟨0, by rw [zero]; rfl⟩
    by_cases inside : i < charLength (b :: s)
    · have le := charLength_le (cons_ne_nil b s)
      have short : i < (b :: s).length := by omega
      have head : ((b :: s).drop i).head? = some ((b :: s).getD i 0) := by
        rw [head?_drop, getD_eq_getElem?_getD, getElem?_eq_getElem short,
          Option.getD_some]
      exact absurd (trails_inside (by omega) inside) (boundary _ head)
    · have later : (b :: s).drop i =
          ((b :: s).drop (charLength (b :: s))).drop (i - charLength (b :: s)) := by
        rw [drop_drop]
        congr 1
        omega
      rw [later] at boundary ⊢
      obtain ⟨j, isRest⟩ := ih _ boundary
      exact ⟨j + 1, by rw [chars, drop_succ_cons, isRest]⟩

end Antb1
