import Mathlib.Data.Finset.Max
import Mathlib.Data.Nat.Bitwise

/-! Sets of small numbers as machine words: the word's bits are its members, and the usual loops
over a word visit the subsets of the set and find its least member. -/
namespace Masks

open Finset Nat

variable {w : Nat} {s : BitVec w} {r : Nat} {t set sub : BitVec w}

def members (s : BitVec w) : Finset Nat := (Finset.range w).filter (s.getLsbD · = true)

@[simp] theorem mem_members : r ∈ members s ↔ s.getLsbD r = true := by
  rw [members, mem_filter, mem_range]
  exact and_iff_right_of_imp fun set => BitVec.lt_of_getLsbD set

theorem members_injective : Function.Injective (members (w := w)) := by
  intro s t same
  refine BitVec.eq_of_getLsbD_eq fun r _ => ?_
  rw [Bool.eq_iff_iff, ← mem_members, ← mem_members, same]

@[simp] theorem members_inj : members s = members t ↔ s = t :=
  members_injective.eq_iff

@[simp] theorem members_zero : members (0 : BitVec w) = ∅ := by
  ext r
  simp

theorem members_eq_empty : members s = ∅ ↔ s = 0 := by
  rw [← members_zero, members_inj]

theorem members_nonempty : (members s).Nonempty ↔ s ≠ 0 := by
  rw [nonempty_iff_ne_empty, ne_eq, members_eq_empty]

@[simp] theorem members_or (s t : BitVec w) : members (s ||| t) = members s ∪ members t := by
  ext r
  simp

@[simp] theorem members_and (s t : BitVec w) : members (s &&& t) = members s ∩ members t := by
  ext r
  simp

@[simp] theorem members_and_not (s t : BitVec w) : members (s &&& ~~~t) = members s \ members t := by
  ext r
  simp only [mem_members, mem_sdiff, BitVec.getLsbD_and, BitVec.getLsbD_not, Bool.and_eq_true,
    decide_eq_true_eq, Bool.not_eq_true', Bool.not_eq_true]
  exact ⟨fun both => ⟨both.1, both.2.2⟩, fun both => ⟨both.1, BitVec.lt_of_getLsbD both.1, both.2⟩⟩

theorem mem_members_ite_or {c : Prop} [Decidable c] :
    r ∈ members (if c then s ||| t else s) ↔ r ∈ members s ∨ c ∧ r ∈ members t := by
  by_cases holds : c <;> simp [holds]

theorem mem_members_foldl {α : Type} {c : α → Prop} [DecidablePred c] {f : α → BitVec w}
    {list : List α} :
    r ∈ members (list.foldl (fun out a => if c a then out ||| f a else out) s) ↔
      r ∈ members s ∨ ∃ a ∈ list, c a ∧ r ∈ members (f a) := by
  induction list generalizing s with
  | nil => simp
  | cons a list ih =>
    rw [List.foldl_cons, ih, mem_members_ite_or, List.exists_mem_cons_iff, or_assoc]

def bit (r : Nat) : BitVec w := 1#w <<< r

@[simp] theorem members_bit (inside : r < w) : members (bit r : BitVec w) = {r} := by
  ext i
  rw [bit, mem_members, mem_singleton, ← BitVec.twoPow_eq, BitVec.getLsbD_twoPow]
  simp [inside, eq_comm]

theorem toNat_bit (inside : r < w) : (bit r : BitVec w).toNat = 2 ^ r := by
  rw [bit, ← BitVec.twoPow_eq, BitVec.toNat_twoPow, mod_eq_of_lt]
  exact Nat.pow_lt_pow_right (by decide) inside

theorem toNat_pred (some_ : s ≠ 0) : (s - 1#w).toNat = s.toNat - 1 ∧ 0 < s.toNat := by
  have positive : 0 < s.toNat := by
    rw [Nat.pos_iff_ne_zero]
    exact fun zero => some_ (BitVec.eq_of_toNat_eq (by rw [zero]; rfl))
  have one : (1#w).toNat = 1 := by
    rw [BitVec.toNat_ofNat, mod_eq_of_lt]
    exact lt_of_le_of_lt positive s.isLt
  refine ⟨?_, positive⟩
  rw [BitVec.toNat_sub_of_le, one]
  rw [BitVec.le_def, one]
  exact positive

def below (r : Nat) : BitVec w := 1#w <<< r - 1#w

@[simp] theorem members_below (inside : r < w) : members (below r : BitVec w) = Finset.range r := by
  have some_ : (bit r : BitVec w) ≠ 0 := by
    rw [← members_nonempty, members_bit inside]
    exact singleton_nonempty r
  have value : (below r : BitVec w).toNat = 2 ^ r - 1 := by
    rw [← toNat_bit inside]
    exact (toNat_pred some_).1
  ext i
  rw [mem_members, mem_range, ← BitVec.testBit_toNat, value, testBit_two_pow_sub_one,
    decide_eq_true_eq]

theorem and_bit_ne_zero (inside : r < w) : s &&& bit r ≠ 0 ↔ r ∈ members s := by
  rw [← members_nonempty, members_and, members_bit inside, inter_singleton]
  split_ifs with among <;> simp [among]

theorem members_inter_of_subset : s &&& t = s ↔ members s ⊆ members t := by
  rw [← members_inj, members_and, inter_eq_left]

theorem members_lt (among : r ∈ members s) : r < w :=
  BitVec.lt_of_getLsbD (mem_members.mp among)

def popcount (s : BitVec w) : Nat := (members s).card

theorem popcount_le (s : BitVec w) : popcount s ≤ w := by
  refine (card_filter_le _ _).trans ?_
  rw [card_range]

theorem popcount_lt (part : members s ⊂ members t) : popcount s < popcount t :=
  card_lt_card part

theorem exists_members {set : Finset Nat} (inside : ∀ r ∈ set, r < w) :
    ∃ s : BitVec w, members s = set := by
  induction set using Finset.induction_on with
  | empty => exact ⟨0, members_zero⟩
  | insert r set _ ih =>
    obtain ⟨s, isSet⟩ := ih fun i among => inside i (mem_insert_of_mem among)
    refine ⟨bit r ||| s, ?_⟩
    rw [members_or, members_bit (inside r (mem_insert_self r set)), isSet, insert_eq]

theorem pred_and_lt (some_ : sub ≠ 0) : ((sub - 1#w) &&& set).toNat < sub.toNat := by
  obtain ⟨less, positive⟩ := toNat_pred some_
  rw [BitVec.toNat_and, less]
  exact and_le_left.trans_lt (sub_lt positive (by decide))

/-- The subsets a loop visits that starts at `sub`, keeps what lies in `set` after each decrement
and ends at none. -/
def submasksFrom (set sub : BitVec w) : List (BitVec w) :=
  if _ : sub = 0 then [] else sub :: submasksFrom set ((sub - 1#w) &&& set)
  termination_by sub.toNat
  decreasing_by exact pred_and_lt ‹_›

def submasks (set : BitVec w) : List (BitVec w) := submasksFrom set set

theorem bit_inj {b b' : Bool} {m m' : Nat} (same : Nat.bit b m = Nat.bit b' m') :
    b = b' ∧ m = m' := by
  simp only [bit_val] at same
  cases b <;> cases b' <;> simp only [Bool.toNat_true, Bool.toNat_false] at same <;>
    first | exact ⟨rfl, by omega⟩ | omega

/-- The next subset down is the largest one below: no subset of `set` lies between. -/
theorem le_pred_and (set : Nat) : ∀ sub x : Nat, sub &&& set = sub → x &&& set = x → x < sub →
    x ≤ (sub - 1) &&& set := by
  induction set using Nat.binaryRec with
  | zero =>
    intro sub x subset _ less
    rw [and_zero] at subset
    omega
  | bit c set ih =>
    intro sub x subset inside less
    cases sub using Nat.bitCasesOn with | _ d sub
    cases x using Nat.bitCasesOn with | _ e x
    rw [land_bit] at subset inside
    replace subset := bit_inj subset
    replace inside := bit_inj inside
    cases d with
    | true =>
      have pred : Nat.bit true sub - 1 = Nat.bit false sub := by simp [bit_val]
      rw [pred, land_bit, subset.2]
      simp only [bit_val, Bool.false_and] at less ⊢
      simp at less ⊢
      omega
    | false =>
      have shorter : x < sub := by
        simp only [bit_val] at less
        simp at less
        omega
      have pred : Nat.bit false sub - 1 = Nat.bit true (sub - 1) := by
        simp only [bit_val]
        simp
        omega
      have next := ih sub x subset.2 inside.2 shorter
      have last : e.toNat ≤ c.toNat := by
        cases e <;> cases c <;> simp_all
      rw [pred, land_bit, Bool.true_and]
      simp only [bit_val]
      omega

theorem toNat_subset : members s ⊆ members t ↔ s.toNat &&& t.toNat = s.toNat := by
  rw [← members_inter_of_subset, ← BitVec.toNat_and, BitVec.toNat_inj]

theorem submasksFrom_spec (subset : members sub ⊆ members set) :
    (submasksFrom set sub).Pairwise (fun x y => y.toNat < x.toNat) ∧
      ∀ x, x ∈ submasksFrom set sub ↔ x ≠ 0 ∧ members x ⊆ members set ∧ x.toNat ≤ sub.toNat := by
  induction sub using submasksFrom.induct set with
  | case1 =>
    rw [submasksFrom, dif_pos rfl]
    refine ⟨.nil, fun x => ⟨nofun, ?_⟩⟩
    rintro ⟨some_, -, none_⟩
    exact absurd (BitVec.eq_of_toNat_eq (le_zero.mp none_)) some_
  | case2 sub some_ ih =>
    obtain ⟨less, positive⟩ := toNat_pred some_
    obtain ⟨sorted, visited⟩ := ih (by rw [members_and]; exact inter_subset_right)
    rw [submasksFrom, dif_neg some_]
    constructor
    · refine .cons (fun x among => ?_) sorted
      exact ((visited x).mp among).2.2.trans_lt (pred_and_lt some_)
    · intro x
      rw [List.mem_cons, visited]
      constructor
      · rintro (rfl | ⟨isSome, inside, bound⟩)
        · exact ⟨some_, subset, le_rfl⟩
        · exact ⟨isSome, inside, bound.trans (pred_and_lt some_).le⟩
      · rintro ⟨isSome, inside, bound⟩
        rcases lt_or_eq_of_le bound with shorter | same
        · refine .inr ⟨isSome, inside, ?_⟩
          rw [BitVec.toNat_and, less]
          exact le_pred_and _ _ _ (toNat_subset.mp subset) (toNat_subset.mp inside) shorter
        · exact .inl (BitVec.eq_of_toNat_eq same)

theorem mem_submasks {set x : BitVec w} : x ∈ submasks set ↔ x ≠ 0 ∧ members x ⊆ members set := by
  rw [submasks, (submasksFrom_spec subset_rfl).2]
  refine and_congr_right fun _ => and_iff_left_of_imp fun inside => ?_
  rw [← toNat_subset.mp inside]
  exact and_le_right

theorem nodup_submasks (set : BitVec w) : (submasks set).Nodup := by
  refine (submasksFrom_spec subset_rfl).1.imp fun less same => ?_
  rw [same] at less
  exact lt_irrefl _ less

/-- The place of the only bit that a word has in common with its negation. -/
def lowest (s : BitVec w) : Nat := Nat.log2 (s &&& (~~~s + 1#w)).toNat

theorem lowest_spec (some_ : s ≠ 0) : lowest s ∈ members s ∧ ∀ r ∈ members s, lowest s ≤ r := by
  have nonempty := members_nonempty.mpr some_
  have least := min'_mem _ nonempty
  have inside := members_lt least
  have isBit : s &&& (~~~s + 1#w) = bit ((members s).min' nonempty) := by
    rw [← members_inj, members_bit inside, ← BitVec.neg_eq_not_add]
    ext r
    rw [mem_members, BitVec.getLsbD_and, BitVec.getLsbD_neg, mem_singleton]
    constructor
    · intro both
      rw [Bool.and_eq_true] at both
      have among := mem_members.mpr both.1
      refine le_antisymm ?_ (min'_le _ r among)
      by_contra more
      have earlier : ∃ j < r, s.getLsbD j = true := ⟨_, not_le.mp more, mem_members.mp least⟩
      have second := both.2
      rw [both.1, decide_eq_true (members_lt among), decide_eq_true earlier] at second
      exact absurd second (by decide)
    · rintro rfl
      have none_ : ¬ ∃ j < (members s).min' nonempty, s.getLsbD j = true := by
        rintro ⟨j, less, among⟩
        exact absurd (min'_le _ j (mem_members.mpr among)) (not_le.mpr less)
      rw [mem_members.mp least, decide_eq_false none_, Bool.and_false, Bool.xor_false]
      rfl
  have isLowest : lowest s = (members s).min' nonempty := by
    rw [lowest, isBit, toNat_bit inside, log2_two_pow]
  rw [isLowest]
  exact ⟨least, fun r among => min'_le _ r among⟩

end Masks
