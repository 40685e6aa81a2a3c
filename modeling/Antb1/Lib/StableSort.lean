import Mathlib.Data.List.Sort

/-! The first elements of a stable sort: what may be dropped from a list, and where a list may
be sorted in advance, without changing them. -/
namespace Antb1.Lib

open List

variable {α : Type} {r : α → α → Prop} [DecidableRel r]

section Transitive

variable [IsTrans α r]

theorem orderedInsert_comm {a b : α} (before : r b a) (strict : ¬r a b) (l : List α) :
    orderedInsert r a (orderedInsert r b l) = orderedInsert r b (orderedInsert r a l) := by
  induction l with
  | nil => simp [before, strict]
  | cons m l ih =>
    by_cases bm : r b m <;> by_cases am : r a m
    · simp [bm, am, before, strict]
    · simp [bm, am, strict]
    · exact absurd (IsTrans.trans _ _ _ before am) bm
    · simp [bm, am, ih]

variable [Std.Total r]

theorem foldr_orderedInsert (l s : List α) (a : α) :
    (orderedInsert r a s).foldr (orderedInsert r) l =
      orderedInsert r a (s.foldr (orderedInsert r) l) := by
  induction s with
  | nil => rfl
  | cons b s ih =>
    by_cases ab : r a b
    · simp [ab]
    · have ba : r b a := (Std.Total.total b a).resolve_right ab
      rw [orderedInsert_cons, if_neg ab, foldr_cons, ih, foldr_cons,
        orderedInsert_comm ba ab]

theorem foldr_insertionSort (l xs : List α) :
    (insertionSort r xs).foldr (orderedInsert r) l = xs.foldr (orderedInsert r) l := by
  induction xs with
  | nil => rfl
  | cons a xs ih => rw [insertionSort_cons, foldr_orderedInsert, ih, foldr_cons]

omit [IsTrans α r] [Std.Total r] in
theorem insertionSort_append (xs ys : List α) :
    insertionSort r (xs ++ ys) = xs.foldr (orderedInsert r) (insertionSort r ys) :=
  foldr_append

theorem insertionSort_sorted_append (xs ys : List α) :
    insertionSort r (insertionSort r xs ++ ys) = insertionSort r (xs ++ ys) := by
  rw [insertionSort_append, insertionSort_append, foldr_insertionSort]

omit [Std.Total r] in
/-- An element inserted into a sorted list goes to the same place with and without `y`, before
it where it may. -/
theorem orderedInsert_split {p q : List α} {y : α} (sorted : (p ++ y :: q).Pairwise r) (x : α) :
    ∃ p' q', orderedInsert r x (p ++ q) = p' ++ q' ∧
      orderedInsert r x (p ++ y :: q) = p' ++ y :: q' ∧
      p.length + (if r x y then 1 else 0) ≤ p'.length := by
  induction p with
  | nil =>
    by_cases xy : r x y
    · refine ⟨[x], q, ?_, by simp [xy], by simp [xy]⟩
      cases q with
      | nil => rfl
      | cons z q =>
        have yz : r y z := (pairwise_cons.mp sorted).1 z mem_cons_self
        simp [IsTrans.trans _ _ _ xy yz]
    · exact ⟨[], orderedInsert r x q, rfl, by simp [xy], by simp [xy]⟩
  | cons z p ih =>
    by_cases xz : r x z
    · refine ⟨x :: z :: p, q, by simp [xz], by simp [xz], ?_⟩
      split <;> simp
    · obtain ⟨p', q', without, within, longer⟩ := ih (pairwise_cons.mp sorted).2
      refine ⟨z :: p', q', ?_, ?_, ?_⟩
      · rw [cons_append, orderedInsert_cons, if_neg xz, without, cons_append]
      · rw [cons_append, orderedInsert_cons, if_neg xz, within, cons_append]
      · rw [length_cons, length_cons]
        omega

theorem pairwise_foldr_orderedInsert {l : List α} (sorted : l.Pairwise r) (xs : List α) :
    (xs.foldr (orderedInsert r) l).Pairwise r := by
  induction xs with
  | nil => exact sorted
  | cons x xs ih => exact Pairwise.orderedInsert x _ ih

/-- Where `y` ends up when others are sorted in before it: behind all of them that come first. -/
theorem foldr_orderedInsert_split {l : List α} (sorted : l.Pairwise r) (xs : List α) (y : α) :
    ∃ p q, xs.foldr (orderedInsert r) l = p ++ q ∧
      xs.foldr (orderedInsert r) (orderedInsert r y l) = p ++ y :: q ∧
      xs.countP (r · y) ≤ p.length := by
  induction xs with
  | nil =>
    exact ⟨l.takeWhile (¬r y ·), l.dropWhile (¬r y ·), (takeWhile_append_dropWhile ..).symm,
      orderedInsert_eq_take_drop .., Nat.zero_le _⟩
  | cons x xs ih =>
    obtain ⟨p, q, without, within, count⟩ := ih
    have ordered : (p ++ y :: q).Pairwise r :=
      within ▸ pairwise_foldr_orderedInsert (sorted.orderedInsert y) xs
    obtain ⟨p', q', without', within', longer⟩ := orderedInsert_split ordered x
    refine ⟨p', q', ?_, ?_, ?_⟩
    · rw [foldr_cons, without, without']
    · rw [foldr_cons, within, within']
    · rw [countP_cons]
      simp only [decide_eq_true_eq]
      omega

/-- Two lists with the same first elements once they are sorted. -/
def SameTop (r : α → α → Prop) [DecidableRel r] (n : Nat) (xs ys : List α) : Prop :=
  (insertionSort r xs).take n = (insertionSort r ys).take n

namespace SameTop

variable {n : Nat} {xs ys zs : List α}

omit [IsTrans α r] [Std.Total r] in
theorem refl (n : Nat) (xs : List α) : SameTop r n xs xs := rfl

omit [IsTrans α r] [Std.Total r] in
theorem symm (same : SameTop r n xs ys) : SameTop r n ys xs := Eq.symm same

omit [IsTrans α r] [Std.Total r] in
theorem trans (first : SameTop r n xs ys) (second : SameTop r n ys zs) : SameTop r n xs zs :=
  Eq.trans first second

theorem drop (y : α) (ys : List α) (enough : n ≤ xs.countP (r · y)) :
    SameTop r n (xs ++ y :: ys) (xs ++ ys) := by
  obtain ⟨p, q, without, within, count⟩ :=
    foldr_orderedInsert_split (pairwise_insertionSort r ys) xs y
  have long : n ≤ p.length := enough.trans count
  rw [SameTop, insertionSort_append, insertionSort_append, insertionSort_cons, without, within,
    take_append_of_le_length long, take_append_of_le_length long]

theorem filter (keeps : α → Bool) (ys : List α)
    (enough : ∀ y ∈ ys, keeps y = false → n ≤ xs.countP (r · y)) :
    SameTop r n (xs ++ ys) (xs ++ ys.filter keeps) := by
  induction ys generalizing xs with
  | nil => exact refl n _
  | cons y ys ih =>
    cases kept : keeps y with
    | false =>
      rw [filter_cons_of_neg (by simp [kept])]
      exact (drop y ys (enough y mem_cons_self kept)).trans
        (ih fun z member => enough z (mem_cons_of_mem _ member))
    | true =>
      have rest : SameTop r n ((xs ++ [y]) ++ ys) ((xs ++ [y]) ++ ys.filter keeps) := by
        refine ih fun z member dropped => ?_
        rw [countP_append]
        exact (enough z (mem_cons_of_mem _ member) dropped).trans (Nat.le_add_right _ _)
      rw [filter_cons_of_pos kept]
      simpa using rest

theorem sorted (n : Nat) (xs : List α) : SameTop r n xs ((insertionSort r xs).take n) := by
  rw [SameTop, ((pairwise_insertionSort r xs).sublist (take_sublist n _)).insertionSort_eq,
    take_take, Nat.min_self]

theorem drops (ds ys : List α) (enough : ∀ d ∈ ds, n ≤ xs.countP (r · d)) :
    SameTop r n (xs ++ (ds ++ ys)) (xs ++ ys) := by
  induction ds with
  | nil => exact refl n _
  | cons d ds ih =>
    exact (drop d _ (enough d mem_cons_self)).trans
      (ih fun e member => enough e (mem_cons_of_mem _ member))

theorem take_append (ordered : xs.Pairwise r) (ys : List α) :
    SameTop r n (xs ++ ys) (xs.take n ++ ys) := by
  have split : xs ++ ys = xs.take n ++ (xs.drop n ++ ys) := by
    rw [← append_assoc, take_append_drop]
  rw [split]
  refine drops _ ys fun d member => ?_
  have long : n ≤ xs.length := by
    by_contra short
    rw [drop_eq_nil_of_le (Nat.le_of_not_le short)] at member
    contradiction
  rw [← take_append_drop n xs, pairwise_append] at ordered
  have all : (xs.take n).countP (r · d) = (xs.take n).length :=
    countP_eq_length.mpr fun x inside => by simpa using ordered.2.2 x inside d member
  rw [all, length_take, Nat.min_eq_left long]

theorem append_right (same : SameTop r n xs ys) (zs : List α) :
    SameTop r n (xs ++ zs) (ys ++ zs) := by
  have sorted : ∀ l : List α, SameTop r n (l ++ zs) ((insertionSort r l).take n ++ zs) := by
    intro l
    refine Eq.trans ?_ (take_append (pairwise_insertionSort r l) zs)
    rw [insertionSort_sorted_append]
  refine (sorted xs).trans (Eq.trans ?_ (sorted ys).symm)
  rw [same]

omit [IsTrans α r] [Std.Total r] in
theorem take_orderedInsert (n : Nat) (x : α) (l : List α) :
    (orderedInsert r x l).take n = (orderedInsert r x (l.take n)).take n := by
  induction l generalizing n with
  | nil => simp
  | cons z l ih =>
    cases n with
    | zero => simp
    | succ n =>
      by_cases xz : r x z
      · rw [take_succ_cons, orderedInsert_cons, orderedInsert_cons, if_pos xz, if_pos xz,
          take_succ_cons, take_succ_cons]
        cases n with
        | zero => rfl
        | succ n => rw [take_succ_cons, take_succ_cons, take_take, Nat.min_eq_left n.le_succ]
      · rw [take_succ_cons, orderedInsert_cons, orderedInsert_cons, if_neg xz, if_neg xz,
          take_succ_cons, take_succ_cons, ih]

omit [IsTrans α r] [Std.Total r] in
theorem append_left (same : SameTop r n xs ys) (zs : List α) :
    SameTop r n (zs ++ xs) (zs ++ ys) := by
  rw [SameTop, insertionSort_append, insertionSort_append]
  induction zs with
  | nil => exact same
  | cons z zs ih =>
    rw [foldr_cons, foldr_cons, take_orderedInsert, ih, ← take_orderedInsert]

omit [Std.Total r] in
/-- The elements of a sorted list that come before another are its first. -/
theorem countP_take {l : List α} (sorted : l.Pairwise r) {y : α}
    (enough : n ≤ l.countP (r · y)) : (l.take n).countP (r · y) = n := by
  induction l generalizing n with
  | nil => simpa using (Nat.le_zero.mp enough).symm
  | cons z l ih =>
    cases n with
    | zero => rfl
    | succ n =>
      have first : r z y := by
        by_contra after
        have none : (z :: l).countP (r · y) = 0 := by
          refine countP_eq_zero.mpr fun w member before => after ?_
          rcases mem_cons.mp member with rfl | later
          · exact of_decide_eq_true before
          · exact IsTrans.trans _ _ _ ((pairwise_cons.mp sorted).1 w later)
              (of_decide_eq_true before)
        omega
      rw [countP_cons_of_pos (by simpa using first)] at enough
      rw [take_succ_cons, countP_cons_of_pos (by simpa using first),
        ih (pairwise_cons.mp sorted).2 (by omega)]

/-- An element that comes too late in one list comes too late in the other. -/
theorem enough (same : SameTop r n xs ys) {y : α} (late : n ≤ xs.countP (r · y)) :
    n ≤ ys.countP (r · y) := by
  have first := countP_take (n := n) (pairwise_insertionSort r xs) (y := y)
    ((perm_insertionSort r xs).countP_eq _ ▸ late)
  calc n = ((insertionSort r ys).take n).countP (r · y) := by rw [← same, first]
    _ ≤ (insertionSort r ys).countP (r · y) := (take_sublist n _).countP_le
    _ = ys.countP (r · y) := (perm_insertionSort r ys).countP_eq _

end SameTop

end Transitive

end Antb1.Lib
