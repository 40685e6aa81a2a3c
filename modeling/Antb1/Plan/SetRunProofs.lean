import Antb1.Plan.SetOperationBinder

/-! Runs of bags: how often a run has a row is its term's value of the operands'
counts, a run has no row of its own, and a map that merges no rows commutes with it. -/
namespace Antb1.Plan.SetOperationBinder

open Sql Bag List

section Runs

variable {Element : Type} [DecidableEq Element]

theorem foldRun_union_all (bags : List (Multiset Element)) : foldRun .union true bags = bags.sum := by
  cases bags with
  | nil => rfl
  | cons first rest =>
    have folded : ∀ start : Multiset Element,
        rest.foldl (SetOp.bag .union true) start = start + rest.sum := by
      induction rest with
      | nil => simp
      | cons next rest ih =>
        intro start
        rw [foldl_cons, ih, sum_cons]
        exact Multiset.add_assoc ..
    exact folded first

section Counts

variable (x : Element) {start : Multiset Element}

section

variable (rest : List (Multiset Element)) (once : presence (start.count x) = start.count x)
include once

theorem count_foldl_union :
    (rest.foldl (SetOp.bag .union false) start).count x =
      if 0 < start.count x ∨ ∃ n ∈ rest.map (Multiset.count x), 0 < n then 1 else 0 := by
  induction rest generalizing start with
  | nil =>
    simp only [foldl_nil, map_nil, not_mem_nil, false_and, exists_false, or_false]
    exact once.symm
  | cons next rest ih =>
    have counted : (SetOp.bag .union false start next).count x =
        presence (start.count x + next.count x) := count_unionDistinct ..
    rw [foldl_cons, ih (by rw [counted, presence_presence]), counted]
    simp only [presence_pos, Nat.add_pos_iff_pos_or_pos, map_cons, mem_cons,
      exists_eq_or_imp, or_assoc]

theorem count_foldl_intersect :
    (rest.foldl (SetOp.bag .intersect false) start).count x =
      if 0 < start.count x ∧ ∀ n ∈ rest.map (Multiset.count x), 0 < n then 1 else 0 := by
  induction rest generalizing start with
  | nil =>
    simp only [foldl_nil, map_nil, not_mem_nil, false_implies, implies_true,
      and_true]
    exact once.symm
  | cons next rest ih =>
    have counted : (SetOp.bag .intersect false start next).count x =
        presence (min (start.count x) (next.count x)) := count_intersectDistinct ..
    rw [foldl_cons, ih (by rw [counted, presence_presence]), counted]
    simp only [presence_pos, Nat.lt_min, map_cons, mem_cons, forall_eq_or_imp, and_assoc]

theorem count_foldl_except :
    (rest.foldl (SetOp.bag .except false) start).count x =
      if 0 < start.count x ∧ ∀ n ∈ rest.map (Multiset.count x), n = 0 then 1 else 0 := by
  induction rest generalizing start with
  | nil =>
    simp only [foldl_nil, map_nil, not_mem_nil, false_implies, implies_true,
      and_true]
    exact once.symm
  | cons next rest ih =>
    have counted : (SetOp.bag .except false start next).count x =
        if next.count x = 0 then presence (start.count x) else 0 := count_exceptDistinct ..
    have once' : presence ((SetOp.bag .except false start next).count x) =
        (SetOp.bag .except false start next).count x := by
      rw [counted]
      split <;> simp
    rw [foldl_cons, ih once', counted]
    by_cases absent : next.count x = 0 <;> simp [absent, presence_pos]

end

theorem count_foldl_intersectAll (rest : List (Multiset Element)) (start : Multiset Element) :
    (rest.foldl (SetOp.bag .intersect true) start).count x =
      ((start.count x :: rest.map (Multiset.count x)).min?).getD 0 := by
  induction rest generalizing start with
  | nil => simp
  | cons next rest ih =>
    have counted : (SetOp.bag .intersect true start next).count x =
        min (start.count x) (next.count x) := Multiset.count_inter ..
    rw [foldl_cons, ih, counted, map_cons]
    simp only [List.min?_cons', foldl_cons]

theorem count_foldl_exceptAll (rest : List (Multiset Element)) (start : Multiset Element) :
    (rest.foldl (SetOp.bag .except true) start).count x =
      start.count x - (rest.map (Multiset.count x)).sum := by
  induction rest generalizing start with
  | nil => simp
  | cons next rest ih =>
    have counted : (SetOp.bag .except true start next).count x =
        start.count x - next.count x := Multiset.count_sub ..
    rw [foldl_cons, ih, counted, map_cons, sum_cons, Nat.sub_sub]

/-- A run's count of a row is its term's value of the operands' counts. -/
theorem count_foldRun {op : SetOp} {all : Bool} (term : ¬ (op = .union ∧ all = true))
    {bags : List (Multiset Element)} (two : 2 ≤ bags.length) :
    (foldRun op all bags).count x = termValue (termKind op all) (bags.map (Multiset.count x)) := by
  match bags, two with
  | first :: second :: rest, _ =>
    simp only [foldRun, foldl_cons]
    match op, all with
    | .union, true => exact absurd ⟨rfl, rfl⟩ term
    | .union, false =>
      have counted := count_unionDistinct first second x
      rw [count_foldl_union x rest (by simp [SetOp.bag, counted])]
      simp [SetOp.bag, counted, termKind, termValue, presence_pos, or_assoc]
    | .intersect, false =>
      have counted := count_intersectDistinct first second x
      rw [count_foldl_intersect x rest (by simp [SetOp.bag, counted])]
      simp [SetOp.bag, counted, termKind, termValue, presence_pos, and_assoc]
    | .intersect, true => exact count_foldl_intersectAll x (second :: rest) first
    | .except, false =>
      have counted : (SetOp.bag .except false first second).count x =
          if second.count x = 0 then presence (first.count x) else 0 := count_exceptDistinct ..
      rw [count_foldl_except x rest (by rw [counted]; split <;> simp), counted]
      by_cases absent : second.count x = 0 <;> simp [termKind, termValue, absent, presence_pos]
    | .except, true => exact count_foldl_exceptAll x (second :: rest) first

end Counts

theorem mem_foldRun {op : SetOp} {all : Bool} {bags : List (Multiset Element)} {x : Element}
    (member : x ∈ foldRun op all bags) : ∃ bag ∈ bags, x ∈ bag := by
  have step : ∀ a b : Multiset Element, x ∈ op.bag all a b → x ∈ a ∨ x ∈ b := by
    intro a b inside
    match op, all with
    | .union, true => exact Multiset.mem_add.mp inside
    | .union, false => exact Multiset.mem_add.mp (Multiset.mem_dedup.mp inside)
    | .intersect, true => exact .inl (Multiset.mem_inter.mp inside).1
    | .intersect, false => exact .inl (Multiset.mem_inter.mp (Multiset.mem_dedup.mp inside)).1
    | .except, true => exact .inl (Multiset.mem_of_le (Multiset.sub_le_self ..) inside)
    | .except, false => exact .inl (Multiset.mem_filter.mp (Multiset.mem_dedup.mp inside)).1
  cases bags with
  | nil => exact absurd member (Multiset.notMem_zero x)
  | cons first rest =>
    have folded : ∀ start : Multiset Element, x ∈ rest.foldl (op.bag all) start →
        x ∈ start ∨ ∃ bag ∈ rest, x ∈ bag := by
      clear member
      induction rest with
      | nil => exact fun start inside => .inl inside
      | cons next rest ih =>
        intro start inside
        rcases ih _ inside with inside | ⟨bag, among, inside⟩
        · rcases step _ _ inside with inside | inside
          · exact .inl inside
          · exact .inr ⟨next, by simp, inside⟩
        · exact .inr ⟨bag, by simp [among], inside⟩
    rcases folded first member with inside | ⟨bag, among, inside⟩
    · exact ⟨first, by simp, inside⟩
    · exact ⟨bag, by simp [among], inside⟩

theorem map_foldRun {Other : Type} [DecidableEq Other] {f : Element → Other}
    (injective : Function.Injective f) (op : SetOp) (all : Bool)
    (bags : List (Multiset Element)) :
    (foldRun op all bags).map f = foldRun op all (bags.map (Multiset.map f)) := by
  have step : ∀ a b : Multiset Element,
      (op.bag all a b).map f = op.bag all (a.map f) (b.map f) := by
    intro a b
    match op, all with
    | .union, true => exact Multiset.map_add ..
    | .union, false => rw [SetOp.bag, SetOp.bag, map_unionDistinct injective]
    | .intersect, true => exact map_inter injective a b
    | .intersect, false => rw [SetOp.bag, SetOp.bag, map_intersectDistinct injective]
    | .except, true => exact map_sub injective a b
    | .except, false => rw [SetOp.bag, SetOp.bag, map_exceptDistinct injective]
  cases bags with
  | nil => rfl
  | cons first rest =>
    have folded : ∀ start : Multiset Element, (rest.foldl (op.bag all) start).map f =
        (rest.map (Multiset.map f)).foldl (op.bag all) (start.map f) := by
      induction rest with
      | nil => simp
      | cons next rest ih => simp only [foldl_cons, map_cons, ih, step, implies_true]
    exact folded first

end Runs

end Antb1.Plan.SetOperationBinder
