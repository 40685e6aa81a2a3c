import Mathlib.Data.Finset.Lattice.Lemmas
import Antb1.Lib.Results
import Antb1.Plan.GroupingSets
import Antb1.Plan.SemanticsProofs

/-! Grouping-set syntax expands to the standard's sets: `elementSets` and `crossSets` say
which sets a list of elements means, `bindGroupBy` gives them or refuses too many. Keys are
numbered by their position in the final list of keys. -/
namespace Antb1.Plan

namespace GroupingSets

open Sql Lib
open List hiding set

variable {keys later : List Expr} {meaning meaning' : List (Finset Nat)}

section Meaning

variable {α : Type} (number : α → Nat)

def keySet (exprs : List α) : Finset Nat := (exprs.map number).toFinset

def itemSet (items : List (GroupingItem α)) : Finset Nat :=
  keySet number (items.flatMap GroupingItem.exprs)

mutual

/-- The sets of one element: a key or a composite is one set, ROLLUP its prefixes, CUBE every
subset of its items, GROUPING SETS the sets of its members. -/
def elementSets : GroupingElement α → List (Finset Nat)
  | .expr one => [keySet number [one]]
  | .row exprs => [keySet number exprs]
  | .empty => [∅]
  | .rollup items => items.inits.map (itemSet number)
  | .cube items => (depthFirst items).map (itemSet number)
  | .sets first rest => elementSets first ++ memberSets rest

def memberSets : List (GroupingElement α) → List (Finset Nat)
  | [] => []
  | element :: rest => elementSets element ++ memberSets rest

end

mutual

theorem length_elementSets (other : α → Nat) : (element : GroupingElement α) →
    (elementSets number element).length = (elementSets other element).length
  | .expr _ | .row _ | .empty => rfl
  | .rollup _ | .cube _ => by simp [elementSets]
  | .sets first rest => by
    simp [elementSets, length_elementSets other first, length_memberSets other rest]

theorem length_memberSets (other : α → Nat) : (elements : List (GroupingElement α)) →
    (memberSets number elements).length = (memberSets other elements).length
  | [] => rfl
  | element :: rest => by
    simp [memberSets, length_elementSets other element, length_memberSets other rest]

end

/-- The cross product of the elements' sets, earlier elements varying slowest. -/
def crossSets : List (GroupingElement α) → List (Finset Nat)
  | [] => [∅]
  | element :: rest => (elementSets number element).flatMap fun set =>
    (crossSets rest).map (set ∪ ·)

theorem elementSets_ne_nil : (element : GroupingElement α) → elementSets number element ≠ []
  | .expr _ | .row _ | .empty => by simp [elementSets]
  | .rollup items => by cases items <;> simp [elementSets]
  | .cube items => by
    obtain ⟨others, same⟩ := depthFirst_eq_cons items
    simp [elementSets, same]
  | .sets first rest => by simp [elementSets, elementSets_ne_nil first]

theorem crossSets_ne_nil (elements : List (GroupingElement α)) : crossSets number elements ≠ [] := by
  induction elements with
  | nil => simp [crossSets]
  | cons element rest ih =>
    obtain ⟨set, member⟩ := exists_mem_of_ne_nil _ (elementSets_ne_nil number element)
    obtain ⟨other, among⟩ := exists_mem_of_ne_nil _ ih
    exact ne_nil_of_mem (mem_flatMap.mpr ⟨set, member, mem_map.mpr ⟨other, among, rfl⟩⟩)

theorem length_crossSets_cons (element : GroupingElement α) (rest : List (GroupingElement α)) :
    (crossSets number (element :: rest)).length =
      (elementSets number element).length * (crossSets number rest).length := by
  simp [crossSets, length_flatMap]

end Meaning

def Denotes (sets : List (List Nat)) (meaning : List (Finset Nat)) : Prop :=
  sets.map List.toFinset = meaning ∧ ∀ set ∈ sets, set.Pairwise (· < ·)

theorem Denotes.length {sets : List (List Nat)} (denotes : Denotes sets meaning) :
    sets.length = meaning.length := by
  rw [← denotes.1, List.length_map]

theorem Denotes.append {sets others : List (List Nat)} (denotes : Denotes sets meaning)
    (denotes' : Denotes others meaning') : Denotes (sets ++ others) (meaning ++ meaning') := by
  constructor
  · rw [map_append, denotes.1, denotes'.1]
  · intro set member
    exact (mem_append.mp member).elim (denotes.2 set) (denotes'.2 set)

theorem denotes_singleton (set : List Nat) : Denotes [normalized set] [set.toFinset] := by
  constructor
  · simp
  · simpa using normalized_ascending set

/-- CUBE's loop gives every subset of the elements left but the empty one. -/
theorem subsetsFrom_denotes (current : List Nat) (elements : List (List Nat)) :
    Denotes (subsetsFrom current elements)
      ((depthFirst elements).tail.map fun chosen => (current ++ chosen.flatten).toFinset) := by
  induction elements generalizing current with
  | nil => exact ⟨rfl, by simp [subsetsFrom]⟩
  | cons element rest ih =>
    have taken := (denotes_singleton (current ++ element)).append (ih (current ++ element))
    have both := taken.append (ih current)
    obtain ⟨others, same⟩ := depthFirst_eq_cons rest
    simpa [depthFirst, subsetsFrom, same, Function.comp_def] using both

theorem subsets_denotes (elements : List (List Nat)) :
    Denotes (subsets elements) ((depthFirst elements).map fun chosen => chosen.flatten.toFinset) := by
  have all := (denotes_singleton []).append (subsetsFrom_denotes [] elements)
  obtain ⟨others, same⟩ := depthFirst_eq_cons elements
  simpa [subsets, same] using all

theorem product_denotes {sets items : List (List Nat)} (denotes : Denotes sets meaning)
    (denotes' : Denotes items meaning') :
    Denotes (product sets items)
      (meaning.flatMap fun set => meaning'.map fun item => set ∪ item) := by
  obtain ⟨rfl, _⟩ := denotes
  obtain ⟨rfl, _⟩ := denotes'
  constructor
  · simp [product, map_flatMap, flatMap_map, Function.comp_def]
  · intro set member
    simp only [product, mem_flatMap, mem_map] at member
    obtain ⟨_, _, _, _, rfl⟩ := member
    exact normalized_ascending _

section Keys

variable {α : Type} (bindItem : α → Except BindFailure (Option Expr))

def boundTo (expr : α) : Expr :=
  match bindItem expr with
  | .ok (some t) => t
  | _ => .null

def BindsAll (exprs : List α) : Prop := ∀ expr ∈ exprs, ∃ t, bindItem expr = .ok (some t)

def keysAfter (keys : List Expr) (exprs : List α) : List Expr :=
  exprs.foldl (fun keys expr => (add keys (boundTo bindItem expr)).2) keys

/-- The number of an item's key: its position in the final list. -/
def number (keys : List Expr) (expr : α) : Nat :=
  keys.findIdx fun key => key.same (boundTo bindItem expr)

variable {bindItem} {exprs : List α}

theorem BindsAll.bound (binds : BindsAll bindItem exprs) {expr : α} (member : expr ∈ exprs) :
    bindItem expr = .ok (some (boundTo bindItem expr)) := by
  obtain ⟨t, bound⟩ := binds expr member
  rw [boundTo, bound]

theorem bindsAll_append {exprs others : List α} :
    BindsAll bindItem (exprs ++ others) ↔ BindsAll bindItem exprs ∧ BindsAll bindItem others := by
  simp [BindsAll, or_imp, forall_and]

theorem keysAfter_append (keys : List Expr) (exprs others : List α) :
    keysAfter bindItem keys (exprs ++ others) =
      keysAfter bindItem (keysAfter bindItem keys exprs) others := foldl_append

theorem add_extends (keys : List Expr) (t : Expr) : keys <+: (add keys t).2 := by
  unfold add
  split
  · exact List.prefix_rfl
  · exact prefix_append keys [t]

theorem keysAfter_extends (keys : List Expr) (exprs : List α) :
    keys <+: keysAfter bindItem keys exprs := by
  induction exprs generalizing keys with
  | nil => exact List.prefix_rfl
  | cons expr rest ih => exact (add_extends keys _).trans (ih _)

theorem findIdx_of_extends (extends_ : keys <+: later) {p : Expr → Bool}
    (found : keys.findIdx p < keys.length) : later.findIdx p = keys.findIdx p := by
  obtain ⟨more, rfl⟩ := extends_
  rw [findIdx_append, if_pos found]

/-- What `add` returns is the position of the key in the final list. -/
theorem add_number {t : Expr} (extends_ : (add keys t).2 <+: later) :
    later.findIdx (fun key => key.same t) = (add keys t).1 ∧ (add keys t).1 < later.length := by
  unfold add at *
  cases found : keys.findIdx? fun key => key.same t with
  | some k =>
    rw [found] at extends_
    have inside := findIdx?_eq_some_iff_findIdx_eq.mp found
    have first := findIdx_of_extends extends_ (inside.2 ▸ inside.1)
    exact ⟨first.trans inside.2, inside.1.trans_le extends_.length_le⟩
  | none =>
    rw [found] at extends_
    have absent : keys.findIdx (fun key => key.same t) = keys.length :=
      findIdx?_eq_none_iff_findIdx_eq.mp found
    have last : (keys ++ [t]).findIdx (fun key => key.same t) = keys.length := by
      rw [findIdx_append, absent, if_neg (lt_irrefl _)]
      simp [findIdx_cons, same_refl]
    have first := findIdx_of_extends extends_ (p := fun key => key.same t) (by simp [last])
    exact ⟨first.trans last, Nat.lt_of_lt_of_le (by simp) extends_.length_le⟩

theorem keysOf_spec (place : String) (binds : BindsAll bindItem exprs) (keys : List Expr) :
    ∃ numbers, keysOf bindItem place exprs keys = .ok (numbers, keysAfter bindItem keys exprs) ∧
      ∀ later, keysAfter bindItem keys exprs <+: later →
        numbers = exprs.map (number bindItem later) := by
  induction exprs generalizing keys with
  | nil => exact ⟨[], rfl, fun _ _ => rfl⟩
  | cons expr rest ih =>
    have bound := binds.bound mem_cons_self
    obtain ⟨numbers, ok, are⟩ := ih (fun e member => binds e (mem_cons_of_mem expr member))
      (add keys (boundTo bindItem expr)).2
    refine ⟨(add keys (boundTo bindItem expr)).1 :: numbers, ?_, fun later extends_ => ?_⟩
    · rw [keysOf, keyOf, bound]
      simp only [Lib.ok_bind, ok]
      rfl
    · have here := (keysAfter_extends _ rest).trans extends_
      rw [map_cons, number, (add_number here).1, are later extends_]

theorem number_lt (extends_ : keysAfter bindItem keys exprs <+: later) {expr : α}
    (member : expr ∈ exprs) : number bindItem later expr < later.length := by
  induction exprs generalizing keys with
  | nil => cases member
  | cons first rest ih =>
    rcases mem_cons.mp member with rfl | among
    · have here := add_number ((keysAfter_extends _ rest).trans extends_)
      rw [number, here.1]
      exact here.2
    · exact ih extends_ among

theorem number_surjective {k : Nat} (new : keys.length ≤ k)
    (inside : k < (keysAfter bindItem keys exprs).length) :
    ∃ expr ∈ exprs, number bindItem (keysAfter bindItem keys exprs) expr = k := by
  induction exprs generalizing keys with
  | nil => exact absurd inside (Nat.not_lt.mpr new)
  | cons first rest ih =>
    have here := add_number (@keysAfter_extends α bindItem (add keys (boundTo bindItem first)).2 rest)
    by_cases later : (add keys (boundTo bindItem first)).2.length ≤ k
    · obtain ⟨expr, member, same⟩ := ih later inside
      exact ⟨expr, mem_cons_of_mem first member, same⟩
    · refine ⟨first, mem_cons_self, here.1.trans ?_⟩
      unfold add at later ⊢
      split at later
      · exact absurd new later
      · rename_i absent
        simp only [length_append, length_singleton] at later ⊢
        omega

end Keys

section Expansion

variable {α : Type} {bindItem : α → Except BindFailure (Option Expr)}
  {items : List (GroupingItem α)}

variable (bindItem) in
/-- An expansion gives sets that stand for `meaning` and the keys after its items, whatever
keys come later. -/
def Gives (keys : List Expr) (exprs : List α)
    (expansion : Except BindFailure (List (List Nat) × List Expr))
    (meaning : (α → Nat) → List (Finset Nat)) : Prop :=
  ∃ sets, expansion = .ok (sets, keysAfter bindItem keys exprs) ∧
    ∀ later, keysAfter bindItem keys exprs <+: later →
      Denotes sets (meaning (number bindItem later))

variable (bindItem) in
def Expands (keys : List Expr) (exprs : List α)
    (expansion : Except BindFailure (List (List Nat) × List Expr))
    (meaning : (α → Nat) → List (Finset Nat)) : Prop :=
  Gives bindItem keys exprs expansion meaning ∨
    expansion = .error limitError ∧ ∀ number, kMaxGroupingSets < (meaning number).length

section

variable (binds : BindsAll bindItem (items.flatMap GroupingItem.exprs))
include binds

theorem rollupSets_gives (taken : List Nat) (keys : List Expr) :
    Gives bindItem keys (items.flatMap GroupingItem.exprs) (rollupSets bindItem taken items keys)
      fun number => items.inits.tail.map fun chosen =>
        (taken ++ (chosen.flatMap GroupingItem.exprs).map number).toFinset := by
  induction items generalizing taken keys with
  | nil => exact ⟨[], rfl, fun _ _ => ⟨rfl, by simp⟩⟩
  | cons item rest ih =>
    rw [flatMap_cons, bindsAll_append] at binds
    obtain ⟨numbers, ok, are⟩ := keysOf_spec "in ROLLUP" binds.1 keys
    obtain ⟨sets, okRest, denotes⟩ := ih binds.2 (taken ++ numbers)
      (keysAfter bindItem keys item.exprs)
    rw [flatMap_cons]
    refine ⟨normalized (taken ++ numbers) :: sets, ?_, fun later extends_ => ?_⟩
    · rw [rollupSets, ok]
      simp only [Lib.ok_bind, okRest, keysAfter_append]
    · rw [keysAfter_append] at extends_
      have here := (keysAfter_extends _ _).trans extends_
      have first := denotes_singleton (taken ++ numbers)
      have all := first.append (denotes later extends_)
      cases rest <;> simpa [are later here, Function.comp_def] using all

theorem cubeElements_spec (keys : List Expr) :
    ∃ elements, cubeElements bindItem items keys =
        .ok (elements, keysAfter bindItem keys (items.flatMap GroupingItem.exprs)) ∧
      elements.length = items.length ∧
      ∀ later, keysAfter bindItem keys (items.flatMap GroupingItem.exprs) <+: later →
        elements = items.map fun item => item.exprs.map (number bindItem later) := by
  induction items generalizing keys with
  | nil => exact ⟨[], rfl, rfl, fun _ _ => rfl⟩
  | cons item rest ih =>
    rw [flatMap_cons, bindsAll_append] at binds
    obtain ⟨numbers, ok, are⟩ := keysOf_spec "in CUBE" binds.1 keys
    obtain ⟨elements, okRest, length, areRest⟩ := ih binds.2 (keysAfter bindItem keys item.exprs)
    rw [flatMap_cons]
    refine ⟨numbers :: elements, ?_, by simp [length], fun later extends_ => ?_⟩
    · rw [cubeElements, ok]
      simp only [Lib.ok_bind, okRest, keysAfter_append]
    · rw [keysAfter_append] at extends_
      have here := (keysAfter_extends _ _).trans extends_
      rw [map_cons, ← are later here, ← areRest later extends_]

theorem cube_expands {place : String} (keys : List Expr) :
    Expands bindItem keys (items.flatMap GroupingItem.exprs)
      (expand bindItem place (.cube items) keys)
      fun number => (depthFirst items).map (itemSet number) := by
  obtain ⟨elements, ok, length, are⟩ := cubeElements_spec binds keys
  rw [expand, ok]
  simp only [Lib.ok_bind]
  split_ifs with many
  · refine .inr ⟨rfl, fun _ => ?_⟩
    rw [List.length_map, length_depthFirst, ← length]
    exact Nat.lt_of_lt_of_le (by decide : kMaxGroupingSets < 2 ^ 16)
      (Nat.pow_le_pow_right (by decide) many)
  · refine .inl ⟨subsets elements, rfl, fun later extends_ => ?_⟩
    have denotes := subsets_denotes elements
    rw [are later extends_, depthFirst_map, List.map_map] at denotes
    rw [are later extends_]
    convert denotes using 2
    funext chosen
    rw [itemSet, keySet, map_flatMap, flatMap_def]
    rfl

end

variable (bindItem) in
/-- What the members of GROUPING SETS add to `sets`. -/
def ExpandsAfter (sets : List (List Nat)) (keys : List Expr) (exprs : List α)
    (expansion : Except BindFailure (List (List Nat) × List Expr))
    (meaning : (α → Nat) → List (Finset Nat)) : Prop :=
  (∃ new, expansion = .ok (sets ++ new, keysAfter bindItem keys exprs) ∧
    ∀ later, keysAfter bindItem keys exprs <+: later → Denotes new (meaning (number bindItem later))) ∨
  expansion = .error limitError ∧ ∀ number, kMaxGroupingSets < sets.length + (meaning number).length

theorem expandsAfter_cons {element : GroupingElement α} {rest : List (GroupingElement α)}
    {keys : List Expr}
    (first : Expands bindItem keys element.exprs (expand bindItem "in GROUPING SETS" element keys)
      fun number => elementSets number element)
    (others : ∀ sets keys, ExpandsAfter bindItem sets keys (groupingExprs rest)
      (expandSets bindItem sets rest keys) fun number => memberSets number rest)
    (sets : List (List Nat)) :
    ExpandsAfter bindItem sets keys (element.exprs ++ groupingExprs rest)
      (expandSets bindItem sets (element :: rest) keys)
      fun number => elementSets number element ++ memberSets number rest := by
  rw [expandSets]
  rcases first with ⟨inner, ok, denotes⟩ | ⟨refused, many⟩
  · rw [ok]
    simp only [Lib.ok_bind]
    have length : ∀ number, inner.length = (elementSets number element).length :=
      fun _ => (denotes _ List.prefix_rfl).length.trans (length_elementSets _ _ element)
    split_ifs with many
    · refine .inr ⟨rfl, fun number => ?_⟩
      rw [length_append, ← length number]
      omega
    · rcases others (sets ++ inner) (keysAfter bindItem keys element.exprs) with
        ⟨new, okRest, denotesRest⟩ | ⟨refused, more⟩
      · refine .inl ⟨inner ++ new, by rw [okRest, keysAfter_append, append_assoc],
          fun later extends_ => ?_⟩
        rw [keysAfter_append] at extends_
        exact (denotes later ((keysAfter_extends _ _).trans extends_)).append
          (denotesRest later extends_)
      · refine .inr ⟨refused, fun number => ?_⟩
        have above : kMaxGroupingSets < (sets ++ inner).length + (memberSets number rest).length :=
          more number
        rw [length_append, ← length number]
        rw [length_append] at above
        omega
  · refine .inr ⟨?_, fun number => ?_⟩
    · rw [refused]
      rfl
    · have above : kMaxGroupingSets < (elementSets number element).length := many number
      rw [length_append]
      omega

mutual

theorem expand_expands (place : String) : (element : GroupingElement α) → (keys : List Expr) →
    BindsAll bindItem element.exprs →
    Expands bindItem keys element.exprs (expand bindItem place element keys)
      fun number => elementSets number element
  | .expr one, keys, binds => by
    rw [GroupingElement.exprs] at binds ⊢
    obtain ⟨numbers, ok, are⟩ := keysOf_spec place binds keys
    rw [expand, ok]
    refine .inl ⟨[normalized numbers], rfl, fun later extends_ => ?_⟩
    simp only [elementSets, keySet, ← are later extends_]
    exact denotes_singleton numbers
  | .row exprs, keys, binds => by
    rw [GroupingElement.exprs] at binds ⊢
    obtain ⟨numbers, ok, are⟩ := keysOf_spec "in a composite grouping set" binds keys
    rw [expand, ok]
    refine .inl ⟨[normalized numbers], rfl, fun later extends_ => ?_⟩
    simp only [elementSets, keySet, ← are later extends_]
    exact denotes_singleton numbers
  | .empty, keys, _ => .inl ⟨[normalized []], rfl, fun _ _ => denotes_singleton []⟩
  | .rollup items, keys, binds => by
    obtain ⟨sets, ok, denotes⟩ := rollupSets_gives binds [] keys
    rw [expand, ok]
    refine .inl ⟨[] :: sets, rfl, fun later extends_ => ?_⟩
    have all := (denotes_singleton []).append (denotes later extends_)
    cases items <;> simpa [elementSets, itemSet, keySet, normalized, unique, Function.comp_def] using all
  | .cube items, keys, binds => cube_expands binds keys
  | .sets first rest, keys, binds => by
    rw [GroupingElement.exprs, bindsAll_append] at binds
    have members := expandsAfter_cons (expand_expands "in GROUPING SETS" first keys binds.1)
      (fun sets keys => expandSets_expands rest sets keys binds.2) []
    simpa [ExpandsAfter, Expands, Gives, expand, expandSets, elementSets, GroupingElement.exprs]
      using members

theorem expandSets_expands : (elements : List (GroupingElement α)) → (sets : List (List Nat)) →
    (keys : List Expr) → BindsAll bindItem (groupingExprs elements) →
    ExpandsAfter bindItem sets keys (groupingExprs elements) (expandSets bindItem sets elements keys)
      fun number => memberSets number elements
  | [], sets, keys, _ => .inl ⟨[], by simp [expandSets, groupingExprs, keysAfter],
      fun _ _ => ⟨rfl, by simp⟩⟩
  | element :: rest, sets, keys, binds => by
    rw [groupingExprs, bindsAll_append] at binds
    exact expandsAfter_cons (expand_expands "in GROUPING SETS" element keys binds.1)
      (fun sets keys => expandSets_expands rest sets keys binds.2) sets

end

/-- The sets of some items crossed with those of the items left. -/
def crossWith (number : α → Nat) (before : List (Finset Nat)) (elements : List (GroupingElement α)) :
    List (Finset Nat) :=
  before.flatMap fun set => (crossSets number elements).map (set ∪ ·)

theorem length_crossWith (number : α → Nat) (before : List (Finset Nat))
    (elements : List (GroupingElement α)) :
    (crossWith number before elements).length = before.length * (crossSets number elements).length := by
  simp [crossWith, length_flatMap]

theorem crossWith_cons (number : α → Nat) (before : List (Finset Nat)) (element : GroupingElement α)
    (rest : List (GroupingElement α)) :
    crossWith number before (element :: rest) =
      crossWith number (before.flatMap fun set => (elementSets number element).map (set ∪ ·)) rest := by
  simp [crossWith, crossSets, flatMap_assoc, map_flatMap, flatMap_map,
    Function.comp_def, Finset.union_assoc]

theorem expandItems_expands (elements : List (GroupingElement α)) (sets : List (List Nat))
    (keys : List Expr) (before : (α → Nat) → List (Finset Nat))
    (binds : BindsAll bindItem (groupingExprs elements))
    (some_ : sets ≠ []) (few : sets.length ≤ kMaxGroupingSets)
    (length : ∀ number, (before number).length = sets.length)
    (denotes : ∀ later, keys <+: later → Denotes sets (before (number bindItem later))) :
    (∃ result, expandItems bindItem sets elements keys =
        .ok (result, keysAfter bindItem keys (groupingExprs elements)) ∧
      result.length ≤ kMaxGroupingSets ∧
      ∀ later, keysAfter bindItem keys (groupingExprs elements) <+: later →
        Denotes result (crossWith (number bindItem later) (before (number bindItem later)) elements)) ∨
    expandItems bindItem sets elements keys = .error limitError ∧
      ∀ number, kMaxGroupingSets < (crossWith number (before number) elements).length := by
  induction elements generalizing sets keys before with
  | nil =>
    refine .inl ⟨sets, rfl, few, fun later extends_ => ?_⟩
    simpa [crossWith, crossSets, flatMap_singleton'] using denotes later extends_
  | cons element rest ih =>
    rw [groupingExprs, bindsAll_append] at binds
    rw [expandItems, groupingExprs]
    have restSome : ∀ number, 0 < (crossSets number rest).length := fun number =>
      length_pos_of_ne_nil (crossSets_ne_nil number rest)
    have setsSome := length_pos_of_ne_nil some_
    rcases expand_expands "GROUP BY item next to grouping sets" element keys binds.1 with
      ⟨items, ok, denotesItems⟩ | ⟨refused, many⟩
    · rw [ok]
      simp only [Lib.ok_bind]
      have itemsLength : ∀ number, items.length = (elementSets number element).length :=
        fun _ => (denotesItems _ List.prefix_rfl).length.trans (length_elementSets _ _ element)
      have itemsSome : items ≠ [] := by
        intro none
        have none' := itemsLength fun _ => 0
        rw [none, length_nil, eq_comm, length_eq_zero_iff] at none'
        exact elementSets_ne_nil _ element none'
      split_ifs with many
      · refine .inr ⟨rfl, fun number => ?_⟩
        rw [length_crossWith, length_crossSets_cons, length, ← itemsLength number, ← mul_assoc]
        exact Nat.lt_of_lt_of_le many (Nat.le_mul_of_pos_right _ (restSome number))
      · have productLength : (product sets items).length = sets.length * items.length := by
          simp [product, length_flatMap]
        have next := ih (product sets items) (keysAfter bindItem keys element.exprs)
          (fun number => (before number).flatMap fun set => (elementSets number element).map (set ∪ ·))
          binds.2 ?_ ?_ ?_ ?_
        · simp only [← crossWith_cons, ← keysAfter_append] at next
          exact next
        · refine ne_nil_of_length_pos ?_
          rw [productLength]
          exact Nat.mul_pos setsSome (length_pos_of_ne_nil itemsSome)
        · rw [productLength]
          exact Nat.le_of_not_lt many
        · intro number
          simp [length_flatMap, productLength, length, ← itemsLength number]
        · intro later extends_
          exact product_denotes (denotes later ((keysAfter_extends _ _).trans extends_))
            (denotesItems later extends_)
    · refine .inr ⟨by rw [refused]; rfl, fun number => ?_⟩
      have above : kMaxGroupingSets < (elementSets number element).length := many number
      rw [length_crossWith, length_crossSets_cons, length]
      calc kMaxGroupingSets < (elementSets number element).length := above
        _ ≤ (elementSets number element).length * (crossSets number rest).length :=
          Nat.le_mul_of_pos_right _ (restSome number)
        _ ≤ sets.length * ((elementSets number element).length * (crossSets number rest).length) :=
          Nat.le_mul_of_pos_left _ setsSome

end Expansion

section OneSet

variable {α : Type} {number : α → Nat}

theorem memberSets_eq_nil {elements : List (GroupingElement α)}
    (empty : memberSets number elements = []) : elements = [] := by
  cases elements with
  | nil => rfl
  | cons element rest =>
    rw [memberSets, append_eq_nil_iff] at empty
    exact absurd empty.1 (elementSets_ne_nil number element)

theorem elementSets_singleton : (element : GroupingElement α) → {set : Finset Nat} →
    elementSets number element = [set] → set = keySet number element.exprs
  | .expr _, _, one | .row _, _, one | .empty, _, one => by
    simpa [elementSets, GroupingElement.exprs, keySet, eq_comm] using one
  | .rollup items, _, one => by
    have length := congrArg List.length one
    rw [elementSets, List.length_map, length_inits] at length
    obtain rfl : items = [] := length_eq_zero_iff.mp (by simpa using length)
    simpa [elementSets, GroupingElement.exprs, keySet, itemSet, eq_comm] using one
  | .cube items, _, one => by
    have length := congrArg List.length one
    rw [elementSets, List.length_map, length_depthFirst] at length
    obtain rfl : items = [] := length_eq_zero_iff.mp (by simpa using length)
    simpa [elementSets, GroupingElement.exprs, keySet, itemSet, depthFirst, eq_comm] using one
  | .sets first rest, set, one => by
    have length := congrArg List.length one
    have firstSome := length_pos_of_ne_nil (elementSets_ne_nil number first)
    rw [elementSets, length_append, length_singleton] at length
    have none : (memberSets number rest).length = 0 := by omega
    obtain rfl : rest = [] := memberSets_eq_nil (length_eq_zero_iff.mp none)
    rw [elementSets, memberSets, List.append_nil] at one
    rw [elementSets_singleton first one, GroupingElement.exprs, groupingExprs, List.append_nil]

theorem crossSets_singleton (elements : List (GroupingElement α)) {set : Finset Nat}
    (one : crossSets number elements = [set]) : set = keySet number (groupingExprs elements) := by
  induction elements generalizing set with
  | nil => simpa [crossSets, groupingExprs, keySet, eq_comm] using one
  | cons element rest ih =>
    have length := congrArg List.length one
    rw [length_crossSets_cons, length_singleton] at length
    obtain ⟨first, isFirst⟩ := length_eq_one_iff.mp (Nat.dvd_one.mp (Dvd.intro _ length))
    obtain ⟨second, isSecond⟩ :=
      length_eq_one_iff.mp (Nat.dvd_one.mp (Dvd.intro_left _ length))
    have union : set = first ∪ second := by
      simpa [crossSets, isFirst, isSecond, eq_comm] using one
    rw [union, elementSets_singleton element isFirst, ih isSecond, groupingExprs]
    simp [keySet]

theorem keySet_keysAfter {bindItem : α → Except BindFailure (Option Expr)} (exprs : List α) :
    keySet (GroupingSets.number bindItem (keysAfter bindItem [] exprs)) exprs =
      (List.range (keysAfter bindItem [] exprs).length).toFinset := by
  ext k
  simp only [keySet, mem_toFinset, mem_map, mem_range]
  constructor
  · rintro ⟨expr, member, rfl⟩
    exact number_lt List.prefix_rfl member
  · exact number_surjective (Nat.zero_le k)

end OneSet

end GroupingSets

section Plain

variable (ctx : Context) (env : Row) {keys : List BoundColumn}

theorem groupingSetRows_full (doubles : DoubleAggregates) (some_ : keys ≠ [])
    (keyIds : List ColumnId) (calls : List AggregateCall) (rows : List Row) :
    groupingSetRows doubles env keys keyIds calls [] rows (List.range keys.length) =
      groupRows doubles env keys keyIds calls rows := by
  have inside : ∀ key ∈ keys.zipIdx, key.2 ∈ List.range keys.length := fun key member =>
    List.mem_range.mpr (List.snd_lt_of_mem_zipIdx member)
  have chosen : (keys.zipIdx.filter fun key => key.2 ∈ List.range keys.length).map Prod.fst =
      keys := by
    rw [List.filter_eq_self.mpr fun key member => decide_eq_true (inside key member)]
    simp
  have nonempty : List.range keys.length ≠ [] := by simpa using some_
  have values : ∀ group : List Row, (keys.zipIdx.map fun key =>
      if key.2 ∈ List.range keys.length then
        (group.head?.map fun row => row key.1.id).getD .null else .null) = firstKeys keys group := by
    intro group
    rw [List.map_congr_left fun key member => if_pos (inside key member)]
    have columns : ∀ value : BoundColumn → Value,
        (keys.zipIdx.map fun key => value key.1) = keys.map value := by
      intro value
      conv_rhs => rw [← List.zipIdx_map_fst 0 keys, List.map_map]
      rfl
    cases group with
    | nil => exact columns fun _ => .null
    | cons row _ => exact columns fun key => row key.id
  simp only [groupingSetRows, groupRows, chosen, nonempty, values, if_false, List.map_nil,
    List.append_nil]
  rfl

/-- The grouping sets of one set of every key are a plain GROUP BY. -/
theorem eval_groupingSets_full (input : LogicalNode) (some_ : keys ≠ []) (keyIds : List ColumnId)
    (calls : List AggregateCall) :
    (LogicalNode.groupingSets input keys keyIds [List.range keys.length] calls []).eval ctx env =
      (LogicalNode.groupAggregate input keys keyIds calls).eval ctx env := by
  rw [LogicalNode.eval, LogicalNode.eval]
  congr 1
  funext rows
  congr 1
  funext taken
  rw [List.mapM_cons, groupingSetRows_full env ctx.doubles some_]
  cases groupRows ctx.doubles env keys keyIds calls taken <;> simp

end Plain

namespace GroupingSets

open Sql Lib

/-- A list in grouping-set syntax whose items are keys gives the cross product of the
standard's sets, or is refused where they are too many. Where they are one set with a key,
the set has every key and the plain GROUP BY means the same. -/
theorem bindGroupBy_standard {α : Type} (bindItem : α → Except BindFailure (Option Expr))
    (elements : List (GroupingElement α)) (binds : BindsAll bindItem (groupingExprs elements)) :
    let keys := keysAfter bindItem [] (groupingExprs elements)
    let declared := crossSets (number bindItem keys) elements
    (∀ expr ∈ groupingExprs elements, ∃ key, keys[number bindItem keys expr]? = some key ∧
      key.same (boundTo bindItem expr) = true) ∧
    (kMaxGroupingSets < declared.length → bindGroupBy bindItem elements = .error limitError) ∧
    (declared.length ≤ kMaxGroupingSets → ∃ sets,
      bindGroupBy bindItem elements = .ok (unlessPlain sets, keys) ∧
      sets.map List.toFinset = declared ∧ (∀ set ∈ sets, set.Pairwise (· < ·)) ∧
      ∀ set, sets = [set] → set ≠ [] → set = List.range keys.length ∧
        ∀ (ctx : Context) (env : Row) (input : LogicalNode) (columns : List BoundColumn)
          (keyIds : List ColumnId) (calls : List AggregateCall), columns.length = keys.length →
          (LogicalNode.groupingSets input columns keyIds [set] calls []).eval ctx env =
            (LogicalNode.groupAggregate input columns keyIds calls).eval ctx env) ∧
    ∀ items : List (GroupingItem α), (depthFirst items).Perm items.sublists ∧
      (depthFirst (List.range items.length)).Pairwise (· < ·) := by
  intro keys declared
  have once : ∀ number : α → Nat, crossWith number [∅] elements = crossSets number elements := by
    intro number
    simp [crossWith]
  have expanded := expandItems_expands elements [[]] [] (fun _ => [∅]) binds (by simp) (by decide)
    (fun _ => rfl) fun _ _ => ⟨rfl, by simp⟩
  simp only [once] at expanded
  refine ⟨fun expr member => ?_, fun many => ?_, fun few => ?_, fun items => ?_⟩
  · have inside : number bindItem keys expr < keys.length := number_lt List.prefix_rfl member
    exact ⟨keys[number bindItem keys expr], List.getElem?_eq_getElem inside,
      List.findIdx_getElem (w := inside)⟩
  · rcases expanded with ⟨result, _, short, denotes⟩ | ⟨refused, _⟩
    · have length := (denotes keys List.prefix_rfl).length
      exact absurd (length ▸ short) (Nat.not_le.mpr many)
    · rw [bindGroupBy, refused]
      rfl
  · rcases expanded with ⟨result, ok, _, denotes⟩ | ⟨_, many⟩
    · obtain ⟨means, ascending⟩ := denotes keys List.prefix_rfl
      refine ⟨result, ?_, means, ascending, fun set one some_ => ?_⟩
      · rw [bindGroupBy, ok]
        rfl
      · subst one
        have full : set = List.range keys.length := by
          refine ascending_eq (ascending set (by simp)) List.pairwise_lt_range ?_
          rw [crossSets_singleton elements means.symm, keySet_keysAfter]
        refine ⟨full, fun ctx env input columns keyIds calls length => ?_⟩
        rw [full, ← length]
        refine eval_groupingSets_full ctx env input ?_ keyIds calls
        rintro rfl
        exact some_ (by simpa [← length] using full)
    · exact absurd few (Nat.not_le.mpr (many _))
  · exact ⟨depthFirst_perm_sublists items, depthFirst_ordered List.pairwise_lt_range⟩

def bindColumn (column : Nat) : Except BindFailure (Option Expr) :=
  .ok (some (.column { index := column, id := column + 1 } .bigInt))

/-- `GROUP BY ROLLUP (a, (b, a)), CUBE (a, c)`. -/
def rollupAndCube : List (GroupingElement Nat) :=
  [.rollup [.expr 0, .row [1, 0]], .cube [.expr 0, .expr 2]]

theorem bindGroupBy_rollupAndCube :
    BindsAll bindColumn (groupingExprs rollupAndCube) ∧ ∃ sets,
      bindGroupBy bindColumn rollupAndCube =
        .ok (unlessPlain sets, keysAfter bindColumn [] (groupingExprs rollupAndCube)) ∧
      sets.length = 12 := by
  have binds : BindsAll bindColumn (groupingExprs rollupAndCube) := fun expr _ => ⟨_, rfl⟩
  obtain ⟨sets, ok, means, _⟩ := (bindGroupBy_standard bindColumn rollupAndCube binds).2.2.1
    (by decide)
  refine ⟨binds, sets, ok, ?_⟩
  rw [← List.length_map List.toFinset, means]
  decide

end GroupingSets

end Antb1.Plan
