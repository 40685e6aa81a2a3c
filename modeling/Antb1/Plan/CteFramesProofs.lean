import Antb1.Plan.CteFrames
import Mathlib.Data.List.Perm.Subperm
import Mathlib.Algebra.Order.Ring.Nat

/-! The binder gives every table reference the meaning it has where it is written. -/
namespace Antb1.Plan.Cte

open List

variable {Table : Type} {catalog : String → Option Table} {ctes : List CommonTableExpr}
  {cte : CommonTableExpr}

section Lists

variable {env : Env Table} {outer : Scope Table}

theorem meanings_append (earlier : List (Meaning Table)) (ctes more : List CommonTableExpr) :
    meanings catalog env outer earlier (ctes ++ more) =
      meanings catalog env outer (meanings catalog env outer earlier ctes) more := by
  induction ctes generalizing earlier with
  | nil => rfl
  | cons cte rest ih =>
    cases cte
    exact ih _

theorem meanings_succ {n : Nat} {cte : CommonTableExpr} (next : ctes[n]? = some cte) :
    meanings catalog env outer [] (ctes.take (n + 1)) =
      meanings catalog env outer [] (ctes.take n) ++
        [⟨cte.name, meaning catalog (meanings catalog env outer [] (ctes.take n) :: env) outer
          cte.query⟩] := by
  rw [take_add_one, next, meanings_append]
  cases cte
  rfl

theorem find_meanings (ctes : List CommonTableExpr) (n : Nat) (name : String) :
    ((ctes.take n).find? (fun cte => asciiLower cte.name = asciiLower name) = none ∧
      (meanings catalog env outer [] (ctes.take n)).find?
        (fun meaning => asciiLower meaning.name = asciiLower name) = none) ∨
      ∃ (i : Nat) (cte : CommonTableExpr), i < n ∧ ctes[i]? = some cte ∧
        (ctes.take n).find? (fun cte => asciiLower cte.name = asciiLower name) = some cte ∧
        (meanings catalog env outer [] (ctes.take n)).find?
          (fun meaning => asciiLower meaning.name = asciiLower name) =
            some ⟨cte.name, meaning catalog
              (meanings catalog env outer [] (ctes.take i) :: env) outer cte.query⟩ := by
  induction n with
  | zero => exact .inl ⟨rfl, rfl⟩
  | succ n ih =>
    cases next : ctes[n]? with
    | none =>
      have all : ctes.take (n + 1) = ctes.take n := by rw [take_add_one, next]; simp
      rw [all]
      exact ih.imp id fun ⟨i, cte, less, rest⟩ => ⟨i, cte, Nat.lt_succ_of_lt less, rest⟩
    | some cte =>
      rw [meanings_succ next, take_add_one, next, find?_append, find?_append]
      obtain ⟨noCte, noMeaning⟩ | ⟨i, found, less, isFound, isCte, isMeaning⟩ := ih
      · rw [noCte, noMeaning]
        by_cases here : asciiLower cte.name = asciiLower name
        · exact .inr ⟨n, cte, Nat.lt_succ_self n, next, by simp [here], by simp [here]⟩
        · exact .inl ⟨by simp [here], by simp [here]⟩
      · rw [isCte, isMeaning]
        exact .inr ⟨i, found, Nat.lt_succ_of_lt less, isFound, rfl, rfl⟩

end Lists

variable (catalog) in
def Frames.env : Frames Table → Env Table
  | [] => []
  | frame :: outer =>
    meanings catalog (Frames.env outer) frame.scope [] frame.visible :: Frames.env outer

/-- A name is found where its meaning is: in a frame of which the earlier ones declare it. -/
theorem find_env (frames : Frames Table) (name : String) :
    (frames.find name = none ∧ (frames.env catalog).find name = none) ∨
      ∃ (inner outer : Frames Table) (frame : CteFrame Table) (i : Nat) (cte : CommonTableExpr),
        frames = inner ++ frame :: outer ∧ i < frame.count ∧ frame.ctes[i]? = some cte ∧
        frames.find name = some cte ∧ (frames.env catalog).find name =
          some ⟨cte.name, meaning catalog (Frames.env catalog ({ frame with count := i } :: outer))
            frame.scope cte.query⟩ := by
  induction frames with
  | nil => exact .inl ⟨rfl, rfl⟩
  | cons frame outer ih =>
    unfold Frames.find Env.find Frames.env
    simp only [findSome?_cons]
    obtain ⟨noCte, noMeaning⟩ | ⟨i, cte, less, isCte, found, isMeaning⟩ :=
      @find_meanings _ catalog (Frames.env catalog outer) frame.scope frame.ctes frame.count name
    · rw [CteFrame.visible, noCte, noMeaning]
      obtain neither | ⟨inner, outer', frame', i, cte, rfl, found⟩ := ih
      · exact .inl neither
      · exact .inr ⟨frame :: inner, outer', frame', i, cte, rfl, found⟩
    · rw [CteFrame.visible, found, isMeaning]
      exact .inr ⟨[], outer, frame, i, cte, rfl, less, isCte, rfl, rfl⟩

def Frames.addresses (frames : Frames Table) : List Nat :=
  frames.flatMap fun frame => frame.ctes.map CommonTableExpr.address

/-- The body of each CTE in frames has none of the addresses around it. -/
def Frames.Apart : Frames Table → Prop
  | [] => True
  | frame :: outer =>
    (∀ cte ∈ frame.ctes, (Frames.addresses (frame :: outer) ++ cte.query.addresses).Nodup) ∧
      Frames.Apart outer

theorem Frames.Apart.outer {inner frames : Frames Table} (apart : (inner ++ frames).Apart) :
    frames.Apart := by
  induction inner with
  | nil => exact apart
  | cons frame rest ih => exact ih apart.2

theorem scopeFrameOf_found {inner outer : Frames Table} {frame : CteFrame Table} {i : Nat}
    (distinct : (inner ++ frame :: outer).addresses.Nodup) (less : i < frame.count)
    (isCte : frame.ctes[i]? = some cte) :
    (inner ++ frame :: outer).scopeFrameOf cte = { frame with count := i } :: outer ∧
      (inner ++ frame :: outer).scopeOf cte = frame.scope := by
  obtain ⟨inside, isHere⟩ := List.getElem?_eq_some_iff.mp isCte
  induction inner with
  | nil =>
    have own := (nodup_append.mp distinct).1
    have index : frame.ctes.findIdx? (fun other => decide (other.address = cte.address)) = some i := by
      rw [findIdx?_eq_some_iff_getElem]
      refine ⟨inside, by simp [isHere], fun j before => ?_⟩
      simp only [decide_eq_true_eq]
      intro same
      have other := pairwise_iff_getElem.mp own j i
        (by simpa using Nat.lt_trans before inside) (by simpa using inside) before
      exact other (by simpa [isHere] using same)
    have seen : cte.address ∈ frame.visible.map CommonTableExpr.address := by
      refine mem_map_of_mem ?_
      rw [← isHere]
      exact mem_take_iff_getElem.mpr ⟨i, by omega, rfl⟩
    refine ⟨?_, if_pos seen⟩
    simp only [nil_append, Frames.scopeFrameOf, index]
  | cons first rest ih =>
    obtain ⟨-, others, disjoint⟩ := nodup_append.mp distinct
    have later : cte.address ∈ Frames.addresses (rest ++ frame :: outer) := by
      refine mem_flatMap.mpr ⟨frame, by simp, mem_map_of_mem ?_⟩
      exact isHere ▸ getElem_mem inside
    have absent : ∀ other ∈ first.ctes, other.address ≠ cte.address := fun other member =>
      disjoint _ (mem_map_of_mem member) _ later
    obtain ⟨frames, scope⟩ := ih others
    refine ⟨?_, ?_⟩
    · have index : first.ctes.findIdx? (fun other => decide (other.address = cte.address)) = none := by
        rw [findIdx?_eq_none_iff]
        intro other member
        simpa using absent other member
      simp only [cons_append, Frames.scopeFrameOf, index]
      exact frames
    · have unseen : cte.address ∉ first.visible.map CommonTableExpr.address := by
        rintro seen
        obtain ⟨other, member, same⟩ := mem_map.mp seen
        exact absent other (mem_of_mem_take member) same
      simp only [cons_append, Frames.scopeOf, if_neg unseen]
      exact scope

theorem declared_sublist (ctes : List CommonTableExpr) :
    (ctes.map CommonTableExpr.address).Sublist (addressesIn ctes) := by
  induction ctes with
  | nil => exact .slnil
  | cons cte rest ih =>
    cases cte
    exact (ih.trans (sublist_append_right _ _)).cons_cons _

/-- The addresses a list declares, and those in one of its bodies. -/
theorem declared_body_subperm (member : cte ∈ ctes) :
    (ctes.map CommonTableExpr.address ++ cte.query.addresses).Subperm (addressesIn ctes) := by
  induction ctes with
  | nil => cases member
  | cons first rest ih =>
    rcases mem_cons.mp member with rfl | later
    · cases cte with
      | mk address name query =>
        refine (subperm_cons _).mpr ?_
        exact perm_append_comm.subperm_right.mp
          ((declared_sublist rest).append_left query.addresses).subperm
    · cases first with
      | mk address name query =>
        refine (subperm_cons _).mpr ((ih later).trans ?_)
        exact (sublist_append_right _ _).subperm

/-- Where the addresses around a query and those in it differ, so do those around it and its list,
and those in a query of it. -/
theorem nodup_own {around declared inside all : List Nat} (distinct : (around ++ all).Nodup)
    (part : (declared ++ inside).Subperm all) : ((declared ++ around) ++ inside).Nodup := by
  obtain ⟨found, same, within⟩ := part
  have kept : (around ++ (declared ++ inside)).Nodup :=
    (same.append_left around).nodup_iff.mp (distinct.sublist (within.append_left around))
  rw [← append_assoc] at kept
  exact (perm_append_comm.append_right inside).nodup_iff.mp kept

def Query.addressesWithin : Query → List Nat
  | .block _ items subqueries => addressesFrom items ++ addressesEach subqueries
  | .compound _ branches => addressesEach branches

theorem addresses_eq (query : Query) :
    query.addresses = addressesIn query.ctes ++ query.addressesWithin := by
  cases query <;> rfl

theorem own_apart {frames : Frames Table} {outer : Scope Table} {query : Query}
    (apart : frames.Apart) (distinct : (frames.addresses ++ query.addresses).Nodup) :
    Frames.Apart (⟨query.ctes, query.ctes.length, outer⟩ :: frames) := by
  refine ⟨fun cte member => nodup_own distinct ((declared_body_subperm member).trans ?_), apart⟩
  rw [addresses_eq]
  exact (sublist_append_left _ _).subperm

theorem addressesEach_sublist {queries : List Query} {query : Query} (member : query ∈ queries) :
    query.addresses.Sublist (addressesEach queries) := by
  induction queries with
  | nil => cases member
  | cons first rest ih =>
    rcases mem_cons.mp member with rfl | later
    · exact sublist_append_left _ _
    · exact (ih later).trans (sublist_append_right _ _)

theorem addressesFrom_sublist {items : List FromItem} {query : Query}
    (member : .derived query ∈ items) : query.addresses.Sublist (addressesFrom items) := by
  induction items with
  | nil => cases member
  | cons first rest ih =>
    rcases mem_cons.mp member with rfl | later
    · exact sublist_append_left _ _
    · cases first with
      | table name => exact ih later
      | derived other => exact (ih later).trans (sublist_append_right _ _)

noncomputable def listWeight (ctes : List CommonTableExpr) : Nat := (ctes.map sizeOf).sum

noncomputable def Frames.weight (frames : Frames Table) : Nat :=
  (frames.map fun frame => listWeight frame.visible).sum

theorem listWeight_le (ctes : List CommonTableExpr) : listWeight ctes ≤ sizeOf ctes := by
  induction ctes with
  | nil => exact Nat.zero_le _
  | cons cte rest ih =>
    simp only [listWeight, map_cons, sum_cons, List.cons.sizeOf_spec] at ih ⊢
    omega

theorem listWeight_take {i n : Nat} (less : i < n) (isCte : ctes[i]? = some cte) :
    listWeight (ctes.take i) + sizeOf cte ≤ listWeight (ctes.take n) := by
  have more : ctes.take (i + 1) = ctes.take i ++ [cte] := by
    rw [take_add_one, isCte]
    rfl
  have weight : listWeight (ctes.take (i + 1)) = listWeight (ctes.take i) + sizeOf cte := by
    simp [listWeight, more]
  obtain ⟨rest, isRest⟩ := take_prefix_take_left (l := ctes) less
  rw [← weight, ← isRest]
  simp [listWeight]

/-- A CTE's body and what it sees are smaller than what is seen where the CTE is found. -/
theorem weight_found {inner outer : Frames Table} {frame : CteFrame Table} {i : Nat}
    {cte : CommonTableExpr} (less : i < frame.count) (isCte : frame.ctes[i]? = some cte) :
    Frames.weight ({ frame with count := i } :: outer) + sizeOf cte.query <
      Frames.weight (inner ++ frame :: outer) := by
  have body : sizeOf cte.query < sizeOf cte := by
    cases cte
    simp only [CommonTableExpr.query, CommonTableExpr.mk.sizeOf_spec]
    omega
  have list := listWeight_take less isCte
  simp only [Frames.weight, map_append, map_cons, sum_append, sum_cons,
    CteFrame.visible]
  omega

theorem weight_own (frames : Frames Table) (outer : Scope Table) (query : Query) :
    Frames.weight (⟨query.ctes, query.ctes.length, outer⟩ :: frames) ≤
      frames.weight + sizeOf query.ctes := by
  have list := listWeight_le query.ctes
  simp only [Frames.weight, map_cons, sum_cons, CteFrame.visible, take_length]
  omega

/-- A query that `bind` gives its meaning wherever enough fuel is left for it. -/
def Binds (catalog : String → Option Table)
    (bind : Frames Table → Scope Table → Query → Except BindError (BoundQuery Table))
    (fuel : Nat) : Prop :=
  ∀ (frames : Frames Table) outer query, frames.weight + sizeOf query ≤ fuel → frames.Apart →
    (frames.addresses ++ query.addresses).Nodup →
    bind frames outer query = meaning catalog (frames.env catalog) outer query

variable {bind : Frames Table → Scope Table → Query → Except BindError (BoundQuery Table)}
  {fuel : Nat} {frames : Frames Table} {outer : Scope Table}

section

variable (binds : Binds catalog bind fuel) (apart : frames.Apart)
include binds apart

theorem bindFromItem_meaning (distinct : frames.addresses.Nodup) (siblings : List (Binding Table))
    (item : FromItem) (enough : frames.weight ≤ fuel)
    (derived : ∀ query, item = .derived query → frames.weight + sizeOf query ≤ fuel ∧
      (frames.addresses ++ query.addresses).Nodup) :
    bindFromItem catalog bind frames outer siblings item =
      meaningOf catalog (frames.env catalog) outer siblings item := by
  cases item with
  | derived query =>
    obtain ⟨small, differ⟩ := derived query rfl
    rw [bindFromItem, meaningOf, binds _ _ _ small apart differ]
  | table name =>
    dsimp only [bindFromItem, meaningOf]
    obtain ⟨noCte, noMeaning⟩ | ⟨inner, around, frame, i, cte, rfl, less, isCte, found, means⟩ :=
      @find_env Table catalog frames name
    · rw [noCte, noMeaning]
    · obtain ⟨isFrame, isScope⟩ := scopeFrameOf_found distinct less isCte
      have here := apart.outer
      have body := here.1 cte (mem_of_getElem? isCte)
      have smaller := @weight_found Table inner around frame i cte less isCte
      simp only [found, means, isFrame, isScope]
      rw [binds ({ frame with count := i } :: around) _ _ (by omega) here body]

theorem mapM_meaning (queries : List Query)
    (small : ∀ query ∈ queries, frames.weight + sizeOf query ≤ fuel ∧
      (frames.addresses ++ query.addresses).Nodup) :
    queries.mapM (bind frames outer) = meaningEach catalog (frames.env catalog) outer queries := by
  induction queries with
  | nil => rfl
  | cons query rest ih =>
    obtain ⟨enough, differ⟩ := small query mem_cons_self
    rw [mapM_cons, meaningEach, binds _ _ _ enough apart differ,
      ih fun other member => small other (mem_cons_of_mem _ member)]

theorem foldlM_meaning (distinct : frames.addresses.Nodup) (enough : frames.weight ≤ fuel)
    (items : List FromItem)
    (small : ∀ query, .derived query ∈ items → frames.weight + sizeOf query ≤ fuel ∧
      (frames.addresses ++ query.addresses).Nodup) (siblings : List (Binding Table)) :
    items.foldlM (fun siblings item => do
      return siblings ++ [← bindFromItem catalog bind frames outer siblings item]) siblings =
        meaningFrom catalog (frames.env catalog) outer siblings items := by
  induction items generalizing siblings with
  | nil => rfl
  | cons item rest ih =>
    have later := ih fun query member => small query (mem_cons_of_mem _ member)
    rw [foldlM_cons, meaningFrom, bindFromItem_meaning binds apart distinct siblings item enough
      fun query isDerived => small query (isDerived ▸ mem_cons_self)]
    cases meaningOf catalog (frames.env catalog) outer siblings item with
    | error error => rfl
    | ok binding => exact later (siblings ++ [binding])

end

theorem bindBlock_binds (fuel : Nat) : Binds catalog (bindBlock catalog fuel) fuel := by
  induction fuel with
  | zero =>
    intro frames outer query enough
    cases query <;> simp at enough
  | succ fuel ih =>
    intro frames outer query enough apart distinct
    have ownApart := @own_apart Table frames outer query apart distinct
    have weight := weight_own frames outer query
    have env : Frames.env catalog (⟨query.ctes, query.ctes.length, outer⟩ :: frames) =
        meanings catalog (frames.env catalog) outer [] query.ctes :: frames.env catalog := by
      rw [Frames.env, CteFrame.visible, take_length]
    have within : ∀ inside : List Nat, inside.Sublist query.addressesWithin →
        (Frames.addresses (⟨query.ctes, query.ctes.length, outer⟩ :: frames) ++ inside).Nodup := by
      intro inside part
      refine nodup_own distinct (List.Sublist.subperm ?_)
      rw [addresses_eq]
      exact (declared_sublist _).append part
    cases query with
    | compound ctes branches =>
      rw [Query.compound.sizeOf_spec] at enough
      dsimp only [Query.ctes] at env ownApart within weight
      rw [bindBlock, meaning, ← env]
      dsimp only [Query.ctes]
      rw [mapM_meaning ih ownApart branches]
      intro branch member
      have smaller := sizeOf_lt_of_mem member
      exact ⟨by omega, within _ (addressesEach_sublist member)⟩
    | block ctes items subqueries =>
      rw [Query.block.sizeOf_spec] at enough
      dsimp only [Query.ctes] at env ownApart within weight
      have distinctOwn := within [] (nil_sublist _)
      rw [append_nil] at distinctOwn
      rw [bindBlock, meaning, ← env]
      dsimp only [Query.ctes]
      rw [foldlM_meaning ih ownApart distinctOwn (by omega)]
      · refine bind_congr fun bindings => ?_
        rw [mapM_meaning ih ownApart subqueries]
        intro query member
        have smaller := sizeOf_lt_of_mem member
        exact ⟨by omega, within _ ((addressesEach_sublist member).trans
          (sublist_append_right _ _))⟩
      · intro query member
        have smaller := sizeOf_lt_of_mem member
        rw [FromItem.derived.sizeOf_spec] at smaller
        exact ⟨by omega, within _ ((addressesFrom_sublist member).trans
          (sublist_append_left _ _))⟩

/-- With the calls it takes, the binder gives a query the meaning that its tables have where they
are written: that of the innermost list in sight, or of the catalog. -/
theorem bindBlock_lexical (catalog : String → Option Table) (query : Query)
    (distinct : query.addresses.Nodup) {fuel : Nat} (enough : sizeOf query ≤ fuel) :
    bindBlock catalog fuel [] .none query = meaning catalog [] .none query :=
  bindBlock_binds fuel [] .none query (by simpa [Frames.weight] using enough) trivial distinct

/-- `a` is declared twice, and `b`, whose body reads `A`, between the two. -/
def shadowed : Query :=
  .block [.mk 1 "a" (.block [] [.table "t"] []), .mk 2 "b" (.block [] [.table "A"] [])]
    [.derived (.block [.mk 3 "a" (.block [] [.table "u"] [])] [.table "b", .table "a"] [])] []

/-- The body of `b` reads the first `a`, also where it is referenced below the second. -/
theorem bindBlock_lexical_shadowed :
    bindBlock some (sizeOf shadowed) [] .none shadowed =
      .ok (.block .none [.plan (.block (.around [] .none)
        [.plan (.block .none [.plan (.block .none [.table "t"] []) (some "a")] []) (some "b"),
          .plan (.block (.around [] .none) [.table "u"] []) (some "a")] []) none] []) :=
  (bindBlock_lexical some shadowed (by decide) (Nat.le_refl _)).trans rfl

end Antb1.Plan.Cte
