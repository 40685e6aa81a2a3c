import Antb1.Plan.OrFactoring

/-! When factoring a factored predicate changes nothing. -/
namespace Antb1.Plan.OrFactoring

open Grouping List

variable {Node : Type} {parts : List (List (Sql.Expr Node))} {predicate : List (Sql.Expr Node)}
  {o : FactoredConjunct Node} (siblings : List (Sql.Expr Node))

theorem conjuncts_self {e c : Sql.Expr Node} (member : c ∈ conjuncts e) : conjuncts c = [c] := by
  fun_induction conjuncts e with
  | case1 left right ihLeft ihRight =>
    rcases mem_append.mp member with inLeft | inRight
    · exact ihLeft inLeft
    · exact ihRight inRight
  | case2 e other =>
    cases mem_singleton.mp member
    rw [conjuncts]
    exact other

theorem conjuncts_or {e : Sql.Expr Node} (isOr : e.isOr = true) : conjuncts e = [e] := by
  cases e with
  | binary op left right => cases op <;> first | rfl | cases isOr
  | _ => rfl

theorem sizeOf_conjunct {e c : Sql.Expr Node} (member : c ∈ conjuncts e) : sizeOf c ≤ sizeOf e := by
  fun_induction conjuncts e with
  | case1 left right ihLeft ihRight =>
    simp only [Sql.Expr.binary.sizeOf_spec]
    rcases mem_append.mp member with inLeft | inRight
    · have smaller := ihLeft inLeft
      omega
    · have smaller := ihRight inRight
      omega
  | case2 e other => exact (mem_singleton.mp member) ▸ le_refl _

theorem sizeOf_branch {e b : Sql.Expr Node} (member : b ∈ branches e) : sizeOf b ≤ sizeOf e := by
  fun_induction branches e with
  | case1 left right ihLeft ihRight =>
    simp only [Sql.Expr.binary.sizeOf_spec]
    rcases mem_append.mp member with inLeft | inRight
    · have smaller := ihLeft inLeft
      omega
    · have smaller := ihRight inRight
      omega
  | case2 e other => exact (mem_singleton.mp member) ▸ le_refl _

theorem branches_ne_nil (e : Sql.Expr Node) : branches e ≠ [] := by
  fun_induction branches e with
  | case1 left right ihLeft _ => simp [ihLeft]
  | case2 e other => simp

theorem isOr_iff {e : Sql.Expr Node} : e.isOr = true ↔ ∃ left right, e = .binary .or left right := by
  constructor
  · intro isOr
    cases e with
    | binary op left right =>
      cases op with
      | or => exact ⟨left, right, rfl⟩
      | _ => cases isOr
    | _ => cases isOr
  · rintro ⟨left, right, rfl⟩
    rfl

variable [DecidableEq Node] {α : Type} {others : List (List (Sql.Expr Node))}
  {branch : List (Sql.Expr Node)}

theorem mem_shared {e : Sql.Expr Node} :
    e ∈ shared parts ↔ e ∈ parts.headD [] ∧ ∀ branch ∈ parts, e ∈ branch := by
  simp [shared]

theorem shared_ne {e s : Sql.Expr Node} (isOr : e.isOr = true) (member : s ∈ shared (perBranch e)) :
    s ≠ e := by
  obtain ⟨left, right, rfl⟩ := isOr_iff.mp isOr
  obtain ⟨b, first⟩ := exists_mem_of_ne_nil _ (branches_ne_nil left)
  have inBranch : s ∈ conjuncts b := (mem_shared.mp member).2 _ (mem_map.mpr
    ⟨b, by simp [branches, first], rfl⟩)
  have small := (sizeOf_conjunct inBranch).trans (sizeOf_branch first)
  rintro rfl
  simp only [Sql.Expr.binary.sizeOf_spec] at small
  omega

def own (c : Sql.Expr Node) : List (FactoredConjunct Node) :=
  if c.isOr then
    if shared (perBranch c) = [] then [{ expr := c }]
    else (shared (perBranch c)).map (fun e => { expr := e }) ++
      if (rest (perBranch c)).any List.isEmpty then [{ expr := c, bindOnly := true }]
      else [{ expr := folded (rest (perBranch c)) }]
  else [{ expr := c }]

def implying (c : Sql.Expr Node) : List (List (Sql.Expr Node)) :=
  if c.isOr then
    if shared (perBranch c) = [] then perBranch c
    else if (rest (perBranch c)).any List.isEmpty then [] else rest (perBranch c)
  else []

theorem factorConjunct_eq (out : List (FactoredConjunct Node)) (c : Sql.Expr Node) :
    factorConjunct siblings out c = deriveImpliedInLists (implying c) siblings (out ++ own c) := by
  have none_ : ∀ out : List (FactoredConjunct Node), deriveImpliedInLists [] siblings out = out :=
    fun _ => rfl
  dsimp only [factorConjunct, own, implying]
  split_ifs <;> simp only [none_, append_assoc]

def Implied (parts : List (List (Sql.Expr Node))) (e : Sql.Expr Node) : Prop :=
  ∃ column ∈ candidates parts, derivedIn parts column = some e

theorem derivedIn_some {column e : Sql.Expr Node} (found : derivedIn parts column = some e) :
    ∃ list, e = .inList column list false := by
  dsimp only [derivedIn] at found
  split_ifs at found
  cases found
  exact ⟨_, rfl⟩

theorem Implied.isIn {e : Sql.Expr Node} (implied : Implied parts e) :
    e.isOr = false ∧ conjuncts e = [e] := by
  obtain ⟨column, -, found⟩ := implied
  obtain ⟨list, rfl⟩ := derivedIn_some found
  exact ⟨rfl, rfl⟩

/-- What deriving adds: implied IN lists, and all that were not there. -/
structure Derives (parts : List (List (Sql.Expr Node))) (columns already : List (Sql.Expr Node))
    (out : List (FactoredConjunct Node)) (more : List (Sql.Expr Node)) : Prop where
  implied : ∀ e ∈ more, ∃ column ∈ columns, derivedIn parts column = some e
  fresh : ∀ e ∈ more, e ∉ already ∧ e ∉ out.map FactoredConjunct.expr
  complete : ∀ column ∈ columns, ∀ e, derivedIn parts column = some e →
    e ∈ already ∨ e ∈ out.map FactoredConjunct.expr ∨ e ∈ more

theorem foldl_deriveFor (parts : List (List (Sql.Expr Node))) (already columns : List (Sql.Expr Node))
    (out : List (FactoredConjunct Node)) :
    ∃ more, columns.foldl (deriveFor parts already) out =
      out ++ more.map (fun e => { expr := e }) ∧ Derives parts columns already out more := by
  induction columns generalizing out with
  | nil => exact ⟨[], by simp, ⟨nofun, nofun, nofun⟩⟩
  | cons column columns ih =>
    rw [foldl_cons]
    have skipped : ∀ derives : deriveFor parts already out column = out,
        (∀ e, derivedIn parts column = some e → e ∈ already ∨ e ∈ out.map FactoredConjunct.expr) →
        ∃ more, columns.foldl (deriveFor parts already) (deriveFor parts already out column) =
          out ++ more.map (fun e => { expr := e }) ∧
          Derives parts (column :: columns) already out more := by
      intro same held
      obtain ⟨more, folded, derives⟩ := ih out
      refine ⟨more, by rw [same, folded], ?_, derives.fresh, ?_⟩
      · intro e member
        obtain ⟨other, among, found⟩ := derives.implied e member
        exact ⟨other, mem_cons_of_mem _ among, found⟩
      · intro other among e found
        rcases mem_cons.mp among with rfl | later
        · exact (held e found).imp_right .inl
        · exact derives.complete other later e found
    cases found : derivedIn parts column with
    | none => exact skipped (by simp [deriveFor, found]) (by simp [found])
    | some e =>
      by_cases held : e ∈ already ∨ e ∈ out.map FactoredConjunct.expr
      · refine skipped (by simp only [deriveFor, found, if_pos held]) ?_
        intro other same
        cases found.symm.trans same
        exact held
      · obtain ⟨more, folded, derives⟩ := ih (out ++ [{ expr := e }])
        have added : deriveFor parts already out column = out ++ [{ expr := e }] := by
          simp only [deriveFor, found, if_neg held]
        refine ⟨e :: more, by simp [added, folded], ?_, ?_, ?_⟩
        · intro other member
          rcases mem_cons.mp member with rfl | later
          · exact ⟨column, by simp, found⟩
          · obtain ⟨own, among, derived⟩ := derives.implied other later
            exact ⟨own, mem_cons_of_mem _ among, derived⟩
        · intro other member
          rcases mem_cons.mp member with rfl | later
          · exact not_or.mp held
          · have fresh := derives.fresh other later
            simp only [map_append, mem_append, not_or] at fresh
            exact ⟨fresh.1, fresh.2.1⟩
        · intro other among derived same
          rcases mem_cons.mp among with rfl | later
          · cases found.symm.trans same
            exact .inr (.inr (by simp))
          · rcases derives.complete other later derived same with inside | inside | inside
            · exact .inl inside
            · rw [map_append, mem_append] at inside
              rcases inside with before | here
              · exact .inr (.inl before)
              · exact .inr (.inr (by simpa using Or.inl (mem_singleton.mp here)))
            · exact .inr (.inr (mem_cons_of_mem _ inside))

def kept (out : List (FactoredConjunct Node)) : List (Sql.Expr Node) :=
  (out.filter fun c => !c.bindOnly).map FactoredConjunct.expr

omit [DecidableEq Node] in
theorem kept_append (out more : List (FactoredConjunct Node)) :
    kept (out ++ more) = kept out ++ kept more := by
  simp [kept]

omit [DecidableEq Node] in
theorem kept_plain (exprs : List (Sql.Expr Node)) : kept (exprs.map fun e => { expr := e }) = exprs := by
  induction exprs with
  | nil => rfl
  | cons e rest ih => simpa [kept] using ih

theorem factorConjunct_kept (out : List (FactoredConjunct Node)) (c : Sql.Expr Node) :
    ∃ more, factorConjunct siblings out c = out ++ own c ++ more.map (fun e => { expr := e }) ∧
      Derives (implying c) (candidates (implying c)) siblings (out ++ own c) more := by
  rw [factorConjunct_eq]
  exact foldl_deriveFor _ _ _ _

/-- The conjuncts kept of an element: those of each of its conjuncts and derived IN lists. -/
structure Keeps (siblings flat : List (Sql.Expr Node)) (out : List (FactoredConjunct Node)) : Prop where
  own : ∀ c ∈ flat, ∀ o ∈ own c, o ∈ out
  origin : ∀ o ∈ out, (∃ c ∈ flat, o ∈ OrFactoring.own c) ∨
    (o.bindOnly = false ∧ ∃ c ∈ flat, Implied (implying c) o.expr)
  implied : ∀ c ∈ flat, ∀ e, Implied (implying c) e →
    e ∈ siblings ∨ e ∈ out.map FactoredConjunct.expr

theorem foldl_factorConjunct (siblings flat : List (Sql.Expr Node)) :
    Keeps siblings flat (flat.foldl (factorConjunct siblings) []) := by
  induction flat using List.reverseRecOn with
  | nil => exact ⟨nofun, nofun, nofun⟩
  | append_singleton flat c ih =>
    rw [foldl_append, foldl_cons, foldl_nil]
    obtain ⟨more, same, derives⟩ :=
      factorConjunct_kept siblings (flat.foldl (factorConjunct siblings) []) c
    rw [same]
    refine ⟨?_, ?_, ?_⟩
    · intro c' among o inside
      rcases mem_append.mp among with before | here
      · exact mem_append_left _ (mem_append_left _ (ih.own c' before o inside))
      · cases mem_singleton.mp here
        exact mem_append_left _ (mem_append_right _ inside)
    · intro o inside
      rcases mem_append.mp inside with old | new
      · rcases mem_append.mp old with before | here
        · refine (ih.origin o before).imp ?_ ?_
          · rintro ⟨c', among, found⟩
            exact ⟨c', mem_append_left _ among, found⟩
          · rintro ⟨plain, c', among, found⟩
            exact ⟨plain, c', mem_append_left _ among, found⟩
        · exact .inl ⟨c, by simp, here⟩
      · obtain ⟨e, member, rfl⟩ := mem_map.mp new
        exact .inr ⟨rfl, c, by simp, derives.implied e member⟩
    · intro c' among e implied
      rw [map_append, mem_append]
      rcases mem_append.mp among with before | here
      · refine (ih.implied c' before e implied).imp_right fun inside => .inl ?_
        rw [map_append, mem_append]
        exact .inl inside
      · cases mem_singleton.mp here
        obtain ⟨column, candidate, found⟩ := implied
        refine (derives.complete column candidate e found).imp_right (Or.imp_right fun new => ?_)
        simpa using new

theorem own_bindOnly {c : Sql.Expr Node} (member : o ∈ own c) (only : o.bindOnly = true) :
    o.expr.isOr = true := by
  unfold own at member
  split_ifs at member with isOr <;> simp only [mem_append, mem_singleton, mem_map] at member
  · cases member
    cases only
  · rcases member with ⟨e, -, rfl⟩ | rfl
    · cases only
    · exact isOr
  · rcases member with ⟨e, -, rfl⟩ | rfl <;> cases only
  · cases member
    cases only

theorem own_plain {c : Sql.Expr Node} (plain : c.isOr = false) : own c = [{ expr := c }] := by
  simp [own, plain]

section Predicate

variable {c e : Sql.Expr Node}

theorem mem_factored : e ∈ factored predicate ↔ ∃ element ∈ predicate,
    ∃ o ∈ factorSharedConjuncts element (conjunctsOf predicate) [], o.bindOnly = false ∧
      o.expr = e := by
  simp [factored, and_assoc]

theorem factored_own (member : c ∈ conjunctsOf predicate) (inside : o ∈ own c)
    (plain : o.bindOnly = false) : o.expr ∈ factored predicate := by
  obtain ⟨element, among, flat⟩ := mem_flatMap.mp member
  exact mem_factored.mpr ⟨element, among, o,
    (foldl_factorConjunct (conjunctsOf predicate) (conjuncts element)).own c flat o inside, plain,
    rfl⟩

theorem factored_origin (member : e ∈ factored predicate) :
    (∃ c ∈ conjunctsOf predicate, ∃ o ∈ own c, o.bindOnly = false ∧ o.expr = e) ∨
      ∃ c ∈ conjunctsOf predicate, Implied (implying c) e := by
  obtain ⟨element, among, o, inside, plain, rfl⟩ := mem_factored.mp member
  have inPredicate : ∀ c ∈ conjuncts element, c ∈ conjunctsOf predicate :=
    fun c flat => mem_flatMap.mpr ⟨element, among, flat⟩
  refine ((foldl_factorConjunct (conjunctsOf predicate) (conjuncts element)).origin o inside).imp
    ?_ ?_
  · rintro ⟨c, flat, found⟩
    exact ⟨c, inPredicate c flat, o, found, plain, rfl⟩
  · rintro ⟨-, c, flat, found⟩
    exact ⟨c, inPredicate c flat, found⟩

/-- Every IN list a conjunct implies is in the factored predicate. -/
theorem factored_implied (member : c ∈ conjunctsOf predicate) (implied : Implied (implying c) e) :
    e ∈ factored predicate := by
  obtain ⟨element, among, flat⟩ := mem_flatMap.mp member
  have keeps := foldl_factorConjunct (conjunctsOf predicate) (conjuncts element)
  rcases keeps.implied c flat e implied with sibling | found
  · -- written in the predicate: no OR, so kept as it is
    exact factored_own sibling (o := { expr := e }) (by simp [own_plain implied.isIn.1]) rfl
  · obtain ⟨o, inside, rfl⟩ := mem_map.mp found
    refine mem_factored.mpr ⟨element, among, o, inside, ?_, rfl⟩
    rcases keeps.origin o inside with ⟨c', -, own⟩ | ⟨plain, -⟩
    · by_contra only
      have isOr := own_bindOnly own (eq_true_of_ne_false only)
      rw [implied.isIn.1] at isOr
      cases isOr
    · exact plain

end Predicate

/-- An OR whose branches share nothing and imply no IN list the predicate lacks. -/
def Settled (predicate : List (Sql.Expr Node)) (e : Sql.Expr Node) : Prop :=
  e.isOr = true → shared (perBranch e) = [] ∧ ∀ d, Implied (perBranch e) d → d ∈ predicate

theorem length_le_flatMap {f : α → List α} (some_ : ∀ a, f a ≠ []) (list : List α) :
    list.length ≤ (list.flatMap f).length := by
  induction list with
  | nil => exact le_refl _
  | cons a rest ih =>
    have positive := length_pos_iff.mpr (some_ a)
    rw [flatMap_cons, length_append, length_cons]
    omega

theorem flatMap_eq_self {f : α → List α} (some_ : ∀ a, f a ≠ []) {list : List α} :
    list.flatMap f = list ↔ ∀ a ∈ list, f a = [a] := by
  induction list with
  | nil => simp
  | cons a rest ih =>
    constructor
    · intro same
      have longer := length_le_flatMap some_ rest
      have lengths := congrArg List.length same
      rw [flatMap_cons, length_append, length_cons] at lengths
      have positive := length_pos_iff.mpr (some_ a)
      obtain ⟨b, single⟩ := length_eq_one_iff.mp (by omega : (f a).length = 1)
      rw [flatMap_cons, single, singleton_append, List.cons.injEq] at same
      obtain ⟨rfl, others⟩ := same
      intro x member
      rcases mem_cons.mp member with rfl | later
      · exact single
      · exact ih.mp others x later
    · intro each
      rw [flatMap_cons, each a (by simp), ih.mpr fun x later => each x (by simp [later])]
      rfl

theorem own_ne_nil (c : Sql.Expr Node) : kept (own c) ≠ [] := by
  unfold own
  split_ifs with isOr none_
  · simp [kept]
  · rw [kept_append, kept_plain]
    simp [none_]
  · rw [kept_append, kept_plain]
    simp [none_]
  · simp [kept]

theorem kept_factor (c : Sql.Expr Node) :
    ∃ more, kept (factorConjunct siblings [] c) = kept (own c) ++ more ∧
      Derives (implying c) (candidates (implying c)) siblings (own c) more := by
  obtain ⟨more, same, derives⟩ := factorConjunct_kept siblings [] c
  refine ⟨more, ?_, by simpa using derives⟩
  rw [same, kept_append, kept_plain, nil_append]

theorem kept_factor_self {siblings : List (Sql.Expr Node)} {e : Sql.Expr Node} :
    kept (factorConjunct siblings [] e) = [e] ↔ Settled siblings e := by
  obtain ⟨more, same, derives⟩ := kept_factor siblings e
  rw [same]
  by_cases isOr : e.isOr = true
  · by_cases none_ : shared (perBranch e) = []
    · have own_ : own e = [{ expr := e }] := by simp [own, isOr, none_]
      have implying_ : implying e = perBranch e := by simp [implying, isOr, none_]
      rw [own_, implying_] at derives
      constructor
      · intro alone _
        have empty : more = [] := by simpa [own_, kept] using alone
        refine ⟨none_, fun d implied => ?_⟩
        obtain ⟨column, candidate, found⟩ := id implied
        rcases derives.complete column candidate d found with inside | inside | inside
        · exact inside
        · cases mem_singleton.mp inside
          rw [implied.isIn.1] at isOr
          cases isOr
        · rw [empty] at inside
          cases inside
      · intro settled
        have empty : more = [] := eq_nil_iff_forall_not_mem.mpr fun d member =>
          (derives.fresh d member).1 ((settled isOr).2 d (derives.implied d member))
        simp [own_, kept, empty]
    · constructor
      · intro alone
        obtain ⟨s, rest_, first⟩ := exists_cons_of_ne_nil none_
        have member : s ∈ shared (perBranch e) := by simp [first]
        have starts : ∃ tail, kept (own e) = s :: tail := by
          simp only [own, if_pos isOr, first]
          exact ⟨_, rfl⟩
        obtain ⟨tail, starts⟩ := starts
        rw [starts, cons_append, List.cons.injEq] at alone
        exact absurd alone.1 (shared_ne isOr member)
      · exact fun settled => absurd (settled isOr).1 none_
  · have plain := eq_false_of_ne_true isOr
    have empty : more = [] := by
      apply eq_nil_iff_forall_not_mem.mpr
      intro d member
      obtain ⟨column, candidate, -⟩ := derives.implied d member
      simp [implying, plain, candidates, distinct] at candidate
    constructor
    · exact fun _ bad => absurd bad isOr
    · intro _
      simp [own_plain plain, kept, empty]

/-- A predicate of conjuncts factors to itself where each of them does. -/
theorem factored_eq_self (flat : ∀ e ∈ predicate, conjuncts e = [e]) :
    factored predicate = predicate ↔ ∀ e ∈ predicate, Settled predicate e := by
  have siblings : conjunctsOf predicate = predicate := by
    unfold conjunctsOf
    rw [flatMap_congr flat, flatMap_singleton']
  have each : factored predicate =
      predicate.flatMap fun e => kept (factorConjunct predicate [] e) := by
    unfold factored factorSharedConjuncts
    refine flatMap_congr fun e member => ?_
    rw [flat e member, siblings]
    rfl
  rw [each, flatMap_eq_self fun e => ?_]
  · exact forall₂_congr fun e _ => kept_factor_self
  · obtain ⟨more, same, -⟩ := kept_factor predicate e
    rw [same]
    exact append_ne_nil_of_left_ne_nil (own_ne_nil e) _

omit [DecidableEq Node] in
theorem conjuncts_conjunction {parts : List (Sql.Expr Node)} (some_ : parts ≠ [])
    (flat : ∀ e ∈ parts, conjuncts e = [e]) : conjuncts (conjunction parts) = parts := by
  obtain ⟨first, others, rfl⟩ := exists_cons_of_ne_nil some_
  have more : ∀ (others : List (Sql.Expr Node)) (e : Sql.Expr Node), (∀ o ∈ others, conjuncts o = [o]) →
      conjuncts (others.foldl (.binary .and) e) = conjuncts e ++ others := by
    intro others
    induction others with
    | nil => simp
    | cons o rest ih =>
      intro e single
      rw [foldl_cons, ih _ fun o' member => single o' (by simp [member]), conjuncts,
        single o (by simp)]
      simp
  change conjuncts (others.foldl (.binary .and) first) = _
  rw [more others first fun o member => flat o (by simp [member]), flat first (by simp)]
  rfl

omit [DecidableEq Node] in
theorem branches_plain {e : Sql.Expr Node} (plain : e.isOr = false) : branches e = [e] := by
  cases e with
  | binary op left right => cases op <;> first | rfl | cases plain
  | _ => rfl

omit [DecidableEq Node] in
/-- What is left of a branch is one branch again unless it is a single OR. -/
theorem branches_conjunction {parts : List (Sql.Expr Node)} (some_ : parts ≠ [])
    (single : ∀ o, parts = [o] → o.isOr = false) :
    branches (conjunction parts) = [conjunction parts] := by
  obtain ⟨first, others, rfl⟩ := exists_cons_of_ne_nil some_
  cases others using List.reverseRecOn with
  | nil => exact branches_plain (single first rfl)
  | append_singleton others last =>
    change branches ((others ++ [last]).foldl (.binary .and) first) =
      [(others ++ [last]).foldl (.binary .and) first]
    rw [foldl_append]
    rfl

omit [DecidableEq Node] in
theorem branches_folded {first : List (Sql.Expr Node)} :
    branches (folded (first :: others)) =
      (first :: others).flatMap fun parts => branches (conjunction parts) := by
  have more : ∀ (others : List (List (Sql.Expr Node))) (e : Sql.Expr Node),
      branches (others.foldl (fun left branch => disjunction left (conjunction branch)) e) =
        branches e ++ others.flatMap fun parts => branches (conjunction parts) := by
    intro others
    induction others with
    | nil => simp
    | cons branch rest ih =>
      intro e
      rw [foldl_cons, ih, disjunction, branches, flatMap_cons, append_assoc]
  exact more others (conjunction first)

omit [DecidableEq Node] in
theorem folded_isOr {first second : List (Sql.Expr Node)} :
    (folded (first :: second :: others)).isOr = true := by
  have more : ∀ (others : List (List (Sql.Expr Node))) (e : Sql.Expr Node), e.isOr = true →
      (others.foldl (fun left branch => disjunction left (conjunction branch)) e).isOr = true := by
    intro others
    induction others with
    | nil => exact fun e isOr => isOr
    | cons branch rest ih => exact fun e _ => ih _ rfl
  exact more others _ rfl

omit [DecidableEq Node] in
theorem perBranch_or {c : Sql.Expr Node} (isOr : c.isOr = true) :
    ∃ first second others, perBranch c = first :: second :: others := by
  obtain ⟨left, right, rfl⟩ := isOr_iff.mp isOr
  obtain ⟨a, as, inLeft⟩ := exists_cons_of_ne_nil (branches_ne_nil left)
  obtain ⟨b, bs, inRight⟩ := exists_cons_of_ne_nil (branches_ne_nil right)
  cases as with
  | nil => exact ⟨_, _, _, by rw [perBranch, branches, inLeft, inRight]; rfl⟩
  | cons a' as => exact ⟨_, _, _, by rw [perBranch, branches, inLeft, inRight]; rfl⟩

omit [DecidableEq Node] in
theorem perBranch_flat {c e : Sql.Expr Node} (among : branch ∈ perBranch c) (member : e ∈ branch) :
    conjuncts e = [e] := by
  obtain ⟨b, -, rfl⟩ := mem_map.mp among
  exact conjuncts_self member

theorem mem_rest {e : Sql.Expr Node} (among : branch ∈ rest parts) (member : e ∈ branch) :
    e ∉ shared parts ∧ ∃ whole ∈ parts, e ∈ whole := by
  obtain ⟨whole, inside, rfl⟩ := mem_map.mp among
  have both := mem_filter.mp member
  exact ⟨by simpa using both.2, whole, inside, both.1⟩

theorem shared_rest (some_ : parts ≠ []) : shared (rest parts) = [] := by
  obtain ⟨first, others, rfl⟩ := exists_cons_of_ne_nil some_
  apply eq_nil_iff_forall_not_mem.mpr
  intro e member
  obtain ⟨head, each⟩ := mem_shared.mp member
  have every : ∀ branch ∈ first :: others, e ∈ branch := by
    intro branch among
    have left := each _ (mem_map.mpr ⟨branch, among, rfl⟩)
    exact (mem_filter.mp left).1
  have inRest : e ∈ first.filter fun e => e ∉ shared (first :: others) := head
  have notShared : e ∉ shared (first :: others) := by simpa using (mem_filter.mp inRest).2
  exact notShared (mem_shared.mpr ⟨every first (by simp), every⟩)

theorem folded_rest_isOr {c : Sql.Expr Node} (isOr : c.isOr = true) :
    (folded (rest (perBranch c))).isOr = true := by
  obtain ⟨first, second, others, parts⟩ := perBranch_or isOr
  simp only [rest, parts, map_cons]
  exact folded_isOr

/-- The branches of what is left of a branch: those of an OR that is left alone. -/
def flattened : List (Sql.Expr Node) → List (List (Sql.Expr Node))
  | [o] => perBranch o
  | branch => [branch]

omit [DecidableEq Node] in
theorem perBranch_conjunction {parts : List (Sql.Expr Node)} (some_ : parts ≠ [])
    (flat : ∀ e ∈ parts, conjuncts e = [e]) : perBranch (conjunction parts) = flattened parts := by
  obtain ⟨first, others, rfl⟩ := exists_cons_of_ne_nil some_
  cases others with
  | nil => rfl
  | cons second others =>
    rw [perBranch, branches_conjunction some_ (by simp), map_singleton,
      conjuncts_conjunction some_ flat]
    rfl

theorem rest_flat {c e : Sql.Expr Node} (among : branch ∈ rest (perBranch c))
    (member : e ∈ branch) : conjuncts e = [e] := by
  obtain ⟨-, whole, inside, part⟩ := mem_rest among member
  exact perBranch_flat inside part

theorem perBranch_folded {c : Sql.Expr Node} (isOr : c.isOr = true)
    (some_ : (rest (perBranch c)).any List.isEmpty = false) :
    perBranch (folded (rest (perBranch c))) = (rest (perBranch c)).flatMap flattened := by
  have nonempty : ∀ branch ∈ rest (perBranch c), branch ≠ [] := by
    simpa [any_eq_false] using some_
  obtain ⟨first, second, others, parts⟩ := perBranch_or isOr
  obtain ⟨left, more, shape⟩ : ∃ left more, rest (perBranch c) = left :: more := by
    rw [parts]
    exact ⟨_, _, rfl⟩
  rw [perBranch, shape, branches_folded, ← shape, map_flatMap]
  exact flatMap_congr fun branch among =>
    perBranch_conjunction (nonempty branch among) fun e => rest_flat among

theorem flattened_rest {c : Sql.Expr Node}
    (single : ∀ o, [o] ∈ rest (perBranch c) → o.isOr = false) :
    (rest (perBranch c)).flatMap flattened = rest (perBranch c) := by
  conv_rhs => rw [← flatMap_singleton' (rest (perBranch c))]
  refine flatMap_congr fun branch among => ?_
  unfold flattened
  split
  · next o =>
    rw [perBranch, branches_plain (single o among), map_singleton,
      rest_flat among (mem_singleton_self o)]
  · rfl

theorem mem_own {c : Sql.Expr Node} (member : o ∈ own c) (plain : o.bindOnly = false) :
    (o.expr = c ∧ (c.isOr = true → shared (perBranch c) = [])) ∨
      (c.isOr = true ∧ shared (perBranch c) ≠ [] ∧ (o.expr ∈ shared (perBranch c) ∨
        ((rest (perBranch c)).any List.isEmpty = false ∧
          o.expr = folded (rest (perBranch c))))) := by
  unfold own at member
  split_ifs at member with isOr none_ empty <;>
    simp only [mem_append, mem_singleton, mem_map] at member
  · exact .inl ⟨by rw [member], fun _ => none_⟩
  · rcases member with ⟨e, inside, rfl⟩ | rfl
    · exact .inr ⟨isOr, none_, .inl inside⟩
    · cases plain
  · rcases member with ⟨e, inside, rfl⟩ | rfl
    · exact .inr ⟨isOr, none_, .inl inside⟩
    · exact .inr ⟨isOr, none_, .inr ⟨eq_false_of_ne_true empty, rfl⟩⟩
  · exact .inl ⟨by rw [member], fun yes => absurd yes isOr⟩

theorem factored_flat {e : Sql.Expr Node} (member : e ∈ factored predicate) :
    conjuncts e = [e] := by
  rcases factored_origin member with ⟨c, among, o, inside, plain, rfl⟩ | ⟨c, -, implied⟩
  · rcases mem_own inside plain with ⟨same, -⟩ | ⟨isOr, -, common | ⟨-, same⟩⟩
    · obtain ⟨element, -, flat⟩ := mem_flatMap.mp among
      exact same ▸ conjuncts_self flat
    · obtain ⟨first, second, others, parts⟩ := perBranch_or isOr
      rw [parts] at common
      have inFirst := (mem_shared.mp common).1
      exact perBranch_flat (parts ▸ mem_cons_self ..) inFirst
    · rw [same]
      exact conjuncts_or (folded_rest_isOr isOr)
  · exact implied.isIn.2

/-- An IN list that a predicate has: written, shared by the branches of an OR, or implied by an
OR. -/
inductive Has (predicate : List (Sql.Expr Node)) (d : Sql.Expr Node) : Prop
  | written (member : d ∈ conjunctsOf predicate)
  | shared {c : Sql.Expr Node} (member : c ∈ conjunctsOf predicate) (isOr : c.isOr = true)
      (common : d ∈ OrFactoring.shared (perBranch c))
  | implied {c : Sql.Expr Node} (member : c ∈ conjunctsOf predicate)
      (implied : Implied (implying c) d)

theorem own_shared {c d : Sql.Expr Node} (isOr : c.isOr = true) (common : d ∈ shared (perBranch c)) :
    { expr := d } ∈ own c := by
  have some_ : shared (perBranch c) ≠ [] := ne_nil_of_mem common
  simp [own, isOr, some_, common]

theorem mem_factored_iff_has {d : Sql.Expr Node} (plain : d.isOr = false) :
    d ∈ factored predicate ↔ Has predicate d := by
  constructor
  · intro member
    rcases factored_origin member with ⟨c, among, o, inside, kept, rfl⟩ | ⟨c, among, implied⟩
    · rcases mem_own inside kept with ⟨same, -⟩ | ⟨isOr, -, common | ⟨-, same⟩⟩
      · exact .written (same ▸ among)
      · exact .shared among isOr common
      · rw [same, folded_rest_isOr isOr] at plain
        cases plain
    · exact .implied among implied
  · rintro (among | ⟨among, isOr, common⟩ | ⟨among, implied⟩)
    · exact factored_own among (o := { expr := d }) (by simp [own_plain plain]) rfl
    · exact factored_own among (own_shared isOr common) rfl
    · exact factored_implied among implied

/-- Branches that share no conjunct and imply no IN list that the predicate lacks. -/
structure Unsplit (predicate : List (Sql.Expr Node)) (parts : List (List (Sql.Expr Node))) : Prop where
  apart : shared parts = []
  implied : ∀ d, Implied parts d → Has predicate d

theorem settled_iff {e : Sql.Expr Node} :
    Settled (factored predicate) e ↔ (e.isOr = true → Unsplit predicate (perBranch e)) := by
  refine forall_congr' fun _ => ⟨fun ⟨apart, implied⟩ => ⟨apart, fun d is => ?_⟩,
    fun ⟨apart, implied⟩ => ⟨apart, fun d is => ?_⟩⟩
  · exact (mem_factored_iff_has is.isIn.1).mp (implied d is)
  · exact (mem_factored_iff_has is.isIn.1).mpr (implied d is)

/-- An OR that shares conjuncts between its branches leaves nothing to factor again: in none of
those that is an OR itself, nor in what is left of the branches where one is left a single OR. -/
structure Stable (predicate : List (Sql.Expr Node)) (c : Sql.Expr Node) : Prop where
  shared : ∀ s ∈ shared (perBranch c), s.isOr = true → Unsplit predicate (perBranch s)
  left : OrFactoring.shared (perBranch c) ≠ [] → [] ∉ rest (perBranch c) →
    (∃ o, [o] ∈ rest (perBranch c) ∧ o.isOr = true) →
      Unsplit predicate ((rest (perBranch c)).flatMap flattened)

theorem any_isEmpty {lists : List (List α)} : lists.any List.isEmpty = false ↔ [] ∉ lists := by
  rw [any_eq_false]
  exact ⟨fun each empty => each [] empty rfl,
    fun none_ list among empty => none_ (isEmpty_iff.mp empty ▸ among)⟩

/-- Factoring is idempotent exactly where the predicate's ORs are stable. -/
theorem factored_idempotent_iff (predicate : List (Sql.Expr Node)) :
    factored (factored predicate) = factored predicate ↔
      ∀ c ∈ conjunctsOf predicate, c.isOr = true → Stable predicate c := by
  rw [factored_eq_self fun e => factored_flat]
  constructor
  · intro settled c member isOr
    constructor
    · intro s common
      exact settled_iff.mp (settled s (factored_own member (own_shared isOr common) rfl))
    · intro common some_ _
      have kept : { expr := folded (rest (perBranch c)) } ∈ own c := by
        simp [own, isOr, common, any_isEmpty.mpr some_]
      have unsplit := settled_iff.mp (settled _ (factored_own member kept rfl))
        (folded_rest_isOr isOr)
      rwa [perBranch_folded isOr (any_isEmpty.mpr some_)] at unsplit
  · intro stable e member
    rcases factored_origin member with ⟨c, among, o, inside, plain, rfl⟩ | ⟨c, -, implied⟩
    · rcases mem_own inside plain with ⟨same, nothing⟩ | ⟨isOr, common, one | ⟨some_, same⟩⟩
      · -- the conjunct itself: an OR whose branches share nothing
        rw [same]
        intro isOr
        refine ⟨nothing isOr, fun d implied => factored_implied among ?_⟩
        simpa [implying, isOr, nothing isOr] using implied
      · exact settled_iff.mpr ((stable c among isOr).shared o.expr one)
      · rw [same, settled_iff, perBranch_folded isOr some_]
        intro _
        by_cases nested : ∃ o, [o] ∈ rest (perBranch c) ∧ o.isOr = true
        · exact (stable c among isOr).left common (any_isEmpty.mp some_) nested
        · -- no branch is left a single OR: what is left was looked at already
          have parts : perBranch c ≠ [] := by
            obtain ⟨first, second, others, shape⟩ := perBranch_or isOr
            simp [shape]
          rw [flattened_rest fun o left => eq_false_of_ne_true fun isOr' => nested ⟨o, left, isOr'⟩]
          refine ⟨shared_rest parts, fun d implied => .implied among ?_⟩
          simpa [implying, isOr, common, some_] using implied
    · intro isOr
      rw [implied.isIn.1] at isOr
      cases isOr

/-- `column = value`. -/
def columnIs (column : Nat) (value : String) : Sql.Expr Nat :=
  .binary .eq (.node column) (.literal { text := value })

/-- `(a = 0 AND (x = 1 OR x = 2)) OR (a = 0 AND (x = 1 OR x = 3))`: what is left of its branches is
`(x = 1 OR x = 2) OR (x = 1 OR x = 3)`, which implies an IN list only when it is factored again. -/
def nestedOr : Sql.Expr Nat :=
  .binary .or (.binary .and (columnIs 0 "0") (.binary .or (columnIs 1 "1") (columnIs 1 "2")))
    (.binary .and (columnIs 0 "0") (.binary .or (columnIs 1 "1") (columnIs 1 "3")))

theorem factored_nestedOr :
    factored [nestedOr] = [columnIs 0 "0", .binary .or (.binary .or (columnIs 1 "1") (columnIs 1 "2"))
      (.binary .or (columnIs 1 "1") (columnIs 1 "3"))] ∧
    factored (factored [nestedOr]) = factored [nestedOr] ++ [.inList (.node 1)
      [.literal { text := "1" }, .literal { text := "2" }, .literal { text := "3" }] false] ∧
    factored (factored [nestedOr]) ≠ factored [nestedOr] := by
  refine ⟨by decide, by decide, by decide⟩

end Antb1.Plan.OrFactoring
