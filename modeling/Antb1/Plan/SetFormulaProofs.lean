import Antb1.Plan.SetFormula

/-! A formula that checks is one tree whose inputs are read in order. Its value
depends on a row's count in an input only where the row can still change it: not
before a starter has the row, and on no more than presence where no term reads
the count. -/
namespace Antb1.Plan

open List

variable {kind : SetTermKind} {formula : List SetTerm}

@[elab_as_elim]
theorem SetTreeNode.induct {motive : SetTreeNode → Prop}
    (node : ∀ kind input operands, (∀ operand ∈ operands, motive operand) →
      motive (.mk kind input operands)) : ∀ tree, motive tree
  | .mk kind input operands => node kind input operands fun operand _ => induct node operand
termination_by tree => sizeOf tree
decreasing_by
  rename_i member
  have smaller := sizeOf_lt_of_mem member
  simp only [SetTreeNode.mk.sizeOf_spec]
  omega

mutual

/-- The tree reads the inputs from `first` up to `last`, each once and in order. -/
inductive Covers : Nat → SetTreeNode → Nat → Prop
  | input (input : Nat) : Covers input (.mk .input input []) (input + 1)
  | operator {kind first operands last} : kind ≠ .input → operands ≠ [] →
      CoversAll first operands last → Covers first (.mk kind 0 operands) last

inductive CoversAll : Nat → List SetTreeNode → Nat → Prop
  | nil (first : Nat) : CoversAll first [] first
  | cons {first tree middle rest last} : Covers first tree middle → CoversAll middle rest last →
      CoversAll first (tree :: rest) last

end

variable {tree : SetTreeNode} {trees : List SetTreeNode} {first last : Nat}
  {next depth' next' : Nat} {stack : List SetTreeNode} {count : Nat → Nat}

mutual

theorem Covers.lt {first last : Nat} {tree : SetTreeNode} : Covers first tree last → first < last
  | .input _ => Nat.lt_succ_self _
  | .operator _ _ (.cons head rest) => Nat.lt_of_lt_of_le head.lt rest.le

theorem CoversAll.le {first last : Nat} {trees : List SetTreeNode} :
    CoversAll first trees last → first ≤ last
  | .nil _ => le_rfl
  | .cons head rest => (Nat.le_of_lt head.lt).trans rest.le

end

theorem CoversAll.append_iff {left right : List SetTreeNode} :
    CoversAll first (left ++ right) last ↔
      ∃ middle, CoversAll first left middle ∧ CoversAll middle right last := by
  induction left generalizing first with
  | nil =>
    constructor
    · intro covers
      exact ⟨first, .nil first, covers⟩
    · rintro ⟨middle, left, right⟩
      cases left
      exact right
  | cons tree rest ih =>
    constructor
    · intro covers
      cases covers with
      | cons head tail =>
        obtain ⟨middle, left, right⟩ := ih.mp tail
        exact ⟨middle, .cons head left, right⟩
    · rintro ⟨middle, left, right⟩
      cases left with
      | cons head tail => exact .cons head (ih.mpr ⟨middle, tail, right⟩)

theorem CoversAll.member (covers : CoversAll first trees last) (member : tree ∈ trees) :
    ∃ a b, first ≤ a ∧ Covers a tree b ∧ b ≤ last := by
  induction trees generalizing first with
  | nil => cases member
  | cons head rest ih =>
    cases covers with
    | cons covered tail =>
      rcases mem_cons.mp member with rfl | inside
      · exact ⟨_, _, le_rfl, covered, tail.le⟩
      · obtain ⟨a, b, lower, middle, upper⟩ := ih tail inside
        exact ⟨a, b, (Nat.le_of_lt covered.lt).trans lower, middle, upper⟩

def buildTrees (formula : List SetTerm) (stack : List SetTreeNode) : Option (List SetTreeNode) :=
  Postfix.run (fun input => .mk .input input []) (fun kind operands => .mk kind 0 operands)
    (formula.map SetTerm.action) stack

theorem buildTrees_append (first second : List SetTerm) (stack : List SetTreeNode) :
    buildTrees (first ++ second) stack = (buildTrees first stack).bind (buildTrees second) := by
  rw [buildTrees, map_append, Postfix.run_append]
  rfl

theorem checkTerms_append (t : Nat) (first second : List SetTerm) (depth next : Nat) :
    checkTerms t (first ++ second) depth next =
      match checkTerms t first depth next with
      | .error problem => .error problem
      | .ok (depth, next) => checkTerms (t + first.length) second depth next := by
  induction first generalizing t depth next with
  | nil => rfl
  | cons term rest ih =>
    simp only [cons_append, checkTerms]
    cases checkTerm t term depth next with
    | error problem => rfl
    | ok state =>
      simp only [ih, length_cons]
      rw [Nat.add_right_comm, Nat.add_assoc]

theorem checkTerm_covers {t : Nat} {term : SetTerm}
    (checked : checkTerm t term stack.length next = .ok (depth', next'))
    (covers : CoversAll 0 stack next) :
    ∃ stack', Postfix.step (fun input => .mk .input input [])
        (fun kind operands => .mk kind 0 operands) stack term.action = some stack' ∧
      stack'.length = depth' ∧ CoversAll 0 stack' next' := by
  unfold checkTerm at checked
  split at checked
  case isTrue input =>
    split at checked
    case isTrue => cases checked
    case isFalse same =>
      obtain ⟨rfl, rfl⟩ := Prod.mk.inj (Except.ok.inj checked)
      obtain rfl : term.input = next := Decidable.not_not.mp same
      refine ⟨stack ++ [.mk .input term.input []], ?_, by simp, ?_⟩
      · simp [SetTerm.action, input, Postfix.step]
      · exact CoversAll.append_iff.mpr ⟨_, covers, .cons (.input _) (.nil _)⟩
  case isFalse operator =>
    split at checked
    case isTrue => cases checked
    case isFalse enough =>
      obtain ⟨rfl, rfl⟩ := Prod.mk.inj (Except.ok.inj checked)
      have bound : 0 < term.operands ∧ term.operands ≤ stack.length := by omega
      have parts := take_append_drop (stack.length - term.operands) stack
      obtain ⟨middle, below, operands⟩ := CoversAll.append_iff.mp (parts.symm ▸ covers)
      refine ⟨stack.take (stack.length - term.operands) ++
        [.mk term.kind 0 (stack.drop (stack.length - term.operands))], ?_, ?_, ?_⟩
      · simp [SetTerm.action, operator, Postfix.step, bound.2]
      · simp only [length_append, length_take, length_cons, length_nil]
        omega
      · have present : stack.drop (stack.length - term.operands) ≠ [] := by
          intro empty
          have := congrArg List.length empty
          simp only [length_drop, length_nil] at this
          omega
        exact CoversAll.append_iff.mpr
          ⟨middle, below, .cons (.operator operator present operands) (.nil _)⟩

theorem checkTerms_covers {t : Nat}
    (checked : checkTerms t formula stack.length next = .ok (depth', next'))
    (covers : CoversAll 0 stack next) :
    ∃ stack', buildTrees formula stack = some stack' ∧ stack'.length = depth' ∧
      CoversAll 0 stack' next' := by
  induction formula generalizing t stack next with
  | nil =>
    obtain ⟨rfl, rfl⟩ := Prod.mk.inj (Except.ok.inj checked)
    exact ⟨stack, rfl, rfl, covers⟩
  | cons term rest ih =>
    simp only [checkTerms] at checked
    split at checked
    · cases checked
    · rename_i depth next stepped
      obtain ⟨stack', step, rfl, covers'⟩ := checkTerm_covers stepped covers
      obtain ⟨final, run, length, all⟩ := ih checked covers'
      refine ⟨final, ?_, length, all⟩
      rw [buildTrees, map_cons, Postfix.run_cons, step]
      exact run

theorem checkTerms_operands {t : Nat} {depth next : Nat} {result : Nat × Nat}
    (checked : checkTerms t formula depth next = .ok result) :
    ∀ term ∈ formula, term.kind ≠ .input → 0 < term.operands := by
  induction formula generalizing t depth next with
  | nil => simp
  | cons head rest ih =>
    simp only [checkTerms] at checked
    split at checked
    · cases checked
    · rename_i stepped
      intro term member operator
      rcases mem_cons.mp member with rfl | inside
      · simp only [checkTerm, operator, if_false] at stepped
        split at stepped
        · cases stepped
        · omega
      · exact ih checked term inside operator

theorem checkSetFormula_operands {inputs : Nat} (checked : checkSetFormula formula inputs = none) :
    ∀ term ∈ formula, term.kind ≠ .input → 0 < term.operands := by
  unfold checkSetFormula at checked
  split at checked
  · cases checked
  · split at checked
    · cases checked
    · rename_i terms
      exact checkTerms_operands terms

theorem action_eq_node {term : SetTerm} {arity : Nat} (node : term.action = .node kind arity) :
    term.kind ≠ .input ∧ term.kind = kind ∧ term.operands = arity := by
  unfold SetTerm.action at node
  split at node
  · cases node
  · rename_i operator
    injection node with same_kind same_arity
    exact ⟨operator, same_kind, same_arity⟩

theorem setTreeOf_covers {inputs : Nat} (checked : checkSetFormula formula inputs = none) :
    ∃ root, setTreeOf formula = some root ∧
      buildTrees formula [] = some [root] ∧ Covers 0 root inputs := by
  unfold checkSetFormula at checked
  split at checked
  · cases checked
  · split at checked
    · cases checked
    · rename_i depth next terms
      obtain ⟨stack, run, length, covers⟩ := checkTerms_covers terms (.nil 0)
      split at checked
      · cases checked
      · rename_i all
        split at checked
        · cases checked
        · rename_i single
          obtain rfl : next = inputs := Decidable.not_not.mp all
          obtain ⟨root, rfl⟩ := length_eq_one_iff.mp
            (length.trans (Decidable.not_not.mp single))
          cases covers with
          | cons covered tail =>
            cases tail
            have tree : setTreeOf formula = some root := by
              unfold setTreeOf
              rw [buildTrees] at run
              rw [run]
            exact ⟨root, tree, run, covered⟩

/-- The input can make a row of the tree's result. -/
inductive Starts : SetTreeNode → Nat → Prop
  | input {input operands} : Starts (.mk .input input operands) input
  | union {input operands operand k} : operand ∈ operands → Starts operand k →
      Starts (.mk .union input operands) k
  | first {kind input head rest k} : kind ≠ .input → kind ≠ .union → Starts head k →
      Starts (.mk kind input (head :: rest)) k

/-- Every operator but UNION gives nothing where its first operand does. -/
theorem termValue_zero (single : kind ≠ .union) (rest : List Nat) :
    termValue kind (0 :: rest) = 0 := by
  cases kind with
  | union => exact absurd rfl single
  | intersectAll =>
    have least : (0 :: rest).min? = some 0 := by
      rw [min?_eq_some_iff]
      exact ⟨by simp, fun _ _ => Nat.zero_le _⟩
    simp [termValue, least]
  | _ => simp [termValue]

theorem termValue_union_zero {values : List Nat} (zero : ∀ x ∈ values, x = 0) :
    termValue .union values = 0 := by
  have absent : ¬ ∃ x ∈ values, 0 < x := by
    rintro ⟨x, member, positive⟩
    have := zero x member
    omega
  simp only [termValue, absent, if_false]

theorem value_operator (operator : kind ≠ .input) (count : Nat → Nat) (input : Nat)
    (operands : List SetTreeNode) :
    (SetTreeNode.mk kind input operands).value count =
      termValue kind (operands.map (SetTreeNode.value count)) := by
  cases kind with
  | input => exact absurd rfl operator
  | _ => rw [SetTreeNode.value]; simp

theorem value_eq_zero (covers : Covers first tree last)
    (absent : ∀ k, Starts tree k → count k = 0) : tree.value count = 0 := by
  induction tree using SetTreeNode.induct generalizing first last with
  | node kind input operands ih =>
    cases covers with
    | input => simpa only [SetTreeNode.value] using absent _ .input
    | operator operator present all =>
      rw [value_operator operator]
      by_cases union : kind = .union
      · subst union
        apply termValue_union_zero
        simp only [mem_map, forall_exists_index, and_imp, forall_apply_eq_imp_iff₂]
        intro operand member
        obtain ⟨_, _, _, covered, _⟩ := all.member member
        exact ih operand member covered fun k starts => absent k (.union member starts)
      · cases all with
        | nil => exact absurd rfl present
        | cons covered tail =>
          have zero := ih _ (by simp) covered fun k starts => absent k (.first operator union starts)
          rw [map_cons, zero]
          exact termValue_zero union _

theorem starts_bound {k : Nat} (covers : Covers first tree last) (starts : Starts tree k) :
    first ≤ k ∧ k < last := by
  induction starts generalizing first last with
  | input =>
    cases covers with
    | input => exact ⟨le_rfl, Nat.lt_succ_self _⟩
    | operator operator => exact absurd rfl operator
  | union member _ ih =>
    cases covers with
    | operator _ _ all =>
      obtain ⟨a, b, lower, covered, upper⟩ := all.member member
      have inside := ih covered
      omega
  | first _ _ _ ih =>
    cases covers with
    | operator _ _ all =>
      cases all with
      | cons covered tail =>
        have inside := ih covered
        have beyond := tail.le
        omega

theorem value_congr {count count' : Nat → Nat} (covers : Covers first tree last)
    (same : ∀ k, first ≤ k → k < last → count k = count' k) :
    tree.value count = tree.value count' := by
  induction tree using SetTreeNode.induct generalizing first last with
  | node kind input operands ih =>
    cases covers with
    | input => simpa only [SetTreeNode.value] using same _ le_rfl (Nat.lt_succ_self _)
    | operator operator present all =>
      rw [value_operator operator, value_operator operator]
      congr 1
      apply map_congr_left
      intro operand member
      obtain ⟨a, b, lower, covered, upper⟩ := all.member member
      exact ih operand member covered fun k above below =>
        same k (lower.trans above) (Nat.lt_of_lt_of_le below upper)

/-- The counts recorded for a row whose group starts at input `start`: an earlier
input's lookups found no group. -/
def recordedFrom (start : Nat) (count : Nat → Nat) (k : Nat) : Nat :=
  if k < start then 0 else count k

/-- Counts missed before the first starter with the row do not change the value. -/
theorem value_recordedFrom {start : Nat} (covers : Covers first tree last)
    (absent : ∀ k, Starts tree k → k < start → count k = 0) :
    tree.value (recordedFrom start count) = tree.value count := by
  induction tree using SetTreeNode.induct generalizing first last with
  | node kind input operands ih =>
    cases covers with
    | input =>
      simp only [SetTreeNode.value, recordedFrom]
      split
      · rename_i before
        exact (absent _ .input before).symm
      · rfl
    | operator operator present all =>
      rw [value_operator operator, value_operator operator]
      by_cases union : kind = .union
      · subst union
        congr 1
        apply map_congr_left
        intro operand member
        obtain ⟨_, _, _, covered, _⟩ := all.member member
        exact ih operand member covered fun k starts => absent k (.union member starts)
      · cases all with
        | nil => exact absurd rfl present
        | @cons _ head middle rest _ covered tail =>
          have starters : ∀ k, Starts head k → k < start → count k = 0 :=
            fun k starts => absent k (.first operator union starts)
          have same := ih head (by simp) covered starters
          by_cases reached : start ≤ middle
          -- The other operands are read after the row's group exists.
          · congr 1
            rw [map_cons, map_cons, same]
            congr 1
            apply map_congr_left
            intro operand member
            obtain ⟨a, b, lower, inside, upper⟩ := tail.member member
            refine value_congr inside fun k above _ => ?_
            have : ¬ k < start := by omega
            simp [recordedFrom, this]
          -- No starter has the row: the first operand is 0 on both sides.
          · have zero : head.value count = 0 := by
              refine value_eq_zero covered fun k starts => starters k starts ?_
              have bound := starts_bound covered starts
              omega
            rw [map_cons, map_cons, same, zero, termValue_zero union,
              termValue_zero union]

mutual

theorem markStarters_length (tree : SetTreeNode) (starters : List Bool) :
    (markStarters tree starters).length = starters.length := by
  obtain ⟨kind, input, operands⟩ := tree
  cases kind with
  | input => simp [markStarters]
  | union => rw [markStarters, markAllStarters_length]
  | _ =>
    cases operands with
    | nil => simp [markStarters, markFirstStarters]
    | cons head rest =>
      simp only [markStarters, markFirstStarters]
      exact markStarters_length head starters

theorem markAllStarters_length (trees : List SetTreeNode) (starters : List Bool) :
    (markAllStarters trees starters).length = starters.length := by
  cases trees with
  | nil => rw [markAllStarters]
  | cons tree rest => rw [markAllStarters, markAllStarters_length rest, markStarters_length tree]

end

theorem markStarters_other (operator : kind ≠ .input) (other : kind ≠ .union) (input : Nat)
    (operands : List SetTreeNode) (starters : List Bool) :
    markStarters (.mk kind input operands) starters = markFirstStarters operands starters := by
  cases kind with
  | input => exact absurd rfl operator
  | union => exact absurd rfl other
  | _ => rw [markStarters] <;> simp

theorem markAllStarters_marks {k : Nat} (starters : List Bool) (bound : k < starters.length)
    (each : ∀ tree ∈ trees, ∀ starters : List Bool, k < starters.length →
      ((markStarters tree starters)[k]? = some true ↔
        Starts tree k ∨ starters[k]? = some true)) :
    (markAllStarters trees starters)[k]? = some true ↔
      (∃ tree ∈ trees, Starts tree k) ∨ starters[k]? = some true := by
  induction trees generalizing starters with
  | nil => simp [markAllStarters]
  | cons head rest ih =>
    have longer : k < (markStarters head starters).length := by rwa [markStarters_length]
    rw [markAllStarters, ih _ longer fun tree member => each tree (by simp [member]),
      each head (by simp) starters bound]
    simp only [mem_cons, exists_eq_or_imp]
    rw [or_left_comm, or_assoc]

theorem markStarters_marks {k : Nat} (starters : List Bool) (bound : k < starters.length) :
    (markStarters tree starters)[k]? = some true ↔ Starts tree k ∨ starters[k]? = some true := by
  induction tree using SetTreeNode.induct generalizing starters with
  | node kind input operands ih =>
    by_cases isInput : kind = .input
    · subst isInput
      rw [markStarters, getElem?_set]
      constructor
      · intro marked
        split at marked
        · rename_i same
          exact .inl (same ▸ .input)
        · exact .inr marked
      · rintro (starts | marked)
        · cases starts with
          | input => simp [bound]
          | first operator => exact absurd rfl operator
        · split
          · simp [*]
          · exact marked
    · by_cases union : kind = .union
      · subst union
        rw [markStarters, markAllStarters_marks starters bound fun tree member => ih tree member]
        constructor
        · rintro (⟨tree, member, starts⟩ | marked)
          · exact .inl (.union member starts)
          · exact .inr marked
        · rintro (starts | marked)
          · cases starts with
            | union member starts => exact .inl ⟨_, member, starts⟩
            | first _ other => exact absurd rfl other
          · exact .inr marked
      · rw [markStarters_other isInput union]
        cases operands with
        | nil =>
          rw [markFirstStarters]
          constructor
          · exact .inr
          · rintro (starts | marked)
            · cases starts with
              | input => exact absurd rfl isInput
              | union => exact absurd rfl union
            · exact marked
        | cons head rest =>
          rw [markFirstStarters, ih head (by simp) starters bound]
          constructor
          · rintro (starts | marked)
            · exact .inl (.first isInput union starts)
            · exact .inr marked
          · rintro (starts | marked)
            · cases starts with
              | input => exact absurd rfl isInput
              | union => exact absurd rfl union
              | first _ _ starts => exact .inl starts
            · exact .inr marked

theorem markCounted_operator (operator : kind ≠ .input) (input : Nat) (operands : List SetTreeNode)
    (read : Bool) (counted : List Bool) :
    markCounted (.mk kind input operands) read counted =
      markAllCounted operands (operandsRead kind read) counted := by
  cases kind with
  | input => exact absurd rfl operator
  | _ => rw [markCounted]; simp

mutual

theorem markCounted_length (tree : SetTreeNode) (read : Bool) (counted : List Bool) :
    (markCounted tree read counted).length = counted.length := by
  obtain ⟨kind, input, operands⟩ := tree
  by_cases operator : kind = .input
  · subst operator
    rw [markCounted, length_set]
  · rw [markCounted_operator operator, markAllCounted_length operands]

theorem markAllCounted_length (trees : List SetTreeNode) (read : Bool) (counted : List Bool) :
    (markAllCounted trees read counted).length = counted.length := by
  cases trees with
  | nil => rw [markAllCounted]
  | cons tree rest => rw [markAllCounted, markAllCounted_length rest, markCounted_length tree]

end

mutual

theorem markCounted_frame {first last k : Nat} {tree : SetTreeNode} (read : Bool)
    (counted : List Bool) (outside : k < first ∨ last ≤ k) :
    Covers first tree last → (markCounted tree read counted)[k]? = counted[k]?
  | .input input => by
    rw [markCounted, getElem?_set_ne (by omega)]
  | .operator operator _ all => by
    rw [markCounted_operator operator]
    exact markAllCounted_frame _ counted outside all

theorem markAllCounted_frame {first last k : Nat} {trees : List SetTreeNode} (read : Bool)
    (counted : List Bool) (outside : k < first ∨ last ≤ k) :
    CoversAll first trees last → (markAllCounted trees read counted)[k]? = counted[k]?
  | .nil _ => by rw [markAllCounted]
  | .cons head rest => by
    have middle := head.lt
    have beyond := rest.le
    rw [markAllCounted, markAllCounted_frame read _ (by omega) rest,
      markCounted_frame read counted (by omega) head]

end

/-- Two values that agree in what a reader uses: presence, and the count if it is
read. -/
structure SameRead (read : Bool) (x y : Nat) : Prop where
  presence : 0 < x ↔ 0 < y
  count : read = true → x = y

theorem SameRead.refl (read : Bool) (x : Nat) : SameRead read x x := ⟨Iff.rfl, fun _ => rfl⟩

theorem min?_pos_iff {values : List Nat} :
    0 < values.min?.getD 0 ↔ values ≠ [] ∧ ∀ x ∈ values, 0 < x := by
  cases least : values.min? with
  | none => simp [min?_eq_none_iff.mp least]
  | some value =>
    obtain ⟨member, lower⟩ := min?_eq_some_iff.mp least
    constructor
    · intro positive
      exact ⟨ne_nil_of_mem member, fun x inside => Nat.lt_of_lt_of_le positive (lower x inside)⟩
    · rintro ⟨_, all⟩
      exact all value member

/-- What a term reads of its operands fixes what can be read of the term. -/
theorem termValue_sameRead {read : Bool} {left right : SetTreeNode → Nat}
    (same : ∀ tree ∈ trees, SameRead (operandsRead kind read) (left tree) (right tree)) :
    SameRead read (termValue kind (trees.map left)) (termValue kind (trees.map right)) := by
  have present : ∀ tree ∈ trees, (0 < left tree ↔ 0 < right tree) :=
    fun tree member => (same tree member).presence
  cases kind with
  | input => exact .refl read _
  | union =>
    have iff : (∃ x ∈ trees.map left, 0 < x) ↔ ∃ x ∈ trees.map right, 0 < x := by
      simp only [mem_map, exists_exists_and_eq_and]
      exact exists_congr fun tree => and_congr_right (present tree)
    simp only [termValue, iff]
    exact .refl read _
  | intersect =>
    have iff : (∀ x ∈ trees.map left, 0 < x) ↔ ∀ x ∈ trees.map right, 0 < x := by
      simp only [mem_map, forall_exists_index, and_imp, forall_apply_eq_imp_iff₂]
      exact forall₂_congr present
    simp only [termValue, iff]
    exact .refl read _
  | intersectAll =>
    refine ⟨?_, fun counts => ?_⟩
    · simp only [termValue, min?_pos_iff, ne_eq, map_eq_nil_iff, mem_map,
        forall_exists_index, and_imp, forall_apply_eq_imp_iff₂]
      exact and_congr_right fun _ => forall₂_congr present
    · rw [map_congr_left fun tree member => (same tree member).count counts]
  | except =>
    cases trees with
    | nil => exact .refl read _
    | cons head rest =>
      have iff : (0 < left head ∧ ∀ x ∈ rest.map left, x = 0) ↔
          0 < right head ∧ ∀ x ∈ rest.map right, x = 0 := by
        simp only [mem_map, forall_exists_index, and_imp, forall_apply_eq_imp_iff₂]
        refine and_congr (present head (by simp)) (forall₂_congr fun tree member => ?_)
        have := present tree (by simp [member])
        omega
      simp only [map_cons, termValue, iff]
      exact .refl read _
  | exceptAll =>
    rw [map_congr_left fun tree member => (same tree member).count rfl]
    exact .refl read _

/-- A count as an input keeps it: a presence bit unless it is counted. -/
def cell (counted : Bool) (count : Nat) : Nat :=
  if counted then count else if 0 < count then 1 else 0

theorem cell_sameRead (read : Bool) (count : Nat) : SameRead read (cell read count) count := by
  unfold cell
  split
  · exact .refl read count
  · rename_i unread
    refine ⟨?_, fun counts => absurd counts unread⟩
    split <;> simp [*]

mutual

theorem value_cell {first last : Nat} {tree : SetTreeNode} (read : Bool) (counted : List Bool)
    (bound : last ≤ counted.length) (marks : Nat → Bool) (count : Nat → Nat)
    (marked : ∀ k, first ≤ k → k < last → (markCounted tree read counted)[k]? = some (marks k)) :
    Covers first tree last →
      SameRead read (tree.value fun k => cell (marks k) (count k)) (tree.value count)
  | .input input => by
    have here := marked input le_rfl (Nat.lt_succ_self input)
    rw [markCounted, getElem?_set_self (by omega)] at here
    rw [SetTreeNode.value, SetTreeNode.value, ← Option.some.inj here]
    exact cell_sameRead read _
  | .operator operator _ all => by
    rw [value_operator operator, value_operator operator]
    refine termValue_sameRead fun tree member => ?_
    refine values_cell _ counted bound marks count (fun k above below => ?_) all tree member
    rw [← markCounted_operator operator]
    exact marked k above below

theorem values_cell {first last : Nat} {trees : List SetTreeNode} (read : Bool)
    (counted : List Bool) (bound : last ≤ counted.length) (marks : Nat → Bool) (count : Nat → Nat)
    (marked : ∀ k, first ≤ k → k < last →
      (markAllCounted trees read counted)[k]? = some (marks k)) :
    CoversAll first trees last → ∀ tree ∈ trees,
      SameRead read (tree.value fun k => cell (marks k) (count k)) (tree.value count)
  | .nil _ => by simp
  | @CoversAll.cons _ head middle rest _ covered tail => by
    have lower := covered.lt
    have upper := tail.le
    intro tree member
    rcases mem_cons.mp member with same | inside
    · rw [same]
      refine value_cell read counted (by omega) marks count (fun k above below => ?_) covered
      rw [← marked k above (by omega), markAllCounted,
        markAllCounted_frame read _ (by omega) tail]
    · refine values_cell read (markCounted head read counted)
        (by rw [markCounted_length]; omega) marks count (fun k above below => ?_) tail tree inside
      rw [← marked k (by omega) below, markAllCounted]

end

end Antb1.Plan
