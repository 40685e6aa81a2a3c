import Antb1.Common.Int128
import Antb1.Lib.Results
import Antb1.Exec.Compute
import Antb1.Exec.PartPruning

/-! Leaving parts out by their statistics is sound: a predicate that leaves a part out holds of
none of its rows, so the filters keep the same rows, in the same order, of the parts that are
left. -/
namespace Antb1.Plan.PartStats

/-- Statistics that are true of a column's values: exact counts, and bounds of the values that are
not NULL. -/
structure BoundsOf (stats : PartStats) (values : List Value) : Prop where
  rows : stats.rows = values.length
  nullCount : stats.nullCount = values.count .null
  min : ∀ lo ∈ stats.min, ∀ v ∈ values, v ≠ .null → ∃ x, v = .int x ∧ lo ≤ x
  max : ∀ hi ∈ stats.max, ∀ v ∈ values, v ≠ .null → ∃ x, v = .int x ∧ x ≤ hi

variable {stats : PartStats} {values : List Value} {v : Value} (bounds : stats.BoundsOf values)
  (among : v ∈ values)
include bounds among

theorem BoundsOf.all_null (all : stats.nullCount ≥ stats.rows) : v = .null := by
  rw [bounds.rows, bounds.nullCount] at all
  have whole : values.count .null = values.length := le_antisymm List.count_le_length all
  exact (List.count_eq_length.mp whole v among).symm

theorem BoundsOf.within {lo hi : Int} (isMin : lo ∈ stats.min) (isMax : hi ∈ stats.max) :
    v = .null ∨ ∃ x, v = .int x ∧ lo ≤ x ∧ x ≤ hi := by
  refine or_iff_not_imp_left.mpr fun present => ?_
  obtain ⟨x, rfl, least⟩ := bounds.min lo isMin v among present
  obtain ⟨_, ⟨⟩, most⟩ := bounds.max hi isMax _ among present
  exact ⟨x, rfl, least, most⟩

end Antb1.Plan.PartStats

namespace Antb1.Exec

open Plan Lib PredicateEvaluator

def ArrowType.scale : ArrowType → Nat
  | .decimal64 _ scale | .decimal128 _ scale => scale
  | _ => 0

theorem toArrow_scale (type : LogicalType) : (toArrow type).scale = type.scale := by
  cases type with
  | decimal width scale =>
    simp only [toArrow]
    split_ifs <;> rfl
  | _ => rfl

theorem compareValues_null (kernels : Kernels) (op : CompareOp) (left right : LogicalType)
    (v : Value) : compareValues kernels op left right .null v = none := by
  cases v <;> rfl

namespace PartPruning

variable {op : CompareOp} {c a b lo hi x : Int} {constant : Constant}

/-- Whether `c`, which stands for `c * b / a` of a column's numbers, rules out by its own value a
number that the comparison holds of. -/
def Misread (op : CompareOp) (c a b : Int) : Prop :=
  match op with
  | .eq => c * a ≠ c * b ∧ a ∣ c * b
  | .ne => c * a ≠ c * b
  | .lt => c * a < c * b
  | .le => (c + 1) * a ≤ c * b
  | .gt => c * b < c * a
  | .ge => c * b ≤ (c - 1) * a

theorem holds_compare (op : CompareOp) (x y : Int) : op.holds (compare x y) = true ↔
    match op with
    | .eq => x = y
    | .ne => x ≠ y
    | .lt => x < y
    | .le => x ≤ y
    | .gt => y < x
    | .ge => y ≤ x := by
  rcases lt_trichotomy x y with less | equal | more
  · rw [compare_lt_iff_lt.mpr less]
    cases op <;> simp [CompareOp.holds] <;> omega
  · rw [compare_eq_iff_eq.mpr equal]
    cases op <;> simp [CompareOp.holds] <;> omega
  · rw [compare_gt_iff_gt.mpr more]
    cases op <;> simp [CompareOp.holds] <;> omega

theorem misread_iff (positive : 0 < a) :
    Misread op c a b ↔
      ∃ x, outside op c x x = true ∧ op.holds (compare (x * a) (c * b)) = true := by
  cases op <;> simp only [holds_compare, Misread, outside, Bool.or_eq_true, Bool.and_self,
    decide_eq_true_eq]
  case eq =>
    constructor
    · rintro ⟨apart, x, whole⟩
      rw [mul_comm a] at whole
      refine ⟨x, ?_, whole.symm⟩
      have other : c ≠ x := by
        rintro rfl
        exact apart whole.symm
      omega
    · rintro ⟨x, other, whole⟩
      refine ⟨fun same => ?_, x, by rw [← whole, mul_comm]⟩
      have := mul_right_cancel₀ positive.ne' (same.trans whole.symm)
      omega
  case ne =>
    refine ⟨fun apart => ⟨c, rfl, apart⟩, ?_⟩
    rintro ⟨x, rfl, apart⟩
    exact apart
  case lt =>
    refine ⟨fun less => ⟨c, le_rfl, less⟩, ?_⟩
    rintro ⟨x, most, less⟩
    exact (mul_le_mul_of_nonneg_right most positive.le).trans_lt less
  case le =>
    refine ⟨fun most => ⟨c + 1, lt_add_one c, most⟩, ?_⟩
    rintro ⟨x, less, most⟩
    exact (mul_le_mul_of_nonneg_right less positive.le).trans most
  case gt =>
    refine ⟨fun less => ⟨c, le_rfl, less⟩, ?_⟩
    rintro ⟨x, most, less⟩
    exact less.trans_le (mul_le_mul_of_nonneg_right most positive.le)
  case ge =>
    refine ⟨fun most => ⟨c - 1, sub_one_lt c, most⟩, ?_⟩
    rintro ⟨x, less, most⟩
    exact most.trans (mul_le_mul_of_nonneg_right (by omega) positive.le)

theorem not_misread (positive : 0 < a) : ¬Misread op c a a := by
  cases op <;> simp [Misread, add_mul, sub_mul, positive]

theorem outside_within (is : outside op c lo hi = true) (least : lo ≤ x) (most : x ≤ hi) :
    outside op c x x = true := by
  cases op <;> simp [outside] at is ⊢ <;> omega

theorem outside_sound (exact_ : ¬Misread op c a b) (positive : 0 < a)
    (is : outside op c lo hi = true) (least : lo ≤ x) (most : x ≤ hi) :
    op.holds (compare (x * a) (c * b)) ≠ true := fun holds =>
  exact_ ((misread_iff positive).mpr ⟨x, outside_within is least most, holds⟩)

/-- A constant whose number is compared with the bounds of a column: an integer or a date by its
value, a DECIMAL of the column's type by its unscaled value. -/
structure Compared (column : LogicalType) (constant : Constant) (c : Int) : Prop where
  value : constant.value = .int c
  comparable : hasComparableStatistics constant.type = true
  decimal : constant.type.isDecimal = true → constant.type = column

theorem comparableWith_iff {column : LogicalType} :
    comparableWith constant column = some c ↔ Compared column constant c := by
  unfold comparableWith
  split_ifs with none_ other
  · refine ⟨nofun, fun compared => ?_⟩
    simp [compared.comparable] at none_
  · refine ⟨nofun, fun compared => ?_⟩
    simp only [Bool.and_eq_true, decide_eq_true_eq] at other
    exact absurd (compared.decimal other.1) other.2
  · constructor
    · intro is
      refine ⟨?_, by simpa using none_, by simpa using other⟩
      split at is
      · next value isInt => rw [isInt, Option.some.inj is]
      · cases is
    · intro compared
      rw [compared.value]

/-- A predicate on a column of a type whose constants are compared at the column's own scale, or
rule out no number the predicate holds of. -/
structure Exact (column type : LogicalType) (p : Predicate) : Prop where
  compare : p.kind = .compare → ∀ c, Compared column p.constant c →
    ¬Misread p.op c (10 ^ p.constant.type.scale) (10 ^ type.scale)
  isIn : p.kind = .isIn → (∀ constant ∈ p.values, ∃ c, Compared column constant c) →
    ∀ constant ∈ p.values, ∀ c x : Int, constant.value = .int c →
      x * 10 ^ constant.type.scale = c * 10 ^ type.scale →
        ∃ other ∈ p.values, other.value = .int x

/-- A constant that the evaluator takes and that statistics can be compared with is at the
column's own scale. -/
theorem Compared.same_scale {what : String} (compared : Compared column.type constant c)
    (accepted : checkConstant column type what constant = .ok ()) :
    constant.type.scale = type.scale := by
  have notDouble : constant.type ≠ .double := by
    intro double
    have comparable := compared.comparable
    rw [double] at comparable
    cases comparable
  unfold checkConstant at accepted
  rw [if_neg (by simp [inDouble, notDouble])] at accepted
  split_ifs at accepted with different
  have scale := congrArg ArrowType.scale (not_not.mp different)
  rwa [toArrow_scale, toArrow_scale] at scale

theorem inValues_true {v : Value} {values : List Constant} :
    inValues kernels type v values = some true ↔ ∃ constant ∈ values,
      compareValues kernels .eq type constant.type v constant.value = some true := by
  simp [inValues, foldl_kleeneOr_true]

theorem make_checks (isColumn : p.column = some column) (made : make types p = .ok ()) :
    ∃ type, fieldType types column.index = some type ∧ checkCompare column type p = .ok () ∧
      checkValues column type p = .ok () := by
  rw [make, isColumn] at made
  dsimp only at made
  split at made
  · cases made
  · next type isType =>
    obtain ⟨_, -, made⟩ := bind_ok made
    obtain ⟨_, -, made⟩ := bind_ok made
    obtain ⟨_, compares, made⟩ := bind_ok made
    obtain ⟨_, -, values⟩ := bind_ok made
    exact ⟨type, isType, compares, values⟩

theorem forM_ok {α ε : Type} {f : α → Except ε Unit} {list : List α} (ok : list.forM f = .ok ()) :
    ∀ a ∈ list, f a = .ok () := by
  induction list with
  | nil => exact nofun
  | cons first rest ih =>
    rw [List.forM_eq_forM, List.forM_cons] at ok
    obtain ⟨_, isFirst, isRest⟩ := bind_ok ok
    exact List.forall_mem_cons.mpr ⟨isFirst, ih isRest⟩

/-- What the evaluator computes of a predicate on a column of its input. -/
theorem evaluate_eq (isColumn : p.column = some column)
    (isType : fieldType types column.index = some type) (row : Tuple) :
    PredicateEvaluator.evaluate kernels types p row =
      Predicate.truth kernels false
        { p with column := some { column with type }, other := p.other.map (typedBy types) }
        (row.getD column.index.toNat .null) (valueAt row p.other) := by
  rw [PredicateEvaluator.evaluate, isColumn, Option.map_some, typedBy, isType, Option.getD_some]
  rfl

/-- The evaluator takes no predicate whose constants are compared at another scale. -/
theorem exact_of_make (isColumn : p.column = some column)
    (isType : fieldType types column.index = some type) (made : make types p = .ok ()) :
    Exact column.type type p := by
  obtain ⟨_, isType', compares, inList⟩ := make_checks isColumn made
  cases isType.symm.trans isType'
  refine ⟨fun kind c compared => ?_, fun kind compared constant listed c x value whole => ?_⟩
  · rw [checkCompare, if_pos kind] at compares
    rw [compared.same_scale compares]
    exact not_misread (by positivity)
  · rw [checkValues, if_pos (by simp [kind])] at inList
    split_ifs at inList
    obtain ⟨_, each, -⟩ := bind_ok inList
    obtain ⟨_, isCompared⟩ := compared constant listed
    rw [isCompared.same_scale (forM_ok each constant listed)] at whole
    have same := mul_right_cancel₀ (by positivity) whole
    exact ⟨constant, listed, same ▸ value⟩

section

variable {stats : PartStats} {values : List Value} {v other : Value} {second : Option BoundColumn}

/-- A predicate that is never true by a column's statistics holds of no value of it. -/
theorem neverTrue_sound (isColumn : p.column = some column) (exact_ : Exact column.type type p)
    (bounds : stats.BoundsOf values) (never : neverTrue p stats = true) (among : v ∈ values) :
    Predicate.truth kernels false
      { p with column := some { column with type }, other := second } v other ≠ some true := by
  simp only [neverTrue, isColumn, Option.map_some, Option.getD_some] at never
  by_cases none_ : stats.rows = 0
  · rw [if_pos none_] at never
    cases never
  rw [if_neg none_] at never
  have null := bounds.all_null among
  cases kind : p.kind with
  | compare =>
    simp only [kind] at never
    simp only [Predicate.truth]
    by_cases all : stats.nullCount ≥ stats.rows
    · rw [null all, compareValues_null]
      nofun
    · rw [if_neg all] at never
      split at never
      · next c lo hi comparable isMin isMax =>
        have compared := comparableWith_iff.mp comparable
        obtain rfl | ⟨x, rfl, least, most⟩ := bounds.within among isMin isMax
        · rw [compareValues_null]
          nofun
        · rw [compared.value, compareValues]
          simpa using outside_sound (exact_.compare kind c compared) (by positivity) never least most
      · cases never
  | isIn =>
    simp only [kind] at never
    simp only [Predicate.truth]
    intro found
    obtain ⟨constant, listed, equal⟩ := inValues_true.mp found
    by_cases all : stats.nullCount ≥ stats.rows
    · rw [null all, compareValues_null] at equal
      cases equal
    · rw [if_neg all] at never
      split at never
      · next lo hi isMin isMax =>
        have outsideAll : ∀ constant ∈ p.values, ∃ c, Compared column.type constant c ∧
            (c < lo ∨ hi < c) := by
          intro constant listed
          have outside_ := List.all_eq_true.mp never constant listed
          split at outside_
          · next c comparable =>
            exact ⟨c, comparableWith_iff.mp comparable, by simpa using outside_⟩
          · cases outside_
        obtain rfl | ⟨x, rfl, least, most⟩ := bounds.within among isMin isMax
        · rw [compareValues_null] at equal
          cases equal
        · obtain ⟨c, compared, -⟩ := outsideAll constant listed
          rw [compared.value, compareValues, Option.some.injEq, holds_compare] at equal
          obtain ⟨same, isListed, value⟩ := exact_.isIn kind
            (fun constant listed => (outsideAll constant listed).imp fun _ => And.left)
            constant listed c x compared.value equal
          obtain ⟨_, isCompared, apart⟩ := outsideAll same isListed
          cases value.symm.trans isCompared.value
          omega
      · cases never
  | isNotNull =>
    simp only [kind, decide_eq_true_eq] at never
    simp [Predicate.truth, null never]
  | _ => simp [kind] at never

/-- A predicate that is not exact is never true by the statistics of a value it holds of. -/
theorem neverTrue_misread (kernels : Kernels) (isColumn : p.column = some column)
    (not_ : ¬Exact column.type type p) :
    ∃ x, neverTrue p { min := some x, max := some x, nullCount := 0, rows := 1 } = true ∧
      ∀ second other, Predicate.truth kernels false
        { p with column := some { column with type }, other := second } (.int x) other =
          some true := by
  by_contra none_
  refine not_ ⟨fun kind c compared misread => none_ ?_,
    fun kind compared constant listed c x value whole => ?_⟩
  · obtain ⟨x, out, holds⟩ := (misread_iff (by positivity)).mp misread
    refine ⟨x, ?_, fun _ _ => ?_⟩
    · simpa [neverTrue, kind, isColumn, comparableWith_iff.mpr compared] using out
    · simp only [Predicate.truth, kind, compared.value, compareValues, holds]
  · by_contra unlisted
    refine none_ ⟨x, ?_, fun _ _ => ?_⟩
    · simp only [neverTrue, kind, isColumn]
      refine List.all_eq_true.mpr fun other isListed => ?_
      obtain ⟨v, isCompared⟩ := compared other isListed
      simp only [Option.map_some, Option.getD_some, comparableWith_iff.mpr isCompared]
      have apart : v ≠ x := by
        rintro rfl
        exact unlisted ⟨other, isListed, isCompared.value⟩
      simp only [Bool.or_eq_true, decide_eq_true_eq]
      omega
    · simp only [Predicate.truth, kind]
      refine inValues_true.mpr ⟨constant, listed, ?_⟩
      rw [value, compareValues, Option.some.injEq, holds_compare]
      exact whole

end

variable {table : PartTable} {row : Tuple} {predicates : List Predicate}

def outputTypes (table : PartTable) (fields : List Nat) : List LogicalType :=
  fields.map table.types

def outputRow (fields : List Nat) (row : Tuple) : Tuple := fields.map fun field => row.getD field .null

def TrueStatistics (table : PartTable) : Prop :=
  ∀ part rows field stats, table.parts[part]? = some rows →
    table.partStats part field = some stats → stats.BoundsOf (rows.map (·.getD field .null))

def Passes (kernels : Kernels) (types : List LogicalType) (predicates : List Predicate)
    (row : Tuple) : Prop :=
  ∀ p ∈ predicates, PredicateEvaluator.evaluate kernels types p row = some true

instance (kernels : Kernels) (types : List LogicalType) (predicates : List Predicate) (row : Tuple) :
    Decidable (Passes kernels types predicates row) := by
  unfold Passes
  infer_instance

/-- Whatever column of the scan's a predicate is on, it is exact. -/
def ReadExactly (types : Nat → LogicalType) (fields : List Nat) (p : Predicate) : Prop :=
  ∀ column field, p.column = some column → 0 ≤ column.index →
    fields[column.index.toNat]? = some field → Exact column.type (types field) p

theorem fieldType_outputTypes {fields : List Nat} {index : Int} {field : Nat} (inside : 0 ≤ index)
    (isField : fields[index.toNat]? = some field) :
    fieldType (outputTypes table fields) index = some (table.types field) := by
  rw [fieldType, if_neg (by omega), outputTypes, List.getElem?_map, isField]
  rfl

theorem outputRow_getD {fields : List Nat} {index field : Nat}
    (isField : fields[index]? = some field) (row : Tuple) :
    (outputRow fields row).getD index .null = row.getD field .null := by
  simp [outputRow, List.getD_eq_getElem?_getD, isField]

theorem evaluate_isFalse (is : p.kind = .isFalse) (row : Tuple) :
    PredicateEvaluator.evaluate kernels types p row = some false := by
  cases isColumn : p.column <;> simp [PredicateEvaluator.evaluate, Predicate.truth, is, isColumn]

theorem leavesOut_sound (true_ : TrueStatistics table) {part : Nat} {rows : List Tuple}
    (isPart : table.parts[part]? = some rows) {fields : List Nat}
    (exact_ : ReadExactly table.types fields p) (leaves : leavesOut table part fields p = true)
    (among : row ∈ rows) :
    PredicateEvaluator.evaluate kernels (outputTypes table fields) p (outputRow fields row) ≠
      some true := by
  unfold leavesOut at leaves
  by_cases isFalse_ : p.kind = .isFalse
  · rw [evaluate_isFalse isFalse_]
    nofun
  rw [if_neg isFalse_] at leaves
  cases isColumn : p.column with
  | none => simp [isColumn] at leaves
  | some column =>
    simp only [isColumn] at leaves
    split_ifs at leaves with below
    split at leaves
    · cases leaves
    · next field isField =>
      split at leaves
      · cases leaves
      · next stats isStats =>
        rw [evaluate_eq isColumn (fieldType_outputTypes (by omega) isField),
          outputRow_getD isField]
        exact neverTrue_sound isColumn (exact_ column field isColumn (by omega) isField)
          (true_ part rows field stats isPart isStats) leaves (List.mem_map_of_mem among)

/-- A part that is left out has no row that passes all the predicates. -/
theorem not_kept_sound (true_ : TrueStatistics table) {fields : List Nat} {part : Nat}
    {rows : List Tuple} (isPart : table.parts[part]? = some rows)
    (out : part ∉ keptParts table fields predicates) (among : row ∈ rows)
    (passes : Passes kernels (outputTypes table fields) predicates (outputRow fields row)) :
    ¬∀ p ∈ predicates, ReadExactly table.types fields p := by
  have inside : part < table.parts.length := (List.getElem?_eq_some_iff.mp isPart).1
  simp only [keptParts, List.mem_filter, List.mem_range, inside, true_and, Bool.or_eq_true,
    not_or, partMayMatch, Bool.not_eq_true', Bool.not_eq_false, List.any_eq_true] at out
  obtain ⟨-, p, listed, leaves⟩ := out
  exact fun exact_ => leavesOut_sound true_ isPart (exact_ p listed) leaves among (passes p listed)

open FilterOperator

theorem mask_true :
    mask kernels types predicates row = some true ↔
      ∀ p ∈ predicates, PredicateEvaluator.evaluate kernels types p row = some true := by
  simp [mask, foldl_kleeneAnd_true]

theorem keep_eq (kernels : Kernels) (types : List LogicalType) (predicates : List Predicate)
    (rows : List Tuple) : keep kernels types predicates rows =
      rows.filter fun row => mask kernels types predicates row = some true := by
  unfold keep
  split_ifs with never
  · obtain ⟨p, listed, isFalse_⟩ := List.any_eq_true.mp never
    symm
    rw [List.filter_eq_nil_iff]
    intro row _
    rw [decide_eq_true_eq, mask_true]
    intro all
    have false_ := all p listed
    rw [evaluate_isFalse (of_decide_eq_true isFalse_)] at false_
    cases false_
  · rfl

theorem foldl_keep (kernels : Kernels) (types : List LogicalType) (filters : List (List Predicate))
    (rows : List Tuple) :
    filters.foldl (fun rows predicates => keep kernels types predicates rows) rows =
      rows.filter (Passes kernels types filters.flatten) := by
  induction filters generalizing rows with
  | nil => simp [Passes]
  | cons first rest ih =>
    rw [List.foldl_cons, ih, keep_eq, List.filter_filter]
    congr 1
    funext row
    rw [← Bool.decide_and, decide_eq_decide, mask_true, List.flatten_cons, Passes, Passes,
      List.forall_mem_append]
    exact and_comm

/-- Filters that are opened have made the predicates of the rows they keep. -/
theorem start_makes {filters : List (List Predicate)}
    (started : filters.reverse.forM (start types) = .ok ())
    (passes : Passes kernels types filters.flatten row) :
    ∀ p ∈ filters.flatten, make types p = .ok () := by
  intro p listed
  obtain ⟨predicates, isFilter, among⟩ := List.mem_flatten.mp listed
  have opened := forM_ok started predicates (List.mem_reverse.mpr isFilter)
  unfold start at opened
  split_ifs at opened with never
  · obtain ⟨q, inFilter, isFalse_⟩ := List.any_eq_true.mp never
    have true_ := passes q (List.mem_flatten.mpr ⟨predicates, isFilter, inFilter⟩)
    rw [evaluate_isFalse (of_decide_eq_true isFalse_)] at true_
    cases true_
  · exact forM_ok opened p among

theorem readExactly_of_make {fields : List Nat} (made : make (outputTypes table fields) p = .ok ()) :
    ReadExactly table.types fields p := fun _ _ isColumn inside isField =>
  exact_of_make isColumn (fieldType_outputTypes inside isField) made

theorem scanned_filter (fields : List Nat) (parts : List Nat) (f : Tuple → Bool) :
    (scanned table fields parts).filter f =
      parts.flatMap fun part => ((table.parts.getD part []).map (outputRow fields)).filter f := by
  rw [scanned, List.filter_flatMap]
  rfl

theorem flatMap_filter {α β : Type} {list : List α} {f : α → List β} {p : α → Bool}
    (nothing : ∀ a ∈ list, p a = false → f a = []) :
    (list.filter p).flatMap f = list.flatMap f := by
  induction list with
  | nil => rfl
  | cons first rest ih =>
    obtain ⟨head, tail⟩ := List.forall_mem_cons.mp nothing
    cases keeps : p first with
    | true => rw [List.filter_cons_of_pos keeps, List.flatMap_cons, List.flatMap_cons, ih tail]
    | false =>
      rw [List.filter_cons_of_neg (by simp [keeps]), List.flatMap_cons, head keeps, ih tail,
        List.nil_append]

/-- The rows that pass are those of the parts that are kept, unless a part is left out that has
one. -/
theorem scanned_kept {fields : List Nat}
    (none_ : ∀ part rows, table.parts[part]? = some rows →
      part ∉ keptParts table fields predicates → ∀ row ∈ rows,
        ¬Passes kernels (outputTypes table fields) predicates (outputRow fields row)) :
    (scanned table fields (keptParts table fields predicates)).filter
        (Passes kernels (outputTypes table fields) predicates) =
      (scanned table fields (List.range table.parts.length)).filter
        (Passes kernels (outputTypes table fields) predicates) := by
  rw [scanned_filter, scanned_filter]
  refine flatMap_filter fun part inside drops => ?_
  have out : part ∉ keptParts table fields predicates := fun kept =>
    Bool.false_ne_true (drops.symm.trans (List.mem_filter.mp kept).2)
  obtain ⟨rows, isPart⟩ : ∃ rows, table.parts[part]? = some rows :=
    ⟨_, List.getElem?_eq_getElem (List.mem_range.mp inside)⟩
  rw [List.getD_eq_getElem?_getD, isPart, Option.getD_some, List.filter_eq_nil_iff,
    List.forall_mem_map]
  intro row among
  rw [decide_eq_true_eq]
  exact none_ part rows isPart out row among

section

variable {fields : List Nat} {filters : List (List Predicate)}

theorem runParts_opened (started : filters.reverse.forM (start (outputTypes table fields)) = .ok ())
    (parts : List Nat) :
    runParts table kernels fields filters parts = .ok ((scanned table fields parts).filter
      (Passes kernels (outputTypes table fields) filters.flatten)) := by
  induction parts with
  | nil => rfl
  | cons part rest ih =>
    have chain : runChain kernels (fields.map table.types) filters (scanned table fields [part]) =
        .ok ((scanned table fields [part]).filter
          (Passes kernels (outputTypes table fields) filters.flatten)) := by
      rw [runChain, ← outputTypes, started, ok_bind, foldl_keep]
      rfl
    rw [runParts, chain, ih, ok_bind, ok_bind, scanned_filter, scanned_filter, scanned_filter]
    simp [pure, Except.pure]

theorem runParts_refused {status : Common.Status}
    (refused : filters.reverse.forM (start (outputTypes table fields)) = .error status)
    {parts : List Nat} (some_ : parts ≠ []) :
    runParts table kernels fields filters parts = .error status := by
  obtain ⟨part, rest, rfl⟩ := List.exists_cons_of_ne_nil some_
  rw [runParts, runChain, ← outputTypes, refused]
  rfl

/-- Filters that open, or that a part is left to, run on the parts that are kept as on all. -/
theorem runParts_kept (true_ : TrueStatistics table) (kernels : Kernels)
    (runs : filters.reverse.forM (start (outputTypes table fields)) = .ok () ∨
      keptParts table fields filters.flatten ≠ []) :
    runParts table kernels fields filters (keptParts table fields filters.flatten) =
      runParts table kernels fields filters (List.range table.parts.length) := by
  cases started : filters.reverse.forM (start (outputTypes table fields)) with
  | ok _ =>
    rw [runParts_opened started, runParts_opened started]
    refine congrArg Except.ok (scanned_kept fun part rows isPart out row among passes => ?_)
    exact not_kept_sound true_ isPart out among passes fun p listed =>
      readExactly_of_make (start_makes started passes p listed)
  | error status =>
    have kept : keptParts table fields filters.flatten ≠ [] := by
      rcases runs with opened | kept
      · rw [started] at opened
        cases opened
      · exact kept
    have all : List.range table.parts.length ≠ [] := by
      intro empty
      apply kept
      rw [keptParts, empty]
      rfl
    rw [runParts_refused started kept, runParts_refused started all]

end

/-- Leaving out parts of a table by their statistics changes nothing in what the filters on its
scan see. -/
structure PrunesSoundly (kernels : Kernels) (table : PartTable) (fields : List Nat)
    (node : LogicalNode) : Prop where
  /-- A part that is left out has no row that passes all the predicates. -/
  left_out : ∀ part rows, table.parts[part]? = some rows →
    part ∉ keptParts table fields (filtersOnScan node) → ∀ row ∈ rows,
      ¬Passes kernels (outputTypes table fields) (filtersOnScan node) (outputRow fields row)
  same_rows : (scanned table fields (keptParts table fields (filtersOnScan node))).filter
      (Passes kernels (outputTypes table fields) (filtersOnScan node)) =
    (scanned table fields (List.range table.parts.length)).filter
      (Passes kernels (outputTypes table fields) (filtersOnScan node))
  /-- With filters that open on the scan's columns, the same is the result of the run. -/
  same_run : (directFilters node).reverse.forM (start (outputTypes table fields)) = .ok () →
    runParts table kernels fields (directFilters node)
        (keptParts table fields (filtersOnScan node)) =
      runParts table kernels fields (directFilters node) (List.range table.parts.length)

theorem prunesSoundly (true_ : TrueStatistics table) (kernels : Kernels) {fields : List Nat}
    {node : LogicalNode} (exact_ : ∀ p ∈ filtersOnScan node, ReadExactly table.types fields p) :
    PrunesSoundly kernels table fields node := by
  have none_ : ∀ part rows, table.parts[part]? = some rows →
      part ∉ keptParts table fields (filtersOnScan node) → ∀ row ∈ rows,
        ¬Passes kernels (outputTypes table fields) (filtersOnScan node) (outputRow fields row) :=
    fun part rows isPart out row among passes => not_kept_sound true_ isPart out among passes exact_
  exact ⟨none_, scanned_kept none_, fun opened => runParts_kept true_ kernels (.inl opened)⟩

theorem filtersOnScan_single (fields : List Nat) (p : Predicate) :
    filtersOnScan (.filter (.scan 0 fields []) [p] none) = [p] := rfl

/-- One part of one row, whose statistics of a field are those of its value. -/
def oneValue (types : Nat → LogicalType) (field : Nat) (x : Int) : PartTable where
  types
  parts := [[List.replicate (field + 1) (.int x)]]
  partStats part other :=
    if part = 0 ∧ other = field then
      some { min := some x, max := some x, nullCount := 0, rows := 1 }
    else none

theorem oneValue_trueStatistics (types : Nat → LogicalType) (field : Nat) (x : Int) :
    TrueStatistics (oneValue types field x) := by
  intro part rows other stats isPart isStats
  simp only [oneValue, Option.ite_none_right_eq_some] at isStats
  obtain ⟨⟨rfl, rfl⟩, isStats⟩ := isStats
  cases isStats
  cases isPart
  exact ⟨rfl, by simp, by simp, by simp⟩

/-- The predicates by which parts are left out soundly, whatever the table and however they are
combined, are those whose constants are read at the scale of their column. -/
theorem keptParts_sound_iff (kernels : Kernels) (types : Nat → LogicalType) (fields : List Nat)
    (predicates : Set Predicate) :
    (∀ table : PartTable, table.types = types → TrueStatistics table → ∀ node : LogicalNode,
      (∀ p ∈ filtersOnScan node, p ∈ predicates) → PrunesSoundly kernels table fields node) ↔
    ∀ p ∈ predicates, ReadExactly types fields p := by
  constructor
  · intro sound p allowed column field isColumn inside isField
    by_contra not_
    obtain ⟨x, never, holds⟩ := neverTrue_misread kernels isColumn not_
    let row : Tuple := List.replicate (field + 1) (.int x)
    have prunes := sound (oneValue types field x) rfl (oneValue_trueStatistics types field x)
      (.filter (.scan 0 fields []) [p] none) (by simpa [filtersOnScan_single] using allowed)
    refine prunes.left_out 0 [row] rfl ?_ row List.mem_cons_self fun q listed => ?_
    · rw [filtersOnScan_single]
      have leaves : leavesOut (oneValue types field x) 0 fields p = true := by
        have kind : p.kind ≠ .isFalse := by
          intro kind
          simp [neverTrue, kind] at never
        simp [leavesOut, kind, isColumn, not_lt.mpr inside, isField, oneValue, never]
      simp [keptParts, partMayMatch, leaves]
    · rw [filtersOnScan_single, List.mem_singleton] at listed
      rw [listed, evaluate_eq isColumn (fieldType_outputTypes inside isField),
        outputRow_getD isField]
      have value : row.getD field .null = .int x := by
        simp [row, List.getD_eq_getElem?_getD]
      rw [value]
      exact holds _ _
  · intro exact_ table isTypes true_ node allowed
    refine prunesSoundly true_ kernels fun p listed => ?_
    rw [isTypes]
    exact exact_ p (allowed p listed)

def belowHundred : LogicalNode :=
  .filter (.scan 0 [0] [1])
    [{ column := some { index := 0, id := 1, type := .decimal 10 2 }, op := .lt,
       constant := { type := .integer, value := .int 100 } }] none

/-- The part with 1.50 is left out, which is below 100. -/
theorem keptParts_misread :
    TrueStatistics (oneValue (fun _ => .decimal 10 2) 0 150) ∧
      keptParts (oneValue (fun _ => .decimal 10 2) 0 150) [0] (filtersOnScan belowHundred) = [] ∧
      Passes Compute.integerKernels [.decimal 10 2] (filtersOnScan belowHundred) [.int 150] :=
  ⟨oneValue_trueStatistics _ 0 150, by decide, by decide⟩

/-- Statistics of a chunk that are true of its values. -/
structure ChunkTrueOf (chunk : ChunkStatistics) (values : List Value) : Prop where
  nullCount : ∀ n ∈ chunk.nullCount, n = values.count .null
  min : ∀ lo ∈ chunk.min, ∀ v ∈ values, v ≠ .null → ∃ x, v = .int x ∧ lo ≤ x
  max : ∀ hi ∈ chunk.max, ∀ v ∈ values, v ≠ .null → ∃ x, v = .int x ∧ x ≤ hi

theorem partStats_bounds {chunk : ChunkStatistics} {values : List Value}
    (true_ : ChunkTrueOf chunk values) {stats : PartStats}
    (is : chunk.partStats values.length = some stats) : stats.BoundsOf values := by
  unfold ChunkStatistics.partStats at is
  cases counted : chunk.nullCount with
  | none => simp [counted] at is
  | some n =>
    simp only [counted] at is
    have count := true_.nullCount n counted
    split_ifs at is
    · cases is
      exact ⟨rfl, count, nofun, nofun⟩
    · split at is
      · next lo hi isMin isMax =>
        split_ifs at is
        cases is
        refine ⟨rfl, count, ?_, ?_⟩
        · rintro _ ⟨⟩
          exact true_.min lo isMin
        · rintro _ ⟨⟩
          exact true_.max hi isMax
      · cases is

section Parquet

variable {fields : List ParquetField} {groups : List RowGroup}
  (isStats : table.partStats = parquetPartStats fields groups)
  (chunks : ∀ (part : Nat) (rows : List Tuple) (group : RowGroup) (field : Nat)
      (column : ParquetField) (leaf : Nat) (chunk : ChunkStatistics),
    table.parts[part]? = some rows →
    groups[part]? = some group → fields[field]? = some column → column.leaf = some leaf →
      column.comparable = true → group.statistics leaf = some chunk →
        group.rows = rows.length ∧ ChunkTrueOf chunk (rows.map (·.getD field .null)))

include isStats chunks

/-- The statistics of a Parquet table are true where those of its comparable chunks are. -/
theorem parquet_trueStatistics : TrueStatistics table := by
  intro part rows field stats isPart is
  rw [isStats] at is
  obtain ⟨group, isGroup, is⟩ := Option.bind_eq_some_iff.mp is
  obtain ⟨column, isColumn, is⟩ := Option.bind_eq_some_iff.mp is
  obtain ⟨leaf, isLeaf, is⟩ := Option.bind_eq_some_iff.mp is
  split_ifs at is with apart
  obtain ⟨chunk, isChunk, is⟩ := Option.bind_eq_some_iff.mp is
  obtain ⟨length, true_⟩ := chunks part rows group field column leaf chunk isPart isGroup isColumn
    isLeaf (by simpa using apart) isChunk
  refine partStats_bounds true_ ?_
  rw [List.length_map, ← length]
  exact is

/-- The row groups that a file's own metadata rules out hold no row a query misses: filters that
open on the scan's columns, or that a part is left to, give the same of the parts that are left. -/
theorem runParts_parquet (kernels : Kernels) (output : List Nat) (node : LogicalNode)
    (runs : (directFilters node).reverse.forM (start (outputTypes table output)) = .ok () ∨
      keptParts table output (filtersOnScan node) ≠ []) :
    runParts table kernels output (directFilters node)
        (keptParts table output (filtersOnScan node)) =
      runParts table kernels output (directFilters node) (List.range table.parts.length) :=
  runParts_kept (parquet_trueStatistics isStats chunks) kernels runs

end Parquet

/-- Row groups with the values 1 and NULL, and with 5. -/
def twoGroups : List RowGroup :=
  [⟨2, fun _ => some { nullCount := some 1, min := some 1, max := some 1 }⟩,
    ⟨1, fun _ => some { nullCount := some 0, min := some 5, max := some 5 }⟩]

def atLeastFour : LogicalNode :=
  .filter (.scan 0 [0] [1])
    [{ column := some { index := 0, id := 1, type := .integer }, op := .ge,
       constant := { type := .integer, value := .int 4 } }] none

theorem runParts_parquet_twoGroups :
    let table : PartTable := ⟨fun _ => .integer, [[[.int 1], [.null]], [[.int 5]]],
      parquetPartStats [⟨some 0, .integer, .int32⟩] twoGroups⟩
    keptParts table [0] (filtersOnScan atLeastFour) = [1] ∧
      runParts table Compute.integerKernels [0] (directFilters atLeastFour) (List.range 2) =
        .ok [[.int 5]] := by
  intro table
  have kept : keptParts table [0] (filtersOnScan atLeastFour) = [1] := by decide
  refine ⟨kept, (runParts_parquet rfl ?_ Compute.integerKernels [0] atLeastFour
    (.inl rfl)).symm.trans ?_⟩
  · rintro (_ | _ | part) rows group (_ | field) column leaf chunk isPart isGroup isColumn _ _
      isChunk <;> cases isPart <;> cases isGroup <;> cases isColumn <;> cases isChunk <;>
      refine ⟨rfl, ?_, ?_, ?_⟩ <;> rintro _ ⟨⟩ <;> simp
  · rw [kept]
    rfl

end PartPruning

end Antb1.Exec
