import Antb1.Plan.BranchTruth

/-! A predicate decided by constants is decided so on every row that holds them. -/
namespace Antb1.Plan

variable {column : BoundColumn} {values : List Constant} {constant : Option Constant}
  {p : Predicate} {value other : Value}

/-- An integer constant is an Int128. -/
def ValidConstant (constant : Constant) : Prop := ∀ x, constant.value = .int x → InInt128 x

/-- A predicate as a plan holds it: a second column only to compare with, and an IN list that is
not empty. -/
structure Predicate.Valid (p : Predicate) : Prop where
  other : p.other.isSome → p.kind = .compareColumns
  values : p.kind = .isIn ∨ p.kind = .notIn → p.values ≠ []
  constant : ValidConstant p.constant
  constants : ∀ constant ∈ p.values, ValidConstant constant

variable (k : Kernels) {columnValue otherValue : Option Constant}

theorem scale_zero {type : LogicalType} {domain : Domain} (found : domainOf type = some domain)
    (other : domain ≠ .number) : type.scale = 0 := by
  cases type with
  | decimal width scale =>
    cases found
    exact absurd rfl other
  | _ => rfl

theorem compareValues_order {a b : Constant} (validA : ValidConstant a) (validB : ValidConstant b)
    {order : Ordering} (found : a.order b = some order) (op : CompareOp) :
    compareValues k op a.type b.type a.value b.value = some (op.holds order) := by
  unfold Constant.order at found
  split at found
  · cases found
  · rename_i domain ofA
    by_cases apart : domainOf b.type ≠ some domain
    · rw [if_pos apart] at found
      cases found
    rw [if_neg apart] at found
    have ofB : domainOf b.type = some domain := not_not.mp apart
    split at found
    · rename_i x y valueA valueB
      split_ifs at found with text number
      · have order := Option.some.inj found
        rw [compareScaled_eq (validA x valueA) (validB y valueB)] at order
        rw [valueA, valueB, compareValues, order]
      · have order := Option.some.inj found
        rw [valueA, valueB, compareValues, scale_zero ofA number, scale_zero ofB number, pow_zero,
          mul_one, mul_one, order]
    · rename_i x y valueA valueB
      split_ifs at found
      rw [valueA, valueB, compareValues, Option.some.inj found]
    · cases found

theorem inValues_nullValue (some_ : values ≠ []) (type : LogicalType) :
    inValues k type .null values = none := by
  have stays : ∀ values : List Constant, values.foldl (fun any constant => kleeneOr any
      (compareValues k .eq type constant.type .null constant.value)) none = none := by
    intro values
    induction values with
    | nil => rfl
    | cons first rest ih => exact ih
  cases values with
  | nil => exact absurd rfl some_
  | cons first rest => exact stays rest

theorem inListFrom_sound {value : Constant} (valid : ValidConstant value)
    (constants : ∀ constant ∈ values, ValidConstant constant) {equal : Bool} {truth : Bool}
    (found : inListFrom value equal values = .ofBool truth) :
    values.foldl (fun any constant => kleeneOr any (compareValues k .eq value.type constant.type
      value.value constant.value)) (some equal) = some truth := by
  induction values generalizing equal with
  | nil =>
    cases equal <;> cases truth <;> first | rfl | cases found
  | cons first rest ih =>
    rw [inListFrom] at found
    split at found
    · cases truth <;> cases found
    · rename_i order compared
      split_ifs at compared
      have here := compareValues_order k valid (constants first (by simp)) compared .eq
      rw [List.foldl_cons, here]
      have step : kleeneOr (some equal) (some (CompareOp.eq.holds order)) =
          some (equal || order = .eq) := by
        cases equal <;> cases order <;> rfl
      rw [step]
      exact ih (fun constant member => constants constant (by simp [member])) found

theorem inList_sound {value : Constant} (valid : ValidConstant value)
    (constants : ∀ constant ∈ values, ValidConstant constant) (truth : Bool)
    (found : inList values value = .ofBool truth) :
    inValues k value.type value.value values = some truth := by
  unfold inList at found
  split_ifs at found
  · cases truth <;> cases found
  · exact inListFrom_sound k valid constants found

def Holds (constant : Option Constant) (value : Value) : Prop :=
  ∀ known ∈ constant, ValidConstant known ∧ known.value = value

def Decides (truth : BranchTruth) (result : Option Bool) : Prop :=
  (truth = .never → result ≠ some true) ∧ (truth = .always → result = some true)

theorem decides_unknown (result : Option Bool) : Decides .unknown result :=
  ⟨nofun, nofun⟩

theorem decides_never {result : Option Bool} (fails : result ≠ some true) : Decides .never result :=
  ⟨fun _ => fails, nofun⟩

theorem decides_ofBool (truth : Bool) : Decides (.ofBool truth) (some truth) := by
  cases truth
  · exact decides_never (by simp)
  · exact ⟨nofun, fun _ => rfl⟩

theorem decides_ofOrder {op : CompareOp} {order : Option Ordering} {result : Option Bool}
    (same : ∀ known, order = some known → result = some (op.holds known)) :
    Decides (.ofOrder op order) result := by
  cases order with
  | none => exact decides_unknown result
  | some known =>
    rw [same known rfl]
    exact decides_ofBool _

theorem ofItsType_holds (holds : Holds constant value) {known : Constant}
    (found : ofItsType (some column) constant = some known) :
    ValidConstant known ∧ known.value = value ∧ known.type = column.type := by
  cases constant with
  | none => cases found
  | some own =>
    rw [ofItsType] at found
    split_ifs at found with typed
    cases found
    exact ⟨(holds _ rfl).1, (holds _ rfl).2, typed⟩

theorem not_isNull_of_ofItsType (present : ¬ constant.any Constant.isNull) {known : Constant}
    (found : ofItsType (some column) constant = some known) : known.value ≠ .null := by
  cases constant with
  | none => cases found
  | some own =>
    rw [ofItsType] at found
    split_ifs at found
    cases found
    simpa [Constant.isNull] using present

theorem any_isNull (holds : Holds constant value) (null : constant.any Constant.isNull) :
    value = .null := by
  cases constant with
  | none => cases null
  | some own =>
    rw [← (holds _ rfl).2]
    simpa [Constant.isNull] using null

theorem compareValues_null_right (op : CompareOp) (leftType rightType : LogicalType)
    (value : Value) : compareValues k op leftType rightType value .null = none := by
  cases value <;> rfl

theorem truth_null (valid : p.Valid) (kind : p.kind ≠ .isNull)
    (null : value = .null ∨ (p.other.isSome ∧ other = .null)) :
    p.truth k false value other ≠ some true := by
  unfold Predicate.truth
  rcases null with rfl | ⟨second, rfl⟩
  · cases p.column with
    | none => by_cases never : p.kind = .isFalse <;> simp [never]
    | some column =>
      cases of : p.kind with
      | isNull => exact absurd of kind
      | isIn => simp [inValues_nullValue k (valid.values (.inl of))]
      | notIn => simp [inValues_nullValue k (valid.values (.inr of))]
      | compareColumns => cases p.other <;> simp [compareValues]
      | _ => simp [compareValues, likeValue, Value.truth]
  · rw [valid.other second]
    obtain ⟨own, same⟩ := Option.isSome_iff_exists.mp second
    cases p.column <;> simp [same, compareValues_null_right]

theorem inList_decides {value : Constant} (valid : ValidConstant value)
    (constants : ∀ constant ∈ values, ValidConstant constant) :
    Decides (inList values value) (inValues k value.type value.value values) ∧
      Decides (inList values value).negated
        ((inValues k value.type value.value values).map (!·)) := by
  cases found : inList values value with
  | unknown => exact ⟨decides_unknown _, decides_unknown _⟩
  | never =>
    rw [inList_sound k valid constants false found]
    exact ⟨decides_ofBool false, decides_ofBool true⟩
  | always =>
    rw [inList_sound k valid constants true found]
    exact ⟨decides_ofBool true, decides_ofBool false⟩

theorem compare_decides (ofColumn : p.column = some column) (valid : ValidConstant p.constant)
    (holds : Holds columnValue value) :
    Decides (match ofItsType p.column columnValue with
      | some known =>
        if p.constant.type ≠ known.type then .unknown else .ofOrder p.op (known.order p.constant)
      | none => .unknown)
      (compareValues k p.op column.type p.constant.type value p.constant.value) := by
  rw [ofColumn]
  cases found : ofItsType (some column) columnValue with
  | none => exact decides_unknown _
  | some known =>
    obtain ⟨validKnown, rfl, ofType⟩ := ofItsType_holds holds found
    rw [← ofType]
    dsimp only
    split_ifs
    · exact decides_unknown _
    · exact decides_ofOrder fun order compared =>
        compareValues_order k validKnown valid compared p.op

theorem compareColumns_decides (ofColumn : p.column = some column)
    (holds : Holds columnValue value) (holdsOther : Holds otherValue other) :
    Decides (match ofItsType p.column columnValue, ofItsType p.other otherValue with
      | some known, some second => .ofOrder p.op (known.order second)
      | _, _ => .unknown)
      (p.other.bind fun second => compareValues k p.op column.type second.type value other) := by
  rw [ofColumn]
  cases found : ofItsType (some column) columnValue with
  | none => exact decides_unknown _
  | some known =>
    obtain ⟨validKnown, rfl, ofType⟩ := ofItsType_holds holds found
    cases ofOther : p.other with
    | none => exact decides_unknown _
    | some second =>
      cases foundOther : ofItsType (some second) otherValue with
      | none => exact decides_unknown _
      | some knownOther =>
        obtain ⟨validOther, rfl, ofTypeOther⟩ := ofItsType_holds holdsOther foundOther
        rw [← ofType, Option.bind_some, ← ofTypeOther]
        exact decides_ofOrder fun order compared =>
          compareValues_order k validKnown validOther compared p.op

theorem in_decides (ofColumn : p.column = some column)
    (valid : ∀ constant ∈ p.values, ValidConstant constant) (holds : Holds columnValue value) :
    Decides (match ofItsType p.column columnValue with
      | some known => inList p.values known
      | none => .unknown) (inValues k column.type value p.values) ∧
    Decides (match ofItsType p.column columnValue with
      | some known => (inList p.values known).negated
      | none => .unknown) ((inValues k column.type value p.values).map (!·)) := by
  rw [ofColumn]
  cases found : ofItsType (some column) columnValue with
  | none => exact ⟨decides_unknown _, decides_unknown _⟩
  | some known =>
    obtain ⟨validKnown, rfl, ofType⟩ := ofItsType_holds holds found
    rw [← ofType]
    exact inList_decides k validKnown valid

/-- What `truthOver` says holds of every row that holds the constants. -/
theorem truthOver_decides (valid : p.Valid) (reads : p.column.isSome)
    (holds : Holds columnValue value) (holdsOther : Holds otherValue other) :
    Decides (truthOver p columnValue otherValue) (p.truth k false value other) := by
  obtain ⟨column, ofColumn⟩ := Option.isSome_iff_exists.mp reads
  unfold truthOver
  by_cases ofKind : p.kind = .isNull
  · rw [if_pos ofKind]
    split_ifs with null typed
    · have truth : p.truth k false value other = some true := by
        simp [Predicate.truth, ofColumn, ofKind, any_isNull holds null]
      rw [truth]
      exact decides_ofBool true
    · obtain ⟨known, found⟩ := Option.isSome_iff_exists.mp typed
      rw [ofColumn] at found
      have present := not_isNull_of_ofItsType null found
      rw [(ofItsType_holds holds found).2.1] at present
      exact decides_never (by simp [Predicate.truth, ofColumn, ofKind, present])
    · exact decides_unknown _
  rw [if_neg ofKind]
  by_cases nulls : p.kind ≠ .isFalse ∧
      ((p.column.isSome ∧ columnValue.any Constant.isNull) ∨
        (p.other.isSome ∧ otherValue.any Constant.isNull))
  · rw [if_pos nulls]
    refine decides_never (truth_null k valid ofKind ?_)
    rcases nulls.2 with own | second
    · exact .inl (any_isNull holds own.2)
    · exact .inr ⟨second.1, any_isNull holdsOther second.2⟩
  rw [if_neg nulls]
  unfold Predicate.truth
  cases of : p.kind with
  | compare =>
    simp only [ofColumn]
    exact ofColumn ▸ compare_decides k ofColumn valid.constant holds
  | compareColumns =>
    simp only [ofColumn]
    exact ofColumn ▸ compareColumns_decides k ofColumn holds holdsOther
  | isIn =>
    simp only [ofColumn]
    exact ofColumn ▸ (in_decides k ofColumn valid.constants holds).1
  | notIn =>
    simp only [ofColumn]
    exact ofColumn ▸ (in_decides k ofColumn valid.constants holds).2
  | isNotNull =>
    simp only [ofColumn]
    cases found : ofItsType (some column) columnValue with
    | none => exact decides_unknown _
    | some known =>
      have present : ¬ columnValue.any Constant.isNull := fun null =>
        nulls ⟨by rw [of]; decide, .inl ⟨reads, null⟩⟩
      have other := not_isNull_of_ofItsType present found
      rw [(ofItsType_holds holds found).2.1] at other
      have truth : decide (value ≠ .null) = true := decide_eq_true other
      simp only [truth, Option.isSome_some, if_true, Bool.false_and, Bool.false_eq_true, if_false]
      exact decides_ofBool true
  | isFalse =>
    simp only [ofColumn]
    exact decides_ofBool false
  | isNull => exact absurd of ofKind
  | like | notLike | isTrue => exact decides_unknown _

end Antb1.Plan
