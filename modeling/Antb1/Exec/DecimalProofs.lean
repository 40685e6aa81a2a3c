import Antb1.Exec.Decimal
import Mathlib.Data.List.GetD

/-! Negation, abs and casts of exact numbers: the exact result in every row, stored without loss, or
a failed query, except for the least value of a DECIMAL column's physical width. -/
namespace Antb1.Exec.Decimal

open Common Lib Plan LogicalType List

variable {type : LogicalType} {x : Int} {source target : LogicalType} {f : Int → Except Fault Int}
  {values : Column}

def number (type : LogicalType) (x : Int) : ℚ := x / 10 ^ type.scale

/-- A result with a property, or a query that fails for a reason; never an undefined step. -/
def Follows {T : Type} (Result : T → Prop) (reason : Prop) : Except Fault T → Prop
  | .ok result => Result result
  | .error (.failed _) => reason
  | .error (.undefined _) => False

abbrev Yields {T : Type} (Result : T → Prop) : Except Fault T → Prop := Follows Result True

section Follows

variable {T U : Type} {P Q : T → Prop} {R : U → Prop} {reason weaker : Prop}
  {result : Except Fault T} {Rel : Int → Int → Prop}

section

variable (follows : Follows P reason result)
include follows

theorem Follows.imp (results : ∀ t, P t → Q t) (implies : reason → weaker) :
    Follows Q weaker result := by
  rcases result with (_ | _) | t
  · exact implies follows
  · exact follows
  · exact results t follows

theorem Follows.mono (results : ∀ t, P t → Q t) :
    Follows Q reason result := follows.imp results id

theorem Follows.bind {next : T → Except Fault U} (then_ : ∀ t, P t → Follows R reason (next t)) :
    Follows R reason (result >>= next) := by
  rcases result with (_ | _) | t
  · exact follows
  · exact follows
  · exact then_ t follows

theorem Follows.toOption_none (apart : ∀ t, P t → ¬reason) : result.toOption = none ↔ reason := by
  rcases result with (_ | _) | t
  · exact iff_of_true rfl follows
  · exact follows.elim
  · exact iff_of_false nofun (apart t follows)

end

theorem follows_map {f : T → U} :
    Follows R reason (result.map f) ↔ Follows (fun t => R (f t)) reason result := by
  rcases result with (_ | _) | t <;> rfl

theorem follows_mapM {α : Type} {Rel : α → T → Prop} {F : α → Prop} {f : α → Except Fault T}
    {list : List α} (each : ∀ a ∈ list, Follows (Rel a) (F a) (f a)) :
    Follows (List.Forall₂ Rel list) (∃ a ∈ list, F a) (list.mapM f) := by
  induction list with
  | nil => exact .nil
  | cons first rest ih =>
    rw [mapM_cons]
    apply ((each first mem_cons_self).imp (fun _ => id) fun failed =>
      ⟨first, mem_cons_self, failed⟩).bind
    intro t isFirst
    apply ((ih fun a among => each a (mem_cons_of_mem _ among)).imp (fun _ => id) fun
      ⟨a, among, failed⟩ => ⟨a, mem_cons_of_mem _ among, failed⟩).bind
    exact fun ts isRest => .cons isFirst isRest

theorem follows_eachRow {fails : Int → Prop}
    (each : ∀ x, some x ∈ values → Follows (Rel x) (fails x) (f x)) :
    Follows (List.Forall₂ (Option.Rel Rel) values) (∃ x, some x ∈ values ∧ fails x)
      (eachRow f values) := by
  have rows : ∀ value ∈ values, Follows (Option.Rel Rel value) (∃ x, value = some x ∧ fails x)
      (onRow f value) := by
    rintro (_ | x) among
    · exact .none
    · exact follows_map.mpr ((each x among).imp (fun _ => .some) fun failed => ⟨x, rfl, failed⟩)
  refine (follows_mapM rows).imp (fun _ => id) ?_
  rintro ⟨_, among, x, rfl, failed⟩
  exact ⟨x, among, failed⟩

theorem yields_eachRow (each : ∀ x, some x ∈ values → Yields (Rel x) (f x)) :
    Yields (List.Forall₂ (Option.Rel Rel) values) (eachRow f values) :=
  (follows_eachRow each).imp (fun _ => id) fun _ => trivial

/-- A row of an operation that raises nothing has its result in the column. -/
theorem Follows.row (yields : Yields (List.Forall₂ (Option.Rel Rel) values) (eachRow f values))
    (quiet : ∀ x status, some x ∈ values → f x ≠ .error (.failed status))
    (among : some x ∈ values) : Yields (Rel x) (f x) := by
  cases ran : eachRow f values with
  | error fault =>
    obtain ⟨_ | x, among, isFault⟩ := mapM_error ran
    · cases isFault
    cases isResult : f x with
    | ok _ =>
      rw [onRow, isResult] at isFault
      cases isFault
    | error _ =>
      rw [onRow, isResult] at isFault
      cases isFault
      rcases fault with status | _
      · exact (quiet x status among isResult).elim
      · rw [ran] at yields
        cases yields
  | ok out =>
    rw [ran] at yields
    have rows := mapM_forall₂ ran
    obtain ⟨i, bound, same⟩ := getElem_of_mem among
    have inOut : i < out.length := rows.length_eq ▸ bound
    have isRow := rows.get bound inOut
    have related := List.Forall₂.get yields bound inOut
    rw [get_eq_getElem, same] at isRow related
    cases isResult : f x with
    | error _ =>
      rw [onRow, isResult] at isRow
      cases isRow
    | ok y =>
      rw [onRow, isResult] at isRow
      rw [← Except.ok.inj isRow] at related
      cases related with
      | some holds => exact holds

end Follows

theorem narrow_cases (narrow : isNarrow type = true) :
    ∃ width scale, type = .decimal width scale ∧ width ≤ kSmall := by
  obtain ⟨decimal, small⟩ := Bool.and_eq_true _ _ ▸ narrow
  obtain ⟨width, scale, rfl⟩ := decimal_cases decimal
  exact ⟨width, scale, rfl, of_decide_eq_true small⟩

theorem append_narrow (narrow : isNarrow type = true) (x : Int) :
    append type x = x.bmod (2 ^ 64) := by
  obtain ⟨width, scale, rfl, small⟩ := narrow_cases narrow
  exact if_pos narrow

theorem append_wide (wide : isNarrow type = false) (decimal : isArrowDecimal type = true)
    (x : Int) : append type x = x := by
  cases type with
  | hugeInt => rfl
  | decimal _ _ => exact if_neg (Bool.eq_false_iff.mp wide)
  | _ => cases decimal

theorem bmod_of_inInt64 (held : InInt64 x) : x.bmod (2 ^ 64) = x := by
  unfold InInt64 at held
  exact Int.bmod_eq_of_le (by omega) (by omega)

theorem stored_narrow (narrow : isNarrow type = true) : Stored type x ↔ InInt64 x := by
  rw [Stored, if_pos narrow]

theorem stored_wide (wide : isNarrow type = false) (decimal : isArrowDecimal type = true) :
    Stored type x ↔ InInt128 x := by
  rw [Stored, if_neg (Bool.eq_false_iff.mp wide), if_pos decimal]

theorem stored_integer (integer : type.isInteger = true) (small : type ≠ .hugeInt) :
    Stored type x ↔ (rangeOf type).Holds x := by
  rcases integer_cases integer with rfl | rfl | rfl | rfl | rfl
  case inr.inr.inr.inr => exact absurd rfl small
  all_goals rfl

section

variable (exact : type.isExactNumber = true)
include exact

/-- The columns of exact numbers: decimal64, decimal128, and the other integers' own. -/
theorem column_cases :
    isNarrow type = true ∨ (isNarrow type = false ∧ isArrowDecimal type = true) ∨
      (type.isInteger = true ∧ type ≠ .hugeInt) := by
  cases narrow : isNarrow type
  case true => exact .inl rfl
  rcases exactNumber_cases exact with integer | ⟨width, scale, rfl⟩
  · by_cases huge : type = .hugeInt
    · subst huge
      exact .inr (.inl ⟨rfl, rfl⟩)
    · exact .inr (.inr ⟨integer, huge⟩)
  · exact .inr (.inl ⟨rfl, rfl⟩)

theorem append_stored (held : Stored type x) : append type x = x := by
  rcases column_cases exact with narrow | ⟨wide, decimal⟩ | ⟨integer, small⟩
  · rw [append_narrow narrow]
    exact bmod_of_inInt64 ((stored_narrow narrow).mp held)
  · exact append_wide wide decimal x
  · rw [stored_integer integer small] at held
    rcases integer_cases integer with rfl | rfl | rfl | rfl | rfl <;>
      simp only [IntegerRange.Holds, rangeOf] at held
    · exact Int.bmod_eq_of_le (by omega) (by omega)
    · exact Int.bmod_eq_of_le (by omega) (by omega)
    · exact Int.bmod_eq_of_le (by omega) (by omega)
    · exact Int.emod_eq_of_lt (by omega) (by omega)
    · exact absurd rfl small

theorem yields_append {P : Int → Prop} (stored : Stored type x) (holds : P x) :
    Yields (fun y => P y ∧ Stored type y) (.ok (append type x)) := by
  rw [append_stored exact stored]
  exact ⟨holds, stored⟩

theorem Stored.inInt128 (held : Stored type x) : InInt128 x := by
  rcases column_cases exact with narrow | ⟨wide, decimal⟩ | ⟨integer, small⟩
  · have := (stored_narrow narrow).mp held
    unfold InInt64 at this
    exact ⟨by omega, by omega⟩
  · exact (stored_wide wide decimal).mp held
  · rw [stored_integer integer small] at held
    unfold InInt128
    rcases integer_cases integer with rfl | rfl | rfl | rfl | rfl <;>
      simp only [IntegerRange.Holds, rangeOf] at held <;> omega

end

theorem power_le {width bound : Nat} (le : width ≤ bound) : (10 : Int) ^ width ≤ 10 ^ bound := by
  exact_mod_cast Nat.pow_le_pow_right (by decide) le

theorem stored_of_holds (exact : type.isExactNumber = true) (valid : type.Valid)
    (held : (rangeOf type).Holds x) : Stored type x := by
  rcases column_cases exact with narrow | ⟨wide, decimal⟩ | ⟨integer, small⟩
  · obtain ⟨width, scale, rfl, small⟩ := narrow_cases narrow
    have bound := power_le small
    rw [decimal_holds] at held
    rw [stored_narrow narrow]
    simp only [kSmall] at bound
    exact ⟨by omega, by omega⟩
  · rw [stored_wide wide decimal]
    rcases exactNumber_cases exact with integer | ⟨width, scale, rfl⟩
    · rcases integer_cases integer with rfl | rfl | rfl | rfl | rfl <;>
        simp only [IntegerRange.Holds, rangeOf] at held <;> exact ⟨by omega, by omega⟩
    · have bound := power_le valid.2.1
      rw [decimal_holds] at held
      simp only [kMaxDecimalWidth] at bound
      exact ⟨by omega, by omega⟩
  · exact (stored_integer integer small).mpr held

/-- The remainder of a truncated quotient: it has the dividend's sign. -/
structure Remainder (a b r : ℚ) : Prop where
  multiple : ∃ q : ℤ, a = q * b + r
  small : |r| < |b|
  sign : 0 ≤ a * r

/-- What an operation makes of two numbers; none is NULL. -/
def ArithExact (op : ArithOp) (a b : ℚ) (result : Option ℚ) : Prop :=
  match op with
  | .add => result = some (a + b)
  | .subtract => result = some (a - b)
  | .multiply => result = some (a * b)
  | .modulo => if b = 0 then result = none else ∃ r, result = some r ∧ Remainder a b r
  | .divide | .integerDivide => False

/-- What an operation makes of a row of its operands, in its result's type. -/
def ArithRowExact (op : ArithOp) (left right result : LogicalType) (x y out : Option Int) : Prop :=
  match x, y with
  | some x, some y => ArithExact op (number left x) (number right y) (out.map (number result))
  | _, _ => out = none

/-- A column of `numRows` rows with any values it can hold. -/
structure HeldColumn (numRows : Nat) (type : LogicalType) (values : Column) : Prop where
  length : values.length = numRows
  stored : ∀ x, some x ∈ values → Stored type x

/-- A constant is a value of its type; a column holds any of its physical width. -/
def Input.Held (numRows : Nat) (input : Input) : Prop :=
  match input.values with
  | .scalar value => (rangeOf input.type).Holds value
  | .array values => HeldColumn numRows input.type values

def least (type : LogicalType) : Int := if isNarrow type then -2 ^ 63 else -2 ^ 127

theorem rows_eq {numRows : Nat} (length : values.length = numRows) :
    (List.range numRows).map (fun row => values.getD row none) = values := by
  apply ext_getElem
  · rw [length_map, length_range, length]
  · intro row _ inColumn
    rw [getElem_map, getElem_range, getD_eq_getElem _ _ inColumn]

theorem forall₂_range {Row : Nat → Option Int → Prop} {numRows : Nat} :
    List.Forall₂ Row (List.range numRows) values ↔
      values.length = numRows ∧ ∀ row < numRows, Row row (values.getD row none) := by
  have rows : values.length = numRows → (List.Forall₂ Row (List.range numRows) values ↔
      ∀ row < numRows, Row row (values.getD row none)) := by
    intro length
    conv_lhs => rw [← rows_eq length]
    simp only [forall₂_map_right_iff, forall₂_same, mem_range]
  constructor
  · intro related
    have length : values.length = numRows := by rw [← related.length_eq, length_range]
    exact ⟨length, (rows length).mp related⟩
  · rintro ⟨length, each⟩
    exact (rows length).mpr each

theorem number_neg (type : LogicalType) (x : Int) : number type (-x) = -number type x := by
  rw [number, number, Int.cast_neg, neg_div]

theorem number_injective {x y : Int} (same : number type x = number type y) : x = y := by
  have power : (10 : ℚ) ^ type.scale ≠ 0 := by positivity
  exact_mod_cast (div_left_inj' power).mp same

theorem number_abs (type : LogicalType) (x : Int) : |number type x| = number type |x| := by
  have power : (0 : ℚ) < 10 ^ type.scale := by positivity
  rw [number, number, abs_div, abs_of_pos power, Int.cast_abs]

theorem least_narrow (narrow : isNarrow type = true) :
    least type = -2 ^ 63 := if_pos narrow

theorem least_wide (wide : isNarrow type = false) :
    least type = -2 ^ 127 := if_neg (Bool.eq_false_iff.mp wide)

theorem stored_neg (held : Stored type x) (spared : isNarrow type = true → x ≠ least type)
    (fits : InInt128 (-x)) (decimal : isArrowDecimal type = true) : Stored type (-x) := by
  cases narrow : isNarrow type
  case false => exact (stored_wide narrow decimal).mpr fits
  have beyond := spared narrow
  have bounds := (stored_narrow narrow).mp held
  rw [least_narrow narrow] at beyond
  rw [stored_narrow narrow]
  unfold InInt64 at bounds ⊢
  omega

theorem inInt128_neg (decimal : isArrowDecimal type = true) (held : Stored type x)
    (spared : x ≠ least type) : InInt128 (-x) := by
  cases narrow : isNarrow type
  case true =>
    have bounds := (stored_narrow narrow).mp held
    unfold InInt64 at bounds
    exact ⟨by omega, by omega⟩
  case false =>
    have bounds := (stored_wide narrow decimal).mp held
    rw [least_wide narrow] at spared
    unfold InInt128 at bounds ⊢
    omega

theorem exactNumber_of_decimal (decimal : type.isDecimal = true) :
    type.isExactNumber = true := Bool.or_eq_true _ _ ▸ .inr decimal

theorem arrowDecimal_of_decimal (decimal : type.isDecimal = true) :
    isArrowDecimal type = true := Bool.or_eq_true _ _ ▸ .inl decimal

theorem negateRow_exact (decimal : type.isDecimal = true) (held : Stored type x)
    (spared : isNarrow type = true → x ≠ least type) :
    Yields (fun y => number type y = -number type x ∧ Stored type y) (negateRow type x) := by
  have exact := exactNumber_of_decimal decimal
  rw [negateRow, zero_sub]
  split
  case isFalse => trivial
  case isTrue fits =>
    exact yields_append exact (stored_neg held spared fits (arrowDecimal_of_decimal decimal))
      (number_neg type x)

theorem negateRow_least (narrow : isNarrow type = true) :
    negateRow type (least type) = .ok (least type) := by
  rw [least_narrow narrow, negateRow, if_pos (by decide), append_narrow narrow]
  rfl

theorem absRow_decimal (decimal : isArrowDecimal type = true) (x : Int) :
    absRow type x =
      if x < 0 then (signed (int128 (-x))).map (append type) else .ok (append type x) := by
  refine if_pos ?_
  rcases Bool.or_eq_true _ _ ▸ decimal with decimal | huge
  · exact .inl decimal
  · exact .inr (of_decide_eq_true huge)

theorem absRow_integer (integer : type.isInteger = true) (small : type ≠ .hugeInt) (x : Int) :
    absRow type x = if x < 0 ∧ -x > (rangeOf type).max then raise s!"Overflow on abs({x})"
      else .ok (if x < 0 then -x else x) := by
  rw [absRow, if_neg, if_neg]
  · simp [integer]
  · simp [integer_not_decimal integer, small]

/-- The values a wide or narrow decimal column holds beside its least have a magnitude in it. -/
theorem absRow_decimal_exact (exact : type.isExactNumber = true)
    (decimal : isArrowDecimal type = true) (held : Stored type x) (spared : x ≠ least type) :
    Yields (fun y => number type y = number type |x| ∧ Stored type y) (absRow type x) := by
  rw [absRow_decimal decimal]
  split
  case isFalse nonneg =>
    rw [abs_of_nonneg (not_lt.mp nonneg)]
    exact yields_append exact held rfl
  case isTrue negative =>
    have fits := inInt128_neg decimal held spared
    rw [int128_ok fits, abs_of_neg negative]
    exact yields_append exact (stored_neg held (fun _ => spared) fits decimal) rfl

theorem absRow_integer_exact (integer : type.isInteger = true) (small : type ≠ .hugeInt)
    (held : Stored type x) :
    Yields (fun y => number type y = number type |x| ∧ Stored type y) (absRow type x) := by
  rw [absRow_integer integer small]
  rw [stored_integer integer small] at held
  split
  case isTrue => trivial
  case isFalse fits =>
    have magnitude : (if x < 0 then -x else x) = |x| := by
      split
      · rw [abs_of_neg ‹_›]
      · rw [abs_of_nonneg (not_lt.mp ‹_›)]
    have least : (rangeOf type).min ≤ 0 := by
      rcases integer_cases integer with rfl | rfl | rfl | rfl | rfl <;> decide
    have high := held.2
    change number type (ite _ _ _) = _ ∧ Stored type (ite _ _ _)
    rw [stored_integer integer small, ← magnitude]
    refine ⟨rfl, ?_⟩
    unfold IntegerRange.Holds
    split <;> omega

theorem absRow_exact (exact : type.isExactNumber = true) (held : Stored type x)
    (spared : isArrowDecimal type = true → x ≠ least type) :
    Yields (fun y => number type y = |number type x| ∧ Stored type y) (absRow type x) := by
  rw [number_abs]
  rcases column_cases exact with narrow | ⟨_, decimal⟩ | ⟨integer, small⟩
  · obtain ⟨width, scale, rfl, _⟩ := narrow_cases narrow
    exact absRow_decimal_exact exact rfl held (spared rfl)
  · exact absRow_decimal_exact exact decimal held (spared decimal)
  · exact absRow_integer_exact integer small held

/-- The least value of a decimal column is kept where the column is narrow, and undefined where it
is wide. -/
theorem absRow_least (decimal : isArrowDecimal type = true) :
    absRow type (least type) =
      if isNarrow type then .ok (least type) else .error (.undefined .int128) := by
  rw [absRow_decimal decimal]
  cases narrow : isNarrow type
  case true =>
    rw [least_narrow narrow, if_pos (by decide), int128_ok (by decide)]
    change Except.ok (append _ _) = _
    rw [append_narrow narrow]
    rfl
  case false =>
    rw [least_wide narrow, if_pos (by decide)]
    rfl

theorem absRow_quiet (decimal : isArrowDecimal type = true) (x : Int) (status : Status) :
    absRow type x ≠ .error (.failed status) := by
  rw [absRow_decimal decimal]
  split
  · unfold int128
    split <;> exact fun same => nomatch same
  · exact fun same => nomatch same

theorem negateRow_quiet (held : InInt64 x) (status : Status) :
    negateRow type x ≠ .error (.failed status) := by
  unfold InInt64 at held
  rw [negateRow, if_pos ⟨by omega, by omega⟩]
  exact fun same => nomatch same

section Column

variable (held : ∀ x, some x ∈ values → Stored type x)
include held

theorem negate_iff (decimal : type.isDecimal = true) :
    Yields (List.Forall₂ (Option.Rel fun x y => number type y = -number type x ∧ Stored type y)
        values) (negate type values) ↔
      (isNarrow type = true → some (least type) ∉ values) := by
  refine ⟨fun yields narrow among => ?_, fun spared => ?_⟩
  · have row := Follows.row yields (fun x status among =>
      negateRow_quiet ((stored_narrow narrow).mp (held x among)) status) among
    rw [negateRow_least narrow] at row
    have same := row.1
    rw [← number_neg, least_narrow narrow] at same
    exact absurd (number_injective same) (by decide)
  · apply yields_eachRow
    intro x among
    apply negateRow_exact decimal (held x among)
    rintro narrow rfl
    exact spared narrow among

theorem abs_iff (exact : type.isExactNumber = true) :
    Yields (List.Forall₂ (Option.Rel fun x y => number type y = |number type x| ∧ Stored type y)
        values) (Decimal.abs type values) ↔
      (isArrowDecimal type = true → some (least type) ∉ values) := by
  refine ⟨fun yields decimal among => ?_, fun spared => ?_⟩
  · have row := Follows.row yields (fun x status _ => absRow_quiet decimal x status) among
    rw [absRow_least decimal] at row
    split at row
    case isFalse => exact row
    case isTrue narrow =>
      have same := row.1
      rw [number_abs, least_narrow narrow] at same
      exact absurd (number_injective same) (by decide)
  · apply yields_eachRow
    intro x among
    apply absRow_exact exact (held x among)
    rintro decimal rfl
    exact spared decimal among

end Column

section

variable (exactSource : source.isExactNumber = true)
include exactSource

theorem isExecutableCast_exact (exactTarget : target.isExactNumber = true) :
    isExecutableCast source target = true := by
  rcases exactNumber_cases exactTarget with integer | ⟨width, scale, rfl⟩
  · simp [isExecutableCast, integer, exactSource]
  · simp [isExecutableCast, exactSource]

theorem castToDecimalRow_exact (exactTarget : target.isExactNumber = true) (valid : target.Valid)
    (column : String) (held : Stored source x) :
    Yields (fun y => HalfAway (number source x * 10 ^ target.scale) y ∧ Stored target y)
      (castToDecimalRow source target column x) := by
  have fits := held.inInt128 exactSource
  obtain ⟨cast, isCast⟩ := rescale_defined source.scale target.scale fits
  rw [castToDecimalRow, isCast]
  rcases cast with _ | y
  · trivial
  · change Yields _ (if (rangeOf target).Holds y then .ok (append target y) else raise _)
    split
    case isFalse => trivial
    case isTrue holds =>
      exact yields_append exactTarget (stored_of_holds exactTarget valid holds)
        (rescale_rounds fits isCast)

theorem castToIntegerRow_exact (integer : target.isInteger = true) (valid : target.Valid)
    (column : String) (held : Stored source x) :
    Yields (fun y => HalfAway (number source x * 10 ^ target.scale) y ∧ Stored target y)
      (castToIntegerRow source target column x) := by
  have fits := held.inInt128 exactSource
  obtain ⟨cast, isCast⟩ := rescale_defined source.scale 0 fits
  rw [castToIntegerRow, isCast]
  change Yields _ (if cast.isSome = true ∧ (rangeOf target).Holds (cast.getD x)
    then .ok (append target (cast.getD x)) else _)
  split
  case isFalse =>
    dsimp only
    split <;> trivial
  case isTrue isSome =>
    obtain ⟨y, rfl⟩ := Option.isSome_iff_exists.mp isSome.1
    have exact : target.isExactNumber = true := Bool.or_eq_true _ _ ▸ .inl integer
    rw [integer_scale integer]
    exact yields_append exact (stored_of_holds exact valid isSome.2) (rescale_rounds fits isCast)

end

theorem stored_of_widening (integer : target.isInteger = true)
    (widening : isExactWidening source target = true) (held : Stored source x) :
    Stored target x ∧ source.scale = target.scale := by
  by_cases same : source = target
  · subst same
    exact ⟨held, rfl⟩
  rw [isExactWidening, if_neg same] at widening
  split at widening
  case isFalse =>
    rw [integer_not_decimal integer] at widening
    cases widening
  case isTrue both =>
    have integerSource := (Bool.and_eq_true _ _ ▸ both).1
    have exact : target.isExactNumber = true := Bool.or_eq_true _ _ ▸ .inl integer
    have huge : source ≠ .hugeInt := by
      rintro rfl
      rcases integer_cases integer with rfl | rfl | rfl | rfl | rfl <;> revert widening same <;>
        decide
    rw [IntegerRange.within, Bool.and_eq_true, decide_eq_true_eq, decide_eq_true_eq] at widening
    have bounds := (stored_integer integerSource huge).mp held
    refine ⟨?_, (integer_scale integerSource).trans (integer_scale integer).symm⟩
    apply stored_of_holds exact
    · rcases integer_cases integer with rfl | rfl | rfl | rfl | rfl <;> trivial
    · exact ⟨widening.1.trans bounds.1, bounds.2.trans widening.2⟩

theorem halfAway_same (source target : LogicalType) (same : source.scale = target.scale) (x : Int) :
    HalfAway (number source x * 10 ^ target.scale) x := by
  have power : (10 : ℚ) ^ target.scale ≠ 0 := by positivity
  rw [number, same, div_mul_cancel₀ _ power]
  exact .exact x

theorem cast_exact (held : ∀ x, some x ∈ values → Stored source x)
    (exactSource : source.isExactNumber = true) (exactTarget : target.isExactNumber = true)
    (valid : target.Valid) (column : String) :
    Yields (List.Forall₂ (Option.Rel fun x y =>
      HalfAway (number source x * 10 ^ target.scale) y ∧ Stored target y) values)
      (castTo source target column values) := by
  rw [castTo, if_pos (isExecutableCast_exact exactSource exactTarget), convert]
  split
  case isTrue =>
    exact yields_eachRow fun x among =>
      castToDecimalRow_exact exactSource exactTarget valid column (held x among)
  case isFalse notDecimal =>
  split
  case isTrue narrowing =>
    exact yields_eachRow fun x among =>
      castToIntegerRow_exact exactSource narrowing.1 valid column (held x among)
  case isFalse notNarrowing =>
    have kept : ∀ x, Stored source x → Stored target x ∧ source.scale = target.scale := by
      intro x stored
      rcases exactNumber_cases exactTarget with integer | ⟨width, scale, rfl⟩
      · apply stored_of_widening integer _ stored
        simpa [integer] using notNarrowing
      · have same : source = .decimal width scale := by simpa using notDecimal
        subst same
        exact ⟨stored, rfl⟩
    apply forall₂_same.mpr
    rintro (_ | x) among
    · exact .none
    · obtain ⟨stored, same⟩ := kept x (held x among)
      exact .some ⟨halfAway_same source target same x, stored⟩

end Antb1.Exec.Decimal
