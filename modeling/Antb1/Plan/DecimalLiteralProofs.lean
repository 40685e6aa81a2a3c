import Antb1.Plan.LiteralProofs

/-! A DECIMAL literal is read as the number it denotes, and the text of a DECIMAL value is read
back as the value. -/
namespace Antb1

open List

theorem reversedDigits_eq {n : Nat} (positive : 0 < n) :
    (reversedDigits n).reverse = Digits.text n := by
  induction n using Digits.text.induct with
  | case1 n small =>
    rw [reversedDigits, if_neg positive.ne', reversedDigits, if_pos (by omega), Digits.text,
      if_pos small, Nat.mod_eq_of_lt small]
    rfl
  | case2 n large ih =>
    rw [reversedDigits, if_neg positive.ne', reverse_cons, ih (by omega)]
    conv_rhs => rw [Digits.text, if_neg large]

theorem int128ToString_eq {value : Int} (held : InInt128 value) :
    int128ToString value = (if value < 0 then ['-'] else []) ++ Digits.text value.natAbs := by
  unfold InInt128 at held
  dsimp only [int128ToString]
  by_cases zero : value = 0
  · rw [if_pos zero, zero, Int.natAbs_zero, Digits.text]
    rfl
  rw [if_neg zero]
  have size : (if value < 0 then (0 - value % 2 ^ 128) % 2 ^ 128 else value % 2 ^ 128).toNat =
      value.natAbs := by
    split_ifs <;> omega
  have digits := reversedDigits_eq (n := value.natAbs) (by omega)
  rw [size]
  split_ifs
  · rw [reverse_append, digits]
    rfl
  · exact digits

theorem text_leading {n : Nat} (zero : (Digits.text n).head? = some '0') :
    Digits.text n = ['0'] := by
  induction n using Digits.text.induct with
  | case1 n small =>
    rw [Digits.text, if_pos small] at zero ⊢
    exact congrArg (fun c => [c]) (Option.some.inj zero)
  | case2 n large ih =>
    have isValue := (Digits.text_spec (n / 10)).2
    rw [Digits.text, if_neg large] at zero
    cases first : Digits.text (n / 10) with
    | nil =>
      rw [first] at isValue
      change 0 = n / 10 at isValue
      omega
    | cons c rest =>
      rw [first] at zero ih
      rw [first, ih zero] at isValue
      change 0 = n / 10 at isValue
      omega

namespace Plan

open Lib

/-- Digits with a point among them, few enough for a DECIMAL. -/
structure Pointed (integer fraction : List Char) : Prop where
  whole : Digits.Decimal integer
  part : Digits.Decimal fraction
  some_ : ¬(integer = [] ∧ fraction = [])
  few : integer.length + fraction.length ≤ 38

section Read

variable {integer fraction text : List Char}

theorem not_mem_of_decimal {digits : List Char} (decimal : Digits.Decimal digits) {c : Char}
    (other : c.isDigit = false) : c ∉ digits := by
  intro member
  rw [decimal c member] at other
  cases other

theorem countP_digits (whole : Digits.Decimal integer) (part : Digits.Decimal fraction) :
    (integer ++ '.' :: fraction).countP Char.isDigit = integer.length + fraction.length := by
  rw [countP_append, countP_cons, countP_eq_length.mpr whole, countP_eq_length.mpr part]
  rfl

section

variable (pointed : Pointed integer fraction)
include pointed

theorem Pointed.positive : 1 ≤ integer.length + fraction.length := by
  by_contra none
  exact pointed.some_ ⟨length_eq_zero_iff.mp (by omega), length_eq_zero_iff.mp (by omega)⟩

theorem Pointed.spells :
    NumberParts.Spells ⟨integer, fraction, false, []⟩ (integer ++ '.' :: fraction) where
  integer := pointed.whole
  fraction := pointed.part
  exponent := forall_mem_nil _
  some_ := pointed.some_
  spelled := ⟨'.' :: fraction, [], by rw [append_nil], .inr rfl, .inl ⟨rfl, rfl, rfl⟩⟩

theorem Pointed.not_approximate : isApproximateNumber (integer ++ '.' :: fraction) = false := by
  have few := pointed.few
  have limit : kMaxIntegerDigits = 38 := rfl
  have noMark : ∀ c ∈ integer ++ '.' :: fraction, ¬(c = 'e' ∨ c = 'E') := by
    intro c member
    rcases mem_append.mp member with left | right
    · rintro (rfl | rfl) <;> exact not_mem_of_decimal pointed.whole rfl left
    · rcases mem_cons.mp right with rfl | right
      · decide
      · rintro (rfl | rfl) <;> exact not_mem_of_decimal pointed.part rfl right
  rw [isApproximateNumber, Bool.or_eq_false_iff, any_eq_false, Bool.and_eq_false_iff,
    ← countP_eq_length_filter, countP_digits pointed.whole pointed.part]
  refine ⟨fun c member => by simpa using noMark c member, .inr (decide_eq_false ?_)⟩
  omega

theorem Pointed.parse (negative : Bool) :
    parseDecimalLiteral (integer ++ '.' :: fraction) negative =
      .ok (some ⟨.decimal (integer.length + fraction.length) fraction.length,
        if negative then -Digits.value (integer ++ fraction)
        else Digits.value (integer ++ fraction)⟩) := by
  have few := pointed.few
  have length : (integer ++ '.' :: fraction).length = integer.length + fraction.length + 1 := by
    rw [length_append, length_cons, Nat.add_assoc]
  have dot : (integer ++ '.' :: fraction).idxOf '.' = integer.length := by
    rw [idxOf_append, if_neg (not_mem_of_decimal pointed.whole rfl), idxOf_cons_self, Nat.zero_add]
  have positive := pointed.positive
  obtain ⟨number, isNumber, -⟩ := @parseExactNumber_denotes _ _ pointed.spells (by omega) negative 0
    (by omega)
  have decimal := pointed.whole.append pointed.part
  have isValue := digitsValue_ok decimal (by rwa [length_append])
  have below := Digits.value_lt decimal
  have bound : (10 : Nat) ^ (integer ++ fraction).length ≤ 10 ^ 38 :=
    Nat.pow_le_pow_right (by decide) (by rwa [length_append])
  have whole : (integer ++ '.' :: fraction).take integer.length ++
      (integer ++ '.' :: fraction).drop (integer.length + 1) = integer ++ fraction := by
    rw [take_left, ← drop_drop, drop_left]
    rfl
  have digits : max (integer.length + fraction.length + 1 - 1) 1 =
      integer.length + fraction.length := by omega
  have scale : integer.length + fraction.length + 1 - integer.length - 1 = fraction.length := by
    omega
  unfold parseDecimalLiteral
  dsimp only
  rw [dot, length, pointed.not_approximate, if_neg (by simp; omega), whole, isValue, digits, scale]
  change (parseExactNumber _ negative ((0 : Nat) : Int) >>= _) = _
  rw [isNumber, ok_bind, Option.isNone_some, if_neg (by decide), ok_bind]
  cases negative with
  | true =>
    rw [int128_ok (inInt128_of_le (by omega) (by omega)), ok_bind]
    rfl
  | false => rfl

end

theorem pointed_of_spells {parts : NumberParts} (spells : parts.Spells text) (dot : '.' ∈ text)
    (isExact : isApproximateNumber text = false) :
    text = parts.integer ++ '.' :: parts.fraction ∧ Pointed parts.integer parts.fraction := by
  rw [isApproximateNumber, Bool.or_eq_false_iff, any_eq_false, Bool.and_eq_false_iff,
    ← countP_eq_length_filter] at isExact
  obtain ⟨noMark, few⟩ := isExact
  have many := few.resolve_left (by simpa using dot)
  obtain ⟨point, mark, rfl, isPoint, isMark⟩ := spells.spelled
  obtain rfl : mark = [] := by
    rcases isMark with ⟨none, -⟩ | ⟨e, sign, isE, rfl, -⟩
    · exact none
    · exact absurd (by simpa using isE) (noMark e (by simp))
  obtain rfl : point = '.' :: parts.fraction := by
    rcases isPoint with ⟨rfl, -⟩ | isPoint
    · exact absurd dot (by simpa using not_mem_of_decimal spells.integer rfl)
    · exact isPoint
  rw [append_nil] at many ⊢
  refine ⟨rfl, spells.integer, spells.fraction, spells.some_, ?_⟩
  have limit : kMaxIntegerDigits = 38 := rfl
  rw [countP_digits spells.integer spells.fraction, decide_eq_false_iff_not] at many
  omega

theorem signed_pointed (integer fraction : List Char) (negative : Bool) :
    NumberParts.signed ⟨integer, fraction, false, []⟩ negative =
      ((if negative then -Digits.value (integer ++ fraction)
        else Digits.value (integer ++ fraction) : Int) : ℚ) / 10 ^ fraction.length := by
  have size : NumberParts.value ⟨integer, fraction, false, []⟩ =
      Digits.value (integer ++ fraction) / 10 ^ fraction.length := by
    simp [NumberParts.value, NumberParts.exponentValue, Digits.value, div_eq_mul_inv]
  rw [NumberParts.signed, size]
  split_ifs <;> push_cast <;> ring

/-- Every text is read without an overflow, and what is accepted as the number it denotes. -/
theorem parseDecimalLiteral_denotes (text : List Char) (negative : Bool) :
    ∃ read, parseDecimalLiteral text negative = .ok read ∧ ∀ literal, read = some literal →
      literal.type.Valid ∧ ∃ parts : NumberParts, parts.Spells text ∧
        (literal.unscaled : ℚ) / 10 ^ literal.type.scale = parts.signed negative := by
  by_cases refused : text.idxOf '.' = text.length ∨ isApproximateNumber text = true
  · refine ⟨none, ?_, nofun⟩
    unfold parseDecimalLiteral
    exact if_pos refused
  obtain ⟨dot, isExact⟩ := not_or.mp refused
  cases split : splitNumber text with
  | none =>
    refine ⟨none, ?_, nofun⟩
    have notNumber : parseExactNumber text negative 0 = .ok none := by
      rw [parseExactNumber, split]
    unfold parseDecimalLiteral
    dsimp only
    rw [if_neg refused, notNumber]
    rfl
  | some parts =>
    have spells := splitNumber_iff.mp split
    have isDot : '.' ∈ text := by
      by_contra none
      exact dot (idxOf_eq_length none)
    obtain ⟨rfl, pointed⟩ := pointed_of_spells spells isDot (Bool.eq_false_iff.mpr isExact)
    refine ⟨_, pointed.parse negative, ?_⟩
    rintro _ ⟨⟩
    exact ⟨⟨pointed.positive, pointed.few, Nat.le_add_left _ _⟩, _, pointed.spells,
      (signed_pointed _ _ negative).symm⟩

end Read

theorem formatDecimal_padded {v : Int} (held : InInt128 v) {s : Nat} (positive : 0 < s) (p : Nat) :
    formatDecimal v p s =
      let digits := Digits.padded s v.natAbs
      let integer := digits.take (digits.length - s)
      (if v < 0 then ['-'] else []) ++ ((if integer = [] ∧ p > s then ['0'] else integer) ++
        '.' :: digits.drop (digits.length - s)) := by
  have unsigned : (if v < 0 then (int128ToString v).drop 1 else int128ToString v) =
      Digits.text v.natAbs := by
    rw [int128ToString_eq held]
    split_ifs <;> rfl
  have isPadded : (if (Digits.text v.natAbs).length < s
      then replicate (s - (Digits.text v.natAbs).length) '0' ++ Digits.text v.natAbs
      else Digits.text v.natAbs) = Digits.padded s v.natAbs := by
    rw [Digits.padded]
    split_ifs with short
    · rfl
    · rw [Nat.sub_eq_zero_of_le (not_lt.mp short)]
      rfl
  dsimp only [formatDecimal]
  rw [if_neg positive.ne', unsigned, isPadded]

theorem formatDecimal_pointed {v : Int} {p s : Nat} (positive : 0 < s) (le : s ≤ p) (few : p ≤ 38)
    (held : v.natAbs < 10 ^ p) : ∃ integer fraction, Pointed integer fraction ∧
      fraction.length = s ∧ integer.length + s ≤ p ∧
      Digits.value (integer ++ fraction) = v.natAbs ∧
      formatDecimal v p s = (if v < 0 then ['-'] else []) ++ (integer ++ '.' :: fraction) := by
  have bound : 10 ^ p ≤ 10 ^ 38 := Nat.pow_le_pow_right (by decide) few
  have short := Digits.text_length (positive.trans_le le) held
  have length : s ≤ (Digits.padded s v.natAbs).length ∧ (Digits.padded s v.natAbs).length ≤ p := by
    rw [Digits.padded, length_append, length_replicate]
    omega
  obtain ⟨decimal, isValue⟩ := Digits.padded_spec s v.natAbs
  rw [formatDecimal_padded (inInt128_of_le (by omega) (by omega)) positive]
  dsimp only
  generalize Digits.padded s v.natAbs = digits at *
  have parts := take_append_drop (digits.length - s) digits
  have fraction : (digits.drop (digits.length - s)).length = s := by
    rw [length_drop]
    omega
  have integer : (digits.take (digits.length - s)).length = digits.length - s := by
    rw [length_take]
    omega
  have rest := decimal.sublist (drop_sublist (digits.length - s) digits)
  have some_ : ∀ {integer : List Char},
      ¬(integer = [] ∧ digits.drop (digits.length - s) = []) := by
    rintro _ ⟨-, none⟩
    rw [none] at fraction
    exact positive.ne fraction
  by_cases leading : digits.take (digits.length - s) = [] ∧ p > s
  · rw [if_pos leading]
    have zero : Digits.Decimal ['0'] := by
      intro c member
      rw [mem_singleton.mp member]
      rfl
    refine ⟨['0'], _, ⟨zero, rest, some_, ?_⟩, fraction, ?_, ?_, rfl⟩
    · rw [fraction, length_singleton]
      omega
    · rw [length_singleton]
      omega
    · rw [leading.1, nil_append] at parts
      rw [parts, ← isValue, singleton_append, Digits.value_cons]
      exact (Nat.zero_mul _).symm ▸ Nat.zero_add _
  · rw [if_neg leading]
    refine ⟨_, _, ⟨decimal.sublist (take_sublist _ _), rest, some_, ?_⟩, fraction, ?_, ?_, rfl⟩
    · omega
    · omega
    · rw [parts, isValue]

/-- How DECIMAL literals and the text of DECIMAL values agree. -/
structure DecimalTextsAgree : Prop where
  /-- A value is printed exactly, with `s` digits after the point. -/
  prints : ∀ (v : Int) (p s : Nat), 0 < s → s ≤ p → p ≤ 38 → v.natAbs < 10 ^ p →
    ∃ (parts : NumberParts) (text : List Char),
      formatDecimal v p s = (if v < 0 then ['-'] else []) ++ text ∧ parts.Spells text ∧
        parts.fraction.length = s ∧ parts.signed (v < 0) = (v : ℚ) / 10 ^ s
  /-- Its text without the sign is read back. -/
  reads : ∀ (v : Int) (p s : Nat), 0 < s → s ≤ p → p ≤ 38 → v.natAbs < 10 ^ p →
    ∃ width ≤ p, parseDecimalLiteral ((formatDecimal v p s).drop (if v < 0 then 1 else 0)) (v < 0) =
      .ok (some ⟨.decimal width s, v⟩)
  denotes : ∀ (text : List Char) (negative : Bool),
    ∃ read, parseDecimalLiteral text negative = .ok read ∧ ∀ literal, read = some literal →
      literal.type.Valid ∧ ∃ parts : NumberParts, parts.Spells text ∧
        (literal.unscaled : ℚ) / 10 ^ literal.type.scale = parts.signed negative
  integers : ∀ v : Int, InInt128 v → ∃ digits : List Char,
    int128ToString v = (if v < 0 then ['-'] else []) ++ digits ∧ Digits.Decimal digits ∧
      Digits.value digits = v.natAbs ∧ (digits.head? = some '0' → digits = ['0'])

theorem decimalTexts_agree : DecimalTextsAgree := by
  have signed : ∀ v : Int,
      (if decide (v < 0) = true then -(v.natAbs : Int) else (v.natAbs : Int)) = v := by
    intro v
    simp only [decide_eq_true_eq]
    split_ifs <;> omega
  constructor
  case prints =>
    intro v p s positive le few held
    obtain ⟨integer, fraction, pointed, rfl, -, isValue, printed⟩ :=
      formatDecimal_pointed positive le few held
    refine ⟨_, _, printed, pointed.spells, rfl, ?_⟩
    rw [signed_pointed, isValue, signed]
  case reads =>
    intro v p s positive le few held
    obtain ⟨integer, fraction, pointed, rfl, narrow, isValue, printed⟩ :=
      formatDecimal_pointed positive le few held
    have text : (formatDecimal v p fraction.length).drop (if v < 0 then 1 else 0) =
        integer ++ '.' :: fraction := by
      rw [printed]
      split_ifs <;> rfl
    refine ⟨_, narrow, ?_⟩
    rw [text, pointed.parse, isValue, signed]
  case denotes => exact parseDecimalLiteral_denotes
  case integers =>
    intro v held
    obtain ⟨decimal, isValue⟩ := Digits.text_spec v.natAbs
    exact ⟨_, int128ToString_eq held, decimal, isValue, text_leading⟩

end Plan

end Antb1
