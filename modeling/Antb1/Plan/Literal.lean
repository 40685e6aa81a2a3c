import Antb1.Common.Checked
import Antb1.Plan.Expr

/-! Exact numeric literals, comparisons with them folded against integer and DECIMAL columns, and
DECIMAL literals and texts: `plan/literal.cc`. -/
namespace Antb1.Plan

/-- The exact value of a numeric literal, as far as comparisons with integers need it. -/
structure ExactNumber where
  negative : Bool := false
  huge : Bool := false
  magnitude : Int := 0
  fraction : Bool := false
  deriving DecidableEq, Repr

def kMaxExponent : Int := 1000000000

def kMaxIntegerDigits : Int := 38

def pow10 : Nat → Except Overflow Int
  | 0 => .ok 1
  | n + 1 => do int128 ((← pow10 n) * 10)

def addDigit (value : Int) (c : Char) : Except Overflow Int := do
  int128 ((← int128 (value * 10)) + Digits.digit c)

/-- The value of at most 38 decimal digits. -/
def digitsValue (digits : List Char) : Except Overflow Int := digits.foldlM addDigit 0

structure NumberParts where
  integer : List Char
  fraction : List Char
  negativeExponent : Bool
  exponent : List Char
  deriving DecidableEq, Repr

def takeSign : List Char → List Char
  | '-' :: rest => rest
  | '+' :: rest => rest
  | text => text

/-- The exponent after the digits, if any; the text must end with it. -/
def splitExponent (integer fraction : List Char) : List Char → Option NumberParts
  | [] => some ⟨integer, fraction, false, []⟩
  | mark :: rest =>
    if mark = 'e' ∨ mark = 'E' then
      let digits := takeSign rest
      let exponent := digits.takeWhile Char.isDigit
      if exponent = [] ∨ digits.dropWhile Char.isDigit ≠ [] then none
      else some ⟨integer, fraction, rest.head? = some '-', exponent⟩
    else none

/-- A number's text cut into its parts; none where it is not a number. -/
def splitNumber (text : List Char) : Option NumberParts :=
  let integer := text.takeWhile Char.isDigit
  let rest := text.dropWhile Char.isDigit
  let fraction := if rest.head? = some '.' then rest.tail.takeWhile Char.isDigit else []
  let rest := if rest.head? = some '.' then rest.tail.dropWhile Char.isDigit else rest
  if integer = [] ∧ fraction = [] then none else splitExponent integer fraction rest

def addExponentDigit (exponent : Int) (c : Char) : Except Overflow Int := do
  return min (← int64 ((← int64 (exponent * 10)) + Digits.digit c)) kMaxExponent

def NumberParts.saturated (parts : NumberParts) : Except Overflow Int := do
  let exponent ← parts.exponent.foldlM addExponentDigit 0
  return if parts.negativeExponent then -exponent else exponent

/-- The number of magnitude `sig * 10 ^ scale`, where `sig` has no leading zeros. -/
def exactNumberOf (negative : Bool) (sig : List Char) (scale : Int) :
    Except Overflow ExactNumber := do
  let integerDigits ← int64 (sig.length + scale)
  if integerDigits > kMaxIntegerDigits then return { negative, huge := true }
  else if scale ≥ 0 then
    return { negative, magnitude := ← int128 ((← digitsValue sig) * (← pow10 scale.toNat)) }
  else if integerDigits > 0 then
    let split := integerDigits.toNat
    return { negative, magnitude := ← digitsValue (sig.take split),
             fraction := (sig.drop split).any (· ≠ '0') }
  else return { negative, fraction := true }

/-- A literal's value times `10 ^ shift`; zero has no sign. -/
def parseExactNumber (text : List Char) (negative : Bool) (shift : Int) :
    Except Overflow (Option ExactNumber) :=
  match splitNumber text with
  | none => .ok none
  | some parts => do
    let exponent ← parts.saturated
    let sig := (parts.integer ++ parts.fraction).dropWhile (· = '0')
    if sig = [] then return some {}
    else
      let scale ← int64 ((← int64 (exponent + shift)) - parts.fraction.length)
      return some (← exactNumberOf negative sig scale)

/-- Whether a number is a DOUBLE: an exponent, or a point and too many digits. -/
def isApproximateNumber (text : List Char) : Bool :=
  text.any (fun c => c = 'e' || c = 'E') ||
    text.any (· = '.') && decide (((text.filter Char.isDigit).length : Int) > kMaxIntegerDigits)

/-- A folded comparison; the source's kinds are `compare`, `isNotNull` and `isFalse`. -/
structure FoldedComparison where
  kind : PredicateKind := .compare
  op : CompareOp := .eq
  value : Int := 0
  deriving DecidableEq, Repr

def ExactNumber.signed (literal : ExactNumber) : Except Overflow Int :=
  if literal.negative then int128 (-literal.magnitude) else .ok literal.magnitude

/-- The integer above a number that is none. -/
def ExactNumber.ceiling (literal : ExactNumber) : Except Overflow Int :=
  if literal.negative then int128 (-literal.magnitude) else int128 (literal.magnitude + 1)

/-- The integer below a number that is none. -/
def ExactNumber.floor (literal : ExactNumber) : Except Overflow Int :=
  if literal.negative then do int128 (-(← int128 (literal.magnitude + 1)))
  else .ok literal.magnitude

/-- The operator and the integer that a comparison with a non-integer becomes; none where the
operator alone decides it. -/
def nearestBound (op : CompareOp) (literal : ExactNumber) :
    Except Overflow (Option (CompareOp × Int)) :=
  match op with
  | .eq | .ne => .ok none
  | .gt | .ge => do return some (.ge, ← literal.ceiling)
  | .lt | .le => do return some (.le, ← literal.floor)

/-- A comparison with an integer, or with a literal beyond every one. -/
def foldBound (op : CompareOp) (value : Int) (literal : ExactNumber) (range : IntegerRange) :
    FoldedComparison :=
  let below := if literal.huge then literal.negative else value < range.min
  let above := if literal.huge then !literal.negative else value > range.max
  if !below && !above then { op, value }
  else
    let always := match op with
      | .eq => false
      | .ne => true
      | .lt | .le => above
      | .gt | .ge => below
    { kind := if always then .isNotNull else .isFalse }

def foldIntegerComparison (op : CompareOp) (literal : ExactNumber) (range : IntegerRange) :
    Except Overflow FoldedComparison := do
  let value ← literal.signed
  if literal.fraction && !literal.huge then
    match ← nearestBound op literal with
    | none => return { kind := if op = .eq then .isFalse else .isNotNull }
    | some (op, value) => return foldBound op value literal range
  else return foldBound op value literal range

/-- Whether a folded comparison is true of a value that is not NULL. -/
def FoldedComparison.accepts (folded : FoldedComparison) (v : Int) : Bool :=
  match folded.kind with
  | .compare => folded.op.holds (compare v folded.value)
  | .isNotNull => true
  | _ => false

structure DecimalLiteral where
  type : LogicalType
  unscaled : Int
  deriving DecidableEq, Repr

def parseDecimalLiteral (text : List Char) (negative : Bool) :
    Except Overflow (Option DecimalLiteral) := do
  let dot := text.idxOf '.'
  if dot = text.length ∨ isApproximateNumber text then return none
  else if (← parseExactNumber text negative 0).isNone then return none
  else
    let scale := text.length - dot - 1
    let width := max (text.length - 1) 1
    let magnitude ← digitsValue (text.take dot ++ text.drop (dot + 1))
    return some ⟨.decimal width scale, ← if negative then int128 (-magnitude) else .ok magnitude⟩

def formatDecimal (unscaled : Int) (width scale : Nat) : List Char :=
  let digits := int128ToString unscaled
  if scale = 0 then digits
  else
    let negative := unscaled < 0
    let digits := if negative then digits.drop 1 else digits
    let digits :=
      if digits.length < scale then List.replicate (scale - digits.length) '0' ++ digits else digits
    let integerDigits := digits.length - scale
    let integer := digits.take integerDigits
    let integer := if integer = [] ∧ width > scale then ['0'] else integer
    (if negative then ['-'] else []) ++ (integer ++ '.' :: digits.drop integerDigits)

end Antb1.Plan
