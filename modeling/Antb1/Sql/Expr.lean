import Antb1.Lib.Digits

/-! The expressions of a statement (`sql/ast.h`) as far as a rewrite looks into them:
literals, binary operators and IN lists. Every other node is opaque, and source spans are
left out, so that `EqualIgnoringSpans` is equality. -/
namespace Antb1.Sql

inductive LiteralKind where
  | integer
  | decimal
  | string
  | date
  | timestamp
  | null
  deriving DecidableEq, Repr

structure Literal where
  kind : LiteralKind := .integer
  negative : Bool := false
  text : String := ""
  deriving DecidableEq, Repr

inductive BinaryOp where
  | add
  | subtract
  | multiply
  | divide
  | integerDivide
  | modulo
  | eq
  | ne
  | lt
  | le
  | gt
  | ge
  | and
  | or
  deriving DecidableEq, Repr

inductive Expr (Node : Type) where
  | literal (value : Literal)
  | binary (op : BinaryOp) (left right : Expr Node)
  | inList (operand : Expr Node) (list : List (Expr Node)) (negated : Bool)
  | node (node : Node)

namespace Expr

variable {Node : Type} [DecidableEq Node]

mutual

def equalIgnoringSpans : Expr Node → Expr Node → Bool
  | .literal a, .literal b => a = b
  | .binary op left right, .binary op' left' right' =>
    op = op' && equalIgnoringSpans left left' && equalIgnoringSpans right right'
  | .inList operand list negated, .inList operand' list' negated' =>
    negated = negated' && equalIgnoringSpans operand operand' && equalEach list list'
  | .node a, .node b => a = b
  | _, _ => false

def equalEach : List (Expr Node) → List (Expr Node) → Bool
  | [], [] => true
  | a :: rest, b :: others => equalIgnoringSpans a b && equalEach rest others
  | _, _ => false

end

mutual

theorem equalIgnoringSpans_iff : (a b : Expr Node) → (equalIgnoringSpans a b = true ↔ a = b)
  | .literal a, b => by cases b <;> simp [equalIgnoringSpans]
  | .binary op left right, b => by
    cases b with
    | binary op' left' right' =>
      simp [equalIgnoringSpans, equalIgnoringSpans_iff left, equalIgnoringSpans_iff right, and_assoc]
    | _ => simp [equalIgnoringSpans]
  | .inList operand list negated, b => by
    cases b with
    | inList operand' list' negated' =>
      simp [equalIgnoringSpans, equalIgnoringSpans_iff operand, equalEach_iff list]
      tauto
    | _ => simp [equalIgnoringSpans]
  | .node a, b => by cases b <;> simp [equalIgnoringSpans]

theorem equalEach_iff : (list other : List (Expr Node)) → (equalEach list other = true ↔ list = other)
  | [], other => by cases other <;> simp [equalEach]
  | first :: rest, other => by
    cases other with
    | nil => simp [equalEach]
    | cons next others => simp [equalEach, equalIgnoringSpans_iff first, equalEach_iff rest]

end

instance : DecidableEq (Expr Node) := fun a b =>
  decidable_of_iff (equalIgnoringSpans a b = true) (equalIgnoringSpans_iff a b)

def isLiteral : Expr Node → Bool
  | .literal _ => true
  | _ => false

def isOr : Expr Node → Bool
  | .binary .or _ _ => true
  | _ => false

end Expr

/-- The text of an integer literal as the lexer reads it: digits, in a string. -/
structure IntegerText where
  digits : List Char
  some_ : digits ≠ []
  decimal : Digits.Decimal digits
  short : digits.length < 2 ^ 63

def IntegerText.signed (text : IntegerText) (negative : Bool) : Int :=
  if negative then -Digits.value text.digits else Digits.value text.digits

/-- A numeric operand as far as the binder folds the constants in it; every other node, a literal of
another kind included, is opaque. -/
inductive Operand (Node : Type) where
  | integer (negative : Bool) (text : IntegerText)
  | negate (operand : Operand Node)
  | binary (op : BinaryOp) (left right : Operand Node)
  | node (node : Node)

/-- The value over the unbounded integers, where `other` gives the values of what is no
integer literal, unary minus, `+`, `-` or `*`; none is NULL. -/
def Operand.value {Node : Type} (other : Operand Node → Option Int) : Operand Node → Option Int
  | .integer negative text => some (text.signed negative)
  | .negate operand => (operand.value other).map (- ·)
  | .binary .add left right => Option.map₂ (· + ·) (left.value other) (right.value other)
  | .binary .subtract left right => Option.map₂ (· - ·) (left.value other) (right.value other)
  | .binary .multiply left right => Option.map₂ (· * ·) (left.value other) (right.value other)
  | operand => other operand

end Antb1.Sql
