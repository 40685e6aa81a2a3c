import Antb1.Plan.Expr

/-! Whether two expressions compute the same values: `SameExpr` of `plan/logical_plan.cc`. -/
namespace Antb1.Plan

/-- `SamePredicate`: the columns of a predicate in an expression are its operands. -/
def samePredicate (a b : Predicate) : Bool :=
  a.kind = b.kind && a.op = b.op && a.constant = b.constant && a.values = b.values &&
    a.column.isSome = b.column.isSome && a.other.isSome = b.other.isSome

/-- Columns with ids are the same by id, those without by position. -/
def sameColumn (a b : ColumnExpr) : Bool :=
  a.id = b.id && (a.id ≠ kNoColumnId || a.index = b.index)

mutual

/-- `SameExpr`: the same structure and types, whatever the names. -/
def Expr.same : Expr → Expr → Bool
  | .null, .null => true
  | .column a s, .column b t => s = t && sameColumn a b
  | .constant a s, .constant b t => s = t && a = b
  | .arith op left right s, .arith op' left' right' t =>
    s = t && op = op' && left.same left' && right.same right'
  | .negate a s, .negate b t => s = t && a.same b
  | .function f args s, .function g args' t => s = t && f = g && sameEach args args'
  | .predicate p operands s, .predicate q operands' t =>
    s = t && samePredicate p q && sameEach operands operands'
  | .bool op args s, .bool op' args' t => s = t && op = op' && sameEach args args'
  | .caseWhen whens thens otherwise s, .caseWhen whens' thens' otherwise' t =>
    s = t && sameEach whens whens' && sameEach thens thens' && otherwise.same otherwise'
  | .cast a s, .cast b t => s = t && a.same b
  | _, _ => false

def sameEach : List Expr → List Expr → Bool
  | [], [] => true
  | a :: as, b :: bs => a.same b && sameEach as bs
  | _, _ => false

end

def Expr.isArith : Expr → Bool
  | .arith _ _ _ _ => true
  | _ => false

mutual

theorem same_refl : (expr : Expr) → expr.same expr = true
  | .null => rfl
  | .column _ _ => by simp [Expr.same, sameColumn]
  | .constant _ _ => by simp [Expr.same]
  | .arith _ left right _ => by simp [Expr.same, same_refl left, same_refl right]
  | .negate operand _ | .cast operand _ => by simp [Expr.same, same_refl operand]
  | .function _ args _ | .bool _ args _ => by simp [Expr.same, sameEach_refl args]
  | .predicate _ args _ => by simp [Expr.same, samePredicate, sameEach_refl args]
  | .caseWhen whens thens otherwise _ => by
    simp [Expr.same, sameEach_refl whens, sameEach_refl thens, same_refl otherwise]

theorem sameEach_refl : (exprs : List Expr) → sameEach exprs exprs = true
  | [] => rfl
  | expr :: rest => by simp [sameEach, same_refl expr, sameEach_refl rest]

end

theorem same_type {a b : Expr} (same : a.same b = true) : a.type = b.type := by
  cases a <;> cases b <;> simp_all [Expr.same, Expr.type]

theorem same_isArith {a b : Expr} (same : a.same b = true) : a.isArith = b.isArith := by
  cases a <;> cases b <;> simp_all [Expr.same, Expr.isArith]

theorem same_constant {a : Expr} {constant : Constant} {type : LogicalType}
    (same : a.same (.constant constant type) = true) : a = .constant constant type := by
  cases a <;> simp_all [Expr.same]

end Antb1.Plan
