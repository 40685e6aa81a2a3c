import Antb1.Plan.Expr

/-! What an expression's value has to do with the columns it reads. -/
namespace Antb1.Plan

section Lists

variable (k : Kernels)

theorem evalEach_eq (row : Row) (exprs : List Expr) :
    evalEach k row exprs = exprs.map (Expr.eval k row) := by
  induction exprs with
  | nil => rfl
  | cons expr rest ih => rw [evalEach, ih, List.map_cons]

theorem mapColumnsEach_eq (f : ColumnExpr → ColumnExpr) (exprs : List Expr) :
    mapColumnsEach f exprs = exprs.map (Expr.mapColumns f) := by
  induction exprs with
  | nil => rfl
  | cons expr rest ih => rw [mapColumnsEach, ih, List.map_cons]

end Lists

mutual

theorem eval_congr (k : Kernels) {row row' : Row} : (expr : Expr) →
    (∀ id ∈ expr.columnIds, row id = row' id) → expr.eval k row = expr.eval k row'
  | .null, _ => rfl
  | .column column _, same => by
    rw [Expr.eval, Expr.eval, same column.id (by simp [Expr.columnIds])]
  | .constant _ _, _ => rfl
  | .arith _ left right _, same => by
    simp only [Expr.columnIds, List.mem_append] at same
    rw [Expr.eval, Expr.eval, eval_congr k left fun id member => same id (.inl member),
      eval_congr k right fun id member => same id (.inr member)]
  | .negate operand _, same => by
    rw [Expr.eval, Expr.eval, eval_congr k operand same]
  | .function _ args _, same => by
    rw [Expr.eval, Expr.eval, evalEach_congr k args same]
  | .predicate _ operands _, same => by
    rw [Expr.eval, Expr.eval, evalEach_congr k operands same]
  | .bool _ args _, same => by
    rw [Expr.eval, Expr.eval, evalEach_congr k args same]
  | .caseWhen whens thens otherwise _, same => by
    simp only [Expr.columnIds, List.mem_append] at same
    rw [Expr.eval, Expr.eval, evalEach_congr k whens fun id member => same id (.inl (.inl member)),
      evalEach_congr k thens fun id member => same id (.inl (.inr member)),
      eval_congr k otherwise fun id member => same id (.inr member)]
  | .cast operand _, same => by
    rw [Expr.eval, Expr.eval, eval_congr k operand same]

theorem evalEach_congr (k : Kernels) {row row' : Row} : (exprs : List Expr) →
    (∀ id ∈ columnIdsEach exprs, row id = row' id) → evalEach k row exprs = evalEach k row' exprs
  | [], _ => rfl
  | expr :: rest, same => by
    simp only [columnIdsEach, List.mem_append] at same
    rw [evalEach, evalEach, eval_congr k expr fun id member => same id (.inl member),
      evalEach_congr k rest fun id member => same id (.inr member)]

end

end Antb1.Plan
