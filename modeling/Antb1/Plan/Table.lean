import Antb1.Plan.Expr

/-! What a table says about its parts (`plan/table.h`). -/
namespace Antb1.Plan

/-- A part's statistics of one integer-valued column, a DECIMAL's by its unscaled values. -/
structure PartStats where
  /-- Over the values that are not NULL; `none` when there are none. -/
  min : Option Int
  max : Option Int
  nullCount : Nat
  rows : Nat
  deriving DecidableEq, Repr

namespace PartStats

def number : Value → Option Int
  | .int value => some value
  | _ => none

/-- Statistics that are true of a column's values. -/
structure TrueOf (stats : PartStats) (values : List Value) : Prop where
  min : stats.min = (values.filterMap number).min?
  max : stats.max = (values.filterMap number).max?
  nullCount : stats.nullCount = values.count .null

end PartStats

end Antb1.Plan
