import Antb1.Plan.SemanticsProofs
import Antb1.Plan.UnionBranches

/-! Plans that answer as another plan does wherever that plan does not fail. -/
namespace Antb1.Plan

open Outcomes LogicalNode

variable (ctx : Context)

mutual

theorem eval_total (env : Row) : (node : LogicalNode) → (node.eval ctx env).Total
  | .scan _ _ _ => total_pure _
  | .rowCount _ _ => total_pure _
  | .filter input predicates _ => by
    rw [LogicalNode.eval]
    split_ifs
    · exact total_pure _
    · exact (eval_total env input).bind fun _ => total_pure _
  | .compute input _ _ => (eval_total env input).bind fun _ => total_ofOption _
  | .project input _ _ _ => (eval_total env input).bind fun _ => total_pure _
  | .aggregate input _ => (eval_total env input).bind fun rows =>
      (total_choose (ctx.total rows)).bind fun _ => total_ofOption _
  | .groupAggregate input _ _ _ => (eval_total env input).bind fun rows =>
      (total_choose (ctx.total rows)).bind fun _ => total_ofOption _
  | .sort input _ => (eval_total env input).bind fun rows =>
      (total_choose (ctx.total rows)).bind fun _ => total_pure _
  | .limit input _ _ => (eval_total env input).bind fun _ => total_pure _
  | .join _ left right => (eval_total env left).bind fun _ => (eval_total env right).bind fun _ =>
      (total_ofOption _).bind fun rows => total_choose (ctx.total rows)
  | .dependentJoin _ left right _ => (eval_total env left).bind fun _ =>
      (Total.mapM fun row _ => (eval_total row right).bind fun _ => total_ofOption _).bind
        fun rows => total_choose (ctx.total rows.flatten)
  | .unionAll inputs _ _ => (evalInputs_total env inputs).bind fun _ => total_pure _
  | .groupingSets input _ _ _ _ _ => (eval_total env input).bind fun rows =>
      (total_choose (ctx.total rows)).bind fun _ => total_ofOption _
  | .setOperation inputs _ _ _ => (evalInputs_total env inputs).bind fun _ =>
      (Total.mapM fun rows _ => total_choose (ctx.total rows)).bind fun _ =>
        total_choose (ctx.total _)

theorem evalInputs_total (env : Row) : (inputs : List LogicalNode) →
    (evalInputs ctx env inputs).Total
  | [] => total_pure _
  | input :: rest => (eval_total env input).bind fun _ =>
      (evalInputs_total env rest).bind fun _ => total_pure _

end

/-- The same output columns, and the same answers wherever the old plan does not fail. -/
structure Refines (new old : LogicalNode) : Prop where
  ids : new.outputIds = old.outputIds
  eval : ∀ env, ¬ (old.eval ctx env).Fails → new.eval ctx env = old.eval ctx env

variable {ctx}

theorem Refines.refl (node : LogicalNode) : Refines ctx node node := ⟨rfl, fun _ _ => rfl⟩

theorem Refines.trans {new middle old : LogicalNode} (first : Refines ctx new middle)
    (second : Refines ctx middle old) : Refines ctx new old where
  ids := first.ids.trans second.ids
  eval env safe := by
    have same := second.eval env safe
    rw [← same] at safe ⊢
    exact first.eval env safe

theorem evalInputs_congr {f : LogicalNode → LogicalNode} {inputs : List LogicalNode}
    (each : ∀ input ∈ inputs, Refines ctx (f input) input) {env : Row}
    (safe : ¬ (evalInputs ctx env inputs).Fails) :
    evalInputs ctx env (inputs.map f) = evalInputs ctx env inputs := by
  rw [evalInputs_eq] at safe ⊢
  rw [evalInputs_eq, mapM_map]
  exact mapM_congr_safe (fun input _ => eval_total ctx env input) safe
    fun input member own => (each input member).eval env own

theorem Refines.bind {new old : LogicalNode} (refines : Refines ctx new old) {env : Row}
    {next : List Row → Outcomes (List Row)}
    (safe : ¬ (Outcomes.bind (old.eval ctx env) next).Fails) :
    Outcomes.bind (new.eval ctx env) next = Outcomes.bind (old.eval ctx env) next :=
  bind_congr_safe safe (refines.eval env) fun _ _ _ => rfl

theorem Refines.join {left left' right right' : LogicalNode} (spec : JoinSpec)
    (first : Refines ctx left' left) (second : Refines ctx right' right) :
    Refines ctx (.join spec left' right') (.join spec left right) where
  ids := by rw [outputIds, outputIds, first.ids, second.ids]
  eval env safe := by
    simp only [LogicalNode.eval, first.ids, second.ids] at safe ⊢
    exact bind_congr_safe safe (first.eval env) fun rows _ inner => second.bind inner

theorem Refines.dependentJoin {left left' right right' : LogicalNode} (kind : JoinKind)
    (mark : ColumnId) (first : Refines ctx left' left) (second : Refines ctx right' right) :
    Refines ctx (.dependentJoin kind left' right' mark) (.dependentJoin kind left right mark) where
  ids := by rw [outputIds, outputIds, first.ids, second.ids]
  eval env safe := by
    simp only [LogicalNode.eval, second.ids] at safe ⊢
    refine bind_congr_safe safe (first.eval env) fun rows _ inner => ?_
    refine bind_congr_safe inner (fun each => ?_) fun _ _ _ => rfl
    exact mapM_congr_safe (fun row _ => (eval_total ctx row right).bind fun _ => total_ofOption _)
      each fun row _ own => second.bind own

theorem Refines.mapInputs {f : LogicalNode → LogicalNode} {node : LogicalNode}
    (each : ∀ input ∈ node.inputsOf, Refines ctx (f input) input) :
    Refines ctx (node.mapInputs fun input _ => f input) node := by
  cases node with
  | scan _ _ _ | rowCount _ _ => exact Refines.refl _
  | filter input predicates needed =>
    have own := each input (by simp [inputsOf])
    refine ⟨own.ids, fun env safe => ?_⟩
    simp only [LogicalNode.mapInputs, LogicalNode.eval] at safe ⊢
    split_ifs at safe ⊢ with isFalse
    · rfl
    · exact own.bind safe
  | compute input exprs ids =>
    have own := each input (by simp [inputsOf])
    exact ⟨congrArg (· ++ ids) own.ids, fun env safe => own.bind safe⟩
  | project input _ _ _ | aggregate input _ | groupAggregate input _ _ _
  | groupingSets input _ _ _ _ _ =>
    exact ⟨rfl, fun env safe => (each input (by simp [inputsOf])).bind safe⟩
  | sort input _ | limit input _ _ =>
    have own := each input (by simp [inputsOf])
    exact ⟨own.ids, fun env safe => own.bind safe⟩
  | join spec left right =>
    exact Refines.join spec (each left (by simp [inputsOf])) (each right (by simp [inputsOf]))
  | dependentJoin kind left right mark =>
    exact Refines.dependentJoin kind mark (each left (by simp [inputsOf]))
      (each right (by simp [inputsOf]))
  | unionAll inputs columns ids | setOperation inputs columns ids formula =>
    refine ⟨rfl, fun env safe => ?_⟩
    simp only [LogicalNode.mapInputs, LogicalNode.eval, List.map_attach_eq_pmap,
      List.pmap_eq_map] at safe ⊢
    exact bind_congr_safe safe (fun first => evalInputs_congr each first) fun _ _ _ => rfl

end Antb1.Plan
