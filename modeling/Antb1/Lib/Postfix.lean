
/-! Postfix formulas on a stack whose top is the end of the list. One run serves
every carrier: building a tree and computing values are two instances, related by
a homomorphism. -/
namespace Postfix

inductive Term (ι κ : Type) where
  | leaf (input : ι)
  | node (kind : κ) (arity : Nat)

variable {ι κ β γ : Type}

/-- One term: a leaf is pushed, a node replaces its operands; `none` where the
stack is too short. -/
def step (leaf : ι → β) (node : κ → List β → β) (stack : List β) : Term ι κ → Option (List β)
  | .leaf input => some (stack ++ [leaf input])
  | .node kind arity =>
    if arity ≤ stack.length then
      some (stack.take (stack.length - arity) ++
        [node kind (stack.drop (stack.length - arity))])
    else none

def run (leaf : ι → β) (node : κ → List β → β) (terms : List (Term ι κ)) (stack : List β) :
    Option (List β) :=
  terms.foldlM (step leaf node) stack

variable {leaf : ι → β} {node : κ → List β → β}

@[simp] theorem run_nil (stack : List β) : run leaf node [] stack = some stack := rfl

theorem run_cons (term : Term ι κ) (terms : List (Term ι κ)) (stack : List β) :
    run leaf node (term :: terms) stack =
      (step leaf node stack term).bind (run leaf node terms) := by
  simp only [run, List.foldlM_cons]
  rfl

theorem run_append (first second : List (Term ι κ)) (stack : List β) :
    run leaf node (first ++ second) stack =
      (run leaf node first stack).bind (run leaf node second) := by
  simp only [run, List.foldlM_append]
  rfl

theorem step_node (kind : κ) (below operands : List β) :
    step leaf node (below ++ operands) (.node kind operands.length) =
      some (below ++ [node kind operands]) := by
  simp [step]

section Homomorphism

variable {leaf' : ι → γ} {node' : κ → List γ → γ} {map : β → γ}

theorem step_map (leaves : ∀ input, map (leaf input) = leaf' input) {term : Term ι κ}
    (nodes : ∀ kind operands, term = .node kind operands.length →
      map (node kind operands) = node' kind (operands.map map)) (stack : List β) :
    step leaf' node' (stack.map map) term = (step leaf node stack term).map (List.map map) := by
  cases term with
  | leaf input => simp [step, leaves]
  | node kind arity =>
    by_cases enough : arity ≤ stack.length
    · have length : (stack.drop (stack.length - arity)).length = arity := by
        simp only [List.length_drop]
        omega
      have top := nodes kind (stack.drop (stack.length - arity)) (by rw [length])
      simp [step, enough, top, List.map_take, List.map_drop]
    · simp [step, enough]

/-- A map of carriers that agrees with the leaves and with every operator of the
formula carries one run to the other. -/
theorem run_map (leaves : ∀ input, map (leaf input) = leaf' input) {terms : List (Term ι κ)}
    (nodes : ∀ kind operands, Term.node kind operands.length ∈ terms →
      map (node kind operands) = node' kind (operands.map map)) (stack : List β) :
    run leaf' node' terms (stack.map map) = (run leaf node terms stack).map (List.map map) := by
  induction terms generalizing stack with
  | nil => rfl
  | cons term rest ih =>
    have here := step_map leaves (fun kind operands (same : term = .node kind operands.length) =>
      nodes kind operands (by simp [same])) stack
    rw [run_cons, run_cons, here]
    cases step leaf node stack term with
    | none => rfl
    | some next => exact ih (fun kind operands member => nodes kind operands (by simp [member])) next

end Homomorphism

end Postfix
