import TensorKernel.Tree.Binary

/-!
Resolution: products become binary products, and every node gets its free indices. An assignment
requires the indices of its target of the value; the requirement passes down through sums and
factors. A sum without requirement brings its operands to the order of the first one whose storage
order is fixed, else to that of the first operand.
-/

namespace TensorKernel.Node

/-- The indices to which the operands of a sum are brought from the start. -/
def sumOrder (target : Option Indices) (operands : List Node) : Option Indices :=
  target.orElse fun _ => (operands.find? hasFixedOrder).bind indices

mutual

/-- The tree with all products resolved, brought to the indices required of it if there are any. -/
def resolveTo (target : Option Indices) : Node → Result Node
  | n@⟨kind, indices, pattern, layout, prefetch, children⟩ => do
    let resolved ←
      match kind with
      | .assign => do
        pure ⟨kind, indices, pattern, layout, prefetch, ← resolveAssigned children⟩
      | .einsum => do binarize target (← resolveFree children)
      | .add => do
        let (children, order) ← resolveSummands (sumOrder target children) children
        pure ⟨kind, order, pattern, layout, prefetch, children⟩
      | .scale _ => do
        let term ← resolveTerm target children
        pure ⟨kind, term.indices, pattern, layout, prefetch, [term]⟩
      | .leaf _ => pure n
      | .indexSum _ | .product | .contraction _ | .gemm _ => do
        pure ⟨kind, indices, pattern, layout, prefetch, ← resolveOwn children⟩
    match target with
    | some target => resolved.bring target
    | none => pure resolved

/-- The children of an assignment: the target requires its indices of the value. -/
def resolveAssigned : List Node → Result (List Node)
  | [target, value] => do
    let value ← (value.resolveTo target.indices).mapError <|
      Error.mapComposition (.assigning · target.text)
    pure [target, value]
  | _ => refuse (.arity "Assign")

/-- Nothing is required of the operands of a product. -/
def resolveFree : List Node → Result (List Node)
  | [] => pure []
  | child :: children => return (← child.resolveTo none) :: (← resolveFree children)

/-- The operands of a sum, and the order they are brought to. Without one, the first operand with
indices sets it. -/
def resolveSummands (order : Option Indices) : List Node → Result (List Node × Option Indices)
  | [] => pure ([], order)
  | child :: children => do
    let child ← child.resolveTo order
    let (children, order) ← resolveSummands (order.orElse fun _ => child.indices) children
    pure (child :: children, order)

/-- The term of a factor, the last child. -/
def resolveTerm (target : Option Indices) : List Node → Result Node
  | [] => refuse .scaleWithoutTerm
  | [term] => term.resolveTo target
  | _ :: term :: terms => resolveTerm target (term :: terms)

/-- Operands whose indices are known already keep them. -/
def resolveOwn : List Node → Result (List Node)
  | [] => pure []
  | child :: children => return (← child.resolveTo child.indices) :: (← resolveOwn children)

end

/-- The tree with all products resolved. -/
def resolve (n : Node) : Result Node := n.resolveTo none

end TensorKernel.Node
