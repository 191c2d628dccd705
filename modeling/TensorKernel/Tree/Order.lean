import TensorKernel.Tree.Basic

/-!
Another storage order for the value of a node. Leaves and assignments keep theirs; a sum or a scaled
node hands the order down to its children; all other nodes compute their value in the new order.
-/

namespace TensorKernel.Node

def operandIndices (n : Node) : Result Indices :=
  match n.indices with
  | some i => .ok i
  | none => refuse (.operandWithoutIndices n.text)

/-- A computed pattern in a new order, or nothing if it is to be forgotten. -/
def reorderPattern (keepPattern : Bool) (perm : List Nat) : Option Pattern → Result (Option Pattern)
  | some p => if keepPattern then some <$> dimension (p.transpose? perm) else pure none
  | none => pure none

def reorderLayout (perm : List Nat) : Option Layout → Result (Option Layout)
  | some l => some <$> dimension (l.permute? perm)
  | none => pure none

mutual

/-- The node with its free indices in the order of `order`. A computed pattern is transposed, or
forgotten without `keepPattern`; a computed layout is permuted. -/
def reorder (order : Indices) (keepPattern : Bool) : Node → Result Node
  | n@⟨kind, indices, pattern, layout, prefetch, children⟩ =>
    match indices with
    | none => refuse (.operandWithoutIndices n.text)
    | some current =>
      if current = order then pure n
      else
        match current.permutationTo? order with
        | none => refuse (.cannotPermute current n.text order)
        | some perm => do
          let children ←
            match kind with
            | .leaf _ | .assign => refuse (.fixedOrder n.text order)
            | .scale _ | .add => reorderAll order keepPattern children
            | .einsum | .indexSum _ | .product | .contraction _ | .gemm _ => pure children
          let pattern ← reorderPattern keepPattern perm pattern
          let layout ← reorderLayout perm layout
          pure ⟨kind, current.permute? order, pattern, layout, prefetch, children⟩

def reorderAll (order : Indices) (keepPattern : Bool) : List Node → Result (List Node)
  | [] => pure []
  | child :: children =>
    return (← child.reorder order keepPattern) :: (← reorderAll order keepPattern children)

end

end TensorKernel.Node
