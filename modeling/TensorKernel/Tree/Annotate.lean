import TensorKernel.Tree.Basic

/-!
Bottom-up passes. A pass is given by what it does to a node whose children it has done already;
`annotate` runs it on a whole tree.
-/

namespace TensorKernel.Node

mutual

/-- Runs a pass on the children, from left to right, and then on the node. -/
def annotate (pass : Node → Result Node) : Node → Result Node
  | ⟨kind, indices, pattern, layout, prefetch, children⟩ => do
    pass ⟨kind, indices, pattern, layout, prefetch, ← annotateAll pass children⟩

def annotateAll (pass : Node → Result Node) : List Node → Result (List Node)
  | [] => pure []
  | child :: children => return (← child.annotate pass) :: (← annotateAll pass children)

end

end TensorKernel.Node
