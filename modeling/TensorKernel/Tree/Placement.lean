import TensorKernel.Config
import TensorKernel.Tree.Annotate

/-!
Layouts of the values in a tree. An assignment stores where its target does, and every other result
stores the box of its pattern, aligned if an operand can be vectorized along the leading index.
-/

namespace TensorKernel.Node

/-- Whether the stored extent of an index is a multiple of `width`. -/
def mayVectorizeAlong (name : Char) (width : Nat) (n : Node) : Bool :=
  match n.indices.bind (·.find? name), n.storage? with
  | some dim, some layout => layout.mayVectorize dim width
  | _, _ => false

/-- Whether some operand can be vectorized along the leading index of the result. -/
def mayVectorize (n : Node) (width : Nat) : Bool :=
  match n.indices.bind Indices.first? with
  | some name => n.children.any (mayVectorizeAlong name width)
  | none => false

def resultLayout (config : Config) (n : Node) : Result Layout := do
  if config.simpleLayouts then
    pure (.full (← n.shape))
  else
    let pattern ← n.computedPattern
    let align := config.alignStride && n.mayVectorize config.alignment
    pure (.ofPattern pattern (if align then some config.alignment else none))

/-- The node with its layout; a leaf has that of its tensor. -/
def withLayout (config : Config) (n : Node) : Result Node :=
  match n.kind with
  | .leaf _ => pure n
  | .assign => do
    pure { n with layout := some (← (← n.operands).1.computedLayout) }
  | .einsum | .add | .scale _ | .indexSum _ | .product | .contraction _ | .gemm _ => do
    pure { n with layout := some (← n.resultLayout config) }

def computeLayouts (config : Config) (n : Node) : Result Node := n.annotate (withLayout config)

end TensorKernel.Node
