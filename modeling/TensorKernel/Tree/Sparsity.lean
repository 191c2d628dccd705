import TensorKernel.Pattern.Algebra
import TensorKernel.Tree.Annotate

/-!
Non-zero patterns of a tree, from the patterns of the tensors at its leaves.
-/

namespace TensorKernel.Node

/-- The descriptor of a product of two operands with the given indices. -/
def productDescriptor (left right output : Indices) : List Char :=
  Descriptor.render ⟨left.names, right.names, output.names⟩

def addPatterns (sum : Pattern) : List Node → Result Pattern
  | [] => pure sum
  | operand :: operands => do
    addPatterns (← sum.add (← operand.computedPattern)) operands

/-- The first child of a node. -/
def term (n : Node) : Result Node :=
  match n.children.head? with
  | some term => .ok term
  | none => violates (.noOperand n.text 0)

/-- The pattern of a node from those of its children. -/
def patternFromChildren (n : Node) : Result Pattern :=
  match n.kind with
  | .leaf tensor => pure tensor.pattern
  | .einsum => violates (.unresolved n.text)
  | .add =>
    match n.children with
    | [] => violates .emptySum
    | first :: rest => do addPatterns (← first.computedPattern) rest
  | .scale _ => do (← n.term).computedPattern
  | .indexSum _ => do
    let term ← n.term
    let source ← term.deducedIndices
    let target ← n.deducedIndices
    Pattern.reduce source.names target.names (← term.computedPattern)
  | .product | .contraction _ | .gemm _ => do
    let (left, right) ← n.operands
    let li ← left.deducedIndices
    let ri ← right.deducedIndices
    let descriptor := productDescriptor li ri (← n.deducedIndices)
    Pattern.einsum descriptor (← left.computedPattern) (← right.computedPattern)
  | .assign => do (← n.operands).2.computedPattern

/-- The node with the pattern that its children give it. -/
def withPattern (n : Node) : Result Node := do
  pure { n with pattern := some (← n.patternFromChildren) }

def propagateSparsity (n : Node) : Result Node := n.annotate withPattern

end TensorKernel.Node
