import TensorKernel.Tree.Sparsity

/-!
Arithmetic operations on non-zero entries. Of `t` terms that meet in an entry, the first one is
written and each other one costs an addition; a matrix product counts a multiplication and an
addition for each pair of entries.

Numbers of entries and operations are words of 64 bits: sums and products wrap, and differences stop
at zero.
-/

namespace TensorKernel

/-- The word that a number leaves. -/
def word (n : Nat) : Nat := n % UInt64.size

namespace Node

def nonzeroCount (n : Node) : Result Nat := return word (← n.computedPattern).countNonzero

def nonzeroCounts : List Node → Result Nat
  | [] => pure 0
  | n :: ns => return word ((← n.nonzeroCount) + (← nonzeroCounts ns))

/-- The pairs of non-zero entries that a product multiplies, by all indices of both operands. -/
def pairPattern (n : Node) : Result Pattern := do
  let (left, right) ← n.operands
  let li ← left.deducedIndices
  let ri ← right.deducedIndices
  let descriptor := productDescriptor li ri (li.merge ri)
  Pattern.einsum descriptor (← left.computedPattern) (← right.computedPattern)

/-- The operations that a node itself takes. -/
def flops (n : Node) : Result Nat :=
  match n.kind with
  | .leaf _ | .assign => pure 0
  | .einsum => violates (.unresolved n.text)
  | .add => return (← nonzeroCounts n.children) - (← n.nonzeroCount)
  | .scale factor => if factor.isUnit then pure 0 else n.nonzeroCount
  | .indexSum _ => return (← (← n.term).nonzeroCount) - (← n.nonzeroCount)
  | .product | .contraction _ => n.nonzeroCount
  | .gemm _ =>
    return word (2 * word (← n.pairPattern).countNonzero) - (← n.nonzeroCount)

mutual

def totalFlops : Node → Result Nat
  | n@⟨_, _, _, _, _, children⟩ => return word ((← n.flops) + (← totalFlopsAll children))

def totalFlopsAll : List Node → Result Nat
  | [] => pure 0
  | child :: children => return word ((← child.totalFlops) + (← totalFlopsAll children))

end

end Node

end TensorKernel
