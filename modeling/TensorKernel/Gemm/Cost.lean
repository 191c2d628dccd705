/-!
The cost of running a contraction as a loop over matrix products. Costs are compared component by
component: operands without unit stride, transpositions of the left and of the right operand, and
last the number of fused indices, of which more are better.
-/

namespace TensorKernel.Gemm

structure Cost where
  /-- Operands whose leading fused index does not have stride one. -/
  strided : Nat
  leftTransposed : Nat
  rightTransposed : Nat
  /-- The number of indices that the matrix products take out of the loops. -/
  fused : Nat
deriving DecidableEq, Inhabited

namespace Cost

/-- The cheaper cost is less. -/
def compare (a b : Cost) : Ordering :=
  (Ord.compare a.strided b.strided).then <|
    (Ord.compare a.leftTransposed b.leftTransposed).then <|
      (Ord.compare a.rightTransposed b.rightTransposed).then <|
        Ord.compare b.fused a.fused

/-- Whether `a` is strictly cheaper. -/
def less (a b : Cost) : Bool := a.compare b = .lt

/-- The costs in ascending order; equal costs keep theirs. -/
def sorted (costs : List Cost) : List Cost := costs.mergeSort fun a b => a.compare b ≠ .gt

end Cost

end TensorKernel.Gemm
