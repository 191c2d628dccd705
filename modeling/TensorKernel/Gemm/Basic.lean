import TensorKernel.Gemm.Cost
import TensorKernel.Index.Compatible
import TensorKernel.Layout

/-!
Contractions as matrix products. A partition names the index groups M, N and K of
`C(M, N) = A(M, K) B(K, N)`; all other indices are looped over outside the product. Without N the
product is one of a matrix and a vector.
-/

namespace TensorKernel

namespace Gemm

/-- The index groups of a matrix product. -/
structure Partition where
  /-- The rows of A and C. -/
  m : Indices
  /-- The columns of B and C. -/
  n : Indices
  /-- The summed indices of A and B. -/
  k : Indices
deriving DecidableEq, Inhabited

namespace Partition

/-- Whether the groups fit the result and the operands: M is in A and C alone, N in B and C alone,
and K in A and B alone. -/
def fits (p : Partition) (c a b : Indices) : Bool :=
  p.m.isSubsetOf a && p.m.isSubsetOf c &&
    p.k.isSubsetOf a && p.k.isSubsetOf b &&
    p.n.isSubsetOf b && p.n.isSubsetOf c &&
    !p.k.names.any c.contains && !p.m.names.any b.contains && !p.n.names.any a.contains

end Partition

end Gemm

/-- A partition with the storage order of both operands. -/
structure Gemm extends Gemm.Partition where
  /-- A stores K before M. -/
  transA : Bool
  /-- B stores N before K. -/
  transB : Bool
deriving DecidableEq, Inhabited

namespace Gemm

/-- Whether the first index of `later` stands behind the first index of `sooner`. -/
def standsBehind (i later sooner : Indices) : Bool :=
  match later.first?.bind i.find?, sooner.first?.bind i.find? with
  | some p, some q => q < p
  | _, _ => false

/-- The mapping of a contraction by a partition that fits it; M and K may not be empty. -/
def ofPartition (c a b : Indices) (p : Partition) : Result Gemm :=
  if p.m.isEmpty || p.k.isEmpty then refuse (.emptyPartition p.m p.k)
  else if p.fits c a b then
    .ok { p with transA := standsBehind a p.m p.k, transB := standsBehind b p.k p.n }
  else refuse (.partition p.m p.n p.k c a b)

def isMatrixVector (g : Gemm) : Bool := g.n.isEmpty

/-- Whether the leading index of an operand is its first. -/
def leads (i part : Indices) : Bool := part.first?.bind i.find? = some 0

/-- The cost of the mapping for the index orders of the operands. -/
def cost (g : Gemm) (a b : Indices) : Cost where
  strided :=
    (if leads a (if g.transA then g.k else g.m) then 0 else 1) +
      (if leads b (if g.transB then g.n else g.k) then 0 else 1)
  leftTransposed := if g.transA then 1 else 0
  rightTransposed := if g.transB then 1 else 0
  fused := g.m.size + g.n.size + g.k.size

/-- The indices of the loops around the product: those of the result, then of A, then of B. -/
def loopIndices (g : Gemm) (c a b : Indices) : Indices :=
  let ofResult := c.diff (g.m.merge g.n)
  let ofLeft := (a.diff (g.m.merge g.k)).diff ofResult
  let ofRight := ((b.diff (g.k.merge g.n)).diff ofResult).diff ofLeft
  (ofResult.merge ofLeft).merge ofRight

/-- Whether a layout lets the given part of the indices be addressed as one dimension. -/
def fuses (i : Indices) (layout : Layout) (part : Indices) : Result Bool :=
  match i.positions? part with
  | some positions => layout.mayFuse positions
  | none => pure false

/-- Whether each of the parts can be addressed as one dimension. -/
def fusesAll (i : Indices) (layout : Layout) : List Indices → Result Bool
  | [] => pure true
  | part :: parts => do
    if ← fuses i layout part then fusesAll i layout parts else pure false

/-- Whether A can be addressed as a matrix over M and K, and B as one over K and N. -/
def argumentsFit (g : Gemm) (a b : Indices) (layoutA layoutB : Layout) : Result Bool := do
  if ← fusesAll a layoutA [g.m, g.k] then fusesAll b layoutB [g.k, g.n] else pure false

/-- Whether the result can be addressed as a matrix over M and N. -/
def resultFits (g : Gemm) (c : Indices) (layout : Layout) : Result Bool :=
  fusesAll c layout [g.m, g.n]

end Gemm

end TensorKernel
