import TensorKernel.Tree.Build

/-!
The choice of matrix products. For each contraction a source offers partitions; those that fit the
indices and the layouts are compared by cost, and the first cheapest one is taken. Contractions
without one stay as they are.
-/

namespace TensorKernel

namespace Gemm

/-- The partitions to try for a result, its two operands and the summed indices, best first. -/
abbrev Source := Indices → Indices → Indices → Indices → List Partition

def leading (i : Indices) : Indices := ⟨i.dims.take 1⟩

/-- M and N are the result indices that one operand has for itself, K the summed indices of both.
The second choice takes only the leading index of each, for layouts that do not fuse the groups. -/
def naturalPartitions : Source := fun c a b sum =>
  let full : Partition :=
    { m := (a.inter c).diff b, n := (b.inter c).diff a, k := (a.inter sum).inter b }
  if full.m.isEmpty || full.k.isEmpty then []
  else
    let single : Partition := ⟨leading full.m, leading full.n, leading full.k⟩
    if single = full then [full] else [full, single]

end Gemm

namespace Node

/-- The cost of running a node with a partition, unless the partition does not fit its indices or
its layouts. -/
def gemmCost? (n : Node) (partition : Gemm.Partition) : Result (Option Gemm.Cost) :=
  match n.children with
  | a :: b :: _ =>
    match n.indices, a.indices, b.indices, a.storage?, b.storage? with
    | some c, some ai, some bi, some layoutA, some layoutB =>
      match Gemm.ofPartition c ai bi partition with
      | .ok mapping => do
        let fits ← mapping.argumentsFit ai bi layoutA layoutB
        match fits, n.storage? with
        | true, some layout =>
          if ← mapping.resultFits c layout then pure (some (mapping.cost ai bi)) else pure none
        | _, _ => pure none
      | .error _ => pure none
    | _, _, _, _, _ => pure none
  | _ => pure none

/-- The first cheapest partition of a list, with its cost. -/
def cheapest (n : Node) (best : Option (Gemm.Partition × Gemm.Cost)) :
    List Gemm.Partition → Result (Option (Gemm.Partition × Gemm.Cost))
  | [] => pure best
  | partition :: partitions => do
    match ← n.gemmCost? partition with
    | some cost =>
      let improves := best.all fun (_, least) => cost.less least
      n.cheapest (if improves then some (partition, cost) else best) partitions
    | none => n.cheapest best partitions

/-- The partition that a contraction runs with, if there is one. -/
def gemmPartition? (source : Gemm.Source) (n : Node) : Result (Option Gemm.Partition) :=
  match n.kind, n.children, n.indices with
  | .contraction sum, [a, b], some c =>
    match a.indices, b.indices with
    | some ai, some bi => return (← n.cheapest none (source c ai bi sum)).map Prod.fst
    | _, _ => pure none
  | _, _, _ => pure none

/-- The contraction as matrix products, with all that was known about it. -/
def asGemm (n : Node) (partition : Gemm.Partition) : Result Node := do
  let (a, b) ← n.operands
  let mapped ← gemm (← n.deducedIndices) a b partition
  pure { mapped with pattern := n.pattern, layout := n.layout, prefetch := n.prefetch }

mutual

/-- The tree with contractions mapped onto matrix products, and the number of them. -/
def mapContractions (source : Gemm.Source) : Node → Result (Node × Nat)
  | ⟨kind, indices, pattern, layout, prefetch, children⟩ => do
    let (children, count) ← mapContractionsAll source children
    let n : Node := ⟨kind, indices, pattern, layout, prefetch, children⟩
    match ← n.gemmPartition? source with
    | some partition => pure (← n.asGemm partition, count + 1)
    | none => pure (n, count)

def mapContractionsAll (source : Gemm.Source) : List Node → Result (List Node × Nat)
  | [] => pure ([], 0)
  | child :: children => do
    let (child, count) ← child.mapContractions source
    let (children, rest) ← mapContractionsAll source children
    pure (child :: children, count + rest)

end

end Node

end TensorKernel
