import TensorKernel.Failure
import TensorKernel.Gemm.Selection
import TensorKernel.Tree.Placement
import TensorKernel.Tree.Resolve
import TensorKernel.Tree.Sparsity

/-!
Preparation of statements for lowering: the passes of a pipeline, in the order in which they depend
on one another.
-/

namespace TensorKernel

inductive Pass where
  | resolveIndices
  | propagateSparsity
  | computeLayouts (config : Config)
  | selectGemm
deriving DecidableEq

namespace Pass

def name : Pass → String
  | resolveIndices => "resolve-indices"
  | propagateSparsity => "propagate-sparsity"
  | computeLayouts _ => "compute-layouts"
  | selectGemm => "gemm-selection"

def ofName? (config : Config) (name : String) : Option Pass :=
  [resolveIndices, propagateSparsity, computeLayouts config, selectGemm].find? (·.name = name)

/-- The statement after the pass, and whether the pass counts as having changed it. -/
def apply (n : Node) : Pass → Result (Node × Bool)
  | resolveIndices => do
    let resolved ← n.resolve
    pure (resolved, !resolved.same n)
  | propagateSparsity => return (← n.propagateSparsity, true)
  | computeLayouts config => return (← n.computeLayouts config, true)
  | selectGemm => do
    let (mapped, count) ← n.mapContractions Gemm.naturalPartitions
    pure (mapped, 0 < count)

end Pass

/-- What a pipeline did to a statement. -/
structure PipelineReport where
  applied : List String
  changedBy : List String
deriving DecidableEq, Inhabited

namespace Pipeline

def passes (config : Config) : List Pass :=
  [.resolveIndices, .propagateSparsity, .computeLayouts config] ++
    if config.mapGemm then [.selectGemm] else []

/-- Runs passes one after the other. -/
def run (n : Node) : List Pass → Outcome (Node × PipelineReport)
  | [] => pure (n, ⟨[], []⟩)
  | pass :: passes => do
    let (n, changed) ← Outcome.within (.pass pass.name) (.ofResult (pass.apply n))
    let (n, report) ← run n passes
    pure (n, {
      applied := pass.name :: report.applied
      changedBy := if changed then pass.name :: report.changedBy else report.changedBy })

end Pipeline

/-- The statement after the passes of a configuration; only assignments are statements. -/
def Node.prepare (config : Config) (n : Node) : Outcome Node := do
  if n.kind ≠ .assign then .ofResult (refuse (.notAnAssignment n.text))
  let (prepared, _) ←
    Outcome.within (.preparing n.text) (Pipeline.run n (Pipeline.passes config))
  pure prepared

end TensorKernel
