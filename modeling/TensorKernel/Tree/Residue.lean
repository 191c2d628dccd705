import TensorKernel.Prepare

/-!
What a tree looks like when a change in place has failed midway: the children that were done keep
the change, the one that failed keeps what was done inside it, and the rest is as it was.
-/

namespace TensorKernel

namespace Node

mutual

/-- What a failed reordering leaves. -/
def reorderResidue (order : Indices) (keepPattern : Bool) : Node → Node
  | n@⟨kind, indices, pattern, layout, prefetch, children⟩ =>
    match kind, indices.bind (·.permutationTo? order) with
    | .scale _, some _ | .add, some _ =>
      if indices = some order then n
      else ⟨kind, indices, pattern, layout, prefetch, reorderResidueAll order keepPattern children⟩
    | _, _ => n

def reorderResidueAll (order : Indices) (keepPattern : Bool) : List Node → List Node
  | [] => []
  | child :: children =>
    match child.reorder order keepPattern with
    | .ok done => done :: reorderResidueAll order keepPattern children
    | .error _ => child.reorderResidue order keepPattern :: children

end

mutual

/-- What a failed bottom-up pass leaves. -/
def annotateResidue (pass : Node → Result Node) : Node → Node
  | ⟨kind, indices, pattern, layout, prefetch, children⟩ =>
    ⟨kind, indices, pattern, layout, prefetch, annotateResidueAll pass children⟩

def annotateResidueAll (pass : Node → Result Node) : List Node → List Node
  | [] => []
  | child :: children =>
    match child.annotate pass with
    | .ok done => done :: annotateResidueAll pass children
    | .error _ => child.annotateResidue pass :: children

end

end Node

namespace Pass

/-- What a failed pass leaves: resolution an empty product, since it takes the statement apart. -/
def residue (n : Node) : Pass → Node
  | resolveIndices => Node.einsum []
  | propagateSparsity => n.annotateResidue Node.withPattern
  | computeLayouts config => n.annotateResidue (Node.withLayout config)
  | selectGemm => n

end Pass

namespace Pipeline

/-- What a pipeline leaves if one of its passes fails. -/
def residue (n : Node) : List Pass → Node
  | [] => n
  | pass :: passes =>
    match pass.apply n with
    | .ok (n, _) => residue n passes
    | .error _ => pass.residue n

end Pipeline

end TensorKernel
