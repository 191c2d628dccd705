import TensorKernel.Tree.Order

/-!
The nodes that can be built by hand. Sums and products that are to be resolved later have no indices
yet; all other nodes deduce theirs from their operands.
-/

namespace TensorKernel.Node

/-- A tensor with an index name for each dimension. -/
def indexed (tensor : Tensor) (names : List Char) : Result Node := do
  let indices ← (Indices.ofNames names tensor.shape).mapError <|
    Error.mapComposition (.indexing · tensor.name)
  pure (ofKind (.leaf tensor) [] (some indices))

/-- A product summed over indices that resolution chooses. -/
def einsum (operands : List Node) : Node := ofKind .einsum operands none

/-- A sum whose indices resolution deduces. -/
def add (operands : List Node) : Node := ofKind .add operands none

/-- A term times a factor; a term that is scaled already is refused. -/
def scale (factor : Factor) (term : Node) : Result Node :=
  if term.kind.isScale then refuse .nestedScalars
  else pure (ofKind (.scale factor) [term] term.indices)

/-- A term summed over one of its indices. -/
def indexSum (term : Node) (name : Char) : Result Node := do
  let indices ← term.operandIndices
  match indices.extract? [name] with
  | some index => pure (ofKind (.indexSum index) [term] (some (indices.without name)))
  | none => refuse (.notAnIndex name term.text)

/-- The indices of two operands that agree on the extents of shared names. -/
def agreeingIndices (left right : Node) : Result (Indices × Indices) := do
  let li ← left.operandIndices
  let ri ← right.operandIndices
  li.checkAgrees ri
  pure (li, ri)

/-- A product over all indices of both operands, those of the left one first. -/
def product (left right : Node) : Result Node := do
  let (li, ri) ← agreeingIndices left right
  pure (ofKind .product [left, right] (some (li.merge (ri.diff (li.inter ri)))))

/-- A product summed over `sum`, stored in the order of `indices`. -/
def contraction (indices : Indices) (left right : Node) (sum : Indices) : Result Node := do
  let (li, ri) ← agreeingIndices left right
  match (li.merge ri).extract? sum.names with
  | none => refuse (.sumIndices sum li ri)
  | some found =>
    let freeLeft := li.diff sum
    let freeRight := (ri.diff sum).diff freeLeft
    let natural := freeLeft.merge freeRight
    (ofKind (.contraction found) [left, right] (some natural)).reorder indices true

/-- A contraction that runs as matrix products over the groups of a partition. -/
def gemm (indices : Indices) (left right : Node) (partition : Gemm.Partition) : Result Node := do
  let mapping ← Gemm.ofPartition indices (← left.operandIndices) (← right.operandIndices) partition
  pure (ofKind (.gemm mapping) [left, right] (some indices))

def assignment (target value : Node) : Result Node :=
  if target.kind.isLeaf then pure (ofKind .assign [target, value] target.indices)
  else refuse (.assignTarget target.text)

/-- The node with other children. A binary node takes two, and an assignment a tensor first. -/
def withChildren (n : Node) (children : List Node) : Result Node :=
  if n.kind.isBinary && children.length ≠ 2 then refuse (.arity n.kind.name)
  else if n.kind = .assign && !(children.head?.any fun target => target.kind.isLeaf) then
    refuse .assignTargetChild
  else pure { n with children }

end TensorKernel.Node
