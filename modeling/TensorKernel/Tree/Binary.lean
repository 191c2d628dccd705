import TensorKernel.Tree.Build

/-!
A product of any number of operands as a tree of binary products. Indices that one operand has for
itself are summed before any product is formed. Then the operands are multiplied from left to right,
and each product is summed over the shared indices that neither the result nor a later operand
needs.
-/

namespace TensorKernel.Node

/-- The indices of a node that has been resolved. -/
def resolvedIndices (n : Node) : Result Indices :=
  match n.indices with
  | some i => .ok i
  | none => refuse (.notDeduced n.text)

/-- The node in the order of `target`, whose names and extents it has to have. -/
def bring (target : Indices) (n : Node) : Result Node := do
  let current ← n.resolvedIndices
  if current.sameNames target then
    current.checkAgrees target
    n.reorder target true
  else refuse (.freeIndices n.text current target)

def mentions (name : Char) (n : Node) : Bool := n.indices.any (·.contains name)

/-- The number of operands that have an index. -/
def occurrences (operands : List Node) (name : Char) : Nat := operands.countP (mentions name)

/-- The merged indices of operands that agree on the extents of shared names. -/
def mergedIndices (found : Indices) : List Node → Result Indices
  | [] => pure found
  | operand :: operands => do
    let indices ← operand.resolvedIndices
    found.checkAgrees indices
    mergedIndices (found.merge indices) operands

/-- The indices that a product keeps: those required of it, or else the ones that occur in exactly
one operand. -/
def keptIndices (target : Option Indices) (operands : List Node) (all : Indices) : Result Indices :=
  match target with
  | some target =>
    match target.names.find? fun name => !all.contains name with
    | some name => refuse (.targetIndex name target all)
    | none => do
      all.checkAgrees target
      pure target
  | none => pure (all.filter fun name => occurrences operands name = 1)

/-- An operand summed over the indices that are neither kept nor shared. -/
def sumPrivate (keep : Indices) (operands : List Node) (operand : Node) : Result Node := do
  let indices ← operand.resolvedIndices
  (indices.names.filter fun name => !keep.contains name && occurrences operands name = 1).foldlM
    indexSum operand

def laterIndices (operands : List Node) : Indices :=
  operands.foldr (fun operand later => later.merge (operand.indices.getD .empty)) .empty

/-- The product with the next operand, summed over the shared indices that are not needed. -/
def multiply (needed : Indices) (left right : Node) : Result Node := do
  let li ← left.resolvedIndices
  let ri ← right.resolvedIndices
  let sum := (li.inter ri).diff needed
  if sum.isEmpty then left.product right
  else contraction ((li.diff sum).merge (ri.diff sum)) left right sum

/-- The product with all operands from left to right. -/
def multiplyAll (keep : Indices) (left : Node) : List Node → Result Node
  | [] => pure left
  | right :: later => do
    (← multiply (keep.merge (laterIndices later)) left right).multiplyAll keep later

/-- The product of operands as binary products. -/
def binarize (target : Option Indices) (operands : List Node) : Result Node := do
  if operands.isEmpty then refuse .emptyProduct
  let all ← mergedIndices .empty operands
  let keep ← keptIndices target operands all
  match ← operands.mapM (sumPrivate keep operands) with
  | [] => refuse .emptyProduct
  | first :: rest => (← first.multiplyAll keep rest).bring keep

end TensorKernel.Node
