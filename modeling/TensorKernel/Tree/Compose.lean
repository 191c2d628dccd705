import TensorKernel.Tree.Build

/-!
Arithmetic on trees. Products of products fold into one product and sums of sums into one sum, in
the order of the operands; a factor moves to the outside of a product, where only one may stand.
-/

namespace TensorKernel

/-- The right operand of an arithmetic operation. -/
inductive Operand where
  | node (node : Node)
  | factor (factor : Factor)

namespace Node

/-- The children of a node of an associative kind, else the node itself. -/
def flattened (kind : Kind) (n : Node) : List Node :=
  if n.kind = kind then n.children else [n]

/-- Both operands under an associative kind. A node of that kind takes the other operand in, the
left one before the right one. -/
def fold (kind : Kind) (left right : Node) : Node :=
  let children := left.flattened kind ++ right.flattened kind
  if left.kind = kind then { left with children }
  else if right.kind = kind then { right with children }
  else ofKind kind children none

/-- The product of two nodes that are not scaled themselves. -/
def timesNode (left right : Node) : Node := fold .einsum left right

mutual

/-- Applies `f` under the factors of a node. A scaled node has its last child for a term. -/
def mapUnderFactors (f : Node → Node) : Node → Result Node
  | n@⟨kind, _, pattern, layout, prefetch, children⟩ =>
    match kind with
    | .scale factor => do
      let term ← mapLastUnderFactors f children
      pure ⟨.scale factor, term.indices, pattern, layout, prefetch, [term]⟩
    | .leaf _ | .einsum | .add | .indexSum _ | .product | .contraction _ | .gemm _ | .assign =>
      pure (f n)

def mapLastUnderFactors (f : Node → Node) : List Node → Result Node
  | [] => refuse .scaledNothing
  | [term] => term.mapUnderFactors f
  | _ :: term :: terms => mapLastUnderFactors f (term :: terms)

end

/-- The product; a factor scales the left operand, and the factor of an operand scales the whole
product. -/
def times (left : Node) : Operand → Result Node
  | .factor factor => scale factor left
  | .node right =>
    if left.kind.isScale then
      if right.kind.isScale then refuse .nestedScalars
      else left.mapUnderFactors (timesNode · right)
    else right.mapUnderFactors (timesNode left)

/-- The sum; a factor cannot be added. -/
def plus (left : Node) : Operand → Result Node
  | .node right => pure (fold .add left right)
  | .factor factor => refuse (.cannotAdd factor.text left.text)

/-- The term times minus one. -/
def negate (term : Node) : Result Node := scale (.constant .minusOne) term

/-- The difference, as the sum with the negated right operand. -/
def minus (left : Node) : Operand → Result Node
  | .node right => do left.plus (.node (← right.negate))
  | .factor factor => refuse (.cannotSubtract factor.text left.text)

/-- The assignment of a value to a tensor. A tensor on the right side is copied by a product of one
operand, unless it is the target itself. -/
def assign (target : Node) : Operand → Result Node
  | .node value =>
    if value.kind.isLeaf && !value.same target then target.assignment (einsum [value])
    else target.assignment value
  | .factor factor => refuse (.cannotAssign factor.text target.text)

end Node

end TensorKernel
