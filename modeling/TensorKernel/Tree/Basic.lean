import TensorKernel.Gemm.Describe
import TensorKernel.Tensor

/-!
Expression trees. A node has a kind, the nodes it is computed from, and what passes have found out
about it: its free indices, its non-zero pattern, the layout of its value and a tensor to prefetch.
Its text names the kind and the free indices, as in `Contraction[ij]`.
-/

namespace TensorKernel

/-- What a node computes from its children. -/
inductive Kind where
  /-- The value of a tensor with index names for its dimensions. -/
  | leaf (tensor : Tensor)
  /-- A product summed over indices that are not chosen yet. -/
  | einsum
  /-- The sum of any number of children. -/
  | add
  /-- A child times a factor. -/
  | scale (factor : Factor)
  /-- A child summed over one index. -/
  | indexSum (index : Indices)
  /-- The product of two children. -/
  | product
  /-- The product of two children, summed over `sum`. -/
  | contraction (sum : Indices)
  /-- A contraction that runs as a loop over matrix products. -/
  | gemm (mapping : Gemm)
  /-- The second child assigned to the first. -/
  | assign
deriving DecidableEq, Inhabited

namespace Kind

def name : Kind → String
  | leaf _ => "IndexedTensor"
  | einsum => "Einsum"
  | add => "Add"
  | scale _ => "ScalarMultiplication"
  | indexSum _ => "IndexSum"
  | product => "Product"
  | contraction _ => "Contraction"
  | gemm _ => "LoopOverGEMM"
  | assign => "Assign"

/-- Whether a node of this kind has exactly two children. -/
def isBinary : Kind → Bool
  | product | contraction _ | gemm _ | assign => true
  | leaf _ | einsum | add | scale _ | indexSum _ => false

def isLeaf : Kind → Bool
  | leaf _ => true
  | _ => false

def isScale : Kind → Bool
  | scale _ => true
  | _ => false

/-- Equality of the values; a constant that is no number differs from itself. -/
def same : Kind → Kind → Bool
  | scale f, scale g => f.same g
  | a, b => a = b

end Kind

/-- A node of an expression tree. -/
structure Node where
  kind : Kind
  /-- The free indices, once they are known. -/
  indices : Option Indices
  /-- The pattern of the value, once it is computed. -/
  pattern : Option Pattern
  /-- The layout that was computed for the value. -/
  layout : Option Layout
  /-- A tensor to prefetch while the node is computed. -/
  prefetch : Option Tensor
  children : List Node

namespace Node

/-- A node about which only the indices are known. -/
def ofKind (kind : Kind) (children : List Node) (indices : Option Indices) : Node :=
  ⟨kind, indices, none, none, none, children⟩

instance : Inhabited Node := ⟨ofKind .einsum [] none⟩

/-- The layout of the value; a leaf has that of its tensor. -/
def storage? (n : Node) : Option Layout :=
  match n.kind with
  | .leaf tensor => some tensor.layout
  | _ => n.layout

def tensorName? (n : Node) : Option String :=
  match n.kind with
  | .leaf tensor => some tensor.name
  | _ => none

def text (n : Node) : String :=
  let names := (n.indices.map Indices.text).getD "<not deduced>"
  match n.kind, n.children with
  | .leaf tensor, _ => tensor.name ++ "[" ++ names ++ "]"
  | .scale factor, _ => n.kind.name ++ "[" ++ names ++ "]: " ++ factor.text
  | .gemm mapping, [a, b] =>
    n.kind.name ++ " [" ++ names ++ "]: " ++ mapping.describe n.indices a.indices b.indices
  | _, _ => n.kind.name ++ "[" ++ names ++ "]"

/-! ### Lookups that fail with a cause -/

def deducedIndices (n : Node) : Result Indices :=
  match n.indices with
  | some i => .ok i
  | none => violates (.indices n.text)

def computedPattern (n : Node) : Result Pattern :=
  match n.pattern with
  | some p => .ok p
  | none => violates (.sparsity n.text)

def computedLayout (n : Node) : Result Layout :=
  match n.storage? with
  | some l => .ok l
  | none => violates (.layout n.text)

def shape (n : Node) : Result Shape := return (← n.deducedIndices).shape

def operands (n : Node) : Result (Node × Node) :=
  match n.children with
  | [a, b] => .ok (a, b)
  | children => violates (.operandCount n.text children.length)

/-! ### Whole trees -/

mutual

/-- Whether a leaf dictates the storage order of the value. -/
def hasFixedOrder : Node → Bool
  | ⟨kind, _, _, _, _, children⟩ =>
    match kind with
    | .leaf _ | .assign => true
    | .scale _ => firstHasFixedOrder children
    | .add => anyHasFixedOrder children
    | .einsum | .indexSum _ | .product | .contraction _ | .gemm _ => false

def firstHasFixedOrder : List Node → Bool
  | [] => false
  | child :: _ => child.hasFixedOrder

def anyHasFixedOrder : List Node → Bool
  | [] => false
  | child :: children => child.hasFixedOrder || anyHasFixedOrder children

end

mutual

/-- The nodes of a tree, children before their parent. -/
def postorder : Node → List Node
  | n@⟨_, _, _, _, _, children⟩ => postorderAll children ++ [n]

def postorderAll : List Node → List Node
  | [] => []
  | child :: children => child.postorder ++ postorderAll children

end

mutual

/-- Equality of whole trees by value; a constant that is no number differs from itself. -/
def same : Node → Node → Bool
  | ⟨kind, indices, pattern, layout, prefetch, children⟩, other =>
    kind.same other.kind && indices = other.indices && pattern = other.pattern &&
      layout = other.layout && prefetch = other.prefetch && sameAll children other.children

def sameAll : List Node → List Node → Bool
  | [], [] => true
  | a :: as, b :: bs => a.same b && sameAll as bs
  | _, _ => false

end

mutual

/-- The texts of a tree, one line each, children indented below their parent. -/
def lines : Node → List String
  | n@⟨_, _, _, _, _, children⟩ => n.text :: (linesAll children).map ("  " ++ ·)

def linesAll : List Node → List String
  | [] => []
  | child :: children => child.lines ++ linesAll children

end

/-- The tree as an indented text. -/
def pretty (n : Node) : String := String.intercalate "\n" n.lines

end Node

end TensorKernel
