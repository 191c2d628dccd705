import TensorKernel.Proofs.Tree.Meaning
import TensorKernel.Tree.Compose

/-!
Formulas as users write them, and what they mean over a commutative ring under the summation
convention. A chain of products is one product of all its factors, with the scalar factors in front,
and it is summed over every index outside the set that is required of it; where nothing is required
it keeps the indices that occur in one factor only. Sums and scalar factors hand a requirement down.
A sum of which nothing is required requires of its operands the indices to which they are brought:
the first order that a tensor among its operands fixes, or else the indices of the first operand.

A statement assigns a formula to a tensor and requires the indices of that tensor; a tensor alone on
the right side is a product of one factor.
-/

namespace TensorKernel

structure Scalars (R : Type) [CommRing R] where
  value : Factor → R
  minusOne : value (.constant .minusOne) = -1

inductive Formula where
  | tensor (tensor : Tensor) (names : List Char)
  | times (left right : Formula)
  | plus (left right : Formula)
  | minus (left right : Formula)
  | negate (term : Formula)
  | scale (factor : Factor) (term : Formula)

namespace Formula

/-- The tree that the operations of the user build. -/
def build : Formula → Result Node
  | .tensor t names => Node.indexed t names
  | .times left right => do (← left.build).times (.node (← right.build))
  | .plus left right => do (← left.build).plus (.node (← right.build))
  | .minus left right => do (← left.build).minus (.node (← right.build))
  | .negate term => do (← term.build).negate
  | .scale factor term => do (← term.build).times (.factor factor)

def tensors : Formula → List Tensor
  | .tensor t _ => [t]
  | .times left right | .plus left right | .minus left right => left.tensors ++ right.tensors
  | .negate term | .scale _ term => term.tensors

/-! ### Indices -/

def summands : Formula → List Formula
  | .plus left right => left.summands ++ right.summands
  | .minus left right => left.summands ++ [negate right]
  | f@(.tensor ..) | f@(.times ..) | f@(.negate _) | f@(.scale ..) => [f]

def hasFixedOrder : Formula → Bool
  | .tensor .. => true
  | .times .. => false
  | .plus left right | .minus left right => left.hasFixedOrder || right.hasFixedOrder
  | .negate term | .scale _ term => term.hasFixedOrder

/-- The indices of a tensor, scaled or not. -/
def ofTensor? : Formula → Option Indices
  | .tensor t names => some (t.indices names)
  | .negate term | .scale _ term => term.ofTensor?
  | .times .. | .plus .. | .minus .. => none

/-- The first order that an operand of a sum fixes, as far as it is known before resolution. -/
def fixedOrder? (f : Formula) : Option (Option Indices) :=
  (f.summands.find? hasFixedOrder).map ofTensor?

mutual

/-- The indices of the value of a formula of which nothing is required. -/
def free : Formula → Indices
  | .tensor t names => t.indices names
  | .times left right => Indices.unshared (left.factorIndices ++ right.factorIndices)
  | .plus left right => (plus left right).fixedOrder?.join.getD left.free
  | .minus left right => (minus left right).fixedOrder?.join.getD left.free
  | .negate term | .scale _ term => term.free

def factorIndices : Formula → List Indices
  | .tensor t names => [t.indices names]
  | .times left right => left.factorIndices ++ right.factorIndices
  | .plus left right => [(plus left right).fixedOrder?.join.getD left.free]
  | .minus left right => [(minus left right).fixedOrder?.join.getD left.free]
  | .negate term | .scale _ term => term.factorIndices

end

/-! ### Values -/

section
variable {R : Type} [CommRing R] (scalars : Scalars R) (σ : Store (Entry → R))

/-- The product of the scalar factors in a chain of products. -/
def coefficient : Formula → R
  | .tensor .. | .plus .. | .minus .. => 1
  | .times left right => left.coefficient * right.coefficient
  | .negate term => -term.coefficient
  | .scale factor term => scalars.value factor * term.coefficient

mutual

/-- The meaning of a formula of which indices may be required. -/
def meaning (required : Option Indices) : Formula → Point → R
  | .tensor t names => fun p => σ t.name (names.map p)
  | .times left right =>
    let factors := left.factorIndices ++ right.factorIndices
    let summed := (Indices.union factors).diff (required.getD (Indices.unshared factors))
    fun p => left.coefficient scalars * right.coefficient scalars *
      sumOver summed.dims (left.factorMeanings ++ right.factorMeanings).prod p
  | .plus left right =>
    let order := required.getD (plus left right).free
    left.meaning (some order) + right.meaning (some order)
  | .minus left right =>
    let order := required.getD (minus left right).free
    left.meaning (some order) - right.meaning (some order)
  | .negate term => -term.meaning required
  | .scale factor term => fun p => scalars.value factor * term.meaning required p

def factorMeanings : Formula → List (Point → R)
  | .tensor t names => [fun p => σ t.name (names.map p)]
  | .times left right => left.factorMeanings ++ right.factorMeanings
  | .plus left right =>
    let order := (plus left right).free
    [left.meaning (some order) + right.meaning (some order)]
  | .minus left right =>
    let order := (minus left right).free
    [left.meaning (some order) - right.meaning (some order)]
  | .negate term | .scale _ term => term.factorMeanings

end

end

end Formula

structure Statement where
  target : Tensor
  names : List Char
  value : Formula

namespace Statement

def build (s : Statement) : Result Node := do
  (← Node.indexed s.target s.names).assign (.node (← s.value.build))

def tensors (s : Statement) : List Tensor := s.target :: s.value.tensors

def indices (s : Statement) : Indices := s.target.indices s.names

section
variable {R : Type} [CommRing R] (scalars : Scalars R) (σ : Store (Entry → R))

def meaning (s : Statement) : Point → R :=
  match s.value with
  | .tensor t names =>
    sumOver ((t.indices names).diff s.indices).dims
      fun p => σ t.name (names.map p)
  | value => value.meaning scalars σ (some s.indices)

/-- The store after a statement: the target has the value of the right side, all else is kept. -/
def run (s : Statement) : Store (Entry → R) :=
  Function.update σ s.target.name fun e => s.meaning scalars σ (s.indices.pointOf e)

end

end Statement

end TensorKernel
