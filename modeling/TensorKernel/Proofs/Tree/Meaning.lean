import TensorKernel.Proofs.Tree.WellFormed
import TensorKernel.Tree.Resolve

/-!
What expressions mean under the summation convention. An expression is built from tensors with index
names by products, sums and factors. A product is summed over every index outside the set that is
required of it; where nothing is required it keeps the indices that one factor has for itself. An
assignment requires the indices of its target, and the requirement passes down through sums and
factors. A sum without requirement requires of its operands the indices to which they are brought.
-/

namespace TensorKernel

namespace Indices

def union (factors : List Indices) : Indices := factors.foldl merge empty

def unshared (factors : List Indices) : Indices :=
  (union factors).filter fun name => factors.countP (·.contains name) = 1

end Indices

def Tensor.indices (t : Tensor) (names : List Char) : Indices :=
  ⟨List.zipWith Dim.mk names t.shape⟩

namespace Node

/-- A tensor, whose name is an identifier, with index names for its dimensions. -/
structure IsTensor (n : Node) (tensor : Tensor) (i : Indices) : Prop where
  kind : n.kind = .leaf tensor
  indices : n.indices = some i
  children : n.children = []
  distinct : i.Distinct
  shape : i.shape = tensor.shape
  valid : isIdentifier tensor.base = true

/-- The trees that are built from tensors, products to be resolved, sums and factors. -/
inductive Expression : Node → Prop
  | tensor {n : Node} {tensor : Tensor} {i : Indices} (leaf : n.IsTensor tensor i) : Expression n
  | product {n : Node} (kind : n.kind = .einsum) (indices : n.indices = none)
      (factors : ∀ c ∈ n.children, Expression c) : Expression n
  | sum {n : Node} (kind : n.kind = .add) (indices : n.indices = none)
      (summands : ∀ c ∈ n.children, Expression c) : Expression n
  | scaled {n term : Node} {factor : Factor} (kind : n.kind = .scale factor)
      (children : n.children = [term]) (indices : n.indices = term.indices)
      (expression : Expression term) : Expression n

theorem expression_dense {name : String} {dims : List Dim} (h : (dims.map Dim.name).Nodup)
    (valid : isIdentifier name = true) : (dense name dims).Expression :=
  .tensor ⟨rfl, rfl, rfl, h, rfl, valid⟩

theorem Expression.of_einsum {factors : List Node} (h : ∀ c ∈ factors, c.Expression) :
    (einsum factors).Expression :=
  .product rfl rfl h

theorem Expression.of_add {summands : List Node} (h : ∀ c ∈ summands, c.Expression) :
    (add summands).Expression :=
  .sum rfl rfl h

theorem Expression.of_scale {factor : Factor} {term n : Node} (h : term.Expression)
    (done : scale factor term = .ok n) : n.Expression := by
  unfold scale at done
  split at done
  · exact absurd done refuse_ne_ok
  · obtain rfl := pure_eq_ok.mp done
    exact .scaled rfl rfl rfl h

theorem isTensor_of_indexed {tensor : Tensor} {names : List Char} {n : Node}
    (valid : isIdentifier tensor.base = true) (done : indexed tensor names = .ok n) :
    n.IsTensor tensor (tensor.indices names) ∧ (tensor.indices names).names = names := by
  simp only [indexed, bind_eq_ok, mapError_eq_ok, pure_eq_ok] at done
  obtain ⟨i, written, rfl⟩ := done
  obtain ⟨rfl, distinct, order, shape⟩ := Indices.ofNames_eq_ok written
  exact ⟨⟨rfl, rfl, rfl, distinct, shape, valid⟩, order⟩

structure Assignment (n target value : Node) : Prop where
  kind : n.kind = .assign
  indices : n.indices = target.indices
  children : n.children = [target, value]
  target : ∃ tensor i, target.IsTensor tensor i
  value : value.Expression

mutual

/-- The indices of the value of an expression of which nothing is required. The operands of a sum
are brought to the first known order of a tensor, or else to that of the first operand. -/
def free : Node → Option Indices
  | ⟨kind, indices, _, _, _, children⟩ =>
    match kind with
    | .einsum => some (Indices.unshared ((freeAll children).map (·.getD .empty)))
    | .add => (sumOrder none children).or ((freeAll children).findSome? id)
    | .scale _ => (freeAll children).head?.join
    | .leaf _ | .indexSum _ | .product | .contraction _ | .gemm _ | .assign => indices

def freeAll : List Node → List (Option Indices)
  | [] => []
  | child :: children => child.free :: freeAll children

end

section
variable {R : Type} [CommSemiring R] (scalars : Factor → R) (σ : Store (Entry → R))

mutual

/-- The meaning of an expression of which indices may be required, or of an assignment. -/
def meaning (required : Option Indices) : Node → Point → R
  | n@⟨kind, indices, _, _, _, children⟩ =>
    match kind with
    | .leaf tensor => fun p => σ tensor.name ((indices.getD .empty).entryAt p)
    | .einsum =>
      let factors := (freeAll children).map (·.getD .empty)
      let keep := required.getD (Indices.unshared factors)
      sumOver ((Indices.union factors).diff keep).dims (meanings none children).prod
    | .add => (meanings (required.or n.free) children).sum
    | .scale factor => fun p => scalars factor * (meanings required children).sum p
    | .assign => meaningAssigned children
    | .indexSum _ | .product | .contraction _ | .gemm _ => 0

def meanings (required : Option Indices) : List Node → List (Point → R)
  | [] => []
  | child :: children => child.meaning required :: meanings required children

def meaningAssigned : List Node → Point → R
  | [target, value] => value.meaning target.indices
  | _ => 0

end

theorem meanings_eq (required : Option Indices) (children : List Node) :
    meanings scalars σ required children = children.map (meaning scalars σ required) := by
  induction children with
  | nil => rfl
  | cons child children ih => rw [meanings, ih, List.map_cons]

end

theorem freeAll_eq (children : List Node) : freeAll children = children.map free := by
  induction children with
  | nil => rfl
  | cons child children ih => rw [freeAll, ih, List.map_cons]

theorem IsTensor.own {n : Node} {tensor : Tensor} {i : Indices} (h : n.IsTensor tensor i) :
    n.own = i :=
  own_of_indices h.indices

theorem IsTensor.wellFormed {n : Node} {tensor : Tensor} {i : Indices} (h : n.IsTensor tensor i) :
    n.WellFormed := by
  refine .of_known h.indices h.distinct ?_ (by simp [h.children])
  rw [h.kind]
  exact ⟨i, h.indices, h.shape, h.valid⟩

/-- The indices that an expression has before it is resolved are those of a tensor. -/
theorem Expression.distinct {n : Node} (h : n.Expression) {i : Indices}
    (known : n.indices = some i) : i.Distinct := by
  induction h with
  | tensor leaf =>
    obtain rfl := Option.some.inj (leaf.indices.symm.trans known)
    exact leaf.distinct
  | product _ indices | sum _ indices =>
    rw [indices] at known
    cases known
  | scaled _ _ indices _ ih => exact ih (indices ▸ known)

end Node

end TensorKernel
