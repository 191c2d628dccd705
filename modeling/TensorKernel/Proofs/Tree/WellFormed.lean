import TensorKernel.Proofs.Tree.Value

/-!
Well-formed trees: index sets without repeated names, and what each kind of node demands of its
children. The children of a sum have its index order, so that they can be added up entry by entry,
unless they are empty sums and have none; a product keeps the dimensions that it does not sum over.
Products have been resolved, and a value that is assigned to a tensor has the indices of that tensor.
-/

namespace TensorKernel

/-- The dimensions that a product with indices `i` keeps and sums over. The operands agree on the
extents of the names that both have. -/
structure Contracts (sum i : Indices) (left right : Node) : Prop where
  distinct : sum.Distinct
  agree : ∀ d ∈ left.own.dims, ∀ e ∈ right.own.dims, d.name = e.name → d = e
  kept : ∀ d, d ∈ i.dims ↔ (d ∈ left.own.dims ∨ d ∈ right.own.dims) ∧ d.name ∉ sum.names
  summed : ∀ d, d ∈ sum.dims ↔ (d ∈ left.own.dims ∨ d ∈ right.own.dims) ∧ d.name ∈ sum.names

structure Sums (index i : Indices) (term : Node) : Prop where
  single : ∃ d ∈ term.own.dims, index = ⟨[d]⟩
  kept : ∀ d, d ∈ i.dims ↔ d ∈ term.own.dims ∧ d.name ∉ index.names

/-- The groups of a partition that fits, dimension by dimension. -/
structure Gemm.Partition.Groups (p : Gemm.Partition) (c a b : Indices) : Prop where
  rows : ∀ d ∈ p.m.dims, d ∈ a.dims ∧ d ∈ c.dims
  columns : ∀ d ∈ p.n.dims, d ∈ b.dims ∧ d ∈ c.dims
  summed : ∀ d ∈ p.k.dims, d ∈ a.dims ∧ d ∈ b.dims
  inner : ∀ name ∈ p.k.names, name ∉ c.names

/-- The rows are no indices of the right operand, and the columns none of the left one. -/
structure Gemm.Partition.Apart (p : Gemm.Partition) (a b : Indices) : Prop where
  rows : ∀ name ∈ p.m.names, name ∉ b.names
  columns : ∀ name ∈ p.n.names, name ∉ a.names

/-- A partition has a mapping if it fits and has rows and summed indices. -/
theorem Gemm.ofPartition_iff {c a b : Indices} {p : Gemm.Partition} {g : Gemm} :
    Gemm.ofPartition c a b p = .ok g ↔ p.m.isEmpty = false ∧ p.k.isEmpty = false ∧
      p.fits c a b = true ∧
        g = { p with transA := standsBehind a p.m p.k, transB := standsBehind b p.k p.n } := by
  unfold ofPartition
  cases p.m.isEmpty <;> cases p.k.isEmpty <;> cases p.fits c a b <;> simp [refuse, eq_comm]

/-- What a node with the given indices demands of its children. -/
def Kind.Fits (indices : Option Indices) (children : List Node) : Kind → Prop
  | .leaf tensor => ∃ i, indices = some i ∧ i.shape = tensor.shape ∧ isIdentifier tensor.base = true
  | .einsum => False
  | .add => ∀ c ∈ children, c.indices = none ∨ c.indices = indices
  | .scale _ => ∃ term, children = [term] ∧ term.indices = indices
  | .indexSum index =>
    ∃ i term, indices = some i ∧ children = [term] ∧ term.indices = some term.own ∧
      Sums index i term
  | .product =>
    ∃ i left right, indices = some i ∧ children = [left, right] ∧
      left.indices = some left.own ∧ right.indices = some right.own ∧ Contracts .empty i left right
  | .contraction sum =>
    ∃ i left right, indices = some i ∧ children = [left, right] ∧
      left.indices = some left.own ∧ right.indices = some right.own ∧ Contracts sum i left right
  | .gemm mapping =>
    ∃ i left right, indices = some i ∧ children = [left, right] ∧
      left.indices = some left.own ∧ right.indices = some right.own ∧
      mapping.toPartition.Groups i left.own right.own
  | .assign =>
    ∃ i target value tensor, indices = some i ∧ children = [target, value] ∧
      target.kind = .leaf tensor ∧ target.indices = some i ∧ value.indices = some i

/-- The summed index is not kept. -/
theorem Sums.gone {index i : Indices} {term : Node} (h : Sums index i term) {name : Char}
    (summed : name ∈ index.names) : name ∉ i.names := by
  intro kept
  obtain ⟨d, hd, rfl⟩ := Indices.mem_names.mp kept
  exact ((h.kept d).mp hd).2 summed

namespace Node

/-- No node of the tree repeats an index name, and its children are as its kind demands. -/
inductive WellFormed : Node → Prop
  | node {n : Node} (own : ∀ i, n.indices = some i → i.Distinct)
      (fits : n.kind.Fits n.indices n.children) (children : ∀ c ∈ n.children, WellFormed c) :
      WellFormed n

theorem own_of_indices {n : Node} {i : Indices} (h : n.indices = some i) : n.own = i := by
  rw [own, h, Option.getD_some]

theorem own_eq {n m : Node} (h : n.indices = m.indices) : n.own = m.own := by
  rw [own, h, own]

namespace WellFormed

variable {n : Node}

theorem indices (h : n.WellFormed) {i : Indices} (known : n.indices = some i) : i.Distinct := by
  cases h with
  | node own _ _ => exact own i known

theorem fits (h : n.WellFormed) : n.kind.Fits n.indices n.children := by
  cases h with
  | node _ fits _ => exact fits

theorem children (h : n.WellFormed) : ∀ c ∈ n.children, c.WellFormed := by
  cases h with
  | node _ _ children => exact children

theorem own (h : n.WellFormed) : n.own.Distinct := by
  cases known : n.indices with
  | none =>
    rw [Node.own, known]
    exact Indices.distinct_empty
  | some i =>
    rw [own_of_indices known]
    exact h.indices known

theorem everywhere (h : n.WellFormed) : n.Everywhere WellFormed := by
  induction h with
  | node own fits children ih => exact everywhere_iff.mpr ⟨.node own fits children, ih⟩

/-- A node of known indices whose children are well-formed. -/
theorem of_known {i : Indices} (known : n.indices = some i) (distinct : i.Distinct)
    (fits : n.kind.Fits n.indices n.children) (children : ∀ c ∈ n.children, c.WellFormed) :
    n.WellFormed := by
  refine .node (fun j hj => ?_) fits children
  rw [known] at hj
  cases hj
  exact distinct

end WellFormed

def dense (name : String) (dims : List Dim) : Node :=
  let shape := dims.map Dim.extent
  ofKind (.leaf ⟨name, none, shape, .dense shape, .full shape⟩) [] (some ⟨dims⟩)

end Node

end TensorKernel
