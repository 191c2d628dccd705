import TensorKernel.Proofs.Index.Point
import TensorKernel.Proofs.Program.Run
import TensorKernel.Proofs.Success
import TensorKernel.Proofs.Tree.Induction

/-!
Values of trees. A tensor holds a value at each of its entries; a tree over tensors has a value at
each entry of its own indices, which it computes from its children entry by entry, names matched to
names. The same computation of one node serves programs: `tensorMachine` runs actions on buffers.

`valueAt` reads a tree at a point, that is at the entry which the point gives for the indices of the
tree; `valueAt_eq` says how it follows from the children.
-/

namespace TensorKernel

/-- Stores that hold the same at every entry of some tensors. -/
def AgreeOn {R : Type} (tensors : List Tensor) (σ τ : Store (Entry → R)) : Prop :=
  ∀ t ∈ tensors, ∀ e : Entry, e.length = t.shape.length → σ t.name e = τ t.name e

theorem AgreeOn.mono {R : Type} {tensors more : List Tensor} {σ τ : Store (Entry → R)}
    (h : AgreeOn more σ τ) (sub : ∀ t ∈ tensors, t ∈ more) : AgreeOn tensors σ τ :=
  fun t ht => h t (sub t ht)

section
variable {R : Type} [CommSemiring R]

theorem Kind.isLeaf_iff {kind : Kind} : kind.isLeaf = true ↔ ∃ tensor, kind = .leaf tensor := by
  cases kind <;> simp [isLeaf]

/-- What a node computes from operands, which are given with their indices. A product of matrices
adds up products over K in each round of the loops around it. -/
def Kind.combine (scalars : Factor → R) (indices : Indices) :
    Kind → List (Indices × (Point → R)) → Point → R
  | .add, xs => (xs.map Prod.snd).sum
  | .scale factor, [x] => fun p => scalars factor * x.2 p
  | .indexSum index, [x] => sumOver index.dims x.2
  | .product, [x, y] => x.2 * y.2
  | .contraction sum, [x, y] => sumOver sum.dims (x.2 * y.2)
  | .gemm mapping, [x, y] =>
    sumOver ((mapping.loopIndices indices x.1 y.1).diff indices).dims
      (sumOver mapping.k.dims (x.2 * y.2))
  | .assign, [_, y] => y.2
  | _, _ => 0

namespace Node

def own (n : Node) : Indices := n.indices.getD .empty

def stored (n : Node) (content : Entry → R) : Indices × (Point → R) :=
  (n.own, fun p => content (n.own.entryAt p))

/-- What a node computes at an entry from the contents that its children have. -/
def compute (scalars : Factor → R) (n : Node) (contents : List (Entry → R)) (e : Entry) : R :=
  n.kind.combine scalars n.own (List.zipWith stored n.children contents) (n.own.pointOf e)

mutual

def value (scalars : Factor → R) (σ : Store (Entry → R)) : Node → Entry → R
  | n@⟨kind, _, _, _, _, children⟩ =>
    match kind with
    | .leaf tensor => σ tensor.name
    | .einsum | .add | .scale _ | .indexSum _ | .product | .contraction _ | .gemm _ | .assign =>
      n.compute scalars (values scalars σ children)

def values (scalars : Factor → R) (σ : Store (Entry → R)) : List Node → List (Entry → R)
  | [] => []
  | child :: children => child.value scalars σ :: values scalars σ children

end

def valueAt (scalars : Factor → R) (σ : Store (Entry → R)) (n : Node) (p : Point) : R :=
  n.value scalars σ (n.own.entryAt p)

end Node

/-- Buffers hold a value at each entry, and operations compute as their nodes do. -/
def tensorMachine (scalars : Factor → R) : Machine (Entry → R) where
  scaled factor x := fun e => scalars factor * x e
  added x y := x + y
  operation node _ contents := node.compute scalars contents

namespace Node

variable (scalars : Factor → R) (σ : Store (Entry → R))

theorem values_eq (children : List Node) :
    values scalars σ children = children.map (value scalars σ) := by
  induction children with
  | nil => rfl
  | cons child children ih => simp [values, ih]

theorem value_leaf {n : Node} {tensor : Tensor} (h : n.kind = .leaf tensor) :
    n.value scalars σ = σ tensor.name := by
  obtain ⟨kind, _, _, _, _, _⟩ := n
  subst h
  simp only [value]

theorem value_eq_compute {n : Node} (h : n.kind.isLeaf = false) :
    n.value scalars σ = n.compute scalars (n.children.map (value scalars σ)) := by
  obtain ⟨kind, _, _, _, _, children⟩ := n
  rw [← values_eq]
  cases kind with
  | leaf => cases h
  | _ => simp only [value]

def asOperand (n : Node) : Indices × (Point → R) := (n.own, n.valueAt scalars σ)

theorem valueAt_eq {n : Node} (h : n.kind.isLeaf = false) (p : Point) :
    n.valueAt scalars σ p =
      n.kind.combine scalars n.own (n.children.map (asOperand scalars σ)) (n.own.restrict p) := by
  rw [valueAt, value_eq_compute scalars σ h, compute, Indices.pointOf_entryAt,
    List.zipWith_map_right, List.zipWith_self]
  rfl

theorem valueAt_readsOnly (n : Node) : ReadsOnly n.own.names (n.valueAt scalars σ) := by
  intro p q same
  rw [valueAt, valueAt, Indices.entryAt_congr same]

/-- Moving names that a tree does not have leaves its value alone. -/
theorem valueAt_restrict {n : Node} {i : Indices} (sub : ∀ name ∈ n.own.names, name ∈ i.names)
    (p : Point) : n.valueAt scalars σ (i.restrict p) = n.valueAt scalars σ p :=
  n.valueAt_readsOnly scalars σ _ _ fun name hn => Indices.restrict_of_mem (sub name hn) p

/-- A sum of trees is computed point by point. -/
theorem valueAt_sum {n : Node} (kind : n.kind = .add)
    (sub : ∀ c ∈ n.children, ∀ name ∈ c.own.names, name ∈ n.own.names) (p : Point) :
    n.valueAt scalars σ p = (n.children.map fun c => c.valueAt scalars σ p).sum := by
  rw [valueAt_eq scalars σ (by rw [kind]; rfl), kind, Kind.combine, sum_apply, List.map_map,
    List.map_map]
  exact congrArg List.sum
    (List.map_congr_left fun c hc => c.valueAt_restrict scalars σ (sub c hc) p)

theorem valueAt_scaled {n term : Node} {factor : Factor} (kind : n.kind = .scale factor)
    (children : n.children = [term]) (sub : ∀ name ∈ term.own.names, name ∈ n.own.names)
    (p : Point) : n.valueAt scalars σ p = scalars factor * term.valueAt scalars σ p := by
  rw [valueAt_eq scalars σ (by rw [kind]; rfl), kind, children]
  exact congrArg (scalars factor * ·) (term.valueAt_restrict scalars σ sub p)

/-- A sum over trees may be evaluated at a point with other names moved to the origin. -/
theorem sumOver_restrict {names : List Char} {f : Point → R} (reads : ReadsOnly names f)
    {i : Indices} {ds : List Dim}
    (sub : ∀ name ∈ names, name ∉ ds.map Dim.name → name ∈ i.names) (p : Point) :
    sumOver ds f (i.restrict p) = sumOver ds f p :=
  sumOver_readsOnly reads ds _ _ fun name hn free => Indices.restrict_of_mem (sub name hn free) p

end Node

end

end TensorKernel
