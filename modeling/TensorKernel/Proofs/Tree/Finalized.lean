import TensorKernel.Proofs.Tree.Storage
import TensorKernel.Proofs.Tree.Written

/-!
Prepared trees are final. No product is left to be resolved; every node knows its indices, the
pattern of its value and where the value is stored, all three of one shape; and the indices of a
node follow from those of its children as its kind says.

* `Kind.Settles`: the indices of a node and those of its children;
* `Finalized`: what is known of a node;
* `Written.finalized`: every node of a prepared tree.
-/

namespace TensorKernel

/-- The dimensions of two operands, of which a product keeps `i` and sums over `sum`. The operands
agree on the extents of the names that both have. -/
structure Indices.Joins (sum i left right : Indices) : Prop where
  agree : ∀ d ∈ left.dims, ∀ e ∈ right.dims, d.name = e.name → d.extent = e.extent
  disjoint : ∀ name ∈ sum.names, name ∉ i.names
  union : ∀ d, d ∈ i.dims ∨ d ∈ sum.dims ↔ d ∈ left.dims ∨ d ∈ right.dims

/-- The groups of a matrix product: M and N are kept, and K is summed over. -/
structure Gemm.Grouped (g : Gemm) (i left right : Indices) : Prop where
  rows : ∀ d ∈ g.m.dims, d ∈ i.dims
  columns : ∀ d ∈ g.n.dims, d ∈ i.dims
  inner : ∀ name ∈ g.k.names, name ∉ i.names
  shared : ∀ d ∈ g.k.dims, d ∈ left.dims ∧ d ∈ right.dims

def Kind.Settles (i : Indices) (children : List Node) : Kind → Prop
  | .leaf t => i.shape = t.shape
  | .einsum => False
  | .add => children ≠ [] ∧ ∀ c ∈ children, c.indices = some i
  | .scale _ => ∃ term, children = [term] ∧ term.indices = some i
  | .assign => ∃ target value, children = [target, value] ∧ target.indices = some i ∧
      value.indices = some i
  | .indexSum index => ∃ term j d, children = [term] ∧ term.indices = some j ∧ index = ⟨[d]⟩ ∧
      d.name ∉ i.names ∧ ∀ e, e ∈ j.dims ↔ e ∈ i.dims ∨ e = d
  | .product => ∃ left right l r, children = [left, right] ∧ left.indices = some l ∧
      right.indices = some r ∧ Indices.Joins .empty i l r
  | .contraction sum => ∃ left right l r, children = [left, right] ∧ left.indices = some l ∧
      right.indices = some r ∧ Indices.Joins sum i l r
  | .gemm g => ∃ left right l r sum, children = [left, right] ∧ left.indices = some l ∧
      right.indices = some r ∧ Indices.Joins sum i l r ∧ g.Grouped i l r

theorem Contracts.joins {sum i : Indices} {left right : Node} (h : Contracts sum i left right) :
    Indices.Joins sum i left.own right.own := by
  refine ⟨fun d hd e he same => by rw [h.agree d hd e he same], fun name summed kept => ?_,
    fun d => ?_⟩
  · obtain ⟨d, hd, rfl⟩ := Indices.mem_names.mp kept
    exact ((h.kept d).mp hd).2 summed
  · rw [h.kept, h.summed, ← and_or_left]
    exact and_iff_left (Classical.em _).symm

theorem Gemm.Partition.Groups.grouped {g : Gemm} {i left right : Indices}
    (h : g.toPartition.Groups i left right) : g.Grouped i left right :=
  ⟨fun d hd => (h.rows d hd).2, fun d hd => (h.columns d hd).2, h.inner, h.summed⟩

/-- The index that a term is summed over is the one that the sum does not have. -/
theorem Sums.mem_iff {index i : Indices} {term : Node} (h : Sums index i term)
    (distinct : term.own.Distinct) :
    ∃ d, index = ⟨[d]⟩ ∧ d.name ∉ i.names ∧ ∀ e, e ∈ term.own.dims ↔ e ∈ i.dims ∨ e = d := by
  obtain ⟨d, hd, rfl⟩ := h.single
  refine ⟨d, rfl, h.gone (List.mem_singleton.mpr rfl), fun e => ?_⟩
  rw [h.kept]
  constructor
  · intro he
    by_cases same : e.name = d.name
    · exact .inr (distinct.dim_unique he hd same)
    · exact .inl ⟨he, fun named => same (List.mem_singleton.mp named)⟩
  · rintro (⟨he, -⟩ | rfl)
    · exact he
    · exact hd

namespace Node

/-- A node with indices, a pattern of their shape, and a layout of that shape for its value. -/
structure Finalized (x : Node) (i : Indices) (p : Pattern) (l : Layout) : Prop where
  indices : x.indices = some i
  distinct : i.Distinct
  pattern : x.pattern = some p
  patternShape : p.shape = i.shape
  storage : x.storage? = some l
  layoutShape : l.shape = i.shape
  settles : x.kind.Settles i x.children

section
variable {x : Node}

/-- In a well-formed tree of known indices a node goes with its children; a matrix product has to
come from a contraction. -/
theorem settles_of_fits (formed : x.WellFormed) (known : x.indices = some x.own)
    (each : ∀ c ∈ x.children, c.indices = some c.own) (summand : x.kind = .add → x.children ≠ [])
    (mapped : ∀ g, x.kind = .gemm g →
      ∃ sum left right, x.children = [left, right] ∧ Contracts sum x.own left right) :
    x.kind.Settles x.own x.children := by
  have fits := formed.fits
  have own {i : Indices} (h : x.indices = some i) : i = x.own := (own_of_indices h).symm
  cases kind : x.kind with
  | leaf t =>
    rw [kind] at fits
    obtain ⟨i, indices, shape, -⟩ := fits
    obtain rfl := own indices
    exact shape
  | einsum =>
    rw [kind] at fits
    exact fits
  | add =>
    rw [kind] at fits
    refine ⟨summand kind, fun c hc => ?_⟩
    rw [← known]
    exact (fits c hc).resolve_left (by simp [each c hc])
  | scale =>
    rw [kind] at fits
    obtain ⟨term, children, same⟩ := fits
    exact ⟨term, children, same.trans known⟩
  | assign =>
    rw [kind] at fits
    obtain ⟨i, target, value, _, indices, children, -, ht, hv⟩ := fits
    obtain rfl := own indices
    exact ⟨target, value, children, ht, hv⟩
  | indexSum index =>
    rw [kind] at fits
    obtain ⟨i, term, indices, children, operand, sums⟩ := fits
    obtain rfl := own indices
    have distinct := (formed.children term (by simp [children])).own
    obtain ⟨d, single, gone, dims⟩ := sums.mem_iff distinct
    exact ⟨term, term.own, d, children, operand, single, gone, dims⟩
  | product =>
    rw [kind] at fits
    obtain ⟨i, left, right, indices, children, hl, hr, contracts⟩ := fits
    obtain rfl := own indices
    exact ⟨left, right, _, _, children, hl, hr, contracts.joins⟩
  | contraction sum =>
    rw [kind] at fits
    obtain ⟨i, left, right, indices, children, hl, hr, contracts⟩ := fits
    obtain rfl := own indices
    exact ⟨left, right, _, _, children, hl, hr, contracts.joins⟩
  | gemm g =>
    rw [kind] at fits
    obtain ⟨i, left, right, indices, children, hl, hr, groups⟩ := fits
    obtain rfl := own indices
    obtain ⟨sum, left', right', children', contracts⟩ := mapped g kind
    rw [children] at children'
    cases children'
    exact ⟨left, right, _, _, sum, children, hl, hr, contracts.joins, groups.grouped⟩

/-- A tensor is stored in the shape of its indices. -/
theorem layoutShape_of_tensor {t : Tensor} {l : Layout} (formed : x.WellFormed)
    (kind : x.kind = .leaf t) (made : t.Constructed) (stored : x.storage? = some l) :
    l.shape = x.own.shape := by
  have fits := formed.fits
  rw [kind] at fits
  obtain ⟨i, indices, shape, -⟩ := fits
  obtain rfl := own_of_indices indices
  simp only [storage?, kind, Option.some.injEq] at stored
  obtain ⟨-, extents, ⟨-, layout⟩ | layout⟩ := made.pattern
  · rw [← stored, layout, shape]
    rfl
  · rw [← stored, layout, shape, ← extents]
    rfl

theorem layoutShape_of_placed {config : Config} {p : Pattern} {l : Layout} (formed : x.WellFormed)
    (tensors : x.Everywhere fun y => ∀ t, y.kind = .leaf t → t.Constructed) (shaped : Shaped x p)
    (placed : Placed config x l) : l.shape = x.own.shape := by
  obtain ⟨stored, place⟩ := placed
  cases kind : x.kind with
  | leaf t => exact layoutShape_of_tensor formed kind (tensors.root t kind) stored
  | assign =>
    have fits := formed.fits
    rw [kind] at fits place
    obtain ⟨i, target, value, t, indices, children, leaf, ht, -⟩ := fits
    obtain ⟨_, _, children', stored⟩ := place
    rw [children] at children'
    cases children'
    have member : target ∈ x.children := by simp [children]
    rw [layoutShape_of_tensor (formed.children target member) leaf
      ((tensors.children target member).root t leaf) stored, own_eq (ht.trans indices.symm)]
  | einsum | add | scale | indexSum | product | contraction | gemm =>
    rw [kind] at place
    by_cases simple : config.simpleLayouts = true
    · obtain rfl : l = .full x.own.shape := by simpa [simple] using place
      rfl
    · obtain ⟨q, width, pattern, rfl⟩ : ∃ q width, x.pattern = some q ∧ l = .ofPattern q width := by
        simpa [simple] using place
      obtain rfl := Option.some.inj (shaped.pattern.symm.trans pattern)
      exact shaped.shape

end

/-- A matrix product that was selected is the contraction of its operands. -/
theorem contracts_of_mapped {l m : Node} {count : Nat} (formed : l.WellFormed)
    (noGemm : l.Everywhere fun x => ∀ g, x.kind ≠ .gemm g)
    (h : l.mapContractions Gemm.naturalPartitions = .ok (m, count)) {y : Node} {g : Gemm}
    (hy : y ∈ m.postorder) (kind : y.kind = .gemm g) :
    ∃ sum left right, y.children = [left, right] ∧ Contracts sum y.own left right := by
  obtain ⟨x, hx, mapped, children⟩ := exists_of_mapContractions h hy
  rcases mapped.kind with same | ⟨⟨sum, contraction⟩, -⟩
  · exact absurd (same.symm.trans kind) (noGemm x hx g)
  · have fits := (formed.everywhere x hx).fits
    rw [contraction] at fits
    obtain ⟨i, left, right, indices, operands, -, -, contracts⟩ := fits
    obtain rfl := own_of_indices indices
    rw [operands] at children
    obtain ⟨left', right', done, hl, hr⟩ := forall₂_two children
    refine ⟨sum, left', right', done, contracts.distinct, ?_, ?_, ?_⟩
    · rw [own_eq hl.indices, own_eq hr.indices]
      exact contracts.agree
    · rw [own_eq mapped.indices, own_eq hl.indices, own_eq hr.indices]
      exact contracts.kept
    · rw [own_eq hl.indices, own_eq hr.indices]
      exact contracts.summed

/-- Every node of a prepared statement is final. -/
theorem Written.finalized {config : Config} {n m : Node} (written : n.Written)
    (h : n.prepare config = .ok m) : m.Everywhere fun x => ∃ i p l, Finalized x i p l := by
  obtain ⟨r, p, l, resolved, propagated, laid, mapped⟩ := prepare_stages h
  have sound := written.sound
  obtain ⟨formed, -⟩ := sound.composed.resolveTo none r (by simp) resolved
  have fresh := resolveTo_everywhere stable_fresh sound.fresh resolved
  have tensors := fresh.mono fun x h => h.made
  have noGemm := fresh.mono fun x h => h.noGemm
  obtain ⟨whole, made, finished⟩ := finished_of_stages formed tensors propagated laid mapped
  have shaped := shaped_of_stages formed tensors noGemm propagated laid mapped
  have contracts (x : Node) (hx : x ∈ m.postorder) (g : Gemm) (kind : x.kind = .gemm g) :
      ∃ sum left right, x.children = [left, right] ∧ Contracts sum x.own left right := by
    have unmapped : l.Everywhere fun x => ∀ g, x.kind ≠ .gemm g := by
      have ofKind {x y : Node} (same : y.kind = x.kind) (h : ∀ g, x.kind ≠ .gemm g) (g : Gemm) :
          y.kind ≠ .gemm g := same ▸ h g
      exact annotate_kinds (annotates_withLayout config) ofKind
        (annotate_kinds annotates_withPattern ofKind noGemm propagated) laid
    rcases mapped with rfl | ⟨count, mapped⟩
    · exact absurd kind (unmapped x hx g)
    · obtain ⟨formed, -, -⟩ := placed_of_computeLayouts formed tensors propagated laid
      exact contracts_of_mapped formed unmapped mapped hx kind
  intro x hx
  have formed := whole.everywhere x hx
  obtain ⟨q, stored, known, placed⟩ := finished x hx
  obtain ⟨q', shape⟩ := shaped x hx
  obtain rfl := Option.some.inj (known.pattern.symm.trans shape.pattern)
  have children (c : Node) (hc : c ∈ x.children) : c.indices = some c.own := by
    obtain ⟨_, _, child, -⟩ := finished c (mem_postorder_of_child hx hc)
    exact child.indices
  exact ⟨x.own, q, stored, known.indices, formed.own, known.pattern, shape.shape, placed.1,
    layoutShape_of_placed formed (made.subtree hx) shape placed,
    settles_of_fits formed known.indices children known.summand (contracts x hx)⟩

/-- The statement `C_ij = s A_ik B_kj - D_ij`. -/
def difference : Result Node := do
  let c ← indexed (← Tensor.ofName "C" [2, 2]) ['i', 'j']
  let a ← indexed (← Tensor.ofName "A" [2, 3]) ['i', 'k']
  let b ← indexed (← Tensor.ofName "B" [3, 2]) ['k', 'j']
  let d ← indexed (← Tensor.ofName "D" [2, 2]) ['i', 'j']
  let product ← (← a.times (.factor (.named "s"))).times (.node b)
  c.assign (.node (← product.minus (.node d)))

theorem written_difference {n : Node} (h : difference = .ok n) : n.Written := by
  simp only [difference, bind_eq_ok] at h
  obtain ⟨_, madeC, c, hc, _, madeA, a, ha, _, madeB, b, hb, _, madeD, d, hd, _, scaled, _, product,
    _, sub, done⟩ := h
  have factor : ∀ r, Operand.factor (.named "s") = .node r → r.Written := by
    intro r same
    cases same
  have left := Written.times (.indexed (.ofName madeA) ha) factor scaled
  have right : b.Written := .indexed (.ofName madeB) hb
  have other : d.Written := .indexed (.ofName madeD) hd
  have value := Written.minus (.times left right.operand product) other.operand sub
  exact .assign (.indexed (.ofName madeC) hc) value.operand done

theorem kinds_difference :
    (fun m : Node => m.postorder.map fun x => x.kind.name) <$>
        (do (← Outcome.ofResult difference).prepare .standard) = .ok
      ["IndexedTensor", "IndexedTensor", "IndexedTensor", "LoopOverGEMM", "ScalarMultiplication",
        "IndexedTensor", "ScalarMultiplication", "Add", "Assign"] :=
  eq_ok_of_toOption (by decide +kernel)

theorem finalized_difference : ∃ n m, difference = .ok n ∧ n.Written ∧
    n.prepare .standard = .ok m ∧ (m.Everywhere fun x => ∃ i p l, Finalized x i p l) ∧
    "LoopOverGEMM" ∈ m.postorder.map fun x => x.kind.name := by
  obtain ⟨m, prepared, kinds⟩ := map_eq_ok.mp kinds_difference
  simp only [bind_eq_ok, Outcome.ofResult, mapError_eq_ok] at prepared
  obtain ⟨n, built, prepared⟩ := prepared
  refine ⟨n, m, built, written_difference built, prepared,
    (written_difference built).finalized prepared, ?_⟩
  rw [kinds]
  decide

end Node

end TensorKernel
