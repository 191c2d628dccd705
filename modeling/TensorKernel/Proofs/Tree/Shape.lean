import TensorKernel.Proofs.Tree.Sparsity

/-!
Patterns have the shape of the indices of their nodes. In a tree in which no matrix products were
built by hand every node finds its pattern, as long as the descriptors of products are read as they
were written (`Readable`).

* `patternFromChildren_ok`, `readable_of_patternFromChildren`: one node over children whose patterns
  have the right shape;
* `propagateSparsity_iff`: all nodes of a tree;
* `shaped_of_propagateSparsity`: the shapes in a tree whose patterns were propagated.
-/

namespace TensorKernel

namespace Indices

variable {i j : Indices}

theorem zip_names_shape (i : Indices) :
    i.names.zip i.shape = i.dims.map fun d => (d.name, d.extent) := by
  rw [names, shape, List.zip_map']

/-- The extents of an index set are found by name. -/
theorem lookup_extent (h : i.Distinct) {d : Dim} (hd : d ∈ i.dims) :
    (i.names.zip i.shape).lookup d.name = some d.extent := by
  rw [zip_names_shape]
  cases found : (i.dims.map fun d => (d.name, d.extent)).lookup d.name with
  | none =>
    have absent := List.lookup_eq_none_iff.mp found _ (List.mem_map_of_mem hd)
    simp at absent
  | some extent =>
    obtain ⟨e, he, pair⟩ := List.mem_map.mp (Pattern.mem_of_lookup found)
    obtain ⟨name, rfl⟩ := Prod.mk.inj pair
    rw [h.dim_unique he hd name]

/-- So are those of two index sets that agree. -/
theorem lookup_extent_append (hi : i.Distinct) (hj : j.Distinct)
    (agree : ∀ d ∈ i.dims, ∀ e ∈ j.dims, d.name = e.name → d = e) {d : Dim}
    (hd : d ∈ i.dims ∨ d ∈ j.dims) :
    (i.names.zip i.shape ++ j.names.zip j.shape).lookup d.name = some d.extent := by
  rw [List.lookup_append]
  by_cases shared : d.name ∈ i.names
  · obtain ⟨e, he, same⟩ := mem_names.mp shared
    obtain rfl : e = d :=
      hd.elim (fun hd => hi.dim_unique he hd same) fun hd => agree e he d hd same
    rw [lookup_extent hi he, Option.some_or]
  · have own := hd.resolve_left fun hd => shared (mem_names_of_mem hd)
    rw [Pattern.lookup_eq_none shared, Option.none_or, lookup_extent hj own]

theorem mapM_extents {pairs : List (Char × Nat)}
    (h : ∀ d ∈ i.dims, pairs.lookup d.name = some d.extent) :
    i.names.mapM (pairs.lookup ·) = some i.shape := by
  rw [mapM_eq_some, names, shape, List.forall₂_map_left_iff, List.forall₂_map_right_iff,
    List.forall₂_same]
  exact h

end Indices

namespace Node

/-- The pattern of a product, if the descriptor can be read. -/
theorem einsum_ok {l r o : Indices} {a b : Pattern} (hl : l.Distinct) (hr : r.Distinct)
    (agree : ∀ d ∈ l.dims, ∀ e ∈ r.dims, d.name = e.name → d = e)
    (sub : ∀ d ∈ o.dims, d ∈ l.dims ∨ d ∈ r.dims) (ha : a.shape = l.shape) (hb : b.shape = r.shape)
    (readable : Descriptor.Readable ⟨l.names, r.names, o.names⟩) :
    ∃ p, Pattern.einsum (productDescriptor l r o) a b = .ok p ∧ p.shape = o.shape := by
  have found {d : Dim} (hd : d ∈ l.dims ∨ d ∈ r.dims) :=
    Indices.lookup_extent_append hl hr agree hd
  refine Pattern.einsum_ok (Descriptor.parse_render.mpr readable) ?_ ?_ ?_ ?_
  · rw [ha, Indices.length_names, Indices.length_shape]
  · rw [hb, Indices.length_names, Indices.length_shape]
  · rw [ha, hb, Pattern.inconsistent?, Option.map_eq_none_iff, List.find?_eq_none]
    intro pair hp
    rw [Indices.zip_names_shape, Indices.zip_names_shape, ← List.map_append, List.mem_map] at hp
    obtain ⟨d, hd, rfl⟩ := hp
    simp [found (List.mem_append.mp hd)]
  · rw [ha, hb]
    exact Indices.mapM_extents fun d hd => found (sub d hd)

/-- Summands of one shape have a sum of that shape. -/
theorem addPatterns_ok {sum : Pattern} {operands : List Node}
    (each : ∀ c ∈ operands, ∃ q, c.pattern = some q ∧ q.shape = sum.shape) :
    ∃ p, addPatterns sum operands = .ok p ∧ p.shape = sum.shape := by
  induction operands generalizing sum with
  | nil => exact ⟨sum, rfl, rfl⟩
  | cons c cs ih =>
    obtain ⟨⟨q, pattern, shape⟩, rest⟩ := List.forall_mem_cons.mp each
    obtain ⟨next, added⟩ := Pattern.add_ok shape.symm
    have same := (Pattern.add_eq_ok added).2
    rw [← same] at rest
    obtain ⟨p, done, shape⟩ := ih rest
    refine ⟨p, ?_, shape.trans same⟩
    rw [addPatterns, computedPattern_eq_ok.mpr pattern, ok_bind, added, ok_bind, done]

structure Shaped (x : Node) (p : Pattern) : Prop where
  indices : x.indices = some x.own
  pattern : x.pattern = some p
  shape : p.shape = x.own.shape

/-- The descriptor of a product is read as it was written. -/
def Readable (x : Node) : Prop :=
  x.kind.multiplies = true → ∀ left right, x.children = [left, right] →
    Descriptor.Readable ⟨left.own.names, right.own.names, x.own.names⟩

/-- What the shape of a pattern rests on: tensors have patterns of their shape, sums have summands,
and matrix products come from contractions. -/
structure Regular (x : Node) : Prop where
  tensor : ∀ t, x.kind = .leaf t → t.pattern.shape = t.shape
  summand : x.kind = .add → x.children ≠ []
  noGemm : ∀ g, x.kind ≠ .gemm g

section
variable {x : Node}

theorem known_of_children (formed : x.WellFormed) (summand : x.kind = .add → x.children ≠ [])
    (each : ∀ c ∈ x.children, c.indices = some c.own) : x.indices = some x.own := by
  have known {i : Indices} (h : x.indices = some i) : x.indices = some x.own := by
    rw [own_of_indices h, h]
  have child {c : Node} (hc : c ∈ x.children) (same : c.indices = x.indices) :
      x.indices = some x.own := by
    exact known (same.symm.trans (each c hc))
  have fits := formed.fits
  cases kind : x.kind with
  | leaf =>
    rw [kind] at fits
    obtain ⟨i, indices, -⟩ := fits
    exact known indices
  | indexSum =>
    rw [kind] at fits
    obtain ⟨i, term, indices, -⟩ := fits
    exact known indices
  | product | contraction | gemm =>
    rw [kind] at fits
    obtain ⟨i, left, right, indices, -⟩ := fits
    exact known indices
  | assign =>
    rw [kind] at fits
    obtain ⟨i, target, value, tensor, indices, -⟩ := fits
    exact known indices
  | einsum =>
    rw [kind] at fits
    exact fits.elim
  | add =>
    rw [kind] at fits
    obtain ⟨c, hc⟩ := List.exists_mem_of_ne_nil x.children (summand kind)
    exact child hc ((fits c hc).resolve_left (by simp [each c hc]))
  | scale =>
    rw [kind] at fits
    obtain ⟨term, children, same⟩ := fits
    exact child (by simp [children]) same

theorem indices_of_shaped (formed : x.WellFormed) (regular : x.Regular)
    (each : ∀ c ∈ x.children, ∃ q, Shaped c q) : x.indices = some x.own := by
  refine known_of_children formed regular.summand fun c hc => ?_
  obtain ⟨q, shaped⟩ := each c hc
  exact shaped.indices

/-- A node whose descriptor can be read finds a pattern of its shape. -/
theorem patternFromChildren_ok (formed : x.WellFormed) (regular : x.Regular)
    (each : ∀ c ∈ x.children, ∃ q, Shaped c q) (readable : x.Readable) :
    ∃ p, x.patternFromChildren = .ok p ∧ p.shape = x.own.shape := by
  have known := indices_of_shaped formed regular each
  have fits := formed.fits
  have own := formed.children
  cases kind : x.kind with
  | leaf t =>
    rw [kind] at fits
    obtain ⟨i, indices, extents, -⟩ := fits
    refine ⟨t.pattern, by rw [patternFromChildren, kind]; rfl, ?_⟩
    rw [regular.tensor t kind, ← extents, own_of_indices indices]
  | einsum =>
    rw [kind] at fits
    exact fits.elim
  | gemm g => exact absurd kind (regular.noGemm g)
  | add =>
    rw [kind] at fits
    have shaped : ∀ c ∈ x.children, ∃ q, c.pattern = some q ∧ q.shape = x.own.shape := by
      intro c hc
      obtain ⟨q, shaped⟩ := each c hc
      have same := (fits c hc).resolve_left (by simp [shaped.indices])
      exact ⟨q, shaped.pattern, by rw [shaped.shape, own_eq same]⟩
    cases children : x.children with
    | nil => exact absurd children (regular.summand kind)
    | cons first rest =>
      rw [children] at shaped
      obtain ⟨⟨q, pattern, shape⟩, others⟩ := List.forall_mem_cons.mp shaped
      rw [← shape] at others
      obtain ⟨p, done, same⟩ := addPatterns_ok others
      refine ⟨p, ?_, same.trans shape⟩
      simp only [patternFromChildren, kind, children]
      rw [computedPattern_eq_ok.mpr pattern, ok_bind, done]
  | scale =>
    rw [kind] at fits
    obtain ⟨term, children, same⟩ := fits
    obtain ⟨q, shaped⟩ := each term (by simp [children])
    refine ⟨q, ?_, by rw [shaped.shape, own_eq same]⟩
    simp only [patternFromChildren, kind, Node.term, children, List.head?_cons, ok_bind]
    exact computedPattern_eq_ok.mpr shaped.pattern
  | assign =>
    rw [kind] at fits
    obtain ⟨i, target, value, _, indices, children, -, -, same⟩ := fits
    obtain ⟨q, shaped⟩ := each value (by simp [children])
    refine ⟨q, ?_, by rw [shaped.shape, own_eq (same.trans indices.symm)]⟩
    simp only [patternFromChildren, kind, operands, children, ok_bind]
    exact computedPattern_eq_ok.mpr shaped.pattern
  | indexSum =>
    rw [kind] at fits
    obtain ⟨i, term, indices, children, operand, sums⟩ := fits
    obtain rfl := own_of_indices indices
    obtain ⟨q, shaped⟩ := each term (by simp [children])
    have distinct := (own term (by simp [children])).own
    have rank : term.own.names.length = q.shape.length := by
      rw [shaped.shape, Indices.length_names, Indices.length_shape]
    have extents : ∀ d ∈ x.own.dims,
        (term.own.names.zip q.shape).lookup d.name = some d.extent := by
      intro d hd
      rw [shaped.shape]
      exact Indices.lookup_extent distinct ((sums.kept d).mp hd).1
    obtain ⟨p, done, shape⟩ := Pattern.reduce_ok rank (Indices.mapM_extents extents)
    refine ⟨p, ?_, shape⟩
    simp only [patternFromChildren, kind, Node.term, children, List.head?_cons, ok_bind,
      deducedIndices_eq_ok.mpr operand, deducedIndices_eq_ok.mpr known,
      computedPattern_eq_ok.mpr shaped.pattern, done]
  | product | contraction =>
    rw [kind] at fits
    obtain ⟨i, left, right, indices, children, hl, hr, contracts⟩ := fits
    obtain rfl := own_of_indices indices
    obtain ⟨a, shapedA⟩ := each left (by simp [children])
    obtain ⟨b, shapedB⟩ := each right (by simp [children])
    have multiplies : x.kind.multiplies = true := by
      rw [kind]
      rfl
    obtain ⟨p, product, shape⟩ := einsum_ok (own left (by simp [children])).own
      (own right (by simp [children])).own contracts.agree
      (fun d hd => ((contracts.kept d).mp hd).1) shapedA.shape shapedB.shape
      (readable multiplies left right children)
    refine ⟨p, (patternFromChildren_product multiplies children hl hr indices).mpr ?_, shape⟩
    exact ⟨a, b, shapedA.pattern, shapedB.pattern, product⟩

/-- A node that has found its pattern has read its descriptor. -/
theorem readable_of_patternFromChildren {p : Pattern}
    (known : x.indices = some x.own) (each : ∀ c ∈ x.children, ∃ q, Shaped c q)
    (h : x.patternFromChildren = .ok p) : x.Readable := by
  intro multiplies left right children
  obtain ⟨a', shapedA⟩ := each left (by simp [children])
  obtain ⟨b', shapedB⟩ := each right (by simp [children])
  obtain ⟨a, b, patternA, patternB, product⟩ :=
    (patternFromChildren_product multiplies children shapedA.indices shapedB.indices known).mp h
  obtain rfl := Option.some.inj (shapedA.pattern.symm.trans patternA)
  obtain rfl := Option.some.inj (shapedB.pattern.symm.trans patternB)
  refine Pattern.readable_of_einsum ?_ ?_ product
  · rw [shapedA.shape, Indices.length_shape, Indices.length_names]
  · rw [shapedB.shape, Indices.length_shape, Indices.length_names]

end

/-! ### Trees -/

section
variable {n : Node} {done : List Node}

/-- Children that stand for those of a node keep what the node demands. -/
theorem Regular.of_children {R : Node → Node → Prop} (h : n.Regular)
    (each : List.Forall₂ R n.children done) : Regular { n with children := done } := by
  refine ⟨h.tensor, fun add empty => h.summand add ?_, h.noGemm⟩
  dsimp only at empty
  rw [empty] at each
  exact List.forall₂_nil_right_iff.mp each

theorem readable_children (same : List.Forall₂ (fun c d => d.indices = c.indices) n.children done) :
    Readable { n with children := done } ↔ n.Readable := by
  have own : own { n with children := done } = n.own := rfl
  constructor
  · intro h multiplies left right children
    rw [children] at same
    obtain ⟨l, r, operands, hl, hr⟩ := forall₂_two same
    have readable := h multiplies l r operands
    rwa [own_eq hl, own_eq hr] at readable
  · intro h multiplies left right children
    dsimp only at children
    rw [children] at same
    obtain ⟨l, r, operands, hl, hr⟩ := forall₂_two same.flip
    have readable := h multiplies l r operands
    rwa [own, own_eq hl, own_eq hr]

theorem wellFormed_children (formed : n.WellFormed)
    (all : List.Forall₂ (fun c d => c.annotate withPattern = .ok d) n.children done) :
    WellFormed { n with children := done } := by
  have rebuilt : Rebuilt (R := Nat) 0 n { n with children := done } :=
    ⟨rfl, rfl, all.imp fun c d annotated =>
      (annotate_rebuilt 0 annotates_withPattern annotated).refines 0⟩
  exact (rebuilt.refines 0).wellFormed formed

end

theorem withPattern_eq_ok {n m : Node} :
    n.withPattern = .ok m ↔
      ∃ p, n.patternFromChildren = .ok p ∧ { n with pattern := some p } = m := by
  simp only [withPattern, bind_eq_ok, pure_eq_ok]

/-- Patterns of a tree are found if all descriptors are read as they were written. -/
theorem propagateSparsity_ok {n : Node} (formed : n.WellFormed) (regular : n.Everywhere Regular)
    (readable : n.Everywhere Readable) :
    ∃ m p, n.propagateSparsity = .ok m ∧ m.indices = n.indices ∧ Shaped m p := by
  induction n using Node.induction with
  | node kind indices pattern layout prefetch children ih =>
    obtain ⟨done, each⟩ := forall₂_of_exists fun c hc =>
      ih c hc (formed.children c hc) (regular.children c hc) (readable.children c hc)
    have all := each.imp fun _ _ ⟨_, annotated, _⟩ => annotated
    have same := each.imp fun _ _ ⟨_, _, same, _⟩ => same
    have shaped : ∀ d ∈ done, ∃ q, Shaped d q := by
      intro d hd
      obtain ⟨c, -, q, -, -, shaped⟩ := exists_of_forall₂_right each hd
      exact ⟨q, shaped⟩
    let n : Node := ⟨kind, indices, pattern, layout, prefetch, children⟩
    have formed' := wellFormed_children (n := n) formed all
    have regular' := Regular.of_children (n := n) regular.root all
    have known := indices_of_shaped formed' regular' shaped
    obtain ⟨p, found, shape⟩ := patternFromChildren_ok formed' regular' shaped
      ((readable_children (n := n) same).mpr readable.root)
    refine ⟨_, p, annotate_eq_ok.mpr ⟨done, all, withPattern_eq_ok.mpr ⟨p, found, rfl⟩⟩, rfl, ?_⟩
    exact ⟨known, rfl, shape⟩

/-- Patterns that were found have the right shapes, and all descriptors could be read. -/
theorem shaped_of_propagateSparsity {n m : Node} (formed : n.WellFormed)
    (tensors : n.Everywhere fun x => ∀ t, x.kind = .leaf t → t.pattern.shape = t.shape)
    (noGemm : n.Everywhere fun x => ∀ g, x.kind ≠ .gemm g) (h : n.propagateSparsity = .ok m) :
    n.Everywhere Readable ∧ m.Everywhere fun x => ∃ p, Shaped x p := by
  induction n using Node.induction generalizing m with
  | node kind indices pattern layout prefetch children ih =>
    obtain ⟨done, all, passed⟩ := annotate_eq_ok.mp h
    obtain ⟨p, found, rfl⟩ := withPattern_eq_ok.mp passed
    have each (c : Node) (hc : c ∈ children) {d : Node} (annotated : c.propagateSparsity = .ok d) :=
      ih c hc (formed.children c hc) (tensors.children c hc) (noGemm.children c hc) annotated
    have shaped : ∀ d ∈ done, ∃ q, Shaped d q := by
      intro d hd
      obtain ⟨c, hc, annotated⟩ := exists_of_forall₂_right all hd
      exact (each c hc annotated).2.root
    have formed' := wellFormed_children formed all
    have regular : Regular ⟨kind, indices, pattern, layout, prefetch, done⟩ := by
      exact ⟨tensors.root, fun add => summand_of_patternFromChildren add found, noGemm.root⟩
    have known := indices_of_shaped formed' regular shaped
    have readable := readable_of_patternFromChildren known shaped found
    obtain ⟨q, same, shape⟩ := patternFromChildren_ok formed' regular shaped readable
    obtain rfl := Except.ok.inj (same.symm.trans found)
    have indices := all.imp fun c d annotated =>
      (annotate_rebuilt (R := Nat) 0 annotates_withPattern annotated).indices
    constructor
    · refine everywhere_iff.mpr ⟨(readable_children indices).mp readable, fun c hc => ?_⟩
      obtain ⟨d, -, annotated⟩ := exists_of_forall₂_right all.flip hc
      exact (each c hc annotated).1
    · refine everywhere_iff.mpr ⟨⟨q, known, rfl, shape⟩, fun d hd => ?_⟩
      obtain ⟨c, hc, annotated⟩ := exists_of_forall₂_right all hd
      exact (each c hc annotated).2

/-- Patterns of a tree are found exactly if all descriptors are read as they were written. -/
theorem propagateSparsity_iff {n : Node} (formed : n.WellFormed) (regular : n.Everywhere Regular) :
    (∃ m, n.propagateSparsity = .ok m) ↔ n.Everywhere Readable := by
  constructor
  · rintro ⟨m, propagated⟩
    exact (shaped_of_propagateSparsity formed (regular.mono fun x h => h.tensor)
      (regular.mono fun x h => h.noGemm) propagated).1
  · intro readable
    obtain ⟨m, -, propagated, -⟩ := propagateSparsity_ok formed regular readable
    exact ⟨m, propagated⟩

end Node

end TensorKernel
