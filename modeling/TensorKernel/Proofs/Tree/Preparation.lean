import TensorKernel.Proofs.Tree.Sparsity

/-!
What preparation knows of every node of a tree.

* `Known`: indices and pattern, once patterns are propagated;
* `Placed`: where the value is stored, once layouts are computed;
* `prepare_finished`: both hold in a prepared tree, which is well-formed.
-/

namespace TensorKernel.Node

structure Known (x : Node) (p : Pattern) : Prop where
  indices : x.indices = some x.own
  pattern : x.pattern = some p
  sized : p.Sized
  rank : p.shape.length = x.own.size
  leaf : ∀ t, x.kind = .leaf t → p = t.pattern
  summand : x.kind = .add → x.children ≠ []

/-- A tensor is stored as it says and an assignment where its target is; other results are stored as
a whole, or as the box of their pattern. -/
def Placed (config : Config) (x : Node) (l : Layout) : Prop :=
  x.storage? = some l ∧
    match x.kind with
    | .leaf _ => True
    | .assign => ∃ target value, x.children = [target, value] ∧ target.storage? = some l
    | .einsum | .add | .scale _ | .indexSum _ | .product | .contraction _ | .gemm _ =>
      if config.simpleLayouts then l = .full x.own.shape
      else ∃ p width, x.pattern = some p ∧ l = .ofPattern p width

/-- All that preparation finds out about a node. -/
def Finished (config : Config) (x : Node) : Prop := ∃ p l, Known x p ∧ Placed config x l

section
variable {x y : Node} {p : Pattern}

theorem known_of_supported {R : Type} [CommSemiring R] {scalars : Factor → R}
    {σ : Store (Entry → R)} (spec : Supported scalars σ x p) (found : Propagated x) :
    Known x p := by
  obtain ⟨q, pattern, found⟩ := found
  obtain rfl := Option.some.inj (spec.pattern.symm.trans pattern)
  refine ⟨spec.known, pattern, spec.sized, spec.rank, fun t leaf => ?_,
    fun add => summand_of_patternFromChildren add found⟩
  rw [patternFromChildren, leaf] at found
  exact (pure_eq_ok.mp found).symm

/-- Patterns are known in every tree in which they have been propagated. -/
theorem known_of_propagate {r n : Node} (formed : r.WellFormed)
    (tensors : r.Everywhere fun x => ∀ t, x.kind = .leaf t → t.Constructed)
    (h : r.propagateSparsity = .ok n) : n.Everywhere fun x => ∃ p, Known x p := by
  let zero : Store (Entry → Nat) := fun _ _ => 0
  have whole := annotate_wellFormed annotates_withPattern formed h
  have made := annotate_everywhere (ofKind_tensors _) annotates_withPattern tensors h
  have supported := everywhere_supported 0 zero whole (everywhere_propagated h)
    (made.mono fun x hx t leaf => ⟨hx t leaf, fun _ _ nonzero => absurd rfl nonzero⟩)
  intro x hx
  obtain ⟨p, spec⟩ := supported x hx
  exact ⟨p, known_of_supported spec (everywhere_propagated h x hx)⟩

theorem Known.carried {K : Node → Node → Prop} (h : Known x p) (carries : Carries x y)
    (children : List.Forall₂ K x.children y.children) : Known y p := by
  have own : y.own = x.own := own_eq carries.indices
  refine ⟨?_, carries.pattern.trans h.pattern, h.sized, own ▸ h.rank, fun t leaf => ?_,
    fun add empty => ?_⟩
  · rw [carries.indices, own, h.indices]
  · rcases carries.kind with same | ⟨-, g, gemm⟩
    · exact h.leaf t (same.symm.trans leaf)
    · cases gemm.symm.trans leaf
  · rcases carries.kind with same | ⟨-, g, gemm⟩
    · rw [empty] at children
      exact h.summand (same.symm.trans add) (List.forall₂_nil_right_iff.mp children)
    · cases gemm.symm.trans add

/-! ### Layouts -/

theorem computedLayout_eq_ok {n : Node} {l : Layout} :
    n.computedLayout = .ok l ↔ n.storage? = some l := by
  unfold computedLayout
  split <;> simp [*]

theorem operands_eq_ok {n left right : Node} :
    n.operands = .ok (left, right) ↔ n.children = [left, right] := by
  unfold operands
  split
  · next children => simp [children]
  · next other =>
    constructor
    · intro h
      exact absurd h violates_ne_ok
    · intro children
      exact absurd children (other left right)

theorem resultLayout_eq_ok {config : Config} {n : Node} {l : Layout}
    (h : n.resultLayout config = .ok l) :
    if config.simpleLayouts then l = .full n.own.shape
    else ∃ p width, n.pattern = some p ∧ l = .ofPattern p width := by
  unfold resultLayout at h
  split at h
  · next simple =>
    simp only [shape, bind_eq_ok, deducedIndices_eq_ok, pure_eq_ok] at h
    obtain ⟨_, ⟨i, known, rfl⟩, rfl⟩ := h
    rw [if_pos simple, own_of_indices known]
  · next tight =>
    simp only [bind_eq_ok, computedPattern_eq_ok, pure_eq_ok] at h
    obtain ⟨p, pattern, rfl⟩ := h
    rw [if_neg tight]
    exact ⟨p, _, pattern, rfl⟩

theorem placed_of_withLayout {config : Config} {n m : Node} (h : n.withLayout config = .ok m) :
    ∃ l, Placed config m l := by
  obtain ⟨kind, indices, pattern, layout, prefetch, children⟩ := n
  cases kind with
  | leaf t =>
    obtain rfl := pure_eq_ok.mp h
    exact ⟨t.layout, rfl, trivial⟩
  | assign =>
    simp only [withLayout, bind_eq_ok, pure_eq_ok, Prod.exists, operands_eq_ok,
      computedLayout_eq_ok] at h
    obtain ⟨target, value, operands, l, stored, rfl⟩ := h
    exact ⟨l, rfl, target, value, operands, stored⟩
  | einsum | add | scale | indexSum | product | contraction | gemm =>
    simp only [withLayout, bind_eq_ok, pure_eq_ok] at h
    obtain ⟨l, done, rfl⟩ := h
    exact ⟨l, rfl, resultLayout_eq_ok done⟩

theorem carries_withLayout {config : Config} (n : Node) (children : List Node) (m : Node)
    (h : withLayout config { n with children } = .ok m) : Carries n m ∧ m.children = children := by
  obtain ⟨layout, rfl⟩ := withLayout_eq_ok h
  exact ⟨⟨.inl rfl, rfl, rfl⟩, rfl⟩

theorem Mapped.storage (h : Mapped x y) : y.storage? = x.storage? := by
  rcases h.kind with same | ⟨⟨sum, contraction⟩, g, gemm⟩
  · rw [storage?, storage?, same, h.layout]
  · rw [storage?, storage?, gemm, contraction, h.layout]

theorem Placed.mapped {config : Config} {l : Layout} (h : Placed config x l) (mapped : Mapped x y)
    (children : List.Forall₂ Mapped x.children y.children) : Placed config y l := by
  obtain ⟨stored, place⟩ := h
  refine ⟨mapped.storage.trans stored, ?_⟩
  rcases mapped.kind with same | ⟨⟨sum, contraction⟩, g, gemm⟩
  · rw [same, own_eq mapped.indices, mapped.pattern]
    cases kind : x.kind with
    | assign =>
      rw [kind] at place
      obtain ⟨target, value, operands, stored⟩ := place
      rw [operands] at children
      obtain ⟨t, v, operands, ht, -⟩ := forall₂_two children
      exact ⟨t, v, operands, ht.storage.trans stored⟩
    | leaf | einsum | add | scale | indexSum | product | contraction | gemm =>
      rw [kind] at place
      exact place
  · rw [gemm, own_eq mapped.indices, mapped.pattern]
    rw [contraction] at place
    exact place

end

/-- Layouts that are computed behind the patterns. -/
theorem placed_of_computeLayouts {config : Config} {r p l : Node} (formed : r.WellFormed)
    (tensors : r.Everywhere fun x => ∀ t, x.kind = .leaf t → t.Constructed)
    (propagated : r.propagateSparsity = .ok p) (laid : p.computeLayouts config = .ok l) :
    l.WellFormed ∧ (l.Everywhere fun x => ∀ t, x.kind = .leaf t → t.Constructed) ∧
      l.Everywhere fun x => ∃ stored, Placed config x stored := by
  have annotates := annotates_withLayout config
  have made := annotate_everywhere (ofKind_tensors _) annotates_withPattern tensors propagated
  have formed := annotate_wellFormed annotates_withPattern formed propagated
  exact ⟨annotate_wellFormed annotates formed laid,
    annotate_everywhere (ofKind_tensors _) annotates made laid,
    everywhere_of_annotate annotates (fun _ _ => placed_of_withLayout) laid⟩

/-- What the passes behind resolution find out about a well-formed tree. -/
theorem finished_of_stages {config : Config} {r p l m : Node} (formed : r.WellFormed)
    (tensors : r.Everywhere fun x => ∀ t, x.kind = .leaf t → t.Constructed)
    (propagated : r.propagateSparsity = .ok p) (laid : p.computeLayouts config = .ok l)
    (mapped : m = l ∨ ∃ count, l.mapContractions Gemm.naturalPartitions = .ok (m, count)) :
    m.WellFormed ∧ (m.Everywhere fun x => ∀ t, x.kind = .leaf t → t.Constructed) ∧
      m.Everywhere (Finished config) := by
  have patterns := known_of_propagate formed tensors propagated
  obtain ⟨formed', made, places⟩ := placed_of_computeLayouts formed tensors propagated laid
  have finished : l.Everywhere (Finished config) := by
    intro y hy
    obtain ⟨place, placed⟩ := places y hy
    obtain ⟨x, hx, carries, children⟩ := exists_of_annotate carries_withLayout laid hy
    obtain ⟨pattern, known⟩ := patterns x hx
    exact ⟨pattern, place, known.carried carries children, placed⟩
  rcases mapped with rfl | ⟨count, mapped⟩
  · exact ⟨formed', made, finished⟩
  · refine ⟨(mapContractions_refines (R := Nat) 0 mapped).wellFormed formed',
      mapContractions_everywhere (ofKind_tensors _) made mapped, fun y hy => ?_⟩
    obtain ⟨x, hx, carries, children⟩ := exists_of_mapContractions mapped hy
    obtain ⟨pattern, place, known, placed⟩ := finished x hx
    exact ⟨pattern, place, known.carried carries.toCarries children,
      placed.mapped carries children⟩

/-- A prepared tree is well-formed, and everything that passes find out is known of its nodes. -/
theorem prepare_finished {config : Config} {n m : Node} (composed : n.Composed)
    (tensors : n.Everywhere fun x => ∀ t, x.kind = .leaf t → t.Constructed)
    (h : n.prepare config = .ok m) :
    m.WellFormed ∧ (m.Everywhere fun x => ∀ t, x.kind = .leaf t → t.Constructed) ∧
      m.Everywhere (Finished config) := by
  obtain ⟨r, p, l, resolved, propagated, laid, mapped⟩ := prepare_stages h
  obtain ⟨formed, -⟩ := composed.resolveTo none r (by simp) resolved
  have tensors := resolveTo_everywhere (ofKind_tensors _).stable tensors resolved
  exact finished_of_stages formed tensors propagated laid mapped

end TensorKernel.Node
