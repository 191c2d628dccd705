import TensorKernel.Proofs.Layout.Cover
import TensorKernel.Proofs.Tree.Preparation
import TensorKernel.Proofs.Tree.Shape

/-!
Whether the layouts of a prepared tree store all non-zero entries. Layouts that come from a pattern
do. An assignment stores where its target does, and loses what lies outside the box of the pattern
that the target declares. That nothing does is not checked.

* `Layout.Keeps`: a layout stores the non-zero entries of a pattern;
* `Node.Covers`: when the layout of a node does;
* `prepare_keeps`: every node of a prepared tree.
-/

namespace TensorKernel

def Layout.Keeps (l : Layout) (p : Pattern) : Prop :=
  ∀ e, p.isNonzero e = true → (l.address? e).isSome = true

/-- A tensor stores the box of its pattern. -/
theorem Tensor.Constructed.isSome_address? {t : Tensor} (h : t.Constructed) (e : Entry) :
    (t.layout.address? e).isSome = (Box.ofPattern t.pattern).contains e := by
  obtain ⟨-, -, ⟨pattern, layout⟩ | layout⟩ := h.pattern
  · rw [layout, pattern, Layout.isSome_address?_full, Box.contains_ofPattern_dense]
  · rw [layout, Layout.isSome_address?]
    rfl

namespace Node

/-- What has to hold for the layout of a node to store a pattern. The box of the target has to
contain what is assigned; where results are stored as a whole, their indices have to have the
extents of the pattern. -/
def Covers (config : Config) (x : Node) (p : Pattern) : Prop :=
  match x.kind with
  | .leaf _ => True
  | .assign => ∀ target value t, x.children = [target, value] → target.kind = .leaf t →
      ∀ e, p.isNonzero e = true → (Box.ofPattern t.pattern).contains e = true
  | .einsum | .add | .scale _ | .indexSum _ | .product | .contraction _ | .gemm _ =>
    config.simpleLayouts = true → ∀ e, p.isNonzero e = true → Shape.holds x.own.shape e = true

section
variable {config : Config} {x : Node} {p : Pattern} {l : Layout}

theorem keeps_leaf {t : Tensor} (kind : x.kind = .leaf t) (made : t.Constructed) (known : Known x p)
    (placed : Placed config x l) : l.Keeps p := by
  have layout : some t.layout = some l := by
    rw [← placed.1, storage?, kind]
  obtain rfl := Option.some.inj layout
  rw [known.leaf t kind]
  intro e nonzero
  rw [made.isSome_address?, Box.contains_ofPattern nonzero]

theorem keeps_assign (formed : x.WellFormed) (kind : x.kind = .assign)
    (tensors : ∀ c ∈ x.children, ∀ t, c.kind = .leaf t → t.Constructed)
    (placed : Placed config x l) : l.Keeps p ↔ x.Covers config p := by
  have fits := formed.fits
  rw [kind] at fits
  obtain ⟨i, target, value, t, -, children, leaf, -⟩ := fits
  have place := placed.2
  rw [kind] at place
  obtain ⟨_, _, same, stored⟩ := place
  rw [children] at same
  cases same
  have layout : some t.layout = some l := by
    rw [← stored, storage?, leaf]
  obtain rfl := Option.some.inj layout
  have made := tensors target (by simp [children]) t leaf
  rw [Covers, kind]
  constructor
  · intro keeps target' value' t' children' leaf' e nonzero
    rw [children] at children'
    cases children'
    cases leaf.symm.trans leaf'
    rw [← made.isSome_address?, keeps e nonzero]
  · intro covers e nonzero
    rw [made.isSome_address?]
    exact covers target value t children leaf e nonzero

/-- A result is stored as a whole or as the box of its pattern. -/
theorem keeps_result (leaf : x.kind.isLeaf = false) (assign : x.kind ≠ .assign)
    (known : Known x p) (placed : Placed config x l) :
    (l.Keeps p ↔ x.Covers config p) ∧ (p.shape = x.own.shape → l.Keeps p) := by
  obtain ⟨-, place⟩ := placed
  have result : if config.simpleLayouts then l = .full x.own.shape
      else ∃ p width, x.pattern = some p ∧ l = .ofPattern p width := by
    cases kind : x.kind with
    | leaf | assign => simp [kind, Kind.isLeaf] at leaf assign
    | einsum | add | scale | indexSum | product | contraction | gemm =>
      rw [kind] at place
      exact place
  have covers : x.Covers config p ↔ (config.simpleLayouts = true →
      ∀ e, p.isNonzero e = true → Shape.holds x.own.shape e = true) := by
    cases kind : x.kind with
    | leaf | assign => simp [kind, Kind.isLeaf] at leaf assign
    | einsum | add | scale | indexSum | product | contraction | gemm => rw [Covers, kind]
  rw [covers]
  split at result
  · next simple =>
    subst result
    simp only [Layout.Keeps, Layout.isSome_address?_full]
    refine ⟨⟨fun keeps _ => keeps, fun covers => covers simple⟩, fun shape e nonzero => ?_⟩
    rw [← shape]
    exact Pattern.holds_of_isNonzero nonzero
  · next tight =>
    obtain ⟨q, width, pattern, rfl⟩ := result
    obtain rfl := Option.some.inj (known.pattern.symm.trans pattern)
    have keeps : (Layout.ofPattern p width).Keeps p := fun e nonzero =>
      Layout.isSome_address?_ofPattern nonzero width
    exact ⟨⟨fun _ simple => absurd simple tight, fun _ => keeps⟩, fun _ => keeps⟩

theorem Shaped.carried {y : Node} (h : Shaped x p) (carries : Carries x y) : Shaped y p := by
  have own : y.own = x.own := own_eq carries.indices
  exact ⟨by rw [carries.indices, own, h.indices], carries.pattern.trans h.pattern, by
    rw [own, h.shape]⟩

end

/-- The patterns of a well-formed tree have the shapes of their nodes, unless it has matrix products
before patterns are propagated. -/
theorem shaped_of_stages {config : Config} {r p l m : Node} (formed : r.WellFormed)
    (tensors : r.Everywhere fun x => ∀ t, x.kind = .leaf t → t.Constructed)
    (noGemm : r.Everywhere fun x => ∀ g, x.kind ≠ .gemm g)
    (propagated : r.propagateSparsity = .ok p) (laid : p.computeLayouts config = .ok l)
    (mapped : m = l ∨ ∃ count, l.mapContractions Gemm.naturalPartitions = .ok (m, count)) :
    m.Everywhere fun x => ∃ p, Shaped x p := by
  obtain ⟨-, shaped⟩ := shaped_of_propagateSparsity formed
    (tensors.mono fun x made t leaf => (made t leaf).pattern.2.1) noGemm propagated
  have placed : l.Everywhere fun x => ∃ p, Shaped x p := by
    intro y hy
    obtain ⟨x, hx, carries, -⟩ := exists_of_annotate carries_withLayout laid hy
    obtain ⟨q, shape⟩ := shaped x hx
    exact ⟨q, shape.carried carries⟩
  rcases mapped with rfl | ⟨count, mapped⟩
  · exact placed
  · intro y hy
    obtain ⟨x, hx, carries, -⟩ := exists_of_mapContractions mapped hy
    obtain ⟨q, shape⟩ := placed x hx
    exact ⟨q, shape.carried carries.toCarries⟩

/-- Without matrix products that were built by hand, patterns have the shapes of their nodes. -/
theorem prepare_shaped {config : Config} {n m : Node} (built : n.Constructed)
    (noGemm : n.Everywhere fun x => ∀ g, x.kind ≠ .gemm g) (h : n.prepare config = .ok m) :
    m.Everywhere fun x => ∃ p, Shaped x p := by
  obtain ⟨r, p, l, resolved, propagated, laid, mapped⟩ := prepare_stages h
  obtain ⟨formed, -⟩ := built.composed.resolveTo none r (by simp) resolved
  exact shaped_of_stages formed
    (resolveTo_everywhere (ofKind_tensors _).stable built.tensors resolved)
    (resolveTo_everywhere stable_noGemm noGemm resolved) propagated laid mapped

/-- Layouts and patterns of a prepared tree. The layout of a node stores the non-zero entries of its
pattern exactly if it covers them; only assignments, and results over matrix products that were built
by hand, may fail to. -/
theorem prepare_keeps {config : Config} {n m x : Node} (built : n.Constructed)
    (prepared : n.prepare config = .ok m) (hx : x ∈ m.postorder) :
    ∃ p l, x.pattern = some p ∧ x.storage? = some l ∧ (l.Keeps p ↔ x.Covers config p) ∧
      (x.kind ≠ .assign → (∀ y ∈ n.postorder, ∀ g, y.kind ≠ .gemm g) → l.Keeps p) := by
  obtain ⟨formed, tensors, finished⟩ := prepare_finished built.composed built.tensors prepared
  obtain ⟨p, l, known, placed⟩ := finished x hx
  have made (c : Node) (hc : c ∈ x.children) : ∀ t, c.kind = .leaf t → t.Constructed :=
    ((tensors.subtree hx).children c hc).root
  refine ⟨p, l, known.pattern, placed.1, ?_⟩
  cases leaf : x.kind.isLeaf with
  | true =>
    obtain ⟨t, kind⟩ := Kind.isLeaf_iff.mp leaf
    have keeps := keeps_leaf kind (tensors x hx t kind) known placed
    refine ⟨⟨fun _ => ?_, fun _ => keeps⟩, fun _ _ => keeps⟩
    rw [Covers, kind]
    trivial
  | false =>
    by_cases assign : x.kind = .assign
    · exact ⟨keeps_assign (formed.everywhere x hx) assign made placed,
        fun other => absurd assign other⟩
    · obtain ⟨keeps, whole⟩ := keeps_result leaf assign known placed
      refine ⟨keeps, fun _ noGemm => ?_⟩
      obtain ⟨q, shaped⟩ := prepare_shaped built noGemm prepared x hx
      obtain rfl := Option.some.inj (known.pattern.symm.trans shaped.pattern)
      exact whole shaped.shape

/-- The statement `C_ij = s A_ij`, where `C` has an entry in its upper left corner only. -/
def cornerUpdate : Result Node := do
  let c ← indexed (flagged "C" [true, false, false, false]) ['i', 'j']
  let a ← indexed (← Tensor.ofName "A" [2, 2]) ['i', 'j']
  c.assignment (← scale (.named "s") a)

theorem constructed_cornerUpdate {n : Node} (h : cornerUpdate = .ok n) : n.Constructed := by
  simp only [cornerUpdate, bind_eq_ok] at h
  obtain ⟨c, hc, _, made, a, ha, s, scaled, done⟩ := h
  exact .assignment (.indexed (constructed_flagged (by decide) rfl) hc)
    (.scale (.indexed (.ofName made) ha) scaled) done

theorem prepare_keeps_cornerUpdate : ∃ n m p l, cornerUpdate = .ok n ∧ n.Constructed ∧
    n.prepare .standard = .ok m ∧ m.pattern = some p ∧ m.storage? = some l ∧
    (l.Keeps p ↔ m.Covers .standard p) ∧ ¬m.Covers .standard p := by
  refine ⟨_, _, _, _, rfl, constructed_cornerUpdate rfl, rfl, rfl, rfl, ?_⟩
  obtain ⟨p, l, pattern, stored, keeps, -⟩ := prepare_keeps (constructed_cornerUpdate rfl)
    (show prepare .standard _ = .ok _ from rfl) (mem_postorder.mpr (.inl rfl))
  obtain rfl := Option.some.inj pattern
  obtain rfl := Option.some.inj stored
  refine ⟨keeps, fun covers => ?_⟩
  exact absurd (keeps.mpr covers [1, 0] rfl) (by decide)

/-- A statement that is accepted although the layout of its target has no place for most of the
value. -/
theorem corner_lost : ∃ n m p l, cornerUpdate = .ok n ∧ n.Constructed ∧
    n.prepare .standard = .ok m ∧ m.pattern = some p ∧ m.storage? = some l ∧
    p.isNonzero [1, 0] = true ∧ l.address? [1, 0] = none :=
  ⟨_, _, _, _, rfl, constructed_cornerUpdate rfl, rfl, rfl, rfl, rfl, rfl⟩

end Node

end TensorKernel
