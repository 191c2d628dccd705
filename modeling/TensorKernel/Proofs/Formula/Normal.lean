import TensorKernel.Proofs.Tree.Bracketing

/-!
The trees that the operations of the user build are in normal form. No product or sum stands in
another one that could take it in, no factor stands inside a product or under another factor, and
the tensors of the formula stand in their order.

* `Normal`: one node; `leaves`: the tensors of a tree;
* `Arranges`: a normal form over tensors in their order, as each operation keeps it
  (`arranges_fold`, `arranges_scaled`, `arranges_times`);
* `build_normal`: a whole formula.
-/

namespace TensorKernel

namespace Node

/-- A node as arithmetic leaves it. Products and sums have two operands or more, none of which is of
their kind, and those of a product are not scaled; what is scaled is not scaled itself. -/
def Normal (x : Node) : Prop :=
  match x.kind with
  | .leaf _ => x.children = []
  | .einsum | .add => 2 ≤ x.children.length ∧
      ∀ c ∈ x.children, c.kind ≠ x.kind ∧ (x.kind = .einsum → c.kind.isScale = false)
  | .scale factor => ∃ term, Scaled factor term x ∧ term.kind.isScale = false
  | .indexSum _ | .product | .contraction _ | .gemm _ | .assign => False

/-- The tensors of a tree from left to right. -/
def leaves (n : Node) : List Node := n.postorder.filter fun x => x.kind.isLeaf

theorem leaves_of_inner {n : Node} (inner : n.kind.isLeaf = false) :
    n.leaves = n.children.flatMap leaves := by
  rw [leaves, postorder_eq, List.filter_append, List.filter_flatMap]
  simp [inner]
  rfl

theorem leaves_of_leaf {n : Node} (leaf : n.kind.isLeaf = true) (bare : n.children = []) :
    n.leaves = [n] := by
  rw [leaves, postorder_eq, bare]
  simp [leaf]

/-- A normal form over tensors in their order. -/
structure Arranges (xs : List Node) (n : Node) : Prop where
  normal : n.Everywhere Normal
  leaves : n.leaves = xs

section
variable {xs ys : List Node} {left right n : Node} {kind : Kind} {factor : Factor}

theorem arranges_indexed {tensor : Tensor} {names : List Char}
    (h : indexed tensor names = .ok n) : Arranges [n] n := by
  simp only [indexed, bind_eq_ok, pure_eq_ok] at h
  obtain ⟨i, -, rfl⟩ := h
  exact ⟨everywhere_iff.mpr ⟨rfl, by simp [ofKind]⟩, leaves_of_leaf rfl rfl⟩

/-! ### Products and sums -/

theorem normal_iff (hk : kind = .einsum ∨ kind = .add) (same : n.kind = kind) :
    n.Normal ↔ 2 ≤ n.children.length ∧
      ∀ c ∈ n.children, c.kind ≠ kind ∧ (kind = .einsum → c.kind.isScale = false) := by
  unfold Normal
  rcases hk with rfl | rfl <;> simp [same]

/-- The operands that a tree is in a product or a sum. -/
theorem Arranges.flattened (h : Arranges xs n) (hk : kind = .einsum ∨ kind = .add)
    (unscaled : kind = .einsum → n.kind.isScale = false) :
    (∀ c ∈ n.flattened kind, c.Everywhere Normal ∧ c.kind ≠ kind ∧
        (kind = .einsum → c.kind.isScale = false)) ∧
      n.flattened kind ≠ [] ∧ (n.flattened kind).flatMap Node.leaves = xs := by
  unfold Node.flattened
  split
  · next same =>
    obtain ⟨several, operands⟩ := (normal_iff hk same).mp h.normal.root
    have inner : n.kind.isLeaf = false := by
      rcases hk with rfl | rfl <;> rw [same] <;> rfl
    refine ⟨fun c hc => ⟨h.normal.children c hc, operands c hc⟩, ?_, ?_⟩
    · exact List.ne_nil_of_length_pos (by omega)
    · rw [← leaves_of_inner inner, h.leaves]
  · next differs =>
    refine ⟨fun c hc => ?_, List.cons_ne_nil n [], ?_⟩
    · obtain rfl := List.mem_singleton.mp hc
      exact ⟨h.normal, differs, unscaled⟩
    · rw [List.flatMap_singleton, h.leaves]

/-- Folding keeps the normal form and puts the tensors of the right operand behind those of the left
one. -/
theorem arranges_fold (hl : Arranges xs left) (hr : Arranges ys right)
    (hk : kind = .einsum ∨ kind = .add)
    (unscaledLeft : kind = .einsum → left.kind.isScale = false)
    (unscaledRight : kind = .einsum → right.kind.isScale = false) :
    Arranges (xs ++ ys) (fold kind left right) := by
  obtain ⟨operandsLeft, someLeft, leavesLeft⟩ := hl.flattened hk unscaledLeft
  obtain ⟨operandsRight, someRight, leavesRight⟩ := hr.flattened hk unscaledRight
  have same := kind_fold kind left right
  have children := children_fold kind left right
  have operands : ∀ c ∈ (fold kind left right).children, c.Everywhere Normal ∧ c.kind ≠ kind ∧
      (kind = .einsum → c.kind.isScale = false) := by
    rw [children]
    exact List.forall_mem_append.mpr ⟨operandsLeft, operandsRight⟩
  have several : 2 ≤ (fold kind left right).children.length := by
    have := List.length_pos_iff.mpr someLeft
    have := List.length_pos_iff.mpr someRight
    rw [children, List.length_append]
    omega
  have root : (fold kind left right).Normal :=
    (normal_iff hk same).mpr ⟨several, fun c hc => (operands c hc).2⟩
  have inner : (fold kind left right).kind.isLeaf = false := by
    rcases hk with rfl | rfl <;> rw [same] <;> rfl
  refine ⟨everywhere_iff.mpr ⟨root, fun c hc => (operands c hc).1⟩, ?_⟩
  rw [leaves_of_inner inner, children, List.flatMap_append, leavesLeft, leavesRight]

/-! ### Factors -/

theorem arranges_scaled {term : Node} (ht : Arranges xs term) (scaled : Scaled factor term n)
    (unscaled : term.kind.isScale = false) : Arranges xs n := by
  have root : n.Normal := by
    unfold Normal
    rw [scaled.kind]
    exact ⟨term, scaled, unscaled⟩
  refine ⟨everywhere_iff.mpr ⟨root, by simpa [scaled.children] using ht.normal⟩, ?_⟩
  rw [leaves_of_inner (by rw [scaled.kind]; rfl), scaled.children, List.flatMap_singleton, ht.leaves]

theorem arranges_scale {term : Node} (ht : Arranges xs term) (h : scale factor term = .ok n) :
    Arranges xs n :=
  arranges_scaled ht (scale_eq_ok h).2 (scale_eq_ok h).1

/-- A scaled normal form is a factor on one that is not scaled. -/
theorem Arranges.term (h : Arranges xs n) (isScale : n.kind.isScale = true) :
    ∃ factor term, Scaled factor term n ∧ term.kind.isScale = false ∧ Arranges xs term := by
  have root := h.normal.root
  unfold Normal at root
  cases kind : n.kind with
  | scale factor =>
    rw [kind] at root
    obtain ⟨term, scaled, unscaled⟩ := root
    have normal := h.normal.children term (by simp [scaled.children])
    have leaves := h.leaves
    rw [leaves_of_inner (by rw [kind]; rfl), scaled.children, List.flatMap_singleton] at leaves
    exact ⟨factor, term, scaled, unscaled, normal, leaves⟩
  | _ =>
    rw [kind] at isScale
    cases isScale

/-- The factor of an operand ends up outside the product. -/
theorem arranges_times (hl : Arranges xs left) (hr : Arranges ys right)
    (h : left.times (.node right) = .ok n) : Arranges (xs ++ ys) n := by
  have product {xs ys : List Node} {left right : Node} (hl : Arranges xs left)
      (hr : Arranges ys right) (ul : left.kind.isScale = false) (ur : right.kind.isScale = false) :
      Arranges (xs ++ ys) (left.timesNode right) :=
    arranges_fold hl hr (.inl rfl) (fun _ => ul) fun _ => ur
  unfold times at h
  cases scaledLeft : left.kind.isScale with
  | false =>
    rw [scaledLeft] at h
    simp only [Bool.false_eq_true, if_false] at h
    cases scaledRight : right.kind.isScale with
    | false =>
      rw [mapUnderFactors_of_unscaled scaledRight] at h
      exact Except.ok.inj h ▸ product hl hr scaledLeft scaledRight
    | true =>
      obtain ⟨factor, term, scaled, unscaled, ht⟩ := hr.term scaledRight
      have outside := mapUnderFactors_of_scaled scaled unscaled h
      exact arranges_scaled (product hl ht scaledLeft unscaled) outside (isScale_fold _ _)
  | true =>
    obtain ⟨factor, term, scaled, unscaled, ht⟩ := hl.term scaledLeft
    rw [scaledLeft] at h
    simp only [if_true] at h
    cases scaledRight : right.kind.isScale with
    | false =>
      rw [scaledRight] at h
      simp only [Bool.false_eq_true, if_false] at h
      have outside := mapUnderFactors_of_scaled scaled unscaled h
      exact arranges_scaled (product ht hr unscaled scaledRight) outside (isScale_fold _ _)
    | true =>
      rw [scaledRight] at h
      exact absurd h refuse_ne_ok

theorem arranges_plus (hl : Arranges xs left) (hr : Arranges ys right)
    (h : left.plus (.node right) = .ok n) : Arranges (xs ++ ys) n := by
  obtain rfl := pure_eq_ok.mp h
  exact arranges_fold hl hr (.inr rfl) (by simp) (by simp)

theorem arranges_minus (hl : Arranges xs left) (hr : Arranges ys right)
    (h : left.minus (.node right) = .ok n) : Arranges (xs ++ ys) n := by
  obtain ⟨negated, scaled, done⟩ := bind_eq_ok.mp h
  exact arranges_plus hl (arranges_scale hr scaled) done

end

end Node

namespace Formula

/-- The tensors of a formula with their index names, from left to right. -/
def leaves : Formula → List (Tensor × List Char)
  | .tensor t names => [(t, names)]
  | .times left right | .plus left right | .minus left right => left.leaves ++ right.leaves
  | .negate term | .scale _ term => term.leaves

def Indexes (source : Tensor × List Char) (leaf : Node) : Prop :=
  Node.indexed source.1 source.2 = .ok leaf

/-- A normal form over given tensors of a formula. -/
def Arranged (sources : List (Tensor × List Char)) (n : Node) : Prop :=
  ∃ xs, List.Forall₂ Indexes sources xs ∧ Node.Arranges xs n

section
variable {sources others : List (Tensor × List Char)} {left right n : Node}

theorem Arranged.join (hl : Arranged sources left) (hr : Arranged others right)
    (keeps : ∀ {xs ys}, Node.Arranges xs left → Node.Arranges ys right →
      Node.Arranges (xs ++ ys) n) : Arranged (sources ++ others) n := by
  obtain ⟨xs, each, arranged⟩ := hl
  obtain ⟨ys, each', arranged'⟩ := hr
  exact ⟨xs ++ ys, List.rel_append each each', keeps arranged arranged'⟩

end

theorem arranged_build {f : Formula} {n : Node} (h : f.build = .ok n) : Arranged f.leaves n := by
  induction f generalizing n with
  | tensor t names => exact ⟨[n], .cons h .nil, Node.arranges_indexed h⟩
  | times left right hl hr =>
    simp only [build, bind_eq_ok] at h
    obtain ⟨l, built, r, built', done⟩ := h
    exact (hl built).join (hr built') fun hx hy => Node.arranges_times hx hy done
  | plus left right hl hr =>
    simp only [build, bind_eq_ok] at h
    obtain ⟨l, built, r, built', done⟩ := h
    exact (hl built).join (hr built') fun hx hy => Node.arranges_plus hx hy done
  | minus left right hl hr =>
    simp only [build, bind_eq_ok] at h
    obtain ⟨l, built, r, built', done⟩ := h
    exact (hl built).join (hr built') fun hx hy => Node.arranges_minus hx hy done
  | negate term ih | scale _ term ih =>
    obtain ⟨t, built, scaled⟩ := bind_eq_ok.mp h
    obtain ⟨xs, each, arranged⟩ := ih built
    exact ⟨xs, each, Node.arranges_scale arranged scaled⟩

/-- The tree of a formula is in normal form everywhere, and its tensors from left to right are those
of the formula, with their index names. -/
theorem build_normal {f : Formula} {n : Node} (h : f.build = .ok n) :
    n.Everywhere Node.Normal ∧ List.Forall₂ Indexes f.leaves n.leaves := by
  obtain ⟨xs, each, normal, leaves⟩ := arranged_build h
  exact ⟨normal, leaves ▸ each⟩

/-- The formula `s A (B C) - (D - A)` with matrices. -/
def nested : Formula :=
  let matrix (name : String) (names : List Char) : Formula :=
    .tensor ⟨name, none, [2, 2], .dense [2, 2], .full [2, 2]⟩ names
  .minus
    (.times (.scale (.named "s") (matrix "A" ['i', 'k']))
      (.times (matrix "B" ['k', 'l']) (matrix "C" ['l', 'j'])))
    (.minus (matrix "D" ['i', 'j']) (matrix "A" ['i', 'j']))

/-- The tree is a sum of a scaled product and a scaled sum, over five tensors. -/
theorem build_normal_nested : ∃ n, nested.build = .ok n ∧ n.Everywhere Node.Normal ∧
    List.Forall₂ Indexes nested.leaves n.leaves ∧
    n.postorder.map (fun x => x.kind.name) =
      ["IndexedTensor", "IndexedTensor", "IndexedTensor", "Einsum", "ScalarMultiplication",
        "IndexedTensor", "IndexedTensor", "ScalarMultiplication", "Add", "ScalarMultiplication",
        "Add"] := by
  obtain ⟨normal, leaves⟩ := build_normal (f := nested) rfl
  exact ⟨_, rfl, normal, leaves, rfl⟩

end Formula

end TensorKernel
