import TensorKernel.Proofs.Formula.Folding

/-!
Statements: the tree of a statement assigns a value that means the right side, and that meaning
depends on nothing but the entries of the tensors in it.
-/

namespace TensorKernel

namespace Node

theorem IsTensor.size {n : Node} {tensor : Tensor} {i : Indices} (h : n.IsTensor tensor i) :
    i.size = tensor.shape.length := by
  rw [← h.shape, Indices.length_shape]

theorem same_indices {n m : Node} (h : n.same m = true) : n.indices = m.indices := by
  obtain ⟨_, _, _, _, _, _⟩ := n
  simp only [same, Bool.and_eq_true, decide_eq_true_eq] at h
  exact h.1.1.1.1.2

/-- A tensor is assigned as the product of itself, unless it is the target. -/
theorem assign_eq_ok {target value n : Node} (h : target.assign (.node value) = .ok n) :
    ∃ v, n = ofKind .assign [target, v] target.indices ∧
      (v = einsum [value] ∧ value.kind.isLeaf = true ∨
        v = value ∧ (value.kind.isLeaf = true → value.same target = true)) := by
  simp only [assign] at h
  split at h
  · next copied =>
    rw [Bool.and_eq_true] at copied
    exact ⟨_, (assignment_eq_ok h).2, .inl ⟨rfl, copied.1⟩⟩
  · next itself =>
    refine ⟨_, (assignment_eq_ok h).2, .inr ⟨rfl, fun leaf => ?_⟩⟩
    simpa [leaf] using itself

end Node

/-- A tensor has as many names as dimensions, so its entries are compared. -/
theorem Formula.entry_congr {t : Tensor} {names : List Char} {n : Node}
    (identifier : isIdentifier t.base = true) (h : (Formula.tensor t names).build = .ok n)
    {R : Type} {σ τ : Store (Entry → R)} (same : AgreeOn [t] σ τ) (p : Point) :
    σ t.name (names.map p) = τ t.name (names.map p) := by
  obtain ⟨leaf, order⟩ := Node.isTensor_of_indexed identifier h
  have rank : names.length = t.shape.length :=
    calc
      names.length = (t.indices names).names.length := by rw [order]
      _ = (t.indices names).size := List.length_map ..
      _ = t.shape.length := leaf.size
  apply same t (List.mem_singleton.mpr rfl)
  rw [List.length_map, rank]

section
variable {R : Type} [CommRing R] (scalars : Scalars R)

/-- A formula means the same in stores that hold the same at the entries of its tensors. -/
theorem Formula.meaning_congr {f : Formula} {n : Node}
    (valid : ∀ t ∈ f.tensors, isIdentifier t.base = true) (h : f.build = .ok n)
    {σ τ : Store (Entry → R)} (same : AgreeOn f.tensors σ τ) :
    (∀ q, f.meaning scalars σ q = f.meaning scalars τ q) ∧
      f.factorMeanings scalars σ = f.factorMeanings scalars τ := by
  have binary {left right : Formula} {σ τ : Store (Entry → R)}
      (both : AgreeOn (left.tensors ++ right.tensors) σ τ) :
      AgreeOn left.tensors σ τ ∧ AgreeOn right.tensors σ τ :=
    ⟨both.mono fun _ => List.mem_append_left _, both.mono fun _ => List.mem_append_right _⟩
  induction f generalizing n with
  | tensor t names =>
    have entry := entry_congr (valid t (List.mem_singleton.mpr rfl)) h same
    simp only [Formula.meaning, factorMeanings, entry, implies_true, and_self]
  | times left right hl hr =>
    simp only [build, bind_eq_ok] at h
    obtain ⟨l, built, r, built', -⟩ := h
    obtain ⟨sl, sr⟩ := binary same
    have first := hl (fun t ht => valid t (List.mem_append_left _ ht)) built sl
    have second := hr (fun t ht => valid t (List.mem_append_right _ ht)) built' sr
    simp only [Formula.meaning, factorMeanings, first.2, second.2, implies_true, and_self]
  | plus left right hl hr | minus left right hl hr =>
    simp only [build, bind_eq_ok] at h
    obtain ⟨l, built, r, built', -⟩ := h
    obtain ⟨sl, sr⟩ := binary same
    have first := hl (fun t ht => valid t (List.mem_append_left _ ht)) built sl
    have second := hr (fun t ht => valid t (List.mem_append_right _ ht)) built' sr
    simp only [Formula.meaning, factorMeanings, first.1, second.1, implies_true, and_self]
  | negate term ih | scale factor term ih =>
    obtain ⟨t, built, -⟩ := bind_eq_ok.mp h
    obtain ⟨meaning, factors⟩ := ih valid built same
    simp only [Formula.meaning, factorMeanings, meaning, factors, implies_true, and_self]

namespace Statement

theorem meaning_of_not_tensor {s : Statement} (h : ∀ t names, s.value ≠ .tensor t names)
    (σ : Store (Entry → R)) : s.meaning scalars σ = s.value.meaning scalars σ (some s.indices) := by
  unfold meaning
  split
  · next known => exact absurd known (h _ _)
  · rfl

theorem meaning_congr {s : Statement} {n : Node}
    (valid : ∀ t ∈ s.tensors, isIdentifier t.base = true) (h : s.value.build = .ok n)
    {σ τ : Store (Entry → R)} (same : AgreeOn s.tensors σ τ) :
    s.meaning scalars σ = s.meaning scalars τ := by
  obtain ⟨target, names, value⟩ := s
  have right : ∀ t ∈ value.tensors, isIdentifier t.base = true := fun t ht =>
    valid t (List.mem_cons_of_mem _ ht)
  have agree : AgreeOn value.tensors σ τ := same.mono fun _ => List.mem_cons_of_mem _
  have each := (Formula.meaning_congr scalars right h agree).1
  cases value with
  | tensor t names =>
    have alone := each none
    simp only [Formula.meaning] at alone
    simp only [meaning, alone]
  | _ =>
    rw [meaning_of_not_tensor scalars (by simp), meaning_of_not_tensor scalars (by simp)]
    exact each _

/-- What a statement builds: an assignment to its target of a tree that means the right side. -/
structure Builds (s : Statement) (n target value : Node) : Prop where
  assignment : n.Assignment target value
  target : target.IsTensor s.target s.indices
  meaning : ∀ σ, value.meaning scalars.value σ (some s.indices) = s.meaning scalars σ

/-- A tensor is summed over no index when its own are required. -/
theorem sumOver_diff_self (i : Indices) (f : Point → R) : sumOver (i.diff i).dims f = f := by
  have none_left : (i.diff i).dims = [] := by
    refine List.filter_eq_nil_iff.mpr fun d hd => ?_
    simp [Indices.mem_names_of_mem hd]
  rw [none_left, sumOver_nil]

/-- The copy of a tensor under other indices is a product of one factor. -/
theorem meaning_single {t : Tensor} {i keep : Indices} {leaf : Node} (h : leaf.IsTensor t i)
    (σ : Store (Entry → R)) : (Node.einsum [leaf]).meaning scalars.value σ (some keep) =
      sumOver (i.diff keep).dims fun p => σ t.name (i.entryAt p) := by
  have union : Indices.union [i] = i := by
    have merged := Indices.merge_dims .empty h.distinct
    have all : (i.diff .empty).dims = i.dims :=
      List.filter_eq_self.mpr fun d _ => rfl
    rw [all] at merged
    exact congrArg Indices.mk merged
  have free := Node.free_tensor h
  rw [Node.meaning_product _ _ rfl]
  simp only [Node.einsum, Node.ofKind, List.map_cons, List.map_nil, free, Option.getD_some, union,
    List.prod_cons, List.prod_nil, mul_one, Node.meaning_tensor _ _ h]

theorem meaning_of_tensor {s : Statement} {t : Tensor} {names : List Char}
    (h : s.value = .tensor t names) (σ : Store (Entry → R)) : s.meaning scalars σ =
      sumOver ((t.indices names).diff s.indices).dims fun p => σ t.name (names.map p) := by
  unfold meaning
  rw [h]

/-- A tensor on the right side, copied by a product of one factor or assigned to itself. -/
theorem means_of_tensor {s : Statement} {t : Tensor} {names : List Char} {target value v : Node}
    (h : s.value = .tensor t names) (leaf : target.IsTensor s.target s.indices)
    (source : value.IsTensor t (t.indices names)) (order : (t.indices names).names = names)
    (assigned : v = .einsum [value] ∨ v = value ∧ value.same target = true)
    (σ : Store (Entry → R)) :
    v.meaning scalars.value σ (some s.indices) = s.meaning scalars σ := by
  rcases assigned with rfl | ⟨rfl, same⟩
  · rw [meaning_single scalars source, meaning_of_tensor scalars h]
    simp only [Indices.entryAt, order]
  · have indices : t.indices names = s.indices := by
      have := Node.same_indices same
      rwa [source.indices, leaf.indices, Option.some.injEq] at this
    rw [Node.meaning_tensor _ _ source, meaning_of_tensor scalars h, indices, sumOver_diff_self,
      ← indices]
    simp only [Indices.entryAt, order]

theorem build_spec {s : Statement} {n : Node}
    (valid : ∀ t ∈ s.tensors, isIdentifier t.base = true) (h : s.build = .ok n) :
    ∃ target value, s.Builds scalars n target value := by
  simp only [build, bind_eq_ok] at h
  obtain ⟨target, named, value, built, h⟩ := h
  obtain ⟨v, rfl, assigned⟩ := Node.assign_eq_ok h
  have leaf : target.IsTensor s.target s.indices :=
    (Node.isTensor_of_indexed (valid _ List.mem_cons_self) named).1
  have right : ∀ t ∈ s.value.tensors, isIdentifier t.base = true := fun t ht =>
    valid t (List.mem_cons_of_mem _ ht)
  have folds (σ : Store (Entry → R)) := Formula.folds_build scalars σ right built
  have expression : value.Expression := (folds 0).means.expression
  have built' : v.Expression := by
    rcases assigned with ⟨rfl, -⟩ | ⟨rfl, -⟩
    · exact .of_einsum fun c hc => List.mem_singleton.mp hc ▸ expression
    · exact expression
  refine ⟨target, v, ⟨rfl, rfl, rfl, ⟨_, _, leaf⟩, built'⟩, leaf, fun σ => ?_⟩
  by_cases tensor : ∃ t names, s.value = .tensor t names
  · obtain ⟨t, names, known⟩ := tensor
    rw [known] at built right
    obtain ⟨source, order⟩ :=
      Node.isTensor_of_indexed (right t (List.mem_singleton.mpr rfl)) built
    have isLeaf : value.kind.isLeaf = true := by
      rw [source.kind]
      rfl
    refine means_of_tensor scalars known leaf source order ?_ σ
    exact assigned.imp And.left fun ⟨same, itself⟩ => ⟨same, itself isLeaf⟩
  · have noLeaf : ¬value.kind.isLeaf = true := fun isLeaf =>
      tensor ((folds 0).means.leaf isLeaf)
    obtain ⟨rfl, -⟩ := assigned.resolve_left fun copied => noLeaf copied.2
    rw [(folds σ).means.meaning, meaning_of_not_tensor scalars (by simpa using tensor)]

end Statement

end

end TensorKernel
