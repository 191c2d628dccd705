import TensorKernel.Proofs.Tree.Factors

/-!
Which assignments of products are accepted. The operands have to agree on the extents of the index
names they share, and the target may have no index that none of them has. Nothing else matters: no
order of the indices or of the operands, and no index that operands share or have for themselves.

* `resolveTo_einsum_iff`, `resolve_assignment_iff`: the two steps of resolution;
* `product_statement_iff`: both together.
-/

namespace TensorKernel.Node

/-- A tensor that is named at once repeats no name if its names are distinct. -/
theorem dense_distinctNames {name : String} {dims : List Dim} (distinct : (dims.map Dim.name).Nodup) :
    (dense name dims).Everywhere DistinctNames :=
  everywhere_iff.mpr ⟨distinctNames_of_indices rfl distinct, fun _ hc => absurd hc List.not_mem_nil⟩

/-- A product resolves to the product of its resolved operands. -/
theorem resolveTo_einsum_iff {target : Option Indices} {n m : Node} {ds : List Node}
    (kind : n.kind = .einsum) (ht : ∀ t, target = some t → t.Distinct)
    (distinct : ∀ d ∈ ds, d.own.Distinct)
    (each : List.Forall₂ (fun c d => c.resolveTo none = .ok d) n.children ds) :
    n.resolveTo target = .ok m ↔ binarize target ds = .ok m := by
  obtain ⟨_, _, _, _, _, children⟩ := n
  obtain rfl := kind
  rw [resolveTo, resolveFree_eq_ok.mpr each, ok_bind, bind_eq_ok]
  cases target with
  | none => simp [pure_eq_ok]
  | some t =>
    have brought {r : Node} (done : binarize (some t) ds = .ok r) : r.bring t = .ok r := by
      obtain ⟨keep, -, known, required⟩ := indices_of_binarize ht distinct done
      exact bring_own (required t rfl ▸ known)
    constructor
    · rintro ⟨r, done, same⟩
      obtain rfl := Except.ok.inj ((brought done).symm.trans same)
      exact done
    · exact fun done => ⟨m, done, brought done⟩

/-- An assignment resolves to the assignment of its value in the order of the target. -/
theorem resolve_assignment_iff {target value n m : Node} (h : target.assignment value = .ok n) :
    n.resolve = .ok m ↔ ∃ v, value.resolveTo target.indices = .ok v ∧
      m = ofKind .assign [target, v] target.indices := by
  obtain ⟨-, rfl⟩ := assignment_eq_ok h
  rw [resolve, ofKind, resolveTo, resolveAssigned, bind_eq_ok]
  simp only [bind_eq_ok, mapError_eq_ok, pure_eq_ok]
  grind [ofKind]

/-- The assignment of a product of at least two operands is accepted exactly if the operands agree on
the extents of shared names and have all indices of the target, in its extents. Then the product is
stored in the order of the target. -/
theorem product_statement_iff {target n : Node} {operands ds : List Node} {t : Indices}
    (made : target.assignment (einsum operands) = .ok n) (known : target.indices = some t)
    (ht : t.Distinct) (distinct : ∀ c ∈ operands, c.Everywhere DistinctNames)
    (two : 2 ≤ operands.length)
    (each : List.Forall₂ (fun c d => c.resolve = .ok d ∧ d.indices = some d.own) operands ds) :
    ((∃ m, n.resolve = .ok m) ↔ Compatible ds ∧ ∀ d ∈ t.dims, ∃ x ∈ ds, d ∈ x.own.dims) ∧
      ∀ m, n.resolve = .ok m → m.indices = some t ∧
        ∃ product, m.children = [target, product] ∧ product.indices = some t := by
  have required : ∀ t', some t = some t' → t'.Distinct := by
    rintro _ ⟨⟩
    exact ht
  have labelled : ∀ d ∈ ds, d.Labelled := by
    intro d hd
    obtain ⟨c, hc, resolved, found⟩ := exists_of_forall₂_right each hd
    exact ⟨found, (resolveTo_distinct (distinct c hc) none _ (by simp) resolved).1.own⟩
  have product (m : Node) : (einsum operands).resolveTo (some t) = .ok m ↔
      binarize (some t) ds = .ok m :=
    resolveTo_einsum_iff rfl required (fun d hd => (labelled d hd).distinct)
      (each.imp fun _ _ spec => spec.1)
  have steps (m : Node) : n.resolve = .ok m ↔ ∃ v, binarize (some t) ds = .ok v ∧
      m = ofKind .assign [target, v] (some t) := by
    rw [resolve_assignment_iff made, known]
    simp only [product]
  constructor
  · have accepted := binarize_iff required labelled (each.length_eq ▸ two)
    simp only [Option.some.injEq, forall_eq'] at accepted
    rw [← accepted]
    simp only [steps]
    grind
  · intro m resolved
    obtain ⟨v, done, rfl⟩ := (steps m).mp resolved
    obtain ⟨keep, -, indices, same⟩ :=
      indices_of_binarize required (fun d hd => (labelled d hd).distinct) done
    exact ⟨rfl, v, rfl, same t rfl ▸ indices⟩

/-- The operands of `A_ik B_jpk C_jl`, of which the second has an index for itself. -/
def chainOperands : List Node :=
  [dense "A" [⟨'i', 2⟩, ⟨'k', 3⟩], dense "B" [⟨'j', 4⟩, ⟨'p', 5⟩, ⟨'k', 3⟩],
    dense "C" [⟨'j', 4⟩, ⟨'l', 2⟩]]

theorem distinctNames_chainOperands : ∀ x ∈ chainOperands, x.Everywhere DistinctNames := by
  simp [chainOperands, dense_distinctNames]

def chainIndices : Indices := ⟨[⟨'l', 2⟩, ⟨'i', 2⟩]⟩

theorem product_statement_chain :
    let target := dense "D" chainIndices.dims
    ∃ n m, target.assignment (einsum chainOperands) = .ok n ∧ n.resolve = .ok m ∧
      m.indices = target.indices := by
  intro target
  have made : target.assignment (einsum chainOperands) =
      .ok (ofKind .assign [target, einsum chainOperands] target.indices) := rfl
  have each : List.Forall₂ (fun x y => x.resolve = .ok y ∧ y.indices = some y.own)
      chainOperands chainOperands :=
    .cons ⟨rfl, rfl⟩ (.cons ⟨rfl, rfl⟩ (.cons ⟨rfl, rfl⟩ .nil))
  obtain ⟨accepted, stored⟩ :=
    product_statement_iff made rfl (by decide) distinctNames_chainOperands (by decide) each
  obtain ⟨m, resolved⟩ := accepted.mpr (by decide)
  exact ⟨_, m, made, resolved, (stored m resolved).1⟩

end TensorKernel.Node
