import TensorKernel.Proofs.Tree.Binary
import TensorKernel.Proofs.Tree.Meaning
import TensorKernel.Proofs.Tree.Resolving

/-!
Resolution keeps the meaning of expressions.

* `meaning_of_free`: to require the indices that an expression has anyway changes nothing;
* `resolveTo_spec`: the resolved tree has the indices required of it, or else those that the
  expression has when nothing is required, and its value is the meaning of the expression;
* `resolve_meaning`: the same for an expression alone and for an assignment.
-/

namespace TensorKernel.Node

/-! ### Free indices and meaning, kind by kind -/

theorem free_tensor {n : Node} {tensor : Tensor} {i : Indices} (h : n.IsTensor tensor i) :
    n.free = some i := by
  obtain ⟨kind, indices, _, _, _, children⟩ := n
  obtain rfl := h.kind
  exact h.indices

theorem free_product {n : Node} (h : n.kind = .einsum) :
    n.free = some (Indices.unshared (n.children.map fun c => c.free.getD .empty)) := by
  obtain ⟨kind, indices, _, _, _, children⟩ := n
  subst h
  simp only [free, freeAll_eq, List.map_map]
  rfl

theorem free_sum {n : Node} (h : n.kind = .add) :
    n.free = (sumOrder none n.children).or (n.children.findSome? free) := by
  obtain ⟨kind, indices, _, _, _, children⟩ := n
  subst h
  simp only [free, freeAll_eq, List.findSome?_map]
  rfl

theorem free_scaled {n term : Node} {factor : Factor} (h : n.kind = .scale factor)
    (children : n.children = [term]) : n.free = term.free := by
  obtain ⟨kind, indices, _, _, _, _⟩ := n
  subst h children
  simp [free, freeAll_eq]

section
variable {R : Type} [CommSemiring R] (scalars : Factor → R) (σ : Store (Entry → R))

theorem meaning_tensor {n : Node} {tensor : Tensor} {i : Indices} (h : n.IsTensor tensor i)
    (required : Option Indices) :
    n.meaning scalars σ required = fun p => σ tensor.name (i.entryAt p) := by
  obtain ⟨kind, indices, _, _, _, children⟩ := n
  obtain rfl := h.kind
  obtain rfl : indices = some i := h.indices
  simp only [meaning, Option.getD_some]

theorem meaning_product {n : Node} (h : n.kind = .einsum) (required : Option Indices) :
    n.meaning scalars σ required =
      sumOver ((Indices.union (n.children.map fun c => c.free.getD .empty)).diff
        (required.getD (Indices.unshared (n.children.map fun c => c.free.getD .empty)))).dims
        (n.children.map (meaning scalars σ none)).prod := by
  obtain ⟨kind, indices, _, _, _, children⟩ := n
  subst h
  simp only [meaning, freeAll_eq, meanings_eq, List.map_map]
  rfl

theorem meaning_sum {n : Node} (h : n.kind = .add) (required : Option Indices) :
    n.meaning scalars σ required =
      (n.children.map (meaning scalars σ (required.or n.free))).sum := by
  obtain ⟨kind, indices, _, _, _, children⟩ := n
  subst h
  simp only [meaning, meanings_eq]

theorem meaning_scaled {n term : Node} {factor : Factor} (h : n.kind = .scale factor)
    (children : n.children = [term]) (required : Option Indices) :
    n.meaning scalars σ required = fun p => scalars factor * term.meaning scalars σ required p := by
  obtain ⟨kind, indices, _, _, _, _⟩ := n
  subst h children
  simp [meaning, meanings_eq]

/-- To require the indices that an expression has anyway changes nothing, and an expression without
any, an empty sum, means the same whatever is required. -/
theorem meaning_of_free {n : Node} (hn : n.Expression) {required : Option Indices}
    (h : n.free = none ∨ required = n.free) :
    n.meaning scalars σ required = n.meaning scalars σ none := by
  induction hn generalizing required with
  | tensor leaf => rw [meaning_tensor scalars σ leaf, meaning_tensor scalars σ leaf]
  | product kind indices factors ih =>
    rw [free_product kind] at h
    obtain rfl := h.resolve_left (Option.some_ne_none _)
    rw [meaning_product scalars σ kind, meaning_product scalars σ kind, Option.getD_some,
      Option.getD_none]
  | @sum n kind indices summands ih =>
    rw [meaning_sum scalars σ kind, meaning_sum scalars σ kind]
    rcases h with empty | rfl
    · have each : ∀ c ∈ n.children, c.free = none := by
        rw [free_sum kind, Option.or_eq_none_iff, List.findSome?_eq_none_iff] at empty
        exact empty.2
      refine congrArg List.sum (List.map_congr_left fun c hc => ?_)
      rw [ih c hc (.inl (each c hc)), empty, Option.or_none]
    · rw [Option.or_self, Option.none_or]
  | scaled kind children indices expression ih =>
    rw [free_scaled kind children] at h
    rw [meaning_scaled scalars σ kind children, meaning_scaled scalars σ kind children, ih h]

/-! ### Resolution -/

/-- What resolution makes of an expression of which indices may be required. -/
structure Resolves (target : Option Indices) (n m : Node) : Prop where
  wellFormed : m.WellFormed
  indices : m.indices = target.or n.free
  value : ∀ p, m.valueAt scalars σ p = n.meaning scalars σ target p

/-- The last step of resolution brings a node to the indices that are required. -/
theorem Resolves.of_bring {target : Option Indices} {n r m : Node} (hr : r.WellFormed)
    (ht : ∀ t, target = some t → t.Distinct) (indices : target = none → r.indices = n.free)
    (value : ∀ p, r.valueAt scalars σ p = n.meaning scalars σ target p)
    (h : (match target with | some t => r.bring t | none => pure r) = Except.ok m) :
    Resolves scalars σ target n m := by
  cases target with
  | none =>
    obtain rfl := pure_eq_ok.mp h
    exact ⟨hr, indices rfl, value⟩
  | some t =>
    obtain ⟨reordered, known, -⟩ := bring_spec scalars σ hr (ht t rfl) h
    exact ⟨reordered.wellFormed, known, fun p => (reordered.value p).trans (value p)⟩

/-- Resolved factors have the indices that the factors have by themselves. -/
theorem map_own_of_resolves {cs ds : List Node}
    (h : List.Forall₂ (Resolves scalars σ none) cs ds) :
    ds.map own = cs.map fun c => c.free.getD .empty := by
  refine map_eq_of_forall₂ (h.imp fun c d spec => ?_)
  rw [own, spec.indices, Option.none_or]

theorem binarize_resolved {target : Option Indices} {n r : Node} {ds : List Node}
    (kind : n.kind = .einsum) (ht : ∀ t, target = some t → t.Distinct)
    (each : List.Forall₂ (Resolves scalars σ none) n.children ds)
    (h : binarize target ds = .ok r) :
    r.WellFormed ∧ (target = none → r.indices = n.free) ∧
      ∀ p, r.valueAt scalars σ p = n.meaning scalars σ target p := by
  have formed : ∀ d ∈ ds, d.WellFormed := by
    intro d hd
    obtain ⟨c, -, spec⟩ := exists_of_forall₂_right each hd
    exact spec.wellFormed
  have frees := map_own_of_resolves scalars σ each
  obtain ⟨all, keep, merged, kept, spec, indices⟩ := binarize_spec scalars σ formed ht h
  obtain ⟨union, distinct, known, dims⟩ :=
    mergedIndices_spec Indices.distinct_empty (fun x hx => (formed x hx).own) merged
  obtain ⟨required, hk, -⟩ := keptIndices_spec distinct ht kept
  have once (name : Char) : occurrences ds name =
      (n.children.map fun c => c.free.getD .empty).countP (·.contains name) := by
    rw [← frees, List.countP_map]
    refine List.countP_congr fun d hd => ?_
    rw [mentions_iff (known d hd), Function.comp_apply, Indices.contains_iff]
  have all_eq : all = Indices.union (n.children.map fun c => c.free.getD .empty) := by
    rw [union, frees]
    rfl
  have keep_eq : keep =
      target.getD (Indices.unshared (n.children.map fun c => c.free.getD .empty)) := by
    rw [required, all_eq]
    simp only [once]
    rfl
  refine ⟨spec.wellFormed, fun free => ?_, fun p => ?_⟩
  · subst free
    rw [indices, keep_eq, Option.getD_none, free_product kind]
  · obtain ⟨es, hes, memEs, value⟩ := spec.value
    have values : ds.map (valueAt scalars σ) = n.children.map (meaning scalars σ none) :=
      map_eq_of_forall₂ (each.imp fun _ _ spec => funext spec.value)
    rw [value, values, meaning_product scalars σ kind, ← keep_eq, ← all_eq]
    refine congrFun (sumOver_eq_of_mem hes (distinct.diff keep) (fun d => ?_) _) p
    rw [memEs, Indices.mem_diff, dims]
    simp [Indices.empty]

def ResolvesWell (n : Node) : Prop :=
  ∀ (target : Option Indices) (m : Node), (∀ t, target = some t → t.Distinct) →
    n.resolveTo target = .ok m → Resolves scalars σ target n m

theorem resolveSummands_spec {order final : Option Indices} {cs ds : List Node}
    (hc : ∀ c ∈ cs, c.Expression ∧ ResolvesWell scalars σ c)
    (ho : ∀ i, order = some i → i.Distinct) (h : resolveSummands order cs = .ok (ds, final)) :
    final = order.or (cs.findSome? free) ∧ (∀ i, final = some i → i.Distinct) ∧
      List.Forall₂ (fun c d => d.WellFormed ∧ (d.indices = none ∨ d.indices = final) ∧
        ∀ p, d.valueAt scalars σ p = c.meaning scalars σ final p) cs ds := by
  induction cs generalizing order ds with
  | nil =>
    rw [resolveSummands, pure_eq_ok] at h
    cases h
    exact ⟨by simp, ho, .nil⟩
  | cons c cs ih =>
    obtain ⟨⟨expression, resolves⟩, rest⟩ := List.forall_mem_cons.mp hc
    simp only [resolveSummands, bind_eq_ok, pure_eq_ok] at h
    obtain ⟨d, first, ⟨rest', last⟩, others, done⟩ := h
    obtain ⟨rfl, rfl⟩ := Prod.mk.inj done
    have spec := resolves order d ho first
    have next : (order.orElse fun _ => d.indices) = order.or c.free := by
      rw [spec.indices]
      cases order <;> rfl
    rw [next] at others
    have distinct : ∀ i, order.or c.free = some i → i.Distinct := fun i hi =>
      spec.wellFormed.indices (spec.indices.trans hi)
    obtain ⟨final_eq, hf, each⟩ := ih rest distinct others
    dsimp only at final_eq hf each ⊢
    have order_eq : last = order.or ((c :: cs).findSome? free) := by
      rw [final_eq, List.findSome?_cons]
      cases order <;> cases c.free <;> rfl
    refine ⟨order_eq, hf, .cons ⟨spec.wellFormed, ?_, fun p => ?_⟩ each⟩
    · rw [spec.indices, final_eq]
      cases order.or c.free with
      | none => exact .inl rfl
      | some i => exact .inr rfl
    · rw [spec.value p]
      cases order with
      | some i =>
        rw [order_eq]
        rfl
      | none =>
        refine congrFun (meaning_of_free scalars σ expression ?_).symm p
        rw [order_eq, List.findSome?_cons]
        cases c.free with
        | none => exact .inl rfl
        | some i => exact .inr rfl

theorem resolves_tensor {n : Node} {tensor : Tensor} {i : Indices} (leaf : n.IsTensor tensor i) :
    ResolvesWell scalars σ n := by
  intro target m ht h
  have formed := leaf.wellFormed
  have value (p : Point) : n.valueAt scalars σ p = n.meaning scalars σ target p := by
    rw [valueAt, value_leaf scalars σ leaf.kind, leaf.own, meaning_tensor scalars σ leaf]
  have indices := leaf.indices.trans (free_tensor leaf).symm
  obtain ⟨r, into, brought⟩ := resolveTo_cases h
  rw [ResolvesInto, leaf.kind] at into
  obtain rfl : r = n := into
  exact .of_bring scalars σ formed ht (fun _ => indices) value brought

theorem resolves_product {n : Node} (kind : n.kind = .einsum)
    (factors : ∀ c ∈ n.children, ResolvesWell scalars σ c) : ResolvesWell scalars σ n := by
  intro target m ht h
  obtain ⟨r, into, brought⟩ := resolveTo_cases h
  rw [ResolvesInto, kind] at into
  obtain ⟨ds, all, products⟩ := into
  have each : List.Forall₂ (Resolves scalars σ none) n.children ds :=
    forall₂_imp_of_mem all fun c hc d done => factors c hc none d (by simp) done
  obtain ⟨formed, frees, value⟩ := binarize_resolved scalars σ kind ht each products
  exact .of_bring scalars σ formed ht frees value brought

/-- A sum over operands that were brought to its order. -/
theorem valueAt_aligned {n : Node} (kind : n.kind = .add)
    (aligned : ∀ c ∈ n.children, c.indices = none ∨ c.indices = n.indices) (p : Point) :
    n.valueAt scalars σ p = (n.children.map fun c => c.valueAt scalars σ p).sum := by
  refine valueAt_sum scalars σ kind (fun c hc name mem => ?_) p
  rcases aligned c hc with empty | same
  · rw [own, empty] at mem
    cases mem
  · rwa [own_eq (m := c) same.symm]

theorem resolves_sum {n : Node} (kind : n.kind = .add)
    (summands : ∀ c ∈ n.children, c.Expression ∧ ResolvesWell scalars σ c) :
    ResolvesWell scalars σ n := by
  intro target m ht h
  obtain ⟨r, into, brought⟩ := resolveTo_cases h
  rw [ResolvesInto, kind] at into
  obtain ⟨ds, order, all, rfl⟩ := into
  have start : sumOrder target n.children = target.or (sumOrder none n.children) := by
    cases target <;> rfl
  have distinct : ∀ i, sumOrder target n.children = some i → i.Distinct := by
    intro i hi
    rw [start] at hi
    cases target with
    | some t => exact ht i hi
    | none =>
      obtain ⟨c, found, known⟩ := Option.bind_eq_some_iff.mp hi
      exact (summands c (List.mem_of_find?_eq_some found)).1.distinct known
  obtain ⟨order_eq, ho, each⟩ := resolveSummands_spec scalars σ summands distinct all
  rw [start, Option.or_assoc, ← free_sum kind] at order_eq
  have aligned : ∀ d ∈ ds, d.WellFormed ∧ (d.indices = none ∨ d.indices = order) := by
    intro d hd
    obtain ⟨c, -, formed, indices, -⟩ := exists_of_forall₂_right each hd
    exact ⟨formed, indices⟩
  let r : Node := ⟨.add, order, n.pattern, n.layout, n.prefetch, ds⟩
  have formed : r.WellFormed :=
    .node ho (fun d hd => (aligned d hd).2) fun d hd => (aligned d hd).1
  refine .of_bring scalars σ formed ht (fun free => ?_) (fun p => ?_) brought
  · rw [free] at order_eq
    exact order_eq
  · rw [valueAt_aligned scalars σ (n := r) rfl (fun d hd => (aligned d hd).2),
      meaning_sum scalars σ kind, sum_apply, List.map_map, ← order_eq]
    exact congrArg List.sum (map_eq_of_forall₂ (each.imp fun c d spec => spec.2.2 p))

theorem resolves_scaled {n term : Node} {factor : Factor} (kind : n.kind = .scale factor)
    (children : n.children = [term]) (ih : ResolvesWell scalars σ term) :
    ResolvesWell scalars σ n := by
  intro target m ht h
  obtain ⟨r, into, brought⟩ := resolveTo_cases h
  rw [ResolvesInto, kind, children] at into
  obtain ⟨_, done, last, resolved, rfl⟩ := into
  obtain rfl := Option.some.inj last
  have spec := ih target done ht resolved
  let r : Node := ⟨.scale factor, done.indices, n.pattern, n.layout, n.prefetch, [done]⟩
  have formed : r.WellFormed :=
    .node (fun i hi => spec.wellFormed.indices hi) ⟨done, rfl, rfl⟩ (by simp [r, spec.wellFormed])
  refine .of_bring scalars σ formed ht (fun free => ?_) (fun p => ?_) brought
  · rw [free_scaled kind children, ← Option.none_or (o := term.free), ← free]
    exact spec.indices
  · have value := valueAt_scaled scalars σ (n := r) rfl (show r.children = [done] from rfl)
      (fun name hn => hn) p
    rw [value, spec.value, meaning_scaled scalars σ kind children]

theorem resolveTo_spec {n : Node} (hn : n.Expression) : ResolvesWell scalars σ n := by
  induction hn with
  | tensor leaf => exact resolves_tensor scalars σ leaf
  | product kind _ _ ih => exact resolves_product scalars σ kind ih
  | sum kind _ summands ih =>
    exact resolves_sum scalars σ kind fun c hc => ⟨summands c hc, ih c hc⟩
  | scaled kind children _ _ ih => exact resolves_scaled scalars σ kind children ih

/-- A resolved assignment keeps its target, and its value has the indices of the target. -/
theorem resolve_assignment {n target value m : Node} (hn : n.Assignment target value)
    (h : n.resolve = .ok m) :
    ∃ v, value.resolveTo target.indices = .ok v ∧ m = { n with children := [target, v] } := by
  obtain ⟨_, into, same⟩ := resolveTo_cases h
  obtain rfl := pure_eq_ok.mp same
  rw [ResolvesInto, hn.kind, hn.children] at into
  obtain ⟨_, _, v, ⟨⟩, resolved, rfl⟩ := into
  exact ⟨v, resolved, by rw [hn.kind]⟩

theorem meaning_assignment {n target value : Node} (hn : n.Assignment target value)
    (required : Option Indices) :
    n.meaning scalars σ required = value.meaning scalars σ target.indices := by
  obtain ⟨kind, _, _, _, _, _⟩ := n
  obtain rfl := hn.kind
  obtain rfl := hn.children
  simp only [meaning, meaningAssigned]

theorem free_assignment {n target value : Node} (hn : n.Assignment target value) :
    n.free = target.indices := by
  rw [← hn.indices]
  obtain ⟨kind, _, _, _, _, _⟩ := n
  obtain rfl := hn.kind
  simp only [free]

/-- Resolution keeps the meaning of expressions, alone or assigned to a tensor: the resolved tree has
at each entry of its indices the value that the expression means there. -/
theorem resolve_meaning {n m : Node}
    (hn : n.Expression ∨ ∃ target value, n.Assignment target value) (h : n.resolve = .ok m) :
    m.indices = n.free ∧ ∀ p, m.valueAt scalars σ p = n.meaning scalars σ none p := by
  rcases hn with expression | ⟨target, value, assignment⟩
  · have spec := resolveTo_spec scalars σ expression none m (by simp) h
    exact ⟨by rw [spec.indices, Option.none_or], spec.value⟩
  · obtain ⟨v, resolved, rfl⟩ := resolve_assignment assignment h
    obtain ⟨tensor, i, leaf⟩ := assignment.target
    have spec := resolveTo_spec scalars σ assignment.value target.indices v
      (fun t ht => Option.some.inj (leaf.indices.symm.trans ht) ▸ leaf.distinct) resolved
    have indices := assignment.indices
    have own : own { n with children := [target, v] } = v.own := by
      rw [Node.own, Node.own, indices, spec.indices, leaf.indices]
      rfl
    refine ⟨by rw [free_assignment assignment]; exact indices, fun p => ?_⟩
    rw [meaning_assignment scalars σ assignment, ← spec.value,
      valueAt_eq scalars σ (by rw [assignment.kind]; rfl), assignment.kind]
    exact v.valueAt_restrict scalars σ (fun name hn => own ▸ hn) p

end

def scaledChain : Node :=
  let chain := einsum [dense "X" [⟨'k', 2⟩, ⟨'l', 3⟩], dense "Y" [⟨'l', 3⟩, ⟨'j', 2⟩]]
  ofKind (.scale (.named "s")) [chain] chain.indices

/-- The product `A_ij (B_jk + s X_kl Y_lj)`, which has a product in a sum in it. -/
def mixedProduct : Node :=
  einsum [dense "A" [⟨'i', 2⟩, ⟨'j', 2⟩], add [dense "B" [⟨'j', 2⟩, ⟨'k', 2⟩], scaledChain]]

theorem expression_mixedProduct : mixedProduct.Expression := by
  have scaled : scaledChain.Expression :=
    .of_scale (.of_einsum (by simp [expression_dense, isIdentifier])) rfl
  have inner : (add [dense "B" [⟨'j', 2⟩, ⟨'k', 2⟩], scaledChain]).Expression :=
    .of_add (by simp [expression_dense, isIdentifier, scaled])
  exact .of_einsum (by simp [expression_dense, isIdentifier, inner])

/-- In `C_ki = A_ij (B_jk + s X_kl Y_lj)` the sum is brought to the order of `B`, so that the product
in it is summed over `l` alone; the one around it is summed over `j`. -/
theorem resolve_meaning_mixedProduct :
    let c := dense "C" [⟨'k', 2⟩, ⟨'i', 2⟩]
    let n := ofKind .assign [c, mixedProduct] c.indices
    let σ : Store (Entry → Int) := fun name e => if name = "A" then 3 else e.sum
    let p : Point := fun c => if c = 'i' then 1 else 0
    n.Assignment c mixedProduct ∧ ∃ m, n.resolve = .ok m ∧
      m.valueAt (fun _ => 2) σ p = n.meaning (fun _ => 2) σ none p ∧
      n.meaning (fun _ => 2) σ none p = 81 := by
  intro c n σ p
  have assignment : n.Assignment c mixedProduct :=
    ⟨rfl, rfl, rfl, ⟨_, _, rfl, rfl, rfl, by decide, rfl, rfl⟩,
      expression_mixedProduct⟩
  refine ⟨assignment, _, rfl, ?_, by decide⟩
  exact (resolve_meaning (fun _ => 2) σ (.inr ⟨c, mixedProduct, assignment⟩) rfl).2 p

end TensorKernel.Node
