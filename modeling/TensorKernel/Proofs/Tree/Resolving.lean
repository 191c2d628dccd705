import TensorKernel.Proofs.Index.Dims
import TensorKernel.Proofs.Success
import TensorKernel.Tree.Resolve

/-!
One step of resolution, kind by kind: what becomes of a node when its children have been resolved
(`ResolvesInto`), before it is brought to the indices that are required of it. The operands of a sum
end in one order (`resolveSummands_aligned`).
-/

namespace TensorKernel.Node

theorem resolveFree_eq_ok {children done : List Node} :
    resolveFree children = .ok done ↔
      List.Forall₂ (fun c d => c.resolveTo none = .ok d) children done := by
  induction children generalizing done with
  | nil => rw [resolveFree, pure_eq_ok, List.forall₂_nil_left_iff, eq_comm]
  | cons c cs ih =>
    simp only [resolveFree, bind_eq_ok, pure_eq_ok, ih, List.forall₂_cons_left_iff]
    grind

theorem resolveOwn_eq_ok {children done : List Node} :
    resolveOwn children = .ok done ↔
      List.Forall₂ (fun c d => c.resolveTo c.indices = .ok d) children done := by
  induction children generalizing done with
  | nil => rw [resolveOwn, pure_eq_ok, List.forall₂_nil_left_iff, eq_comm]
  | cons c cs ih =>
    simp only [resolveOwn, bind_eq_ok, pure_eq_ok, ih, List.forall₂_cons_left_iff]
    grind

/-- The term of a factor is the last child. -/
theorem resolveTerm_eq_ok {target : Option Indices} {children : List Node} {done : Node}
    (h : resolveTerm target children = .ok done) :
    ∃ term, children.getLast? = some term ∧ term.resolveTo target = .ok done := by
  induction children with
  | nil => exact absurd h refuse_ne_ok
  | cons c cs ih =>
    cases cs with
    | nil => exact ⟨c, rfl, h⟩
    | cons c' cs =>
      obtain ⟨term, last, resolved⟩ := ih h
      exact ⟨term, by rwa [List.getLast?_cons_cons], resolved⟩

theorem resolveSummands_eq_ok {order final : Option Indices} {cs ds : List Node}
    (h : resolveSummands order cs = .ok (ds, final)) :
    List.Forall₂ (fun c d => ∃ o, c.resolveTo o = .ok d) cs ds := by
  induction cs generalizing order ds with
  | nil =>
    rw [resolveSummands, pure_eq_ok] at h
    cases h
    exact .nil
  | cons c cs ih =>
    simp only [resolveSummands, bind_eq_ok, pure_eq_ok] at h
    obtain ⟨d, first, ⟨rest, last⟩, others, done⟩ := h
    cases done
    exact .cons ⟨order, first⟩ (ih others)

/-- The operands of a sum are all brought to the order that is required of it. -/
theorem resolveSummands_required {o : Indices} {final : Option Indices} {cs ds : List Node} :
    resolveSummands (some o) cs = .ok (ds, final) ↔
      final = some o ∧ List.Forall₂ (fun c d => c.resolveTo (some o) = .ok d) cs ds := by
  induction cs generalizing ds with
  | nil =>
    rw [resolveSummands, pure_eq_ok, List.forall₂_nil_left_iff, Prod.mk.injEq]
    grind
  | cons c cs ih =>
    simp only [resolveSummands, bind_eq_ok, pure_eq_ok, Option.orElse_some, Prod.exists,
      List.forall₂_cons_left_iff]
    grind

theorem resolveAssigned_eq_ok {children done : List Node}
    (h : resolveAssigned children = .ok done) :
    ∃ target value v, children = [target, value] ∧ value.resolveTo target.indices = .ok v ∧
      done = [target, v] := by
  unfold resolveAssigned at h
  split at h
  · next target value =>
    simp only [bind_eq_ok, mapError_eq_ok, pure_eq_ok] at h
    obtain ⟨v, resolved, rfl⟩ := h
    exact ⟨target, value, v, rfl, resolved, rfl⟩
  · exact absurd h refuse_ne_ok

def ResolvesInto (target : Option Indices) (n r : Node) : Prop :=
  match n.kind with
  | .leaf _ => r = n
  | .einsum => ∃ ds, List.Forall₂ (fun c d => c.resolveTo none = .ok d) n.children ds ∧
      binarize target ds = .ok r
  | .add => ∃ ds order, resolveSummands (sumOrder target n.children) n.children = .ok (ds, order) ∧
      r = { n with indices := order, children := ds }
  | .scale _ => ∃ term d, n.children.getLast? = some term ∧ term.resolveTo target = .ok d ∧
      r = { n with indices := d.indices, children := [d] }
  | .indexSum _ | .product | .contraction _ | .gemm _ => ∃ ds,
      List.Forall₂ (fun c d => c.resolveTo c.indices = .ok d) n.children ds ∧
      r = { n with children := ds }
  | .assign => ∃ leaf value v, n.children = [leaf, value] ∧
      value.resolveTo leaf.indices = .ok v ∧ r = { n with children := [leaf, v] }

theorem resolveTo_cases {target : Option Indices} {n m : Node} (h : n.resolveTo target = .ok m) :
    ∃ r, ResolvesInto target n r ∧
      (match target with | some t => r.bring t | none => pure r) = Except.ok m := by
  obtain ⟨kind, indices, pattern, layout, prefetch, children⟩ := n
  cases kind with
  | leaf =>
    rw [resolveTo] at h
    obtain ⟨r, same, brought⟩ := bind_eq_ok.mp h
    exact ⟨r, (pure_eq_ok.mp same).symm, brought⟩
  | einsum =>
    rw [resolveTo] at h
    obtain ⟨ds, each, h⟩ := bind_eq_ok.mp h
    obtain ⟨r, products, brought⟩ := bind_eq_ok.mp h
    exact ⟨r, ⟨ds, resolveFree_eq_ok.mp each, products⟩, brought⟩
  | add =>
    rw [resolveTo] at h
    obtain ⟨⟨ds, order⟩, each, brought⟩ := bind_eq_ok.mp h
    exact ⟨_, ⟨ds, order, each, rfl⟩, brought⟩
  | scale =>
    rw [resolveTo] at h
    obtain ⟨d, done, brought⟩ := bind_eq_ok.mp h
    obtain ⟨term, last, done⟩ := resolveTerm_eq_ok done
    exact ⟨_, ⟨term, d, last, done, rfl⟩, brought⟩
  | indexSum | product | contraction | gemm =>
    rw [resolveTo] at h
    obtain ⟨ds, each, brought⟩ := bind_eq_ok.mp h
    exact ⟨_, ⟨ds, resolveOwn_eq_ok.mp each, rfl⟩, brought⟩
  | assign =>
    rw [resolveTo] at h
    obtain ⟨ds, assigned, brought⟩ := bind_eq_ok.mp h
    obtain ⟨leaf, value, v, operands, done, rfl⟩ := resolveAssigned_eq_ok assigned
    exact ⟨_, ⟨leaf, value, v, operands, done, rfl⟩, brought⟩

/-! ### One order for the operands of a sum -/

def DistinctNames (x : Node) : Prop := ∀ i, x.indices = some i → i.Distinct

def ResolvesTo (Q : Node → Prop) (n : Node) : Prop :=
  ∀ (target : Option Indices) (m : Node), (∀ t, target = some t → t.Distinct) →
    n.resolveTo target = .ok m → Q m ∧ ∀ t, target = some t → m.indices = some t

/-- The order of a sum is required of it, or that of an operand. -/
theorem distinct_sumOrder {target : Option Indices} {operands : List Node}
    (ht : ∀ t, target = some t → t.Distinct) (each : ∀ c ∈ operands, c.DistinctNames) :
    ∀ i, sumOrder target operands = some i → i.Distinct := by
  intro i known
  cases target with
  | some t => exact ht i known
  | none =>
    obtain ⟨c, found, known⟩ := Option.bind_eq_some_iff.mp known
    exact each c (List.mem_of_find?_eq_some found) i known

/-- The operands of a sum end in its order, unless they have no indices at all. -/
theorem resolveSummands_aligned {Q : Node → Prop} (distinct : ∀ {m}, Q m → m.DistinctNames)
    {order final : Option Indices} {cs ds : List Node} (hc : ∀ c ∈ cs, c.ResolvesTo Q)
    (ho : ∀ i, order = some i → i.Distinct) (h : resolveSummands order cs = .ok (ds, final)) :
    (∀ i, order = some i → final = some i) ∧ (∀ i, final = some i → i.Distinct) ∧
      ∀ d ∈ ds, Q d ∧ (d.indices = none ∨ d.indices = final) := by
  induction cs generalizing order ds with
  | nil =>
    rw [resolveSummands, pure_eq_ok] at h
    cases h
    exact ⟨fun _ same => same, ho, by simp⟩
  | cons c cs ih =>
    obtain ⟨resolves, rest⟩ := List.forall_mem_cons.mp hc
    simp only [resolveSummands, bind_eq_ok, pure_eq_ok] at h
    obtain ⟨d, first, ⟨ds', last⟩, others, done⟩ := h
    cases done
    obtain ⟨property, aligned⟩ := resolves order d ho first
    have next : (order.orElse fun _ => d.indices) = d.indices := by
      cases order with
      | none => rfl
      | some i => exact (aligned i rfl).symm
    rw [next] at others
    obtain ⟨start, ordered, each⟩ := ih rest (distinct property) others
    refine ⟨fun i known => start i (aligned i known), ordered, ?_⟩
    refine List.forall_mem_cons.mpr ⟨⟨property, ?_⟩, each⟩
    cases known : d.indices with
    | none => exact .inl rfl
    | some i => exact .inr (start i known).symm

end TensorKernel.Node
