import TensorKernel.Proofs.Tree.Bracketing
import TensorKernel.Proofs.Tree.Construction

/-!
What arithmetic keeps. Products, sums and differences come down to a few steps: to scale, to fold, to
go under the factor of an operand. What these steps keep, the operations keep (`Arithmetical`), and
assignments, too, if it is kept by copies and by what a tensor is assigned (`Assigning`).

Arithmetic adds no trees to those of the constructors: folding leaves one product or one sum over
constructed operands, and a factor is moved, not added (`assigning_constructed`). So what holds of
all constructed trees holds of trees that are put together in both ways.
-/

namespace TensorKernel.Node

/-- What the steps of arithmetic keep. What is applied under factors gives no scaled trees. -/
structure Arithmetical (P : Node → Prop) : Prop where
  scale : ∀ {factor : Factor} {term n : Node}, P term → Node.scale factor term = .ok n → P n
  fold : ∀ {kind : Kind} {left right : Node}, kind = .einsum ∨ kind = .add → P left → P right →
    P (Node.fold kind left right)
  underFactors : ∀ {f : Node → Node} {n m : Node},
    (∀ x, P x → P (f x) ∧ (f x).kind.isScale = false) → P n → n.mapUnderFactors f = .ok m → P m

structure Assigning (P : Node → Prop) : Prop extends Arithmetical P where
  assignment : ∀ {target value n : Node}, P target → P value → target.assignment value = .ok n → P n
  copy : ∀ {value : Node}, P value → P (einsum [value])

namespace Arithmetical

variable {P : Node → Prop} (h : Arithmetical P) {left n : Node} {right : Operand} (hl : P left)
  (hr : ∀ r, right = .node r → P r)
include h hl hr

theorem times (done : left.times right = .ok n) : P n := by
  cases right with
  | factor factor => exact h.scale hl done
  | node right =>
    have hr := hr right rfl
    have product {x y : Node} (hx : P x) (hy : P y) :
        P (x.timesNode y) ∧ (x.timesNode y).kind.isScale = false :=
      ⟨h.fold (.inl rfl) hx hy, isScale_fold x y⟩
    simp only [Node.times] at done
    split at done
    · split at done
      · exact absurd done refuse_ne_ok
      · exact h.underFactors (fun x hx => product hx hr) hl done
    · exact h.underFactors (fun x hx => product hl hx) hr done

theorem plus (done : left.plus right = .ok n) : P n := by
  cases right with
  | factor factor => exact absurd done refuse_ne_ok
  | node right =>
    obtain rfl := pure_eq_ok.mp done
    exact h.fold (.inr rfl) hl (hr right rfl)

theorem minus (done : left.minus right = .ok n) : P n := by
  cases right with
  | factor factor => exact absurd done refuse_ne_ok
  | node right =>
    obtain ⟨negated, scaled, done⟩ := bind_eq_ok.mp done
    obtain rfl := pure_eq_ok.mp done
    exact h.fold (.inr rfl) hl (h.scale (hr right rfl) scaled)

end Arithmetical

theorem Assigning.assign {P : Node → Prop} (h : Assigning P) {left n : Node} {right : Operand}
    (hl : P left) (hr : ∀ r, right = .node r → P r) (done : left.assign right = .ok n) : P n := by
  cases right with
  | factor factor => exact absurd done refuse_ne_ok
  | node value =>
    have hv := hr value rfl
    simp only [Node.assign] at done
    split at done
    · exact h.assignment hl (h.copy hv) done
    · exact h.assignment hl hv done

/-! ### Constructed trees -/

/-- The constructor behind a product that is still to be resolved, a sum or a scaled tree. -/
theorem Constructed.origin {n : Node} (h : n.Constructed) :
    match n.kind with
    | .einsum => ∃ operands, (∀ x ∈ operands, x.Constructed) ∧ n = Node.einsum operands
    | .add => ∃ operands, (∀ x ∈ operands, x.Constructed) ∧ n = Node.add operands
    | .scale factor => ∃ term, term.Constructed ∧ Node.scale factor term = .ok n
    | .leaf _ | .indexSum _ | .product | .contraction _ | .gemm _ | .assign => True := by
  cases h with
  | indexed made done =>
    rw [(isTensor_of_indexed made.identifier done).1.kind]
    trivial
  | einsum each => exact ⟨_, each, rfl⟩
  | add each => exact ⟨_, each, rfl⟩
  | scale ht done =>
    rw [(scale_eq_ok done).2.kind]
    exact ⟨_, ht, done⟩
  | indexSum ht done =>
    obtain ⟨-, d, -, -, rfl⟩ := indexSum_eq_ok ht.composed.own done
    trivial
  | product hl hr done =>
    obtain ⟨-, rfl⟩ := product_eq_ok hl.composed.own hr.composed.own done
    trivial
  | contraction hl hr _ _ done =>
    obtain ⟨-, found, -, done⟩ := contraction_eq_ok hl.composed.own hr.composed.own done
    obtain ⟨_, -, ⟨-, rfl⟩ | ⟨-, -, kind, -⟩⟩ := reorder_cases done
    · trivial
    · rw [kind]
      trivial
  | gemm _ _ _ done =>
    obtain ⟨-, -, mapping, -, rfl⟩ := gemm_eq_ok done
    trivial
  | assignment _ _ done =>
    obtain ⟨-, rfl⟩ := assignment_eq_ok done
    trivial

/-- A product or a sum of a constructed tree has its operands and nothing else. -/
theorem Constructed.eq_ofKind {n : Node} {kind : Kind} (h : n.Constructed)
    (hk : kind = .einsum ∨ kind = .add) (same : n.kind = kind) :
    ∃ operands, (∀ x ∈ operands, x.Constructed) ∧ n = ofKind kind operands none := by
  have origin := h.origin
  rcases hk with rfl | rfl
  all_goals
    rw [same] at origin
    exact origin

/-- A scaled tree is its factor on a term that is not scaled. -/
theorem Constructed.eq_scaled {n : Node} (h : n.Constructed) (scaled : n.kind.isScale = true) :
    ∃ factor term, term.Constructed ∧ term.kind.isScale = false ∧
      n = ofKind (.scale factor) [term] term.indices := by
  have origin := h.origin
  cases kind : n.kind with
  | scale factor =>
    rw [kind] at origin
    obtain ⟨term, made, done⟩ := origin
    have unscaled := (scale_eq_ok done).1
    rw [scale_of_unscaled unscaled] at done
    exact ⟨factor, term, made, unscaled, (Except.ok.inj done).symm⟩
  | _ =>
    rw [kind] at scaled
    cases scaled

section
variable {left right : Node} {kind : Kind} (hk : kind = .einsum ∨ kind = .add)
  (hl : left.Constructed) (hr : right.Constructed)
include hk hl hr

/-- Folding leaves one node over all operands. -/
theorem fold_eq_ofKind :
    fold kind left right = ofKind kind (left.flattened kind ++ right.flattened kind) none := by
  unfold fold
  split
  · next same =>
    obtain ⟨_, -, rfl⟩ := hl.eq_ofKind hk same
    rfl
  · split
    · next same =>
      obtain ⟨_, -, rfl⟩ := hr.eq_ofKind hk same
      rfl
    · rfl

theorem constructed_fold : (fold kind left right).Constructed := by
  have children {n : Node} (hn : n.Constructed) (same : n.kind = kind) :
      ∀ x ∈ n.children, x.Constructed := by
    obtain ⟨operands, each, rfl⟩ := hn.eq_ofKind hk same
    exact each
  have operands : ∀ c ∈ left.flattened kind ++ right.flattened kind, c.Constructed := by
    intro c hc
    exact (List.mem_append.mp hc).elim (of_mem_flattened hl (children hl))
      (of_mem_flattened hr (children hr))
  rw [fold_eq_ofKind hk hl hr]
  rcases hk with rfl | rfl
  · exact .einsum operands
  · exact .add operands

end

theorem constructed_mapUnderFactors {f : Node → Node} {n m : Node}
    (hf : ∀ x, x.Constructed → (f x).Constructed ∧ (f x).kind.isScale = false)
    (hn : n.Constructed) (h : n.mapUnderFactors f = .ok m) : m.Constructed := by
  cases scaled : n.kind.isScale with
  | false =>
    rw [mapUnderFactors_of_unscaled scaled] at h
    exact Except.ok.inj h ▸ (hf n hn).1
  | true =>
    obtain ⟨factor, term, made, unscaled, rfl⟩ := hn.eq_scaled scaled
    obtain ⟨made, plain⟩ := hf term made
    rw [mapUnderFactors_scaled unscaled, ← scale_of_unscaled plain] at h
    exact .scale made h

/-- Trees that arithmetic makes of constructed ones could have been constructed. -/
theorem assigning_constructed : Assigning Constructed where
  scale ht done := .scale ht done
  fold hk hl hr := constructed_fold hk hl hr
  underFactors hf hn done := constructed_mapUnderFactors hf hn done
  assignment ht hv done := .assignment ht hv done
  copy hv := .einsum (by simpa using hv)

end TensorKernel.Node
