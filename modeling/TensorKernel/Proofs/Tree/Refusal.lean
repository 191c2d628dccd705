import TensorKernel.Proofs.Tree.Everywhere

/-!
Resolution fails with composition errors only. Reordering could address dimensions that a pattern or
a layout does not have; before preparation no node has either (`Bare`), and resolution gives none.

* `OnlyRefuses`: a computation that fails with composition errors only;
* `resolveTo_refuses`: resolution of a bare tree, whatever is required of it.
-/

namespace TensorKernel

section
variable {α β : Type}

def OnlyRefuses (x : Result α) : Prop := ∀ e, x = .error e → ∃ cause, e = .composition cause

theorem onlyRefuses_pure (a : α) : OnlyRefuses (pure a : Result α) := by
  intro e h
  cases h

theorem onlyRefuses_refuse (cause : CompositionError) : OnlyRefuses (refuse cause : Result α) := by
  intro e h
  exact ⟨cause, (Except.error.inj h).symm⟩

theorem OnlyRefuses.bind {x : Result α} {f : α → Result β} (hx : OnlyRefuses x)
    (hf : ∀ a, x = .ok a → OnlyRefuses (f a)) : OnlyRefuses (x >>= f) := by
  intro e h
  rcases bind_eq_error.mp h with first | ⟨a, done, rest⟩
  · exact hx e first
  · exact hf a done e rest

theorem OnlyRefuses.mapComposition {x : Result α} (h : OnlyRefuses x)
    (f : CompositionError → CompositionError) :
    OnlyRefuses (x.mapError (Error.mapComposition f)) := by
  intro e failed
  obtain ⟨cause, first, rfl⟩ := mapError_eq_error.mp failed
  obtain ⟨c, rfl⟩ := h cause first
  exact ⟨f c, rfl⟩

theorem onlyRefuses_mapM {f : α → Result β} {as : List α} (h : ∀ a ∈ as, OnlyRefuses (f a)) :
    OnlyRefuses (as.mapM f) := by
  induction as with
  | nil => exact onlyRefuses_pure []
  | cons a as ih =>
    obtain ⟨first, rest⟩ := List.forall_mem_cons.mp h
    rw [List.mapM_cons]
    exact first.bind fun _ _ => (ih rest).bind fun _ _ => onlyRefuses_pure _

end

theorem Indices.checkAgrees_refuses (i j : Indices) : OnlyRefuses (i.checkAgrees j) := by
  unfold checkAgrees
  split
  · exact onlyRefuses_pure ()
  · exact onlyRefuses_refuse _

namespace Node

structure Bare (x : Node) : Prop where
  pattern : x.pattern = none
  layout : x.layout = none

theorem stable_bare : Stable Bare :=
  ⟨fun resembles bare => ⟨resembles.pattern bare.pattern, resembles.layout bare.layout⟩,
    fun _ _ => ⟨rfl, rfl⟩⟩

/-! ### Orders -/

theorem resolvedIndices_refuses (n : Node) : OnlyRefuses n.resolvedIndices := by
  unfold resolvedIndices
  split
  · exact onlyRefuses_pure _
  · exact onlyRefuses_refuse _

theorem operandIndices_refuses (n : Node) : OnlyRefuses n.operandIndices := by
  unfold operandIndices
  split
  · exact onlyRefuses_pure _
  · exact onlyRefuses_refuse _

theorem reorderAll_refuses {order : Indices} {keep : Bool} {children : List Node}
    (each : ∀ c ∈ children, OnlyRefuses (c.reorder order keep)) :
    OnlyRefuses (reorderAll order keep children) := by
  induction children with
  | nil => exact onlyRefuses_pure []
  | cons c cs ih =>
    obtain ⟨first, rest⟩ := List.forall_mem_cons.mp each
    rw [reorderAll]
    exact first.bind fun _ _ => (ih rest).bind fun _ _ => onlyRefuses_pure _

theorem reorder_refuses {n : Node} (bare : n.Everywhere Bare) (order : Indices) (keep : Bool) :
    OnlyRefuses (n.reorder order keep) := by
  induction n using Node.induction with
  | node kind indices pattern layout prefetch children ih =>
    obtain ⟨rfl, rfl⟩ := bare.root
    have each (c : Node) (hc : c ∈ children) := ih c hc (bare.children c hc)
    -- without a pattern and a layout there is nothing to permute but the indices
    have finish {x : Result (List Node)} (hx : OnlyRefuses x) (i : Option Indices)
        (perm : List Nat) : OnlyRefuses (do
          let children ← x
          let pattern ← reorderPattern keep perm none
          let layout ← reorderLayout perm none
          pure (⟨kind, i, pattern, layout, prefetch, children⟩ : Node)) :=
      hx.bind fun _ _ => onlyRefuses_pure _
    cases indices with
    | none => exact onlyRefuses_refuse _
    | some current =>
      rw [reorder]
      split
      · exact onlyRefuses_pure _
      · split
        · exact onlyRefuses_refuse _
        · cases kind with
          | leaf | assign => exact finish (onlyRefuses_refuse _) _ _
          | scale | add => exact finish (reorderAll_refuses each) _ _
          | einsum | indexSum | product | contraction | gemm =>
            exact finish (onlyRefuses_pure children) _ _

theorem bring_refuses {n : Node} (bare : n.Everywhere Bare) (target : Indices) :
    OnlyRefuses (n.bring target) := by
  refine (resolvedIndices_refuses n).bind fun current _ => ?_
  split
  · exact (current.checkAgrees_refuses target).bind fun _ _ => reorder_refuses bare target true
  · exact onlyRefuses_refuse _

/-! ### Products -/

theorem indexSum_refuses (term : Node) (name : Char) : OnlyRefuses (term.indexSum name) := by
  refine (operandIndices_refuses term).bind fun i _ => ?_
  split
  · exact onlyRefuses_pure _
  · exact onlyRefuses_refuse _

theorem agreeingIndices_refuses (left right : Node) : OnlyRefuses (agreeingIndices left right) :=
  (operandIndices_refuses left).bind fun li _ => (operandIndices_refuses right).bind fun ri _ =>
    (li.checkAgrees_refuses ri).bind fun _ _ => onlyRefuses_pure _

theorem contraction_refuses {left right : Node} (hl : left.Everywhere Bare)
    (hr : right.Everywhere Bare) (indices sum : Indices) :
    OnlyRefuses (contraction indices left right sum) := by
  refine (agreeingIndices_refuses left right).bind fun ⟨li, ri⟩ _ => ?_
  dsimp only
  split
  · exact onlyRefuses_refuse _
  · have each : ∀ c ∈ [left, right], c.Everywhere Bare := by simp [hl, hr]
    exact reorder_refuses (stable_bare.closed.made rfl (List.cons_ne_nil _ _) each) indices true

theorem multiply_refuses {left right : Node} (hl : left.Everywhere Bare)
    (hr : right.Everywhere Bare) (needed : Indices) : OnlyRefuses (multiply needed left right) := by
  refine (resolvedIndices_refuses left).bind fun _ _ =>
    (resolvedIndices_refuses right).bind fun _ _ => ?_
  dsimp only
  split
  · exact (agreeingIndices_refuses left right).bind fun _ _ => onlyRefuses_pure _
  · exact contraction_refuses hl hr _ _

theorem multiplyAll_refuses {left : Node} {rest : List Node} (hl : left.Everywhere Bare)
    (hr : ∀ x ∈ rest, x.Everywhere Bare) (keep : Indices) :
    OnlyRefuses (left.multiplyAll keep rest) := by
  induction rest generalizing left with
  | nil => exact onlyRefuses_pure left
  | cons right later ih =>
    obtain ⟨hright, hlater⟩ := List.forall_mem_cons.mp hr
    refine (multiply_refuses hl hright _).bind fun next product => ih ?_ hlater
    exact stable_bare.closed.of_combines ((Combines.operand left).multiply (.operand right) product)
      (by simp [hl, hright])

theorem mergedIndices_refuses (found : Indices) (operands : List Node) :
    OnlyRefuses (mergedIndices found operands) := by
  induction operands generalizing found with
  | nil => exact onlyRefuses_pure found
  | cons operand operands ih =>
    exact (resolvedIndices_refuses operand).bind fun i _ =>
      (found.checkAgrees_refuses i).bind fun _ _ => ih _

theorem keptIndices_refuses (target : Option Indices) (operands : List Node) (all : Indices) :
    OnlyRefuses (keptIndices target operands all) := by
  unfold keptIndices
  split
  · split
    · exact onlyRefuses_refuse _
    · exact (all.checkAgrees_refuses _).bind fun _ _ => onlyRefuses_pure _
  · exact onlyRefuses_pure _

theorem sumPrivate_refuses (keep : Indices) (operands : List Node) (x : Node) :
    OnlyRefuses (sumPrivate keep operands x) := by
  have fold (names : List Char) (x : Node) : OnlyRefuses (names.foldlM indexSum x) := by
    induction names generalizing x with
    | nil => exact onlyRefuses_pure x
    | cons name names ih =>
      rw [List.foldlM_cons]
      exact (indexSum_refuses x name).bind fun next _ => ih next
  exact (resolvedIndices_refuses x).bind fun _ _ => fold _ x

theorem binarize_refuses {operands : List Node} (bare : ∀ x ∈ operands, x.Everywhere Bare)
    (target : Option Indices) : OnlyRefuses (binarize target operands) := by
  unfold binarize
  split
  · exact (onlyRefuses_refuse _).bind fun _ refused => absurd refused refuse_ne_ok
  · refine (mergedIndices_refuses .empty operands).bind fun all _ => ?_
    refine (keptIndices_refuses target operands all).bind fun keep _ => ?_
    refine (onlyRefuses_mapM fun x _ => sumPrivate_refuses keep operands x).bind fun ys sums => ?_
    have each : ∀ y ∈ ys, y.Everywhere Bare := by
      intro y hy
      obtain ⟨x, hx, done⟩ := exists_of_forall₂_right (mapM_eq_ok.mp sums) hy
      exact stable_bare.closed.of_combines ((Combines.operand x).sumPrivate done)
        (by simpa using bare x hx)
    cases ys with
    | nil => exact onlyRefuses_refuse _
    | cons first rest =>
      obtain ⟨hf, hr⟩ := List.forall_mem_cons.mp each
      refine (multiplyAll_refuses hf hr keep).bind fun n products => bring_refuses ?_ keep
      have whole := (Combines.operand first).multiplyAll
        (List.forall₂_same.mpr fun x _ => .operand x) products
      exact stable_bare.closed.of_combines whole each

/-! ### Resolution -/

def ResolvesOrRefuses (n : Node) : Prop := ∀ target, OnlyRefuses (n.resolveTo target)

section
variable {children : List Node} (each : ∀ c ∈ children, c.ResolvesOrRefuses)
include each

theorem resolveFree_refuses : OnlyRefuses (resolveFree children) := by
  induction children with
  | nil => exact onlyRefuses_pure []
  | cons c cs ih =>
    obtain ⟨first, rest⟩ := List.forall_mem_cons.mp each
    rw [resolveFree]
    exact (first none).bind fun _ _ => (ih rest).bind fun _ _ => onlyRefuses_pure _

theorem resolveOwn_refuses : OnlyRefuses (resolveOwn children) := by
  induction children with
  | nil => exact onlyRefuses_pure []
  | cons c cs ih =>
    obtain ⟨first, rest⟩ := List.forall_mem_cons.mp each
    rw [resolveOwn]
    exact (first c.indices).bind fun _ _ => (ih rest).bind fun _ _ => onlyRefuses_pure _

theorem resolveSummands_refuses (order : Option Indices) :
    OnlyRefuses (resolveSummands order children) := by
  induction children generalizing order with
  | nil => exact onlyRefuses_pure _
  | cons c cs ih =>
    obtain ⟨first, rest⟩ := List.forall_mem_cons.mp each
    rw [resolveSummands]
    exact (first order).bind fun _ _ => (ih rest _).bind fun _ _ => onlyRefuses_pure _

theorem resolveTerm_refuses (target : Option Indices) :
    OnlyRefuses (resolveTerm target children) := by
  induction children with
  | nil => exact onlyRefuses_refuse _
  | cons c cs ih =>
    obtain ⟨first, rest⟩ := List.forall_mem_cons.mp each
    cases cs with
    | nil => exact first target
    | cons _ _ => exact ih rest

theorem resolveAssigned_refuses : OnlyRefuses (resolveAssigned children) := by
  unfold resolveAssigned
  split
  · next target value =>
    exact ((each value (by simp) target.indices).mapComposition _).bind fun _ _ =>
      onlyRefuses_pure _
  · exact onlyRefuses_refuse _

end

/-- Whatever the order is that a resolved node is brought to, if to any. -/
theorem brought_refuses {n : Node} (bare : n.Everywhere Bare) (target : Option Indices) :
    OnlyRefuses (match target with | some t => n.bring t | none => pure n) := by
  cases target with
  | none => exact onlyRefuses_pure n
  | some t => exact bring_refuses bare t

theorem resolveTo_refuses {n : Node} (bare : n.Everywhere Bare) : n.ResolvesOrRefuses := by
  induction n using Node.induction with
  | node kind indices pattern layout prefetch children ih =>
    intro target
    have each (c : Node) (hc : c ∈ children) := ih c hc (bare.children c hc)
    obtain ⟨rfl, rfl⟩ := bare.root
    have child {c d : Node} {o : Option Indices} (hc : c ∈ children)
        (done : c.resolveTo o = .ok d) : d.Everywhere Bare :=
      resolveTo_everywhere stable_bare (bare.children c hc) done
    have children_bare {o : Node → Option Indices} {ds : List Node}
        (all : List.Forall₂ (fun c d => c.resolveTo (o c) = .ok d) children ds) :
        ∀ d ∈ ds, d.Everywhere Bare := by
      intro d hd
      obtain ⟨c, hc, done⟩ := exists_of_forall₂_right all hd
      exact child hc done
    have rebuilt {i : Option Indices} {ds : List Node} (h : ∀ d ∈ ds, d.Everywhere Bare) :
        Everywhere Bare ⟨kind, i, none, none, prefetch, ds⟩ :=
      everywhere_iff.mpr ⟨⟨rfl, rfl⟩, h⟩
    cases kind with
    | leaf =>
      rw [resolveTo]
      exact brought_refuses bare target
    | einsum =>
      rw [resolveTo]
      refine (resolveFree_refuses each).bind fun ds done => ?_
      have free := children_bare (resolveFree_eq_ok.mp done)
      exact (binarize_refuses free target).bind fun r products =>
        brought_refuses (stable_bare.closed.of_combines (.binarize products) free) target
    | add =>
      rw [resolveTo]
      refine (resolveSummands_refuses each _).bind fun summands done => ?_
      refine brought_refuses (rebuilt fun d hd => ?_) target
      obtain ⟨c, hc, o, done⟩ := exists_of_forall₂_right (resolveSummands_eq_ok done) hd
      exact child hc done
    | scale =>
      rw [resolveTo]
      refine (resolveTerm_refuses each target).bind fun d done =>
        brought_refuses (rebuilt ?_) target
      obtain ⟨term, last, done⟩ := resolveTerm_eq_ok done
      simpa using child (List.mem_of_getLast? last) done
    | indexSum | product | contraction | gemm =>
      rw [resolveTo]
      exact (resolveOwn_refuses each).bind fun ds done =>
        brought_refuses (rebuilt (children_bare (resolveOwn_eq_ok.mp done))) target
    | assign =>
      rw [resolveTo]
      refine (resolveAssigned_refuses each).bind fun ds done =>
        brought_refuses (rebuilt ?_) target
      obtain ⟨leaf, value, v, rfl, resolved, rfl⟩ := resolveAssigned_eq_ok done
      intro d hd
      rcases List.mem_pair.mp hd with rfl | rfl
      · exact bare.children _ List.mem_cons_self
      · exact child (by simp) resolved

end Node

end TensorKernel
