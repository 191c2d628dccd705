import TensorKernel.Proofs.Tree.Assembly

/-!
What resolution makes of trees of any shape: nodes that know their indices, except for sums of
nothing and what is made of them.

* `Resolved`: trees without products to resolve;
* `resolved_of_resolveTo`: resolution;
* `resolved_of_prepare`: the passes behind resolution keep that.
-/

namespace TensorKernel

namespace Node

/-- A tree without products to resolve. A scaled node has one term and its indices; a sum knows its
indices unless none of its operands does. Below a tensor there may be anything. -/
inductive Resolved : Node → Prop
  | leaf {n : Node} {t : Tensor} (kind : n.kind = .leaf t) (known : n.indices ≠ none) : Resolved n
  | add {n : Node} (kind : n.kind = .add)
      (unknown : n.indices = none → ∀ c ∈ n.children, c.indices = none)
      (children : ∀ c ∈ n.children, Resolved c) : Resolved n
  | scale {n term : Node} {factor : Factor} (kind : n.kind = .scale factor)
      (operand : n.children = [term]) (same : n.indices = term.indices) (resolved : Resolved term) :
      Resolved n
  | computed {n : Node} (kind : n.kind.isOperation = true ∨ n.kind = .assign)
      (known : n.indices ≠ none) (children : ∀ c ∈ n.children, Resolved c) : Resolved n

theorem Resolved.reorder {n m : Node} {order : Indices} {keep : Bool} (h : n.Resolved)
    (done : n.reorder order keep = .ok m) : m.Resolved := by
  have known := known_of_reorder done
  induction h generalizing m with
  | leaf kind unknown =>
    obtain ⟨_, -, ⟨-, rfl⟩ | ⟨-, -, -, -, -, -, children⟩⟩ := reorder_cases done
    · exact .leaf kind unknown
    · rw [kind] at children
      exact children.elim
  | add kind _ _ ih =>
    obtain ⟨_, -, ⟨-, rfl⟩ | ⟨-, -, kind', -, -, -, children⟩⟩ := reorder_cases done
    · exact .add kind (by assumption) (by assumption)
    · rw [kind] at children kind'
      refine .add kind' (fun none => absurd none known) fun d hd => ?_
      obtain ⟨c, hc, reordered⟩ := exists_of_forall₂_right children hd
      exact ih c hc reordered (known_of_reorder reordered)
  | @scale n term factor kind operand same _ ih =>
    obtain ⟨_, -, ⟨-, rfl⟩ | ⟨-, -, kind', -, -, -, children⟩⟩ := reorder_cases done
    · exact .scale kind operand same (by assumption)
    · rw [kind] at children kind'
      rw [operand] at children
      obtain ⟨d, children', reordered⟩ := forall₂_one children
      exact .scale kind' children' (reorder_indices_congr same done reordered)
        (ih reordered (known_of_reorder reordered))
  | @computed n kind _ each ih =>
    obtain ⟨_, -, ⟨-, rfl⟩ | ⟨-, -, kind', -, -, -, children⟩⟩ := reorder_cases done
    · exact .computed kind known each
    · rcases kind with operation | assign
      · have kept : m.children = n.children := by
          cases same : n.kind <;> rw [same] at operation children <;>
            first | exact children | cases operation
        refine .computed (.inl (kind' ▸ operation)) known ?_
        rw [kept]
        exact each
      · rw [assign] at children
        exact children.elim

theorem closed_resolved : Closed Resolved :=
  ⟨Resolved.reorder, fun {_ _ i} made _ each =>
    .computed (.inl (isOperation_of_isMade made)) (Option.some_ne_none i) each⟩

/-- The indices of a sum are unknown only if none of its operands has any. -/
theorem unknown_of_resolveSummands {order : Option Indices} {cs ds : List Node}
    (h : resolveSummands order cs = .ok (ds, none)) :
    order = none ∧ ∀ d ∈ ds, d.indices = none := by
  induction cs generalizing order ds with
  | nil =>
    rw [resolveSummands, pure_eq_ok] at h
    cases h
    exact ⟨rfl, by simp⟩
  | cons c cs ih =>
    simp only [resolveSummands, bind_eq_ok, pure_eq_ok] at h
    obtain ⟨d, -, ⟨rest, last⟩, others, done⟩ := h
    cases done
    obtain ⟨next, unknown⟩ := ih others
    cases order with
    | some i => cases next
    | none => exact ⟨rfl, List.forall_mem_cons.mpr ⟨next, unknown⟩⟩

theorem resolved_of_resolveTo {n m : Node} {target : Option Indices} (rooted : n.Everywhere Rooted)
    (h : n.resolveTo target = .ok m) : m.Resolved := by
  induction n using Node.induction generalizing target m with
  | node kind indices pattern layout prefetch children ih =>
  obtain ⟨r, resolved, brought⟩ := resolveTo_cases h
  have whole : r.Resolved := by
    cases kind with
    | leaf t =>
      obtain rfl := resolved
      exact .leaf rfl (rooted.root.known rfl)
    | einsum =>
      obtain ⟨ds, each, products⟩ := resolved
      refine closed_resolved.of_combines (.binarize products) fun d hd => ?_
      obtain ⟨c, hc, done⟩ := exists_of_forall₂_right each hd
      exact ih c hc (rooted.children c hc) done
    | add =>
      obtain ⟨ds, order, each, rfl⟩ := resolved
      refine .add rfl (fun none => ?_) fun d hd => ?_
      · obtain rfl : order = Option.none := none
        exact (unknown_of_resolveSummands each).2
      · obtain ⟨c, hc, _, done⟩ := exists_of_forall₂_right (resolveSummands_eq_ok each) hd
        exact ih c hc (rooted.children c hc) done
    | scale =>
      obtain ⟨term, d, last, done, rfl⟩ := resolved
      have member := List.mem_of_getLast? last
      exact .scale rfl rfl rfl (ih term member (rooted.children term member) done)
    | indexSum | product | contraction | gemm =>
      obtain ⟨ds, each, rfl⟩ := resolved
      refine .computed (.inl rfl) (rooted.root.known rfl) fun d hd => ?_
      obtain ⟨c, hc, done⟩ := exists_of_forall₂_right each hd
      exact ih c hc (rooted.children c hc) done
    | assign =>
      obtain ⟨leaf, value, v, rfl, done, rfl⟩ := resolved
      obtain ⟨_, _, t, operands, kind⟩ := rooted.root.target rfl
      cases operands
      refine .computed (.inr rfl) (rooted.root.known rfl) fun d hd => ?_
      rcases List.mem_pair.mp hd with rfl | rfl
      · refine .leaf kind ((rooted.children d (by simp)).root.known ?_)
        rw [kind]
        rfl
      · exact ih value (by simp) (rooted.children value (by simp)) done
  cases target with
  | none =>
    obtain rfl := pure_eq_ok.mp brought
    exact whole
  | some t =>
    exact closed_resolved.of_combines ((Combines.operand r).bring brought) (by simpa using whole)

/-! ### The passes behind resolution -/

/-- A pass that keeps the indices of nodes, and their kinds but for operations, keeps a tree
resolved. -/
theorem Resolved.of_children {n m : Node} (h : n.Resolved)
    (kind : m.kind = n.kind ∨ n.kind.isOperation = true ∧ m.kind.isOperation = true)
    (indices : m.indices = n.indices)
    (children : List.Forall₂ (fun c d => d.indices = c.indices ∧ (c.Resolved → d.Resolved))
      n.children m.children) : m.Resolved := by
  have same (operation : n.kind.isOperation = false) : m.kind = n.kind := by
    refine kind.resolve_right fun both => ?_
    rw [operation] at both
    cases both.1
  cases h with
  | leaf leaf known =>
    exact .leaf ((same (by rw [leaf]; rfl)).trans leaf) (indices ▸ known)
  | add add unknown each =>
    refine .add ((same (by rw [add]; rfl)).trans add) (fun none d hd => ?_) fun d hd => ?_
    · obtain ⟨c, hc, equal, -⟩ := exists_of_forall₂_right children hd
      exact equal.trans (unknown (indices.symm.trans none) c hc)
    · obtain ⟨c, hc, -, keeps⟩ := exists_of_forall₂_right children hd
      exact keeps (each c hc)
  | scale scale operand term resolved =>
    rw [operand] at children
    obtain ⟨d, operand', equal, keeps⟩ := forall₂_one children
    exact .scale ((same (by rw [scale]; rfl)).trans scale) operand'
      (indices.trans (term.trans equal.symm)) (keeps resolved)
  | computed computed known each =>
    refine .computed ?_ (indices ▸ known) fun d hd => ?_
    · rcases kind with kind | both
      · exact kind ▸ computed
      · exact .inl both.2
    · obtain ⟨c, hc, -, keeps⟩ := exists_of_forall₂_right children hd
      exact keeps (each c hc)

theorem Resolved.annotate {pass : Node → Result Node} (annotates : Annotates pass) {n m : Node}
    (h : n.annotate pass = .ok m) : m.indices = n.indices ∧ (n.Resolved → m.Resolved) := by
  induction n using Node.induction generalizing m with
  | node kind indices pattern layout prefetch children ih =>
    obtain ⟨done, all, passed⟩ := annotate_eq_ok.mp h
    have kept := annotates _ m passed
    refine ⟨kept.indices, fun resolved => resolved.of_children (.inl kept.kind) kept.indices ?_⟩
    rw [kept.children]
    exact forall₂_imp_of_mem all fun c hc d annotated => ih c hc annotated

theorem Resolved.mapContractions {source : Gemm.Source} {n m : Node} {count : Nat}
    (h : n.mapContractions source = .ok (m, count)) : n.Resolved → m.Resolved := by
  induction n using Node.induction generalizing m count with
  | node kind indices pattern layout prefetch children ih =>
    obtain ⟨mapped, each⟩ := mapped_of_mapContractions h
    intro resolved
    refine resolved.of_children mapped.role mapped.indices ?_
    exact forall₂_imp_of_mem each fun c hc d ⟨_, done⟩ =>
      ⟨(mapped_of_mapContractions done).1.indices, ih c hc done⟩

/-- Preparation leaves a resolved tree of any statement. -/
theorem resolved_of_prepare {config : Config} {n m : Node} (rooted : n.Everywhere Rooted)
    (h : n.prepare config = .ok m) : m.Resolved := by
  obtain ⟨r, p, l, resolved, propagated, laid, mapped⟩ := prepare_stages h
  have first := (Resolved.annotate annotates_withPattern propagated).2
    (resolved_of_resolveTo rooted resolved)
  have second := (Resolved.annotate (annotates_withLayout config) laid).2 first
  rcases mapped with rfl | ⟨count, mapped⟩
  · exact second
  · exact Resolved.mapContractions mapped second

/-- Where no sum is empty, all nodes of a resolved tree know their indices. -/
theorem Resolved.known {n : Node} (h : n.Resolved)
    (summand : n.Everywhere fun x => x.kind = .add → x.children ≠ []) : n.indices ≠ none := by
  induction h with
  | leaf _ known => exact known
  | @add n kind unknown _ ih =>
    intro none
    obtain ⟨c, hc⟩ := List.exists_mem_of_ne_nil n.children (summand.root kind)
    exact ih c hc (summand.children c hc) (unknown none c hc)
  | scale _ operand same _ ih =>
    rw [same]
    exact ih (summand.children _ (by simp [operand]))
  | computed _ known _ => exact known

end Node

end TensorKernel
