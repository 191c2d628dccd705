import TensorKernel.Proofs.Tree.Written

/-!
Trees of any shape. Children can be exchanged after a node was built, so that its indices need not
go with theirs any more. Little is left to rely on: tensors, operations and assignments know some
indices, and an assignment has a tensor for a target.

* `Assembled`: all trees that can be put together and changed;
* `Rooted`, `Assembled.rooted`: what is known of their nodes.
-/

namespace TensorKernel

/-- The kinds of nodes that have indices when they are built. -/
def Kind.isRooted : Kind → Bool
  | .leaf _ | .indexSum _ | .product | .contraction _ | .gemm _ | .assign => true
  | .einsum | .add | .scale _ => false

namespace Node

/-- The trees that can be put together, by the constructors and by arithmetic, and what they can be
changed to: by other children, a pattern, a layout, a tensor to prefetch or another order of the
indices, and by passes. -/
inductive Assembled : Node → Prop
  | indexed {tensor : Tensor} {names : List Char} {n : Node} (made : tensor.Constructed)
      (done : indexed tensor names = .ok n) : Assembled n
  | einsum {operands : List Node} (each : ∀ x ∈ operands, Assembled x) :
      Assembled (einsum operands)
  | add {operands : List Node} (each : ∀ x ∈ operands, Assembled x) : Assembled (add operands)
  | scale {factor : Factor} {term n : Node} (ht : Assembled term)
      (done : scale factor term = .ok n) : Assembled n
  | indexSum {term n : Node} {name : Char} (ht : Assembled term)
      (done : term.indexSum name = .ok n) : Assembled n
  | product {left right n : Node} (hl : Assembled left) (hr : Assembled right)
      (done : left.product right = .ok n) : Assembled n
  | contraction {indices sum : Indices} {left right n : Node} (hl : Assembled left)
      (hr : Assembled right) (done : contraction indices left right sum = .ok n) : Assembled n
  | gemm {indices : Indices} {left right n : Node} {partition : Gemm.Partition}
      (hl : Assembled left) (hr : Assembled right)
      (done : gemm indices left right partition = .ok n) : Assembled n
  | assignment {target value n : Node} (ht : Assembled target) (hv : Assembled value)
      (done : target.assignment value = .ok n) : Assembled n
  | withChildren {n m : Node} {children : List Node} (hn : Assembled n)
      (each : ∀ c ∈ children, Assembled c) (done : n.withChildren children = .ok m) : Assembled m
  | prefetching {n : Node} (tensor : Tensor) (hn : Assembled n) :
      Assembled { n with prefetch := some tensor }
  | patterned {n : Node} (pattern : Pattern) (hn : Assembled n) :
      Assembled { n with pattern := some pattern }
  | laid {n : Node} (layout : Layout) (hn : Assembled n) :
      Assembled { n with layout := some layout }
  | reordered {n m : Node} {order : Indices} {keep : Bool} (hn : Assembled n)
      (done : n.reorder order keep = .ok m) : Assembled m
  | resolved {n m : Node} (hn : Assembled n) (done : n.resolve = .ok m) : Assembled m
  | propagated {n m : Node} (hn : Assembled n) (done : n.propagateSparsity = .ok m) : Assembled m
  | placed {n m : Node} {config : Config} (hn : Assembled n)
      (done : n.computeLayouts config = .ok m) : Assembled m
  | mapped {n m : Node} {source : Gemm.Source} {count : Nat} (hn : Assembled n)
      (done : n.mapContractions source = .ok (m, count)) : Assembled m
  | times {left n : Node} {right : Operand} (hl : Assembled left)
      (hr : ∀ r, right = .node r → Assembled r) (done : left.times right = .ok n) : Assembled n
  | plus {left n : Node} {right : Operand} (hl : Assembled left)
      (hr : ∀ r, right = .node r → Assembled r) (done : left.plus right = .ok n) : Assembled n
  | minus {left n : Node} {right : Operand} (hl : Assembled left)
      (hr : ∀ r, right = .node r → Assembled r) (done : left.minus right = .ok n) : Assembled n
  | negate {term n : Node} (ht : Assembled term) (done : term.negate = .ok n) : Assembled n
  | assign {target n : Node} {value : Operand} (ht : Assembled target)
      (hv : ∀ v, value = .node v → Assembled v) (done : target.assign value = .ok n) : Assembled n

structure Rooted (x : Node) : Prop where
  made : ∀ t, x.kind = .leaf t → t.Constructed
  known : x.kind.isRooted = true → x.indices ≠ none
  target : x.kind = .assign → ∃ target value t, x.children = [target, value] ∧ target.kind = .leaf t

/-! ### Assembled trees -/

/-- Nothing has to be known of sums, scaled nodes and products that are still to be resolved. -/
theorem rooted_of_kind {x : Node} (kind : x.kind.isRooted = false) : x.Rooted := by
  refine ⟨fun t leaf => ?_, fun rooted => ?_, fun assign => ?_⟩
  · rw [leaf] at kind
    cases kind
  · rw [kind] at rooted
    cases rooted
  · rw [assign] at kind
    cases kind

/-- An operation of known indices. -/
theorem rooted_of_operation {x : Node} (kind : x.kind.isOperation = true)
    (known : x.indices ≠ none) : x.Rooted := by
  refine ⟨fun t leaf => ?_, fun _ => known, fun assign => ?_⟩
  · rw [leaf] at kind
    cases kind
  · rw [assign] at kind
    cases kind

theorem rooted_reorder {n m : Node} {order : Indices} {keep : Bool} (hn : n.Everywhere Rooted)
    (h : n.reorder order keep = .ok m) : m.Everywhere Rooted := by
  induction n using Node.induction generalizing m with
  | node kind indices pattern layout prefetch children ih =>
    have known := known_of_reorder h
    obtain ⟨_, -, ⟨-, rfl⟩ | ⟨-, -, same, -, -, -, done⟩⟩ := reorder_cases h
    · exact hn
    cases kind with
    | leaf | assign => exact done.elim
    | scale | add =>
      refine everywhere_iff.mpr ⟨rooted_of_kind (by rw [same]; rfl), fun d hd => ?_⟩
      obtain ⟨c, hc, reordered⟩ := exists_of_forall₂_right done hd
      exact ih c hc (hn.children c hc) reordered
    | einsum =>
      obtain rfl : m.children = children := done
      exact everywhere_iff.mpr ⟨rooted_of_kind (by rw [same]; rfl), hn.children⟩
    | indexSum | product | contraction | gemm =>
      obtain rfl : m.children = children := done
      exact everywhere_iff.mpr ⟨rooted_of_operation (by rw [same]; rfl) known, hn.children⟩

theorem isOperation_of_isMade {kind : Kind} (made : kind.isMade = true) :
    kind.isOperation = true := by
  cases kind with
  | indexSum | product | contraction => rfl
  | leaf | einsum | add | scale | gemm | assign => cases made

/-- What is made of operands is rooted as they are. -/
theorem closed_rooted : Closed (Everywhere Rooted) :=
  ⟨rooted_reorder, fun {_ _ i} made _ each =>
    everywhere_iff.mpr
      ⟨rooted_of_operation (isOperation_of_isMade made) (Option.some_ne_none i), each⟩⟩

theorem rooted_assignment {target value n : Node} (ht : target.Everywhere Rooted)
    (hv : value.Everywhere Rooted) (h : target.assignment value = .ok n) : n.Everywhere Rooted := by
  obtain ⟨⟨t, leaf⟩, rfl⟩ := assignment_eq_ok h
  refine everywhere_iff.mpr ⟨⟨?_, fun _ => ?_, fun _ => ?_⟩, by simp [ofKind, ht, hv]⟩
  · intro t' leaf'
    cases leaf'
  · exact ht.root.known (by rw [leaf]; rfl)
  · exact ⟨target, value, t, rfl, leaf⟩

theorem rooted_scale {factor : Factor} {term n : Node} (ht : term.Everywhere Rooted)
    (h : scale factor term = .ok n) : n.Everywhere Rooted := by
  obtain ⟨-, scaled⟩ := scale_eq_ok h
  refine everywhere_iff.mpr ⟨rooted_of_kind ?_, by simpa [scaled.children] using ht⟩
  rw [scaled.kind]
  rfl

theorem rooted_withChildren {n m : Node} {children : List Node} (hn : n.Everywhere Rooted)
    (each : ∀ c ∈ children, c.Everywhere Rooted) (h : n.withChildren children = .ok m) :
    m.Everywhere Rooted := by
  unfold withChildren at h
  split at h
  · exact absurd h refuse_ne_ok
  split at h
  · exact absurd h refuse_ne_ok
  next binary target =>
    obtain rfl := pure_eq_ok.mp h
    refine everywhere_iff.mpr ⟨⟨hn.root.made, hn.root.known, fun (assign : n.kind = .assign) => ?_⟩,
      each⟩
    simp only [assign, Kind.isBinary, Bool.true_and, ne_eq, decide_not, Bool.not_eq_true',
      decide_eq_false_iff_not, not_not] at binary
    obtain ⟨target', value, rfl⟩ := List.length_eq_two.mp binary
    have leaf : target'.kind.isLeaf = true := by
      by_contra other
      exact target (by simp [assign, other])
    obtain ⟨t, leaf⟩ := Kind.isLeaf_iff.mp leaf
    exact ⟨target', value, t, rfl, leaf⟩

theorem rooted_fold {kind : Kind} {left right : Node} (hk : kind = .einsum ∨ kind = .add)
    (hl : left.Everywhere Rooted) (hr : right.Everywhere Rooted) :
    (fold kind left right).Everywhere Rooted := by
  have operands : ∀ c ∈ left.flattened kind ++ right.flattened kind, c.Everywhere Rooted := by
    intro c hc
    exact (List.mem_append.mp hc).elim (of_mem_flattened hl fun _ => hl.children)
      (of_mem_flattened hr fun _ => hr.children)
  have root {x : Node} (same : x.kind = kind) : x.Rooted := by
    apply rooted_of_kind
    rw [same]
    rcases hk with rfl | rfl <;> rfl
  unfold fold
  split
  · next same => exact everywhere_iff.mpr ⟨root same, operands⟩
  · split
    · next same => exact everywhere_iff.mpr ⟨root same, operands⟩
    · exact everywhere_iff.mpr ⟨root rfl, operands⟩

theorem rooted_mapUnderFactors {f : Node → Node}
    (hf : ∀ x, x.Everywhere Rooted → (f x).Everywhere Rooted) {n m : Node}
    (hn : n.Everywhere Rooted) (h : n.mapUnderFactors f = .ok m) : m.Everywhere Rooted := by
  induction n using Node.induction generalizing m with
  | node kind indices pattern layout prefetch children ih =>
    have last {cs : List Node} {t : Node} (sub : ∀ c ∈ cs, c ∈ children)
        (h : mapLastUnderFactors f cs = .ok t) : t.Everywhere Rooted := by
      induction cs with
      | nil => exact absurd h refuse_ne_ok
      | cons c cs step =>
        obtain ⟨head, tail⟩ := List.forall_mem_cons.mp sub
        cases cs with
        | nil => exact ih c head (hn.children c head) h
        | cons _ _ => exact step tail h
    cases kind with
    | scale factor =>
      simp only [mapUnderFactors, bind_eq_ok, pure_eq_ok] at h
      obtain ⟨t, mapped, rfl⟩ := h
      exact everywhere_iff.mpr ⟨rooted_of_kind rfl,
        by simpa using last (fun c hc => hc) mapped⟩
    | leaf | einsum | add | indexSum | product | contraction | gemm | assign =>
      simp only [mapUnderFactors] at h
      obtain rfl := pure_eq_ok.mp h
      exact hf _ hn

theorem assigning_rooted : Assigning (Everywhere Rooted) where
  scale ht done := rooted_scale ht done
  fold hk hl hr := rooted_fold hk hl hr
  underFactors hf hn done := rooted_mapUnderFactors (fun x hx => (hf x hx).1) hn done
  assignment ht hv done := rooted_assignment ht hv done
  copy hv := everywhere_iff.mpr ⟨rooted_of_kind rfl, by simpa [einsum, ofKind] using hv⟩

theorem rooted_resolveTo {n m : Node} {target : Option Indices} (hn : n.Everywhere Rooted)
    (h : n.resolveTo target = .ok m) : m.Everywhere Rooted := by
  induction n using Node.induction generalizing target m with
  | node kind indices pattern layout prefetch children ih =>
  obtain ⟨r, resolved, brought⟩ := resolveTo_cases h
  have whole : r.Everywhere Rooted := by
    cases kind with
    | leaf =>
      obtain rfl := resolved
      exact hn
    | einsum =>
      obtain ⟨ds, each, products⟩ := resolved
      refine closed_rooted.of_combines (.binarize products) fun d hd => ?_
      obtain ⟨c, hc, done⟩ := exists_of_forall₂_right each hd
      exact ih c hc (hn.children c hc) done
    | add =>
      obtain ⟨ds, order, each, rfl⟩ := resolved
      refine everywhere_iff.mpr ⟨rooted_of_kind rfl, fun d hd => ?_⟩
      obtain ⟨c, hc, _, done⟩ := exists_of_forall₂_right (resolveSummands_eq_ok each) hd
      exact ih c hc (hn.children c hc) done
    | scale =>
      obtain ⟨term, d, last, done, rfl⟩ := resolved
      have member := List.mem_of_getLast? last
      exact everywhere_iff.mpr
        ⟨rooted_of_kind rfl, by simpa using ih term member (hn.children term member) done⟩
    | indexSum | product | contraction | gemm =>
      obtain ⟨ds, each, rfl⟩ := resolved
      refine everywhere_iff.mpr ⟨rooted_of_operation rfl (hn.root.known rfl), fun d hd => ?_⟩
      obtain ⟨c, hc, done⟩ := exists_of_forall₂_right each hd
      exact ih c hc (hn.children c hc) done
    | assign =>
      obtain ⟨leaf, value, v, rfl, done, rfl⟩ := resolved
      obtain ⟨_, _, t, operands, target⟩ := hn.root.target rfl
      cases operands
      have value := ih value (by simp) (hn.children value (by simp)) done
      refine everywhere_iff.mpr ⟨⟨fun t' leaf' => ?_, hn.root.known, fun _ => ?_⟩, ?_⟩
      · cases leaf'
      · exact ⟨leaf, v, t, rfl, target⟩
      · simpa using ⟨hn.children leaf (by simp), value⟩
  cases target with
  | none =>
    obtain rfl := pure_eq_ok.mp brought
    exact whole
  | some t =>
    exact closed_rooted.of_combines ((Combines.operand r).bring brought) (by simpa using whole)

/-- A node with the kind and the indices of one before, for which a contraction may have become
matrix products, and with children of such kinds. -/
theorem Rooted.carried {x y : Node} (h : x.Rooted) (indices : y.indices = x.indices)
    (kind : y.kind = x.kind ∨ x.kind.isOperation = true ∧ y.kind.isOperation = true)
    (children :
      List.Forall₂ (fun c d => c.kind.isLeaf = true → d.kind = c.kind) x.children y.children) :
    y.Rooted := by
  rcases kind with same | ⟨operation, operation'⟩
  · refine ⟨fun t leaf => h.made t (same.symm.trans leaf), fun rooted => ?_, fun assign => ?_⟩
    · rw [indices]
      exact h.known (same ▸ rooted)
    · obtain ⟨target, value, t, operands, leaf⟩ := h.target (same.symm.trans assign)
      rw [operands] at children
      obtain ⟨target', value', operands', kind, -⟩ := forall₂_two children
      exact ⟨target', value', t, operands', (kind (by rw [leaf]; rfl)).trans leaf⟩
  · refine rooted_of_operation operation' ?_
    rw [indices]
    refine h.known ?_
    cases kind : x.kind <;> rw [kind] at operation <;> first | rfl | cases operation

theorem rooted_annotate {pass : Node → Result Node} (annotates : Annotates pass) {n m : Node}
    (hn : n.Everywhere Rooted) (h : n.annotate pass = .ok m) : m.Everywhere Rooted := by
  intro y hy
  obtain ⟨x, hx, ⟨kind, indices⟩, children⟩ :=
    exists_of_annotate (K := fun x y => y.kind = x.kind ∧ y.indices = x.indices)
      (fun n children m done =>
        have kept := annotates _ m done
        ⟨⟨kept.kind, kept.indices⟩, kept.children⟩) h hy
  exact (hn x hx).carried indices (.inl kind) (children.imp fun _ _ same _ => same.1)

theorem Carries.role {x y : Node} (h : Carries x y) :
    y.kind = x.kind ∨ x.kind.isOperation = true ∧ y.kind.isOperation = true := by
  rcases h.kind with same | ⟨⟨sum, contraction⟩, g, gemm⟩
  · exact .inl same
  · exact .inr ⟨by rw [contraction]; rfl, by rw [gemm]; rfl⟩

theorem rooted_mapContractions {source : Gemm.Source} {n m : Node} {count : Nat}
    (hn : n.Everywhere Rooted) (h : n.mapContractions source = .ok (m, count)) :
    m.Everywhere Rooted := by
  intro y hy
  obtain ⟨x, hx, mapped, children⟩ := exists_of_mapContractions h hy
  refine (hn x hx).carried mapped.indices mapped.role (children.imp fun c d mapped leaf => ?_)
  rcases mapped.kind with same | ⟨⟨sum, contraction⟩, -⟩
  · exact same
  · rw [contraction] at leaf
    cases leaf

/-- Preparation keeps what is known of the nodes of a statement. -/
theorem rooted_of_prepare {config : Config} {n m : Node} (hn : n.Everywhere Rooted)
    (h : n.prepare config = .ok m) : m.Everywhere Rooted := by
  obtain ⟨r, p, l, resolved, propagated, laid, mapped⟩ := prepare_stages h
  have first := rooted_annotate annotates_withPattern (rooted_resolveTo hn resolved) propagated
  have second := rooted_annotate (annotates_withLayout config) first laid
  rcases mapped with rfl | ⟨count, mapped⟩
  · exact second
  · exact rooted_mapContractions second mapped

theorem Assembled.rooted {n : Node} (h : n.Assembled) : n.Everywhere Rooted := by
  induction h with
  | indexed made done =>
    have leaf := (isTensor_of_indexed made.identifier done).1
    refine everywhere_iff.mpr ⟨⟨fun t kind => ?_, fun _ => ?_, fun assign => ?_⟩, by
      simp [leaf.children]⟩
    · obtain rfl := Kind.leaf.inj (leaf.kind.symm.trans kind)
      exact made
    · simp [leaf.indices]
    · cases leaf.kind.symm.trans assign
  | einsum _ ih => exact everywhere_iff.mpr ⟨rooted_of_kind rfl, ih⟩
  | add _ ih => exact everywhere_iff.mpr ⟨rooted_of_kind rfl, ih⟩
  | scale _ done ih | negate _ done ih => exact rooted_scale ih done
  | indexSum _ done ih =>
    exact closed_rooted.of_combines ((Combines.operand _).indexSum done) (by simpa using ih)
  | product _ _ done hl hr =>
    exact closed_rooted.of_combines ((Combines.operand _).product (.operand _) done)
      (by simp [hl, hr])
  | contraction _ _ done hl hr =>
    exact closed_rooted.of_combines ((Combines.operand _).contraction (.operand _) done)
      (by simp [hl, hr])
  | gemm _ _ done hl hr =>
    obtain ⟨-, -, mapping, -, rfl⟩ := gemm_eq_ok done
    exact everywhere_iff.mpr ⟨rooted_of_operation rfl (Option.some_ne_none _), by
      simp [ofKind, hl, hr]⟩
  | assignment _ _ done ht hv => exact rooted_assignment ht hv done
  | withChildren _ _ done hn each => exact rooted_withChildren hn each done
  | reordered _ done ih => exact rooted_reorder ih done
  | resolved _ done ih => exact rooted_resolveTo ih done
  | propagated _ done ih => exact rooted_annotate annotates_withPattern ih done
  | placed _ done ih => exact rooted_annotate (annotates_withLayout _) ih done
  | mapped _ done ih => exact rooted_mapContractions ih done
  | prefetching _ _ ih | patterned _ _ ih | laid _ _ ih =>
    exact everywhere_iff.mpr ⟨⟨ih.root.made, ih.root.known, ih.root.target⟩, ih.children⟩
  | times _ _ done hl hr => exact assigning_rooted.times hl hr done
  | plus _ _ done hl hr => exact assigning_rooted.plus hl hr done
  | minus _ _ done hl hr => exact assigning_rooted.minus hl hr done
  | assign _ _ done ht hv => exact assigning_rooted.assign ht hv done

/-- What the constructors give is assembled. -/
theorem Constructed.assembled {n : Node} (h : n.Constructed) : n.Assembled := by
  induction h with
  | indexed made done => exact .indexed made done
  | einsum _ ih => exact .einsum ih
  | add _ ih => exact .add ih
  | scale _ done ih => exact .scale ih done
  | indexSum _ done ih => exact .indexSum ih done
  | product _ _ done hl hr => exact .product hl hr done
  | contraction _ _ _ _ done hl hr => exact .contraction hl hr done
  | gemm _ _ _ done hl hr => exact .gemm hl hr done
  | assignment _ _ done ht hv => exact .assignment ht hv done

end Node

end TensorKernel
