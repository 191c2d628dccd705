import TensorKernel.Proofs.Tree.Arithmetic
import TensorKernel.Proofs.Tree.Progress
import TensorKernel.Proofs.Tree.Refusal

/-!
What can go wrong with trees that are written with the operations of the user. Resolution refuses
them with composition errors only. Behind it one thing can still fail, the reading of a product
descriptor, if an index name can be taken for what separates the names in it (`Readable`).

* `Written`: what indexed tensors, arithmetic and assignments give;
* `Written.sound`: such trees are composed, and nothing is known of their nodes but the indices;
* `Written.failures`: which passes can fail, and how.
-/

namespace TensorKernel.Node

/-- The trees that users write. The right operand of an operation is such a tree or a factor. -/
inductive Written : Node → Prop
  | indexed {tensor : Tensor} {names : List Char} {n : Node} (h : tensor.Constructed)
      (done : indexed tensor names = .ok n) : Written n
  | times {left n : Node} {right : Operand} (hl : Written left)
      (hr : ∀ r, right = .node r → Written r) (done : left.times right = .ok n) : Written n
  | plus {left n : Node} {right : Operand} (hl : Written left)
      (hr : ∀ r, right = .node r → Written r) (done : left.plus right = .ok n) : Written n
  | minus {left n : Node} {right : Operand} (hl : Written left)
      (hr : ∀ r, right = .node r → Written r) (done : left.minus right = .ok n) : Written n
  | negate {term n : Node} (h : Written term) (done : term.negate = .ok n) : Written n
  | assign {target n : Node} {value : Operand} (ht : Written target)
      (hv : ∀ v, value = .node v → Written v) (done : target.assign value = .ok n) : Written n

theorem Written.operand {n : Node} (h : n.Written) : ∀ r, Operand.node n = .node r → r.Written := by
  intro r same
  cases same
  exact h

/-- What holds of indexed tensors and is kept by arithmetic holds of all trees that are written. -/
theorem Written.kept {P : Node → Prop} {n : Node} (h : n.Written) (assigning : Assigning P)
    (indexed : ∀ {tensor : Tensor} {names : List Char} {n : Node}, tensor.Constructed →
      Node.indexed tensor names = .ok n → P n) : P n := by
  induction h with
  | indexed made done => exact indexed made done
  | times _ _ done hl hr => exact assigning.times hl hr done
  | plus _ _ done hl hr => exact assigning.plus hl hr done
  | minus _ _ done hl hr => exact assigning.minus hl hr done
  | negate _ done ih => exact assigning.scale ih done
  | assign _ _ done ht hv => exact assigning.assign ht hv done

theorem Written.constructed {n : Node} (h : n.Written) : n.Constructed :=
  h.kept assigning_constructed fun made done => .indexed made done

/-- What is known of every node that is written: its tensor was made, a sum has summands, and no
pass has been at it. -/
structure Fresh (x : Node) : Prop where
  made : ∀ t, x.kind = .leaf t → t.Constructed
  summand : x.kind = .add → x.children ≠ []
  noGemm : ∀ g, x.kind ≠ .gemm g
  bare : x.Bare

theorem Fresh.regular {x : Node} (h : x.Fresh) : x.Regular :=
  ⟨fun t leaf => (h.made t leaf).pattern.2.1, h.summand, h.noGemm⟩

theorem stable_fresh : Stable Fresh := by
  have tensors := (ofKind_tensors Tensor.Constructed).stable
  constructor
  · intro x y resembles fresh
    exact ⟨tensors.resembling resembles fresh.made,
      stable_summand.resembling resembles fresh.summand,
      stable_noGemm.resembling resembles fresh.noGemm, stable_bare.resembling resembles fresh.bare⟩
  · intro kind children indices made some_child
    exact ⟨tensors.made made some_child, stable_summand.made made some_child,
      stable_noGemm.made made some_child, stable_bare.made made some_child⟩

structure Sound (n : Node) : Prop where
  composed : n.Composed
  fresh : n.Everywhere Fresh

theorem Sound.children {n : Node} (h : n.Sound) : ∀ c ∈ n.children, c.Sound :=
  fun c hc => ⟨h.composed.children c hc, h.fresh.children c hc⟩

theorem Sound.bare {n : Node} (h : n.Sound) : n.Bare := h.fresh.root.bare

theorem Sound.node {n : Node} (own : ∀ i, n.indices = some i → i.Distinct)
    (composes : n.kind.Composes n.indices n.children) (fresh : n.Fresh)
    (children : ∀ c ∈ n.children, c.Sound) : n.Sound :=
  ⟨.node own composes fun c hc => (children c hc).composed,
    everywhere_iff.mpr ⟨fresh, fun c hc => (children c hc).fresh⟩⟩

/-! ### Operations -/

theorem sound_indexed {tensor : Tensor} {names : List Char} {n : Node} (made : tensor.Constructed)
    (h : indexed tensor names = .ok n) : n.Sound := by
  have leaf := (isTensor_of_indexed made.identifier h).1
  simp only [indexed, bind_eq_ok, pure_eq_ok] at h
  obtain ⟨i, -, rfl⟩ := h
  apply Sound.node (fun i known => leaf.composed.indices known) leaf.composed.composes
  · refine ⟨fun t kind => ?_, fun add => ?_, fun g gemm => ?_, rfl, rfl⟩
    · obtain rfl := Kind.leaf.inj kind
      exact made
    · cases add
    · cases gemm
  · intro c hc
    cases hc

/-- A product or a sum that is still to be resolved. -/
theorem sound_folded {n : Node} (kind : n.kind = .einsum ∨ n.kind = .add)
    (indices : n.indices = none) (summand : n.kind = .add → n.children ≠ []) (bare : n.Bare)
    (operands : ∀ c ∈ n.children, c.Sound) : n.Sound := by
  apply Sound.node
  · intro i known
    cases indices.symm.trans known
  · rcases kind with kind | kind <;> rw [kind] <;> exact indices
  · refine ⟨fun t leaf => ?_, summand, fun g gemm => ?_, bare⟩
    · simp [leaf] at kind
    · simp [gemm] at kind
  · exact operands

theorem Sound.indices_eq_none {n : Node} (h : n.Sound) (kind : n.kind = .einsum ∨ n.kind = .add) :
    n.indices = none := by
  have composes := h.composed.composes
  rcases kind with kind | kind <;> rw [kind] at composes <;> exact composes

theorem sound_fold {kind : Kind} {left right : Node} (hk : kind = .einsum ∨ kind = .add)
    (hl : left.Sound) (hr : right.Sound) : (fold kind left right).Sound := by
  have operands : ∀ c ∈ left.flattened kind ++ right.flattened kind, c.Sound := by
    intro c hc
    exact (List.mem_append.mp hc).elim (of_mem_flattened hl fun _ => hl.children)
      (of_mem_flattened hr fun _ => hr.children)
  have summand : kind = .add → left.flattened kind ++ right.flattened kind ≠ [] := by
    intro add empty
    have none := (List.append_eq_nil_iff.mp empty).1
    unfold flattened at none
    split at none
    · next same => exact hl.fresh.root.summand (same.trans add) none
    · cases none
  unfold fold
  split
  · next same =>
    subst same
    exact sound_folded hk (hl.indices_eq_none hk) summand ⟨hl.bare.pattern, hl.bare.layout⟩ operands
  · split
    · next same =>
      subst same
      exact sound_folded hk (hr.indices_eq_none hk) summand ⟨hr.bare.pattern, hr.bare.layout⟩
        operands
    · exact sound_folded hk rfl summand ⟨rfl, rfl⟩ operands

theorem sound_scaled {n term : Node} {factor : Factor} (ht : term.Sound)
    (scaled : Scaled factor term n) (bare : n.Bare) : n.Sound := by
  have composed := composed_scaled ht.composed scaled.kind scaled.indices scaled.children
  have kind := scaled.kind
  apply Sound.node (fun i known => composed.indices known) composed.composes
  · refine ⟨fun t leaf => ?_, fun add => ?_, fun g gemm => ?_, bare⟩
    · simp [leaf] at kind
    · simp [add] at kind
    · simp [gemm] at kind
  · rw [scaled.children]
    simpa using ht

theorem sound_scale {factor : Factor} {term n : Node} (ht : term.Sound)
    (h : scale factor term = .ok n) : n.Sound := by
  have scaled := (scale_eq_ok h).2
  unfold scale at h
  split at h
  · exact absurd h refuse_ne_ok
  · obtain rfl := pure_eq_ok.mp h
    exact sound_scaled ht scaled ⟨rfl, rfl⟩

theorem sound_mapUnderFactors {f : Node → Node} (hf : ∀ x, x.Sound → (f x).Sound) {n m : Node}
    (hn : n.Sound) (h : n.mapUnderFactors f = .ok m) : m.Sound := by
  induction n using Node.induction generalizing m with
  | node kind indices pattern layout prefetch children ih =>
    cases kind with
    | scale factor =>
      obtain ⟨term, operands, -⟩ := hn.composed.composes
      obtain rfl : children = [term] := operands
      simp only [mapUnderFactors, mapLastUnderFactors, bind_eq_ok, pure_eq_ok] at h
      obtain ⟨t, mapped, rfl⟩ := h
      exact sound_scaled (ih term (by simp) (hn.children term (by simp)) mapped) ⟨rfl, rfl, rfl⟩
        ⟨hn.bare.pattern, hn.bare.layout⟩
    | leaf | einsum | add | indexSum | product | contraction | gemm | assign =>
      simp only [mapUnderFactors] at h
      obtain rfl := pure_eq_ok.mp h
      exact hf _ hn

theorem sound_assignment {target value n : Node} (ht : target.Sound) (hv : value.Sound)
    (h : target.assignment value = .ok n) : n.Sound := by
  obtain ⟨⟨tensor, leaf⟩, rfl⟩ := assignment_eq_ok h
  have composes := ht.composed.composes
  rw [leaf] at composes
  obtain ⟨⟨i, known, -⟩, -⟩ := composes
  apply Sound.node
  · intro j same
    exact ht.composed.indices same
  · exact ⟨i, target, value, tensor, known, rfl, leaf, known⟩
  · exact ⟨by simp [ofKind], by simp [ofKind], by simp [ofKind], rfl, rfl⟩
  · simp [ofKind, ht, hv]

theorem assigning_sound : Assigning Sound where
  scale ht done := sound_scale ht done
  fold hk hl hr := sound_fold hk hl hr
  underFactors hf hn done := sound_mapUnderFactors (fun x hx => (hf x hx).1) hn done
  assignment ht hv done := sound_assignment ht hv done
  copy hv := sound_folded (.inl rfl) rfl (by simp [einsum, ofKind]) ⟨rfl, rfl⟩
    (by simpa [einsum, ofKind] using hv)

theorem Written.sound {n : Node} (h : n.Written) : n.Sound :=
  h.kept assigning_sound fun made done => sound_indexed made done

/-! ### Index names -/

/-- The index names of a tensor can be told from what separates names in a descriptor. -/
def Plain (x : Node) : Prop := x.kind.isLeaf = true → ',' ∉ x.own.names ∧ '-' ∉ x.own.names

instance : DecidablePred Plain := fun x =>
  inferInstanceAs (Decidable (x.kind.isLeaf = true → ',' ∉ x.own.names ∧ '-' ∉ x.own.names))

theorem stable_plain : Stable Plain := by
  refine ⟨fun {x y} resembles plain leaf => ?_, fun {kind _ _} made _ leaf => ?_⟩
  · rw [resembles.kind] at leaf
    rw [own_eq (resembles.leaf leaf)]
    exact plain leaf
  · cases kind <;> simp_all [ofKind, Kind.isMade, Kind.isLeaf]

/-- The index names in a tree are those of its tensors. -/
theorem notMem_names {n : Node} {name : Char} (formed : n.WellFormed)
    (regular : n.Everywhere Regular)
    (free : n.Everywhere fun x => x.kind.isLeaf = true → name ∉ x.own.names) :
    n.indices = some n.own ∧ name ∉ n.own.names := by
  induction n using Node.induction with
  | node kind indices pattern layout prefetch children ih =>
    let n : Node := ⟨kind, indices, pattern, layout, prefetch, children⟩
    have each (c : Node) (hc : c ∈ children) :=
      ih c hc (formed.children c hc) (regular.children c hc) (free.children c hc)
    have known := known_of_children formed regular.root.summand fun c hc => (each c hc).1
    refine ⟨known, ?_⟩
    -- the names of a node whose dimensions all come from its children
    have inherited (sub : ∀ d ∈ n.own.dims, ∃ c ∈ children, d ∈ c.own.dims) :
        name ∉ n.own.names := by
      intro mem
      obtain ⟨d, hd, rfl⟩ := Indices.mem_names.mp mem
      obtain ⟨c, hc, own⟩ := sub d hd
      exact (each c hc).2 (Indices.mem_names_of_mem own)
    have same {c : Node} (hc : c ∈ children) (equal : c.indices = indices) :
        name ∉ n.own.names := by
      have own : c.own = n.own := own_eq equal
      exact own ▸ (each c hc).2
    have fits := formed.fits
    cases kind with
    | leaf => exact free.root rfl
    | einsum => exact fits.elim
    | gemm g => exact absurd rfl (regular.root.noGemm g)
    | add =>
      obtain ⟨c, hc⟩ := List.exists_mem_of_ne_nil children (regular.root.summand rfl)
      exact same hc ((fits c hc).resolve_left (by simp [(each c hc).1]))
    | scale =>
      obtain ⟨term, rfl, equal⟩ := fits
      exact same (by simp) equal
    | assign =>
      obtain ⟨i, target, value, _, rfl, rfl, -, -, equal⟩ := fits
      exact same (by simp) equal
    | indexSum =>
      obtain ⟨i, term, rfl, rfl, -, sums⟩ := fits
      exact inherited fun d hd => ⟨term, by simp, ((sums.kept d).mp hd).1⟩
    | product | contraction =>
      obtain ⟨i, left, right, rfl, rfl, -, -, contracts⟩ := fits
      apply inherited
      intro d hd
      rcases ((contracts.kept d).mp hd).1 with own | own
      · exact ⟨left, by simp, own⟩
      · exact ⟨right, by simp, own⟩

/-- Descriptors of plain names are read as they were written. -/
theorem readable_of_plain {n : Node} (formed : n.WellFormed) (regular : n.Everywhere Regular)
    (plain : n.Everywhere Plain) : n.Everywhere Readable := by
  have free (c : Node) (hc : c ∈ n.postorder) : ',' ∉ c.own.names ∧ '-' ∉ c.own.names := by
    have formed := formed.everywhere c hc
    have regular := regular.subtree hc
    have plain := plain.subtree hc
    exact ⟨(notMem_names formed regular (plain.mono fun x h leaf => (h leaf).1)).2,
      (notMem_names formed regular (plain.mono fun x h leaf => (h leaf).2)).2⟩
  intro x hx _ left right children
  obtain ⟨comma, dash⟩ := free left (mem_postorder_of_child hx (by simp [children]))
  obtain ⟨-, dash'⟩ := free right (mem_postorder_of_child hx (by simp [children]))
  refine ⟨comma, fun arrow => dash (arrow.subset ?_), fun arrow => dash' (arrow.subset ?_)⟩
  · exact List.mem_cons_self
  · exact List.mem_cons_self

/-! ### Failures -/

/-- Behind the propagation of patterns nothing fails. -/
theorem later_passes {r p : Node} (formed : r.WellFormed) (fresh : r.Everywhere Fresh)
    (h : r.propagateSparsity = .ok p) (config : Config) :
    ∃ l, p.computeLayouts config = .ok l ∧
      ∀ source, ∃ m count, l.mapContractions source = .ok (m, count) := by
  obtain ⟨-, shaped⟩ := shaped_of_propagateSparsity formed (fresh.mono fun x h => h.regular.tensor)
    (fresh.mono fun x h => h.noGemm) h
  obtain ⟨l, laid⟩ :=
    computeLayouts_ok config (annotate_wellFormed annotates_withPattern formed h) shaped
  obtain ⟨formed, made, places⟩ :=
    placed_of_computeLayouts formed (fresh.mono fun x h => h.made) h laid
  refine ⟨l, laid, mapContractions_ok fun x hx => ?_⟩
  obtain ⟨stored, placed⟩ := places x hx
  exact storesStrided_of_placed (formed.everywhere x hx) (made.subtree hx) placed

/-- Resolution of a written tree fails with composition errors only. The propagation of patterns
behind it succeeds exactly if all product descriptors are read as they were written, which is so if
no index name is a comma or a dash; the later passes always succeed. -/
theorem Written.failures {n : Node} (written : n.Written) (config : Config) :
    OnlyRefuses n.resolve ∧
    (∀ r, n.resolve = .ok r →
      ((∃ p, r.propagateSparsity = .ok p) ↔ r.Everywhere Readable) ∧
      (n.Everywhere Plain → r.Everywhere Readable) ∧
      ∀ p, r.propagateSparsity = .ok p → ∃ l, p.computeLayouts config = .ok l ∧
        ∀ source, ∃ m count, l.mapContractions source = .ok (m, count)) ∧
    ∀ f, n.prepare config = .error f → (∃ cause, f.cause = .composition cause) ∨
      ∃ r, n.resolve = .ok r ∧ ¬r.Everywhere Readable := by
  have sound := written.sound
  have refuses : OnlyRefuses n.resolve :=
    resolveTo_refuses (sound.fresh.mono fun x h => h.bare) none
  have formed {r : Node} (resolved : n.resolve = .ok r) : r.WellFormed :=
    (sound.composed.resolveTo none r (by simp) resolved).1
  have fresh {r : Node} (resolved : n.resolve = .ok r) : r.Everywhere Fresh :=
    resolveTo_everywhere stable_fresh sound.fresh resolved
  have propagates {r : Node} (resolved : n.resolve = .ok r) :
      (∃ p, r.propagateSparsity = .ok p) ↔ r.Everywhere Readable :=
    propagateSparsity_iff (formed resolved) ((fresh resolved).mono fun x h => h.regular)
  refine ⟨refuses, fun r resolved => ⟨propagates resolved, fun plain => ?_, fun p propagated => ?_⟩,
    fun f failed => ?_⟩
  · exact readable_of_plain (formed resolved) ((fresh resolved).mono fun x h => h.regular)
      (resolveTo_everywhere stable_plain plain resolved)
  · exact later_passes (formed resolved) (fresh resolved) propagated config
  · rcases prepare_eq_error failed with refused | unresolved | ⟨r, resolved, failed⟩
    · exact .inl ⟨_, refused⟩
    · exact .inl (refuses _ unresolved)
    right
    refine ⟨r, resolved, fun readable => ?_⟩
    obtain ⟨p, propagated⟩ := (propagates resolved).mpr readable
    obtain ⟨l, laid, maps⟩ := later_passes (formed resolved) (fresh resolved) propagated config
    obtain ⟨m, count, mapped⟩ := maps Gemm.naturalPartitions
    rcases failed with failed | ⟨p', propagated', failed⟩
    · cases failed.symm.trans propagated
    obtain rfl := Except.ok.inj (propagated.symm.trans propagated')
    rcases failed with failed | ⟨l', laid', failed⟩
    · cases failed.symm.trans laid
    obtain rfl := Except.ok.inj (laid.symm.trans laid')
    cases failed.symm.trans mapped

/-- The statement `C_ij = A_is B_sj`, where `s` is the name of the summed index. -/
def productOver (s : Char) : Result Node := do
  let c ← indexed (← Tensor.ofName "C" [2, 2]) ['i', 'j']
  let a ← indexed (← Tensor.ofName "A" [2, 3]) ['i', s]
  let b ← indexed (← Tensor.ofName "B" [3, 2]) [s, 'j']
  c.assign (.node (← a.times (.node b)))

theorem written_productOver {s : Char} {n : Node} (h : productOver s = .ok n) : n.Written := by
  simp only [productOver, bind_eq_ok] at h
  obtain ⟨_, madeC, c, hc, _, madeA, a, ha, _, madeB, b, hb, ab, product, done⟩ := h
  have right : b.Written := .indexed (.ofName madeB) hb
  have value : ab.Written := .times (.indexed (.ofName madeA) ha) right.operand product
  exact .assign (.indexed (.ofName madeC) hc) value.operand done

theorem failures_productOver : ∃ n r, productOver 'k' = .ok n ∧ n.Written ∧ n.resolve = .ok r ∧
    r.Everywhere Readable ∧ ∃ p, r.propagateSparsity = .ok p := by
  refine ⟨_, _, rfl, written_productOver (s := 'k') rfl, rfl, ?_⟩
  obtain ⟨-, passes, -⟩ := (written_productOver (s := 'k') rfl).failures .standard
  obtain ⟨propagates, plain, -⟩ := passes _ rfl
  have readable := plain (by decide)
  exact ⟨readable, propagates.mpr readable⟩

/-- A statement that is refused with a violated invariant: the descriptor `i,,,j->ij` is read with a
left operand of one index. -/
theorem comma_misread : ∃ n r e, productOver ',' = .ok n ∧ n.Written ∧ n.resolve = .ok r ∧
    r.propagateSparsity = .error (.invariant e) ∧
    n.prepare .standard =
      .error ⟨[.preparing n.text, .pass "propagate-sparsity"], .invariant e⟩ :=
  ⟨_, _, _, rfl, written_productOver (s := ',') rfl, rfl, rfl, rfl⟩

end TensorKernel.Node
