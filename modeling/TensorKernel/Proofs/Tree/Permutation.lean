import TensorKernel.Proofs.Layout.Permutation
import TensorKernel.Proofs.Tree.Idempotence

/-!
Nodes whose indices are permuted. A permuted node has its pattern transposed, and so have the nodes
that it hands the order down to. That is what the propagation of patterns finds when it starts over,
and another permutation takes it back.

* `Handed`: the nodes that take the order of a node, through sums and scaled nodes;
* `reorder_permuted`: what becomes of a node that is permuted after its patterns were propagated;
* `propagate_reordered`: patterns of a permuted node are those of its children;
* `reorder_back`: a permutation can be undone.
-/

namespace TensorKernel

namespace Indices

variable {i order : Indices} {perm : List Nat}

theorem names_perm (same : order.dims.Perm i.dims) : order.names.Perm i.names :=
  same.map Dim.name

theorem Distinct.of_perm (h : i.Distinct) (same : order.dims.Perm i.dims) : order.Distinct :=
  (names_perm same).nodup_iff.mpr h

/-- The positions of a permutation pick the names in their new order. -/
theorem pick?_names (h : i.permutationTo? order = some perm) :
    Pattern.pick? i.names perm = some order.names := by
  rw [permutationTo?] at h
  split at h
  · rw [Pattern.pick?_eq_some]
    refine (mapM_eq_some.mp h).flip.imp fun k name found => ?_
    obtain ⟨place, here, -⟩ := List.idxOf?_eq_some_iff.mp found
    rw [List.getElem?_eq_getElem place, here]
  · cases h

theorem exists_permutationTo? (h : i.Distinct) (same : order.dims.Perm i.dims) :
    ∃ perm, i.permutationTo? order = some perm :=
  permutationTo?_of_sameNames h (h.of_perm same) <|
    (sameNames_iff h (h.of_perm same)).mpr fun _ => (names_perm same).mem_iff.symm

theorem permute?_of_perm (h : i.Distinct) (same : order.dims.Perm i.dims) :
    i.permute? order = some order := by
  have ho := h.of_perm same
  obtain ⟨perm, found⟩ := exists_permutationTo? h same
  obtain ⟨k, permuted⟩ := permute?_of_permutationTo? found
  obtain ⟨names, -, dims⟩ := permute?_eq_some h ho permuted
  rw [permuted, eq_of_names_eq names fun d hd e he =>
    h.dim_unique ((dims d).mp hd) (same.mem_iff.mp he)]

end Indices

theorem dimension_eq_ok {α : Type} {found : Option α} {value : α} :
    dimension found = .ok value ↔ found = some value := by
  cases found <;> simp [dimension]

namespace Node

open Pattern (Transposed)

/-- The nodes that a node hands its order down to: itself, and through sums and scaled nodes their
children. -/
inductive Handed : Node → Node → Prop
  | root (n : Node) : Handed n n
  | child {n c y : Node} (kind : n.kind = .add ∨ n.kind.isScale = true) (hc : c ∈ n.children)
      (h : Handed c y) : Handed n y

def PatternsTransposed (i order : Indices) (x m : Node) : Prop :=
  ∃ p p', x.pattern = some p ∧ m.pattern = some p' ∧ Transposed i.names order.names p p'

section
variable {x m c y : Node} {i order : Indices} {p : Pattern}

/-- Sums and scaled nodes have children of their own order. -/
theorem WellFormed.order_child (formed : x.WellFormed)
    (kind : x.kind = .add ∨ x.kind.isScale = true) (hc : c ∈ x.children)
    (known : c.indices ≠ none) : c.indices = x.indices := by
  have fits := formed.fits
  rcases kind with add | scaled
  · rw [add] at fits
    exact (fits c hc).resolve_left known
  · cases kind : x.kind with
    | scale factor =>
      rw [kind] at fits
      obtain ⟨term, children, same⟩ := fits
      rw [children, List.mem_singleton] at hc
      rw [hc, same]
    | leaf | einsum | add | indexSum | product | contraction | gemm | assign =>
      rw [kind] at scaled
      cases scaled

theorem Handed.indices (h : Handed x y) (formed : x.WellFormed)
    (known : x.Everywhere fun z => z.indices ≠ none) : y.indices = x.indices := by
  induction h with
  | root => rfl
  | child kind hc _ ih =>
    rw [ih (formed.children _ hc) (known.children _ hc)]
    exact formed.order_child kind hc (known.children _ hc).root

/-! ### Patterns in another order -/

/-- A node that is moved has its pattern transposed. -/
theorem Moved.pattern_transposed {perm : List Nat} (moved : Moved i order perm true x m)
    (found : i.permutationTo? order = some perm) (distinct : i.Distinct)
    (same : order.dims.Perm i.dims) (pattern : x.pattern = some p) (sized : p.Sized)
    (rank : p.shape.length = i.size) :
    ∃ p', m.pattern = some p' ∧ Transposed i.names order.names p p' := by
  have done := moved.pattern
  rw [pattern, reorderPattern, if_pos rfl, map_eq_ok] at done
  obtain ⟨p', transposed, after⟩ := done
  refine ⟨p', after.symm, .of_transpose? sized distinct ?_ (Indices.names_perm same)
    (Indices.pick?_names found) (dimension_eq_ok.mp transposed)⟩
  rw [rank, Indices.length_names]

theorem addPatterns_transposed {sum sum' : Pattern} {cs ds : List Node}
    (sub : ∀ name ∈ order.names, name ∈ i.names)
    (start : Transposed i.names order.names sum sum')
    (each : List.Forall₂ (PatternsTransposed i order) cs ds) (h : addPatterns sum cs = .ok p) :
    ∃ p', addPatterns sum' ds = .ok p' ∧ Transposed i.names order.names p p' := by
  induction each generalizing sum sum' with
  | nil =>
    obtain rfl := pure_eq_ok.mp h
    exact ⟨sum', rfl, start⟩
  | cons first _ ih =>
    simp only [addPatterns, bind_eq_ok, computedPattern_eq_ok] at h
    obtain ⟨q, known, next, added, h⟩ := h
    obtain ⟨q₀, q', pattern, pattern', transposed⟩ := first
    obtain rfl := Option.some.inj (pattern.symm.trans known)
    obtain ⟨next', added', later⟩ := start.add transposed sub added
    obtain ⟨p', done, result⟩ := ih later h
    refine ⟨p', ?_, result⟩
    rw [addPatterns, computedPattern_eq_ok.mpr pattern', ok_bind, added', ok_bind, done]

/-- A sum of children in another order has its pattern in that order. -/
theorem patternFromChildren_sum (add : x.kind = .add) (kind : m.kind = x.kind)
    (sub : ∀ name ∈ order.names, name ∈ i.names)
    (each : List.Forall₂ (PatternsTransposed i order) x.children m.children)
    (h : x.patternFromChildren = .ok p) :
    ∃ p', m.patternFromChildren = .ok p' ∧ Transposed i.names order.names p p' := by
  simp only [patternFromChildren, add] at h
  simp only [patternFromChildren, kind, add]
  split at h
  · exact absurd h violates_ne_ok
  · next first rest children =>
    rw [children] at each
    obtain ⟨first', rest', transposed, others, children'⟩ := List.forall₂_cons_left_iff.mp each
    obtain ⟨q, q', pattern, pattern', start⟩ := transposed
    rw [computedPattern_eq_ok.mpr pattern, ok_bind] at h
    rw [children']
    dsimp only
    rw [computedPattern_eq_ok.mpr pattern', ok_bind]
    exact addPatterns_transposed sub start others h

/-- A scaled child in another order has its pattern in that order. -/
theorem patternFromChildren_scaled {factor : Factor} (scaled : x.kind = .scale factor)
    (kind : m.kind = x.kind)
    (each : List.Forall₂ (PatternsTransposed i order) x.children m.children)
    (h : x.patternFromChildren = .ok p) :
    ∃ p', m.patternFromChildren = .ok p' ∧ Transposed i.names order.names p p' := by
  simp only [patternFromChildren, scaled, bind_eq_ok, term_eq_ok, computedPattern_eq_ok] at h
  obtain ⟨term, ⟨rest, children⟩, known⟩ := h
  rw [children] at each
  obtain ⟨term', rest', transposed, -, children'⟩ := List.forall₂_cons_left_iff.mp each
  obtain ⟨q, q', pattern, pattern', same⟩ := transposed
  obtain rfl := Option.some.inj (pattern.symm.trans known)
  refine ⟨q', ?_, same⟩
  simp only [patternFromChildren, kind, scaled, bind_eq_ok, term_eq_ok, computedPattern_eq_ok]
  exact ⟨term', ⟨rest', children'⟩, pattern'⟩

/-- A product in another order of the same operands has its pattern in that order. -/
theorem patternFromChildren_multiplied (multiplies : x.kind.multiplies = true)
    (kind : m.kind = x.kind) (children : m.children = x.children) (formed : x.WellFormed)
    (known : ∀ c ∈ x.children, ∃ q, Known c q) (hx : x.indices = some i)
    (hm : m.indices = some order) (same : order.dims.Perm i.dims)
    (h : x.patternFromChildren = .ok p) :
    ∃ p', m.patternFromChildren = .ok p' ∧ Transposed i.names order.names p p' := by
  obtain ⟨left, right, li, ri, i', a, b, operands, hl, hr, hi, ha, hb, product⟩ :=
    (patternFromChildren_operands multiplies).mp h
  obtain rfl := Option.some.inj (hx.symm.trans hi)
  have operand {c : Node} {k : Indices} {q : Pattern} (hc : c ∈ x.children)
      (hk : c.indices = some k) (hq : c.pattern = some q) :
      q.Sized ∧ q.shape.length = k.names.length ∧ k.Distinct := by
    obtain ⟨q', spec⟩ := known c hc
    obtain rfl := Option.some.inj (spec.pattern.symm.trans hq)
    refine ⟨spec.sized, ?_, (formed.children c hc).indices hk⟩
    rw [spec.rank, own_of_indices hk, Indices.length_names]
  obtain ⟨sizedA, rankA, distinctL⟩ := operand (by simp [operands]) hl ha
  obtain ⟨sizedB, rankB, distinctR⟩ := operand (by simp [operands]) hr hb
  obtain ⟨p', done, transposed⟩ := Transposed.einsum sizedA sizedB
    (Pattern.readable_of_einsum rankA rankB product) distinctL distinctR
    (Indices.names_perm same) product
  refine ⟨p', (patternFromChildren_operands (kind ▸ multiplies)).mpr ?_, transposed⟩
  exact ⟨left, right, li, ri, order, a, b, children.trans operands, hl, hr, hm, ha, hb, done⟩

/-- A sum over one index in another order has its pattern in that order. -/
theorem patternFromChildren_summed {index : Indices} (summed : x.kind = .indexSum index)
    (kind : m.kind = x.kind) (children : m.children = x.children) (formed : x.WellFormed)
    (known : ∀ c ∈ x.children, ∃ q, Known c q) (hx : x.indices = some i)
    (hm : m.indices = some order) (same : order.dims.Perm i.dims)
    (h : x.patternFromChildren = .ok p) :
    ∃ p', m.patternFromChildren = .ok p' ∧ Transposed i.names order.names p p' := by
  simp only [patternFromChildren, summed, bind_eq_ok, term_eq_ok, deducedIndices_eq_ok,
    computedPattern_eq_ok] at h
  obtain ⟨term, ⟨rest, operands⟩, source, hs, target, ht, q, pattern, reduced⟩ := h
  obtain rfl := Option.some.inj (hx.symm.trans ht)
  have mem : term ∈ x.children := by simp [operands]
  obtain ⟨q', spec⟩ := known term mem
  obtain rfl := Option.some.inj (spec.pattern.symm.trans pattern)
  obtain ⟨p', done, transposed⟩ := Transposed.reduce spec.sized
    ((formed.children term mem).indices hs) (Indices.names_perm same) reduced
  refine ⟨p', ?_, transposed⟩
  simp only [patternFromChildren, kind, summed, bind_eq_ok, term_eq_ok, deducedIndices_eq_ok,
    computedPattern_eq_ok]
  exact ⟨term, ⟨rest, children.trans operands⟩, source, hs, order, hm, _, pattern, done⟩

/-! ### Permuted nodes -/

structure Permuted (i order : Indices) (x m : Node) : Prop where
  indices : m.indices = some order
  patterns : PatternsTransposed i order x m
  propagated : m.Everywhere Propagated
  handed : ∀ y, Handed m y → y.indices = some order

/-- A node whose children take its order. -/
theorem Permuted.of_each (indices : m.indices = some order)
    (patterns : PatternsTransposed i order x m) (root : Propagated m)
    (each : List.Forall₂ (Permuted i order) x.children m.children) : Permuted i order x m := by
  refine ⟨indices, patterns, everywhere_iff.mpr ⟨root, fun d hd => ?_⟩, fun y handed => ?_⟩
  · obtain ⟨c, -, permuted⟩ := exists_of_forall₂_right each hd
    exact permuted.propagated
  · cases handed with
    | root => exact indices
    | child _ hd below =>
      obtain ⟨c, -, permuted⟩ := exists_of_forall₂_right each hd
      exact permuted.handed y below

/-- A node that keeps its children. -/
theorem Permuted.of_kept (indices : m.indices = some order)
    (patterns : PatternsTransposed i order x m) (root : Propagated m)
    (kept : ¬(m.kind = .add ∨ m.kind.isScale = true))
    (children : ∀ c ∈ m.children, c.Everywhere Propagated) : Permuted i order x m := by
  refine ⟨indices, patterns, everywhere_iff.mpr ⟨root, children⟩, fun y handed => ?_⟩
  cases handed with
  | root => exact indices
  | child hands => exact absurd hands kept

/-- The transposed pattern is the one that the children give in the new order. -/
theorem propagated_of_transposed {p' : Pattern} (distinct : i.Distinct)
    (same : order.dims.Perm i.dims) (pattern : m.pattern = some p')
    (transposed : Transposed i.names order.names p p')
    (found : ∃ p'', m.patternFromChildren = .ok p'' ∧ Transposed i.names order.names p p'') :
    Propagated m := by
  obtain ⟨p'', done, again⟩ := found
  obtain rfl := transposed.unique again (distinct.of_perm same) fun name =>
    (Indices.names_perm same).mem_iff.mp
  exact ⟨p', pattern, done⟩

/-- Patterns that have been propagated are those of the permuted children, too, where a node is
permuted. -/
theorem reorder_permuted (formed : x.WellFormed) (known : x.Everywhere fun z => ∃ q, Known z q)
    (found : x.Everywhere Propagated) (hi : x.indices = some i) (same : order.dims.Perm i.dims)
    (h : x.reorder order true = .ok m) : Permuted i order x m := by
  induction x using Node.induction generalizing m with
  | node kind indices pattern layout prefetch children ih =>
  have distinct := formed.indices hi
  have sub : ∀ name ∈ order.names, name ∈ i.names := fun name =>
    (Indices.names_perm same).mem_iff.mp
  obtain ⟨p, spec⟩ := known.root
  have rank : p.shape.length = i.size := by rw [spec.rank, own_of_indices hi]
  obtain ⟨current, hc, ⟨rfl, rfl⟩ | ⟨-, perm, positions, moved⟩⟩ := reorder_eq_ok.mp h
  · obtain rfl := Option.some.inj (hi.symm.trans hc)
    refine ⟨hi, ⟨p, p, spec.pattern, spec.pattern, .refl spec.sized distinct ?_⟩, found,
      fun y handed => (handed.indices formed (known.mono fun z => ?_)).trans hi⟩
    · rw [rank, Indices.length_names]
    · rintro ⟨q, spec⟩
      simp [spec.indices]
  obtain rfl := Option.some.inj (hi.symm.trans hc)
  have hm : m.indices = some order :=
    moved.indices.trans (Indices.permute?_of_perm distinct same)
  obtain ⟨p', pattern', transposed⟩ :=
    moved.pattern_transposed positions distinct same spec.pattern spec.sized rank
  have patterns : PatternsTransposed i order _ m := ⟨p, p', spec.pattern, pattern', transposed⟩
  have settled := propagated_of_transposed distinct same pattern' transposed
  obtain ⟨q, pattern₀, own⟩ := found.root
  obtain rfl := Option.some.inj (spec.pattern.symm.trans pattern₀)
  have hands (role : kind = .add ∨ kind.isScale = true)
      (done : List.Forall₂ (fun c d => c.reorder order true = .ok d) children m.children) :
      List.Forall₂ (Permuted i order) children m.children := by
    refine forall₂_imp_of_mem done fun c hc d done => ?_
    obtain ⟨q, spec⟩ := (known.children c hc).root
    have ci := (formed.order_child role hc (by simp [spec.indices])).trans hi
    exact ih c hc (formed.children c hc) (known.children c hc) (found.children c hc) ci done
  have operands : ∀ c ∈ children, ∃ q, Known c q := fun c hc => (known.children c hc).root
  have kind' := moved.kind
  have done := moved.children
  cases kind with
  | leaf | assign => exact done.elim
  | einsum => exact absurd own violates_ne_ok
  | add =>
    have each := hands (.inl rfl) done
    exact .of_each hm patterns (settled (patternFromChildren_sum rfl kind' sub
      (each.imp fun _ _ permuted => permuted.patterns) own)) each
  | scale =>
    have each := hands (.inr rfl) done
    exact .of_each hm patterns (settled (patternFromChildren_scaled rfl kind'
      (each.imp fun _ _ permuted => permuted.patterns) own)) each
  | indexSum =>
    refine .of_kept hm patterns (settled (patternFromChildren_summed rfl kind' done formed operands
      hi hm same own)) (by simp [kind', Kind.isScale]) ?_
    rw [show m.children = children from done]
    exact found.children
  | product | contraction | gemm =>
    refine .of_kept hm patterns (settled (patternFromChildren_multiplied rfl kind' done formed
      operands hi hm same own)) (by simp [kind', Kind.isScale]) ?_
    rw [show m.children = children from done]
    exact found.children

/-- The propagation of patterns finds nothing to change in a permuted node. -/
theorem propagate_reordered {n r p : Node} (built : n.Constructed) (resolved : n.resolve = .ok r)
    (propagated : r.propagateSparsity = .ok p) (hx : x ∈ p.postorder) (hi : x.indices = some i)
    (same : order.dims.Perm i.dims) (h : x.reorder order true = .ok m) :
    m.indices = some order ∧ (∀ y, Handed m y → y.indices = some order) ∧
      m.propagateSparsity = .ok m := by
  obtain ⟨formed, -⟩ := built.composed.resolveTo none r (by simp) resolved
  have tensors := resolveTo_everywhere (ofKind_tensors _).stable built.tensors resolved
  have whole := annotate_wellFormed annotates_withPattern formed propagated
  have known := known_of_propagate formed tensors propagated
  have permuted := reorder_permuted (whole.everywhere x hx) (known.subtree hx)
    ((everywhere_propagated propagated).subtree hx) hi same h
  exact ⟨permuted.indices, permuted.handed,
    annotate_stationary (permuted.propagated.mono fun _ => withPattern_of_propagated)⟩

end

/-- The statement `C_ij = B_ik D_kj + s D_ik B_kj` with a matrix `D` that has one entry. -/
def cornerProducts : Result Node := do
  let c ← indexed (← Tensor.ofName "C" [2, 2]) ['i', 'j']
  let b ← Tensor.ofName "B" [2, 2]
  let d := flagged "D" [true, false, false, false]
  let columns := einsum [← indexed b ['i', 'k'], ← indexed d ['k', 'j']]
  let rows := einsum [← indexed d ['i', 'k'], ← indexed b ['k', 'j']]
  c.assignment (add [columns, ← scale (.named "s") rows])

theorem constructed_cornerProducts {n : Node} (h : cornerProducts = .ok n) : n.Constructed := by
  simp only [cornerProducts, bind_eq_ok] at h
  obtain ⟨_, tensorC, c, hc, _, tensorB, b, hb, d, hd, d', hd', b', hb', s, scaled, done⟩ := h
  have corner : (flagged "D" [true, false, false, false]).Constructed :=
    constructed_flagged (by decide) rfl
  have columns : (einsum [b, d]).Constructed :=
    .einsum (by simpa using ⟨.indexed (.ofName tensorB) hb, .indexed corner hd⟩)
  have rows : (einsum [d', b']).Constructed :=
    .einsum (by simpa using ⟨.indexed corner hd', .indexed (.ofName tensorB) hb'⟩)
  have term := Constructed.scale rows scaled
  exact .assignment (.indexed (.ofName tensorC) hc) (.add (by simpa using ⟨columns, term⟩)) done

theorem propagate_reordered_corner : ∃ n r p c x m, cornerProducts = .ok n ∧ n.resolve = .ok r ∧
    r.propagateSparsity = .ok p ∧ p.children = [c, x] ∧
      x.reorder ⟨[⟨'j', 2⟩, ⟨'i', 2⟩]⟩ true = .ok m ∧
        m.pattern = some (.masked [2, 2] [true, true, true, false]) ∧
          m.propagateSparsity = .ok m := by
  have again {n r p c x m : Node} (built : cornerProducts = .ok n) (resolved : n.resolve = .ok r)
      (propagated : r.propagateSparsity = .ok p) (children : p.children = [c, x])
      (known : x.indices = some ⟨[⟨'i', 2⟩, ⟨'j', 2⟩]⟩)
      (moved : x.reorder ⟨[⟨'j', 2⟩, ⟨'i', 2⟩]⟩ true = .ok m) : m.propagateSparsity = .ok m := by
    have member : x ∈ p.postorder :=
      mem_postorder_of_child (mem_postorder.mpr (.inl rfl)) (by simp [children])
    exact (propagate_reordered (constructed_cornerProducts built) resolved propagated member known
      (by decide) moved).2.2
  exact ⟨_, _, _, _, _, _, rfl, rfl, rfl, rfl, rfl, rfl, again rfl rfl rfl rfl rfl rfl⟩

/-! ### The permutation back -/

section
variable {x m : Node} {i order : Indices} {p : Pattern}

theorem Placed.boxed {config : Config} {l : Layout} (h : Placed config x l) (known : Known x p)
    (leaf : x.kind.isLeaf = false) (assign : x.kind ≠ .assign) :
    x.layout = some l ∧ l.Boxed ∧ l.shape.length = x.own.size := by
  obtain ⟨stored, place⟩ := h
  have result (place : if config.simpleLayouts then l = .full x.own.shape
      else ∃ p width, x.pattern = some p ∧ l = .ofPattern p width) :
      l.Boxed ∧ l.shape.length = x.own.size := by
    split at place
    · rw [place]
      exact ⟨Layout.boxed_full _, Indices.length_shape _⟩
    · obtain ⟨q, width, pattern, rfl⟩ := place
      obtain rfl := Option.some.inj (known.pattern.symm.trans pattern)
      exact ⟨Layout.boxed_ofPattern p width, known.rank⟩
  cases kind : x.kind with
  | leaf =>
    rw [kind] at leaf
    cases leaf
  | assign => exact absurd kind assign
  | einsum | add | scale | indexSum | product | contraction | gemm =>
    rw [kind] at place
    rw [storage?, kind] at stored
    exact ⟨stored, result place⟩

/-- The pattern and the layout of a node that is moved are those that it is moved back to. -/
theorem Moved.back {perm back : List Nat} {l : Layout} (moved : Moved i order perm true x m)
    (found : i.permutationTo? order = some perm) (again : order.permutationTo? i = some back)
    (distinct : i.Distinct) (same : order.dims.Perm i.dims) (pattern : x.pattern = some p)
    (sized : p.Sized) (rank : p.shape.length = i.size) (layout : x.layout = some l)
    (boxed : l.Boxed) (rank' : l.shape.length = i.size) :
    reorderPattern true back m.pattern = .ok x.pattern ∧
      reorderLayout back m.layout = .ok x.layout := by
  have picked := Indices.pick?_names again
  constructor
  · obtain ⟨p', pattern', transposed⟩ :=
      moved.pattern_transposed found distinct same pattern sized rank
    obtain ⟨s, -, shape⟩ := transposed.shape
    obtain ⟨p'', done⟩ := Pattern.transpose?_of_pick? (p := p')
      (by rw [shape, Pattern.pick?_map picked])
    have returned : Transposed order.names i.names p' p'' :=
      .of_transpose? transposed.sized' (distinct.of_perm same) (by rw [shape, List.length_map])
        (Indices.names_perm same.symm) picked done
    obtain rfl := returned.unique transposed.symm distinct fun name =>
      (Indices.names_perm same).mem_iff.mpr
    rw [pattern, pattern', reorderPattern, if_pos rfl, map_eq_ok]
    exact ⟨_, dimension_eq_ok.mpr done, rfl⟩
  · have done := moved.layout
    rw [layout, reorderLayout, map_eq_ok] at done
    obtain ⟨l', permuted, after⟩ := done
    have returned := Layout.permute?_back boxed distinct
      (by rw [rank', Indices.length_names]) (Indices.pick?_names found) picked
      (dimension_eq_ok.mp permuted)
    rw [layout, ← after, reorderLayout, map_eq_ok]
    exact ⟨l, dimension_eq_ok.mpr returned, rfl⟩

theorem reorder_back_of_finished {config : Config} (formed : x.WellFormed)
    (finished : x.Everywhere (Finished config)) (hi : x.indices = some i)
    (same : order.dims.Perm i.dims) (h : x.reorder order true = .ok m) :
    m.reorder i true = .ok x := by
  induction x using Node.induction generalizing m with
  | node kind indices pattern layout prefetch children ih =>
  have distinct := formed.indices hi
  obtain ⟨p, l, known, placed⟩ := finished.root
  obtain ⟨current, hc, ⟨rfl, rfl⟩ | ⟨other, perm, positions, moved⟩⟩ := reorder_eq_ok.mp h
  · exact reorder_own hi
  obtain rfl := Option.some.inj (hi.symm.trans hc)
  have ordered := distinct.of_perm same
  obtain ⟨back, again⟩ := Indices.exists_permutationTo? ordered same.symm
  have size : own ⟨kind, indices, pattern, layout, prefetch, children⟩ = i := own_of_indices hi
  have moves (leaf : kind.isLeaf = false) (assign : kind ≠ .assign)
      (children' : ReorderedChildren i true m.kind m.children children) :
      m.reorder i true = .ok ⟨kind, indices, pattern, layout, prefetch, children⟩ := by
    obtain ⟨laid, boxed, rank⟩ := placed.boxed known leaf assign
    obtain ⟨pattern', layout'⟩ := moved.back positions again distinct same known.pattern known.sized
      (by rw [known.rank, size]) laid boxed (by rw [rank, size])
    refine reorder_eq_ok.mpr ⟨order, moved.indices.trans (Indices.permute?_of_perm distinct same),
      .inr ⟨other.symm, back, again, moved.kind.symm, ?_, pattern', layout', moved.prefetch.symm,
        children'⟩⟩
    exact hi.trans (Indices.permute?_of_perm ordered same.symm).symm
  -- children that have taken the order give it back
  have hands (role : kind = .add ∨ kind.isScale = true)
      (done : List.Forall₂ (fun c d => c.reorder order true = .ok d) children m.children) :
      List.Forall₂ (fun d c => d.reorder i true = .ok c) m.children children := by
    refine (forall₂_imp_of_mem done fun c hc d done => ?_).flip
    obtain ⟨q, _, spec, -⟩ := (finished.children c hc).root
    have ci := (formed.order_child role hc (by simp [spec.indices])).trans hi
    exact ih c hc (formed.children c hc) (finished.children c hc) ci done
  have kind' := moved.kind
  have done := moved.children
  cases kind with
  | leaf | assign => exact done.elim
  | add =>
    refine moves rfl (by simp) ?_
    rw [kind']
    exact hands (.inl rfl) done
  | scale =>
    refine moves rfl (by simp) ?_
    rw [kind']
    exact hands (.inr rfl) done
  | einsum | indexSum | product | contraction | gemm =>
    refine moves rfl (by simp) ?_
    rw [kind']
    exact (show m.children = children from done).symm

/-- A node of a prepared tree whose indices are permuted and permuted back is what it was before. -/
theorem reorder_back {config : Config} {n t : Node} (composed : n.Composed)
    (tensors : n.Everywhere fun z => ∀ t, z.kind = .leaf t → t.Constructed)
    (prepared : n.prepare config = .ok t) (hx : x ∈ t.postorder) (hi : x.indices = some i)
    (same : order.dims.Perm i.dims) (h : x.reorder order true = .ok m) :
    m.reorder i true = .ok x := by
  obtain ⟨formed, -, finished⟩ := prepare_finished composed tensors prepared
  exact reorder_back_of_finished (formed.everywhere x hx) (finished.subtree hx) hi same h

end

def childBoxes (n : Node) : List (Option Box) := n.children.map fun z => z.layout.map Layout.box

theorem boxes_cornerProducts :
    (do
      let t ← (← Outcome.ofResult cornerProducts).prepare { Config.standard with alignment := 2 }
      let (_, x) ← Outcome.ofResult t.operands
      let m ← Outcome.ofResult (x.reorder ⟨[⟨'j', 2⟩, ⟨'i', 2⟩]⟩ true)
      pure (x.indices, x.childBoxes, m.childBoxes)) = .ok
      (some ⟨[⟨'i', 2⟩, ⟨'j', 2⟩]⟩, [some ⟨[⟨0, 2⟩, ⟨0, 1⟩]⟩, some ⟨[⟨0, 1⟩, ⟨0, 2⟩]⟩],
        [some ⟨[⟨0, 2⟩, ⟨0, 2⟩]⟩, some ⟨[⟨0, 2⟩, ⟨0, 1⟩]⟩]) :=
  eq_ok_of_toOption (by decide +kernel)

theorem reorder_back_corner : ∃ n t x m, cornerProducts = .ok n ∧
    n.prepare { Config.standard with alignment := 2 } = .ok t ∧ x ∈ t.postorder ∧
      x.reorder ⟨[⟨'j', 2⟩, ⟨'i', 2⟩]⟩ true = .ok m ∧
        m.childBoxes = [some ⟨[⟨0, 2⟩, ⟨0, 2⟩]⟩, some ⟨[⟨0, 2⟩, ⟨0, 1⟩]⟩] ∧
        m.reorder ⟨[⟨'i', 2⟩, ⟨'j', 2⟩]⟩ true = .ok x := by
  have steps := boxes_cornerProducts
  simp only [bind_eq_ok, Outcome.ofResult, mapError_eq_ok, Prod.exists, operands_eq_ok] at steps
  obtain ⟨n, built, t, prepared, c, x, children, m, moved, found⟩ := steps
  simp only [pure_eq_ok, Prod.mk.injEq] at found
  obtain ⟨known, -, boxes⟩ := found
  have composed := constructed_cornerProducts built
  have member : x ∈ t.postorder :=
    mem_postorder_of_child (mem_postorder.mpr (.inl rfl)) (by simp [children])
  exact ⟨n, t, x, m, built, prepared, member, moved, boxes, reorder_back composed.composed
    composed.tensors prepared member known (by decide) moved⟩

end Node

end TensorKernel
