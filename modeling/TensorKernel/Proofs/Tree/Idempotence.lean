import TensorKernel.Proofs.Tree.Finalized

/-!
Preparation is idempotent. On a prepared tree each pass finds at every node what is recorded there
already. The passes behind it have kept that, as they change nothing it reads: patterns do not
depend on layouts, and neither depends on whether a contraction runs as matrix products.

* `resolveTo_own`: a well-formed tree of known indices is resolved;
* `Propagated.carried`, `withLayout_mapped`: what is found at a node is found again later;
* `mapContractions_again`: contractions that were left over are left over again;
* `Written.prepare_again`: all passes together.
-/

namespace TensorKernel

namespace Node

/-! ### Resolution -/

/-- Resolution leaves a well-formed tree alone whose nodes know their indices. -/
theorem resolveTo_own {n : Node} (formed : n.WellFormed)
    (known : n.Everywhere fun x => x.indices = some x.own) : n.resolveTo n.indices = .ok n := by
  induction n using Node.induction with
  | node kind indices pattern layout prefetch children ih =>
    obtain ⟨i, rfl⟩ : ∃ i, indices = some i := ⟨_, known.root⟩
    have each : ∀ c ∈ children, c.resolveTo c.indices = .ok c := by
      intro c hc
      exact ih c hc (formed.children c hc) (known.children c hc)
    have same {c : Node} (hc : c ∈ children) (equal : c.indices = some i) :
        c.resolveTo (some i) = .ok c := equal ▸ each c hc
    have fits := formed.fits
    have brought : bring i ⟨kind, some i, pattern, layout, prefetch, children⟩ =
        .ok ⟨kind, some i, pattern, layout, prefetch, children⟩ := bring_own rfl
    change Node.resolveTo (some i) _ = _
    cases kind with
    | leaf =>
      rw [resolveTo]
      exact brought
    | einsum => exact fits.elim
    | add =>
      have aligned : ∀ c ∈ children, c.resolveTo (some i) = .ok c := by
        intro c hc
        have child := (known.children c hc).root
        exact same hc ((fits c hc).resolve_left (by simp [child]))
      rw [resolveTo, sumOrder, Option.orElse_some,
        resolveSummands_required.mpr ⟨rfl, List.forall₂_same.mpr aligned⟩]
      exact brought
    | scale =>
      obtain ⟨term, operands, equal⟩ := fits
      obtain rfl : children = [term] := operands
      rw [resolveTo, resolveTerm, same (List.mem_singleton.mpr rfl) equal, ok_bind, equal]
      exact brought
    | indexSum | product | contraction | gemm =>
      rw [resolveTo, resolveOwn_eq_ok.mpr (List.forall₂_same.mpr each)]
      exact brought
    | assign =>
      obtain ⟨_, target, value, tensor, known, operands, -, ht, hv⟩ := fits
      obtain rfl : children = [target, value] := operands
      obtain rfl := Option.some.inj known
      rw [resolveTo, resolveAssigned, ht, same (by simp) hv]
      exact brought

/-- Resolution changes nothing in an assignment whose nodes know their indices. -/
theorem resolve_own {n : Node} (formed : n.WellFormed) (kind : n.kind = .assign)
    (known : n.Everywhere fun x => x.indices = some x.own) : n.resolve = .ok n := by
  have fits := formed.fits
  rw [kind] at fits
  obtain ⟨i, target, value, _, -, operands, -, ht, hv⟩ := fits
  have member : value ∈ n.children := by simp [operands]
  have done := resolveTo_own (formed.children value member) (known.children value member)
  obtain ⟨_, indices, pattern, layout, prefetch, children⟩ := n
  obtain rfl := kind
  obtain rfl : children = [target, value] := operands
  rw [hv] at done
  rw [resolve, resolveTo, resolveAssigned, ht, done]
  rfl

/-! ### Patterns and layouts -/

/-- A pass that changes no node of a tree changes nothing. -/
theorem annotate_stationary {pass : Node → Result Node} {n : Node}
    (h : n.Everywhere fun x => pass x = .ok x) : n.annotate pass = .ok n := by
  induction n using Node.induction with
  | node kind indices pattern layout prefetch children ih =>
    apply annotate_eq_ok.mpr
    refine ⟨children, List.forall₂_same.mpr fun c hc => ?_, h.root⟩
    exact ih c hc (h.children c hc)

section
variable {x y : Node} {p : Pattern}

theorem withPattern_of_propagated (h : Propagated x) : x.withPattern = .ok x := by
  obtain ⟨p, pattern, found⟩ := h
  obtain ⟨_, _, _, _, _, _⟩ := x
  obtain rfl := pattern
  rw [withPattern, found]
  rfl

theorem term_eq_ok {term : Node} : x.term = .ok term ↔ ∃ rest, x.children = term :: rest := by
  unfold Node.term
  cases x.children with
  | nil => simp
  | cons first rest => simp [eq_comm]

/-- A sum of patterns is a matter of the patterns. -/
theorem addPatterns_carried {sum : Pattern} {cs ds : List Node} (h : List.Forall₂ Carries cs ds)
    (added : addPatterns sum cs = .ok p) : addPatterns sum ds = .ok p := by
  induction h generalizing sum with
  | nil => exact added
  | cons carries _ ih =>
    simp only [addPatterns, bind_eq_ok, computedPattern_eq_ok] at added ⊢
    obtain ⟨q, pattern, next, first, added⟩ := added
    exact ⟨q, carries.pattern.trans pattern, next, first, ih added⟩

/-- The indices and patterns of two operands give their product a pattern. -/
theorem patternFromChildren_operands (kind : x.kind.multiplies = true) :
    x.patternFromChildren = .ok p ↔ ∃ left right li ri i a b, x.children = [left, right] ∧
      left.indices = some li ∧ right.indices = some ri ∧ x.indices = some i ∧
      left.pattern = some a ∧ right.pattern = some b ∧
      Pattern.einsum (productDescriptor li ri i) a b = .ok p := by
  cases known : x.kind with
  | product | contraction | gemm =>
    simp only [patternFromChildren, known, bind_eq_ok, Prod.exists, operands_eq_ok,
      deducedIndices_eq_ok, computedPattern_eq_ok]
    grind
  | leaf | einsum | add | scale | indexSum | assign =>
    rw [known] at kind
    cases kind

/-- A node whose children carry on what was known of those before has the same pattern. -/
theorem patternFromChildren_carried (carries : Carries x y)
    (children : List.Forall₂ Carries x.children y.children)
    (h : x.patternFromChildren = .ok p) : y.patternFromChildren = .ok p := by
  by_cases multiplies : x.kind.multiplies = true
  · have role : y.kind.multiplies = true := by
      rcases carries.kind with same | ⟨-, g, gemm⟩
      · rw [same, multiplies]
      · rw [gemm]
        rfl
    rw [patternFromChildren_operands multiplies] at h
    rw [patternFromChildren_operands role]
    obtain ⟨left, right, li, ri, i, a, b, operands, hl, hr, hi, ha, hb, product⟩ := h
    rw [operands] at children
    obtain ⟨left', right', operands', first, second⟩ := forall₂_two children
    exact ⟨left', right', li, ri, i, a, b, operands', first.indices.trans hl,
      second.indices.trans hr, carries.indices.trans hi, first.pattern.trans ha,
      second.pattern.trans hb, product⟩
  have same : y.kind = x.kind := by
    rcases carries.kind with same | ⟨⟨sum, contraction⟩, -⟩
    · exact same
    · rw [contraction] at multiplies
      exact absurd rfl multiplies
  cases kind : x.kind with
  | product | contraction | gemm =>
    rw [kind] at multiplies
    exact absurd rfl multiplies
  | leaf t =>
    rw [patternFromChildren, kind] at h
    rw [patternFromChildren, same, kind]
    exact h
  | einsum =>
    rw [patternFromChildren, kind] at h
    exact absurd h violates_ne_ok
  | add =>
    simp only [patternFromChildren, kind] at h
    simp only [patternFromChildren, same, kind]
    split at h
    · exact absurd h violates_ne_ok
    · next first rest operands =>
      rw [operands] at children
      obtain ⟨first', rest', carries, others, operands'⟩ := List.forall₂_cons_left_iff.mp children
      rw [operands']
      simp only [bind_eq_ok, computedPattern_eq_ok] at h ⊢
      obtain ⟨q, start, added⟩ := h
      exact ⟨q, carries.pattern.trans start, addPatterns_carried others added⟩
  | scale =>
    simp only [patternFromChildren, kind, bind_eq_ok, term_eq_ok, computedPattern_eq_ok] at h
    obtain ⟨term, ⟨rest, operands⟩, pattern⟩ := h
    rw [operands] at children
    obtain ⟨term', rest', first, -, operands'⟩ := List.forall₂_cons_left_iff.mp children
    simp only [patternFromChildren, same, kind, bind_eq_ok, term_eq_ok, computedPattern_eq_ok]
    exact ⟨term', ⟨rest', operands'⟩, first.pattern.trans pattern⟩
  | indexSum =>
    simp only [patternFromChildren, kind, bind_eq_ok, term_eq_ok, deducedIndices_eq_ok,
      computedPattern_eq_ok] at h
    obtain ⟨term, ⟨rest, operands⟩, source, hs, target, ht, q, pattern, reduced⟩ := h
    rw [operands] at children
    obtain ⟨term', rest', first, -, operands'⟩ := List.forall₂_cons_left_iff.mp children
    simp only [patternFromChildren, same, kind, bind_eq_ok, term_eq_ok, deducedIndices_eq_ok,
      computedPattern_eq_ok]
    exact ⟨term', ⟨rest', operands'⟩, source, first.indices.trans hs, target,
      carries.indices.trans ht, q, first.pattern.trans pattern, reduced⟩
  | assign =>
    simp only [patternFromChildren, kind, bind_eq_ok, Prod.exists, operands_eq_ok,
      computedPattern_eq_ok] at h
    obtain ⟨target, value, operands, pattern⟩ := h
    rw [operands] at children
    obtain ⟨target', value', operands', -, second⟩ := forall₂_two children
    simp only [patternFromChildren, same, kind, bind_eq_ok, Prod.exists, operands_eq_ok,
      computedPattern_eq_ok]
    exact ⟨target', value', operands', second.pattern.trans pattern⟩

theorem Propagated.carried (h : Propagated x) (carries : Carries x y)
    (children : List.Forall₂ Carries x.children y.children) : Propagated y := by
  obtain ⟨p, pattern, found⟩ := h
  exact ⟨p, carries.pattern.trans pattern, patternFromChildren_carried carries children found⟩

/-- A layout that is computed is computed again. -/
theorem withLayout_again {config : Config} (h : x.withLayout config = .ok y) :
    y.withLayout config = .ok y := by
  obtain ⟨kind, indices, pattern, layout, prefetch, children⟩ := x
  cases kind with
  | leaf =>
    obtain rfl := pure_eq_ok.mp h
    rfl
  | assign =>
    simp only [withLayout, bind_eq_ok, pure_eq_ok, Prod.exists, operands_eq_ok,
      computedLayout_eq_ok] at h
    obtain ⟨target, value, operands, l, stored, rfl⟩ := h
    simp only [withLayout, bind_eq_ok, pure_eq_ok, Prod.exists, operands_eq_ok,
      computedLayout_eq_ok]
    exact ⟨target, value, operands, l, stored, rfl⟩
  | einsum | add | scale | indexSum | product | contraction | gemm =>
    simp only [withLayout, bind_eq_ok, pure_eq_ok] at h
    obtain ⟨l, done, rfl⟩ := h
    simp only [withLayout, bind_eq_ok, pure_eq_ok]
    exact ⟨l, done, rfl⟩

/-- A pass leaves a node alone whose layout it finds again. -/
theorem withLayout_own {config : Config} :
    x.withLayout config = .ok x ↔
      match x.kind with
      | .leaf _ => True
      | .assign => ∃ target value l, x.children = [target, value] ∧ target.storage? = some l ∧
          x.layout = some l
      | .einsum | .add | .scale _ | .indexSum _ | .product | .contraction _ | .gemm _ =>
        ∃ l, x.resultLayout config = .ok l ∧ x.layout = some l := by
  obtain ⟨kind, indices, pattern, layout, prefetch, children⟩ := x
  cases kind with
  | leaf => exact iff_of_true rfl trivial
  | assign =>
    simp only [withLayout, bind_eq_ok, pure_eq_ok, Prod.exists, operands_eq_ok,
      computedLayout_eq_ok, Node.mk.injEq, true_and, and_true]
    grind
  | einsum | add | scale | indexSum | product | contraction | gemm =>
    simp only [withLayout, bind_eq_ok, pure_eq_ok, Node.mk.injEq, true_and, and_true,
      eq_comm (a := layout)]

section
variable (mapped : Mapped x y) (children : List.Forall₂ Mapped x.children y.children)
include mapped children

theorem mayVectorize_mapped (width : Nat) : y.mayVectorize width = x.mayVectorize width := by
  have along (name : Char) {cs ds : List Node} (h : List.Forall₂ Mapped cs ds) :
      ds.any (mayVectorizeAlong name width) = cs.any (mayVectorizeAlong name width) := by
    induction h with
    | nil => rfl
    | cons first _ ih =>
      rw [List.any_cons, List.any_cons, ih, mayVectorizeAlong, mayVectorizeAlong, first.indices,
        first.storage]
  unfold mayVectorize
  rw [mapped.indices]
  split
  · exact along _ children
  · rfl

theorem resultLayout_mapped {config : Config} {l : Layout} (h : x.resultLayout config = .ok l) :
    y.resultLayout config = .ok l := by
  unfold resultLayout at h ⊢
  split
  · next simple =>
    simp only [simple, if_true, shape, bind_eq_ok, deducedIndices_eq_ok] at h ⊢
    rw [mapped.indices]
    exact h
  · next tight =>
    simp only [tight, Bool.false_eq_true, if_false, bind_eq_ok, computedPattern_eq_ok] at h ⊢
    rw [mapped.pattern, mayVectorize_mapped mapped children]
    exact h

/-- The layout of a node is that of the node it comes from. -/
theorem withLayout_mapped {config : Config} (h : x.withLayout config = .ok x) :
    y.withLayout config = .ok y := by
  rw [withLayout_own] at h ⊢
  rcases mapped.kind with same | ⟨⟨sum, contraction⟩, g, gemm⟩
  · rw [same]
    cases kind : x.kind with
    | leaf => trivial
    | assign =>
      rw [kind] at h
      obtain ⟨target, value, l, operands, stored, own⟩ := h
      rw [operands] at children
      obtain ⟨target', value', operands', first, -⟩ := forall₂_two children
      exact ⟨target', value', l, operands', first.storage.trans stored, mapped.layout.trans own⟩
    | einsum | add | scale | indexSum | product | contraction | gemm =>
      rw [kind] at h
      obtain ⟨l, done, own⟩ := h
      exact ⟨l, resultLayout_mapped mapped children done, mapped.layout.trans own⟩
  · rw [contraction] at h
    rw [gemm]
    obtain ⟨l, done, own⟩ := h
    exact ⟨l, resultLayout_mapped mapped children done, mapped.layout.trans own⟩

end

end

/-! ### Matrix products -/

theorem mapContractionsAll_stationary {source : Gemm.Source} {children : List Node}
    (h : ∀ c ∈ children, c.mapContractions source = .ok (c, 0)) :
    mapContractionsAll source children = .ok (children, 0) := by
  induction children with
  | nil => rfl
  | cons c cs ih =>
    obtain ⟨first, rest⟩ := List.forall_mem_cons.mp h
    rw [mapContractionsAll, first, ok_bind, ih rest]
    rfl

/-- A node is left alone whose children are, unless a partition is found for it. -/
theorem mapContractions_stationary {source : Gemm.Source} {n : Node}
    (children : ∀ c ∈ n.children, c.mapContractions source = .ok (c, 0))
    (unmapped : n.gemmPartition? source = .ok none) : n.mapContractions source = .ok (n, 0) := by
  obtain ⟨kind, indices, pattern, layout, prefetch, children⟩ := n
  rw [mapContractions, mapContractionsAll_stationary ‹_›, ok_bind]
  dsimp only
  rw [unmapped]
  rfl

/-- Contractions that were left over are left over again. -/
theorem mapContractions_again {source : Gemm.Source} {n m : Node} {count : Nat}
    (h : n.mapContractions source = .ok (m, count)) : m.mapContractions source = .ok (m, 0) := by
  induction n using Node.induction generalizing m count with
  | node kind indices pattern layout prefetch children ih =>
    simp only [mapContractions, bind_eq_ok] at h
    obtain ⟨⟨done, k⟩, all, partition, chosen, h⟩ := h
    have each : ∀ d ∈ done, d.mapContractions source = .ok (d, 0) := by
      intro d hd
      obtain ⟨c, hc, _, mapped⟩ := exists_of_forall₂_right (mapContractionsAll_eq_ok all) hd
      exact ih c hc mapped
    cases partition with
    | none =>
      cases pure_eq_ok.mp h
      exact mapContractions_stationary each chosen
    | some p =>
      obtain ⟨y, mapped, h⟩ := bind_eq_ok.mp h
      cases pure_eq_ok.mp h
      -- matrix products are no contraction any more
      obtain ⟨-, _, _, _, _, _, _, -, operands, known, hl, hr, -⟩ := gemmPartition?_eq_ok chosen
      obtain ⟨g, -, rfl⟩ := asGemm_eq_ok operands known hl hr mapped
      exact mapContractions_stationary each rfl

/-! ### Preparation -/

/-- What the passes behind resolution make of a well-formed tree is left alone by each of them. -/
theorem stationary_of_stages {config : Config} {r p l m : Node} (formed : r.WellFormed)
    (tensors : r.Everywhere fun x => ∀ t, x.kind = .leaf t → t.Constructed) (kind : m.kind = .assign)
    (propagated : r.propagateSparsity = .ok p) (laid : p.computeLayouts config = .ok l)
    (mapped : m = l ∨ ∃ count, l.mapContractions Gemm.naturalPartitions = .ok (m, count)) :
    m.resolve = .ok m ∧ m.propagateSparsity = .ok m ∧ m.computeLayouts config = .ok m := by
  obtain ⟨whole, -, finished⟩ := finished_of_stages formed tensors propagated laid mapped
  have known : m.Everywhere fun x => x.indices = some x.own :=
    finished.mono fun x ⟨_, _, known, _⟩ => known.indices
  have patterns : l.Everywhere Propagated := by
    intro y hy
    obtain ⟨x, hx, carries, children⟩ := exists_of_annotate carries_withLayout laid hy
    exact (everywhere_propagated propagated x hx).carried carries children
  have layouts : l.Everywhere fun x => x.withLayout config = .ok x :=
    everywhere_of_annotate (annotates_withLayout config) (fun _ _ => withLayout_again) laid
  have both : m.Everywhere fun x => Propagated x ∧ x.withLayout config = .ok x := by
    rcases mapped with rfl | ⟨count, mapped⟩
    · exact fun x hx => ⟨patterns x hx, layouts x hx⟩
    · intro y hy
      obtain ⟨x, hx, related, children⟩ := exists_of_mapContractions mapped hy
      exact ⟨(patterns x hx).carried related.toCarries (children.imp fun _ _ h => h.toCarries),
        withLayout_mapped related children (layouts x hx)⟩
  refine ⟨resolve_own whole kind known, ?_, ?_⟩
  · exact annotate_stationary (both.mono fun x h => withPattern_of_propagated h.1)
  · exact annotate_stationary (both.mono fun x h => h.2)

/-- A prepared statement is prepared: each pass leaves it as it is, and so does preparation. -/
theorem Written.prepare_again {config : Config} {n m : Node} (written : n.Written)
    (h : n.prepare config = .ok m) :
    m.resolve = .ok m ∧ m.propagateSparsity = .ok m ∧ m.computeLayouts config = .ok m ∧
      (config.mapGemm = true → m.mapContractions Gemm.naturalPartitions = .ok (m, 0)) ∧
      m.prepare config = .ok m := by
  obtain ⟨r', -, assign, rebuilt⟩ := prepare_rebuilt (R := Nat) 0 h
  have kind : m.kind = .assign := rebuilt.kind.trans assign
  obtain ⟨-, r, p, l, resolved, propagated, laid, mapped⟩ := prepare_eq_ok.mp h
  have sound := written.sound
  obtain ⟨formed, -⟩ := sound.composed.resolveTo none r (by simp) resolved
  have fresh := resolveTo_everywhere stable_fresh sound.fresh resolved
  have again : config.mapGemm = true →
      m.mapContractions Gemm.naturalPartitions = .ok (m, 0) := by
    intro maps
    rw [if_pos maps] at mapped
    obtain ⟨count, mapped⟩ := mapped
    exact mapContractions_again mapped
  have either : m = l ∨ ∃ count, l.mapContractions Gemm.naturalPartitions = .ok (m, count) := by
    split at mapped
    · exact .inr mapped
    · exact .inl mapped
  obtain ⟨resolve, propagate, layouts⟩ :=
    stationary_of_stages formed (fresh.mono fun x h => h.made) kind propagated laid either
  refine ⟨resolve, propagate, layouts, again, ?_⟩
  refine prepare_eq_ok.mpr ⟨kind, m, m, m, resolve, propagate, layouts, ?_⟩
  split
  · next maps => exact ⟨0, again maps⟩
  · rfl

theorem prepare_again_difference : ∃ n m, difference = .ok n ∧ n.Written ∧
    n.prepare .standard = .ok m ∧ m.prepare .standard = .ok m ∧
    m.mapContractions Gemm.naturalPartitions = .ok (m, 0) ∧
    "LoopOverGEMM" ∈ m.postorder.map fun x => x.kind.name := by
  obtain ⟨m, prepared, kinds⟩ := map_eq_ok.mp kinds_difference
  simp only [bind_eq_ok, Outcome.ofResult, mapError_eq_ok] at prepared
  obtain ⟨n, built, prepared⟩ := prepared
  have written := written_difference built
  obtain ⟨-, -, -, again, whole⟩ := written.prepare_again prepared
  refine ⟨n, m, built, written, prepared, whole, again rfl, ?_⟩
  rw [kinds]
  decide

end Node

end TensorKernel
