import TensorKernel.Prepare
import TensorKernel.Proofs.Tree.Resolution

/-!
Passes keep the values of trees. Patterns and layouts say nothing about values; a contraction that
runs as matrix products sums over the same dimensions, those of K inside the products and the rest in
the loops around them.

* `annotate_rebuilt`: a pass that changes no more than patterns and layouts;
* `mapContractions_refines`: the choice of matrix products;
* `prepare_spec`: all passes on an assignment.
-/

namespace TensorKernel

namespace Indices

theorem isSubsetOf_iff {i other : Indices} (h : other.Distinct) :
    i.isSubsetOf other = true ↔ ∀ d ∈ i.dims, d ∈ other.dims := by
  simp only [isSubsetOf, List.all_eq_true, decide_eq_true_eq, extent?_eq_some h]

end Indices

/-- What a node demands of its children is a matter of their indices, and that a tensor is assigned
to. -/
theorem Kind.Fits.of_children {kind : Kind} {indices : Option Indices} {cs ds : List Node}
    (h : kind.Fits indices cs) (same : List.Forall₂ (fun c d => d.indices = c.indices) cs ds)
    (leaf : kind = .assign →
      List.Forall₂ (fun c d => ∀ t, c.kind = .leaf t → d.kind = .leaf t) cs ds) :
    kind.Fits indices ds := by
  cases kind with
  | leaf => exact h
  | einsum => exact h
  | assign =>
    obtain ⟨i, target, value, tensor, known, rfl, isLeaf, ht, hv⟩ := h
    obtain ⟨t, v, rfl, equal, equal'⟩ := forall₂_two same
    obtain ⟨kept, -⟩ := List.forall₂_cons.mp (leaf rfl)
    exact ⟨i, t, v, tensor, known, rfl, kept tensor isLeaf, equal.trans ht, equal'.trans hv⟩
  | add =>
    intro d hd
    obtain ⟨c, hc, equal⟩ := exists_of_forall₂_right same hd
    exact equal ▸ h c hc
  | scale =>
    obtain ⟨term, rfl, aligned⟩ := h
    obtain ⟨d, rfl, equal⟩ := forall₂_one same
    exact ⟨d, rfl, equal.trans aligned⟩
  | indexSum =>
    obtain ⟨i, term, known, rfl, own, sums⟩ := h
    obtain ⟨d, rfl, equal⟩ := forall₂_one same
    have term := Node.own_eq equal
    refine ⟨i, d, known, rfl, by rw [term, equal, own], ?_, ?_⟩
    · rw [term]
      exact sums.single
    · rw [term]
      exact sums.kept
  | gemm =>
    obtain ⟨i, left, right, known, rfl, hl, hr, groups⟩ := h
    obtain ⟨l, r, rfl, equal, equal'⟩ := forall₂_two same
    refine ⟨i, l, r, known, rfl, by rw [Node.own_eq equal, equal, hl],
      by rw [Node.own_eq equal', equal', hr], ?_⟩
    rwa [Node.own_eq equal, Node.own_eq equal']
  | product | contraction =>
    obtain ⟨i, left, right, known, rfl, hl, hr, contracts⟩ := h
    obtain ⟨l, r, rfl, equal, equal'⟩ := forall₂_two same
    have left := Node.own_eq equal
    have right := Node.own_eq equal'
    refine ⟨i, l, r, known, rfl, by rw [left, equal, hl], by rw [right, equal', hr],
      contracts.distinct, ?_, ?_, ?_⟩
    · rw [left, right]
      exact contracts.agree
    · rw [left, right]
      exact contracts.kept
    · rw [left, right]
      exact contracts.summed

namespace Node

section
variable {R : Type} [CommSemiring R] (scalars : Factor → R)

/-- A tree that may stand for another. -/
structure Refines (n m : Node) : Prop where
  indices : m.indices = n.indices
  leaf : ∀ tensor, n.kind = .leaf tensor → m.kind = .leaf tensor
  wellFormed : n.WellFormed → m.WellFormed
  value : n.WellFormed → ∀ σ p, m.valueAt scalars σ p = n.valueAt scalars σ p

/-- A node with other children that may stand for those it had. -/
structure Rebuilt (n m : Node) : Prop where
  kind : m.kind = n.kind
  indices : m.indices = n.indices
  children : List.Forall₂ (Refines scalars) n.children m.children

theorem Refines.trans {a b c : Node} (h : Refines scalars a b) (k : Refines scalars b c) :
    Refines scalars a c where
  indices := k.indices.trans h.indices
  leaf tensor kind := k.leaf tensor (h.leaf tensor kind)
  wellFormed formed := k.wellFormed (h.wellFormed formed)
  value formed σ p := (k.value (h.wellFormed formed) σ p).trans (h.value formed σ p)

theorem Rebuilt.refines {n m : Node} (h : Rebuilt scalars n m) : Refines scalars n m := by
  have own : m.own = n.own := own_eq h.indices
  refine ⟨h.indices, fun tensor kind => h.kind.trans kind, fun formed => ?_, fun formed σ p => ?_⟩
  · refine .node (fun i known => formed.indices (h.indices ▸ known)) ?_ fun d hd => ?_
    · rw [h.kind, h.indices]
      exact formed.fits.of_children (h.children.imp fun _ _ refines => refines.indices)
        fun _ => h.children.imp fun _ _ refines => refines.leaf
    · obtain ⟨c, hc, refines⟩ := exists_of_forall₂_right h.children hd
      exact refines.wellFormed (formed.children c hc)
  · cases leaf : n.kind.isLeaf with
    | true =>
      obtain ⟨tensor, kind⟩ := Kind.isLeaf_iff.mp leaf
      rw [valueAt, valueAt, value_leaf scalars σ kind, value_leaf scalars σ (h.kind.trans kind), own]
    | false =>
      have operands : m.children.map (asOperand scalars σ) =
          n.children.map (asOperand scalars σ) := by
        refine map_eq_of_forall₂ (forall₂_imp_of_mem h.children fun c hc d refines => ?_)
        have value := funext (refines.value (formed.children c hc) σ)
        rw [asOperand, asOperand, own_eq refines.indices, value]
      rw [valueAt_eq scalars σ leaf, valueAt_eq scalars σ (h.kind ▸ leaf), h.kind, own, operands]

theorem Rebuilt.trans {a b c : Node} (h : Rebuilt scalars a b) (k : Rebuilt scalars b c) :
    Rebuilt scalars a c :=
  ⟨k.kind.trans h.kind, k.indices.trans h.indices,
    (forall₂_comp h.children k.children).imp fun _ _ ⟨_, first, second⟩ =>
      first.trans scalars second⟩

/-! ### Patterns and layouts -/

theorem annotateAll_eq_ok {pass : Node → Result Node} {children done : List Node} :
    annotateAll pass children = .ok done ↔
      List.Forall₂ (fun c d => c.annotate pass = .ok d) children done := by
  induction children generalizing done with
  | nil => rw [annotateAll, pure_eq_ok, List.forall₂_nil_left_iff, eq_comm]
  | cons c cs ih =>
    simp only [annotateAll, bind_eq_ok, pure_eq_ok, ih, List.forall₂_cons_left_iff]
    grind

/-- A pass meets a node when its children are done. -/
theorem annotate_eq_ok {pass : Node → Result Node} {n m : Node} :
    n.annotate pass = .ok m ↔ ∃ done, List.Forall₂ (fun c d => c.annotate pass = .ok d)
      n.children done ∧ pass { n with children := done } = .ok m := by
  obtain ⟨_, _, _, _, _, _⟩ := n
  simp only [annotate, bind_eq_ok, annotateAll_eq_ok]

/-- A node after a pass that changes nothing but its pattern and its layout. -/
structure Annotated (n m : Node) : Prop where
  kind : m.kind = n.kind
  indices : m.indices = n.indices
  prefetch : m.prefetch = n.prefetch
  children : m.children = n.children

def Annotates (pass : Node → Result Node) : Prop := ∀ n m, pass n = .ok m → Annotated n m

theorem annotates_withPattern : Annotates withPattern := by
  intro n m h
  simp only [withPattern, bind_eq_ok, pure_eq_ok] at h
  obtain ⟨_, _, rfl⟩ := h
  exact ⟨rfl, rfl, rfl, rfl⟩

theorem withLayout_eq_ok {config : Config} {n m : Node} (h : n.withLayout config = .ok m) :
    ∃ layout, m = { n with layout := layout } := by
  obtain ⟨kind, _, _, layout, _, _⟩ := n
  unfold withLayout at h
  split at h
  · obtain rfl := pure_eq_ok.mp h
    exact ⟨layout, rfl⟩
  · simp only [bind_eq_ok, pure_eq_ok] at h
    obtain ⟨_, _, l, -, rfl⟩ := h
    exact ⟨some l, rfl⟩
  all_goals
    simp only [bind_eq_ok, pure_eq_ok] at h
    obtain ⟨l, -, rfl⟩ := h
    exact ⟨some l, rfl⟩

theorem annotates_withLayout (config : Config) : Annotates (withLayout config) := by
  intro n m h
  obtain ⟨layout, rfl⟩ := withLayout_eq_ok h
  exact ⟨rfl, rfl, rfl, rfl⟩

theorem annotate_rebuilt {pass : Node → Result Node} (annotates : Annotates pass) {n m : Node}
    (h : n.annotate pass = .ok m) : Rebuilt scalars n m := by
  induction n using induction generalizing m with
  | node kind indices pattern layout prefetch children ih =>
    obtain ⟨done, all, passed⟩ := annotate_eq_ok.mp h
    have kept := annotates _ m passed
    refine ⟨kept.kind, kept.indices, ?_⟩
    rw [kept.children]
    exact forall₂_imp_of_mem all fun c hc d annotated => (ih c hc annotated).refines scalars

end

theorem annotate_wellFormed {pass : Node → Result Node} (annotates : Annotates pass) {n m : Node}
    (formed : n.WellFormed) (h : n.annotate pass = .ok m) : m.WellFormed :=
  ((annotate_rebuilt (R := Nat) 0 annotates h).refines 0).wellFormed formed

end Node

/-! ### Matrix products -/

namespace Gemm

theorem fits_of_ofPartition {c a b : Indices} {p : Partition} {g : Gemm}
    (h : ofPartition c a b p = .ok g) : g.toPartition = p ∧ p.fits c a b = true := by
  obtain ⟨-, -, fits, rfl⟩ := ofPartition_iff.mp h
  exact ⟨rfl, fits⟩

theorem ofPartition_eq_ok {c a b : Indices} {p : Partition} {g : Gemm} (hc : c.Distinct)
    (ha : a.Distinct) (hb : b.Distinct) (h : ofPartition c a b p = .ok g) :
    g.toPartition = p ∧ p.Groups c a b := by
  obtain ⟨same, fits⟩ := fits_of_ofPartition h
  simp only [Partition.fits, Bool.and_eq_true, Indices.isSubsetOf_iff hc,
    Indices.isSubsetOf_iff ha, Indices.isSubsetOf_iff hb, Bool.not_eq_true', List.any_eq_false,
    Indices.contains_iff] at fits
  obtain ⟨⟨⟨⟨⟨⟨⟨⟨ma, mc⟩, ka⟩, kb⟩, nb⟩, nc⟩, inner⟩, _⟩, _⟩ := fits
  exact ⟨same, fun d hd => ⟨ma d hd, mc d hd⟩, fun d hd => ⟨nb d hd, nc d hd⟩,
    fun d hd => ⟨ka d hd, kb d hd⟩, inner⟩

theorem apart_of_ofPartition {c a b : Indices} {p : Partition} {g : Gemm}
    (h : ofPartition c a b p = .ok g) : p.Apart a b := by
  have fits := (fits_of_ofPartition h).2
  simp only [Partition.fits, Bool.and_eq_true, Bool.not_eq_true', List.any_eq_false,
    Indices.contains_iff] at fits
  exact ⟨fits.1.2, fits.2⟩

theorem distinct_of_mem_naturalPartitions {c a b sum : Indices} {p : Partition} (ha : a.Distinct)
    (h : p ∈ naturalPartitions c a b sum) : p.k.Distinct := by
  have full : ((a.inter sum).inter b).Distinct := (ha.inter sum).inter b
  have single : (leading ((a.inter sum).inter b)).Distinct := by
    rw [Indices.Distinct, leading, Indices.names, List.map_take]
    exact full.sublist (List.take_sublist 1 _)
  simp only [naturalPartitions] at h
  split at h
  · cases h
  · split at h
    · rw [List.mem_singleton.mp h]
      exact full
    · rcases List.mem_cons.mp h with rfl | h
      · exact full
      · rw [List.mem_singleton.mp h]
        exact single

section
variable {g : Gemm} {sum c : Indices} {left right : Node}

/-- A contraction sums over the dimensions of its operands that its result does not have. -/
theorem mem_sum_of_contracts (h : Contracts sum c left right) {d : Dim}
    (hd : d ∈ left.own.dims ∨ d ∈ right.own.dims) : d ∈ sum.dims ↔ d.name ∉ c.names := by
  constructor
  · intro summed kept
    obtain ⟨e, he, same⟩ := Indices.mem_names.mp kept
    have unsummed := ((h.kept e).mp he).2
    rw [same] at unsummed
    exact unsummed (Indices.mem_names_of_mem summed)
  · intro gone
    refine (h.summed d).mpr ⟨hd, ?_⟩
    by_contra unsummed
    exact gone (Indices.mem_names_of_mem ((h.kept d).mpr ⟨hd, unsummed⟩))

/-- A name that the result has is that of one of its own dimensions only. -/
theorem mem_of_contracts (h : Contracts sum c left right) {d : Dim}
    (hd : d ∈ left.own.dims ∨ d ∈ right.own.dims) (named : d.name ∈ c.names) : d ∈ c.dims := by
  by_contra gone
  refine (mem_sum_of_contracts h hd).mp ((h.summed d).mpr ⟨hd, ?_⟩) named
  by_contra unsummed
  exact gone ((h.kept d).mpr ⟨hd, unsummed⟩)

/-- The loops run over all dimensions outside the three groups. -/
theorem mem_loopIndices (contracts : Contracts sum c left right)
    (groups : g.toPartition.Groups c left.own right.own)
    (apart : g.toPartition.Apart left.own right.own) (hl : left.own.Distinct)
    (hr : right.own.Distinct) {d : Dim} :
    d ∈ (g.loopIndices c left.own right.own).dims ↔
      (d ∈ left.own.dims ∨ d ∈ right.own.dims) ∧
        d.name ∉ g.m.names ∧ d.name ∉ g.n.names ∧ d.name ∉ g.k.names := by
  rw [loopIndices, Indices.mem_merge (((hr.diff _).diff _).diff _),
    Indices.mem_merge ((hl.diff _).diff _)]
  simp only [Indices.mem_diff, Indices.mem_names_merge, Indices.mem_names_diff, not_or]
  constructor
  · rintro ((⟨kept, rows, columns⟩ | ⟨⟨⟨own, rows, inner⟩, -⟩, -⟩) |
      ⟨⟨⟨⟨own, inner, columns⟩, -⟩, -⟩, -⟩)
    · refine ⟨((contracts.kept d).mp kept).1, rows, columns, fun summed => ?_⟩
      exact groups.inner d.name summed (Indices.mem_names_of_mem kept)
    · refine ⟨.inl own, rows, fun column => ?_, inner⟩
      exact apart.columns d.name column (Indices.mem_names_of_mem own)
    · refine ⟨.inr own, fun row => ?_, columns, inner⟩
      exact apart.rows d.name row (Indices.mem_names_of_mem own)
  · rintro ⟨own, rows, columns, inner⟩
    by_cases named : d.name ∈ c.names
    · exact .inl (.inl ⟨mem_of_contracts contracts own named, rows, columns⟩)
    by_cases ofLeft : d ∈ left.own.dims
    · exact .inl (.inr ⟨⟨⟨ofLeft, rows, inner⟩, fun new => named new.1⟩, fun new => named new.1⟩)
    · have ofRight := own.resolve_left ofLeft
      have new : d.name ∉ left.own.names := by
        intro known
        obtain ⟨e, he, same⟩ := Indices.mem_names.mp known
        exact ofLeft (contracts.agree e he d ofRight same ▸ he)
      exact .inr ⟨⟨⟨⟨ofRight, inner, columns⟩, fun kept => named kept.1⟩,
        fun known => new known.1.1⟩, fun kept => named kept.1, fun known => new known.1.1⟩

/-- Loops around matrix products and the products themselves sum over what the contraction does. -/
theorem sumOver_loops {R : Type} [CommSemiring R] (contracts : Contracts sum c left right)
    (groups : g.toPartition.Groups c left.own right.own)
    (apart : g.toPartition.Apart left.own right.own) (inner : g.k.Distinct)
    (hc : c.Distinct) (hl : left.own.Distinct) (hr : right.own.Distinct) (f : Point → R) :
    sumOver ((g.loopIndices c left.own right.own).diff c).dims (sumOver g.k.dims f) =
      sumOver sum.dims f := by
  have loops {d : Dim} := mem_loopIndices contracts groups apart hl hr (d := d)
  rw [← sumOver_append]
  refine sumOver_eq_of_mem ?_ contracts.distinct (fun d => ?_) f
  · rw [List.map_append, List.nodup_append]
    refine ⟨(g.loopIndices_distinct hc hl hr).diff c, inner, ?_⟩
    rintro name loop k hk rfl
    obtain ⟨d, hd, same⟩ := List.mem_map.mp loop
    exact (loops.mp (Indices.mem_diff.mp hd).1).2.2.2 (same ▸ hk)
  · rw [List.mem_append, Indices.mem_diff]
    constructor
    · rintro (⟨loop, free⟩ | hk)
      · exact (mem_sum_of_contracts contracts (loops.mp loop).1).mpr free
      · have free := groups.inner d.name (Indices.mem_names_of_mem hk)
        exact (mem_sum_of_contracts contracts (.inl (groups.summed d hk).1)).mpr free
    · intro hd
      have own := ((contracts.summed d).mp hd).1
      have free := (mem_sum_of_contracts contracts own).mp hd
      by_cases summed : d.name ∈ g.k.names
      · -- all extents that the operands have for the name are summed, so there is one only
        obtain ⟨e, he, same⟩ := Indices.mem_names.mp summed
        have all := (mem_sum_of_contracts contracts (.inl (groups.summed e he).1)).mpr (same ▸ free)
        exact .inr (contracts.distinct.dim_unique all hd same ▸ he)
      · refine .inl ⟨loops.mpr ⟨own, fun row => ?_, fun column => ?_, summed⟩, free⟩
        · obtain ⟨e, he, same⟩ := Indices.mem_names.mp row
          exact free (same ▸ Indices.mem_names_of_mem (groups.rows e he).2)
        · obtain ⟨e, he, same⟩ := Indices.mem_names.mp column
          exact free (same ▸ Indices.mem_names_of_mem (groups.columns e he).2)

end

end Gemm

namespace Node

/-- The partition that is found was offered and has a cost, unless it was the best one before. -/
theorem mem_of_cheapest {n : Node} {p : Gemm.Partition} {ps : List Gemm.Partition}
    {best found : Option (Gemm.Partition × Gemm.Cost)} (h : n.cheapest best ps = .ok found)
    (chosen : found.map Prod.fst = some p) :
    best.map Prod.fst = some p ∨ p ∈ ps ∧ ∃ cost, n.gemmCost? p = .ok (some cost) := by
  induction ps generalizing best with
  | nil =>
    obtain rfl := pure_eq_ok.mp h
    exact .inl chosen
  | cons q qs ih =>
    have later {best : Option (Gemm.Partition × Gemm.Cost)} (h : n.cheapest best qs = .ok found) :=
      (ih h).imp_right fun ⟨offered, fits⟩ => And.intro (List.mem_cons_of_mem q offered) fits
    rw [cheapest] at h
    obtain ⟨cost, fits, h⟩ := bind_eq_ok.mp h
    cases cost with
    | none => exact later h
    | some cost =>
      rcases later h with first | later
      · split at first
        · obtain rfl := Option.some.inj first
          exact .inr ⟨List.mem_cons_self, cost, fits⟩
        · exact .inl first
      · exact .inr later

/-- Only contractions are mapped onto matrix products, by a partition that was offered and has a
cost. -/
theorem gemmPartition?_eq_ok {source : Gemm.Source} {n : Node} {p : Gemm.Partition}
    (h : n.gemmPartition? source = .ok (some p)) :
    (∃ cost, n.gemmCost? p = .ok (some cost)) ∧
      ∃ sum a b c ai bi, n.kind = .contraction sum ∧ n.children = [a, b] ∧ n.indices = some c ∧
        a.indices = some ai ∧ b.indices = some bi ∧ p ∈ source c ai bi sum := by
  unfold gemmPartition? at h
  split at h
  · next sum a b c kind children indices =>
    split at h
    · next ai bi hl hr =>
      simp only [bind_eq_ok, pure_eq_ok] at h
      obtain ⟨found, cheapest, chosen⟩ := h
      obtain ⟨offered, fits⟩ := (mem_of_cheapest cheapest chosen).resolve_left (by simp)
      exact ⟨fits, sum, a, b, c, ai, bi, kind, children, indices, hl, hr, offered⟩
    · simp [pure_eq_ok] at h
  · simp [pure_eq_ok] at h

theorem asGemm_eq_ok {n a b m : Node} {c ai bi : Indices} {p : Gemm.Partition}
    (children : n.children = [a, b]) (indices : n.indices = some c) (hl : a.indices = some ai)
    (hr : b.indices = some bi) (h : n.asGemm p = .ok m) :
    ∃ g, Gemm.ofPartition c ai bi p = .ok g ∧ m = { n with kind := .gemm g } := by
  simp only [asGemm, gemm, operands, children, deducedIndices, indices, bind_eq_ok, pure_eq_ok,
    operandIndices_eq_ok, Except.ok.injEq] at h
  obtain ⟨_, rfl, _, rfl, _, ⟨_, known, _, known', g, mapped, rfl⟩, rfl⟩ := h
  obtain rfl := Option.some.inj (hl.symm.trans known)
  obtain rfl := Option.some.inj (hr.symm.trans known')
  obtain ⟨_, _, _, _, _, _⟩ := n
  obtain rfl := indices
  obtain rfl := children
  exact ⟨g, mapped, rfl⟩

section
variable {R : Type} [CommSemiring R] (scalars : Factor → R)

theorem asGemm_refines {n m : Node} {p : Gemm.Partition}
    (chosen : n.gemmPartition? Gemm.naturalPartitions = .ok (some p)) (h : n.asGemm p = .ok m) :
    Refines scalars n m := by
  obtain ⟨-, sum, a, b, c, ai, bi, kind, children, indices, hl, hr, offered⟩ :=
    gemmPartition?_eq_ok chosen
  obtain ⟨g, mapped, rfl⟩ := asGemm_eq_ok children indices hl hr h
  obtain rfl := own_of_indices hl
  obtain rfl := own_of_indices hr
  refine ⟨rfl, by simp [kind], fun formed => ?_, fun formed σ q => ?_⟩
  · have operands := formed.children
    rw [children] at operands
    obtain ⟨rfl, groups⟩ := Gemm.ofPartition_eq_ok (formed.indices indices)
      (operands a (by simp)).own (operands b (by simp)).own mapped
    exact .of_known indices (formed.indices indices)
      ⟨c, a, b, indices, children, hl, hr, groups⟩ formed.children
  · have operands := formed.children
    rw [children] at operands
    have da := (operands a (by simp)).own
    have db := (operands b (by simp)).own
    have dc := formed.indices indices
    obtain ⟨rfl, groups⟩ := Gemm.ofPartition_eq_ok dc da db mapped
    have inner := Gemm.distinct_of_mem_naturalPartitions da offered
    have fits := formed.fits
    rw [kind, children, indices] at fits
    obtain ⟨_, _, _, ⟨⟩, ⟨⟩, -, -, contracts⟩ := fits
    have noLeaf : n.kind.isLeaf = false := by rw [kind]; rfl
    have own : own { n with kind := .gemm g } = n.own := own_eq rfl
    rw [valueAt_eq scalars σ noLeaf, valueAt_eq scalars σ (n := { n with kind := .gemm g }) rfl, own,
      kind, children, own_of_indices indices]
    have apart := Gemm.apart_of_ofPartition mapped
    exact congrFun (Gemm.sumOver_loops contracts groups apart inner dc da db _) _

theorem mapContractionsAll_eq_ok {source : Gemm.Source} {children done : List Node} {count : Nat}
    (h : mapContractionsAll source children = .ok (done, count)) :
    List.Forall₂ (fun c d => ∃ k, c.mapContractions source = .ok (d, k)) children done := by
  induction children generalizing done count with
  | nil =>
    rw [mapContractionsAll, pure_eq_ok] at h
    cases h
    exact .nil
  | cons c cs ih =>
    simp only [mapContractionsAll, bind_eq_ok, pure_eq_ok] at h
    obtain ⟨⟨d, k⟩, mapped, ⟨ds, rest⟩, others, h⟩ := h
    cases h
    exact .cons ⟨k, mapped⟩ (ih others)

/-- A node with mapped children, which is then mapped itself if it is a contraction. -/
theorem mapContractions_cases {source : Gemm.Source} {n m : Node} {count : Nat}
    (h : n.mapContractions source = .ok (m, count)) :
    ∃ done, List.Forall₂ (fun c d => ∃ k, c.mapContractions source = .ok (d, k)) n.children done ∧
      (m = { n with children := done } ∨
        ∃ p, gemmPartition? source { n with children := done } = .ok (some p) ∧
          asGemm { n with children := done } p = .ok m) := by
  obtain ⟨kind, indices, pattern, layout, prefetch, children⟩ := n
  simp only [mapContractions, bind_eq_ok] at h
  obtain ⟨⟨done, k⟩, all, partition, chosen, h⟩ := h
  refine ⟨done, mapContractionsAll_eq_ok all, ?_⟩
  cases partition with
  | none =>
    cases pure_eq_ok.mp h
    exact .inl rfl
  | some p =>
    obtain ⟨mapped, done, h⟩ := bind_eq_ok.mp h
    cases pure_eq_ok.mp h
    exact .inr ⟨p, chosen, done⟩

/-- An assignment is not mapped itself. -/
theorem mapContractions_assign {source : Gemm.Source} {n m : Node} {count : Nat}
    (kind : n.kind = .assign) (h : n.mapContractions source = .ok (m, count)) :
    ∃ done, List.Forall₂ (fun c d => ∃ k, c.mapContractions source = .ok (d, k)) n.children done ∧
      m = { n with children := done } := by
  obtain ⟨done, each, rfl | ⟨p, chosen, -⟩⟩ := mapContractions_cases h
  · exact ⟨done, each, rfl⟩
  · obtain ⟨-, _, _, _, _, _, _, contraction, -⟩ := gemmPartition?_eq_ok chosen
    cases kind.symm.trans contraction

theorem mapContractions_refines {n m : Node} {count : Nat}
    (h : n.mapContractions Gemm.naturalPartitions = .ok (m, count)) : Refines scalars n m := by
  induction n using induction generalizing m count with
  | node kind indices pattern layout prefetch children ih =>
    obtain ⟨done, each, mapped⟩ := mapContractions_cases h
    have rebuilt : Rebuilt scalars ⟨kind, indices, pattern, layout, prefetch, children⟩
        ⟨kind, indices, pattern, layout, prefetch, done⟩ :=
      ⟨rfl, rfl, forall₂_imp_of_mem each fun c hc d ⟨_, done⟩ => ih c hc done⟩
    rcases mapped with rfl | ⟨p, chosen, done⟩
    · exact rebuilt.refines scalars
    · exact (rebuilt.refines scalars).trans scalars (asGemm_refines scalars chosen done)

/-! ### Preparation -/

/-- What a pass makes of a statement. -/
theorem apply_eq_ok {pass : Pass} {n r : Node} :
    (∃ changed, pass.apply n = .ok (r, changed)) ↔
      match pass with
      | .resolveIndices => n.resolve = .ok r
      | .propagateSparsity => n.propagateSparsity = .ok r
      | .computeLayouts config => n.computeLayouts config = .ok r
      | .selectGemm => ∃ count, n.mapContractions Gemm.naturalPartitions = .ok (r, count) := by
  cases pass <;> simp only [Pass.apply, bind_eq_ok, pure_eq_ok, Prod.exists, Prod.mk.injEq] <;>
    grind

theorem run_cons_eq_ok {n m : Node} {pass : Pass} {passes : List Pass} :
    (∃ report, Pipeline.run n (pass :: passes) = .ok (m, report)) ↔
      ∃ r, (∃ changed, pass.apply n = .ok (r, changed)) ∧
        ∃ report, Pipeline.run r passes = .ok (m, report) := by
  simp only [Pipeline.run, bind_eq_ok, Outcome.within, Outcome.ofResult, mapError_eq_ok,
    pure_eq_ok, Prod.exists, Prod.mk.injEq]
  constructor
  · rintro ⟨_, r, changed, applied, _, later, rest, rfl, -⟩
    exact ⟨r, ⟨changed, applied⟩, later, rest⟩
  · rintro ⟨r, ⟨changed, applied⟩, later, rest⟩
    exact ⟨_, r, changed, applied, m, later, rest, rfl, rfl⟩

theorem run_nil_eq_ok {n m : Node} :
    (∃ report, Pipeline.run n [] = .ok (m, report)) ↔ m = n := by
  simp only [Pipeline.run, pure_eq_ok, Prod.mk.injEq, exists_and_left, exists_eq', and_true]
  exact eq_comm

/-- Only assignments are prepared, by the passes of the configuration. -/
theorem prepare_eq_run {config : Config} {n m : Node} :
    n.prepare config = .ok m ↔ n.kind = .assign ∧
      ∃ report, Pipeline.run n (Pipeline.passes config) = .ok (m, report) := by
  unfold prepare
  split
  · next other =>
    constructor
    · intro h
      obtain ⟨_, refused, -⟩ := bind_eq_ok.mp h
      cases refused
    · intro h
      exact absurd h.1 other
  · next assign =>
    simp only [bind_eq_ok, pure_eq_ok, Outcome.within, mapError_eq_ok, Prod.exists,
      of_not_not assign, true_and]
    constructor
    · rintro ⟨_, report, done, rfl⟩
      exact ⟨report, done⟩
    · rintro ⟨report, done⟩
      exact ⟨m, report, done, rfl⟩

/-- Preparation resolves indices, propagates patterns and computes layouts of an assignment, and
then selects matrix products if the configuration says so. -/
theorem prepare_eq_ok {config : Config} {n m : Node} :
    n.prepare config = .ok m ↔ n.kind = .assign ∧
      ∃ r p l, n.resolve = .ok r ∧ r.propagateSparsity = .ok p ∧
        p.computeLayouts config = .ok l ∧
        if config.mapGemm then ∃ count, l.mapContractions Gemm.naturalPartitions = .ok (m, count)
        else m = l := by
  have passes : Pipeline.passes config = .resolveIndices :: .propagateSparsity ::
      .computeLayouts config :: if config.mapGemm then [.selectGemm] else [] := rfl
  have last (l : Node) :
      (∃ report, Pipeline.run l (if config.mapGemm then [.selectGemm] else []) = .ok (m, report)) ↔
        if config.mapGemm then ∃ count, l.mapContractions Gemm.naturalPartitions = .ok (m, count)
        else m = l := by
    split <;> simp only [run_cons_eq_ok, run_nil_eq_ok, apply_eq_ok, exists_eq_right']
  simp only [prepare_eq_run, passes, run_cons_eq_ok, apply_eq_ok, last]
  grind

theorem prepare_stages {config : Config} {n m : Node} (h : n.prepare config = .ok m) :
    ∃ r p l, n.resolve = .ok r ∧ r.propagateSparsity = .ok p ∧
      p.computeLayouts config = .ok l ∧
      (m = l ∨ ∃ count, l.mapContractions Gemm.naturalPartitions = .ok (m, count)) := by
  obtain ⟨-, r, p, l, resolved, propagated, laid, mapped⟩ := prepare_eq_ok.mp h
  split at mapped
  · exact ⟨r, p, l, resolved, propagated, laid, .inr mapped⟩
  · exact ⟨r, p, l, resolved, propagated, laid, .inl mapped⟩

theorem run_cons_eq_error {n : Node} {pass : Pass} {passes : List Pass} {f : Failure}
    (h : Pipeline.run n (pass :: passes) = .error f) :
    pass.apply n = .error f.cause ∨
      ∃ r changed, pass.apply n = .ok (r, changed) ∧ Pipeline.run r passes = .error f := by
  rw [Pipeline.run, bind_eq_error] at h
  rcases h with failed | ⟨⟨r, changed⟩, applied, h⟩
  · simp only [Outcome.within, Outcome.ofResult, mapError_eq_error] at failed
    obtain ⟨_, ⟨e, failed, rfl⟩, rfl⟩ := failed
    exact .inl failed
  · simp only [Outcome.within, Outcome.ofResult, mapError_eq_ok] at applied
    refine .inr ⟨r, changed, applied, ?_⟩
    rcases bind_eq_error.mp h with rest | ⟨_, -, reported⟩
    · exact rest
    · exact absurd reported pure_ne_error

/-- A preparation that fails is refused, or else fails with the error of one of its passes. -/
theorem prepare_eq_error {config : Config} {n : Node} {f : Failure}
    (h : n.prepare config = .error f) :
    f.cause = .composition (.notAnAssignment n.text) ∨ n.resolve = .error f.cause ∨
      ∃ r, n.resolve = .ok r ∧ (r.propagateSparsity = .error f.cause ∨
        ∃ p, r.propagateSparsity = .ok p ∧ (p.computeLayouts config = .error f.cause ∨
          ∃ l, p.computeLayouts config = .ok l ∧
            l.mapContractions Gemm.naturalPartitions = .error f.cause)) := by
  unfold prepare at h
  split at h
  · rcases bind_eq_error.mp h with refused | ⟨_, accepted, -⟩
    · cases refused
      exact .inl rfl
    · cases accepted
  · obtain ⟨g, failed, rfl⟩ := mapError_eq_error.mp (bind_pure_eq_error.mp h)
    right
    rcases run_cons_eq_error failed with failed | ⟨r, _, first, failed⟩
    · exact .inl (bind_pure_eq_error.mp failed)
    simp only [Pass.apply, bind_eq_ok, pure_eq_ok] at first
    obtain ⟨_, resolved, first⟩ := first
    cases first
    refine .inr ⟨r, resolved, ?_⟩
    rcases run_cons_eq_error failed with failed | ⟨p, _, second, failed⟩
    · exact .inl (bind_pure_eq_error.mp failed)
    simp only [Pass.apply, bind_eq_ok, pure_eq_ok] at second
    obtain ⟨_, propagated, second⟩ := second
    cases second
    refine .inr ⟨p, propagated, ?_⟩
    rcases run_cons_eq_error failed with failed | ⟨l, _, third, failed⟩
    · exact .inl (bind_pure_eq_error.mp failed)
    simp only [Pass.apply, bind_eq_ok, pure_eq_ok] at third
    obtain ⟨_, laid, third⟩ := third
    cases third
    refine .inr ⟨l, laid, ?_⟩
    split at failed
    · rcases run_cons_eq_error failed with failed | ⟨_, _, -, failed⟩
      · exact bind_pure_eq_error.mp failed
      · cases failed
    · cases failed

/-- The passes behind resolution rebuild an assignment. -/
theorem prepare_rebuilt {config : Config} {n m : Node} (h : n.prepare config = .ok m) :
    ∃ r, n.resolve = .ok r ∧ r.kind = .assign ∧ Rebuilt scalars r m := by
  obtain ⟨kind, -⟩ := prepare_eq_ok.mp h
  obtain ⟨r, p, l, resolved, propagated, laid, mapped⟩ := prepare_stages h
  have assign : r.kind = .assign := by
    obtain ⟨_, into, same⟩ := resolveTo_cases resolved
    obtain rfl := pure_eq_ok.mp same
    rw [ResolvesInto, kind] at into
    obtain ⟨_, _, _, -, -, rfl⟩ := into
    rfl
  have first := annotate_rebuilt scalars annotates_withPattern propagated
  have rebuilt := first.trans scalars (annotate_rebuilt scalars (annotates_withLayout config) laid)
  refine ⟨r, resolved, assign, ?_⟩
  rcases mapped with rfl | ⟨count, mapped⟩
  · exact rebuilt
  · obtain ⟨done, each, rfl⟩ := mapContractions_assign (rebuilt.kind.trans assign) mapped
    have last : Rebuilt scalars l { l with children := done } := by
      refine ⟨rfl, rfl, each.imp fun c d mapped => ?_⟩
      obtain ⟨_, done⟩ := mapped
      exact mapContractions_refines scalars done
    exact rebuilt.trans scalars last

/-- An assignment to a tensor that is ready to be lowered: its value is what `value` means. -/
structure Prepared (tensor : Tensor) (i : Indices) (value m target source : Node) : Prop where
  kind : m.kind = .assign
  children : m.children = [target, source]
  leaf : target.kind = .leaf tensor
  leafWellFormed : target.WellFormed
  leafIndices : target.indices = some i
  wellFormed : source.WellFormed
  indices : source.indices = some i
  means : ∀ σ p, source.valueAt scalars σ p = value.meaning scalars σ (some i) p

/-- Preparation keeps the meaning of an assignment, whatever the configuration. -/
theorem prepare_spec {config : Config} {n leaf value m : Node} {tensor : Tensor} {i : Indices}
    (hn : n.Assignment leaf value) (hl : leaf.IsTensor tensor i) (h : n.prepare config = .ok m) :
    ∃ target source, Prepared scalars tensor i value m target source := by
  obtain ⟨r, resolved, kind, rebuilt⟩ := prepare_rebuilt scalars h
  obtain ⟨v, value', rfl⟩ := resolve_assignment hn resolved
  have distinct : ∀ t, leaf.indices = some t → t.Distinct := fun t ht =>
    hl.wellFormed.indices ht
  have spec (σ) := resolveTo_spec scalars σ hn.value leaf.indices v distinct value'
  obtain ⟨target, source, children, forTarget, forValue⟩ := forall₂_two rebuilt.children
  have formed := (spec 0).wellFormed
  have indices : v.indices = some i := by
    rw [(spec 0).indices, hl.indices]
    rfl
  refine ⟨target, source, rebuilt.kind.trans kind, children, forTarget.leaf tensor hl.kind,
    forTarget.wellFormed hl.wellFormed, forTarget.indices.trans hl.indices,
    forValue.wellFormed formed, forValue.indices.trans indices, fun σ p => ?_⟩
  rw [forValue.value formed, (spec σ).value, hl.indices]

end

end Node

end TensorKernel
