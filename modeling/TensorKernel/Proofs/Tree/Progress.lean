import TensorKernel.Proofs.Layout.Fusion
import TensorKernel.Proofs.Tree.Preparation
import TensorKernel.Proofs.Tree.Shape

/-!
The passes behind the propagation of patterns succeed. Layouts are computed from indices and
patterns that are known then. Matrix products are chosen by looking at the strides of layouts, of
which there is one for each stored range (`Layout.Strided`).

* `computeLayouts_ok`: every node finds its layout;
* `mapContractions_ok`: matrix products can be chosen from whatever partitions are offered.
-/

namespace TensorKernel

namespace Gemm

variable {i : Indices} {l : Layout}

theorem fuses_ok (h : l.Strided) (part : Indices) : ∃ b, fuses i l part = .ok b := by
  unfold fuses
  split
  · exact h.mayFuse_ok _
  · exact ⟨false, rfl⟩

theorem fusesAll_ok (h : l.Strided) (parts : List Indices) : ∃ b, fusesAll i l parts = .ok b := by
  induction parts with
  | nil => exact ⟨true, rfl⟩
  | cons part parts ih =>
    obtain ⟨fits, first⟩ := fuses_ok (i := i) h part
    rw [fusesAll, first, ok_bind]
    cases fits with
    | true => exact ih
    | false => exact ⟨false, rfl⟩

theorem argumentsFit_ok {a b : Indices} {layoutA layoutB : Layout} (ha : layoutA.Strided)
    (hb : layoutB.Strided) (g : Gemm) : ∃ fits, g.argumentsFit a b layoutA layoutB = .ok fits := by
  obtain ⟨fits, left⟩ := fusesAll_ok (i := a) ha [g.m, g.k]
  rw [argumentsFit, left, ok_bind]
  cases fits with
  | true => exact fusesAll_ok hb _
  | false => exact ⟨false, rfl⟩

end Gemm

namespace Node

/-! ### Layouts -/

section
variable {config : Config} {x : Node}

/-- A node of known indices and pattern finds its layout, an assignment that of its target. -/
theorem withLayout_ok {i : Indices} {p : Pattern} (known : x.indices = some i)
    (pattern : x.pattern = some p)
    (target : x.kind = .assign → ∃ target value l, x.children = [target, value] ∧
      target.storage? = some l) : ∃ y, x.withLayout config = .ok y := by
  have result : ∃ l, x.resultLayout config = .ok l := by
    unfold resultLayout
    split
    · rw [shape, deducedIndices_eq_ok.mpr known]
      exact ⟨_, rfl⟩
    · rw [computedPattern_eq_ok.mpr pattern]
      exact ⟨_, rfl⟩
  unfold withLayout
  cases kind : x.kind with
  | leaf => exact ⟨x, rfl⟩
  | assign =>
    obtain ⟨t, value, l, operands, stored⟩ := target kind
    dsimp only
    rw [operands_eq_ok.mpr operands, ok_bind, computedLayout_eq_ok.mpr stored]
    exact ⟨_, rfl⟩
  | einsum | add | scale | indexSum | product | contraction | gemm =>
    obtain ⟨l, done⟩ := result
    dsimp only
    rw [done]
    exact ⟨_, rfl⟩

/-- Every node of a tree finds its layout once its indices and patterns are known. -/
theorem computeLayouts_ok (config : Config) {n : Node} (formed : n.WellFormed)
    (shaped : n.Everywhere fun x => ∃ p, Shaped x p) : ∃ m, n.computeLayouts config = .ok m := by
  induction n using Node.induction with
  | node kind indices pattern layout prefetch children ih =>
    obtain ⟨done, all⟩ := forall₂_of_exists fun c hc =>
      ih c hc (formed.children c hc) (shaped.children c hc)
    obtain ⟨p, shape⟩ := shaped.root
    have found : ∃ y,
        withLayout config ⟨kind, indices, pattern, layout, prefetch, done⟩ = .ok y := by
      refine withLayout_ok shape.indices shape.pattern fun assign => ?_
      obtain rfl : kind = .assign := assign
      obtain ⟨_, target, value, t, -, operands, leaf, -⟩ := formed.fits
      obtain rfl : children = [target, value] := operands
      obtain ⟨first, second, rfl, annotated, -⟩ := forall₂_two all
      have kept := (annotate_rebuilt (R := Nat) 0 (annotates_withLayout config) annotated).kind
      exact ⟨first, second, t.layout, rfl, by rw [storage?, kept, leaf]⟩
    obtain ⟨y, found⟩ := found
    exact ⟨y, annotate_eq_ok.mpr ⟨done, all, found⟩⟩

def StoresStrided (x : Node) : Prop := ∀ l, x.storage? = some l → l.Strided

theorem storesStrided_of_placed {l : Layout} (formed : x.WellFormed)
    (tensors : x.Everywhere fun y => ∀ t, y.kind = .leaf t → t.Constructed)
    (placed : Placed config x l) : x.StoresStrided := by
  have tensor {y : Node} {t : Tensor} (made : t.Constructed) (kind : y.kind = .leaf t) :
      y.StoresStrided := by
    intro stored h
    have same : some t.layout = some stored := by
      rw [← h, storage?, kind]
    obtain rfl := Option.some.inj same
    obtain ⟨-, -, ⟨-, layout⟩ | layout⟩ := made.pattern
    · rw [layout]
      rfl
    · rw [layout]
      rfl
  intro stored h
  obtain rfl := Option.some.inj (placed.1.symm.trans h)
  have place := placed.2
  cases kind : x.kind with
  | leaf t => exact tensor (tensors.root t kind) kind l h
  | assign =>
    have fits := formed.fits
    rw [kind] at place fits
    obtain ⟨target, value, operands, same⟩ := place
    obtain ⟨_, _, _, t, -, operands', leaf, -⟩ := fits
    obtain ⟨rfl, -⟩ := List.cons.inj (operands.symm.trans operands')
    exact tensor ((tensors.children target (by simp [operands])).root t leaf) leaf l same
  | einsum | add | scale | indexSum | product | contraction | gemm =>
    rw [kind] at place
    dsimp only at place
    split at place
    · rw [place]
      rfl
    · obtain ⟨_, _, -, rfl⟩ := place
      rfl

end

/-! ### Matrix products -/

section
variable {x : Node} (strided : x.StoresStrided) (operands : ∀ c ∈ x.children, c.StoresStrided)
include strided operands

theorem gemmCost?_ok (p : Gemm.Partition) : ∃ cost, x.gemmCost? p = .ok cost := by
  unfold gemmCost?
  split
  · next a b rest children =>
    rw [children] at operands
    split
    · next c ai bi layoutA layoutB _ _ _ left right =>
      split
      · next mapping _ =>
        obtain ⟨fits, arguments⟩ := Gemm.argumentsFit_ok (a := ai) (b := bi)
          (operands a (by simp) layoutA left) (operands b (by simp) layoutB right) mapping
        rw [arguments, ok_bind]
        split
        · next layout stored =>
          obtain ⟨result, done⟩ := Gemm.fusesAll_ok (i := c) (strided layout stored)
            [mapping.m, mapping.n]
          rw [Gemm.resultFits, done, ok_bind]
          cases result with
          | true => exact ⟨_, rfl⟩
          | false => exact ⟨_, rfl⟩
        · exact ⟨_, rfl⟩
      · exact ⟨_, rfl⟩
    · exact ⟨_, rfl⟩
  · exact ⟨_, rfl⟩

theorem cheapest_ok (best : Option (Gemm.Partition × Gemm.Cost)) (ps : List Gemm.Partition) :
    ∃ found, x.cheapest best ps = .ok found := by
  induction ps generalizing best with
  | nil => exact ⟨best, rfl⟩
  | cons p ps ih =>
    obtain ⟨cost, found⟩ := gemmCost?_ok strided operands p
    rw [cheapest, found, ok_bind]
    cases cost with
    | none => exact ih best
    | some cost => exact ih _

theorem gemmPartition?_ok (source : Gemm.Source) :
    ∃ found, x.gemmPartition? source = .ok found := by
  unfold gemmPartition?
  split
  · split
    · next ai bi _ _ =>
      obtain ⟨found, done⟩ := cheapest_ok strided operands none (source _ ai bi _)
      rw [done]
      exact ⟨_, rfl⟩
    · exact ⟨none, rfl⟩
  · exact ⟨none, rfl⟩

end

/-- A partition that has a cost fits the contraction. -/
theorem asGemm_ok {x : Node} {source : Gemm.Source} {p : Gemm.Partition}
    (h : x.gemmPartition? source = .ok (some p)) : ∃ y, x.asGemm p = .ok y := by
  obtain ⟨⟨cost, found⟩, sum, a, b, c, ai, bi, -, children, indices, hl, hr, -⟩ :=
    gemmPartition?_eq_ok h
  have fits : ∃ mapping, Gemm.ofPartition c ai bi p = .ok mapping := by
    simp only [gemmCost?, children, indices, hl, hr] at found
    split at found
    · next c' ai' bi' _ _ known known' known'' _ _ =>
      cases known
      cases known'
      cases known''
      split at found
      · next mapping mapped => exact ⟨mapping, mapped⟩
      · cases found
    · cases found
  obtain ⟨mapping, mapped⟩ := fits
  have made : gemm c a b p = .ok (ofKind (.gemm mapping) [a, b] (some c)) := by
    rw [gemm, operandIndices_eq_ok.mpr hl, ok_bind, operandIndices_eq_ok.mpr hr, ok_bind, mapped]
    rfl
  rw [asGemm, operands_eq_ok.mpr children, ok_bind, deducedIndices_eq_ok.mpr indices]
  dsimp only
  rw [ok_bind, made]
  exact ⟨_, rfl⟩

theorem mapContractionsAll_ok {source : Gemm.Source} {children : List Node}
    (each : ∀ c ∈ children, ∃ d k, c.mapContractions source = .ok (d, k)) :
    ∃ done count, mapContractionsAll source children = .ok (done, count) := by
  induction children with
  | nil => exact ⟨[], 0, rfl⟩
  | cons c cs ih =>
    obtain ⟨⟨d, k, first⟩, rest⟩ := List.forall_mem_cons.mp each
    obtain ⟨done, count, others⟩ := ih rest
    exact ⟨d :: done, k + count, by rw [mapContractionsAll, first, ok_bind, others]; rfl⟩

/-- The choice of matrix products succeeds. -/
theorem mapContractions_ok {n : Node} (strided : n.Everywhere StoresStrided)
    (source : Gemm.Source) : ∃ m count, n.mapContractions source = .ok (m, count) := by
  induction n using Node.induction with
  | node kind indices pattern layout prefetch children ih =>
    obtain ⟨done, count, all⟩ := mapContractionsAll_ok fun c hc => ih c hc (strided.children c hc)
    have operands : ∀ d ∈ done, d.StoresStrided := by
      intro d hd
      obtain ⟨c, hc, k, mapped⟩ := exists_of_forall₂_right (mapContractionsAll_eq_ok all) hd
      intro l stored
      rw [(mapped_of_mapContractions mapped).1.storage] at stored
      exact (strided.children c hc).root l stored
    obtain ⟨found, chosen⟩ := gemmPartition?_ok
      (x := ⟨kind, indices, pattern, layout, prefetch, done⟩) strided.root operands source
    rw [mapContractions, all, ok_bind]
    dsimp only
    rw [chosen, ok_bind]
    cases found with
    | none => exact ⟨_, _, rfl⟩
    | some p =>
      obtain ⟨y, mapped⟩ := asGemm_ok chosen
      dsimp only
      rw [mapped]
      exact ⟨_, _, rfl⟩

end Node

end TensorKernel
