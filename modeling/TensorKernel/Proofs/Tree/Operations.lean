import TensorKernel.Proofs.Tree.Order

/-!
The nodes that are built by hand, and what the operations among them compute: a sum over one index, a
product, and a contraction in any storage order. Each comes with the dimensions that it keeps.
-/

namespace TensorKernel.Node

theorem operandIndices_eq_ok {n : Node} {i : Indices} :
    n.operandIndices = .ok i ↔ n.indices = some i := by
  unfold operandIndices
  split <;> simp [*]

structure Scaled (factor : Factor) (term n : Node) : Prop where
  kind : n.kind = .scale factor
  indices : n.indices = term.indices
  children : n.children = [term]

theorem scale_eq_ok {factor : Factor} {term n : Node} (h : scale factor term = .ok n) :
    term.kind.isScale = false ∧ Scaled factor term n := by
  unfold scale at h
  split at h
  · exact absurd h refuse_ne_ok
  · next unscaled =>
    obtain rfl := pure_eq_ok.mp h
    exact ⟨by simpa using unscaled, rfl, rfl, rfl⟩

theorem assignment_eq_ok {target value n : Node} (h : target.assignment value = .ok n) :
    (∃ tensor, target.kind = .leaf tensor) ∧
      n = ofKind .assign [target, value] target.indices := by
  unfold assignment at h
  split at h
  · next leaf =>
    exact ⟨Kind.isLeaf_iff.mp leaf, (pure_eq_ok.mp h).symm⟩
  · exact absurd h refuse_ne_ok

structure Agreeing (a b : Node) : Prop where
  left : a.indices = some a.own
  right : b.indices = some b.own
  extents : ∀ d ∈ a.own.dims, ∀ e ∈ b.own.dims, d.name = e.name → d = e

theorem agreeingIndices_eq_ok {left right : Node} {li ri : Indices} (hl : left.own.Distinct)
    (hr : right.own.Distinct) (h : agreeingIndices left right = .ok (li, ri)) :
    Agreeing left right ∧ left.own = li ∧ right.own = ri := by
  simp only [agreeingIndices, bind_eq_ok, operandIndices_eq_ok, pure_eq_ok] at h
  obtain ⟨li', hli, ri', hri, _, agree, ⟨⟩⟩ := h
  obtain rfl := own_of_indices hli
  obtain rfl := own_of_indices hri
  exact ⟨⟨hli, hri, (Indices.checkAgrees_eq_ok hl hr).mp agree⟩, rfl, rfl⟩

theorem indexSum_eq_ok {term n : Node} {name : Char} (ht : term.own.Distinct)
    (h : term.indexSum name = .ok n) :
    term.indices = some term.own ∧ ∃ d ∈ term.own.dims, d.name = name ∧
      n = ofKind (.indexSum ⟨[d]⟩) [term] (some (term.own.without name)) := by
  simp only [indexSum, bind_eq_ok, operandIndices_eq_ok] at h
  obtain ⟨i, known, h⟩ := h
  have own := own_of_indices known
  split at h
  case h_2 => exact absurd h refuse_ne_ok
  case h_1 index found =>
    obtain ⟨names, sub⟩ := Indices.extract?_eq_some (own ▸ ht) found
    obtain ⟨ds⟩ := index
    match ds, names with
    | [d], names =>
      refine ⟨own ▸ known, d, own ▸ sub d List.mem_cons_self, by simpa [Indices.names] using names, ?_⟩
      rw [own]
      exact (pure_eq_ok.mp h).symm

section
variable {R : Type} [CommSemiring R] (scalars : Factor → R) (σ : Store (Entry → R))

/-- What a sum over one index demands of its term. -/
theorem fits_indexSum {term : Node} {d : Dim} (known : term.indices = some term.own)
    (hd : d ∈ term.own.dims) :
    (Kind.indexSum ⟨[d]⟩).Fits (some (term.own.without d.name)) [term] := by
  refine ⟨_, term, rfl, rfl, known, ⟨d, hd, rfl⟩, fun e => ?_⟩
  rw [Indices.without, Indices.mem_filter, decide_eq_true_eq]
  exact and_congr_right fun _ => not_congr List.mem_singleton.symm

/-- A sum over one index loses it. -/
theorem indexSum_spec {term n : Node} {name : Char} (ht : term.WellFormed)
    (h : term.indexSum name = .ok n) :
    n.WellFormed ∧ n.indices = some n.own ∧ n.own = term.own.without name ∧
      ∃ d ∈ term.own.dims, d.name = name ∧
        n.valueAt scalars σ = sumOver [d] (term.valueAt scalars σ) := by
  obtain ⟨known, d, hd, rfl, rfl⟩ := indexSum_eq_ok ht.own h
  have own : (ofKind (.indexSum ⟨[d]⟩) [term] (some (term.own.without d.name))).own =
      term.own.without d.name := rfl
  refine ⟨.of_known rfl (ht.own.filter _) (fits_indexSum known hd) (by simpa [ofKind] using ht),
    rfl, rfl, d, hd, rfl, funext fun p => ?_⟩
  · rw [valueAt_eq scalars σ rfl, own]
    refine sumOver_restrict (term.valueAt_readsOnly scalars σ) (fun c hc free => ?_) p
    rw [Indices.mem_names_without]
    exact ⟨hc, by simpa using free⟩

/-- What a binary product of two trees has to do with them, when the dimensions named in `gone` are
summed over. -/
structure Multiplied (gone : List Char) (left right n : Node) : Prop where
  wellFormed : n.WellFormed
  known : n.indices = some n.own
  operands : Agreeing left right
  dims : ∀ d, d ∈ n.own.dims ↔ (d ∈ left.own.dims ∨ d ∈ right.own.dims) ∧ d.name ∉ gone
  value : ∃ ds : List Dim, (ds.map Dim.name).Nodup ∧
    (∀ d, d ∈ ds ↔ (d ∈ left.own.dims ∨ d ∈ right.own.dims) ∧ d.name ∈ gone) ∧
    n.valueAt scalars σ = sumOver ds (left.valueAt scalars σ * right.valueAt scalars σ)

theorem product_eq_ok {left right n : Node} (hl : left.own.Distinct) (hr : right.own.Distinct)
    (h : left.product right = .ok n) :
    Agreeing left right ∧
      n = ofKind .product [left, right]
        (some (left.own.merge (right.own.diff (left.own.inter right.own)))) := by
  simp only [product, bind_eq_ok, pure_eq_ok] at h
  obtain ⟨⟨li, ri⟩, agreeing, rfl⟩ := h
  obtain ⟨agree, rfl, rfl⟩ := agreeingIndices_eq_ok hl hr agreeing
  exact ⟨agree, rfl⟩

/-- A product has all dimensions of its operands. -/
theorem contracts_product {left right : Node} (hr : right.own.Distinct)
    (agree : Agreeing left right) :
    Contracts .empty (left.own.merge (right.own.diff (left.own.inter right.own))) left right := by
  refine ⟨Indices.distinct_empty, agree.extents, fun d => ?_, fun d => ?_⟩
  · rw [Indices.mem_merge_of_agree (hr.diff _)
      fun d hd e he => agree.extents d hd e (Indices.mem_diff.mp he).1, Indices.mem_diff,
      Indices.mem_names_inter, Indices.names_empty]
    constructor
    · exact fun h => ⟨h.imp id And.left, List.not_mem_nil⟩
    · rintro ⟨h | h, -⟩
      · exact .inl h
      · by_cases shared : d.name ∈ left.own.names
        · obtain ⟨e, he, same⟩ := Indices.mem_names.mp shared
          exact .inl (agree.extents e he d h same ▸ he)
        · exact .inr ⟨h, fun both => shared both.1⟩
  · simp [Indices.empty, Indices.names]

theorem product_spec {left right n : Node} (hl : left.WellFormed) (hr : right.WellFormed)
    (h : left.product right = .ok n) : Multiplied scalars σ [] left right n := by
  obtain ⟨agree, rfl⟩ := product_eq_ok hl.own hr.own h
  let all := left.own.merge (right.own.diff (left.own.inter right.own))
  have distinct : all.Distinct := hl.own.merge (hr.own.diff _)
  have contracts := contracts_product hr.own agree
  have dims (d : Dim) : d ∈ all.dims ↔ d ∈ left.own.dims ∨ d ∈ right.own.dims :=
    (contracts.kept d).trans (by simp)
  have fits : Kind.product.Fits (some all) [left, right] :=
    ⟨all, left, right, rfl, rfl, agree.left, agree.right, contracts⟩
  refine ⟨.of_known rfl distinct fits (by simp [ofKind, hl, hr]), rfl, agree,
    fun d => (dims d).trans (by simp), [], List.nodup_nil, by simp, funext fun p => ?_⟩
  · rw [valueAt_eq scalars σ rfl]
    have names (name : Char) (mem : name ∈ left.own.names ∨ name ∈ right.own.names) :
        name ∈ all.names := by
      rcases mem with mem | mem <;> obtain ⟨d, hd, rfl⟩ := Indices.mem_names.mp mem
      · exact Indices.mem_names_of_mem ((dims d).mpr (.inl hd))
      · exact Indices.mem_names_of_mem ((dims d).mpr (.inr hd))
    show left.valueAt scalars σ (all.restrict p) * right.valueAt scalars σ (all.restrict p) = _
    rw [valueAt_restrict scalars σ fun c hc => names c (.inl hc),
      valueAt_restrict scalars σ fun c hc => names c (.inr hc)]
    rfl

theorem contraction_eq_ok {indices sum : Indices} {left right n : Node} (hl : left.own.Distinct)
    (hr : right.own.Distinct) (h : contraction indices left right sum = .ok n) :
    Agreeing left right ∧
      ∃ found, (left.own.merge right.own).extract? sum.names = some found ∧
        (ofKind (.contraction found) [left, right]
          (some ((left.own.diff sum).merge
            ((right.own.diff sum).diff (left.own.diff sum))))).reorder indices true = .ok n := by
  simp only [contraction, bind_eq_ok] at h
  obtain ⟨⟨li, ri⟩, agreeing, h⟩ := h
  obtain ⟨agree, rfl, rfl⟩ := agreeingIndices_eq_ok hl hr agreeing
  split at h
  · exact absurd h refuse_ne_ok
  · next found extracted => exact ⟨agree, found, extracted, h⟩

/-- The result of a contraction first has the dimensions that the left operand keeps. -/
theorem contracts_of_extract {sum found : Indices} {left right : Node} (hl : left.own.Distinct)
    (hr : right.own.Distinct) (hs : sum.Distinct) (agree : Agreeing left right)
    (extracted : (left.own.merge right.own).extract? sum.names = some found) :
    found.names = sum.names ∧ Contracts found
      ((left.own.diff sum).merge ((right.own.diff sum).diff (left.own.diff sum))) left right := by
  obtain ⟨names, sub⟩ := Indices.extract?_eq_some (hl.merge hr) extracted
  have union (d : Dim) : d ∈ (left.own.merge right.own).dims ↔
      d ∈ left.own.dims ∨ d ∈ right.own.dims := Indices.mem_merge_of_agree hr agree.extents
  refine ⟨names, by rwa [Indices.Distinct, names], agree.extents, fun d => ?_, fun d => ?_⟩
  · rw [Indices.mem_merge ((hr.diff _).diff _), Indices.mem_diff, Indices.mem_diff,
      Indices.mem_diff, Indices.mem_names_diff, names]
    constructor
    · rintro (⟨h, free⟩ | ⟨⟨⟨h, free⟩, -⟩, -⟩)
      · exact ⟨.inl h, free⟩
      · exact ⟨.inr h, free⟩
    · rintro ⟨h | h, free⟩
      · exact .inl ⟨h, free⟩
      · by_cases shared : d.name ∈ left.own.names
        · obtain ⟨e, he, same⟩ := Indices.mem_names.mp shared
          exact .inl ⟨agree.extents e he d h same ▸ he, free⟩
        · exact .inr ⟨⟨⟨h, free⟩, fun both => shared both.1⟩, fun both => shared both.1⟩
  · rw [← union]
    constructor
    · exact fun hd => ⟨sub d hd, Indices.mem_names_of_mem hd⟩
    · rintro ⟨hd, named⟩
      obtain ⟨e, he, same⟩ := Indices.mem_names.mp named
      exact (hl.merge hr).dim_unique (sub e he) hd same ▸ he

/-- A contraction is the sum of the product, in any storage order of its result. -/
theorem valueAt_contraction {n left right : Node} {sum : Indices}
    (kind : n.kind = .contraction sum) (children : n.children = [left, right])
    (contracts : Contracts sum n.own left right) :
    n.valueAt scalars σ = sumOver sum.dims (left.valueAt scalars σ * right.valueAt scalars σ) := by
  funext p
  rw [valueAt_eq scalars σ (by rw [kind]; rfl), kind, children]
  have reads := (left.valueAt_readsOnly scalars σ).mono
    (fun c hc => List.mem_append_left right.own.names hc) |>.mul
    ((right.valueAt_readsOnly scalars σ).mono fun c hc => List.mem_append_right left.own.names hc)
  refine sumOver_restrict reads (fun c hc free => ?_) p
  have kept {d : Dim} (hd : d ∈ left.own.dims ∨ d ∈ right.own.dims) (free : d.name ∉ sum.names) :
      d.name ∈ n.own.names :=
    Indices.mem_names_of_mem ((contracts.kept d).mpr ⟨hd, free⟩)
  rcases List.mem_append.mp hc with hc | hc <;> obtain ⟨d, hd, rfl⟩ := Indices.mem_names.mp hc
  · exact kept (.inl hd) free
  · exact kept (.inr hd) free

theorem contraction_spec {indices sum : Indices} {left right n : Node} (hl : left.WellFormed)
    (hr : right.WellFormed) (ho : indices.Distinct) (hs : sum.Distinct)
    (h : contraction indices left right sum = .ok n) :
    Multiplied scalars σ sum.names left right n := by
  obtain ⟨agree, found, extracted, done⟩ := contraction_eq_ok hl.own hr.own h
  obtain ⟨names, contracts⟩ := contracts_of_extract hl.own hr.own hs agree extracted
  let natural := (left.own.diff sum).merge ((right.own.diff sum).diff (left.own.diff sum))
  let start := ofKind (.contraction found) [left, right] (some natural)
  have distinct : natural.Distinct := (hl.own.diff _).merge ((hr.own.diff _).diff _)
  have fits : (Kind.contraction found).Fits (some natural) [left, right] :=
    ⟨natural, left, right, rfl, rfl, agree.left, agree.right, contracts⟩
  have fresh : start.WellFormed := .of_known rfl distinct fits (by simp [start, ofKind, hl, hr])
  have value := valueAt_contraction scalars σ (n := start) rfl rfl contracts
  have spec := reorder_spec scalars σ fresh ho done
  obtain ⟨k, hk, -⟩ := spec.indices
  refine ⟨spec.wellFormed, own_of_indices hk ▸ hk, agree, fun d => ?_, found.dims,
    contracts.distinct, fun d => ?_, ?_⟩
  · rw [← names]
    exact (spec.dims d).trans (contracts.kept d)
  · rw [← names]
    exact contracts.summed d
  · rw [← value]
    exact funext spec.value

end

end TensorKernel.Node
