import TensorKernel.Proofs.Tree.Merging
import TensorKernel.Proofs.Tree.Operations

/-!
A product of any number of operands is what its tree of binary products computes.

* `sumPrivate_spec`: an operand summed over the indices that it has for itself;
* `multiply_spec`: one product, summed over the shared indices that nothing later needs;
* `multiplyAll_spec`: the products from left to right. As long as each index that is not kept occurs
  in two operands or in none, the product is summed over all indices that are not kept;
* `binarize_spec`: both steps together.
-/

namespace TensorKernel.Node

theorem mentions_iff {n : Node} (known : n.indices = some n.own) {name : Char} :
    mentions name n = true ↔ name ∈ n.own.names := by
  rw [mentions, known, Option.any_some, Indices.contains_iff]

theorem mem_laterIndices {operands : List Node} {name : Char} :
    name ∈ (laterIndices operands).names ↔ ∃ x ∈ operands, name ∈ x.own.names := by
  induction operands with
  | nil => simp [laterIndices]
  | cons x xs ih =>
    rw [laterIndices, List.foldr_cons, Indices.mem_names_merge, List.exists_mem_cons_iff, or_comm]
    exact or_congr_right ih

/-- The merged indices of operands hold the dimensions of all of them. -/
theorem mergedIndices_spec {found all : Indices} {operands : List Node} (hf : found.Distinct)
    (ho : ∀ x ∈ operands, x.own.Distinct) (h : mergedIndices found operands = .ok all) :
    all = (operands.map own).foldl Indices.merge found ∧ all.Distinct ∧
      (∀ x ∈ operands, x.indices = some x.own) ∧
      ∀ d, d ∈ all.dims ↔ d ∈ found.dims ∨ ∃ x ∈ operands, d ∈ x.own.dims := by
  obtain ⟨known, turn, rfl⟩ := mergedIndices_eq_ok.mp h
  refine ⟨rfl, Indices.foldl_merge _ found ▸ hf.merge_any _, known, fun d => ?_⟩
  rw [turn.mem_dims hf (List.forall_mem_map.mpr ho)]
  simp only [List.mem_map, exists_exists_and_eq_and]

/-- The indices that are required are kept, and they are among those of the operands. -/
theorem keptIndices_spec {target : Option Indices} {operands : List Node} {all keep : Indices}
    (ha : all.Distinct) (ht : ∀ t, target = some t → t.Distinct)
    (h : keptIndices target operands all = .ok keep) :
    keep = target.getD (all.filter fun name => occurrences operands name = 1) ∧
      keep.Distinct ∧ ∀ d ∈ keep.dims, d ∈ all.dims := by
  cases target with
  | none =>
    obtain rfl := pure_eq_ok.mp h
    exact ⟨rfl, ha.filter _, fun d hd => (Indices.mem_filter.mp hd).1⟩
  | some t =>
    simp only [keptIndices] at h
    split at h
    · exact absurd h refuse_ne_ok
    · next sub =>
      obtain ⟨_, agree, done⟩ := bind_eq_ok.mp h
      obtain rfl := pure_eq_ok.mp done
      refine ⟨rfl, ht t rfl, fun d hd => ?_⟩
      have known := List.find?_eq_none.mp sub d.name (Indices.mem_names_of_mem hd)
      simp only [Bool.not_eq_true', Bool.not_eq_false, Indices.contains_iff] at known
      obtain ⟨e, he, same⟩ := Indices.mem_names.mp known
      exact (Indices.checkAgrees_eq_ok ha (ht t rfl)).mp agree e he d hd same ▸ he

/-- Of operands of which only one has a name, no two have it. -/
theorem pairwise_of_occurrences {alone : Char → Prop} {operands : List Node}
    (known : ∀ x ∈ operands, x.indices = some x.own)
    (h : ∀ c, alone c → occurrences operands c ≤ 1) :
    operands.Pairwise fun x y => ∀ c, alone c → ¬(c ∈ x.own.names ∧ c ∈ y.own.names) := by
  induction operands with
  | nil => exact .nil
  | cons x xs ih =>
    obtain ⟨first, rest⟩ := List.forall_mem_cons.mp known
    refine .cons (fun y hy c hc both => ?_) (ih rest fun c hc => ?_)
    · have mem := (mentions_iff first).mpr both.1
      have later : 0 < xs.countP (mentions c) :=
        List.countP_pos_iff.mpr ⟨y, hy, (mentions_iff (rest y hy)).mpr both.2⟩
      have once := h c hc
      simp only [occurrences, List.countP_cons, mem, if_true] at once
      omega
    · have once := h c hc
      rw [occurrences, List.countP_cons] at once
      exact Nat.le_trans (Nat.le_add_right _ _) once

section
variable {R : Type} [CommSemiring R] (scalars : Factor → R) (σ : Store (Entry → R))

/-- An operand after it was summed over the indices with some names. -/
structure Summed (gone : Char → Prop) (x y : Node) : Prop where
  wellFormed : y.WellFormed
  known : y.indices = some y.own
  dims : ∀ d, d ∈ y.own.dims ↔ d ∈ x.own.dims ∧ ¬gone d.name
  value : ∃ ds : List Dim, (ds.map Dim.name).Nodup ∧
    (∀ d, d ∈ ds ↔ d ∈ x.own.dims ∧ gone d.name) ∧
    y.valueAt scalars σ = sumOver ds (x.valueAt scalars σ)

theorem foldlM_indexSum {names : List Char} {x y : Node} (hx : x.WellFormed)
    (known : x.indices = some x.own) (h : names.foldlM indexSum x = .ok y) :
    Summed scalars σ (· ∈ names) x y := by
  induction names generalizing x with
  | nil =>
    obtain rfl := pure_eq_ok.mp h
    exact ⟨hx, known, by simp, [], List.nodup_nil, by simp, rfl⟩
  | cons name names ih =>
    obtain ⟨x', first, rest⟩ := bind_eq_ok.mp (List.foldlM_cons.symm.trans h)
    obtain ⟨hx', known', own, d, hd, rfl, value⟩ := indexSum_spec scalars σ hx first
    have spec := ih hx' known' rest
    have dims (e : Dim) : e ∈ x'.own.dims ↔ e ∈ x.own.dims ∧ e.name ≠ d.name := by
      rw [own, Indices.without, Indices.mem_filter, decide_eq_true_eq]
    refine ⟨spec.wellFormed, spec.known, fun e => ?_, ?_⟩
    · rw [spec.dims, dims]
      simp only [List.mem_cons]
      tauto
    · obtain ⟨ds, nodup, mem, valueDs⟩ := spec.value
      refine ⟨ds ++ [d], ?_, fun e => ?_, ?_⟩
      · rw [List.map_append, List.map_singleton, List.nodup_append]
        refine ⟨nodup, List.nodup_singleton _, ?_⟩
        rintro c hc c' hc' rfl
        obtain ⟨e, he, rfl⟩ := List.mem_map.mp hc
        exact ((dims e).mp ((mem e).mp he).1).2 (List.mem_singleton.mp hc')
      · rw [List.mem_append, List.mem_singleton, mem, dims]
        constructor
        · rintro (⟨⟨he, -⟩, named⟩ | rfl)
          · exact ⟨he, List.mem_cons_of_mem _ named⟩
          · exact ⟨hd, List.mem_cons_self⟩
        · rintro ⟨he, named⟩
          by_cases same : e.name = d.name
          · exact .inr (hx.own.dim_unique he hd same)
          · exact .inl ⟨⟨he, same⟩, (List.mem_cons.mp named).resolve_left same⟩
      · rw [valueDs, value, sumOver_append]

def IsPrivate (keep : Indices) (operands : List Node) (name : Char) : Prop :=
  name ∉ keep.names ∧ occurrences operands name = 1

theorem sumPrivate_spec {keep : Indices} {operands : List Node} {x y : Node}
    (hx : x.WellFormed) (h : sumPrivate keep operands x = .ok y) :
    x.indices = some x.own ∧ Summed scalars σ (IsPrivate keep operands) x y := by
  simp only [sumPrivate, bind_eq_ok, resolvedIndices_eq_ok] at h
  obtain ⟨i, known, sums⟩ := h
  obtain rfl := own_of_indices known
  have spec := foldlM_indexSum scalars σ hx known sums
  have gone {d : Dim} (hd : d ∈ x.own.dims) :
      d.name ∈ x.own.names.filter (fun name => !keep.contains name && occurrences operands name = 1) ↔
        IsPrivate keep operands d.name := by
    simp only [List.mem_filter, Indices.mem_names_of_mem hd, true_and, Bool.and_eq_true,
      Bool.not_eq_true', Indices.contains_eq_false, decide_eq_true_eq]
    rfl
  obtain ⟨ds, nodup, mem, value⟩ := spec.value
  refine ⟨known, spec.wellFormed, spec.known, fun d => ?_, ds, nodup, fun d => ?_, value⟩
  · rw [spec.dims]
    exact and_congr_right fun hd => not_congr (gone hd)
  · rw [mem]
    exact and_congr_right gone

/-- A product of trees reads the index names of all of them. -/
theorem prod_readsOnly (xs : List Node) :
    ReadsOnly (xs.flatMap fun x => x.own.names) (xs.map (valueAt scalars σ)).prod := by
  refine ReadsOnly.prod fun f hf => ?_
  obtain ⟨x, hx, rfl⟩ := List.mem_map.mp hf
  exact (x.valueAt_readsOnly scalars σ).mono fun c hc => List.mem_flatMap.mpr ⟨x, hx, hc⟩

/-- A product of sums over private indices is one sum of the product. -/
theorem prod_summed {gone : Char → Prop} {xs ys : List Node}
    (h : List.Forall₂ (Summed scalars σ gone) xs ys) (hx : ∀ x ∈ xs, x.WellFormed)
    (apart : xs.Pairwise fun x y => ∀ c, gone c → ¬(c ∈ x.own.names ∧ c ∈ y.own.names)) :
    ∃ ds : List Dim, (ds.map Dim.name).Nodup ∧
      (∀ d, d ∈ ds ↔ (∃ x ∈ xs, d ∈ x.own.dims) ∧ gone d.name) ∧
      (ys.map (valueAt scalars σ)).prod = sumOver ds (xs.map (valueAt scalars σ)).prod := by
  induction h with
  | nil => exact ⟨[], List.nodup_nil, by simp, rfl⟩
  | @cons x y xs ys spec _ ih =>
    obtain ⟨first, rest⟩ := List.pairwise_cons.mp apart
    obtain ⟨es, hes, memEs, valueEs⟩ := ih (fun z hz => hx z (List.mem_cons_of_mem x hz)) rest
    obtain ⟨ds, hds, memDs, valueDs⟩ := spec.value
    have freeRest {d : Dim} (hd : d ∈ ds) {z : Node} (hz : z ∈ xs) : d.name ∉ z.own.names :=
      fun hn => first z hz d.name ((memDs d).mp hd).2
        ⟨Indices.mem_names_of_mem ((memDs d).mp hd).1, hn⟩
    have freeFirst {d : Dim} (hd : d ∈ es) : d.name ∉ x.own.names := by
      obtain ⟨⟨z, hz, mem⟩, private'⟩ := (memEs d).mp hd
      exact fun hn => first z hz d.name private' ⟨hn, Indices.mem_names_of_mem mem⟩
    refine ⟨ds ++ es, ?_, fun d => ?_, ?_⟩
    · rw [List.map_append, List.nodup_append]
      refine ⟨hds, hes, ?_⟩
      rintro c hc c' hc' rfl
      obtain ⟨d, hd, rfl⟩ := List.mem_map.mp hc
      obtain ⟨e, he, same⟩ := List.mem_map.mp hc'
      obtain ⟨⟨z, hz, mem⟩, -⟩ := (memEs e).mp he
      exact freeRest hd hz (same ▸ Indices.mem_names_of_mem mem)
    · rw [List.mem_append, memDs, memEs, List.exists_mem_cons_iff, or_and_right]
    · have readsRest := (prod_readsOnly scalars σ xs).sumOver es
      have freeAll (d : Dim) (hd : d ∈ ds) : d.name ∉ xs.flatMap fun z => z.own.names := by
        intro hn
        obtain ⟨z, hz, mem⟩ := List.mem_flatMap.mp hn
        exact freeRest hd hz mem
      calc
        ((y :: ys).map (valueAt scalars σ)).prod
            = sumOver ds (x.valueAt scalars σ) *
                sumOver es (xs.map (valueAt scalars σ)).prod := by
              rw [List.map_cons, List.prod_cons, valueDs, valueEs]
        _ = sumOver ds (x.valueAt scalars σ * sumOver es (xs.map (valueAt scalars σ)).prod) :=
              (sumOver_mul_right readsRest freeAll _).symm
        _ = sumOver ds (sumOver es (x.valueAt scalars σ * (xs.map (valueAt scalars σ)).prod)) := by
              rw [sumOver_mul_left (x.valueAt_readsOnly scalars σ) fun d hd => freeFirst hd]
        _ = sumOver (ds ++ es) ((x :: xs).map (valueAt scalars σ)).prod := by
              rw [sumOver_append, List.map_cons, List.prod_cons]

theorem multiply_spec {needed : Indices} {left right n : Node} (hl : left.WellFormed)
    (hr : right.WellFormed) (h : multiply needed left right = .ok n) :
    Multiplied scalars σ ((left.own.inter right.own).diff needed).names left right n := by
  simp only [multiply, bind_eq_ok, resolvedIndices_eq_ok] at h
  obtain ⟨li, hli, ri, hri, h⟩ := h
  obtain rfl := own_of_indices hli
  obtain rfl := own_of_indices hri
  split at h
  case isTrue none =>
    rw [Indices.isEmpty_iff] at none
    have nothing : ((left.own.inter right.own).diff needed).names = [] := by
      simp [Indices.names, none]
    rw [nothing]
    exact product_spec scalars σ hl hr h
  case isFalse =>
    exact contraction_spec scalars σ hl hr ((hl.own.diff _).merge (hr.own.diff _))
      ((hl.own.inter _).diff _) h

/-- A tree that computes a product of operands, summed over all indices but the kept ones. -/
structure SumOfProduct (keep : Indices) (operands : List Node) (n : Node) : Prop where
  wellFormed : n.WellFormed
  known : n.indices = some n.own
  dims : ∀ d, d ∈ n.own.dims ↔ (∃ x ∈ operands, d ∈ x.own.dims) ∧ d.name ∈ keep.names
  value : ∃ ds : List Dim, (ds.map Dim.name).Nodup ∧
    (∀ d, d ∈ ds ↔ (∃ x ∈ operands, d ∈ x.own.dims) ∧ d.name ∉ keep.names) ∧
    n.valueAt scalars σ = sumOver ds (operands.map (valueAt scalars σ)).prod

/-- Operands that have summed over some dimensions already, none of which is kept. -/
structure PartlySummed (keep : Indices) (gone : List Dim) (operands summed : List Node) : Prop where
  distinct : (gone.map Dim.name).Nodup
  unkept : ∀ d ∈ gone, d.name ∉ keep.names
  apart : ∀ d ∈ gone, ∀ y ∈ summed, d.name ∉ y.own.names
  dims : ∀ d, (∃ x ∈ operands, d ∈ x.own.dims) ↔ (∃ y ∈ summed, d ∈ y.own.dims) ∨ d ∈ gone
  value : (summed.map (valueAt scalars σ)).prod =
    sumOver gone (operands.map (valueAt scalars σ)).prod

/-- What remains to be summed is summed around what has been. -/
theorem SumOfProduct.of_partlySummed {keep : Indices} {gone : List Dim}
    {operands summed : List Node} {n : Node} (partly : PartlySummed scalars σ keep gone operands summed)
    (spec : SumOfProduct scalars σ keep summed n) : SumOfProduct scalars σ keep operands n := by
  obtain ⟨ds, hds, memDs, value⟩ := spec.value
  refine ⟨spec.wellFormed, spec.known, fun d => ?_, ds ++ gone, ?_, fun d => ?_, ?_⟩
  · rw [spec.dims, partly.dims]
    constructor
    · exact fun ⟨mem, kept⟩ => ⟨.inl mem, kept⟩
    · exact fun ⟨mem, kept⟩ => ⟨mem.resolve_right fun hd => partly.unkept d hd kept, kept⟩
  · rw [List.map_append, List.nodup_append]
    refine ⟨hds, partly.distinct, ?_⟩
    rintro name hn name' hn' rfl
    obtain ⟨d, hd, rfl⟩ := List.mem_map.mp hn
    obtain ⟨e, he, same⟩ := List.mem_map.mp hn'
    obtain ⟨⟨y, hy, mem⟩, -⟩ := (memDs d).mp hd
    exact partly.apart e he y hy (same ▸ Indices.mem_names_of_mem mem)
  · rw [List.mem_append, memDs, partly.dims]
    constructor
    · rintro (⟨mem, free⟩ | hd)
      · exact ⟨.inl mem, free⟩
      · exact ⟨.inr hd, partly.unkept d hd⟩
    · rintro ⟨mem | hd, free⟩
      · exact .inl ⟨mem, free⟩
      · exact .inr hd
  · rw [value, partly.value, sumOver_append]

theorem SumOfProduct.of_reordered {keep : Indices} {operands : List Node} {n m : Node}
    (spec : SumOfProduct scalars σ keep operands n) (h : Reordered scalars σ keep n m)
    (indices : m.indices = some keep) : SumOfProduct scalars σ keep operands m := by
  obtain ⟨ds, hds, mem, value⟩ := spec.value
  refine ⟨h.wellFormed, own_of_indices indices ▸ indices, fun d => ?_, ds, hds, mem, ?_⟩
  · rw [h.dims, spec.dims]
  · rw [← value]
    exact funext h.value

/-- A product leaves no index that is not kept to one operand alone: the shared ones that nothing
later has are summed, and the others are in a later operand. -/
theorem occurrences_multiply {keep : Indices} {left right n : Node} {later : List Node}
    (spec : Multiplied scalars σ
      ((left.own.inter right.own).diff (keep.merge (laterIndices later))).names left right n)
    (known : ∀ x ∈ later, x.indices = some x.own)
    (shared : ∀ c, c ∉ keep.names → occurrences (left :: right :: later) c ≠ 1)
    {c : Char} (free : c ∉ keep.names) : occurrences (n :: later) c ≠ 1 := by
  have count := shared c free
  have names : c ∈ n.own.names ↔ (c ∈ left.own.names ∨ c ∈ right.own.names) ∧
      c ∉ ((left.own.inter right.own).diff (keep.merge (laterIndices later))).names := by
    simp only [Indices.mem_names (i := n.own), Indices.mem_names (i := left.own),
      Indices.mem_names (i := right.own), spec.dims]
    constructor
    · rintro ⟨d, ⟨hd | hd, stays⟩, rfl⟩
      · exact ⟨.inl ⟨d, hd, rfl⟩, stays⟩
      · exact ⟨.inr ⟨d, hd, rfl⟩, stays⟩
    · rintro ⟨⟨d, hd, rfl⟩ | ⟨d, hd, rfl⟩, stays⟩
      · exact ⟨d, ⟨.inl hd, stays⟩, rfl⟩
      · exact ⟨d, ⟨.inr hd, stays⟩, rfl⟩
  have later' : c ∈ (laterIndices later).names ↔ 0 < later.countP (mentions c) := by
    rw [mem_laterIndices, List.countP_pos_iff]
    constructor
    · rintro ⟨x, hx, mem⟩
      exact ⟨x, hx, (mentions_iff (known x hx)).mpr mem⟩
    · rintro ⟨x, hx, mem⟩
      exact ⟨x, hx, (mentions_iff (known x hx)).mp mem⟩
  rw [Indices.mem_names_diff, Indices.mem_names_inter, Indices.mem_names_merge, later'] at names
  simp only [occurrences, List.countP_cons, mentions_iff spec.known,
    mentions_iff spec.operands.left, mentions_iff spec.operands.right] at count ⊢
  by_cases inLeft : c ∈ left.own.names <;> by_cases inRight : c ∈ right.own.names <;>
    by_cases inLater : 0 < later.countP (mentions c) <;>
    simp only [inLeft, inRight, inLater, free, or_true, or_false, or_self, and_self, and_true,
      and_false, not_true, not_false_iff, iff_true, iff_false, if_true, if_false] at names count ⊢ <;>
    simp only [names, if_true, if_false] <;> omega

/-- A product sums over shared indices that neither the kept ones nor a later operand have. -/
theorem partlySummed_multiply {keep : Indices} {left right n : Node} {later : List Node}
    (spec : Multiplied scalars σ
      ((left.own.inter right.own).diff (keep.merge (laterIndices later))).names left right n) :
    ∃ gone, PartlySummed scalars σ keep gone (left :: right :: later) (n :: later) := by
  obtain ⟨gone, distinct, mem, value⟩ := spec.value
  have free (d : Dim) (hd : d ∈ gone) :
      d.name ∉ keep.names ∧ ¬∃ x ∈ later, d.name ∈ x.own.names := by
    have summed := ((mem d).mp hd).2
    rw [Indices.mem_names_diff, Indices.mem_names_merge, mem_laterIndices, not_or] at summed
    exact summed.2
  have unread (d : Dim) (hd : d ∈ gone) : d.name ∉ later.flatMap fun x => x.own.names := by
    intro hn
    obtain ⟨x, hx, named⟩ := List.mem_flatMap.mp hn
    exact (free d hd).2 ⟨x, hx, named⟩
  refine ⟨gone, distinct, fun d hd => (free d hd).1, fun d hd y hy named => ?_, fun d => ?_, ?_⟩
  · rcases List.mem_cons.mp hy with rfl | hy
    · obtain ⟨e, he, same⟩ := Indices.mem_names.mp named
      exact ((spec.dims e).mp he).2 (same ▸ ((mem d).mp hd).2)
    · exact (free d hd).2 ⟨y, hy, named⟩
  · simp only [List.exists_mem_cons_iff, spec.dims, mem, ← or_assoc]
    by_cases summed :
      d.name ∈ ((left.own.inter right.own).diff (keep.merge (laterIndices later))).names
    · simp only [summed, not_true_eq_false, and_false, and_true, false_or]
      exact or_comm
    · simp only [summed, not_false_eq_true, and_true, and_false, or_false]
  · calc
      ((n :: later).map (valueAt scalars σ)).prod
          = sumOver gone (left.valueAt scalars σ * right.valueAt scalars σ) *
              (later.map (valueAt scalars σ)).prod := by
            rw [List.map_cons, List.prod_cons, value]
      _ = sumOver gone (left.valueAt scalars σ * right.valueAt scalars σ *
              (later.map (valueAt scalars σ)).prod) :=
            (sumOver_mul_right (prod_readsOnly scalars σ later) unread _).symm
      _ = sumOver gone ((left :: right :: later).map (valueAt scalars σ)).prod := by
            rw [List.map_cons, List.map_cons, List.prod_cons, List.prod_cons, mul_assoc]

/-- A single operand without indices to sum is its own product. -/
theorem sumOfProduct_single {keep : Indices} {n : Node} (hn : n.WellFormed)
    (known : n.indices = some n.own) (kept : ∀ d ∈ n.own.dims, d.name ∈ keep.names) :
    SumOfProduct scalars σ keep [n] n := by
  refine ⟨hn, known, fun d => ?_, [], List.nodup_nil, fun d => ?_, ?_⟩
  · simp only [List.mem_singleton, exists_eq_left]
    exact ⟨fun hd => ⟨hd, kept d hd⟩, And.left⟩
  · simp only [List.mem_singleton, exists_eq_left, List.not_mem_nil, false_iff]
    exact fun both => both.2 (kept d both.1)
  · rw [List.map_singleton, List.prod_singleton, sumOver_nil]

theorem multiplyAll_spec {keep : Indices} {left n : Node} {rest : List Node}
    (hl : left.WellFormed) (hr : ∀ x ∈ rest, x.WellFormed)
    (known : ∀ x ∈ left :: rest, x.indices = some x.own)
    (shared : ∀ c, c ∉ keep.names → occurrences (left :: rest) c ≠ 1)
    (h : left.multiplyAll keep rest = .ok n) :
    SumOfProduct scalars σ keep (left :: rest) n := by
  induction rest generalizing left with
  | nil =>
    obtain rfl := pure_eq_ok.mp h
    have own := known left List.mem_cons_self
    refine sumOfProduct_single scalars σ hl own fun d hd => ?_
    by_contra free
    have mem := (mentions_iff own).mpr (Indices.mem_names_of_mem hd)
    exact shared d.name free (by simp [occurrences, mem])
  | cons right later ih =>
    obtain ⟨next, first, rest⟩ := bind_eq_ok.mp h
    obtain ⟨hright, hlater⟩ := List.forall_mem_cons.mp hr
    have knownLater (x : Node) (hx : x ∈ later) : x.indices = some x.own :=
      known x (List.mem_cons_of_mem _ (List.mem_cons_of_mem _ hx))
    have step := multiply_spec scalars σ hl hright first
    have spec := ih step.wellFormed hlater (List.forall_mem_cons.mpr ⟨step.known, knownLater⟩)
      (fun c free => occurrences_multiply scalars σ step knownLater shared free) rest
    obtain ⟨gone, partly⟩ := partlySummed_multiply scalars σ step
    exact .of_partlySummed scalars σ partly spec

/-- After the private sums each index that is not kept occurs in two operands or in none. -/
theorem occurrences_sumPrivate {keep : Indices} {xs ys : List Node}
    (h : List.Forall₂ (Summed scalars σ (IsPrivate keep xs)) xs ys)
    (known : ∀ x ∈ xs, x.indices = some x.own) {c : Char} (free : c ∉ keep.names) :
    occurrences ys c ≠ 1 := by
  have names {x y : Node} (spec : Summed scalars σ (IsPrivate keep xs) x y) :
      c ∈ y.own.names ↔ c ∈ x.own.names ∧ ¬IsPrivate keep xs c := by
    simp only [Indices.mem_names (i := y.own), Indices.mem_names (i := x.own), spec.dims]
    constructor
    · rintro ⟨d, ⟨hd, stays⟩, rfl⟩
      exact ⟨⟨d, hd, rfl⟩, stays⟩
    · rintro ⟨⟨d, hd, rfl⟩, stays⟩
      exact ⟨d, ⟨hd, stays⟩, rfl⟩
  by_cases alone : IsPrivate keep xs c
  · have none : occurrences ys c = 0 := by
      refine List.countP_eq_zero.mpr fun y hy mem => ?_
      obtain ⟨x, -, spec⟩ := exists_of_forall₂_right h hy
      exact ((names spec).mp ((mentions_iff spec.known).mp mem)).2 alone
    omega
  · have same : occurrences ys c = occurrences xs c := by
      have count {as bs : List Node} (known : ∀ x ∈ as, x.indices = some x.own)
          (h : List.Forall₂ (Summed scalars σ (IsPrivate keep xs)) as bs) :
          bs.countP (mentions c) = as.countP (mentions c) := by
        induction h with
        | nil => rfl
        | @cons x y as bs spec _ ih =>
          have mentioned : mentions c y = mentions c x := by
            rw [Bool.eq_iff_iff, mentions_iff spec.known, mentions_iff (known x List.mem_cons_self),
              names spec]
            exact and_iff_left alone
          rw [List.countP_cons, List.countP_cons, mentioned,
            ih fun z hz => known z (List.mem_cons_of_mem x hz)]
      exact count known h
    rw [same]
    exact fun once => alone ⟨free, once⟩

/-- Indices that are neither kept nor shared are summed before any product is formed. -/
theorem partlySummed_sumPrivate {keep : Indices} {xs ys : List Node} (hx : ∀ x ∈ xs, x.WellFormed)
    (known : ∀ x ∈ xs, x.indices = some x.own)
    (each : List.Forall₂ (Summed scalars σ (IsPrivate keep xs)) xs ys) :
    ∃ gone, PartlySummed scalars σ keep gone xs ys := by
  have alone := pairwise_of_occurrences known fun c (alone : IsPrivate keep xs c) => alone.2.le
  obtain ⟨gone, distinct, mem, value⟩ := prod_summed scalars σ each hx alone
  refine ⟨gone, distinct, fun d hd => ((mem d).mp hd).2.1, fun d hd y hy named => ?_,
    fun d => ?_, value⟩
  · obtain ⟨x, -, spec⟩ := exists_of_forall₂_right each hy
    obtain ⟨e, he, same⟩ := Indices.mem_names.mp named
    exact ((spec.dims e).mp he).2 (same ▸ ((mem d).mp hd).2)
  · rw [mem]
    constructor
    · rintro ⟨x, hx, hd⟩
      obtain ⟨y, hy, spec⟩ := exists_of_forall₂_right each.flip hx
      by_cases alone : IsPrivate keep xs d.name
      · exact .inr ⟨⟨x, hx, hd⟩, alone⟩
      · exact .inl ⟨y, hy, (spec.dims d).mpr ⟨hd, alone⟩⟩
    · rintro (⟨y, hy, hd⟩ | ⟨mem, -⟩)
      · obtain ⟨x, hx, spec⟩ := exists_of_forall₂_right each hy
        exact ⟨x, hx, ((spec.dims d).mp hd).1⟩
      · exact mem

/-- The steps by which a product of any number of operands is made. -/
theorem binarize_cases {target : Option Indices} {operands : List Node} {n : Node}
    (h : binarize target operands = .ok n) :
    ∃ all keep first rest product, mergedIndices .empty operands = .ok all ∧
      keptIndices target operands all = .ok keep ∧
      operands.mapM (sumPrivate keep operands) = .ok (first :: rest) ∧
      first.multiplyAll keep rest = .ok product ∧ product.bring keep = .ok n := by
  unfold binarize at h
  split at h
  · obtain ⟨_, refused, -⟩ := bind_eq_ok.mp h
    exact absurd refused refuse_ne_ok
  obtain ⟨all, merged, h⟩ := bind_eq_ok.mp h
  obtain ⟨keep, kept, h⟩ := bind_eq_ok.mp h
  obtain ⟨summed, sums, h⟩ := bind_eq_ok.mp h
  match summed, h with
  | first :: rest, h =>
    obtain ⟨product, products, brought⟩ := bind_eq_ok.mp h
    exact ⟨all, keep, first, rest, product, merged, kept, sums, products, brought⟩

/-- Products of any number of operands are what they should be: the product summed over all indices
that are not kept, in the order of the kept ones. -/
theorem binarize_spec {target : Option Indices} {operands : List Node} {n : Node}
    (ho : ∀ x ∈ operands, x.WellFormed) (ht : ∀ t, target = some t → t.Distinct)
    (h : binarize target operands = .ok n) :
    ∃ all keep, mergedIndices .empty operands = .ok all ∧
      keptIndices target operands all = .ok keep ∧
      SumOfProduct scalars σ keep operands n ∧ n.indices = some keep := by
  obtain ⟨all, keep, first, rest, product, merged, kept, sums, products, brought⟩ :=
    binarize_cases h
  obtain ⟨-, distinct, known, -⟩ :=
    mergedIndices_spec Indices.distinct_empty (fun x hx => (ho x hx).own) merged
  obtain ⟨-, hk, -⟩ := keptIndices_spec distinct ht kept
  have each : List.Forall₂ (Summed scalars σ (IsPrivate keep operands)) operands (first :: rest) :=
    forall₂_imp_of_mem (mapM_eq_ok.mp sums) fun x hx y hy =>
      (sumPrivate_spec scalars σ (ho x hx) hy).2
  have formed : ∀ y ∈ first :: rest, y.WellFormed ∧ y.indices = some y.own := by
    intro y hy
    obtain ⟨x, -, spec⟩ := exists_of_forall₂_right each hy
    exact ⟨spec.wellFormed, spec.known⟩
  obtain ⟨gone, partly⟩ := partlySummed_sumPrivate scalars σ ho known each
  have spec := SumOfProduct.of_partlySummed scalars σ partly <|
    multiplyAll_spec scalars σ (formed first List.mem_cons_self).1
      (fun y hy => (formed y (List.mem_cons_of_mem first hy)).1) (fun y hy => (formed y hy).2)
      (fun c free => occurrences_sumPrivate scalars σ each known free) products
  obtain ⟨reordered, indices, -⟩ := bring_spec scalars σ spec.wellFormed hk brought
  exact ⟨all, keep, merged, kept, spec.of_reordered scalars σ reordered indices, indices⟩

end

end TensorKernel.Node
