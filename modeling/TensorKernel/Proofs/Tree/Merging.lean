import Mathlib.Data.List.Pairwise
import TensorKernel.Proofs.Tree.Order

/-!
Index sets merged one after the other, as a product merges those of its operands. A merge keeps the
extent that a name had first. So an index set that agrees with a merge agrees with each part of it,
and whether all agree in turn does not depend on the order in which they come.

* `names_merge`, `extent?_merge`, `merge_assoc`: merging, as to names, extents and brackets;
* `checkAgrees_iff`, `Agree.merge_iff`: agreement on the extents of shared names, also with a merge;
* `agreeInTurn_iff`: agreement with all that was merged before;
* `Node.mergedIndices_eq_ok`: the merged indices of the operands of a product;
* `merged_in_turn`: any number of index sets.
-/

namespace TensorKernel

namespace Indices

variable {i j : Indices} {name : Char}

/-! ### Merging -/

theorem insert_of_mem {d : Dim} (known : d.name ∈ i.names) : i.insert d = i :=
  if_pos (contains_iff.mpr known)

theorem insert_of_not_mem {d : Dim} (new : d.name ∉ i.names) : i.insert d = ⟨i.dims ++ [d]⟩ :=
  if_neg fun known => new (contains_iff.mp known)

@[simp] theorem names_cons (d : Dim) (ds : List Dim) : names ⟨d :: ds⟩ = d.name :: names ⟨ds⟩ := rfl

@[simp] theorem names_append (ds es : List Dim) : names ⟨ds ++ es⟩ = names ⟨ds⟩ ++ names ⟨es⟩ :=
  List.map_append

theorem extent?_cons (d : Dim) (ds : List Dim) (name : Char) :
    extent? ⟨d :: ds⟩ name = if d.name = name then some d.extent else extent? ⟨ds⟩ name := by
  by_cases same : d.name = name <;> simp [extent?, same]

theorem extent?_append (ds es : List Dim) (name : Char) :
    extent? ⟨ds ++ es⟩ name = (extent? ⟨ds⟩ name).or (extent? ⟨es⟩ name) := by
  simp [extent?, List.find?_append, Option.map_or]

theorem extent?_eq_none (h : name ∉ i.names) : i.extent? name = none := by
  rwa [← extent?_isSome, Option.not_isSome_iff_eq_none] at h

theorem merge_cons (i : Indices) (d : Dim) (ds : List Dim) :
    i.merge ⟨d :: ds⟩ = (i.insert d).merge ⟨ds⟩ :=
  rfl

theorem merge_append (i : Indices) (ds es : List Dim) :
    i.merge ⟨ds ++ es⟩ = (i.merge ⟨ds⟩).merge ⟨es⟩ :=
  List.foldl_append

/-- Index sets merged in turn are merged at once. -/
theorem foldl_merge (xs : List Indices) (found : Indices) :
    xs.foldl merge found = found.merge ⟨xs.flatMap dims⟩ := by
  induction xs generalizing found with
  | nil => rfl
  | cons x xs ih => rw [List.foldl_cons, ih, List.flatMap_cons, merge_append]

theorem names_flatMap (xs : List Indices) : names ⟨xs.flatMap dims⟩ = xs.flatMap names :=
  List.map_flatMap

/-- A merge appends the new names, each of them once. -/
theorem names_merge (i j : Indices) :
    (i.merge j).names = i.names ++ (j.names.removeAll i.names).eraseDups := by
  obtain ⟨ds⟩ := j
  induction ds generalizing i with
  | nil => exact (List.append_nil _).symm
  | cons d ds ih =>
    rw [merge_cons, ih, names_cons]
    by_cases known : d.name ∈ i.names
    · rw [insert_of_mem known]
      simp [List.removeAll, known]
    · have first : (d.name :: names ⟨ds⟩).removeAll i.names =
          d.name :: (names ⟨ds⟩).removeAll i.names := by
        simp [List.removeAll, known]
      have others : (names ⟨ds⟩).removeAll (i.names ++ [d.name]) =
          ((names ⟨ds⟩).removeAll i.names).filter fun name => !name == d.name := by
        simp only [List.removeAll, List.filter_filter]
        refine List.filter_congr fun name _ => ?_
        rw [Bool.eq_iff_iff]
        simp [and_comm]
      rw [insert_of_not_mem known, names_append, first, List.eraseDups_cons, ← others,
        List.append_assoc]
      rfl

/-- The names of index sets merged in turn, in the order in which they come up. -/
theorem names_merged (xs : List Indices) :
    (xs.foldl merge empty).names = (xs.flatMap names).eraseDups := by
  rw [foldl_merge, names_merge, names_flatMap]
  simp [List.removeAll]

/-- A merge repeats no name, whether or not the index set repeats one that is merged. -/
theorem Distinct.merge_any (h : i.Distinct) (j : Indices) : (i.merge j).Distinct := by
  obtain ⟨ds⟩ := j
  induction ds generalizing i with
  | nil => exact h
  | cons d ds ih =>
    rw [merge_cons]
    refine ih ?_
    by_cases known : d.name ∈ i.names
    · rwa [insert_of_mem known]
    · rw [insert_of_not_mem known, Distinct, names_append]
      exact List.concat_eq_append ▸ h.concat known

/-- A name has the extent that it had first. -/
theorem extent?_merge (i j : Indices) (name : Char) :
    (i.merge j).extent? name = (i.extent? name).or (j.extent? name) := by
  obtain ⟨ds⟩ := j
  induction ds generalizing i with
  | nil => exact Option.or_none.symm
  | cons d ds ih =>
    rw [merge_cons, ih, extent?_cons]
    by_cases known : d.name ∈ i.names
    · rw [insert_of_mem known]
      split
      case isTrue same =>
        obtain ⟨n, extent⟩ := Option.isSome_iff_exists.mp (extent?_isSome.mpr (same ▸ known))
        simp [extent]
      case isFalse => rfl
    · rw [insert_of_not_mem known, extent?_append, extent?_cons, Option.or_assoc]
      split <;> rfl

theorem extent?_merge_of_mem (h : name ∈ i.names) : (i.merge j).extent? name = i.extent? name := by
  obtain ⟨n, extent⟩ := Option.isSome_iff_exists.mp (extent?_isSome.mpr h)
  rw [extent?_merge, extent, Option.some_or]

theorem extent?_merge_of_not_mem (h : name ∉ i.names) :
    (i.merge j).extent? name = j.extent? name := by
  rw [extent?_merge, extent?_eq_none h, Option.none_or]

theorem merge_insert (i j : Indices) (d : Dim) : i.merge (j.insert d) = (i.merge j).insert d := by
  by_cases known : d.name ∈ j.names
  · rw [insert_of_mem known, insert_of_mem (mem_names_merge.mpr (.inr known))]
  · rw [insert_of_not_mem known, merge_append]
    rfl

theorem merge_assoc (i j k : Indices) : (i.merge j).merge k = i.merge (j.merge k) := by
  obtain ⟨ds⟩ := k
  induction ds generalizing j with
  | nil => rfl
  | cons d ds ih => rw [merge_cons, ← merge_insert, ih, merge_cons]

theorem merge_empty (i : Indices) : i.merge empty = i := rfl

theorem diff_empty (i : Indices) : i.diff empty = i := by
  simp [diff, filter, contains]

/-- Where a name is repeated, a merge drops the repetition. -/
theorem empty_merge_iff : empty.merge i = i ↔ i.Distinct := by
  constructor
  · exact fun same => same ▸ distinct_empty.merge_any i
  · intro h
    have dims := merge_dims empty h
    rw [diff_empty] at dims
    exact congrArg Indices.mk dims

theorem merge_dims_iff : (∀ i : Indices, (i.merge j).dims = i.dims ++ (j.diff i).dims) ↔ j.Distinct := by
  refine ⟨fun h => empty_merge_iff.mp ?_, fun h i => merge_dims i h⟩
  have dims := h empty
  rw [diff_empty] at dims
  exact congrArg Indices.mk dims

/-! ### Agreement -/

def Agree (i j : Indices) : Prop :=
  ∀ name ∈ i.names, name ∈ j.names → i.extent? name = j.extent? name

instance (i j : Indices) : Decidable (i.Agree j) :=
  List.decidableBAll (fun name => name ∈ j.names → i.extent? name = j.extent? name) i.names

instance : Std.Symm Agree where
  symm _ _ h name hj hi := (h name hi hj).symm

theorem agree_self (i : Indices) : i.Agree i :=
  fun _ _ _ => rfl

theorem checkAgrees_iff : i.checkAgrees j = .ok () ↔ i.Agree j := by
  have agrees : i.agrees j = true ↔ i.Agree j := by
    simp only [Indices.agrees, List.all_eq_true, decide_eq_true_eq, mem_names_inter, Agree, and_imp]
  rw [← agrees, checkAgrees]
  cases i.agrees j <;> simp [refuse]

theorem agree_iff (h : i.Distinct) (k : j.Distinct) :
    i.Agree j ↔ ∀ d ∈ i.dims, ∀ e ∈ j.dims, d.name = e.name → d = e := by
  rw [← checkAgrees_iff, checkAgrees_eq_ok h k]

/-- In a merge of index sets that agree, the names of the second have their extents too. -/
theorem Agree.extent?_merge (h : i.Agree j) (there : name ∈ j.names) :
    (i.merge j).extent? name = j.extent? name := by
  by_cases known : name ∈ i.names
  · rw [extent?_merge_of_mem known, h name known there]
  · exact extent?_merge_of_not_mem known

/-- An index set agrees with a merge exactly if it agrees with both parts. -/
theorem Agree.merge_iff (h : i.Agree j) {k : Indices} :
    (i.merge j).Agree k ↔ i.Agree k ∧ j.Agree k := by
  constructor
  · refine fun agree => ⟨fun name hi hk => ?_, fun name hj hk => ?_⟩
    · rw [← extent?_merge_of_mem hi]
      exact agree name (mem_names_merge.mpr (.inl hi)) hk
    · rw [← h.extent?_merge hj]
      exact agree name (mem_names_merge.mpr (.inr hj)) hk
  · rintro ⟨left, right⟩ name there hk
    rcases mem_names_merge.mp there with hi | hj
    · rw [extent?_merge_of_mem hi]
      exact left name hi hk
    · rw [h.extent?_merge hj]
      exact right name hj hk

/-- Each index set agrees with the merge of what comes before it. -/
def AgreeInTurn (found : Indices) : List Indices → Prop
  | [] => True
  | x :: xs => found.checkAgrees x = .ok () ∧ AgreeInTurn (found.merge x) xs

theorem agreeInTurn_iff {found : Indices} {xs : List Indices} :
    AgreeInTurn found xs ↔ (∀ x ∈ xs, found.Agree x) ∧ xs.Pairwise Agree := by
  induction xs generalizing found with
  | nil => simp [AgreeInTurn]
  | cons x xs ih =>
    rw [AgreeInTurn, checkAgrees_iff, ih, List.forall_mem_cons, List.pairwise_cons, and_assoc]
    refine and_congr_right fun first => ?_
    simp only [first.merge_iff, forall₂_and]
    exact and_assoc

theorem pairwise_agree_iff {xs : List Indices} :
    xs.Pairwise Agree ↔ ∀ x ∈ xs, ∀ y ∈ xs, x.Agree y := by
  constructor
  · intro pairwise x hx y hy
    exact pairwise.forall_of_forall (fun x _ => agree_self x) hx hy
  · exact fun all => List.pairwise_of_forall_mem_list all

/-- Index sets agree in turn exactly if any two of them agree. -/
theorem agreeInTurn_empty_iff {xs : List Indices} :
    AgreeInTurn empty xs ↔ ∀ x ∈ xs, ∀ y ∈ xs, x.Agree y := by
  rw [agreeInTurn_iff, pairwise_agree_iff]
  exact and_iff_right fun _ _ _ there => absurd there List.not_mem_nil

/-- Of index sets that agree in turn, each has the extents of the merge. -/
theorem AgreeInTurn.extent? {found : Indices} {xs : List Indices} (h : AgreeInTurn found xs) :
    ∀ x ∈ xs, ∀ name ∈ x.names, (xs.foldl merge found).extent? name = x.extent? name := by
  induction xs generalizing found with
  | nil => simp
  | cons x xs ih =>
    obtain ⟨first, rest⟩ := h
    refine List.forall_mem_cons.mpr ⟨fun name there => ?_, ih rest⟩
    rw [List.foldl_cons, foldl_merge, extent?_merge_of_mem (mem_names_merge.mpr (.inr there))]
    exact (checkAgrees_iff.mp first).extent?_merge there

/-- Index sets that agree in turn are merged into one that holds the dimensions of all of them. -/
theorem AgreeInTurn.mem_dims {found : Indices} {xs : List Indices} (h : AgreeInTurn found xs)
    (distinct : found.Distinct) (each : ∀ x ∈ xs, x.Distinct) {d : Dim} :
    d ∈ (xs.foldl merge found).dims ↔ d ∈ found.dims ∨ ∃ x ∈ xs, d ∈ x.dims := by
  have merged : (xs.foldl merge found).Distinct := foldl_merge xs found ▸ distinct.merge_any _
  have first (there : d.name ∈ found.names) :
      (xs.foldl merge found).extent? d.name = found.extent? d.name := by
    rw [foldl_merge, extent?_merge_of_mem there]
  rw [← extent?_eq_some merged]
  constructor
  · intro extent
    have named := extent?_isSome.mp (Option.isSome_of_eq_some extent)
    rw [foldl_merge, mem_names_merge, names_flatMap, List.mem_flatMap] at named
    rcases named with known | ⟨x, hx, there⟩
    · exact .inl ((extent?_eq_some distinct).mp (first known ▸ extent))
    · exact .inr ⟨x, hx, (extent?_eq_some (each x hx)).mp (h.extent? x hx _ there ▸ extent)⟩
  · rintro (hd | ⟨x, hx, hd⟩)
    · rw [first (mem_names_of_mem hd)]
      exact (extent?_eq_some distinct).mpr hd
    · rw [h.extent? x hx _ (mem_names_of_mem hd)]
      exact (extent?_eq_some (each x hx)).mpr hd

end Indices

/-! ### Products -/

/-- The indices of operands merge exactly if all of them are known and agree in turn. -/
theorem Node.mergedIndices_eq_ok {found all : Indices} {operands : List Node} :
    mergedIndices found operands = .ok all ↔ (∀ x ∈ operands, x.indices = some x.own) ∧
      found.AgreeInTurn (operands.map own) ∧ (operands.map own).foldl Indices.merge found = all := by
  induction operands generalizing found with
  | nil => simp [mergedIndices, Indices.AgreeInTurn, pure_eq_ok]
  | cons x xs ih =>
    simp only [mergedIndices, bind_eq_ok, resolvedIndices_eq_ok, ih, List.forall_mem_cons,
      List.map_cons, List.foldl_cons, Indices.AgreeInTurn]
    constructor
    · rintro ⟨i, known, _, agree, others, turn, merged⟩
      obtain rfl := own_of_indices known
      exact ⟨⟨known, others⟩, ⟨agree, turn⟩, merged⟩
    · rintro ⟨⟨known, others⟩, ⟨agree, turn⟩, merged⟩
      exact ⟨x.own, known, (), agree, others, turn, merged⟩

namespace Indices

/-- Index sets are merged one after the other, as those of the operands of a product are. Each
agrees with what was merged before it exactly if any two of them agree, whatever the order. Then the
merge has their names in the order in which they come up, each with the extent that it has in all
index sets that have it. Merging is associative, and the empty index set adds nothing. An index set
that repeats no name, and no other, stays as it is when it is merged into the empty one, and any
merge with it is the first index set followed by what the second has alone. -/
theorem merged_in_turn (xs : List Indices) :
    (∀ ys, ys.Perm xs → (AgreeInTurn empty ys ↔ ∀ x ∈ xs, ∀ y ∈ xs, x.Agree y)) ∧
    (AgreeInTurn empty xs → (xs.foldl merge empty).names = (xs.flatMap names).eraseDups ∧
      ∀ x ∈ xs, ∀ name ∈ x.names, (xs.foldl merge empty).extent? name = x.extent? name) ∧
    (∀ operands : List Node, operands.map Node.indices = xs.map some → ∀ all,
      Node.mergedIndices empty operands = .ok all ↔
        AgreeInTurn empty xs ∧ xs.foldl merge empty = all) ∧
    (∀ i j k : Indices, (i.merge j).merge k = i.merge (j.merge k)) ∧
    (∀ i : Indices, i.merge empty = i) ∧
    ∀ j : Indices, (empty.merge j = j ↔ j.Distinct) ∧
      ((∀ i : Indices, (i.merge j).dims = i.dims ++ (j.diff i).dims) ↔ j.Distinct) := by
  refine ⟨fun ys perm => ?_, fun turn => ⟨names_merged xs, turn.extent?⟩,
    fun operands indices all => ?_, merge_assoc, merge_empty,
    fun j => ⟨empty_merge_iff, merge_dims_iff⟩⟩
  · rw [agreeInTurn_empty_iff]
    simp only [perm.mem_iff]
  · have own : operands.map Node.own = xs := by
      calc operands.map Node.own = (operands.map Node.indices).map (·.getD empty) := by
            rw [List.map_map]
            rfl
        _ = (xs.map some).map (·.getD empty) := by rw [indices]
        _ = xs := by simp [Function.comp_def]
    have known : ∀ x ∈ operands, x.indices = some x.own := by
      intro x hx
      obtain ⟨i, -, has⟩ := List.mem_map.mp (indices ▸ List.mem_map_of_mem hx)
      rw [← has, Node.own_of_indices has.symm]
    rw [Node.mergedIndices_eq_ok, own]
    exact and_iff_right known

/-- The three index sets of a triangle come in any order, and `i` and `j` come up before `k`. -/
theorem merged_in_turn_triangle :
    let ij : Indices := ⟨[⟨'i', 2⟩, ⟨'j', 3⟩]⟩
    let jk : Indices := ⟨[⟨'j', 3⟩, ⟨'k', 4⟩]⟩
    let ki : Indices := ⟨[⟨'k', 4⟩, ⟨'i', 2⟩]⟩
    let all := [ij, jk, ki].foldl merge empty
    AgreeInTurn empty [ki, ij, jk] ∧ AgreeInTurn empty [ij, jk, ki] ∧
      all.names = ['i', 'j', 'k'] ∧ all.extent? 'k' = some 4 ∧
      Node.mergedIndices empty
        [.dense "A" ij.dims, .dense "B" jk.dims, .dense "C" ki.dims] = .ok all ∧
      empty.merge ki = ki ∧ (ij.merge ki).dims = ij.dims ++ (ki.diff ij).dims := by
  intro ij jk ki all
  obtain ⟨turn, merged, product, -, -, parts⟩ := merged_in_turn [ij, jk, ki]
  have agree : ∀ x ∈ [ij, jk, ki], ∀ y ∈ [ij, jk, ki], x.Agree y := by decide
  have inTurn : AgreeInTurn empty [ij, jk, ki] := (turn _ .rfl).mpr agree
  have distinct : ki.Distinct := by decide
  refine ⟨(turn _ (by decide)).mpr agree, inTurn, ?_, ?_, ?_, (parts ki).1.mpr distinct,
    (parts ki).2.mpr distinct ij⟩
  · exact (merged inTurn).1
  · exact (merged inTurn).2 ki (by simp) 'k' (by decide)
  · exact (product _ rfl _).mpr ⟨inTurn, rfl⟩

end Indices

end TensorKernel
