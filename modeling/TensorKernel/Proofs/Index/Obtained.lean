import Mathlib.Data.List.Dedup
import TensorKernel.Proofs.Index.Dims
import TensorKernel.Proofs.Success

/-!
What the operations on index sets keep. Written index sets have no repeated name, and merging,
filtering and reordering repeat none. Picking names repeats a name as often as it is picked: an
index set can hold a name twice exactly if a list with a repetition is picked. A repeated name
still stands for one extent, for the extents of picked names are looked up by name.

* `Consistent`: the dimensions of one name are equal;
* `Obtained`: the index sets that the operations make, given the lists of names that are picked;
* `obtained_distinct_iff`: which of them hold no name twice.
-/

namespace TensorKernel.Indices

/-- A name stands for one extent, however often it is there. -/
def Consistent (i : Indices) : Prop := ∀ d ∈ i.dims, ∀ e ∈ i.dims, d.name = e.name → d = e

/-- The index sets made of written ones by the operations on index sets, where every list of names
to be picked is of the given kind. -/
inductive Obtained (picked : List Char → Prop) : Indices → Prop
  | ofNames {names : List Char} {shape : Shape} {i : Indices}
      (made : Indices.ofNames names shape = .ok i) : Obtained picked i
  | empty : Obtained picked Indices.empty
  | merge {i other : Indices} (hi : Obtained picked i) (ho : Obtained picked other) :
      Obtained picked (i.merge other)
  | inter {i other : Indices} (hi : Obtained picked i) (ho : Obtained picked other) :
      Obtained picked (i.inter other)
  | diff {i other : Indices} (hi : Obtained picked i) (ho : Obtained picked other) :
      Obtained picked (i.diff other)
  | without {i : Indices} (hi : Obtained picked i) (name : Char) : Obtained picked (i.without name)
  | permute {i order k : Indices} (hi : Obtained picked i) (ho : Obtained picked order)
      (found : i.permute? order = some k) : Obtained picked k
  | extract {i k : Indices} {names : List Char} (hi : Obtained picked i) (choice : picked names)
      (found : i.extract? names = some k) : Obtained picked k

/-! ### One extent per name -/

theorem Distinct.consistent {i : Indices} (h : i.Distinct) : i.Consistent :=
  fun _ hd _ he same => h.dim_unique hd he same

theorem Consistent.existsUnique {i : Indices} (h : i.Consistent) {name : Char}
    (there : name ∈ i.names) : ∃! n, (⟨name, n⟩ : Dim) ∈ i.dims := by
  obtain ⟨d, hd, rfl⟩ := mem_names.mp there
  exact ⟨d.extent, hd, fun n hn => congrArg Dim.extent (h ⟨d.name, n⟩ hn d hd rfl)⟩

theorem Consistent.filter {i : Indices} (h : i.Consistent) (keep : Char → Bool) :
    (i.filter keep).Consistent :=
  fun d hd e he same => h d (mem_filter.mp hd).1 e (mem_filter.mp he).1 same

theorem Consistent.insert {i : Indices} (h : i.Consistent) (d : Dim) :
    (i.insert d).Consistent := by
  rw [Indices.insert]
  split
  case isTrue => exact h
  case isFalse new =>
    have absent : ∀ e ∈ i.dims, e.name ≠ d.name :=
      fun e he same => new (contains_iff.mpr (mem_names.mpr ⟨e, he, same⟩))
    intro a ha b hb same
    rcases List.mem_append.mp ha with ha | ha <;> rcases List.mem_append.mp hb with hb | hb
    · exact h a ha b hb same
    · rw [List.mem_singleton.mp hb] at same
      exact absurd same (absent a ha)
    · rw [List.mem_singleton.mp ha] at same
      exact absurd same.symm (absent b hb)
    · rw [List.mem_singleton.mp ha, List.mem_singleton.mp hb]

/-- A merge adds dimensions of new names only, so that nothing needs to be known of the other index
set. -/
theorem Consistent.merge {i : Indices} (h : i.Consistent) (other : Indices) :
    (i.merge other).Consistent := by
  have fold (ds : List Dim) (i : Indices) (h : i.Consistent) :
      (ds.foldl Indices.insert i).Consistent := by
    induction ds generalizing i with
    | nil => exact h
    | cons d ds ih => exact ih _ (h.insert d)
  exact fold other.dims i h

/-- The dimensions that a list of names picks are those with its names, in its order, each with the
extent that the name has. -/
theorem extract?_eq_some_iff {i k : Indices} {names : List Char} :
    i.extract? names = some k ↔
      List.Forall₂ (fun name d => d.name = name ∧ i.extent? name = some d.extent) names k.dims := by
  have dimension (name : Char) (d : Dim) : (i.extent? name).map (Dim.mk name) = some d ↔
      d.name = name ∧ i.extent? name = some d.extent := by
    rw [Option.map_eq_some_iff]
    constructor
    · rintro ⟨n, extent, rfl⟩
      exact ⟨rfl, extent⟩
    · rintro ⟨rfl, extent⟩
      exact ⟨d.extent, extent, rfl⟩
  rw [extract?, Option.map_eq_some_iff]
  simp only [mapM_eq_some, dimension]
  constructor
  · rintro ⟨ds, picks, rfl⟩
    exact picks
  · exact fun picks => ⟨k.dims, picks, rfl⟩

theorem names_extract? {i k : Indices} {names : List Char} (found : i.extract? names = some k) :
    k.names = names := by
  have picks := extract?_eq_some_iff.mp found
  have same : k.dims.map Dim.name = names.map id := map_eq_of_forall₂ (picks.imp fun _ _ h => h.1)
  rw [Indices.names, same, List.map_id]

theorem consistent_extract? {i k : Indices} {names : List Char}
    (found : i.extract? names = some k) : k.Consistent := by
  have picks := extract?_eq_some_iff.mp found
  have looked : ∀ d ∈ k.dims, i.extent? d.name = some d.extent := by
    intro d hd
    obtain ⟨name, -, rfl, extent⟩ := exists_of_forall₂_right picks hd
    exact extent
  intro d hd e he same
  have extents : some d.extent = some e.extent := by rw [← looked d hd, ← looked e he, same]
  exact congrArg₂ Dim.mk same (Option.some.inj extents)

theorem Obtained.consistent {picked : List Char → Prop} {i : Indices} (h : Obtained picked i) :
    i.Consistent := by
  induction h with
  | ofNames made => exact (ofNames_eq_ok made).2.1.consistent
  | empty => exact distinct_empty.consistent
  | merge _ _ hi _ => exact hi.merge _
  | inter _ _ hi _ => exact hi.filter _
  | diff _ _ hi _ => exact hi.filter _
  | without _ name hi => exact hi.filter _
  | permute _ _ found =>
    rw [permute?] at found
    split at found
    case isTrue => exact consistent_extract? found
    case isFalse => cases found
  | extract _ _ found => exact consistent_extract? found

/-! ### No repeated name -/

/-- Only a picked list can repeat a name. -/
theorem Obtained.distinct {picked : List Char → Prop} (once : ∀ names, picked names → names.Nodup)
    {i : Indices} (h : Obtained picked i) : i.Distinct := by
  induction h with
  | ofNames made => exact (ofNames_eq_ok made).2.1
  | empty => exact distinct_empty
  | merge _ _ hi ho => exact hi.merge ho
  | inter _ _ hi _ => exact hi.inter _
  | diff _ _ hi _ => exact hi.diff _
  | without _ name hi => exact hi.filter _
  | permute _ _ found hi ho => exact (permute?_eq_some hi ho found).2.1
  | extract _ choice found =>
    rw [Distinct, names_extract? found]
    exact once _ choice

/-- Every list of names is what some index set with these names gives for it. -/
theorem exists_extract? (names : List Char) : ∃ shape i k,
    ofNames names.dedup shape = .ok i ∧ i.extract? names = some k ∧ k.names = names := by
  let shape : Shape := names.dedup.map fun _ => 1
  let i : Indices := ⟨List.zipWith Dim.mk names.dedup shape⟩
  have made : ofNames names.dedup shape = .ok i := by
    rw [ofNames, if_neg (by simp [shape]), if_pos (List.nodup_dedup names)]
  have written : i.names = names.dedup := (ofNames_eq_ok made).2.2.1
  have known : ∀ name ∈ names, name ∈ i.names :=
    fun name there => written ▸ List.mem_dedup.mpr there
  obtain ⟨k, found⟩ := Option.isSome_iff_exists.mp (extract?_isSome.mpr known)
  exact ⟨shape, i, k, made, found, names_extract? found⟩

/-- Every name of an index set has one extent, and index sets hold no name twice exactly if no list
with a repetition is picked. -/
theorem obtained_distinct_iff (picked : List Char → Prop) :
    (∀ i, Obtained picked i → ∀ name ∈ i.names, ∃! n, (⟨name, n⟩ : Dim) ∈ i.dims) ∧
      ((∀ i, Obtained picked i → i.Distinct) ↔ ∀ names, picked names → names.Nodup) := by
  refine ⟨fun i h name there => h.consistent.existsUnique there, ?_, ?_⟩
  · intro distinct names choice
    obtain ⟨shape, i, k, made, found, order⟩ := exists_extract? names
    exact order ▸ distinct k (.extract (.ofNames made) choice found)
  · exact fun once i h => h.distinct once

/-- The last and the first index of `ij` merged with `jk`. -/
def ends : Indices := ⟨[⟨'k', 4⟩, ⟨'i', 2⟩]⟩

theorem obtained_distinct_iff_ends :
    Obtained (· = ['k', 'i']) ends ∧ ends.Distinct ∧
      ∀ name ∈ ends.names, ∃! n, (⟨name, n⟩ : Dim) ∈ ends.dims := by
  have ij : Obtained (· = ['k', 'i']) ⟨[⟨'i', 2⟩, ⟨'j', 3⟩]⟩ :=
    .ofNames (by decide : Indices.ofNames ['i', 'j'] [2, 3] = .ok _)
  have jk : Obtained (· = ['k', 'i']) ⟨[⟨'j', 3⟩, ⟨'k', 4⟩]⟩ :=
    .ofNames (by decide : Indices.ofNames ['j', 'k'] [3, 4] = .ok _)
  have picked : Obtained (· = ['k', 'i']) ends := .extract (ij.merge jk) rfl (by decide)
  have general := obtained_distinct_iff (· = ['k', 'i'])
  exact ⟨picked, general.2.mpr (by rintro names rfl; decide) ends picked, general.1 ends picked⟩

/-- Where a name is picked twice, the result has it twice, and whether it has the names of another
index set depends on which of the two is asked. -/
theorem picked_twice :
    let ii : Indices := ⟨[⟨'i', 2⟩, ⟨'i', 2⟩]⟩
    let ij : Indices := ⟨[⟨'i', 2⟩, ⟨'j', 3⟩]⟩
    ofNames ['i', 'j'] [2, 3] = .ok ij ∧ ij.extract? ['i', 'i'] = some ii ∧
      Obtained (fun _ => True) ii ∧ ¬ ii.Distinct ∧
      ii.sameNames ij = true ∧ ij.sameNames ii = false := by
  have made : ofNames ['i', 'j'] [2, 3] = .ok ⟨[⟨'i', 2⟩, ⟨'j', 3⟩]⟩ := by decide
  have found : extract? ⟨[⟨'i', 2⟩, ⟨'j', 3⟩]⟩ ['i', 'i'] = some ⟨[⟨'i', 2⟩, ⟨'i', 2⟩]⟩ := by decide
  exact ⟨made, found, .extract (.ofNames made) trivial found, by decide, by decide, by decide⟩

end TensorKernel.Indices
