import Mathlib.Data.List.Nodup
import Mathlib.Data.List.Perm.Basic
import TensorKernel.Index.Compatible

/-!
Index sets as sets of dimensions. Where no name is repeated, a name stands for one dimension, and
the set operations do to dimensions what they do to names. Index sets that agree on the extents of
shared names merge into one that holds the dimensions of both.
-/

namespace TensorKernel.Indices

def Distinct (i : Indices) : Prop := i.names.Nodup

instance (i : Indices) : Decidable i.Distinct := inferInstanceAs (Decidable i.names.Nodup)

theorem mem_names {i : Indices} {name : Char} : name ∈ i.names ↔ ∃ d ∈ i.dims, d.name = name := by
  simp [names]

theorem mem_names_of_mem {i : Indices} {d : Dim} (h : d ∈ i.dims) : d.name ∈ i.names :=
  mem_names.mpr ⟨d, h, rfl⟩

@[simp] theorem contains_iff {i : Indices} {name : Char} : i.contains name = true ↔ name ∈ i.names := by
  simp [contains]

@[simp] theorem contains_eq_false {i : Indices} {name : Char} :
    i.contains name = false ↔ name ∉ i.names := by
  rw [← contains_iff, Bool.not_eq_true]

@[simp] theorem names_empty : empty.names = [] := rfl

theorem length_names (i : Indices) : i.names.length = i.size := List.length_map _

theorem length_shape (i : Indices) : i.shape.length = i.size := List.length_map _

theorem distinct_empty : Distinct empty := List.nodup_nil

/-- A name stands for one dimension. -/
theorem Distinct.dim_unique {i : Indices} (h : i.Distinct) {d e : Dim} (hd : d ∈ i.dims)
    (he : e ∈ i.dims) (same : d.name = e.name) : d = e :=
  List.inj_on_of_nodup_map h hd he same

theorem Distinct.filter {i : Indices} (h : i.Distinct) (keep : Char → Bool) :
    (i.filter keep).Distinct := by
  rw [Distinct, names_filter]
  exact List.Nodup.filter keep h

theorem Distinct.diff {i : Indices} (h : i.Distinct) (other : Indices) : (i.diff other).Distinct :=
  h.filter _

theorem Distinct.inter {i : Indices} (h : i.Distinct) (other : Indices) :
    (i.inter other).Distinct :=
  h.filter _

theorem mem_filter {i : Indices} {keep : Char → Bool} {d : Dim} :
    d ∈ (i.filter keep).dims ↔ d ∈ i.dims ∧ keep d.name = true := by
  simp [filter]

theorem mem_diff {i other : Indices} {d : Dim} :
    d ∈ (i.diff other).dims ↔ d ∈ i.dims ∧ d.name ∉ other.names := by
  rw [diff, mem_filter, Bool.not_eq_true', contains_eq_false]

theorem mem_names_filter {i : Indices} {keep : Char → Bool} {name : Char} :
    name ∈ (i.filter keep).names ↔ name ∈ i.names ∧ keep name = true := by
  rw [names_filter, List.mem_filter]

theorem mem_names_inter {i other : Indices} {name : Char} :
    name ∈ (i.inter other).names ↔ name ∈ i.names ∧ name ∈ other.names := by
  rw [inter, mem_names_filter, contains_iff]

theorem mem_names_diff {i other : Indices} {name : Char} :
    name ∈ (i.diff other).names ↔ name ∈ i.names ∧ name ∉ other.names := by
  rw [diff, mem_names_filter, Bool.not_eq_true', contains_eq_false]

theorem mem_names_without {i : Indices} {gone name : Char} :
    name ∈ (i.without gone).names ↔ name ∈ i.names ∧ name ≠ gone := by
  rw [without, mem_names_filter, decide_eq_true_eq]

theorem mem_names_merge {i other : Indices} {name : Char} :
    name ∈ (i.merge other).names ↔ name ∈ i.names ∨ name ∈ other.names := by
  rw [← contains_iff, contains_merge, Bool.or_eq_true, contains_iff, contains_iff]

theorem isEmpty_iff {i : Indices} : i.isEmpty = true ↔ i.dims = [] := by
  simp [isEmpty]

/-! ### Merging -/

/-- A merge appends the dimensions whose names are new. -/
theorem merge_dims (i : Indices) {other : Indices} (h : other.Distinct) :
    (i.merge other).dims = i.dims ++ (other.diff i).dims := by
  have fold (ds : List Dim) (i : Indices) (h : (ds.map Dim.name).Nodup) :
      (ds.foldl insert i).dims = i.dims ++ ds.filter fun d => !i.contains d.name := by
    induction ds generalizing i with
    | nil => simp
    | cons d ds ih =>
      obtain ⟨new, rest⟩ := List.nodup_cons.mp h
      rw [List.foldl_cons, ih _ rest]
      cases known : i.contains d.name with
      | true => simp [insert, known]
      | false =>
        have : ds.filter (fun e => !(i.insert d).contains e.name) =
            ds.filter fun e => !i.contains e.name := by
          apply List.filter_congr
          intro e he
          have : e.name ≠ d.name := fun same => new (same ▸ List.mem_map_of_mem he)
          simp [contains_insert, this]
        rw [this]
        simp [insert, known]
  exact fold other.dims i h

theorem mem_merge {i other : Indices} (h : other.Distinct) {d : Dim} :
    d ∈ (i.merge other).dims ↔ d ∈ i.dims ∨ d ∈ other.dims ∧ d.name ∉ i.names := by
  rw [merge_dims i h, List.mem_append, mem_diff]

theorem Distinct.merge {i other : Indices} (h : i.Distinct) (k : other.Distinct) :
    (i.merge other).Distinct := by
  rw [Distinct, names, merge_dims i k, List.map_append, List.nodup_append]
  refine ⟨h, k.diff i, ?_⟩
  rintro name hi other ho rfl
  exact (mem_names_diff.mp ho).2 hi

/-! ### Lookup -/

theorem find?_of_mem {i : Indices} {name : Char} (h : name ∈ i.names) :
    i.find? name = some (i.names.idxOf name) := by
  rw [find?, List.idxOf?_eq_some_iff]
  refine ⟨List.idxOf_lt_length_of_mem h, List.getElem_idxOf _, fun k hk => ?_⟩
  simpa using List.not_of_lt_findIdx hk

theorem find?_eq_none {i : Indices} {name : Char} (h : name ∉ i.names) : i.find? name = none := by
  rw [find?, List.idxOf?_eq_none_iff]
  exact h

theorem extent?_eq_some {i : Indices} (h : i.Distinct) {name : Char} {n : Nat} :
    i.extent? name = some n ↔ ⟨name, n⟩ ∈ i.dims := by
  rw [extent?, Option.map_eq_some_iff]
  constructor
  · rintro ⟨d, found, rfl⟩
    have named := List.find?_some found
    obtain rfl : d.name = name := by simpa using named
    exact List.mem_of_find?_eq_some found
  · intro mem
    cases found : i.dims.find? fun d => d.name = name with
    | none =>
      have := List.find?_eq_none.mp found _ mem
      simp at this
    | some d =>
      have named := List.find?_some found
      exact ⟨d, rfl, by
        rw [h.dim_unique (List.mem_of_find?_eq_some found) mem (by simpa using named)]⟩

theorem extent?_isSome {i : Indices} {name : Char} :
    (i.extent? name).isSome = true ↔ name ∈ i.names := by
  simp [extent?, mem_names]

/-- The dimensions that a list of names picks are those with its names, in its order. -/
theorem extract?_eq_some {i k : Indices} {names : List Char} (h : i.Distinct)
    (found : i.extract? names = some k) : k.names = names ∧ ∀ d ∈ k.dims, d ∈ i.dims := by
  rw [extract?, Option.map_eq_some_iff] at found
  obtain ⟨ds, picked, rfl⟩ := found
  induction names generalizing ds with
  | nil =>
    obtain rfl : ds = [] := by simpa using picked.symm
    exact ⟨rfl, by simp⟩
  | cons name names ih =>
    rw [List.mapM_cons] at picked
    simp only [Option.bind_eq_bind, Option.bind_eq_some_iff, Option.map_eq_some_iff,
      Option.pure_def, Option.some.injEq] at picked
    obtain ⟨d, ⟨n, extent, rfl⟩, rest, more, rfl⟩ := picked
    obtain ⟨order, mem⟩ := ih rest more
    refine ⟨by simpa [Indices.names] using order, ?_⟩
    intro e he
    rcases List.mem_cons.mp he with rfl | he
    · exact (extent?_eq_some h).mp extent
    · exact mem e he

theorem extract?_isSome {i : Indices} {names : List Char} :
    (i.extract? names).isSome = true ↔ ∀ name ∈ names, name ∈ i.names := by
  induction names with
  | nil => simp [extract?]
  | cons name names ih =>
    rw [List.forall_mem_cons, ← ih, ← extent?_isSome (i := i)]
    cases first : i.extent? name <;>
      cases rest : names.mapM fun name => (i.extent? name).map (Dim.mk name) <;>
      simp [extract?, first, rest]

/-! ### Agreement on extents -/

theorem agrees_iff {i other : Indices} (h : i.Distinct) (k : other.Distinct) :
    i.agrees other = true ↔ ∀ d ∈ i.dims, ∀ e ∈ other.dims, d.name = e.name → d = e := by
  simp only [agrees, List.all_eq_true, decide_eq_true_eq, mem_names_inter]
  constructor
  · intro agree d hd e he same
    have extents := agree d.name ⟨mem_names_of_mem hd, same ▸ mem_names_of_mem he⟩
    rw [(extent?_eq_some h).mpr hd, eq_comm, extent?_eq_some k] at extents
    exact k.dim_unique extents he same
  · rintro unique name ⟨left, right⟩
    obtain ⟨d, hd, rfl⟩ := mem_names.mp left
    obtain ⟨e, he, same⟩ := mem_names.mp right
    have := unique d hd e he same.symm
    rw [(extent?_eq_some h).mpr hd, eq_comm, extent?_eq_some k]
    exact this ▸ he

theorem checkAgrees_eq_ok {i other : Indices} (h : i.Distinct) (k : other.Distinct) :
    i.checkAgrees other = .ok () ↔ ∀ d ∈ i.dims, ∀ e ∈ other.dims, d.name = e.name → d = e := by
  rw [← agrees_iff h k, checkAgrees]
  cases i.agrees other <;> simp [refuse]

/-- The merge of index sets that agree holds the dimensions of both. -/
theorem mem_merge_of_agree {i other : Indices} (k : other.Distinct)
    (agree : ∀ d ∈ i.dims, ∀ e ∈ other.dims, d.name = e.name → d = e) {d : Dim} :
    d ∈ (i.merge other).dims ↔ d ∈ i.dims ∨ d ∈ other.dims := by
  rw [mem_merge k]
  constructor
  · exact fun h => h.imp id And.left
  · rintro (h | h)
    · exact .inl h
    · by_cases known : d.name ∈ i.names
      · obtain ⟨e, he, same⟩ := mem_names.mp known
        exact .inl (agree e he d h same ▸ he)
      · exact .inr ⟨h, known⟩

/-! ### Orders -/

theorem sameNames_iff {i other : Indices} (h : i.Distinct) (k : other.Distinct) :
    i.sameNames other = true ↔ ∀ name, name ∈ i.names ↔ name ∈ other.names := by
  have sizes : i.size = i.names.length ∧ other.size = other.names.length := by simp [size, names]
  simp only [sameNames, Bool.and_eq_true, decide_eq_true_eq, List.all_eq_true, contains_iff]
  constructor
  · rintro ⟨length, sub⟩ name
    have perm := (List.subperm_of_subset h sub).perm_of_length_le (by omega)
    exact perm.mem_iff
  · intro same
    have perm := (List.perm_ext_iff_of_nodup h k).mpr same
    exact ⟨by rw [sizes.1, sizes.2, perm.length_eq], fun name hn => (same name).mp hn⟩

/-- Index sets with the same names in one order that agree on extents are equal. -/
theorem eq_of_names_eq {i other : Indices} (names : i.names = other.names)
    (agree : ∀ d ∈ i.dims, ∀ e ∈ other.dims, d.name = e.name → d = e) : i = other := by
  have lists (ds es : List Dim) (names : ds.map Dim.name = es.map Dim.name)
      (agree : ∀ d ∈ ds, ∀ e ∈ es, d.name = e.name → d = e) : ds = es := by
    induction ds generalizing es with
    | nil => simpa using names.symm
    | cons d ds ih =>
      cases es with
      | nil => simp at names
      | cons e es =>
        rw [List.map_cons, List.map_cons, List.cons.injEq] at names
        rw [agree d List.mem_cons_self e List.mem_cons_self names.1,
          ih es names.2 fun x hx y hy =>
            agree x (List.mem_cons_of_mem d hx) y (List.mem_cons_of_mem e hy)]
  cases i
  cases other
  exact congrArg Indices.mk (lists _ _ names agree)

/-- A new order keeps the dimensions. -/
theorem permute?_eq_some {i order k : Indices} (h : i.Distinct) (ho : order.Distinct)
    (found : i.permute? order = some k) :
    k.names = order.names ∧ k.Distinct ∧ ∀ d, d ∈ k.dims ↔ d ∈ i.dims := by
  rw [permute?] at found
  split at found
  case isFalse => cases found
  case isTrue same =>
    obtain ⟨names, sub⟩ := extract?_eq_some h found
    have distinct : k.Distinct := by rw [Distinct, names]; exact ho
    refine ⟨names, distinct, fun d => ⟨sub d, fun hd => ?_⟩⟩
    have named : d.name ∈ k.names :=
      names ▸ ((sameNames_iff h ho).mp same d.name).mp (mem_names_of_mem hd)
    obtain ⟨e, he, name⟩ := mem_names.mp named
    exact h.dim_unique (sub e he) hd name ▸ he

theorem ofNames_eq_ok {names : List Char} {shape : Shape} {i : Indices}
    (h : ofNames names shape = .ok i) :
    i = ⟨List.zipWith Dim.mk names shape⟩ ∧ i.Distinct ∧ i.names = names ∧ i.shape = shape := by
  have fields (names : List Char) (shape : Shape) (rank : names.length = shape.length) :
      (List.zipWith Dim.mk names shape).map Dim.name = names ∧
        (List.zipWith Dim.mk names shape).map Dim.extent = shape := by
    induction names generalizing shape with
    | nil => simp [List.length_eq_zero_iff.mp rank.symm]
    | cons name names ih =>
      cases shape with
      | nil => cases rank
      | cons n shape =>
        obtain ⟨ihn, ihs⟩ := ih shape (by simpa using rank)
        simp [ihn, ihs]
  rw [ofNames] at h
  split at h
  case isTrue => cases h
  case isFalse rank =>
    split at h
    case isFalse => cases h
    case isTrue nodup =>
      obtain ⟨order, extents⟩ := fields names shape (by omega)
      cases h
      exact ⟨rfl, by rw [Distinct, Indices.names, order]; exact nodup, order, extents⟩

end TensorKernel.Indices
