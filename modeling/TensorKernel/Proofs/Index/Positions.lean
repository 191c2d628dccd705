import Mathlib.Data.List.Perm.Lattice
import Mathlib.Data.List.Range
import Mathlib.Data.List.Sort
import TensorKernel.Pattern.Basic
import TensorKernel.Proofs.Index.Dims
import TensorKernel.Proofs.Success

/-!
The storage positions of a part of an index set: one for each name, in ascending order. If they
follow each other, the names of the part stand together.

* `positions?_eq_some`: the positions as a sorted list;
* `Adjacent.split`, `adjacent_of_split`: names that stand together.
-/

namespace TensorKernel

/-- Each position but the first one comes right after the one before it. -/
def Successive (ps : List Nat) : Prop := ps.IsChain fun p q => q = p + 1

instance (ps : List Nat) : Decidable (Successive ps) :=
  inferInstanceAs (Decidable (ps.IsChain fun p q => q = p + 1))

theorem successive_range' (p n : Nat) : Successive (List.range' p n) :=
  List.isChain_range' p n 1

theorem Successive.eq_range' {p : Nat} {ps : List Nat} (h : Successive (p :: ps)) :
    p :: ps = List.range' p (ps.length + 1) := by
  induction ps generalizing p with
  | nil => rfl
  | cons q ps ih =>
    obtain ⟨follows, rest⟩ := List.isChain_cons_cons.mp h
    rw [List.length_cons, List.range'_succ, ← follows, ← ih rest]

theorem Successive.exists_eq_range' {ps : List Nat} (h : Successive ps) :
    ∃ p n, ps = List.range' p n := by
  cases ps with
  | nil => exact ⟨0, 0, rfl⟩
  | cons p ps => exact ⟨p, _, h.eq_range'⟩

/-- Values at positions that follow each other are a segment of all values. -/
theorem Pattern.pick_range' {α : Type} (values : List α) (p n : Nat) :
    pick values (List.range' p n) = (values.drop p).take n := by
  induction n generalizing p with
  | zero => simp [pick]
  | succ n ih =>
    rw [List.range'_succ]
    by_cases inside : p < values.length
    · rw [pick, List.filterMap_cons_some (List.getElem?_eq_getElem inside), ← pick, ih,
        List.drop_eq_getElem_cons inside, List.take_succ_cons]
    · have beyond : values.length ≤ p := Nat.not_lt.mp inside
      rw [pick, List.filterMap_cons_none (List.getElem?_eq_none beyond), ← pick, ih,
        List.drop_eq_nil_of_le beyond, List.drop_eq_nil_of_le (Nat.le_succ_of_le beyond),
        List.take_nil, List.take_nil]

namespace Indices

variable {i part : Indices} {ps : List Nat}

/-! ### Sorted positions -/

/-- Numbers below a bound are sorted by asking for each number below it which of them it is. -/
theorem flatMap_filter_range (n : Nat) (found : List Nat) :
    let sorted := (List.range n).flatMap fun position => found.filter (· = position)
    sorted.Perm (found.filter (· < n)) ∧ sorted.Pairwise (· ≤ ·) := by
  induction n with
  | zero => simp
  | succ n ih =>
    obtain ⟨perm, sorted⟩ := ih
    simp only [List.range_succ, List.flatMap_append, List.flatMap_singleton]
    constructor
    · have below : (found.filter (· < n + 1)).filter (· < n) = found.filter (· < n) := by
        rw [List.filter_filter]
        refine List.filter_congr fun q _ => ?_
        rw [← Bool.decide_and, decide_eq_decide]
        omega
      have here : (found.filter (· < n + 1)).filter (fun q => !decide (q < n)) =
          found.filter (· = n) := by
        rw [List.filter_filter]
        refine List.filter_congr fun q _ => ?_
        rw [← decide_not, ← Bool.decide_and, decide_eq_decide]
        omega
      refine (perm.append_right _).trans ?_
      rw [← below, ← here]
      exact List.filter_append_perm _ _
    · rw [List.pairwise_append]
      refine ⟨sorted, ?_, ?_⟩
      · refine List.Pairwise.imp_of_mem ?_ (List.pairwise_of_forall fun _ _ => trivial)
        intro q r hq hr _
        simp only [List.mem_filter, decide_eq_true_eq] at hq hr
        omega
      · intro q hq r hr
        have before := (List.mem_filter.mp (perm.mem_iff.mp hq)).2
        have there := (List.mem_filter.mp hr).2
        simp only [decide_eq_true_eq] at before there
        omega

theorem mapM_find?_eq_some {names : List Char} {found : List Nat} :
    names.mapM i.find? = some found ↔
      (∀ g ∈ names, g ∈ i.names) ∧ found = names.map fun g => i.names.idxOf g := by
  constructor
  · intro all
    have each := mapM_eq_some.mp all
    have place {g : Char} {p : Nat} (here : i.find? g = some p) :
        g ∈ i.names ∧ p = i.names.idxOf g := by
      by_cases mem : g ∈ i.names
      · rw [find?_of_mem mem] at here
        exact ⟨mem, (Option.some.inj here).symm⟩
      · rw [find?_eq_none mem] at here
        cases here
    constructor
    · intro g hg
      obtain ⟨p, -, here⟩ := exists_of_forall₂_right each.flip hg
      exact (place here).1
    · clear all
      induction each with
      | nil => rfl
      | cons here _ ih => rw [List.map_cons, ← ih, (place here).2]
  · rintro ⟨sub, rfl⟩
    rw [mapM_eq_some, List.forall₂_map_right_iff, List.forall₂_same]
    exact fun g hg => find?_of_mem (sub g hg)

/-- The positions of a part are those of its names, sorted; each name has to be there. -/
theorem positions?_eq_some : i.positions? part = some ps ↔
    (∀ g ∈ part.names, g ∈ i.names) ∧
      ps.Perm (part.names.map fun g => i.names.idxOf g) ∧ ps.Pairwise (· ≤ ·) := by
  rw [positions?, Option.map_eq_some_iff]
  simp only [mapM_find?_eq_some]
  have sorted (sub : ∀ g ∈ part.names, g ∈ i.names) :
      let found := part.names.map fun g => i.names.idxOf g
      let sorted := (List.range i.size).flatMap fun position => found.filter (· = position)
      sorted.Perm found ∧ sorted.Pairwise (· ≤ ·) := by
    intro found sorted
    have inside : found.filter (· < i.size) = found := by
      refine List.filter_eq_self.mpr fun q hq => ?_
      obtain ⟨g, hg, rfl⟩ := List.mem_map.mp hq
      rw [decide_eq_true_eq, ← length_names]
      exact List.idxOf_lt_length_of_mem (sub g hg)
    have both := flatMap_filter_range i.size found
    rw [inside] at both
    exact both
  constructor
  · rintro ⟨_, ⟨sub, rfl⟩, rfl⟩
    exact ⟨sub, sorted sub⟩
  · rintro ⟨sub, perm, ascending⟩
    refine ⟨_, ⟨sub, rfl⟩, ?_⟩
    obtain ⟨perm', ascending'⟩ := sorted sub
    exact (perm'.trans perm.symm).eq_of_pairwise' ascending' ascending

/-- The positions of a part follow each other. -/
def Adjacent (i part : Indices) : Prop := ∃ ps, i.positions? part = some ps ∧ Successive ps

/-- Names whose positions follow each other stand together. -/
theorem Adjacent.split (h : i.Adjacent part) :
    ∃ before names after, i.names = before ++ names ++ after ∧ names.Perm part.names := by
  obtain ⟨ps, found, successive⟩ := h
  obtain ⟨sub, perm, -⟩ := positions?_eq_some.mp found
  obtain ⟨p, n, rfl⟩ := successive.exists_eq_range'
  refine ⟨i.names.take p, (i.names.drop p).take n, i.names.drop (p + n), ?_, ?_⟩
  · rw [List.append_assoc, ← List.drop_drop, List.take_append_drop, List.take_append_drop]
  · have back : Pattern.pick i.names (part.names.map fun g => i.names.idxOf g) = part.names := by
      rw [Pattern.pick, List.filterMap_map]
      refine (List.filterMap_congr fun g hg => ?_).trans List.filterMap_some
      exact List.getElem?_idxOf (sub g hg)
    rw [← Pattern.pick_range', ← back]
    exact perm.filterMap _

/-- Where no name is repeated, names that stand together have positions that follow each other. -/
theorem adjacent_of_split (distinct : i.Distinct) {before names after : List Char}
    (split : i.names = before ++ names ++ after) (perm : names.Perm part.names) :
    i.Adjacent part := by
  have places : names.map (fun g => i.names.idxOf g) =
      List.range' before.length names.length := by
    refine List.ext_getElem (by simp) fun k hk _ => ?_
    rw [List.length_map] at hk
    have here : before.length + k < i.names.length := by
      rw [split, List.length_append, List.length_append]
      omega
    have same : i.names[before.length + k] = names[k] := by
      simp [split, hk]
    rw [List.getElem_map, List.getElem_range', ← same, distinct.idxOf_getElem _ here, Nat.one_mul]
  refine ⟨List.range' before.length names.length, positions?_eq_some.mpr ⟨?_, ?_, ?_⟩,
    successive_range' _ _⟩
  · intro g hg
    rw [split, List.mem_append, List.mem_append]
    exact .inl (.inr (perm.mem_iff.mpr hg))
  · rw [← places]
    exact perm.map _
  · exact List.pairwise_le_range'

theorem exists_positions? (sub : ∀ g ∈ part.names, g ∈ i.names) :
    ∃ ps, i.positions? part = some ps := by
  rw [positions?, mapM_find?_eq_some.mpr ⟨sub, rfl⟩]
  exact ⟨_, rfl⟩

end Indices

end TensorKernel
