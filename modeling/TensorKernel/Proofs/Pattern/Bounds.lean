import Mathlib.Order.Bounds.Basic
import TensorKernel.Proofs.Pattern.Exactness

/-!
The bounds of a pattern are tight. In every dimension the lower bound is the least coordinate of a
non-zero entry and the upper bound the greatest one, whether the entries are gone through one by
one or the pattern is dense. Only a pattern without non-zero entries has no bounds.

* `coordinates`: the coordinates of the non-zero entries in one dimension;
* `Attained`: each bound is a coordinate of an entry, as `widen` keeps it;
* `isLeast_bounds`, `isGreatest_bounds`, `bounds?_eq_none`: the bounds of a pattern.
-/

namespace TensorKernel.Pattern

def coordinates (p : Pattern) (k : Nat) : Set Nat := {c | ∃ e, p.isNonzero e = true ∧ e[k]? = some c}

/-- Each bound is a coordinate of one of the entries. -/
def Attained (entries : List Entry) (bounds : List (Nat × Nat)) : Prop :=
  ∀ k low high : Nat, bounds[k]? = some (low, high) →
    (∃ e ∈ entries, e[k]? = some low) ∧ ∃ e ∈ entries, e[k]? = some high

section
variable {entries : List Entry} {bounds : List (Nat × Nat)}

theorem Attained.widen {e : Entry} (h : Attained entries bounds) (listed : e ∈ entries) :
    Attained entries (Pattern.widen bounds e) := by
  intro k low high there
  obtain ⟨⟨low', high'⟩, c, before, here, same⟩ := List.getElem?_zipWith_eq_some.mp there
  obtain ⟨rfl, rfl⟩ : min low' c = low ∧ max high' c = high := by simpa using same
  obtain ⟨least, greatest⟩ := h k low' high' before
  constructor
  · rcases min_choice low' c with choice | choice <;> rw [choice]
    · exact least
    · exact ⟨e, listed, here⟩
  · rcases max_choice high' c with choice | choice <;> rw [choice]
    · exact greatest
    · exact ⟨e, listed, here⟩

theorem Attained.foldl_widen {es : List Entry} (h : Attained entries bounds)
    (listed : ∀ e ∈ es, e ∈ entries) : Attained entries (es.foldl Pattern.widen bounds) := by
  induction es generalizing bounds with
  | nil => exact h
  | cons e es ih =>
    obtain ⟨first, rest⟩ := List.forall_mem_cons.mp listed
    exact ih (h.widen first) rest

theorem attained_single {e : Entry} (listed : e ∈ entries) :
    Attained entries (e.map fun c => (c, c)) := by
  intro k low high there
  rw [List.getElem?_map, Option.map_eq_some_iff] at there
  obtain ⟨c, here, same⟩ := there
  obtain ⟨rfl, rfl⟩ := Prod.mk.inj same
  exact ⟨⟨e, listed, here⟩, e, listed, here⟩

end

variable {p : Pattern} {bounds : List (Nat × Nat)}

/-- A dense pattern without an extent of zero is non-zero at every entry below its extents. -/
theorem mem_entries_dense {shape : Shape} (positive : ∀ n ∈ shape, 0 < n) {f : Nat → Nat}
    (below : ∀ n, 0 < n → f n < n) : shape.map f ∈ (dense shape).entries := by
  refine mem_entries_of_isNonzero ?_
  rw [isNonzero_dense, Shape.holds_iff, List.forall₂_map_right_iff, List.forall₂_same]
  exact fun n hn => below n (positive n hn)

theorem bounds?_dense {shape : Shape} (h : (dense shape).bounds? = some bounds) :
    (∀ n ∈ shape, 0 < n) ∧ bounds = shape.map fun n => (0, n - 1) := by
  rw [bounds?] at h
  split at h
  case isTrue => cases h
  case isFalse nonzero =>
    refine ⟨fun n hn => Nat.pos_of_ne_zero ?_, (Option.some.inj h).symm⟩
    rintro rfl
    exact nonzero (List.contains_iff_mem.mpr hn)

theorem attained_bounds (h : p.bounds? = some bounds) : Attained p.entries bounds := by
  cases p with
  | dense shape =>
    obtain ⟨positive, rfl⟩ := bounds?_dense h
    intro k low high there
    rw [List.getElem?_map, Option.map_eq_some_iff] at there
    obtain ⟨n, here, same⟩ := there
    obtain ⟨rfl, rfl⟩ := Prod.mk.inj same
    have coordinate (f : Nat → Nat) : (shape.map f)[k]? = some (f n) := by
      rw [List.getElem?_map, here, Option.map_some]
    exact ⟨⟨_, mem_entries_dense positive fun _ hn => hn, coordinate fun _ => 0⟩,
      _, mem_entries_dense positive fun _ hn => Nat.sub_one_lt_of_lt hn, coordinate (· - 1)⟩
  | masked shape mask =>
    rw [bounds?] at h
    split at h
    case h_1 => cases h
    case h_2 e rest entries =>
      obtain rfl := Option.some.inj h
      rw [entries]
      exact (attained_single List.mem_cons_self).foldl_widen fun e => List.mem_cons_of_mem _

/-- Bounds come from entries. -/
theorem exists_of_bounds (sized : p.Sized) (h : p.bounds? = some bounds) :
    ∃ e, p.isNonzero e = true := by
  cases p with
  | dense shape =>
    obtain ⟨positive, -⟩ := bounds?_dense h
    exact ⟨_, (mem_entries sized).mp (mem_entries_dense positive fun _ hn => hn)⟩
  | masked shape mask =>
    rw [bounds?] at h
    split at h
    case h_1 => cases h
    case h_2 e rest entries => exact ⟨e, (mem_entries sized).mp (entries ▸ List.mem_cons_self)⟩

theorem bounds?_eq_none (sized : p.Sized) :
    p.bounds? = none ↔ ∀ e, p.isNonzero e = false := by
  constructor
  · intro none e
    rw [← Bool.not_eq_true]
    intro nonzero
    obtain ⟨bounds, known, -⟩ := within_bounds nonzero
    cases none.symm.trans known
  · intro zero
    rw [Option.eq_none_iff_forall_ne_some]
    intro bounds known
    obtain ⟨e, nonzero⟩ := exists_of_bounds sized known
    cases (zero e).symm.trans nonzero

section
variable {k low high : Nat} (sized : p.Sized) (h : p.bounds? = some bounds)
  (there : bounds[k]? = some (low, high))
include sized h there

theorem isLeast_bounds : IsLeast (p.coordinates k) low := by
  obtain ⟨⟨e, listed, coordinate⟩, -⟩ := attained_bounds h k low high there
  refine ⟨⟨e, (mem_entries sized).mp listed, coordinate⟩, ?_⟩
  rintro c ⟨e', nonzero, coordinate'⟩
  obtain ⟨_, known, within⟩ := within_bounds nonzero
  obtain rfl := Option.some.inj (h.symm.trans known)
  exact (forall₂_getElem? within there coordinate').1

theorem isGreatest_bounds : IsGreatest (p.coordinates k) high := by
  obtain ⟨-, e, listed, coordinate⟩ := attained_bounds h k low high there
  refine ⟨⟨e, (mem_entries sized).mp listed, coordinate⟩, ?_⟩
  rintro c ⟨e', nonzero, coordinate'⟩
  obtain ⟨_, known, within⟩ := within_bounds nonzero
  obtain rfl := Option.some.inj (h.symm.trans known)
  exact (forall₂_getElem? within there coordinate').2

end

end TensorKernel.Pattern
