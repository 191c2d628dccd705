import Mathlib.Algebra.BigOperators.Group.Finset.Basic
import Mathlib.Algebra.BigOperators.Group.Finset.Sigma
import Mathlib.Algebra.BigOperators.Pi
import Mathlib.Algebra.BigOperators.Ring.Finset
import TensorKernel.Pattern.Basic
import TensorKernel.Proofs.Index.Dims

/-!
Points give every name a coordinate; an entry of a tensor is what a point says about its index
names. Functions of points are summed over dimensions, in any order.
-/

namespace TensorKernel

/-- A coordinate for every index name. -/
abbrev Point := Char → Nat

namespace Indices

def entryAt (i : Indices) (p : Point) : Entry := i.names.map p

/-- The point of an entry; other names are at the origin. -/
def pointOf (i : Indices) (e : Entry) : Point := fun name =>
  ((i.find? name).bind fun position => e[position]?).getD 0

/-- A point with all names but those of an index set moved to the origin. -/
def restrict (i : Indices) (p : Point) : Point := fun name => if i.contains name then p name else 0

theorem pointOf_entryAt (i : Indices) (p : Point) : i.pointOf (i.entryAt p) = i.restrict p := by
  funext name
  unfold pointOf restrict
  by_cases h : name ∈ i.names
  · have position : i.names.idxOf name < i.names.length := List.idxOf_lt_length_of_mem h
    simp [find?_of_mem h, entryAt, h, position]
  · simp [find?_eq_none h, h]

theorem restrict_of_mem {i : Indices} {name : Char} (h : name ∈ i.names) (p : Point) :
    i.restrict p name = p name := by
  simp [restrict, h]

theorem entryAt_congr {i : Indices} {p q : Point} (same : ∀ name ∈ i.names, p name = q name) :
    i.entryAt p = i.entryAt q :=
  List.map_congr_left same

theorem length_entryAt (i : Indices) (p : Point) : (i.entryAt p).length = i.size := by
  rw [entryAt, List.length_map, length_names]

theorem entryAt_pointOf {i : Indices} (h : i.Distinct) {e : Entry} (rank : e.length = i.size) :
    i.entryAt (i.pointOf e) = e := by
  apply List.ext_getElem
  · rw [length_entryAt, rank]
  · intro k hk he
    have hn : k < i.names.length := by simpa [entryAt] using hk
    have place : i.names.idxOf i.names[k] = k := h.idxOf_getElem k hn
    simp [entryAt, pointOf, find?_of_mem (List.getElem_mem hn), place, he]

end Indices

/-- The value depends on the coordinates of the given names alone. -/
def ReadsOnly {R : Type} (names : List Char) (f : Point → R) : Prop :=
  ∀ p q : Point, (∀ name ∈ names, p name = q name) → f p = f q

theorem ReadsOnly.mono {R : Type} {names more : List Char} {f : Point → R}
    (h : ReadsOnly names f) (sub : ∀ name ∈ names, name ∈ more) : ReadsOnly more f :=
  fun p q same => h p q fun name hn => same name (sub name hn)

section
variable {R : Type} [CommSemiring R]

def sumOver : List Dim → (Point → R) → Point → R
  | [], f => f
  | d :: ds, f => fun p =>
    ∑ v ∈ Finset.range d.extent, sumOver ds f (Function.update p d.name v)

@[simp] theorem sumOver_nil (f : Point → R) : sumOver [] f = f := rfl

theorem sumOver_append (ds es : List Dim) (f : Point → R) :
    sumOver (ds ++ es) f = sumOver ds (sumOver es f) := by
  induction ds with
  | nil => rfl
  | cons d ds ih => funext p; simp [sumOver, ih]

theorem sumOver_perm {ds es : List Dim} (perm : ds.Perm es) (distinct : (ds.map Dim.name).Nodup)
    (f : Point → R) : sumOver ds f = sumOver es f := by
  induction perm with
  | nil => rfl
  | cons d _ ih =>
    funext p
    simp only [sumOver, ih (List.nodup_cons.mp distinct).2]
  | swap d e ds =>
    funext p
    have ne : d.name ≠ e.name := by
      intro same
      simp [same] at distinct
    simp only [sumOver]
    rw [Finset.sum_comm]
    refine Finset.sum_congr rfl fun v _ => Finset.sum_congr rfl fun w _ => ?_
    rw [Function.update_comm ne]
  | trans first _ ih₁ ih₂ =>
    rw [ih₁ distinct, ih₂ ((first.map Dim.name).nodup_iff.mp distinct)]

/-- Two lists without repeated names that hold the same dimensions give the same sum. -/
theorem sumOver_eq_of_mem {ds es : List Dim} (hd : (ds.map Dim.name).Nodup)
    (he : (es.map Dim.name).Nodup) (same : ∀ d, d ∈ ds ↔ d ∈ es) (f : Point → R) :
    sumOver ds f = sumOver es f :=
  sumOver_perm ((List.perm_ext_iff_of_nodup (.of_map _ hd) (.of_map _ he)).mpr same) hd f

/-- A factor that does not read the names of a sum moves out of it. -/
theorem sumOver_mul_left {names : List Char} {g : Point → R} (reads : ReadsOnly names g)
    {ds : List Dim} (free : ∀ d ∈ ds, d.name ∉ names) (f : Point → R) :
    sumOver ds (g * f) = g * sumOver ds f := by
  induction ds with
  | nil => rfl
  | cons d ds ih =>
    funext p
    rw [Pi.mul_apply, sumOver, sumOver, Finset.mul_sum]
    refine Finset.sum_congr rfl fun v _ => ?_
    have kept : g (Function.update p d.name v) = g p := by
      refine reads _ _ fun name hn => Function.update_of_ne ?_ v p
      rintro rfl
      exact free d List.mem_cons_self hn
    rw [ih fun e he => free e (List.mem_cons_of_mem d he), Pi.mul_apply, kept]

theorem sumOver_mul_right {names : List Char} {g : Point → R} (reads : ReadsOnly names g)
    {ds : List Dim} (free : ∀ d ∈ ds, d.name ∉ names) (f : Point → R) :
    sumOver ds (f * g) = sumOver ds f * g := by
  rw [mul_comm f g, sumOver_mul_left reads free, mul_comm g]

/-- A sum reads what its summand reads, less the names that are summed over. -/
theorem sumOver_readsOnly {names : List Char} {f : Point → R} (reads : ReadsOnly names f)
    (ds : List Dim) :
    ∀ p q : Point, (∀ name ∈ names, name ∉ ds.map Dim.name → p name = q name) →
      sumOver ds f p = sumOver ds f q := by
  induction ds with
  | nil => exact fun p q same => reads p q fun name hn => same name hn (by simp)
  | cons d ds ih =>
    intro p q same
    refine Finset.sum_congr rfl fun v _ => ih _ _ fun name hn summed => ?_
    by_cases h : name = d.name
    · subst h
      simp
    · rw [Function.update_of_ne h, Function.update_of_ne h]
      exact same name hn (by simp [h, summed])

theorem ReadsOnly.sumOver {names : List Char} {f : Point → R} (h : ReadsOnly names f)
    (ds : List Dim) : ReadsOnly names (sumOver ds f) :=
  fun p q same => sumOver_readsOnly h ds p q fun name hn _ => same name hn

/-- A sum that is not zero has a summand that is not zero. -/
theorem exists_of_sumOver_ne_zero {ds : List Dim} {f : Point → R} {p : Point}
    (h : sumOver ds f p ≠ 0) :
    ∃ q : Point, (∀ name, name ∉ ds.map Dim.name → q name = p name) ∧ f q ≠ 0 := by
  induction ds generalizing p with
  | nil => exact ⟨p, fun _ _ => rfl, h⟩
  | cons d ds ih =>
    obtain ⟨v, -, summand⟩ := Finset.exists_ne_zero_of_sum_ne_zero h
    obtain ⟨q, same, value⟩ := ih summand
    refine ⟨q, fun name free => ?_, value⟩
    rw [List.map_cons, List.mem_cons, not_or] at free
    rw [same name free.2, Function.update_of_ne free.1]

theorem ReadsOnly.mul {names : List Char} {f g : Point → R} (hf : ReadsOnly names f)
    (hg : ReadsOnly names g) : ReadsOnly names (f * g) :=
  fun p q same => by rw [Pi.mul_apply, Pi.mul_apply, hf p q same, hg p q same]

theorem ReadsOnly.prod {names : List Char} {fs : List (Point → R)}
    (h : ∀ f ∈ fs, ReadsOnly names f) : ReadsOnly names fs.prod := by
  induction fs with
  | nil => exact fun p q _ => rfl
  | cons f fs ih =>
    rw [List.prod_cons]
    exact (h f List.mem_cons_self).mul (ih fun g hg => h g (List.mem_cons_of_mem f hg))

theorem sum_apply {α : Type} (fs : List (α → R)) (a : α) :
    fs.sum a = (fs.map fun f => f a).sum := by
  induction fs with
  | nil => rfl
  | cons f fs ih => rw [List.sum_cons, Pi.add_apply, ih, List.map_cons, List.sum_cons]

end

end TensorKernel
