import TensorKernel.Proofs.Layout.Permutation
import TensorKernel.Proofs.Pattern.Bounds

/-!
The box of a pattern is the tightest one around its non-zero entries. In every dimension the first
and the last index of its range are coordinates of entries, so that a box around the entries has to
contain this range. With that the box depends on the shape and on the entries alone, and not on the
form in which the pattern is stored.

* `Encloses`, `Inside`: a box around a pattern, and a box in another box;
* `inside_of_encloses`: the box of a pattern lies in every box around the pattern;
* `ofPattern_congr`: patterns with the same entries have one box;
* `ofPattern_tightest`: the boxes around a pattern are those around its box.
-/

namespace TensorKernel.Box

def Encloses (b : Box) (p : Pattern) : Prop := ∀ e, p.isNonzero e = true → b.contains e = true

/-- In every dimension, the range of the first box lies in the range of the second one. -/
def Inside (b b' : Box) : Prop :=
  List.Forall₂ (fun r r' => r'.start ≤ r.start ∧ r.stop ≤ r'.stop) b.ranges b'.ranges

instance (b b' : Box) : Decidable (b.Inside b') :=
  inferInstanceAs (Decidable (List.Forall₂ _ _ _))

variable {b b' : Box}

theorem Inside.antisymm (h : b.Inside b') (h' : b'.Inside b) : b = b' := by
  obtain ⟨rs⟩ := b
  obtain ⟨rs'⟩ := b'
  unfold Inside at h h'
  dsimp only at h h'
  congr 1
  induction h with
  | nil => rfl
  | @cons r r' rs rs' first _ ih =>
    obtain ⟨first', rest'⟩ := List.forall₂_cons.mp h'
    have start : r.start = r'.start := by omega
    have stop : r.stop = r'.stop := by omega
    have same : r = r' := by cases r; cases r'; simp_all
    rw [same, ih rest']

theorem contains_of_inside (h : b.Inside b') {e : Entry} (he : b.contains e = true) :
    b'.contains e = true := by
  rw [contains_iff] at he ⊢
  refine (forall₂_comp h.flip he).imp ?_
  rintro r' k ⟨r, ⟨start, stop⟩, held⟩
  rw [Range.contains_iff] at held ⊢
  omega

variable {p p' : Pattern}

theorem encloses_ofPattern (p : Pattern) : (ofPattern p).Encloses p :=
  fun _ nonzero => contains_ofPattern nonzero

/-- A box around a pattern has a range in every dimension of the pattern, unless there is no entry
to tell. -/
theorem rank_of_encloses (nonempty : ∃ e, p.isNonzero e = true) (h : b.Encloses p) :
    b.rank = p.shape.length := by
  obtain ⟨e, nonzero⟩ := nonempty
  rw [← Pattern.length_of_isNonzero nonzero]
  exact (contains_iff.mp (h e nonzero)).length_eq

/-- Both ends of a range of the pattern are coordinates of entries, and these lie in the box. -/
theorem inside_of_encloses (sized : p.Sized) (nonempty : ∃ e, p.isNonzero e = true)
    (h : b.Encloses p) : (ofPattern p).Inside b := by
  have rank := rank_of_encloses nonempty h
  obtain ⟨e, nonzero⟩ := nonempty
  obtain ⟨bounds, known, -⟩ := Pattern.within_bounds nonzero
  have length := Pattern.length_bounds known
  have held {k c : Nat} {r : Range} (hr : b.ranges[k]? = some r) (hc : c ∈ p.coordinates k) :
      r.start ≤ c ∧ c < r.stop := by
    obtain ⟨e, nonzero, coordinate⟩ := hc
    exact Range.contains_iff.mp (forall₂_getElem? (contains_iff.mp (h e nonzero)) hr coordinate)
  rw [Inside, ofPattern, known, List.forall₂_map_left_iff, List.forall₂_iff_get]
  refine ⟨length.trans rank.symm, fun k hk hk' => ?_⟩
  have bound := List.getElem?_eq_getElem hk
  have range := List.getElem?_eq_getElem hk'
  have low := held range (Pattern.isLeast_bounds sized known bound).1
  have high := held range (Pattern.isGreatest_bounds sized known bound).1
  exact ⟨low.1, high.2⟩

/-- A pattern without entries has the range from zero to zero in every dimension. -/
theorem ofPattern_of_zero (sized : p.Sized) (zero : ∀ e, p.isNonzero e = false) :
    ofPattern p = ⟨p.shape.map fun _ => ⟨0, 0⟩⟩ := by
  rw [ofPattern, (Pattern.bounds?_eq_none sized).mpr zero]

/-- Patterns of one shape with the same entries have the same box. -/
theorem ofPattern_congr (hp : p.Sized) (hp' : p'.Sized) (shape : p.shape = p'.shape)
    (same : ∀ e, p.isNonzero e = p'.isNonzero e) : ofPattern p = ofPattern p' := by
  by_cases nonempty : ∃ e, p.isNonzero e = true
  · have nonempty' : ∃ e, p'.isNonzero e = true := by simpa only [same] using nonempty
    have around : (ofPattern p').Encloses p := fun e nonzero =>
      encloses_ofPattern p' e (same e ▸ nonzero)
    have around' : (ofPattern p).Encloses p' := fun e nonzero =>
      encloses_ofPattern p e (same e ▸ nonzero)
    exact (inside_of_encloses hp nonempty around).antisymm
      (inside_of_encloses hp' nonempty' around')
  · have zero : ∀ e, p.isNonzero e = false := by simpa using nonempty
    have zero' : ∀ e, p'.isNonzero e = false := fun e => same e ▸ zero e
    rw [ofPattern_of_zero hp zero, ofPattern_of_zero hp' zero', shape]

/-- The boxes around a pattern with entries are those around its box, without entries its box has
only empty ranges, and a full mask has the box of a dense pattern. -/
theorem ofPattern_tightest (sized : p.Sized) :
    ((∃ e, p.isNonzero e = true) →
        (ofPattern p).Encloses p ∧ ∀ b, b.Encloses p ↔ (ofPattern p).Inside b) ∧
      ((∀ e, p.isNonzero e = false) →
        (ofPattern p).rank = p.shape.length ∧ ∀ r ∈ (ofPattern p).ranges, r.size = 0) ∧
      ∀ shape, ofPattern (.masked shape (List.replicate (Shape.volume shape) true)) =
        ofPattern (.dense shape) := by
  refine ⟨fun nonempty => ⟨encloses_ofPattern p, fun b => ⟨?_, ?_⟩⟩, fun zero => ?_,
    fun shape => ?_⟩
  · exact inside_of_encloses sized nonempty
  · intro inside e nonzero
    exact contains_of_inside inside (encloses_ofPattern p e nonzero)
  · refine ⟨rank_ofPattern p, ?_⟩
    rw [ofPattern_of_zero sized zero, List.forall_mem_map]
    intro _ _
    rfl
  · refine ofPattern_congr List.length_replicate trivial rfl fun e => ?_
    rw [Pattern.isNonzero_masked, Pattern.isNonzero_dense]
    cases held : Shape.holds shape e with
    | false => rfl
    | true => simp [Shape.offset_lt_volume held]

/-- Two entries of a matrix with three rows. A box around them can have more rows, but its columns
have to start at theirs. -/
theorem ofPattern_tightest_corners :
    let p := Pattern.ofOffsets [3, 4] [4, 11]
    p.Sized ∧ p.isNonzero [1, 1] = true ∧ ofPattern p = ⟨[⟨1, 3⟩, ⟨1, 4⟩]⟩ ∧
      Encloses ⟨[⟨0, 5⟩, ⟨1, 4⟩]⟩ p ∧ ¬Encloses ⟨[⟨0, 5⟩, ⟨2, 4⟩]⟩ p := by
  have sized : (Pattern.ofOffsets [3, 4] [4, 11]).Sized := Pattern.sized_ofOffsets _ _
  have nonzero : (Pattern.ofOffsets [3, 4] [4, 11]).isNonzero [1, 1] = true := by decide
  have around := ((ofPattern_tightest sized).1 ⟨_, nonzero⟩).2
  exact ⟨sized, nonzero, by decide, (around _).mpr (by decide), by rw [around]; decide⟩

end TensorKernel.Box
