import TensorKernel.Layout
import TensorKernel.Proofs.Pattern.Support

/-!
Which entries a layout stores: those in its box. A layout of a whole shape stores every entry of the
shape, and the box of a pattern, aligned or not, holds all its non-zero entries.
-/

namespace TensorKernel

theorem Shape.holds_iff {s : Shape} {e : Entry} :
    holds s e = true ↔ List.Forall₂ (fun n k => k < n) s e := by
  induction s generalizing e with
  | nil => cases e <;> simp [holds]
  | cons n ns ih => cases e <;> simp [holds, ih]

theorem Shape.length_unravel (s : Shape) (o : Nat) : (unravel s o).length = s.length := by
  induction s generalizing o with
  | nil => rfl
  | cons n ns ih => rw [unravel, List.length_cons, ih, List.length_cons]

theorem Range.contains_iff {r : Range} {index : Nat} :
    r.contains index = true ↔ r.start ≤ index ∧ index < r.stop := by
  simp [contains]

theorem Range.contains_aligned {r : Range} {index : Nat} (h : r.contains index = true)
    (width : Nat) : (r.aligned width).contains index = true := by
  rw [contains_iff] at h
  unfold aligned
  split
  · exact contains_iff.mpr h
  · next wide =>
    have start : r.start / width * width ≤ r.start := Nat.div_mul_le_self r.start width
    have stop : r.stop ≤ (r.stop + width - 1) / width * width := by
      have rounded := Nat.lt_div_mul_add (a := r.stop + width - 1) (b := width) (by omega)
      omega
    refine contains_iff.mpr ⟨?_, ?_⟩ <;> dsimp only <;> omega

namespace Box

theorem contains_iff {b : Box} {e : Entry} :
    b.contains e = true ↔ List.Forall₂ (fun r k => Range.contains r k = true) b.ranges e := by
  obtain ⟨ranges⟩ := b
  induction ranges generalizing e with
  | nil => cases e <;> simp [contains, rank]
  | cons r rs ih =>
    cases e with
    | nil => simp [contains, rank]
    | cons k ks =>
      rw [List.forall₂_cons, ← ih]
      change (decide (ks.length + 1 = rs.length + 1) &&
          (r.contains k && (List.zipWith Range.contains rs ks).all id)) = true ↔
        r.contains k = true ∧
          (decide (ks.length = rs.length) && (List.zipWith Range.contains rs ks).all id) = true
      simp only [Nat.add_right_cancel_iff, Bool.and_eq_true, decide_eq_true_eq]
      exact and_left_comm

theorem contains_ofShape (s : Shape) (e : Entry) : (ofShape s).contains e = Shape.holds s e := by
  rw [Bool.eq_iff_iff, contains_iff, Shape.holds_iff, ofShape, List.forall₂_map_left_iff]
  simp only [Range.contains_iff, Nat.zero_le, true_and]

theorem contains_alignFirst {b : Box} {e : Entry} (h : b.contains e = true) (width : Nat) :
    (b.alignFirst width).contains e = true := by
  rw [contains_iff] at h ⊢
  unfold alignFirst
  split
  · exact h
  · next first rest ranges =>
    rw [ranges] at h
    cases h with
    | cons inside others => exact .cons (Range.contains_aligned inside width) others

end Box

namespace Pattern

def Within (bounds : List (Nat × Nat)) (e : Entry) : Prop :=
  List.Forall₂ (fun b k => b.1 ≤ k ∧ k ≤ b.2) bounds e

theorem length_widen {bounds : List (Nat × Nat)} {e : Entry} (rank : bounds.length = e.length) :
    (widen bounds e).length = e.length := by
  rw [widen, List.length_zipWith, rank, Nat.min_self]

theorem within_widen {bounds : List (Nat × Nat)} {e : Entry} (rank : bounds.length = e.length) :
    Within (widen bounds e) e ∧ ∀ e', Within bounds e' → Within (widen bounds e) e' := by
  induction bounds generalizing e with
  | nil =>
    obtain rfl := List.length_eq_zero_iff.mp rank.symm
    exact ⟨.nil, fun _ h => h⟩
  | cons b bs ih =>
    cases e with
    | nil => cases rank
    | cons k ks =>
      obtain ⟨here, before⟩ := ih (Nat.add_right_cancel rank)
      refine ⟨.cons ⟨Nat.min_le_right .., Nat.le_max_right ..⟩ here, fun e' h => ?_⟩
      cases h with
      | cons inside others =>
        exact .cons ⟨(Nat.min_le_left ..).trans inside.1, inside.2.trans (Nat.le_max_left ..)⟩
          (before _ others)

/-- Bounds that are widened by entries hold these entries and all that they held before. -/
theorem within_foldl_widen {bounds : List (Nat × Nat)} {es : List Entry}
    (rank : ∀ e ∈ es, e.length = bounds.length) :
    (∀ e, Within bounds e → Within (es.foldl widen bounds) e) ∧
      ∀ e ∈ es, Within (es.foldl widen bounds) e := by
  induction es generalizing bounds with
  | nil => exact ⟨fun _ => id, by simp⟩
  | cons first rest ih =>
    obtain ⟨length, others⟩ := List.forall_mem_cons.mp rank
    obtain ⟨here, before⟩ := within_widen length.symm
    have ranks : ∀ e ∈ rest, e.length = (widen bounds first).length := by
      intro e he
      rw [length_widen length.symm, length, others e he]
    obtain ⟨start, each⟩ := ih ranks
    exact ⟨fun e h => start e (before e h), List.forall_mem_cons.mpr ⟨start first here, each⟩⟩

/-- The bounds of a pattern hold its non-zero entries. -/
theorem within_bounds {p : Pattern} {e : Entry} (h : p.isNonzero e = true) :
    ∃ bounds, p.bounds? = some bounds ∧ Within bounds e := by
  have inside := holds_of_isNonzero h
  have listed := mem_entries_of_isNonzero h
  cases p with
  | dense shape =>
    have below := Shape.holds_iff.mp inside
    have positive : ¬shape.contains 0 = true := by
      rw [List.contains_iff_mem]
      intro zero
      obtain ⟨k, -, lt⟩ := exists_of_forall₂_right below.flip zero
      exact Nat.not_lt_zero k lt
    refine ⟨_, if_neg positive, ?_⟩
    rw [Within, List.forall₂_map_left_iff]
    exact below.imp fun n k lt => ⟨Nat.zero_le k, by dsimp only; omega⟩
  | masked shape mask =>
    have rank : ∀ e ∈ (masked shape mask).entries, e.length = shape.length := by
      intro e he
      obtain ⟨o, -, rfl⟩ := List.mem_map.mp he
      exact Shape.length_unravel shape o
    rw [bounds?]
    split
    · next none => simp [none] at listed
    · next first rest entries =>
      rw [entries] at listed rank
      obtain ⟨length, others⟩ := List.forall_mem_cons.mp rank
      have ranks : ∀ e ∈ rest, e.length = (first.map fun k => (k, k)).length := by
        intro e he
        rw [others e he, List.length_map, length]
      obtain ⟨start, each⟩ := within_foldl_widen ranks
      refine ⟨_, rfl, ?_⟩
      rcases List.mem_cons.mp listed with rfl | later
      · apply start
        rw [Within, List.forall₂_map_left_iff, List.forall₂_same]
        exact fun k _ => ⟨Nat.le_refl k, Nat.le_refl k⟩
      · exact each e later

end Pattern

namespace Box

/-- The box of a pattern holds its non-zero entries. -/
theorem contains_ofPattern {p : Pattern} {e : Entry} (h : p.isNonzero e = true) :
    (ofPattern p).contains e = true := by
  obtain ⟨bounds, known, within⟩ := Pattern.within_bounds h
  rw [contains_iff, ofPattern, known, List.forall₂_map_left_iff]
  exact within.imp fun b k inside =>
    Range.contains_iff.mpr ⟨inside.1, Nat.lt_succ_of_le inside.2⟩

theorem contains_ofPattern_dense (s : Shape) (e : Entry) :
    (ofPattern (.dense s)).contains e = Shape.holds s e := by
  rw [Bool.eq_iff_iff]
  constructor
  · intro h
    rw [contains_iff, ofPattern, Pattern.bounds?] at h
    rw [Shape.holds_iff]
    split at h
    · next bounds known =>
      split at known
      · cases known
      · next positive =>
        obtain rfl := Option.some.inj known
        rw [List.map_map, List.forall₂_map_left_iff] at h
        refine forall₂_imp_of_mem h fun n hn k inside => ?_
        have below := (Range.contains_iff.mp inside).2
        have nonzero : n ≠ 0 := by
          rintro rfl
          exact positive (List.contains_iff_mem.mpr hn)
        dsimp only [Function.comp] at below
        omega
    · rw [List.forall₂_map_left_iff] at h
      refine h.imp fun n k inside => ?_
      exact absurd (Range.contains_iff.mp inside).2 (Nat.not_lt_zero k)
  · intro h
    exact contains_ofPattern (p := .dense s) (by rw [Pattern.isNonzero_dense, h])

end Box

namespace Layout

theorem isSome_address? (l : Layout) (e : Entry) : (l.address? e).isSome = l.box.contains e := by
  rw [address?]
  split <;> simp [*]

theorem isSome_address?_full (s : Shape) (e : Entry) :
    ((full s).address? e).isSome = Shape.holds s e := by
  rw [isSome_address?, full, ofBox, Box.contains_ofShape]

/-- Alignment does not take entries away. -/
theorem isSome_address?_ofPattern {p : Pattern} {e : Entry} (h : p.isNonzero e = true)
    (width : Option Nat) : ((ofPattern p width).address? e).isSome = true := by
  rw [isSome_address?]
  cases width with
  | none => exact Box.contains_ofPattern h
  | some width => exact Box.contains_alignFirst (Box.contains_ofPattern h) width

end Layout

end TensorKernel
