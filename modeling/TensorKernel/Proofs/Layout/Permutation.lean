import TensorKernel.Proofs.Pattern.Transposition

/-!
Layouts in another order of their dimensions. A layout remembers its box as it was before alignment,
so a permuted layout is aligned anew, and the permutation back gives the layout that was there
before.
-/

namespace TensorKernel

/-- Bounds come one per dimension. -/
theorem Pattern.length_bounds {p : Pattern} {bounds : List (Nat × Nat)}
    (h : p.bounds? = some bounds) : bounds.length = p.shape.length := by
  cases p with
  | dense shape =>
    rw [bounds?] at h
    split at h
    · cases h
    · obtain rfl := Option.some.inj h
      exact List.length_map _
  | masked shape mask =>
    have rank : ∀ e ∈ (masked shape mask).entries, e.length = shape.length := by
      intro e he
      obtain ⟨o, -, rfl⟩ := List.mem_map.mp he
      exact Shape.length_unravel shape o
    have widened (es : List Entry) (bounds : List (Nat × Nat))
        (ranks : ∀ e ∈ es, e.length = shape.length) (start : bounds.length = shape.length) :
        (es.foldl widen bounds).length = shape.length := by
      induction es generalizing bounds with
      | nil => exact start
      | cons e es ih =>
        obtain ⟨first, rest⟩ := List.forall_mem_cons.mp ranks
        refine ih _ rest ?_
        rw [length_widen (start.trans first.symm), first]
    rw [bounds?] at h
    split at h
    · cases h
    · next first rest entries =>
      obtain rfl := Option.some.inj h
      rw [entries, List.forall_mem_cons] at rank
      exact widened rest _ rank.2 (by rw [List.length_map, rank.1])

namespace Box

theorem rank_ofShape (shape : Shape) : (ofShape shape).rank = shape.length :=
  List.length_map _

theorem rank_ofPattern (p : Pattern) : (ofPattern p).rank = p.shape.length := by
  unfold ofPattern
  split
  · next bounds found => exact (List.length_map _).trans (Pattern.length_bounds found)
  · exact List.length_map _

end Box

namespace Layout

/-- A layout with a box of the rank of its shape, from which all else follows. -/
structure Boxed (l : Layout) : Prop where
  rank : l.unaligned.rank = l.shape.length
  aligned : ofBox l.shape l.unaligned l.alignment = l

theorem boxed_full (shape : Shape) : (full shape).Boxed :=
  ⟨Box.rank_ofShape shape, rfl⟩

theorem boxed_ofPattern (p : Pattern) (alignment : Option Nat) :
    (ofPattern p alignment).Boxed :=
  ⟨Box.rank_ofPattern p, rfl⟩

section
variable {κ : Type} [DecidableEq κ] {keys order : List κ} {perm back : List Nat} {l l' : Layout}

/-- The permuted layout has the extents and the ranges of the keys in their new order. -/
theorem permute?_keys (boxed : l.Boxed) (distinct : keys.Nodup)
    (rank : keys.length = l.shape.length) (picked : Pattern.pick? keys perm = some order) :
    ∃ (s : κ → Nat) (r : κ → Range), l = ofBox (keys.map s) ⟨keys.map r⟩ l.alignment ∧
      l.permute? perm = some (ofBox (order.map s) ⟨order.map r⟩ l.alignment) := by
  obtain ⟨s, shape, -⟩ := exists_map_eq distinct rank fun _ => 0
  have ranks : keys.length = l.unaligned.ranges.length := rank.trans boxed.rank.symm
  obtain ⟨r, ranges, -⟩ := exists_map_eq distinct ranks fun _ => default
  have box : l.unaligned = ⟨keys.map r⟩ := by rw [ranges]
  refine ⟨s, r, ?_, ?_⟩
  · rw [shape, ← box, boxed.aligned]
  · rw [permute?, ← shape, box, Box.permute?, Pattern.pick?_map picked, Pattern.pick?_map picked]
    rfl

/-- A permutation and the permutation back cancel out. -/
theorem permute?_back (boxed : l.Boxed) (distinct : keys.Nodup)
    (rank : keys.length = l.shape.length) (picked : Pattern.pick? keys perm = some order)
    (again : Pattern.pick? order back = some keys) (h : l.permute? perm = some l') :
    l'.permute? back = some l := by
  obtain ⟨s, r, same, permuted⟩ := permute?_keys boxed distinct rank picked
  obtain rfl := Option.some.inj (permuted.symm.trans h)
  have box : (⟨order.map r⟩ : Box).permute? back = some ⟨keys.map r⟩ := by
    rw [Box.permute?, Pattern.pick?_map again]
    rfl
  rw [permute?]
  change (Pattern.pick? (order.map s) back).bind _ = _
  rw [Pattern.pick?_map again]
  change ((⟨order.map r⟩ : Box).permute? back).bind _ = _
  rw [box, same]
  rfl

end

end Layout

end TensorKernel
