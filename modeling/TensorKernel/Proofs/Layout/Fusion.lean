import TensorKernel.Proofs.Index.Positions
import TensorKernel.Proofs.Layout.Addressing

/-!
Dimensions that are addressed as one. Strides are column-major, so dimensions that follow each other
always count as one dimension, whatever their stored ranges are: a step in it is a step in the first
of them, and the number of its entry is the column-major number of their coordinates. No other
dimensions are accepted.

* `Strided.mayFuse_eq`: which dimensions are accepted;
* `Box.number_append`: the number of an entry in two parts;
* `Strided.exists_oneDimension`: addresses of what is accepted.
-/

namespace TensorKernel

/-! ### Volumes and numbers in two parts -/

theorem Shape.volume_append (s t : Shape) : volume (s ++ t) = volume s * volume t := by
  induction s with
  | nil => rw [List.nil_append, volume, Nat.one_mul]
  | cons n s ih => rw [List.cons_append, volume, volume, ih, Nat.mul_assoc]

theorem Shape.offset_append {s : Shape} {e : Entry} (rank : s.length = e.length) (t : Shape)
    (f : Entry) : offset (s ++ t) (e ++ f) = offset s e + volume s * offset t f := by
  induction s generalizing e with
  | nil =>
    obtain rfl := List.length_eq_zero_iff.mp rank.symm
    simp [offset, volume]
  | cons n s ih =>
    cases e with
    | nil => cases rank
    | cons k e =>
      have rank' : s.length = e.length := Nat.succ.inj rank
      rw [List.cons_append, List.cons_append, offset, offset, volume, ih rank', Nat.mul_add,
        Nat.add_assoc, Nat.mul_assoc]

namespace Layout

/-- The layouts that can be made: directly, or from another one in a new order of its dimensions. -/
inductive Built : Layout → Prop
  | full (shape : Shape) : Built (full shape)
  | ofBox (shape : Shape) (box : Box) (alignment : Option Nat) : Built (ofBox shape box alignment)
  | ofPattern (p : Pattern) (alignment : Option Nat) : Built (ofPattern p alignment)
  | permute {l l' : Layout} {perm : List Nat} (built : Built l)
    (permuted : l.permute? perm = some l') : Built l'

variable {l : Layout}

theorem strided_ofBox (shape : Shape) (box : Box) (alignment : Option Nat) :
    (ofBox shape box alignment).Strided :=
  rfl

theorem Built.strided (built : l.Built) : l.Strided := by
  cases built with
  | full shape => exact strided_ofBox ..
  | ofBox shape box alignment => exact strided_ofBox ..
  | ofPattern p alignment => exact strided_ofBox ..
  | permute _ permuted =>
    obtain ⟨shape, -, box⟩ := Option.bind_eq_some_iff.mp permuted
    obtain ⟨box, -, made⟩ := Option.bind_eq_some_iff.mp box
    obtain rfl := Option.some.inj made
    exact strided_ofBox ..

/-! ### Which dimensions are accepted -/

/-- Whatever the strides are, accepted dimensions follow each other. -/
theorem successive_of_mayFuse {ps : List Nat} (h : l.mayFuse ps = .ok true) : Successive ps := by
  have pair {p q : Nat} (h : l.mayFusePair p q = .ok true) : q = p + 1 := by
    unfold mayFusePair at h
    split at h
    · split at h
      · assumption
      · cases h
    · cases h
  induction ps with
  | nil => exact .nil
  | cons p rest ih =>
    cases rest with
    | nil => exact .singleton p
    | cons q rest =>
      rw [mayFuse] at h
      obtain ⟨fits, first, others⟩ := bind_eq_ok.mp h
      cases fits with
      | false => cases others
      | true => exact .cons_cons (pair first) (ih others)

theorem Strided.getElem?_strides (strided : l.Strided) {k : Nat} :
    l.strides[k]? = if k < l.box.rank then some (Shape.volume (l.box.extents.take k)) else none := by
  rw [strided, Box.rank, Box.extents, ← List.map_take]
  split
  · next inside => rw [stridesFrom_getElem? 1 _ inside, Nat.one_mul]
  · next beyond =>
    refine List.getElem?_eq_none ?_
    rw [length_stridesFrom]
    exact Nat.not_lt.mp beyond

/-- A stride is the one before it times the extent that is stored there. -/
theorem Strided.mayFusePair_eq (strided : l.Strided) (p q : Nat) :
    l.mayFusePair p q = .ok (decide (q = p + 1 ∧ q < l.box.rank)) := by
  unfold mayFusePair
  rw [strided.getElem?_strides, strided.getElem?_strides]
  by_cases follows : q = p + 1
  · subst follows
    by_cases inside : p + 1 < l.box.rank
    · have here : p < l.box.ranges.length := Nat.lt_of_succ_lt inside
      have outer : Shape.volume (l.box.extents.take (p + 1)) =
          l.box.ranges[p].size * Shape.volume (l.box.extents.take p) := by
        have extent : l.box.extents.take (p + 1) =
            l.box.extents.take p ++ [l.box.ranges[p].size] := by
          rw [Box.extents, ← List.map_take, ← List.map_take, List.take_add_one,
            List.getElem?_eq_getElem here, List.map_append]
          rfl
        rw [extent, Shape.volume_append, Shape.volume, Shape.volume, Nat.mul_one, Nat.mul_comm]
      simp [inside, Nat.lt_of_succ_lt inside, here, outer, dimension, pure, Except.pure, bind,
        Except.bind]
    · simp [inside, pure, Except.pure]
  · split <;> simp [follows, pure, Except.pure]

theorem Strided.mayFuse_cons (strided : l.Strided) (p : Nat) (ps : List Nat) :
    l.mayFuse (p :: ps) = .ok (decide (Successive (p :: ps) ∧ ∀ q ∈ ps, q < l.box.rank)) := by
  induction ps generalizing p with
  | nil => simp [mayFuse, Successive, pure, Except.pure]
  | cons q ps ih =>
    rw [mayFuse, strided.mayFusePair_eq, ok_bind, ih q]
    simp only [Successive, List.isChain_cons_cons, List.forall_mem_cons]
    by_cases pair : q = p + 1 ∧ q < l.box.rank
    · rw [if_pos (decide_eq_true pair)]
      refine congrArg Except.ok (decide_eq_decide.mpr ⟨fun h => ?_, fun h => ⟨h.1.2, h.2.2⟩⟩)
      exact ⟨⟨pair.1, h.1⟩, pair.2, h.2⟩
    · rw [if_neg (by simpa using pair)]
      refine congrArg Except.ok (decide_eq_false fun all => pair ?_).symm
      exact ⟨all.1.1, all.2.1⟩

theorem Strided.mayFuse_ok (strided : l.Strided) (ps : List Nat) :
    ∃ fuses, l.mayFuse ps = .ok fuses := by
  cases ps with
  | nil => exact ⟨true, rfl⟩
  | cons p ps => exact ⟨_, strided.mayFuse_cons p ps⟩

/-- Two or more dimensions are accepted exactly if they follow each other and exist. -/
theorem Strided.mayFuse_eq (strided : l.Strided) {ps : List Nat} (several : 2 ≤ ps.length) :
    l.mayFuse ps = .ok (decide (Successive ps ∧ ∀ p ∈ ps, p < l.box.rank)) := by
  match ps, several with
  | p :: q :: ps, _ =>
    rw [strided.mayFuse_cons]
    refine congrArg Except.ok (decide_eq_decide.mpr ⟨fun h => ⟨h.1, ?_⟩, fun h => ⟨h.1, ?_⟩⟩)
    · have follows := (List.isChain_cons_cons.mp h.1).1
      have next := h.2 q List.mem_cons_self
      exact List.forall_mem_cons.mpr ⟨by omega, h.2⟩
    · exact (List.forall_mem_cons.mp h.2).2

/-! ### Addresses of what is accepted -/

end Layout

/-- The positions below a rank that are not listed. -/
def elsewhere (rank : Nat) (ps : List Nat) : List Nat :=
  (List.range rank).filter fun q => !ps.contains q

theorem elsewhere_range' {rank p n : Nat} (inside : p + n ≤ rank) :
    elsewhere rank (List.range' p n) =
      List.range' 0 p ++ List.range' (p + n) (rank - (p + n)) := by
  have split : List.range rank =
      List.range' 0 p ++ (List.range' p n ++ List.range' (p + n) (rank - (p + n))) := by
    have first := List.range'_append_1 (s := 0) (m := p) (n := rank - p)
    have rest := List.range'_append_1 (s := p) (m := n) (n := rank - (p + n))
    rw [Nat.zero_add, Nat.add_sub_cancel' (Nat.le_of_add_right_le inside)] at first
    rw [rest, show n + (rank - (p + n)) = rank - p by omega, first, List.range_eq_range']
  have kept {q m : Nat} (apart : ∀ r ∈ List.range' q m, r ∉ List.range' p n) :
      (List.range' q m).filter (fun r => !(List.range' p n).contains r) = List.range' q m := by
    refine List.filter_eq_self.mpr fun r hr => ?_
    rw [Bool.not_eq_true', List.contains_eq_mem, decide_eq_false (apart r hr)]
  have gone : (List.range' p n).filter (fun r => !(List.range' p n).contains r) = [] := by
    refine List.filter_eq_nil_iff.mpr fun r hr => ?_
    simpa using hr
  rw [elsewhere, split, List.filter_append, List.filter_append, gone, kept, kept, List.nil_append]
  · intro r hr
    rw [List.mem_range'_1] at hr ⊢
    omega
  · intro r hr
    rw [List.mem_range'_1] at hr ⊢
    omega

/-- The other values are those before and those after a segment. -/
theorem pick_elsewhere {α : Type} {values : List α} {p n : Nat} (inside : p + n ≤ values.length) :
    Pattern.pick values (elsewhere values.length (List.range' p n)) =
      values.take p ++ values.drop (p + n) := by
  have rest : (values.drop (p + n)).take (values.length - (p + n)) = values.drop (p + n) :=
    List.take_of_length_le (Nat.le_of_eq List.length_drop)
  rw [elsewhere_range' inside, Pattern.pick, List.filterMap_append, ← Pattern.pick, ← Pattern.pick,
    Pattern.pick_range', Pattern.pick_range', List.drop_zero, rest]

namespace Box

def pick (b : Box) (ps : List Nat) : Box := ⟨Pattern.pick b.ranges ps⟩

/-- The column-major number of an entry inside a box. -/
def number (b : Box) (e : Entry) : Nat := Shape.offset b.extents (b.steps e)

theorem number_append {rs : List Range} {e : Entry} (rank : rs.length = e.length)
    (rs' : List Range) (e' : Entry) : number ⟨rs ++ rs'⟩ (e ++ e') =
      number ⟨rs⟩ e + Shape.volume (extents ⟨rs⟩) * number ⟨rs'⟩ e' := by
  have steps : steps ⟨rs ++ rs'⟩ (e ++ e') = steps ⟨rs⟩ e ++ steps ⟨rs'⟩ e' :=
    List.zipWith_append rank.symm
  have extents : extents ⟨rs ++ rs'⟩ = extents ⟨rs⟩ ++ extents ⟨rs'⟩ := List.map_append
  rw [number, steps, extents, Shape.offset_append]
  · rfl
  · simp [Box.steps, Box.extents, rank]

theorem number_split {b : Box} {e : Entry} (rank : b.rank = e.length) (p n : Nat) :
    b.number e = number ⟨b.ranges.take p⟩ (e.take p) +
      Shape.volume (extents ⟨b.ranges.take p⟩) *
        (number ⟨(b.ranges.drop p).take n⟩ ((e.drop p).take n) +
          Shape.volume (extents ⟨(b.ranges.drop p).take n⟩) *
            number ⟨b.ranges.drop (p + n)⟩ (e.drop (p + n))) := by
  have ranks : b.ranges.length = e.length := rank
  have first : (b.ranges.take p).length = (e.take p).length := by
    rw [List.length_take, List.length_take, ranks]
  have inner : ((b.ranges.drop p).take n).length = ((e.drop p).take n).length := by
    rw [List.length_take, List.length_take, List.length_drop, List.length_drop, ranks]
  rw [← number_append inner, ← number_append first, ← List.drop_drop, ← List.drop_drop,
    List.take_append_drop, List.take_append_drop, List.take_append_drop, List.take_append_drop]

end Box

namespace Layout

variable {l : Layout}

/-- The dimensions at some positions count as one dimension with a stride of its own: an address is
a part that depends on the other coordinates alone and as many strides as the number of the
coordinates at these positions says. -/
def OneDimension (l : Layout) (ps : List Nat) (stride : Nat) : Prop :=
  ∃ rest : Entry → Nat, ∀ e, l.box.contains e = true →
    (l.box.pick ps).contains (Pattern.pick e ps) = true ∧
      l.address? e = some (rest (Pattern.pick e (elsewhere l.box.rank ps)) +
        stride * (l.box.pick ps).number (Pattern.pick e ps))

theorem Strided.oneDimension (strided : l.Strided) {p n : Nat} (inside : p + n ≤ l.box.rank) :
    l.OneDimension (List.range' p n) (Shape.volume (l.box.extents.take p)) := by
  let first : Box := ⟨l.box.ranges.take p⟩
  let fused : Box := ⟨(l.box.ranges.drop p).take n⟩
  let last : Box := ⟨l.box.ranges.drop (p + n)⟩
  have picked : l.box.pick (List.range' p n) = fused := congrArg Box.mk (Pattern.pick_range' ..)
  have stride : Shape.volume (l.box.extents.take p) = Shape.volume first.extents := by
    rw [Box.extents, ← List.map_take]
    rfl
  refine ⟨fun others => first.number (others.take p) +
    Shape.volume first.extents * (Shape.volume fused.extents * last.number (others.drop p)),
    fun e stored => ?_⟩
  have inside' := Box.contains_iff.mp stored
  have rank : l.box.rank = e.length := inside'.length_eq
  have length : (e.take p).length = p := List.length_take_of_le (by omega)
  rw [rank] at inside
  rw [picked, rank, pick_elsewhere inside, Pattern.pick_range', stride]
  constructor
  · exact Box.contains_iff.mpr (List.forall₂_take n (List.forall₂_drop p inside'))
  · refine strided.address?_eq_some.mpr ⟨stored, (Box.number_split rank p n).trans ?_⟩
    dsimp only
    rw [List.take_left' length, List.drop_left' length, Nat.mul_add, Nat.add_right_comm,
      Nat.add_assoc]

/-- Dimensions that follow each other and exist are one, with the stride of the first of them. -/
theorem Strided.exists_oneDimension (strided : l.Strided) {ps : List Nat} (some' : ps ≠ [])
    (successive : Successive ps) (inside : ∀ p ∈ ps, p < l.box.rank) :
    ∃ first stride, ps.head? = some first ∧ l.strides[first]? = some stride ∧
      l.OneDimension ps stride := by
  obtain ⟨p, n, rfl⟩ := successive.exists_eq_range'
  have positive : n ≠ 0 := by
    rintro rfl
    exact some' rfl
  have below : p + (n - 1) < l.box.rank := inside _ (by rw [List.mem_range'_1]; omega)
  refine ⟨p, _, ?_, ?_, strided.oneDimension (by omega)⟩
  · rw [List.head?_range', if_neg positive]
  · rw [strided.getElem?_strides, if_pos (by omega)]

end Layout

end TensorKernel
