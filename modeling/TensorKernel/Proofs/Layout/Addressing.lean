import Mathlib.Order.Bounds.Basic
import TensorKernel.Proofs.Layout.Permutation
import TensorKernel.Proofs.Pattern.Listing

/-!
Addresses of stored entries. An entry of the box is as many steps from the first one as its address
says, when the steps are counted in column-major order; so the addresses of a box are the numbers
below its volume, each of which is taken once. A permuted layout is aligned anew from the box as it
was before alignment, and keeps every entry that this box has.

* `Strided.address?_eq_some`, `Boxed.requiredReals_eq`: addresses as such numbers;
* `aligned_start`, `aligned_stop`: alignment widens a range as little as possible;
* `exists_permuted`: any number of permutations, one after the other;
* `addresses_dense`: all layouts that can be made.
-/

namespace TensorKernel

/-! ### Entries of a box -/

namespace Box

def extents (b : Box) : Shape := b.ranges.map Range.size

/-- How far an entry is from the first one of a box, dimension by dimension. -/
def steps (b : Box) (e : Entry) : Entry :=
  List.zipWith (fun k (r : Range) => k - r.start) e b.ranges

/-- The entry of a box that is so far from the first one. -/
def entryAt (b : Box) (steps : Entry) : Entry :=
  List.zipWith (fun k (r : Range) => r.start + k) steps b.ranges

variable {b : Box} {e f : Entry}

theorem holds_steps (h : b.contains e = true) :
    Shape.holds b.extents (b.steps e) = true ∧ b.entryAt (b.steps e) = e := by
  rw [contains_iff] at h
  rw [Shape.holds_iff, extents, steps, entryAt]
  generalize b.ranges = ranges at h ⊢
  induction h with
  | nil => exact ⟨.nil, rfl⟩
  | cons inside _ ih =>
    obtain ⟨start, stop⟩ := Range.contains_iff.mp inside
    refine ⟨.cons (Nat.sub_lt_sub_right start stop) ih.1, ?_⟩
    exact congrArg₂ List.cons (Nat.add_sub_of_le start) ih.2

theorem contains_entryAt {ks : Entry} (h : Shape.holds b.extents ks = true) :
    b.contains (b.entryAt ks) = true ∧ b.steps (b.entryAt ks) = ks := by
  rw [Shape.holds_iff, extents, List.forall₂_map_left_iff] at h
  rw [contains_iff, steps, entryAt]
  generalize b.ranges = ranges at h ⊢
  induction h with
  | nil => exact ⟨.nil, rfl⟩
  | cons below _ ih =>
    rw [Range.size] at below
    have inside := Range.contains_iff.mpr ⟨Nat.le_add_right .., Nat.add_lt_of_lt_sub' below⟩
    refine ⟨.cons inside ih.1, ?_⟩
    exact congrArg₂ List.cons (Nat.add_sub_cancel_left ..) ih.2

theorem steps_inj (he : b.contains e = true) (hf : b.contains f = true) :
    b.steps e = b.steps f ↔ e = f := by
  constructor
  · intro same
    rw [← (holds_steps he).2, same, (holds_steps hf).2]
  · rintro rfl
    rfl

/-- Steps keep the order of entries. -/
theorem before_steps (he : b.contains e = true) (hf : b.contains f = true) :
    Entry.Before (b.steps e) (b.steps f) ↔ Entry.Before e f := by
  obtain ⟨ranges⟩ := b
  rw [contains_iff] at he hf
  dsimp only at he hf
  induction ranges generalizing e f with
  | nil =>
    cases he
    cases hf
    rfl
  | cons r rs ih =>
    cases he with
    | cons insideE restE =>
      cases hf with
      | cons insideF restF =>
        have startE := (Range.contains_iff.mp insideE).1
        have startF := (Range.contains_iff.mp insideF).1
        have same := steps_inj (contains_iff.mpr restE) (contains_iff.mpr restF)
        change Entry.Before (steps ⟨rs⟩ _) (steps ⟨rs⟩ _) ∨
          steps ⟨rs⟩ _ = steps ⟨rs⟩ _ ∧ _ - r.start < _ - r.start ↔ _
        rw [ih restE restF, same, Nat.sub_lt_sub_iff_right startE, Entry.Before]

end Box

/-! ### Addresses -/

namespace Layout

/-- An entry is as far from the first one as its column-major number says. -/
theorem foldr_stridesFrom (stride : Nat) (ranges : List Range) (ks : Entry) :
    (List.zipWith (· * ·) ks (stridesFrom stride ranges)).foldr (· + ·) 0 =
      stride * Shape.offset (ranges.map Range.size) ks := by
  induction ranges generalizing stride ks with
  | nil => cases ks <;> rfl
  | cons r rs ih =>
    cases ks with
    | nil => rfl
    | cons k ks =>
      rw [stridesFrom, List.zipWith_cons_cons, List.foldr_cons, ih, List.map_cons, Shape.offset,
        Nat.mul_add, Nat.mul_comm k, Nat.mul_assoc]

theorem getLast?_stridesFrom (stride : Nat) (r : Range) (rs : List Range) :
    ∃ last range, (stridesFrom stride (r :: rs)).getLast? = some last ∧
      (r :: rs).getLast? = some range ∧
      last * range.size = stride * Shape.volume ((r :: rs).map Range.size) := by
  induction rs generalizing stride r with
  | nil =>
    refine ⟨stride, r, rfl, rfl, ?_⟩
    rw [List.map_singleton, Shape.volume, Shape.volume, Nat.mul_one]
  | cons next rest ih =>
    obtain ⟨last, range, strides, ranges, product⟩ := ih (stride * r.size) next
    refine ⟨last, range, ?_, ?_, ?_⟩
    · rw [stridesFrom, stridesFrom, List.getLast?_cons_cons, ← stridesFrom, strides]
    · rw [List.getLast?_cons_cons, ranges]
    · exact product.trans (Nat.mul_assoc ..)

theorem length_stridesFrom (stride : Nat) (ranges : List Range) :
    (stridesFrom stride ranges).length = ranges.length := by
  induction ranges generalizing stride with
  | nil => rfl
  | cons r rs ih => rw [stridesFrom, List.length_cons, List.length_cons, ih]

theorem stridesFrom_getElem? (stride : Nat) (rs : List Range) {k : Nat} (h : k < rs.length) :
    (stridesFrom stride rs)[k]? = some (stride * Shape.volume ((rs.take k).map Range.size)) := by
  induction rs generalizing stride k with
  | nil => exact absurd h (Nat.not_lt_zero k)
  | cons r rs ih =>
    cases k with
    | zero => simp [stridesFrom, Shape.volume]
    | succ k =>
      have h' : k < rs.length := Nat.lt_of_succ_lt_succ h
      rw [stridesFrom, List.getElem?_cons_succ, ih _ h', List.take_succ_cons, List.map_cons,
        Shape.volume, Nat.mul_assoc]

/-- The strides are those of the stored box. -/
def Strided (l : Layout) : Prop := l.strides = stridesFrom 1 l.box.ranges

theorem Strided.address?_eq_some {l : Layout} {e : Entry} {a : Nat} (strided : l.Strided) :
    l.address? e = some a ↔
      l.box.contains e = true ∧ Shape.offset l.box.extents (l.box.steps e) = a := by
  rw [address?]
  split
  · next stored =>
    have number := foldr_stridesFrom 1 l.box.ranges (l.box.steps e)
    rw [Nat.one_mul, ← strided] at number
    rw [Option.some.injEq, Box.extents, ← number]
    exact (and_iff_right stored).symm
  · next missing => simp [missing]

namespace Boxed

variable {l : Layout} {e f : Entry} {a b : Nat}

theorem strided (boxed : l.Boxed) : l.Strided := by
  rw [Strided, ← boxed.aligned]
  rfl

theorem address?_eq_some (boxed : l.Boxed) : l.address? e = some a ↔
    l.box.contains e = true ∧ Shape.offset l.box.extents (l.box.steps e) = a :=
  boxed.strided.address?_eq_some

theorem requiredReals_eq (boxed : l.Boxed) : l.requiredReals = Shape.volume l.box.extents := by
  rw [requiredReals, boxed.strided, Box.extents]
  cases l.box.ranges with
  | nil => rfl
  | cons r rs =>
    obtain ⟨last, range, strides, ranges, product⟩ := getLast?_stridesFrom 1 r rs
    rw [strides, ranges, ← Nat.one_mul (Shape.volume _), ← product]

end Boxed

end Layout

/-! ### Alignment -/

namespace Range

variable {width : Nat} (r : Range)

/-- An aligned range starts no further to the left than it has to. -/
theorem aligned_start (positive : 1 ≤ width) :
    IsGreatest {m | width ∣ m ∧ m ≤ r.start} (r.aligned width).start := by
  unfold aligned
  split
  · next narrow =>
    obtain rfl := Nat.le_antisymm narrow positive
    exact ⟨⟨Nat.one_dvd _, Nat.le_refl _⟩, fun m hm => hm.2⟩
  · refine ⟨⟨Nat.dvd_mul_left .., Nat.div_mul_le_self ..⟩, fun m hm => ?_⟩
    obtain ⟨⟨k, rfl⟩, below⟩ := hm
    dsimp only
    rw [Nat.mul_comm] at below ⊢
    exact Nat.mul_le_mul_right width ((Nat.le_div_iff_mul_le positive).mpr below)

/-- An aligned range stops no further to the right than it has to. -/
theorem aligned_stop (positive : 1 ≤ width) :
    IsLeast {m | width ∣ m ∧ r.stop ≤ m} (r.aligned width).stop := by
  unfold aligned
  split
  · next narrow =>
    obtain rfl := Nat.le_antisymm narrow positive
    exact ⟨⟨Nat.one_dvd _, Nat.le_refl _⟩, fun m hm => hm.2⟩
  · refine ⟨⟨Nat.dvd_mul_left .., ?_⟩, fun m hm => ?_⟩
    · have rounded := Nat.lt_div_mul_add (a := r.stop + width - 1) (b := width) positive
      dsimp only
      omega
    · obtain ⟨⟨k, rfl⟩, above⟩ := hm
      dsimp only
      rw [Nat.mul_comm width k]
      refine Nat.mul_le_mul_right width (Nat.le_of_lt_succ ?_)
      rw [Nat.div_lt_iff_lt_mul positive, Nat.succ_mul, Nat.mul_comm k]
      omega

theorem dvd_size_aligned (positive : 1 ≤ width) : width ∣ (r.aligned width).size :=
  Nat.dvd_sub (r.aligned_stop positive).1.1 (r.aligned_start positive).1.1

end Range

namespace Layout.Boxed

variable {l : Layout} {width : Nat} {first : Range} {rest : List Range}

theorem box_eq (boxed : l.Boxed) (requested : l.alignment = some width)
    (ranges : l.unaligned.ranges = first :: rest) : l.box = ⟨first.aligned width :: rest⟩ := by
  rw [← boxed.aligned, requested, ofBox, Box.alignFirst, ranges]

/-- The columns of an aligned layout start at aligned addresses. -/
theorem dvd_address (boxed : l.Boxed) (requested : l.alignment = some width)
    (positive : 1 ≤ width) (ranges : l.unaligned.ranges = first :: rest) {k : Nat} {ks : Entry}
    (stored : l.box.contains (k :: ks) = true) :
    ∃ a, l.address? ((first.aligned width).start :: ks) = some a ∧ width ∣ a := by
  have box := boxed.box_eq requested ranges
  rw [box, Box.contains_iff, List.forall₂_cons] at stored
  obtain ⟨inside, others⟩ := stored
  obtain ⟨start, stop⟩ := Range.contains_iff.mp inside
  have begins : l.box.contains ((first.aligned width).start :: ks) = true := by
    rw [box, Box.contains_iff]
    exact .cons (Range.contains_iff.mpr ⟨Nat.le_refl _, start.trans_lt stop⟩) others
  refine ⟨_, boxed.address?_eq_some.mpr ⟨begins, rfl⟩, ?_⟩
  rw [box, Box.steps, Box.extents, List.zipWith_cons_cons, List.map_cons, Shape.offset,
    Nat.sub_self, Nat.zero_add]
  exact Nat.dvd_mul_right_of_dvd (first.dvd_size_aligned positive) _

end Layout.Boxed

/-! ### Permutations -/

theorem Pattern.pick?_of_perm {α : Type} {values : List α} {perm : List Nat}
    (valid : perm.Perm (List.range values.length)) :
    ∃ picked, pick? values perm = some picked ∧ picked.length = values.length := by
  have found : ∀ k ∈ perm, ∃ value, values[k]? = some value := by
    intro k hk
    have below := List.mem_range.mp (valid.mem_iff.mp hk)
    exact ⟨_, List.getElem?_eq_getElem below⟩
  obtain ⟨picked, each⟩ := forall₂_of_exists found
  refine ⟨picked, pick?_eq_some.mpr each, ?_⟩
  rw [← each.length_eq, valid.length_eq, List.length_range]

namespace Box

variable {b b' : Box} {e : Entry} {perm : List Nat} {perms : List (List Nat)}

/-- A permuted box holds the permuted entries. -/
theorem contains_permute? (h : b.permute? perm = some b') (inside : b.contains e = true) :
    b'.contains (Pattern.pick e perm) = true := by
  obtain ⟨picked, found, rfl⟩ := Option.map_eq_some_iff.mp h
  clear h
  rw [contains_iff] at inside ⊢
  rw [Pattern.pick?_eq_some] at found
  change List.Forall₂ _ picked _
  induction found with
  | nil => exact .nil
  | @cons k r _ _ here _ ih =>
    obtain ⟨below, -⟩ := List.getElem?_eq_some_iff.mp here
    obtain ⟨_, coordinate⟩ : ∃ value, e[k]? = some value :=
      ⟨_, List.getElem?_eq_getElem (inside.length_eq ▸ below)⟩
    rw [Pattern.pick, List.filterMap_cons_some coordinate]
    exact .cons (forall₂_getElem? inside here coordinate) ih

theorem contains_foldlM_permute? (h : perms.foldlM permute? b = some b')
    (inside : b.contains e = true) : b'.contains (perms.foldl Pattern.pick e) = true := by
  induction perms generalizing b e with
  | nil =>
    obtain rfl := Option.some.inj h
    exact inside
  | cons perm perms ih =>
    obtain ⟨next, first, others⟩ := Option.bind_eq_some_iff.mp h
    exact ih others (contains_permute? first inside)

end Box

namespace Layout

/-- Layouts can be permuted any number of times; shape and box go along, the alignment stays. -/
theorem exists_permuted {shape : Shape} {box : Box} {perms : List (List Nat)}
    (rank : box.rank = shape.length) (alignment : Option Nat)
    (valid : ∀ perm ∈ perms, perm.Perm (List.range shape.length)) :
    ∃ shape' box', perms.foldlM Pattern.pick? shape = some shape' ∧
      perms.foldlM Box.permute? box = some box' ∧ box'.rank = shape'.length ∧
        perms.foldlM permute? (ofBox shape box alignment) = some (ofBox shape' box' alignment) := by
  induction perms generalizing shape box with
  | nil => exact ⟨shape, box, rfl, rfl, rank, rfl⟩
  | cons perm perms ih =>
    obtain ⟨first, others⟩ := List.forall_mem_cons.mp valid
    obtain ⟨extents, shapes, length⟩ := Pattern.pick?_of_perm first
    have first' : perm.Perm (List.range box.ranges.length) := by
      rwa [show box.ranges.length = shape.length from rank]
    obtain ⟨ranges, boxes, length'⟩ := Pattern.pick?_of_perm first'
    have ranks : (⟨ranges⟩ : Box).rank = extents.length := length'.trans (rank.trans length.symm)
    obtain ⟨shape', box', shaped, boxed, rank', permuted⟩ := ih ranks (length ▸ others)
    have once : box.permute? perm = some ⟨ranges⟩ := by rw [Box.permute?, boxes, Option.map_some]
    have moved : (ofBox shape box alignment).permute? perm =
        some (ofBox extents ⟨ranges⟩ alignment) := by
      rw [permute?]
      change (Pattern.pick? shape perm).bind (fun s => (box.permute? perm).bind _) = _
      rw [shapes, Option.bind_some, once]
      rfl
    refine ⟨shape', box', ?_, ?_, rank', ?_⟩
    · rw [List.foldlM_cons, shapes]
      exact shaped
    · rw [List.foldlM_cons, once]
      exact boxed
    · rw [List.foldlM_cons, moved]
      exact permuted

/-! ### All layouts -/

inductive Made : Layout → Prop
  | full (shape : Shape) : Made (full shape)
  | ofBox (shape : Shape) (box : Box) (alignment : Option Nat) (rank : box.rank = shape.length) :
    Made (ofBox shape box alignment)
  | ofPattern (p : Pattern) (alignment : Option Nat) : Made (ofPattern p alignment)

theorem Made.boxed {l : Layout} (made : l.Made) : l.Boxed := by
  cases made with
  | full shape => exact boxed_full shape
  | ofBox shape box alignment rank => exact ⟨rank, rfl⟩
  | ofPattern p alignment => exact boxed_ofPattern p alignment

/-- Addresses number the entries of the box in column-major order, from zero and without gaps. -/
structure Dense (l : Layout) : Prop where
  stored : ∀ e, (∃ a, l.address? e = some a) ↔ l.box.contains e = true
  below : ∀ e a, l.address? e = some a → a < l.requiredReals
  reached : ∀ a < l.requiredReals, ∃! e, l.address? e = some a
  ordered : ∀ e f a b, l.address? e = some a → l.address? f = some b → (a < b ↔ e.Before f)

theorem Boxed.dense {l : Layout} (boxed : l.Boxed) : l.Dense where
  stored e := by rw [← Option.isSome_iff_exists, isSome_address?]
  below e a h := by
    obtain ⟨stored, rfl⟩ := boxed.address?_eq_some.mp h
    rw [boxed.requiredReals_eq]
    exact Shape.offset_lt_volume (Box.holds_steps stored).1
  reached a below := by
    rw [boxed.requiredReals_eq] at below
    obtain ⟨stored, steps⟩ := Box.contains_entryAt (Shape.holds_unravel below)
    refine ⟨_, boxed.address?_eq_some.mpr ⟨stored, ?_⟩, fun e h => ?_⟩
    · rw [steps, Shape.offset_unravel below]
    · obtain ⟨stored', rfl⟩ := boxed.address?_eq_some.mp h
      obtain ⟨inside, same⟩ := Box.holds_steps stored'
      rw [Shape.unravel_offset inside, same]
  ordered e f a b he hf := by
    obtain ⟨storedE, rfl⟩ := boxed.address?_eq_some.mp he
    obtain ⟨storedF, rfl⟩ := boxed.address?_eq_some.mp hf
    rw [Shape.offset_lt_offset_iff (Box.holds_steps storedE).1 (Box.holds_steps storedF).1,
      Box.before_steps storedE storedF]

/-- Every layout, however often permuted, is dense. It keeps an address for each non-zero entry of
the pattern that it was made for, and its alignment is that of its own first dimension. -/
theorem addresses_dense {l : Layout} {perms : List (List Nat)} (made : l.Made)
    (valid : ∀ perm ∈ perms, perm.Perm (List.range l.shape.length)) :
    ∃ l' box, perms.foldlM permute? l = some l' ∧ l'.Dense ∧
      (∀ p alignment, l = ofPattern p alignment → ∀ e, p.isNonzero e = true →
        ∃ a, l'.address? (perms.foldl Pattern.pick e) = some a) ∧
      perms.foldlM Box.permute? l.unaligned = some box ∧
      ∀ width first rest, l.alignment = some width → 1 ≤ width → box.ranges = first :: rest →
        ∃ stored, l'.box.ranges = stored :: rest ∧
          IsGreatest {m | width ∣ m ∧ m ≤ first.start} stored.start ∧
          IsLeast {m | width ∣ m ∧ first.stop ≤ m} stored.stop ∧
          ∀ k ks, l'.box.contains (k :: ks) = true →
            ∃ a, l'.address? (stored.start :: ks) = some a ∧ width ∣ a := by
  obtain ⟨shape, box, -, boxes, rank, permuted⟩ :=
    exists_permuted made.boxed.rank l.alignment valid
  rw [made.boxed.aligned] at permuted
  have boxed : (ofBox shape box l.alignment).Boxed := ⟨rank, rfl⟩
  refine ⟨_, box, permuted, boxed.dense, ?_, boxes, ?_⟩
  · rintro p alignment rfl e nonzero
    rw [← Option.isSome_iff_exists, isSome_address?]
    have inside := Box.contains_foldlM_permute? boxes (Box.contains_ofPattern nonzero)
    cases alignment with
    | none => exact inside
    | some width => exact Box.contains_alignFirst inside width
  · intro width first rest requested positive ranges
    refine ⟨first.aligned width, ?_, first.aligned_start positive, first.aligned_stop positive,
      fun k ks stored => boxed.dvd_address requested positive ranges stored⟩
    rw [boxed.box_eq requested ranges]

/-- Two non-zero entries, stored with their dimensions exchanged and aligned to four. -/
theorem addresses_dense_exchanged :
    ∃ l', [[1, 0]].foldlM permute? (ofPattern (.ofOffsets [3, 4] [7, 11]) (some 4)) = some l' ∧
      l'.Dense ∧ (∃ a, l'.address? [2, 1] = some a) ∧ (∃ a, l'.address? [3, 2] = some a) ∧
        ∃ stored, l'.box.ranges = [stored, ⟨1, 3⟩] ∧
          IsGreatest {m | 4 ∣ m ∧ m ≤ 2} stored.start ∧ IsLeast {m | 4 ∣ m ∧ 4 ≤ m} stored.stop := by
  have valid : ∀ perm ∈ [[1, 0]], perm.Perm (List.range 2) := by decide
  obtain ⟨l', box, permuted, dense, kept, boxes, aligned⟩ :=
    addresses_dense (.ofPattern (.ofOffsets [3, 4] [7, 11]) (some 4)) valid
  obtain rfl : ⟨[⟨2, 4⟩, ⟨1, 3⟩]⟩ = box := Option.some.inj boxes
  obtain ⟨stored, ranges, start, stop, -⟩ := aligned 4 ⟨2, 4⟩ [⟨1, 3⟩] rfl (by decide) rfl
  exact ⟨l', permuted, dense, kept _ _ rfl [1, 2] (by decide), kept _ _ rfl [2, 3] (by decide),
    stored, ranges, start, stop⟩

end Layout

end TensorKernel
