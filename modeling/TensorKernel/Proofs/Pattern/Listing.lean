import TensorKernel.Proofs.Pattern.Exactness

/-!
The views of a pattern: its list of entries, the test of one entry, and the number of entries. The
list is in column-major order, in which the last coordinate that differs decides; the column-major
numbers of entries are in this order too, so that the list is the one of the flags that are set.
A pattern made of a list of entries is non-zero at exactly these, and made of its own list of
entries it is the same again.

* `Entry.Before`, `offset_lt_offset_iff`: column-major order, and the numbers that go with it;
* `offsets`: the numbers of the non-zero entries, which increase;
* `sorted_entries`, `length_entries`: the list of entries;
* `ofEntries_eq_ok`: patterns made of entries;
* `views_agree`: all views of a pattern.
-/

namespace TensorKernel

/-! ### Column-major order -/

/-- Of the coordinates in which two entries differ, the last one decides. -/
def Entry.Before : Entry → Entry → Prop
  | k :: ks, m :: ms => Before ks ms ∨ ks = ms ∧ k < m
  | _, _ => False

theorem Entry.not_before_self (e : Entry) : ¬Entry.Before e e := by
  induction e with
  | nil => exact id
  | cons k ks ih =>
    rintro (later | ⟨-, here⟩)
    · exact ih later
    · exact Nat.lt_irrefl k here

namespace Shape

theorem offset_inj {s : Shape} {e f : Entry} (he : holds s e = true) (hf : holds s f = true) :
    offset s e = offset s f ↔ e = f := by
  constructor
  · intro same
    rw [← unravel_offset he, same, unravel_offset hf]
  · rintro rfl
    rfl

/-- Of two numbers with a low digit each, the high parts decide first. -/
theorem digit_lt_iff {n x y a b : Nat} (hx : x < n) (hy : y < n) :
    x + n * a < y + n * b ↔ a < b ∨ a = b ∧ x < y := by
  rcases Nat.lt_trichotomy a b with less | rfl | more
  · have step : n * (a + 1) ≤ n * b := Nat.mul_le_mul_left n less
    rw [Nat.mul_add, Nat.mul_one] at step
    simp only [less, true_or, iff_true]
    omega
  · simp
  · have step : n * (b + 1) ≤ n * a := Nat.mul_le_mul_left n more
    rw [Nat.mul_add, Nat.mul_one] at step
    simp only [Nat.not_lt.mpr more.le, more.ne', false_and, or_self, iff_false]
    omega

/-- Entries are numbered in column-major order. -/
theorem offset_lt_offset_iff {s : Shape} {e f : Entry} (he : holds s e = true)
    (hf : holds s f = true) : offset s e < offset s f ↔ Entry.Before e f := by
  rw [holds_iff] at he hf
  induction s generalizing e f with
  | nil =>
    cases he
    cases hf
    simp [offset, Entry.Before]
  | cons n ns ih =>
    cases he with
    | cons hx hxs =>
      cases hf with
      | cons hy hys =>
        rw [offset, offset, digit_lt_iff hx hy, ih hxs hys,
          offset_inj (holds_iff.mpr hxs) (holds_iff.mpr hys), Entry.Before]

theorem before_unravel {s : Shape} {o o' : Nat} (h : o < o') (inside : o' < volume s) :
    Entry.Before (unravel s o) (unravel s o') := by
  have inside' : o < volume s := h.trans inside
  rw [← offset_lt_offset_iff (holds_unravel inside') (holds_unravel inside),
    offset_unravel inside', offset_unravel inside]
  exact h

theorem holds_iff_below {s : Shape} {e : Entry} :
    holds s e = true ↔ List.Forall₂ (fun k n => k < n) e s := by
  rw [holds_iff]
  exact ⟨List.Forall₂.flip, List.Forall₂.flip⟩

end Shape

namespace Pattern

variable {p : Pattern}

/-! ### The list of entries -/

def offsets : Pattern → List Nat
  | dense shape => List.range (Shape.volume shape)
  | masked _ mask => flagged mask

theorem entries_eq (p : Pattern) : p.entries = p.offsets.map (Shape.unravel p.shape) := by
  cases p <;> rfl

/-- The numbers of flags that are set, counted from any number, are among those of all flags. -/
theorem flagged_sublist (mask : List Bool) (k : Nat) :
    ((mask.zipIdx k).filterMap fun (flag, offset) => if flag then some offset else none).Sublist
      (List.range' k mask.length) := by
  induction mask generalizing k with
  | nil => exact .slnil
  | cons flag mask ih =>
    rw [List.zipIdx_cons, List.length_cons, List.range'_succ]
    cases flag with
    | true => exact (ih (k + 1)).cons_cons k
    | false => exact (ih (k + 1)).cons k

theorem offsets_sublist (sized : p.Sized) :
    p.offsets.Sublist (List.range (Shape.volume p.shape)) := by
  cases p with
  | dense shape => exact .refl _
  | masked shape mask =>
    have numbers := flagged_sublist mask 0
    rwa [← List.range_eq_range', sized] at numbers

theorem sorted_offsets (sized : p.Sized) : p.offsets.Pairwise (· < ·) :=
  List.pairwise_lt_range.sublist (offsets_sublist sized)

theorem offsets_lt (sized : p.Sized) : ∀ o ∈ p.offsets, o < Shape.volume p.shape :=
  fun _ ho => List.mem_range.mp ((offsets_sublist sized).subset ho)

/-- The entries are listed in column-major order, each of them once. -/
theorem sorted_entries (sized : p.Sized) : p.entries.Pairwise Entry.Before := by
  rw [entries_eq, List.pairwise_map]
  refine (sorted_offsets sized).imp_of_mem fun _ ho' less => ?_
  exact Shape.before_unravel less (offsets_lt sized _ ho')

theorem length_flagged (mask : List Bool) : (flagged mask).length = mask.count true := by
  have counted (k : Nat) : ((mask.zipIdx k).filterMap fun pair =>
      if pair.1 then some pair.2 else none).length = mask.count true := by
    induction mask generalizing k with
    | nil => rfl
    | cons flag mask ih => cases flag <;> simp [List.zipIdx_cons, ih]
  exact counted 0

theorem length_entries (p : Pattern) : p.entries.length = p.countNonzero := by
  rw [entries_eq, List.length_map]
  cases p with
  | dense shape => exact List.length_range
  | masked shape mask => exact length_flagged mask

/-! ### Patterns from entries -/

theorem isDense_ofOffsets (shape : Shape) (offsets : List Nat) :
    (ofOffsets shape offsets).isDense = false := by
  rw [ofOffsets_eq, isDense]

/-- A pattern is made of entries exactly if all of them lie inside the shape. -/
theorem ofEntries_eq_ok {shape : Shape} {es : List Entry} :
    ofEntries shape es = .ok p ↔
      (∀ e ∈ es, Shape.holds shape e = true) ∧ ofOffsets shape (es.map (Shape.offset shape)) = p := by
  have found : (∀ e ∈ es, Shape.holds shape e = true) ↔
      (es.find? fun e => !Shape.holds shape e) = none := by
    simp [List.find?_eq_none]
  rw [ofEntries, found]
  split
  · next e outside => simp [outside]
  · next none => simp [none]

theorem isNonzero_ofEntries {shape : Shape} {es : List Entry} (made : ofEntries shape es = .ok p)
    {e : Entry} : p.isNonzero e = true ↔ e ∈ es := by
  obtain ⟨inside, rfl⟩ := ofEntries_eq_ok.mp made
  exact isNonzero_ofOffsets_iff inside

/-- The entries of a pattern make a pattern with the same entries, and a mask again. -/
theorem ofEntries_entries (sized : p.Sized) :
    ∃ p', ofEntries p.shape p.entries = .ok p' ∧ (∀ e, p'.isNonzero e = p.isNonzero e) ∧
      (p.isDense = false → p' = p) := by
  have inside : ∀ e ∈ p.entries, Shape.holds p.shape e = true :=
    fun e he => holds_of_isNonzero ((mem_entries sized).mp he)
  obtain ⟨p', made⟩ : ∃ p', ofEntries p.shape p.entries = .ok p' :=
    ⟨_, ofEntries_eq_ok.mpr ⟨inside, rfl⟩⟩
  have same (e : Entry) : p'.isNonzero e = p.isNonzero e := by
    rw [Bool.eq_iff_iff, isNonzero_ofEntries made, mem_entries sized]
  refine ⟨p', made, same, fun form => ?_⟩
  obtain ⟨-, rfl⟩ := ofEntries_eq_ok.mp made
  exact eq_of_isNonzero (sized_ofOffsets _ _) sized ((isDense_ofOffsets _ _).trans form.symm)
    (shape_ofOffsets _ _) fun _ => same

inductive Made : Pattern → Prop
  | dense (shape : Shape) : Made (dense shape)
  | ofMask {shape : Shape} {mask : List Bool} {p : Pattern} (made : ofMask shape mask = .ok p) :
    Made p
  | ofEntries {shape : Shape} {es : List Entry} {p : Pattern}
    (made : Pattern.ofEntries shape es = .ok p) : Made p

theorem made_iff_sized : p.Made ↔ p.Sized := by
  constructor
  · intro made
    cases made with
    | dense => trivial
    | ofMask made => exact sized_ofMask made
    | ofEntries made => exact sized_ofEntries made
  · intro sized
    cases p with
    | dense shape => exact .dense shape
    | masked shape mask => exact .ofMask (if_pos sized)

/-- The list of entries, the test of an entry and the number of entries agree with one another and
with the pattern made of the list, and a pattern made of any list is non-zero where it says. -/
theorem views_agree :
    (∀ p : Pattern, p.Made → p.entries.Pairwise Entry.Before ∧
      (∀ e, e ∈ p.entries ↔ p.isNonzero e = true) ∧ p.countNonzero = p.entries.length ∧
      ∃ p', ofEntries p.shape p.entries = .ok p' ∧ (∀ e, p'.isNonzero e = p.isNonzero e) ∧
        (p.isDense = false → p' = p)) ∧
    ∀ shape es,
      ((∃ p, ofEntries shape es = .ok p) ↔ ∀ e ∈ es, List.Forall₂ (fun k n => k < n) e shape) ∧
        ∀ p, ofEntries shape es = .ok p → p.shape = shape ∧
          ∀ e, p.isNonzero e = true ↔ e ∈ es := by
  constructor
  · intro p made
    have sized := made_iff_sized.mp made
    exact ⟨sorted_entries sized, fun e => mem_entries sized, (length_entries p).symm,
      ofEntries_entries sized⟩
  · intro shape es
    constructor
    · simp only [ofEntries_eq_ok, ← Shape.holds_iff_below]
      exact ⟨fun ⟨_, inside, _⟩ => inside, fun inside => ⟨_, inside, rfl⟩⟩
    · intro p made
      refine ⟨?_, fun e => isNonzero_ofEntries made⟩
      obtain ⟨-, rfl⟩ := ofEntries_eq_ok.mp made
      exact shape_ofOffsets _ _

/-- Three entries of a cube, in the order of their last coordinates, and lists that are not in this
order, that repeat an entry, or that go beyond the shape. -/
theorem views_agree_cube :
    let p := masked [2, 2, 2] [false, true, false, false, true, false, true, false]
    p.Made ∧ p.entries = [[1, 0, 0], [0, 0, 1], [0, 1, 1]] ∧ p.entries.Pairwise Entry.Before ∧
      p.countNonzero = 3 ∧ ofEntries [2, 2, 2] p.entries = .ok p ∧
      (∃ q, ofEntries [2, 2, 2] [[0, 1, 1], [1, 0, 0], [0, 1, 1]] = .ok q ∧
        q.isNonzero [1, 0, 0] = true ∧ q.isNonzero [0, 0, 1] = false) ∧
      ¬∃ q, ofEntries [2, 2, 2] [[1, 0, 0], [0, 2, 0]] = .ok q := by
  obtain ⟨views, lists⟩ := views_agree
  have made : (masked [2, 2, 2] [false, true, false, false, true, false, true, false]).Made :=
    made_iff_sized.mpr rfl
  obtain ⟨sorted, -, -, p', again, -, same⟩ := views _ made
  obtain rfl := same rfl
  obtain ⟨q, listed⟩ := (lists [2, 2, 2] [[0, 1, 1], [1, 0, 0], [0, 1, 1]]).1.mpr (by decide)
  have nonzero := ((lists _ _).2 q listed).2
  refine ⟨made, by decide, sorted, by decide, again, ⟨q, listed, ?_, ?_⟩, ?_⟩
  · exact (nonzero [1, 0, 0]).mpr (by decide)
  · rw [← Bool.not_eq_true, nonzero]
    decide
  · rw [(lists _ _).1]
    decide

end Pattern

end TensorKernel
