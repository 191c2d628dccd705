import TensorKernel.Proofs.Pattern.Transposition

/-!
The shortcut for dense patterns. Sums and reordered patterns are the same, entry by entry, whether
a dense operand is given as such or with a flag for each of its entries. A product or a reduction
is taken for dense without a look at its operands; so a sum over no terms, along a dimension of
extent zero, counts as non-zero. That is the only difference: the shortcut is exact exactly if the
operands have entries wherever a dense result has some.

* `Alike`: results that no question about entries tells apart;
* `shortcuts_alike`: which shortcuts are exact.
-/

namespace TensorKernel

theorem Shape.volume_pos {s : Shape} : 0 < volume s ↔ ∀ n ∈ s, 0 < n := by
  induction s with
  | nil => simp [volume]
  | cons n ns ih =>
    rw [List.forall_mem_cons, ← ih, volume, Nat.pos_iff_ne_zero, Nat.mul_ne_zero_iff,
      Nat.pos_iff_ne_zero, Nat.pos_iff_ne_zero]

namespace Pattern

/-- The pattern that stores a flag for every entry. -/
def spelled : Pattern → Pattern
  | dense shape => masked shape (List.replicate (Shape.volume shape) true)
  | masked shape mask => masked shape mask

variable {a a' b b' : Pattern}

@[simp] theorem shape_spelled (p : Pattern) : p.spelled.shape = p.shape := by
  cases p <;> rfl

@[simp] theorem isDense_spelled (p : Pattern) : p.spelled.isDense = false := by
  cases p <;> rfl

theorem spelled_of_masked {p : Pattern} (h : p.isDense = false) : p.spelled = p := by
  cases p with
  | dense => cases h
  | masked => rfl

theorem sized_spelled {p : Pattern} (h : p.Sized) : p.spelled.Sized := by
  cases p with
  | dense => exact List.length_replicate
  | masked => exact h

@[simp] theorem isNonzero_spelled (p : Pattern) (e : Entry) :
    p.spelled.isNonzero e = p.isNonzero e := by
  cases p with
  | dense shape =>
    rw [isNonzero_dense, spelled, isNonzero_masked]
    cases held : Shape.holds shape e with
    | false => rfl
    | true => simp [Shape.offset_lt_volume held]
  | masked => rfl

theorem countNonzero_spelled (p : Pattern) : p.spelled.countNonzero = p.countNonzero := by
  cases p with
  | dense => exact List.count_replicate_self
  | masked => rfl

/-- The pattern, or the same with a flag for every entry. -/
def Spells (p p' : Pattern) : Prop := p' = p ∨ p' = p.spelled

namespace Spells

variable {p p' : Pattern}

theorem shape (h : Spells p p') : p'.shape = p.shape := by
  rcases h with rfl | rfl
  · rfl
  · exact shape_spelled p

theorem sized (h : Spells p p') (hp : p.Sized) : p'.Sized := by
  rcases h with rfl | rfl
  · exact hp
  · exact sized_spelled hp

theorem isNonzero (h : Spells p p') (e : Entry) : p'.isNonzero e = p.isNonzero e := by
  rcases h with rfl | rfl
  · rfl
  · exact isNonzero_spelled p e

theorem masked (h : Spells p p') (form : p.isDense = false) : p'.isDense = false := by
  rcases h with rfl | rfl
  · exact form
  · exact isDense_spelled p

theorem masked_of_ne (h : Spells p p') (other : p' ≠ p) : p'.isDense = false := by
  obtain rfl := h.resolve_left other
  exact isDense_spelled p

end Spells

/-- Both results are refused for the same reason, or both are patterns of one shape with the same
non-zero entries, and with as many. -/
def Alike : Result Pattern → Result Pattern → Prop
  | .ok p, .ok p' => p.shape = p'.shape ∧ (∀ e, p.isNonzero e = p'.isNonzero e) ∧
      p.countNonzero = p'.countNonzero
  | .error cause, .error cause' => cause = cause'
  | _, _ => False

theorem Alike.refl (x : Result Pattern) : Alike x x := by
  cases x with
  | ok => exact ⟨rfl, fun _ => rfl, rfl⟩
  | error => exact rfl

/-- Patterns with the same entries have as many of them. -/
theorem alike_ok (ha : a.Sized) (hb : b.Sized) (shape : a.shape = b.shape)
    (same : ∀ e, a.isNonzero e = b.isNonzero e) : Alike (.ok a) (.ok b) := by
  refine ⟨shape, same, ?_⟩
  have flags : a.spelled = b.spelled := by
    refine eq_of_isNonzero (sized_spelled ha) (sized_spelled hb) ?_ ?_ fun _ e => ?_
    · rw [isDense_spelled, isDense_spelled]
    · rw [shape_spelled, shape_spelled, shape]
    · rw [isNonzero_spelled, isNonzero_spelled, same]
  rw [← countNonzero_spelled a, flags, countNonzero_spelled]

/-- A dense result is like one with flags exactly if its operands have entries wherever it has
some. -/
theorem alike_iff_of_dense {c c' : Pattern} {filled : Prop} (form : c.isDense = true)
    (sized : c'.Sized) (shape : c.shape = c'.shape)
    (exact : filled → ∀ e, c.isNonzero e = true → c'.isNonzero e = true)
    (some : ∀ e, c'.isNonzero e = true → filled) :
    Alike (.ok c) (.ok c') ↔ (0 < Shape.volume c.shape → filled) := by
  have whole := isNonzero_of_isDense form
  constructor
  · rintro ⟨-, same, -⟩ entries
    refine some (Shape.unravel c.shape 0) ?_
    rw [← same, whole]
    exact Shape.holds_unravel entries
  · intro entries
    refine alike_ok ?_ sized shape fun e => ?_
    · cases c with
      | dense => trivial
      | masked => cases form
    · rw [Bool.eq_iff_iff]
      constructor
      · intro nonzero
        have held := (whole e).symm.trans nonzero
        exact exact (entries (Nat.zero_lt_of_lt (Shape.offset_lt_volume held))) e nonzero
      · intro nonzero
        rw [whole, shape]
        exact holds_of_isNonzero nonzero

/-- A dense result that has entries has operands that have entries. -/
def Grounded (result : Result Pattern) (operands : List Pattern) : Prop :=
  ∀ c, result = .ok c → c.isDense = true → 0 < Shape.volume c.shape →
    ∀ p ∈ operands, 0 < Shape.volume p.shape

theorem grounded_ok {c : Pattern} {operands : List Pattern} (form : c.isDense = true) :
    Grounded (.ok c) operands ↔
      (0 < Shape.volume c.shape → ∀ p ∈ operands, 0 < Shape.volume p.shape) := by
  constructor
  · exact fun h => h c rfl form
  · intro h c' same _
    cases same
    exact h

theorem grounded_masked {c : Pattern} {operands : List Pattern} (form : c.isDense = false) :
    Grounded (.ok c) operands := by
  intro c' same whole
  cases same
  cases form.symm.trans whole

theorem grounded_error {e : Error} {operands : List Pattern} : Grounded (.error e) operands :=
  fun _ same => by cases same

/-! ### The operations -/

theorem alike_add (ha : a.Sized) (hb : b.Sized) (sa : Spells a a') (sb : Spells b b') :
    Alike (a.add b) (a'.add b') := by
  by_cases shapes : a.shape = b.shape
  · have shapes' : a'.shape = b'.shape := by rw [sa.shape, sb.shape, shapes]
    obtain ⟨c, done⟩ := add_ok shapes
    obtain ⟨c', done'⟩ := add_ok shapes'
    rw [done, done']
    refine alike_ok (sized_add ha hb done) (sized_add (sa.sized ha) (sb.sized hb) done') ?_
      fun e => ?_
    · rw [(add_eq_ok done).2, (add_eq_ok done').2, sa.shape]
    · rw [isNonzero_add ha hb done, isNonzero_add (sa.sized ha) (sb.sized hb) done',
        sa.isNonzero, sb.isNonzero]
  · unfold add
    rw [sa.shape, sb.shape, if_pos shapes, if_pos shapes]
    exact .refl _

theorem volume_pos_of_isNonzero {p : Pattern} {e : Entry} (h : p.isNonzero e = true) :
    0 < Shape.volume p.shape :=
  Nat.zero_lt_of_lt (Shape.offset_lt_volume (holds_of_isNonzero h))

theorem pick?_range {values picked : List Nat} {perm : List Nat}
    (h : pick? values perm = some picked) : pick? (List.range values.length) perm = some perm := by
  rw [pick?_eq_some] at h ⊢
  rw [List.forall₂_same]
  intro k hk
  obtain ⟨_, -, found⟩ := exists_of_forall₂_right h.flip hk
  obtain ⟨place, -⟩ := List.getElem?_eq_some_iff.mp found
  rw [List.getElem?_range place]

theorem alike_transpose? (ha : a.Sized) {perm : List Nat} (distinct : perm.Nodup) :
    Alike (dimension (a.transpose? perm)) (dimension (a.spelled.transpose? perm)) ↔
      Grounded (dimension (a.transpose? perm)) [a] := by
  cases form : a.isDense with
  | false =>
    rw [spelled_of_masked form]
    refine iff_of_true (.refl _) ?_
    cases done : a.transpose? perm with
    | none => exact grounded_error
    | some c => exact grounded_masked ((isDense_transpose? done).trans form)
  | true =>
    cases done : a.transpose? perm with
    | none =>
      have none' : a.spelled.transpose? perm = none := by
        rw [transpose?, Option.map_eq_none_iff] at done ⊢
        rw [shape_spelled, done]
      rw [none']
      exact iff_of_true (.refl _) grounded_error
    | some c =>
      have picked := (transpose?_eq_some done).1
      obtain ⟨c', done'⟩ := transpose?_of_pick? (p := a.spelled) (by rw [shape_spelled, picked])
      have shape' := (transpose?_eq_some done').1
      rw [shape_spelled, picked, Option.some.injEq] at shape'
      have places := pick?_range picked
      have entries' (e : Entry) := isNonzero_transpose? (sized_spelled ha) List.nodup_range
        (by rw [shape_spelled, List.length_range]) places done' (isDense_spelled a) (e := e)
      simp only [isNonzero_spelled] at entries'
      rw [done', dimension, dimension, grounded_ok ((isDense_transpose? done).trans form)]
      refine alike_iff_of_dense ((isDense_transpose? done).trans form) (sized_transpose? done')
        shape' (fun filled e nonzero => (entries' e).mpr ?_) fun e nonzero => ?_
      · rw [List.forall_mem_singleton] at filled
        exact (isNonzero_transpose?_iff ha List.nodup_range List.length_range distinct places done
          (Shape.volume_pos.mp filled)).mp nonzero
      · obtain ⟨q, -, nonzero⟩ := (entries' e).mp nonzero
        rw [List.forall_mem_singleton]
        exact volume_pos_of_isNonzero nonzero

/-- A reduction is refused for the shape of the pattern alone. -/
theorem reduce_eq_error {source target : List Char} {e : Error} (shape : a'.shape = a.shape)
    (h : reduce source target a = .error e) : reduce source target a' = .error e := by
  unfold reduce at h ⊢
  rw [shape]
  split at h
  · next rank =>
    rw [if_pos rank]
    exact h
  · next rank =>
    rw [if_neg rank]
    split at h
    · exact h
    · split at h <;> cases h

/-- A product is refused for the shapes of its operands alone. -/
theorem einsum_eq_error {descriptor : List Char} {e : Error} (shapeA : a'.shape = a.shape)
    (shapeB : b'.shape = b.shape) (h : einsum descriptor a b = .error e) :
    einsum descriptor a' b' = .error e := by
  rw [einsum, bind_eq_error] at h ⊢
  rcases h with unread | ⟨d, parsed, h⟩
  · exact .inl unread
  refine .inr ⟨d, parsed, ?_⟩
  rw [shapeA, shapeB]
  split at h
  · next ranks =>
    rw [if_pos ranks]
    exact h
  · next ranks =>
    rw [if_neg ranks]
    dsimp only at h ⊢
    split at h
    · exact h
    · exact h
    · split at h <;> cases h

theorem alike_reduce (ha : a.Sized) {source target : List Char} (hs : source.Nodup)
    (ht : target.Nodup) :
    Alike (reduce source target a) (reduce source target a.spelled) ↔
      Grounded (reduce source target a) [a] := by
  cases done : reduce source target a with
  | error e =>
    rw [reduce_eq_error (shape_spelled a) done]
    exact iff_of_true (.refl _) grounded_error
  | ok c =>
    cases form : a.isDense with
    | false =>
      rw [spelled_of_masked form, done]
      exact iff_of_true (.refl _) (grounded_masked ((isDense_reduce done).trans form))
    | true =>
      obtain ⟨rank, found, -⟩ := reduce_eq_ok done
      rw [← shape_spelled] at rank found
      obtain ⟨c', done', shape'⟩ := reduce_ok rank found
      have entries' (e : Entry) := isNonzero_reduce_masked (sized_spelled ha) hs done'
        (isDense_spelled a) (e := e)
      simp only [isNonzero_spelled] at entries'
      rw [done', grounded_ok ((isDense_reduce done).trans form)]
      refine alike_iff_of_dense ((isDense_reduce done).trans form) (sized_reduce done') shape'.symm
        (fun filled e nonzero => (entries' e).mpr ?_) fun e nonzero => ?_
      · rw [List.forall_mem_singleton, Shape.volume_pos] at filled
        exact (isNonzero_reduce_iff ha hs ht done fun pair mem _ =>
          filled pair.2 (List.of_mem_zip mem).2).mp nonzero
      · obtain ⟨q, -, nonzero⟩ := (entries' e).mp nonzero
        rw [List.forall_mem_singleton]
        exact volume_pos_of_isNonzero nonzero

theorem alike_einsum (ha : a.Sized) (hb : b.Sized) (sa : Spells a a') (sb : Spells b b')
    {descriptor : List Char} (distinct : ∀ d, Descriptor.parse descriptor = .ok d →
      d.left.Nodup ∧ d.right.Nodup ∧ d.output.Nodup) :
    Alike (einsum descriptor a b) (einsum descriptor a' b') ↔
      (a' = a ∧ b' = b) ∨ Grounded (einsum descriptor a b) [a, b] := by
  cases done : einsum descriptor a b with
  | error e =>
    rw [einsum_eq_error sa.shape sb.shape done]
    exact iff_of_true (.refl _) (.inr grounded_error)
  | ok c =>
    obtain ⟨d, parsed, left, right, consistent, found, -⟩ := einsum_eq_ok done
    obtain ⟨hl, hr, ho⟩ := distinct d parsed
    rw [← sa.shape] at left consistent found
    rw [← sb.shape] at right consistent found
    obtain ⟨c', done', shape'⟩ := einsum_ok parsed left right consistent found
    have entries' (masked : (a'.isDense && b'.isDense) = false) (e : Entry) :=
      isNonzero_einsum_masked (sa.sized ha) (sb.sized hb) parsed hl hr done' masked (e := e)
    simp only [sa.isNonzero, sb.isNonzero] at entries'
    have form := isDense_einsum done
    rw [done']
    cases both : a.isDense && b.isDense with
    | false =>
      have masked : (a'.isDense && b'.isDense) = false := by
        rw [Bool.and_eq_false_iff] at both ⊢
        exact both.imp sa.masked sb.masked
      refine iff_of_true (alike_ok (sized_einsum done) (sized_einsum done') shape'.symm fun e => ?_)
        (.inr (grounded_masked (form.trans both)))
      rw [Bool.eq_iff_iff, isNonzero_einsum_masked ha hb parsed hl hr done both, entries' masked]
    | true =>
      by_cases same : a' = a ∧ b' = b
      · obtain ⟨rfl, rfl⟩ := same
        cases done.symm.trans done'
        exact iff_of_true (.refl _) (.inl ⟨rfl, rfl⟩)
      · have masked : (a'.isDense && b'.isDense) = false := by
          rw [Bool.and_eq_false_iff]
          exact (not_and_or.mp same).imp sa.masked_of_ne sb.masked_of_ne
        rw [or_iff_right same, grounded_ok (form.trans both)]
        refine alike_iff_of_dense (form.trans both) (sized_einsum done') shape'.symm
          (fun filled e nonzero => (entries' masked e).mpr ?_) fun e nonzero => ?_
        · simp only [List.forall_mem_cons, Shape.volume_pos] at filled
          refine (isNonzero_einsum_iff ha hb parsed hl hr ho done fun pair mem _ => ?_).mp nonzero
          rcases List.mem_append.mp mem with mem | mem
          · exact filled.1 pair.2 (List.of_mem_zip mem).2
          · exact filled.2.1 pair.2 (List.of_mem_zip mem).2
        · obtain ⟨q, -, hx, hy⟩ := (entries' masked e).mp nonzero
          simp [volume_pos_of_isNonzero hx, volume_pos_of_isNonzero hy]

theorem alike_of_spells {f : Pattern → Result Pattern} {grounded : Prop} (sa : Spells a a')
    (h : Alike (f a) (f a.spelled) ↔ grounded) : Alike (f a) (f a') ↔ a' = a ∨ grounded := by
  rw [← h]
  rcases sa with rfl | rfl
  · exact iff_of_true (.refl _) (.inl rfl)
  · refine ⟨.inr, fun either => either.elim (fun same => ?_) id⟩
    rw [same]
    exact .refl _

/-- A permutation of the dimensions loses no entries. -/
theorem grounded_transpose? {perm : List Nat} (order : perm.Perm (List.range a.shape.length)) :
    Grounded (dimension (a.transpose? perm)) [a] := by
  cases done : a.transpose? perm with
  | none => exact grounded_error
  | some c =>
    intro c' same _ entries
    cases same
    obtain ⟨s, source, target⟩ := shape_transpose? List.nodup_range List.length_range
      (pick?_range (transpose?_eq_some done).1) done
    rw [target, Shape.volume_pos, List.forall_mem_map] at entries
    rw [List.forall_mem_singleton, source, Shape.volume_pos, List.forall_mem_map]
    exact fun k hk => entries k (order.mem_iff.mpr hk)

/-- What the shortcuts for dense patterns get right. Sums and permuted patterns are always those of
the patterns with a flag for every entry. Dropped dimensions, reductions and products of distinct
names are, exactly if nothing was replaced or a dense result that has entries has operands that have
entries. -/
theorem shortcuts_alike (ha : a.Sized) (hb : b.Sized) (sa : Spells a a') (sb : Spells b b') :
    Alike (a.add b) (a'.add b') ∧
    (∀ perm : List Nat, perm.Perm (List.range a.shape.length) →
      Alike (dimension (a.transpose? perm)) (dimension (a'.transpose? perm))) ∧
    (∀ perm : List Nat, perm.Nodup →
      (Alike (dimension (a.transpose? perm)) (dimension (a'.transpose? perm)) ↔
        a' = a ∨ Grounded (dimension (a.transpose? perm)) [a])) ∧
    (∀ source target : List Char, source.Nodup → target.Nodup →
      (Alike (reduce source target a) (reduce source target a') ↔
        a' = a ∨ Grounded (reduce source target a) [a])) ∧
    ∀ descriptor, (∀ d, Descriptor.parse descriptor = .ok d →
        d.left.Nodup ∧ d.right.Nodup ∧ d.output.Nodup) →
      (Alike (einsum descriptor a b) (einsum descriptor a' b') ↔
        (a' = a ∧ b' = b) ∨ Grounded (einsum descriptor a b) [a, b]) := by
  have transposed (perm : List Nat) (distinct : perm.Nodup) :=
    alike_of_spells (f := fun p => dimension (p.transpose? perm)) sa (alike_transpose? ha distinct)
  refine ⟨alike_add ha hb sa sb, fun perm order => ?_, transposed, fun source target hs ht => ?_,
    fun descriptor distinct => alike_einsum ha hb sa sb distinct⟩
  · exact (transposed perm (order.nodup_iff.mpr List.nodup_range)).mpr
      (.inr (grounded_transpose? order))
  · exact alike_of_spells (f := reduce source target) sa (alike_reduce ha hs ht)

/-- The sums of the rows of a matrix that has columns. -/
theorem shortcuts_alike_matrix :
    ((dense [2, 3]).Sized ∧ Spells (dense [2, 3]) (dense [2, 3]).spelled) ∧
      Alike (reduce ['i', 'k'] ['i'] (dense [2, 3]))
        (reduce ['i', 'k'] ['i'] (dense [2, 3]).spelled) := by
  refine ⟨⟨trivial, .inr rfl⟩, ?_⟩
  obtain ⟨-, -, -, reductions, -⟩ := shortcuts_alike (a := dense [2, 3]) (b := dense [])
    trivial trivial (.inr rfl) (.inl rfl)
  refine (reductions ['i', 'k'] ['i'] (by decide) (by decide)).mpr (.inr ?_)
  exact (grounded_ok (c := dense [2]) rfl).mpr (by decide)

/-- The sum of no columns, and the product over no terms, count as non-zero, and only without
flags. -/
theorem empty_sum_nonzero :
    ¬Alike (reduce ['i', 'k'] ['i'] (dense [2, 0]))
      (reduce ['i', 'k'] ['i'] (dense [2, 0]).spelled) ∧
    ¬Alike (einsum "ik,kj->ij".toList (dense [2, 0]) (dense [0, 2]))
      (einsum "ik,kj->ij".toList (dense [2, 0]).spelled (dense [0, 2])) := by
  have tells {c c' : Pattern} (e : Entry) (other : c.isNonzero e ≠ c'.isNonzero e) :
      ¬Alike (.ok c) (.ok c') := fun alike => other (alike.2.1 e)
  constructor
  · change ¬Alike (.ok (dense [2])) (.ok (masked [2] [false, false]))
    exact tells [0] (by decide)
  · change ¬Alike (.ok (dense [2, 2])) (.ok (masked [2, 2] [false, false, false, false]))
    exact tells [0, 0] (by decide)

end Pattern

end TensorKernel
