import TensorKernel.Proofs.Layout.Addressing
import TensorKernel.Proofs.Pattern.Bounds
import TensorKernel.Proofs.Pattern.Counting
import TensorKernel.Proofs.Pattern.Shortcut

/-!
Permutations of dimensions. Patterns, boxes and layouts are reordered by one convention: dimension
`i` of the result is dimension `p[i]`. So one reordering after the other is the reordering by the
permutation with `p[q[i]]` at position `i`, in all three of them, and they stay together: the box
of a transposed pattern is the permuted box of the pattern.

* `Acts`: what it means that permutations act on values of one rank;
* `isNonzero_transpose?_map`, `countNonzero_transpose?`, `permute?_ofPattern`: transposed patterns;
* `transposition_acts`: patterns, boxes and layouts.
-/

namespace TensorKernel

/-- The permutations of `n` dimensions act on some values: every value can be reordered by each of
them, one after the other is their composition, the identity changes nothing, and no two of them
reorder all values alike. -/
structure Acts {α : Type} (reorder : α → List Nat → Option α) (n : Nat) (among : α → Prop) :
    Prop where
  closed : ∀ x p, among x → p.Perm (List.range n) → ∃ y, reorder x p = some y ∧ among y
  composed : ∀ x y p q, among x → p.Perm (List.range n) → q.Perm (List.range n) →
    reorder x p = some y → reorder y q = reorder x (Pattern.pick p q)
  identity : ∀ x, among x → reorder x (List.range n) = some x
  faithful : ∀ p q, p.Perm (List.range n) → q.Perm (List.range n) →
    (∀ x, among x → reorder x p = reorder x q) → p = q

namespace Pattern

/-! ### Values in another order -/

section
variable {α : Type} {n : Nat} {p q : List Nat}

theorem length_of_perm (valid : p.Perm (List.range n)) : p.length = n := by
  rw [valid.length_eq, List.length_range]

/-- A permutation is what it picks from the identity. -/
theorem pick?_range_of_perm (valid : p.Perm (List.range n)) : pick? (List.range n) p = some p := by
  have valid' : p.Perm (List.range (List.range n).length) := by rwa [List.length_range]
  obtain ⟨_, found, -⟩ := pick?_of_perm valid'
  have places := pick?_range found
  rwa [List.length_range] at places

/-- A permutation moves the value of each dimension. -/
theorem pick?_map_range (valid : p.Perm (List.range n)) (f : Nat → α) :
    pick? ((List.range n).map f) p = some (p.map f) :=
  pick?_map (pick?_range_of_perm valid) f

theorem pick_map_range (valid : p.Perm (List.range n)) (f : Nat → α) :
    pick ((List.range n).map f) p = p.map f :=
  pick_of_pick? (pick?_map_range valid f)

/-- Values that agree on a permutation of the dimensions agree on the dimensions. -/
theorem map_range_eq (valid : p.Perm (List.range n)) {f f' : Nat → α} (same : p.map f = p.map f') :
    (List.range n).map f = (List.range n).map f' :=
  List.map_congr_left fun k hk => List.map_eq_map_iff.mp same k (valid.mem_iff.mpr hk)

/-- A list has a value for each of its positions. -/
theorem exists_map_range [Inhabited α] {values : List α} (length : values.length = n) :
    ∃ f : Nat → α, values = (List.range n).map f := by
  have rank : (List.range n).length = values.length := by rw [List.length_range, length]
  obtain ⟨f, same, -⟩ := exists_map_eq List.nodup_range rank fun _ => default
  exact ⟨f, same.symm⟩

theorem pick?_identity [Inhabited α] {values : List α} (length : values.length = n) :
    pick? values (List.range n) = some values := by
  obtain ⟨f, rfl⟩ := exists_map_range length
  exact pick?_map_range (.refl _) f

theorem pick?_of_perms (hp : p.Perm (List.range n)) (hq : q.Perm (List.range n)) :
    pick? p q = some (pick p q) := by
  obtain ⟨r, found, -⟩ := pick?_of_perm (length_of_perm hp ▸ hq)
  rw [found, pick_of_pick? found]

theorem perm_pick (hp : p.Perm (List.range n)) (hq : q.Perm (List.range n)) :
    (pick p q).Perm (List.range n) := by
  obtain ⟨f, same⟩ := exists_map_range (length_of_perm hp)
  have moved : pick p q = q.map f := by rw [same, pick_map_range hq]
  rw [moved]
  exact (hq.map f).trans (same ▸ hp)

theorem getElem?_pick? {values picked : List α} (found : pick? values p = some picked) (i : Nat) :
    picked[i]? = p[i]?.bind fun k => values[k]? := by
  rw [pick?_eq_some] at found
  induction found generalizing i with
  | nil => rfl
  | cons here _ ih =>
    cases i with
    | zero => exact here.symm
    | succ i => exact ih i

/-- Values that are picked from picked ones. -/
theorem pick?_pick? {values picked : List α} {r : List Nat} (found : pick? values p = some picked)
    (places : pick? p q = some r) : pick? picked q = pick? values r := by
  rw [pick?_eq_some] at places
  induction places with
  | nil => rfl
  | @cons k m q r place _ ih =>
    have value : picked[k]? = values[m]? := by rw [getElem?_pick? found, place, Option.bind_some]
    rw [pick?, pick?, List.mapM_cons, List.mapM_cons, value, ← pick?, ← pick?, ih]

end

/-! ### Transposed patterns -/

section
variable {n : Nat} {a b : Pattern} {p : List Nat}

theorem exists_transpose? (rank : a.shape.length = n) (valid : p.Perm (List.range n)) :
    ∃ b, a.transpose? p = some b := by
  obtain ⟨shape, picked, -⟩ := pick?_of_perm (rank ▸ valid)
  exact transpose?_of_pick? picked

theorem rank_transpose? (valid : p.Perm (List.range n)) (done : a.transpose? p = some b) :
    b.shape.length = n := by
  have picks := pick?_eq_some.mp (transpose?_eq_some done).1
  rw [← picks.length_eq, length_of_perm valid]

variable (ha : a.Sized) (rank : a.shape.length = n) (valid : p.Perm (List.range n))
  (done : a.transpose? p = some b)
include ha rank valid done

/-- A transposed pattern has at the moved point what the pattern has at the point. -/
theorem isNonzero_transpose?_map (f : Nat → Nat) :
    b.isNonzero (p.map f) = a.isNonzero ((List.range n).map f) := by
  have ranks : (List.range n).length = a.shape.length := by rw [List.length_range, rank]
  have picked := pick?_range_of_perm valid
  rw [Bool.eq_iff_iff]
  cases form : a.isDense with
  | true =>
    obtain ⟨s, source, shape⟩ := shape_transpose? List.nodup_range ranks picked done
    rw [isNonzero_of_isDense form, isNonzero_of_isDense ((isDense_transpose? done).trans form),
      source, shape, Shape.holds_map_map, Shape.holds_map_map]
    simp only [valid.mem_iff]
  | false =>
    rw [isNonzero_transpose? ha List.nodup_range ranks picked done form]
    constructor
    · rintro ⟨f', same, nonzero⟩
      rwa [← map_range_eq valid same]
    · exact fun nonzero => ⟨f, rfl, nonzero⟩

theorem isNonzero_transpose?_pick {e : Entry} (length : e.length = n) :
    b.isNonzero (pick e p) = a.isNonzero e := by
  obtain ⟨f, rfl⟩ := exists_map_range length
  rw [pick_map_range valid, isNonzero_transpose?_map ha rank valid done]

/-- Each entry of a transposed pattern is the moved entry of the pattern. -/
theorem exists_of_isNonzero_transpose? {e : Entry} (nonzero : b.isNonzero e = true) :
    ∃ f : Nat → Nat, e = p.map f ∧ a.isNonzero ((List.range n).map f) = true := by
  have distinct : p.Nodup := valid.nodup_iff.mpr List.nodup_range
  have length : p.length = e.length := by
    rw [length_of_perm valid, length_of_isNonzero nonzero, rank_transpose? valid done]
  obtain ⟨f, rfl, -⟩ := exists_map_eq distinct length fun _ => 0
  rw [isNonzero_transpose?_map ha rank valid done] at nonzero
  exact ⟨f, rfl, nonzero⟩

theorem countNonzero_transpose? : b.countNonzero = a.countNonzero := by
  have hb := sized_transpose? done
  rw [← card_support ha, ← card_support hb]
  refine (Finset.card_bij (fun e _ => pick e p) ?_ ?_ ?_).symm
  · intro e he
    rw [mem_support ha] at he
    rwa [mem_support hb, isNonzero_transpose?_pick ha rank valid done
      ((length_of_isNonzero he).trans rank)]
  · intro e he e' he' same
    rw [mem_support ha] at he he'
    obtain ⟨f, rfl⟩ := exists_map_range ((length_of_isNonzero he).trans rank)
    obtain ⟨f', rfl⟩ := exists_map_range ((length_of_isNonzero he').trans rank)
    rw [pick_map_range valid, pick_map_range valid] at same
    exact map_range_eq valid same
  · intro e he
    rw [mem_support hb] at he
    obtain ⟨f, rfl, nonzero⟩ := exists_of_isNonzero_transpose? ha rank valid done he
    exact ⟨_, (mem_support ha).mpr nonzero, pick_map_range valid f⟩

/-- The coordinates in a dimension move with it. -/
theorem coordinates_transpose? {i k : Nat} (place : p[i]? = some k) :
    b.coordinates i = a.coordinates k := by
  have below : k < n := List.mem_range.mp (valid.mem_iff.mp (List.mem_of_getElem? place))
  have moved (f : Nat → Nat) : (p.map f)[i]? = ((List.range n).map f)[k]? := by
    rw [List.getElem?_map, List.getElem?_map, place, List.getElem?_range below]
  ext c
  constructor
  · rintro ⟨e, nonzero, coordinate⟩
    obtain ⟨f, rfl, nonzero'⟩ := exists_of_isNonzero_transpose? ha rank valid done nonzero
    exact ⟨_, nonzero', moved f ▸ coordinate⟩
  · rintro ⟨e, nonzero, coordinate⟩
    obtain ⟨f, rfl⟩ := exists_map_range ((length_of_isNonzero nonzero).trans rank)
    rw [← isNonzero_transpose?_map ha rank valid done] at nonzero
    exact ⟨_, nonzero, moved f ▸ coordinate⟩

/-- The bounds of a dimension move with it. -/
theorem bounds?_transpose? {bounds : List (Nat × Nat)} (known : a.bounds? = some bounds) :
    ∃ bounds', b.bounds? = some bounds' ∧ pick? bounds p = some bounds' := by
  have hb := sized_transpose? done
  obtain ⟨e, nonzero⟩ := exists_of_bounds ha known
  have length := (length_of_isNonzero nonzero).trans rank
  rw [← isNonzero_transpose?_pick ha rank valid done length] at nonzero
  obtain ⟨bounds', known', -⟩ := within_bounds nonzero
  have ranks : bounds.length = n := (length_bounds known).trans rank
  have lengths : p.length = bounds'.length := by
    rw [length_bounds known', rank_transpose? valid done, length_of_perm valid]
  refine ⟨bounds', known', pick?_eq_some.mpr (List.forall₂_iff_get.mpr ⟨lengths, ?_⟩)⟩
  intro i hp hb'
  have below : p[i] < n := List.mem_range.mp (valid.mem_iff.mp (List.getElem_mem hp))
  have source := List.getElem?_eq_getElem (ranks ▸ below)
  have target := List.getElem?_eq_getElem hb'
  have same := coordinates_transpose? ha rank valid done (List.getElem?_eq_getElem hp)
  have least := isLeast_bounds hb known' target
  have greatest := isGreatest_bounds hb known' target
  rw [same] at least greatest
  exact source.trans (congrArg some (Prod.ext ((isLeast_bounds ha known source).unique least)
    ((isGreatest_bounds ha known source).unique greatest)))

/-- The box of a transposed pattern is the permuted box. -/
theorem permute?_ofPattern : (Box.ofPattern a).permute? p = some (Box.ofPattern b) := by
  have picked := (transpose?_eq_some done).1
  cases known : a.bounds? with
  | some bounds =>
    obtain ⟨bounds', known', found⟩ := bounds?_transpose? ha rank valid done known
    rw [Box.ofPattern, Box.ofPattern, known, known', Box.permute?, pick?_map found]
    rfl
  | none =>
    have zero : ∀ e, b.isNonzero e = false := by
      intro e
      rw [← Bool.not_eq_true]
      intro nonzero
      obtain ⟨f, -, nonzero'⟩ := exists_of_isNonzero_transpose? ha rank valid done nonzero
      rw [(bounds?_eq_none ha).mp known] at nonzero'
      cases nonzero'
    rw [Box.ofPattern, Box.ofPattern, known, (bounds?_eq_none (sized_transpose? done)).mpr zero,
      Box.permute?, pick?_map picked]
    rfl

end

end Pattern

/-! ### Group actions -/

section
open Pattern

variable (n : Nat)

theorem acts_pattern : Acts transpose? n fun a => a.Sized ∧ a.shape.length = n where
  closed := by
    rintro a p ⟨ha, rank⟩ valid
    obtain ⟨b, done⟩ := exists_transpose? rank valid
    exact ⟨b, done, sized_transpose? done, rank_transpose? valid done⟩
  composed := by
    rintro a b p q ⟨ha, rank⟩ hp hq first
    have hr := perm_pick hp hq
    have hb := sized_transpose? first
    have rank' := rank_transpose? hp first
    obtain ⟨c, second⟩ := exists_transpose? rank' hq
    obtain ⟨c', direct⟩ := exists_transpose? rank hr
    have form : c.isDense = c'.isDense := by
      rw [isDense_transpose? second, isDense_transpose? first, isDense_transpose? direct]
    have shape : c.shape = c'.shape := by
      have moved := pick?_pick? (transpose?_eq_some first).1 (pick?_of_perms hp hq)
      rwa [(transpose?_eq_some second).1, (transpose?_eq_some direct).1, Option.some.injEq] at moved
    have ranks : (pick p q).length = c.shape.length := by
      rw [length_of_perm hr, rank_transpose? hq second]
    rw [second, direct, Option.some.injEq]
    refine eq_of_points (sized_transpose? second) (sized_transpose? direct) form shape
      (hr.nodup_iff.mpr List.nodup_range) ranks fun f => ?_
    -- the point in the order of the first result
    obtain ⟨g, same⟩ : ∃ g, p.map f = (List.range n).map g :=
      exists_map_range ((List.length_map f).trans (length_of_perm hp))
    have moved := pick?_map (pick?_of_perms hp hq) f
    rw [same, pick?_map_range hq, Option.some.injEq] at moved
    calc c.isNonzero ((pick p q).map f)
        = c.isNonzero (q.map g) := by rw [moved]
      _ = b.isNonzero (p.map f) := by rw [isNonzero_transpose?_map hb rank' hq second, same]
      _ = a.isNonzero ((List.range n).map f) := isNonzero_transpose?_map ha rank hp first f
      _ = c'.isNonzero ((pick p q).map f) :=
        (isNonzero_transpose?_map ha rank hr direct f).symm
  identity := by
    rintro a ⟨ha, rank⟩
    obtain ⟨b, done⟩ := exists_transpose? rank (.refl _)
    have shape : b.shape = a.shape := by
      have same := pick?_identity rank
      rwa [(transpose?_eq_some done).1, Option.some.injEq] at same
    rw [done, Option.some.injEq]
    exact eq_of_points (sized_transpose? done) ha (isDense_transpose? done) shape List.nodup_range
      (by rw [List.length_range, shape, rank]) (isNonzero_transpose?_map ha rank (.refl _) done)
  faithful := by
    intro p q hp hq alike
    have moved {p : List Nat} (valid : p.Perm (List.range n)) :
        (dense (List.range n)).transpose? p = some (dense p) := by
      rw [transpose?, shape, pick?_range_of_perm valid]
      rfl
    have same := alike (dense (List.range n)) ⟨trivial, List.length_range⟩
    rw [moved hp, moved hq] at same
    exact dense.inj (Option.some.inj same)

theorem acts_box : Acts Box.permute? n fun b => b.rank = n where
  closed := by
    rintro b p rfl valid
    obtain ⟨ranges, picked, length⟩ := pick?_of_perm valid
    exact ⟨⟨ranges⟩, by rw [Box.permute?, picked, Option.map_some], length⟩
  composed := by
    rintro b b' p q rank hp hq first
    obtain ⟨ranges, picked, rfl⟩ := Option.map_eq_some_iff.mp first
    rw [Box.permute?, Box.permute?, pick?_pick? picked (pick?_of_perms hp hq)]
  identity := by
    rintro b rank
    rw [Box.permute?, pick?_identity rank, Option.map_some]
  faithful := by
    intro p q hp hq alike
    have moved {p : List Nat} (valid : p.Perm (List.range n)) :
        (Box.ofShape (List.range n)).permute? p = some (Box.ofShape p) := by
      rw [Box.permute?, Box.ofShape, pick?_map_range valid]
      rfl
    have same := alike _ ((Box.rank_ofShape _).trans List.length_range)
    rw [moved hp, moved hq, Option.some.injEq, Box.mk.injEq] at same
    exact List.map_injective_iff.mpr (fun _ _ h => (Range.mk.inj h).2) same

/-- A layout is permuted through its shape and its box before alignment. -/
theorem Layout.permute?_eq_some {l l' : Layout} {p : List Nat} :
    l.permute? p = some l' ↔ ∃ shape box, pick? l.shape p = some shape ∧
      l.unaligned.permute? p = some box ∧ Layout.ofBox shape box l.alignment = l' := by
  simp only [Layout.permute?, Option.bind_eq_bind, Option.bind_eq_some_iff, Option.pure_def,
    Option.some.injEq, exists_and_left]

theorem acts_layout : Acts Layout.permute? n fun l => l.Made ∧ l.shape.length = n where
  closed := by
    rintro l p ⟨made, rank⟩ valid
    obtain ⟨shape, picked, length⟩ := pick?_of_perm (rank ▸ valid)
    obtain ⟨box, permuted, rank'⟩ := (acts_box n).closed _ p (made.boxed.rank.trans rank) valid
    have length' := length.trans rank
    exact ⟨_, Layout.permute?_eq_some.mpr ⟨shape, box, picked, permuted, rfl⟩,
      .ofBox shape box _ (rank'.trans length'.symm), length'⟩
  composed := by
    rintro l l' p q ⟨made, rank⟩ hp hq first
    obtain ⟨shape, box, picked, permuted, rfl⟩ := Layout.permute?_eq_some.mp first
    have shapes := pick?_pick? picked (pick?_of_perms hp hq)
    have boxes := (acts_box n).composed _ box p q (made.boxed.rank.trans rank) hp hq permuted
    rw [Layout.permute?, Layout.permute?, ← shapes, ← boxes]
    rfl
  identity := by
    rintro l ⟨made, rank⟩
    have box := (acts_box n).identity _ (made.boxed.rank.trans rank)
    exact Layout.permute?_eq_some.mpr ⟨_, _, pick?_identity rank, box, made.boxed.aligned⟩
  faithful := by
    intro p q hp hq alike
    have rank : (Box.ofShape (List.range n)).rank = n :=
      (Box.rank_ofShape _).trans List.length_range
    have moved {p : List Nat} (valid : p.Perm (List.range n)) :
        ((Layout.full (List.range n)).permute? p).map Layout.shape = some p := by
      obtain ⟨box, permuted, -⟩ := (acts_box n).closed _ p rank valid
      rw [Layout.permute?_eq_some.mpr ⟨p, box, pick?_range_of_perm valid, permuted, rfl⟩]
      rfl
    have same := congrArg (Option.map Layout.shape)
      (alike (.full (List.range n)) ⟨.full _, List.length_range⟩)
    rwa [moved hp, moved hq, Option.some.injEq] at same

/-- Permutations act on patterns, boxes and layouts. They move the non-zero entries of a pattern,
and with them the box around these. -/
theorem transposition_acts :
    Acts transpose? n (fun a => a.Sized ∧ a.shape.length = n) ∧
      Acts Box.permute? n (fun b => b.rank = n) ∧
      Acts Layout.permute? n (fun l => l.Made ∧ l.shape.length = n) ∧
      ∀ a b p, a.Sized → a.shape.length = n → p.Perm (List.range n) → a.transpose? p = some b →
        (∀ e, e.length = n → b.isNonzero (pick e p) = a.isNonzero e) ∧
          b.countNonzero = a.countNonzero ∧
          (Box.ofPattern a).permute? p = some (Box.ofPattern b) := by
  refine ⟨acts_pattern n, acts_box n, acts_layout n, fun a b p ha rank valid done => ?_⟩
  exact ⟨fun e length => isNonzero_transpose?_pick ha rank valid done length,
    countNonzero_transpose? ha rank valid done, permute?_ofPattern ha rank valid done⟩

/-- Two entries, their dimensions rotated and then two of them exchanged. -/
theorem transposition_acts_rotated :
    let a := ofOffsets [2, 3, 4] [11, 21]
    pick [1, 2, 0] [0, 2, 1] = [1, 0, 2] ∧ ∃ b l, a.transpose? [1, 2, 0] = some b ∧
      b.transpose? [0, 2, 1] = a.transpose? [1, 0, 2] ∧ b.isNonzero [2, 1, 1] = true ∧
      b.isNonzero [1, 2, 1] = false ∧ b.countNonzero = 2 ∧
      Box.ofPattern b = ⟨[⟨1, 3⟩, ⟨1, 4⟩, ⟨1, 2⟩]⟩ ∧
      (Layout.ofPattern a (some 4)).permute? [1, 2, 0] = some l ∧
      l.permute? [0, 2, 1] = (Layout.ofPattern a (some 4)).permute? [1, 0, 2] := by
  obtain ⟨patterns, -, layouts, moved⟩ := transposition_acts 3
  have sized : (ofOffsets [2, 3, 4] [11, 21]).Sized := sized_ofOffsets _ _
  have rotation : [1, 2, 0].Perm (List.range 3) := by decide
  have exchange : [0, 2, 1].Perm (List.range 3) := by decide
  obtain ⟨b, done, -⟩ := patterns.closed _ _ ⟨sized, rfl⟩ rotation
  have made : (Layout.ofPattern (ofOffsets [2, 3, 4] [11, 21]) (some 4)).Made := .ofPattern _ _
  obtain ⟨l, permuted, -⟩ := layouts.closed _ _ ⟨made, rfl⟩ rotation
  obtain ⟨nonzero, count, box⟩ := moved _ b _ sized rfl rotation done
  refine ⟨by decide, b, l, done, patterns.composed _ b _ _ ⟨sized, rfl⟩ rotation exchange done,
    (nonzero [1, 2, 1] rfl).trans (by decide), (nonzero [1, 1, 2] rfl).trans (by decide),
    count.trans (by decide), ?_, permuted,
    layouts.composed _ l _ _ ⟨made, rfl⟩ rotation exchange permuted⟩
  exact Option.some.inj (box.symm.trans (by decide))

end

end TensorKernel
