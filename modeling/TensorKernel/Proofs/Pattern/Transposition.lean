import TensorKernel.Proofs.Pattern.Exactness

/-!
Patterns in another order of their dimensions. A transposed pattern has at each point the flag that
the pattern has there. So there are two ways to the pattern of a sum, a product or a reduction in
another order, and they lead to the same pattern: to transpose the result, or to compute it in that
order.

* `isNonzero_transpose?`: the entries of a transposed pattern;
* `Transposed`: two patterns of one tensor in two orders, one determined by the other (`unique`);
* `Transposed.add`, `Transposed.reduce`, `Transposed.einsum`: results in another order.
-/

namespace TensorKernel

/-- Where a function finds a value for each name, the values are those of one function. -/
theorem exists_of_mapM {κ α : Type} [Inhabited α] {names : List κ} {f : κ → Option α}
    {values : List α} (found : names.mapM f = some values) :
    ∃ s : κ → α, values = names.map s ∧ ∀ name ∈ names, f name = some (s name) := by
  refine ⟨_, eq_map_of_mapM found, fun name hn => ?_⟩
  obtain ⟨value, -, known⟩ := exists_of_forall₂_right (mapM_eq_some.mp found).flip hn
  simp [known]

theorem mapM_eq_map {κ α : Type} {names : List κ} {f : κ → Option α} {s : κ → α}
    (known : ∀ name ∈ names, f name = some (s name)) : names.mapM f = some (names.map s) := by
  rw [mapM_eq_some, List.forall₂_map_right_iff, List.forall₂_same]
  exact known

namespace Pattern

/-! ### Values at positions -/

section
variable {κ α : Type}

theorem pick?_eq_some {values picked : List α} {positions : List Nat} :
    pick? values positions = some picked ↔
      List.Forall₂ (fun k value => values[k]? = some value) positions picked :=
  mapM_eq_some

theorem pick_of_pick? {values picked : List α} {positions : List Nat}
    (h : pick? values positions = some picked) : pick values positions = picked := by
  rw [pick?_eq_some] at h
  induction h with
  | nil => rfl
  | cons found _ ih => rw [pick, List.filterMap_cons_some found, ← ih, pick]

/-- The keys that are picked have the values that are picked. -/
theorem pick?_map {keys order : List κ} {positions : List Nat}
    (h : pick? keys positions = some order) (f : κ → α) :
    pick? (keys.map f) positions = some (order.map f) := by
  rw [pick?_eq_some] at h ⊢
  rw [List.forall₂_map_right_iff]
  refine h.imp fun k key found => ?_
  rw [List.getElem?_map, found, Option.map_some]

theorem mem_of_pick? {values picked : List α} {positions : List Nat}
    (h : pick? values positions = some picked) {value : α} (hv : value ∈ picked) :
    value ∈ values := by
  obtain ⟨k, -, found⟩ := exists_of_forall₂_right (pick?_eq_some.mp h) hv
  exact List.mem_of_getElem? found

end

/-! ### Transposed patterns -/

theorem transpose?_eq_some {p c : Pattern} {perm : List Nat} (h : p.transpose? perm = some c) :
    pick? p.shape perm = some c.shape ∧
      (p.isDense = true ∧ c = dense c.shape ∨
        p.isDense = false ∧ c = ofOffsets c.shape (p.entries.map fun e =>
          Shape.offset c.shape (pick e perm))) := by
  obtain ⟨shape, picked, rfl⟩ := Option.map_eq_some_iff.mp h
  cases p with
  | dense => exact ⟨picked, .inl ⟨rfl, rfl⟩⟩
  | masked =>
    dsimp only
    rw [shape_ofOffsets]
    exact ⟨picked, .inr ⟨rfl, rfl⟩⟩

theorem transpose?_of_pick? {p : Pattern} {perm : List Nat} {shape : Shape}
    (picked : pick? p.shape perm = some shape) : ∃ c, p.transpose? perm = some c := by
  rw [transpose?, picked]
  exact ⟨_, rfl⟩

theorem sized_transpose? {p c : Pattern} {perm : List Nat} (h : p.transpose? perm = some c) :
    c.Sized := by
  obtain ⟨-, ⟨-, result⟩ | ⟨-, result⟩⟩ := transpose?_eq_some h
  · rw [result]
    trivial
  · rw [result]
    exact sized_ofOffsets _ _

theorem isDense_transpose? {p c : Pattern} {perm : List Nat} (h : p.transpose? perm = some c) :
    c.isDense = p.isDense := by
  obtain ⟨-, ⟨form, result⟩ | ⟨form, result⟩⟩ := transpose?_eq_some h
  · rw [result, form, isDense]
  · rw [result, form, ofOffsets_eq, isDense]

section
variable {κ : Type} [DecidableEq κ] {keys order : List κ} {p c : Pattern} {perm : List Nat}

/-- A transposed pattern has the extents that the pattern has for the keys of its dimensions. -/
theorem shape_transpose? (distinct : keys.Nodup) (rank : keys.length = p.shape.length)
    (picked : pick? keys perm = some order) (h : p.transpose? perm = some c) :
    ∃ s : κ → Nat, p.shape = keys.map s ∧ c.shape = order.map s := by
  obtain ⟨s, same, -⟩ := exists_map_eq distinct rank fun _ => 0
  refine ⟨s, same.symm, ?_⟩
  have shape := (transpose?_eq_some h).1
  rw [← same, pick?_map picked s, Option.some.injEq] at shape
  exact shape.symm

/-- A transposed mask has its flags at the projections of the entries of the pattern. -/
theorem isNonzero_transpose? (hp : p.Sized) (distinct : keys.Nodup)
    (rank : keys.length = p.shape.length) (picked : pick? keys perm = some order)
    (h : p.transpose? perm = some c) (form : p.isDense = false) {e : Entry} :
    c.isNonzero e = true ↔
      ∃ q : κ → Nat, order.map q = e ∧ p.isNonzero (keys.map q) = true := by
  obtain ⟨-, ⟨isDense, -⟩ | ⟨-, result⟩⟩ := transpose?_eq_some h
  · cases form.symm.trans isDense
  obtain ⟨s, source, shape⟩ := shape_transpose? distinct rank picked h
  rw [result]
  refine isNonzero_projection (fun e => pick e perm) hp distinct rank
    (fun q => pick_of_pick? (pick?_map picked q)) fun q nonzero => ?_
  have inside := holds_of_isNonzero nonzero
  rw [source, Shape.holds_map_map] at inside
  rw [shape, Shape.holds_map_map]
  exact fun key hk => inside key (mem_of_pick? picked hk)

/-- The same for a dense pattern without extents that are zero, and dimensions that are not
repeated. -/
theorem isNonzero_transpose?_iff (hp : p.Sized) (distinct : keys.Nodup)
    (rank : keys.length = p.shape.length) (distinct' : order.Nodup)
    (picked : pick? keys perm = some order) (h : p.transpose? perm = some c)
    (positive : ∀ n ∈ p.shape, 0 < n) {e : Entry} :
    c.isNonzero e = true ↔
      ∃ q : κ → Nat, order.map q = e ∧ p.isNonzero (keys.map q) = true := by
  cases form : p.isDense with
  | false => exact isNonzero_transpose? hp distinct rank picked h form
  | true =>
    obtain ⟨s, source, shape⟩ := shape_transpose? distinct rank picked h
    rw [source, List.forall_mem_map] at positive
    simp only [isNonzero_of_isDense form, isNonzero_of_isDense ((isDense_transpose? h).trans form),
      source, shape]
    constructor
    · intro held
      obtain ⟨q, entry, below⟩ :=
        Shape.exists_map_of_holds distinct' (fun key hk _ => positive key hk) held
      exact ⟨q, entry, Shape.holds_map_map.mpr below⟩
    · rintro ⟨q, rfl, inside⟩
      rw [Shape.holds_map_map] at inside ⊢
      exact fun key hk => inside key (mem_of_pick? picked hk)

end

theorem isDense_add {a b c : Pattern} (h : a.add b = .ok c) :
    c.isDense = (a.isDense || b.isDense) := by
  unfold add at h
  split at h
  · exact absurd h violates_ne_ok
  · match a, b with
    | dense _, _ | masked .., dense _ | masked .., masked .. =>
      obtain rfl := Except.ok.inj h
      rfl

/-! ### One tensor in two orders -/

/-- Patterns of one form and shape are equal if they have the same entries at all points. -/
theorem eq_of_points {κ : Type} [DecidableEq κ] {keys : List κ} {a b : Pattern} (ha : a.Sized)
    (hb : b.Sized) (form : a.isDense = b.isDense) (shape : a.shape = b.shape)
    (distinct : keys.Nodup) (rank : keys.length = a.shape.length)
    (points : ∀ f : κ → Nat, a.isNonzero (keys.map f) = b.isNonzero (keys.map f)) : a = b := by
  refine eq_of_isNonzero ha hb form shape fun _ e => ?_
  by_cases length : keys.length = e.length
  · obtain ⟨f, rfl, -⟩ := exists_map_eq distinct length fun _ => 0
    exact points f
  · have off {x : Pattern} (hx : x.shape = a.shape) : x.isNonzero e = false := by
      rw [← Bool.not_eq_true]
      intro nonzero
      exact length (rank.trans (hx ▸ (length_of_isNonzero nonzero).symm))
    rw [off rfl, off shape.symm]

/-- Two patterns of one tensor, whose dimensions have the given names: of one form, and non-zero at
the same points. -/
structure Transposed (names order : List Char) (p p' : Pattern) : Prop where
  sized : p.Sized
  sized' : p'.Sized
  form : p'.isDense = p.isDense
  shape : ∃ s : Char → Nat, p.shape = names.map s ∧ p'.shape = order.map s
  nonzero : ∀ q : Point, p'.isNonzero (order.map q) = p.isNonzero (names.map q)

namespace Transposed

variable {names order : List Char} {p p' : Pattern}

protected theorem refl (hp : p.Sized) (distinct : names.Nodup)
    (rank : names.length = p.shape.length) : Transposed names names p p := by
  obtain ⟨s, same, -⟩ := exists_map_eq distinct rank fun _ => 0
  exact ⟨hp, hp, rfl, ⟨s, same.symm, same.symm⟩, fun _ => rfl⟩

protected theorem symm (h : Transposed names order p p') : Transposed order names p' p := by
  obtain ⟨s, shape, shape'⟩ := h.shape
  exact ⟨h.sized', h.sized, h.form.symm, ⟨s, shape', shape⟩, fun q => (h.nonzero q).symm⟩

/-- A pattern in one order has one pattern in the other. -/
theorem unique {p'' : Pattern} (h : Transposed names order p p') (h' : Transposed names order p p'')
    (distinct : order.Nodup) (sub : ∀ name ∈ order, name ∈ names) : p' = p'' := by
  obtain ⟨s, shape, shape'⟩ := h.shape
  obtain ⟨t, shape₂, shape₂'⟩ := h'.shape
  have same : p'.shape = p''.shape := by
    rw [shape', shape₂']
    have extents := List.map_eq_map_iff.mp (shape.symm.trans shape₂)
    exact List.map_congr_left fun name hn => extents name (sub name hn)
  have rank : order.length = p'.shape.length := by rw [shape', List.length_map]
  refine eq_of_points h.sized' h'.sized' (h.form.trans h'.form.symm) same distinct rank fun q => ?_
  rw [h.nonzero q, h'.nonzero q]

/-- Patterns that are made from the same points, each in its own order. -/
theorem of_points (perm : order.Perm names) (sized : p.Sized) (sized' : p'.Sized)
    (form : p'.isDense = p.isDense) {s : Char → Nat} (shape : p.shape = names.map s)
    (shape' : p'.shape = order.map s) (points : Point → Prop)
    (entries : p.isDense = false → ∀ e, p.isNonzero e = true ↔ ∃ q, names.map q = e ∧ points q)
    (entries' : p.isDense = false → ∀ e, p'.isNonzero e = true ↔ ∃ q, order.map q = e ∧ points q) :
    Transposed names order p p' := by
  refine ⟨sized, sized', form, ⟨s, shape, shape'⟩, fun q => ?_⟩
  rw [Bool.eq_iff_iff]
  cases whole : p.isDense with
  | true =>
    rw [isNonzero_of_isDense whole, isNonzero_of_isDense (form.trans whole), shape, shape',
      Shape.holds_map_map, Shape.holds_map_map]
    simp only [perm.mem_iff]
  | false =>
    rw [entries whole, entries' whole]
    simp only [List.map_eq_map_iff, perm.mem_iff]

theorem of_transpose? {perm : List Nat} (hp : p.Sized) (distinct : names.Nodup)
    (rank : names.length = p.shape.length) (same : order.Perm names)
    (picked : pick? names perm = some order) (h : p.transpose? perm = some p') :
    Transposed names order p p' := by
  obtain ⟨s, shape, shape'⟩ := shape_transpose? distinct rank picked h
  refine of_points same hp (sized_transpose? h) (isDense_transpose? h) shape shape'
    (fun q => p.isNonzero (names.map q) = true) (fun _ e => ?_)
    fun masked e => isNonzero_transpose? hp distinct rank picked h masked
  constructor
  · intro nonzero
    obtain ⟨q, rfl, -⟩ :=
      exists_map_eq distinct (rank.trans (length_of_isNonzero nonzero).symm) fun _ => 0
    exact ⟨q, rfl, nonzero⟩
  · rintro ⟨q, rfl, nonzero⟩
    exact nonzero

/-! ### Results in another order -/

/-- The sum of transposed patterns is the transposed sum. -/
theorem add {a b c a' b' : Pattern} (ha : Transposed names order a a')
    (hb : Transposed names order b b') (sub : ∀ name ∈ order, name ∈ names)
    (h : a.add b = .ok c) : ∃ c', a'.add b' = .ok c' ∧ Transposed names order c c' := by
  obtain ⟨s, shapeA, shapeA'⟩ := ha.shape
  obtain ⟨t, shapeB, shapeB'⟩ := hb.shape
  obtain ⟨shapes, shapeC⟩ := add_eq_ok h
  have extents := List.map_eq_map_iff.mp (shapeA.symm.trans (shapes.trans shapeB))
  have shapes' : a'.shape = b'.shape := by
    rw [shapeA', shapeB']
    exact List.map_congr_left fun name hn => extents name (sub name hn)
  obtain ⟨c', done⟩ := add_ok shapes'
  refine ⟨c', done, sized_add ha.sized hb.sized h, sized_add ha.sized' hb.sized' done, ?_,
    ⟨s, shapeC.trans shapeA, (add_eq_ok done).2.trans shapeA'⟩, fun q => ?_⟩
  · rw [isDense_add h, isDense_add done, ha.form, hb.form]
  · rw [isNonzero_add ha.sized hb.sized h, isNonzero_add ha.sized' hb.sized' done, ha.nonzero,
      hb.nonzero]

/-- A reduction to another order is the transposed reduction. -/
theorem reduce {source : List Char} {a c : Pattern} (ha : a.Sized) (hs : source.Nodup)
    (same : order.Perm names) (h : Pattern.reduce source names a = .ok c) :
    ∃ c', Pattern.reduce source order a = .ok c' ∧ Transposed names order c c' := by
  obtain ⟨rank, found, -⟩ := reduce_eq_ok h
  obtain ⟨s, shape, extents⟩ := exists_of_mapM found
  obtain ⟨c', done, shape'⟩ := reduce_ok rank
    (mapM_eq_map fun name hn => extents name (same.mem_iff.mp hn))
  have form : c.isDense = a.isDense := isDense_reduce h
  exact ⟨c', done, of_points same (sized_reduce h) (sized_reduce done)
    ((isDense_reduce done).trans form.symm) shape shape' _
    (fun masked _ => isNonzero_reduce_masked ha hs h (form.symm.trans masked))
    fun masked _ => isNonzero_reduce_masked ha hs done (form.symm.trans masked)⟩

/-- A product in another order of its output is the transposed product. -/
theorem einsum {l r : List Char} {a b c : Pattern} (ha : a.Sized) (hb : b.Sized)
    (readable : Descriptor.Readable ⟨l, r, names⟩) (hl : l.Nodup) (hr : r.Nodup)
    (same : order.Perm names) (h : Pattern.einsum (Descriptor.render ⟨l, r, names⟩) a b = .ok c) :
    ∃ c', Pattern.einsum (Descriptor.render ⟨l, r, order⟩) a b = .ok c' ∧
      Transposed names order c c' := by
  have parsed := Descriptor.parse_render.mpr readable
  have parsed' : Descriptor.parse (Descriptor.render ⟨l, r, order⟩) = .ok ⟨l, r, order⟩ :=
    Descriptor.parse_render.mpr readable
  obtain ⟨_, read, left, right, consistent, found, -⟩ := einsum_eq_ok h
  obtain rfl := Except.ok.inj (parsed.symm.trans read)
  obtain ⟨s, shape, extents⟩ := exists_of_mapM found
  obtain ⟨c', done, shape'⟩ := einsum_ok parsed' left right consistent
    (mapM_eq_map fun name hn => extents name (same.mem_iff.mp hn))
  have form : c.isDense = (a.isDense && b.isDense) := isDense_einsum h
  exact ⟨c', done, of_points same (sized_einsum h) (sized_einsum done)
    ((isDense_einsum done).trans form.symm) shape shape' _
    (fun masked _ => isNonzero_einsum_masked ha hb parsed hl hr h (form.symm.trans masked))
    fun masked _ => isNonzero_einsum_masked ha hb parsed' hl hr done (form.symm.trans masked)⟩

end Transposed

end Pattern

end TensorKernel
