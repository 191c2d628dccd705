import TensorKernel.Proofs.Layout.Cover

/-!
Products and reductions of patterns are exact. The result is non-zero at an entry exactly if the
operands are at entries that go with it: entries with the same coordinate for every name they share.
Only a dense result has to be told so, as it is never looked up in its operands: each name that is
summed over needs a coordinate.

* `isNonzero_reduce_iff`, `isNonzero_einsum_iff`: the entries of the results at points;
* `eq_of_isNonzero`: patterns of one form with the same entries are equal;
* `products_exact`: products and reductions in terms of entries that coincide, and the reduction of
  a product as a product.
-/

namespace TensorKernel

/-- Names that are not repeated can be given any values, and the others keep theirs. -/
theorem exists_map_eq {κ α : Type} [DecidableEq κ] {names : List κ} {values : List α}
    (distinct : names.Nodup) (rank : names.length = values.length) (q : κ → α) :
    ∃ q' : κ → α, names.map q' = values ∧ ∀ name, name ∉ names → q' name = q name := by
  induction names generalizing values with
  | nil =>
    obtain rfl := List.length_eq_zero_iff.mp rank.symm
    exact ⟨q, rfl, fun _ _ => rfl⟩
  | cons name names ih =>
    cases values with
    | nil => cases rank
    | cons value values =>
      obtain ⟨fresh, rest⟩ := List.nodup_cons.mp distinct
      obtain ⟨q', rfl, kept⟩ := ih rest (Nat.add_right_cancel rank)
      refine ⟨Function.update q' name value, ?_, fun other ho => ?_⟩
      · rw [List.map_cons, Function.update_self]
        refine congrArg (value :: ·) (List.map_congr_left fun other ho => ?_)
        refine Function.update_of_ne ?_ value q'
        rintro rfl
        exact fresh ho
      · rw [List.mem_cons, not_or] at ho
        rw [Function.update_of_ne ho.1, kept other ho.2]

theorem mem_zip_map {κ α : Type} {names : List κ} {q : κ → α} {name : κ} {value : α} :
    (name, value) ∈ names.zip (names.map q) ↔ name ∈ names ∧ q name = value := by
  induction names with
  | nil => simp
  | cons first rest ih =>
    rw [List.map_cons, List.zip_cons_cons, List.mem_cons, ih, List.mem_cons, Prod.mk.injEq]
    grind

/-- Of names that are not repeated each has the one value that is paired with it. -/
theorem lookup_zip_eq_some {α : Type} {names : List Char} {values : List α}
    (distinct : names.Nodup) {name : Char} {value : α} :
    (names.zip values).lookup name = some value ↔ (name, value) ∈ names.zip values := by
  refine ⟨Pattern.mem_of_lookup, fun mem => ?_⟩
  induction names generalizing values with
  | nil => cases mem
  | cons first rest ih =>
    cases values with
    | nil => cases mem
    | cons value' values =>
      obtain ⟨fresh, others⟩ := List.nodup_cons.mp distinct
      rw [List.zip_cons_cons, List.lookup_cons]
      rcases List.mem_cons.mp mem with same | mem
      · cases same
        simp
      · have other : name ≠ first := by
          intro same
          exact fresh (same ▸ (List.of_mem_zip mem).1)
        rw [beq_false_of_ne other]
        exact ih others mem

/-- Where a function finds a value for each name, these are the values. -/
theorem eq_map_of_mapM {κ α : Type} [Inhabited α] {names : List κ} {f : κ → Option α}
    {values : List α} (found : names.mapM f = some values) :
    values = names.map fun name => (f name).getD default := by
  rw [mapM_eq_some] at found
  induction found with
  | nil => rfl
  | cons known _ ih => rw [List.map_cons, known, Option.getD_some, ← ih]

namespace Shape

theorem length_of_holds {s : Shape} {e : Entry} (h : holds s e = true) : e.length = s.length :=
  (holds_iff.mp h).length_eq.symm

theorem holds_map_map {κ : Type} {names : List κ} {s q : κ → Nat} :
    holds (names.map s) (names.map q) = true ↔ ∀ name ∈ names, q name < s name := by
  rw [holds_iff, List.forall₂_map_left_iff, List.forall₂_map_right_iff, List.forall₂_same]

/-- An entry for some keys can be extended to all keys if the others have extents that are not
zero. -/
theorem exists_map_of_holds {κ : Type} [DecidableEq κ] {keys order : List κ} {s : κ → Nat}
    {e : Entry} (distinct : order.Nodup) (positive : ∀ key ∈ keys, key ∉ order → 0 < s key)
    (held : holds (order.map s) e = true) :
    ∃ q : κ → Nat, order.map q = e ∧ ∀ key ∈ keys, q key < s key := by
  have rank : order.length = e.length := by rw [length_of_holds held, List.length_map]
  obtain ⟨q, rfl, kept⟩ := exists_map_eq distinct rank fun _ => 0
  refine ⟨q, rfl, fun key hk => ?_⟩
  by_cases known : key ∈ order
  · exact holds_map_map.mp held key known
  · rw [kept key known]
    exact positive key hk known

end Shape

namespace Pattern

theorem length_of_isNonzero {p : Pattern} {e : Entry} (h : p.isNonzero e = true) :
    e.length = p.shape.length :=
  Shape.length_of_holds (holds_of_isNonzero h)

theorem isNonzero_of_isDense {p : Pattern} (h : p.isDense = true) (e : Entry) :
    p.isNonzero e = Shape.holds p.shape e := by
  cases p with
  | dense => exact isNonzero_dense _ e
  | masked => cases h

/-! ### Patterns as sets of entries -/

/-- The listed entries are the non-zero ones. -/
theorem mem_entries {p : Pattern} (sized : p.Sized) {e : Entry} :
    e ∈ p.entries ↔ p.isNonzero e = true := by
  refine ⟨fun mem => ?_, mem_entries_of_isNonzero⟩
  cases p with
  | dense shape =>
    obtain ⟨o, ho, rfl⟩ := List.mem_map.mp mem
    rw [isNonzero_dense]
    exact Shape.holds_unravel (List.mem_range.mp ho)
  | masked shape mask =>
    obtain ⟨o, ho, rfl⟩ := List.mem_map.mp mem
    obtain ⟨⟨flag, place⟩, listed, found⟩ := List.mem_filterMap.mp ho
    obtain ⟨rfl, rfl⟩ : flag = true ∧ place = o := by simpa using found
    have flagged := List.mem_zipIdx_iff_getElem?.mp listed
    dsimp only at flagged
    have inside : place < Shape.volume shape := by
      obtain ⟨inside, -⟩ := List.getElem?_eq_some_iff.mp flagged
      exact inside.trans_eq sized
    rw [isNonzero_masked, Shape.holds_unravel inside, Shape.offset_unravel inside, Bool.true_and,
      List.getD_eq_getElem?_getD, flagged, Option.getD_some]

/-- The entries that a mask was made of are its non-zero ones. -/
theorem isNonzero_ofOffsets_iff {shape : Shape} {es : List Entry}
    (inside : ∀ e ∈ es, Shape.holds shape e = true) {e : Entry} :
    (ofOffsets shape (es.map (Shape.offset shape))).isNonzero e = true ↔ e ∈ es := by
  constructor
  · intro nonzero
    have held := holds_of_isNonzero nonzero
    rw [shape_ofOffsets] at held
    rw [ofOffsets_eq, isNonzero_masked, held] at nonzero
    have mem : Shape.offset shape e ∈ es.map (Shape.offset shape) := by
      simpa [Shape.offset_lt_volume held] using nonzero
    obtain ⟨e', he, same⟩ := List.mem_map.mp mem
    rwa [← Shape.unravel_offset held, ← same, Shape.unravel_offset (inside e' he)]
  · exact fun he => isNonzero_ofOffsets (inside e he) (List.mem_map_of_mem he)

/-- Patterns of one form and shape are equal if they have the same flags. -/
theorem eq_of_isNonzero {p p' : Pattern} (sized : p.Sized) (sized' : p'.Sized)
    (form : p.isDense = p'.isDense) (shape : p.shape = p'.shape)
    (same : p.isDense = false → ∀ e, p.isNonzero e = p'.isNonzero e) : p = p' := by
  match p, p', form with
  | dense s, dense s', _ => exact congrArg dense shape
  | masked s mask, masked s' mask', _ =>
    obtain rfl : s = s' := shape
    refine congrArg (masked s) (List.ext_getElem (sized.trans sized'.symm) fun o ho ho' => ?_)
    have place : o < Shape.volume s := ho.trans_eq sized
    have flags := same rfl (Shape.unravel s o)
    rw [isNonzero_masked, isNonzero_masked, Shape.holds_unravel place, Shape.offset_unravel place]
      at flags
    simpa [ho, ho'] using flags

/-- Where all entries of a pattern are projected onto some of their coordinates, the projections are
the non-zero entries of the result. -/
theorem isNonzero_projection {κ : Type} [DecidableEq κ] {p : Pattern} {keys order : List κ}
    {shape : Shape} (project : Entry → Entry) (hp : p.Sized) (distinct : keys.Nodup)
    (rank : keys.length = p.shape.length)
    (read : ∀ q : κ → Nat, project (keys.map q) = order.map q)
    (inside : ∀ q : κ → Nat, p.isNonzero (keys.map q) = true →
      Shape.holds shape (order.map q) = true) {e : Entry} :
    (ofOffsets shape (p.entries.map fun x => Shape.offset shape (project x))).isNonzero e = true ↔
      ∃ q : κ → Nat, order.map q = e ∧ p.isNonzero (keys.map q) = true := by
  have point {x : Entry} (hx : x ∈ p.entries) :
      ∃ q : κ → Nat, keys.map q = x ∧ p.isNonzero (keys.map q) = true := by
    have nonzero := (mem_entries hp).mp hx
    obtain ⟨q, rfl, -⟩ :=
      exists_map_eq distinct (rank.trans (length_of_isNonzero nonzero).symm) fun _ => 0
    exact ⟨q, rfl, nonzero⟩
  rw [← Function.comp_def (Shape.offset shape), ← List.map_map, isNonzero_ofOffsets_iff,
    List.mem_map]
  · constructor
    · rintro ⟨x, hx, rfl⟩
      obtain ⟨q, rfl, nonzero⟩ := point hx
      exact ⟨q, (read q).symm, nonzero⟩
    · rintro ⟨q, rfl, nonzero⟩
      exact ⟨keys.map q, (mem_entries hp).mpr nonzero, read q⟩
  · intro e' he
    obtain ⟨x, hx, rfl⟩ := List.mem_map.mp he
    obtain ⟨q, rfl, nonzero⟩ := point hx
    rw [read q]
    exact inside q nonzero

/-! ### Entries that go together -/

/-- Two entries have the same coordinate for every name that both have. -/
def Coincide (names : List Char) (e : Entry) (names' : List Char) (e' : Entry) : Prop :=
  ∀ pair ∈ names.zip e, ∀ pair' ∈ names'.zip e', pair.1 = pair'.1 → pair.2 = pair'.2

instance (names : List Char) (e : Entry) (names' : List Char) (e' : Entry) :
    Decidable (Coincide names e names' e') :=
  inferInstanceAs (Decidable (∀ _ ∈ _, ∀ _ ∈ _, _ → _))

theorem coincide_map (names names' : List Char) (q : Point) :
    Coincide names (names.map q) names' (names'.map q) := by
  intro pair mem pair' mem' same
  rw [← (mem_zip_map.mp mem).2, ← (mem_zip_map.mp mem').2, same]

/-- Entries that coincide are those of one point. -/
theorem Coincide.exists_point {l r : List Char} {x y : Entry} (h : Coincide l x r y)
    (hl : l.Nodup) (hr : r.Nodup) (left : l.length = x.length) (right : r.length = y.length) :
    ∃ q : Point, l.map q = x ∧ r.map q = y := by
  obtain ⟨q', rfl, -⟩ := exists_map_eq hr right fun _ => 0
  obtain ⟨q, rfl, kept⟩ := exists_map_eq hl left q'
  refine ⟨q, rfl, List.map_congr_left fun name hn => ?_⟩
  by_cases shared : name ∈ l
  · exact h (name, _) (mem_zip_map.mpr ⟨shared, rfl⟩) (name, _) (mem_zip_map.mpr ⟨hn, rfl⟩) rfl
  · exact kept name shared

/-- An entry that coincides with one at a point has the coordinates of the point for the names that
both have. -/
theorem Coincide.map_eq {o : List Char} {e : Entry} (rank : o.length = e.length) {q : Point}
    (h : ∀ name ∈ o, ∃ names, name ∈ names ∧ Coincide o e names (names.map q)) : o.map q = e := by
  refine List.ext_getElem (by rw [List.length_map, rank]) fun k hk he => ?_
  have place : k < o.length := by rwa [List.length_map] at hk
  rw [List.getElem_map]
  obtain ⟨names, known, coincide⟩ := h o[k] (List.getElem_mem place)
  refine (coincide (o[k], e[k]) ?_ (o[k], q o[k]) (mem_zip_map.mpr ⟨known, rfl⟩) rfl).symm
  refine List.mem_iff_getElem.mpr ⟨k, ?_, List.getElem_zip⟩
  rw [List.length_zip]
  omega

theorem Assignment.agrees_iff {l r : List Char} {x y : Entry} (hl : l.Nodup) :
    agrees (l.zip x) (r.zip y) = true ↔ Coincide l x r y := by
  rw [agrees, List.all_eq_true]
  constructor
  · rintro agree ⟨name, v⟩ mem ⟨_, v'⟩ mem' rfl
    have same := agree (name, v') mem'
    dsimp only at same
    rw [(lookup_zip_eq_some hl).mpr mem] at same
    exact of_decide_eq_true same
  · rintro coincide ⟨name, v'⟩ mem'
    dsimp only
    split
    · next v found => exact decide_eq_true (coincide _ (mem_of_lookup found) _ mem' rfl)
    · rfl

/-! ### Shapes of results -/

theorem isDense_reduce {source target : List Char} {a c : Pattern}
    (h : reduce source target a = .ok c) : c.isDense = a.isDense := by
  obtain ⟨-, -, ⟨form, result⟩ | ⟨form, result⟩⟩ := reduce_eq_ok h
  · rw [result, form, isDense]
  · rw [result, form, ofOffsets_eq, isDense]

theorem isDense_einsum {descriptor : List Char} {a b c : Pattern}
    (h : einsum descriptor a b = .ok c) : c.isDense = (a.isDense && b.isDense) := by
  obtain ⟨_, -, -, -, -, -, ⟨form, result⟩ | ⟨form, result⟩⟩ := einsum_eq_ok h
  · rw [result, form, isDense]
  · rw [result, form, ofOffsets_eq, isDense]

/-- An entry of an output is that of a point inside the operands if no name that is summed over has
the extent zero. -/
theorem exists_point_of_output {extents : Assignment} {names : List Char} {shape : Shape}
    {e : Entry} (distinct : names.Nodup) (unique : ∀ pair ∈ extents,
      extents.lookup pair.1 = some pair.2)
    (summed : ∀ pair ∈ extents, pair.1 ∉ names → 0 < pair.2)
    (found : names.mapM (extents.lookup ·) = some shape) (held : Shape.holds shape e = true) :
    ∃ q : Point, names.map q = e ∧ ∀ pair ∈ extents, q pair.1 < pair.2 := by
  have extent {pair : Char × Nat} (mem : pair ∈ extents) :
      (extents.lookup pair.1).getD default = pair.2 := by
    rw [unique pair mem, Option.getD_some]
  have positive : ∀ name ∈ extents.map Prod.fst, name ∉ names →
      0 < (extents.lookup name).getD default := by
    intro name hn dropped
    obtain ⟨pair, mem, rfl⟩ := List.mem_map.mp hn
    rw [extent mem]
    exact summed pair mem dropped
  rw [eq_map_of_mapM found] at held
  obtain ⟨q, entry, below⟩ := Shape.exists_map_of_holds distinct positive held
  refine ⟨q, entry, fun pair mem => ?_⟩
  rw [← extent mem]
  exact below pair.1 (List.mem_map_of_mem mem)

theorem inconsistent?_eq_none {extents : Assignment} :
    inconsistent? extents = none ↔ ∀ pair ∈ extents, extents.lookup pair.1 = some pair.2 := by
  simp [inconsistent?, List.find?_eq_none]

/-! ### Results at points -/

/-- A reduction of flags has its entries from those of the pattern. -/
theorem isNonzero_reduce_masked {source target : List Char} {a c : Pattern} (ha : a.Sized)
    (hs : source.Nodup) (h : reduce source target a = .ok c) (form : a.isDense = false)
    {e : Entry} : c.isNonzero e = true ↔
      ∃ q : Point, target.map q = e ∧ a.isNonzero (source.map q) = true := by
  obtain ⟨rank, found, ⟨isDense, -⟩ | ⟨-, result⟩⟩ := reduce_eq_ok h
  · cases form.symm.trans isDense
  rw [result]
  refine isNonzero_projection (fun x => Assignment.project (source.zip x) target) ha hs rank
    (fun q => ?_) fun q nonzero => ?_
  · refine Assignment.project_eq_map fun name hn => lookup_zip_map ?_
    obtain ⟨n, known⟩ := mem_of_lookup_extents found hn
    exact (List.of_mem_zip known).1
  · exact holds_of_lookup found ((Shape.holds_map rank).mp (holds_of_isNonzero nonzero))

/-- A reduction is non-zero at an entry exactly if the pattern is at one with these coordinates. -/
theorem isNonzero_reduce_iff {source target : List Char} {a c : Pattern} (ha : a.Sized)
    (hs : source.Nodup) (ht : target.Nodup) (h : reduce source target a = .ok c)
    (summed : ∀ pair ∈ source.zip a.shape, pair.1 ∉ target → 0 < pair.2) {e : Entry} :
    c.isNonzero e = true ↔ ∃ q : Point, target.map q = e ∧ a.isNonzero (source.map q) = true := by
  obtain ⟨rank, found, ⟨form, result⟩ | ⟨form, -⟩⟩ := reduce_eq_ok h
  · refine ⟨fun nonzero => ?_, fun ⟨q, entry, value⟩ => entry ▸ isNonzero_reduce h value⟩
    obtain ⟨q, entry, below⟩ := exists_point_of_output ht
      (fun _ mem => (lookup_zip_eq_some hs).mpr mem) summed found (holds_of_isNonzero nonzero)
    exact ⟨q, entry, (isNonzero_of_isDense form _).trans ((Shape.holds_map rank).mpr below)⟩
  · exact isNonzero_reduce_masked ha hs h form

/-- The entries that the pairs of entries of two operands are projected on. -/
def productEntries (d : Descriptor) (a b : Pattern) : List Entry :=
  a.entries.flatMap fun x =>
    ((b.entries.map d.right.zip).filter (Assignment.agrees (d.left.zip x))).map fun values =>
      Assignment.project (d.left.zip x ++ values) d.output

theorem productOffsets_eq (d : Descriptor) (a b : Pattern) (shape : Shape) :
    productOffsets d a b shape = (productEntries d a b).map (Shape.offset shape) := by
  simp [productOffsets, productEntries, List.map_flatMap, Function.comp_def]

theorem mem_productEntries {l r o : List Char} {a b : Pattern} (ha : a.Sized) (hb : b.Sized)
    (hl : l.Nodup) (hr : r.Nodup) (left : l.length = a.shape.length)
    (right : r.length = b.shape.length) (known : ∀ name ∈ o, name ∈ l ∨ name ∈ r) {e : Entry} :
    e ∈ productEntries ⟨l, r, o⟩ a b ↔ ∃ q : Point, o.map q = e ∧
      a.isNonzero (l.map q) = true ∧ b.isNonzero (r.map q) = true := by
  simp only [productEntries, List.mem_flatMap, List.mem_map, List.mem_filter]
  constructor
  · rintro ⟨x, hx, _, ⟨⟨y, hy, rfl⟩, agree⟩, rfl⟩
    rw [mem_entries ha] at hx
    rw [mem_entries hb] at hy
    obtain ⟨q, rfl, rfl⟩ := ((Assignment.agrees_iff hl).mp agree).exists_point hl hr
      (left.trans (length_of_isNonzero hx).symm) (right.trans (length_of_isNonzero hy).symm)
    exact ⟨q, (Assignment.project_append known).symm, hx, hy⟩
  · rintro ⟨q, rfl, hx, hy⟩
    exact ⟨l.map q, (mem_entries ha).mpr hx, r.zip (r.map q), ⟨⟨r.map q, (mem_entries hb).mpr hy,
      rfl⟩, Assignment.agrees_map l r q⟩, Assignment.project_append known⟩

/-- A product of which an operand has flags has its entries from those of the operands. -/
theorem isNonzero_einsum_masked {descriptor l r o : List Char} {a b c : Pattern} (ha : a.Sized)
    (hb : b.Sized) (parsed : Descriptor.parse descriptor = .ok ⟨l, r, o⟩) (hl : l.Nodup)
    (hr : r.Nodup) (h : einsum descriptor a b = .ok c) (form : (a.isDense && b.isDense) = false)
    {e : Entry} : c.isNonzero e = true ↔ ∃ q : Point, o.map q = e ∧
      a.isNonzero (l.map q) = true ∧ b.isNonzero (r.map q) = true := by
  obtain ⟨d, same, left, right, -, found, ⟨isDense, -⟩ | ⟨-, result⟩⟩ := einsum_eq_ok h
  · cases form.symm.trans isDense
  obtain rfl : ⟨l, r, o⟩ = d := Except.ok.inj (parsed.symm.trans same)
  have entries (e : Entry) := mem_productEntries ha hb hl hr left right
    (fun _ hn => mem_operands_of_lookup found hn) (e := e)
  rw [← entries e, result, productOffsets_eq, isNonzero_ofOffsets_iff]
  intro e' he
  obtain ⟨q, rfl, hx, hy⟩ := (entries e').mp he
  exact holds_of_isNonzero (isNonzero_einsum parsed h hx hy)

/-- A product is non-zero at an entry exactly if both operands are at entries of one point. -/
theorem isNonzero_einsum_iff {descriptor l r o : List Char} {a b c : Pattern} (ha : a.Sized)
    (hb : b.Sized) (parsed : Descriptor.parse descriptor = .ok ⟨l, r, o⟩) (hl : l.Nodup)
    (hr : r.Nodup) (ho : o.Nodup) (h : einsum descriptor a b = .ok c)
    (summed : ∀ pair ∈ l.zip a.shape ++ r.zip b.shape, pair.1 ∉ o → 0 < pair.2) {e : Entry} :
    c.isNonzero e = true ↔ ∃ q : Point, o.map q = e ∧
      a.isNonzero (l.map q) = true ∧ b.isNonzero (r.map q) = true := by
  obtain ⟨d, same, left, right, consistent, found, ⟨form, -⟩ | ⟨form, -⟩⟩ := einsum_eq_ok h
  · obtain rfl : ⟨l, r, o⟩ = d := Except.ok.inj (parsed.symm.trans same)
    refine ⟨fun nonzero => ?_, fun ⟨q, entry, hx, hy⟩ => entry ▸ isNonzero_einsum parsed h hx hy⟩
    obtain ⟨q, entry, below⟩ := exists_point_of_output ho (inconsistent?_eq_none.mp consistent)
      summed found (holds_of_isNonzero nonzero)
    have first := (Shape.holds_map left).mpr fun pair hp =>
      below pair (List.mem_append_left _ hp)
    have second := (Shape.holds_map right).mpr fun pair hp =>
      below pair (List.mem_append_right _ hp)
    rw [Bool.and_eq_true] at form
    exact ⟨q, entry, (isNonzero_of_isDense form.1 _).trans first,
      (isNonzero_of_isDense form.2 _).trans second⟩
  · exact isNonzero_einsum_masked ha hb parsed hl hr h form

/-! ### Products and their reductions -/

/-- Names with the values that a function finds for them have these values. -/
theorem lookup_zip_of_mapM {names : List Char} {values : List Nat} {f : Char → Option Nat}
    (found : names.mapM f = some values) {name : Char} (hn : name ∈ names) :
    (names.zip values).lookup name = f name := by
  rw [mapM_eq_some] at found
  induction found with
  | nil => cases hn
  | @cons first value _ _ known _ ih =>
    rw [List.zip_cons_cons, List.lookup_cons]
    by_cases same : name = first
    · subst same
      rw [beq_self_eq_true, known]
    · rw [beq_false_of_ne same]
      exact ih ((List.mem_cons.mp hn).resolve_left same)

theorem exists_mapM_lookup {α : Type} {pairs : List (Char × α)} {names : List Char}
    (known : ∀ name ∈ names, name ∈ pairs.map Prod.fst) :
    ∃ values, names.mapM (pairs.lookup ·) = some values := by
  simp only [mapM_eq_some]
  exact forall₂_of_exists fun name hn => exists_lookup (known name hn)

/-- To sum some names of a product is to leave them out of its output. -/
theorem reduce_einsum {l r o more : List Char} {a b c u : Pattern} (ha : a.Sized) (hb : b.Sized)
    (readable : Descriptor.Readable ⟨l, r, o⟩) (hl : l.Nodup) (hr : r.Nodup) (hm : more.Nodup)
    (sub : ∀ name ∈ o, name ∈ more) (h : einsum (Descriptor.render ⟨l, r, o⟩) a b = .ok c)
    (h' : einsum (Descriptor.render ⟨l, r, more⟩) a b = .ok u) : reduce more o u = .ok c := by
  have parsed := Descriptor.parse_render.mpr readable
  have parsed' : Descriptor.parse (Descriptor.render ⟨l, r, more⟩) = .ok ⟨l, r, more⟩ :=
    Descriptor.parse_render.mpr readable
  obtain ⟨_, same, -, -, -, found, -⟩ := einsum_eq_ok h
  obtain rfl := Except.ok.inj (parsed.symm.trans same)
  obtain ⟨_, same, -, -, -, found', -⟩ := einsum_eq_ok h'
  obtain rfl := Except.ok.inj (parsed'.symm.trans same)
  -- the extents of the output are found in the larger product as they are in the operands
  have extents : o.mapM ((more.zip u.shape).lookup ·) = some c.shape := by
    refine mapM_eq_some.mpr (forall₂_imp_of_mem (mapM_eq_some.mp found) fun name hn n known => ?_)
    rw [← known]
    exact lookup_zip_of_mapM found' (sub name hn)
  obtain ⟨c', done, shape⟩ := reduce_ok (mapM_eq_some.mp found').length_eq extents
  have form : c'.isDense = c.isDense := by
    rw [isDense_reduce done, isDense_einsum h, isDense_einsum h']
  rw [done, eq_of_isNonzero (sized_reduce done) (sized_einsum h) form shape fun masked e => ?_]
  rw [form, isDense_einsum h] at masked
  rw [Bool.eq_iff_iff, isNonzero_einsum_masked ha hb parsed hl hr h masked,
    isNonzero_reduce_masked (sized_einsum h') hm done ((isDense_einsum h').trans masked)]
  simp only [isNonzero_einsum_masked ha hb parsed' hl hr h' masked]
  constructor
  · rintro ⟨q, rfl, q', same, hx, hy⟩
    refine ⟨q', List.map_congr_left fun name hn => ?_, hx, hy⟩
    exact List.map_eq_map_iff.mp same name (sub name hn)
  · rintro ⟨q, rfl, hx, hy⟩
    exact ⟨q, rfl, q, rfl, hx, hy⟩

end Pattern

namespace Descriptor

/-- A descriptor for operands of two shapes: it can be read, no operand and no output has a name
twice, a name of both operands has one extent, and the output has names of the operands. -/
structure Suits (d : Descriptor) (s t : Shape) : Prop where
  readable : d.Readable
  left : d.left.Nodup
  right : d.right.Nodup
  output : d.output.Nodup
  leftRank : d.left.length = s.length
  rightRank : d.right.length = t.length
  consistent : Pattern.Coincide d.left s d.right t
  known : ∀ name ∈ d.output, name ∈ d.left ∨ name ∈ d.right

/-- The extents of the operands are consistent. -/
theorem Suits.lookup_extent {d : Descriptor} {s t : Shape} (h : d.Suits s t) :
    ∀ pair ∈ d.left.zip s ++ d.right.zip t,
      (d.left.zip s ++ d.right.zip t).lookup pair.1 = some pair.2 := by
  intro pair mem
  rw [List.lookup_append]
  rcases List.mem_append.mp mem with mem | mem
  · rw [(lookup_zip_eq_some h.left).mpr mem, Option.some_or]
  · cases first : (d.left.zip s).lookup pair.1 with
    | none => rw [Option.none_or, (lookup_zip_eq_some h.right).mpr mem]
    | some n =>
      have same : n = pair.2 := h.consistent _ (Pattern.mem_of_lookup first) pair mem rfl
      rw [Option.some_or, same]

/-- A product that suits its operands has a pattern. -/
theorem Suits.einsum_ok {d : Descriptor} {a b : Pattern} (h : d.Suits a.shape b.shape) :
    ∃ c, Pattern.einsum d.render a b = .ok c := by
  obtain ⟨shape, found⟩ : ∃ shape, d.output.mapM
      ((d.left.zip a.shape ++ d.right.zip b.shape).lookup ·) = some shape := by
    apply Pattern.exists_mapM_lookup
    rw [List.map_append, List.map_fst_zip h.leftRank.le, List.map_fst_zip h.rightRank.le]
    exact fun name hn => List.mem_append.mpr (h.known name hn)
  obtain ⟨c, done, -⟩ := Pattern.einsum_ok (parse_render.mpr h.readable) h.leftRank h.rightRank
    (Pattern.inconsistent?_eq_none.mpr h.lookup_extent) found
  exact ⟨c, done⟩

end Descriptor

namespace Pattern

theorem positive_of_zip {names : List Char} {s : Shape} (h : 0 ∉ s) :
    ∀ pair ∈ names.zip s, 0 < pair.2 := by
  intro pair mem
  refine Nat.pos_of_ne_zero fun zero => h ?_
  rw [← zero]
  exact (List.of_mem_zip mem).2

/-- A product is non-zero at an entry exactly if its operands are at entries that coincide with each
other and with the entry. -/
theorem isNonzero_einsum_coincide {d : Descriptor} {a b c : Pattern} (ha : a.Sized) (hb : b.Sized)
    (positiveA : 0 ∉ a.shape) (positiveB : 0 ∉ b.shape) (suits : d.Suits a.shape b.shape)
    (h : einsum d.render a b = .ok c) (e : Entry) :
    c.isNonzero e = true ↔ e.length = d.output.length ∧
      ∃ x y, a.isNonzero x = true ∧ b.isNonzero y = true ∧ Coincide d.left x d.right y ∧
        Coincide d.output e d.left x ∧ Coincide d.output e d.right y := by
  obtain ⟨l, r, o⟩ := d
  have positive : ∀ pair ∈ l.zip a.shape ++ r.zip b.shape, 0 < pair.2 := by
    intro pair mem
    rcases List.mem_append.mp mem with mem | mem
    · exact positive_of_zip positiveA pair mem
    · exact positive_of_zip positiveB pair mem
  rw [isNonzero_einsum_iff ha hb (Descriptor.parse_render.mpr suits.readable) suits.left
    suits.right suits.output h fun pair mem _ => positive pair mem]
  constructor
  · rintro ⟨q, rfl, hx, hy⟩
    exact ⟨List.length_map _, l.map q, r.map q, hx, hy, coincide_map l r q, coincide_map o l q,
      coincide_map o r q⟩
  · rintro ⟨rank, x, y, hx, hy, operands, first, second⟩
    obtain ⟨q, rfl, rfl⟩ := operands.exists_point suits.left suits.right
      (suits.leftRank.trans (length_of_isNonzero hx).symm)
      (suits.rightRank.trans (length_of_isNonzero hy).symm)
    refine ⟨q, Coincide.map_eq rank.symm fun name hn => ?_, hx, hy⟩
    rcases suits.known name hn with known | known
    · exact ⟨l, known, first⟩
    · exact ⟨r, known, second⟩

/-- A reduction is non-zero at an entry exactly if the pattern is at one that coincides with it. -/
theorem isNonzero_reduce_coincide {source target : List Char} {a c : Pattern} (ha : a.Sized)
    (positive : 0 ∉ a.shape) (hs : source.Nodup) (ht : target.Nodup)
    (sub : ∀ name ∈ target, name ∈ source) (h : reduce source target a = .ok c) (e : Entry) :
    c.isNonzero e = true ↔ e.length = target.length ∧
      ∃ x, a.isNonzero x = true ∧ Coincide target e source x := by
  rw [isNonzero_reduce_iff ha hs ht h fun pair mem _ => positive_of_zip positive pair mem]
  constructor
  · rintro ⟨q, rfl, hx⟩
    exact ⟨List.length_map _, source.map q, hx, coincide_map target source q⟩
  · rintro ⟨length, x, hx, coincide⟩
    have rank := (reduce_eq_ok h).1.trans (length_of_isNonzero hx).symm
    obtain ⟨q, rfl, -⟩ := exists_map_eq hs rank fun _ => 0
    exact ⟨q, Coincide.map_eq length.symm fun name hn => ⟨source, sub name hn, coincide⟩, hx⟩

/-- Products and reductions are exact where no extent is zero: the result of a product is non-zero
at an entry exactly if the operands are at entries that coincide with each other and with it, that
of a reduction exactly if the pattern is at an entry that coincides with it. A product is the
reduction of the product that keeps all names. -/
theorem products_exact {a b : Pattern} (ha : a.Sized) (hb : b.Sized) (positiveA : 0 ∉ a.shape)
    (positiveB : 0 ∉ b.shape) :
    (∀ d : Descriptor, d.Suits a.shape b.shape → ∃ c, einsum d.render a b = .ok c ∧
      (∀ e, c.isNonzero e = true ↔ e.length = d.output.length ∧
        ∃ x y, a.isNonzero x = true ∧ b.isNonzero y = true ∧ Coincide d.left x d.right y ∧
          Coincide d.output e d.left x ∧ Coincide d.output e d.right y) ∧
      ∀ union : List Char, union.Nodup →
        (∀ name, name ∈ union ↔ name ∈ d.left ∨ name ∈ d.right) →
          ∃ u, einsum (Descriptor.render { d with output := union }) a b = .ok u ∧
            reduce union d.output u = .ok c) ∧
    ∀ source target : List Char, source.Nodup → target.Nodup →
      source.length = a.shape.length → (∀ name ∈ target, name ∈ source) →
        ∃ c, reduce source target a = .ok c ∧
          ∀ e, c.isNonzero e = true ↔ e.length = target.length ∧
            ∃ x, a.isNonzero x = true ∧ Coincide target e source x := by
  constructor
  · rintro ⟨l, r, o⟩ suits
    obtain ⟨c, product⟩ := suits.einsum_ok
    refine ⟨c, product, isNonzero_einsum_coincide ha hb positiveA positiveB suits product,
      fun union distinct names => ?_⟩
    have larger : Descriptor.Suits ⟨l, r, union⟩ a.shape b.shape :=
      { suits with output := distinct, known := fun name => (names name).mp }
    obtain ⟨u, whole⟩ := larger.einsum_ok
    exact ⟨u, whole, reduce_einsum ha hb suits.readable suits.left suits.right distinct
      (fun name hn => (names name).mpr (suits.known name hn)) product whole⟩
  · intro source target hs ht rank sub
    obtain ⟨shape, found⟩ : ∃ shape, target.mapM ((source.zip a.shape).lookup ·) = some shape := by
      apply exists_mapM_lookup
      rwa [List.map_fst_zip rank.le]
    obtain ⟨c, done, -⟩ := reduce_ok rank found
    exact ⟨c, done, isNonzero_reduce_coincide ha positiveA hs ht sub done⟩

/-- A product with a name of both operands that is kept, one that is summed over, and a name of the
left operand alone that is summed over. -/
def batched : Descriptor := ⟨['b', 'i', 'k'], ['k', 'j', 'b'], ['j', 'b']⟩

theorem products_exact_batched :
    let x := masked [2, 1, 2] [true, false, false, true]
    let y := masked [2, 2, 2] [true, true, false, true, false, false, true, true]
    let c := masked [2, 2] [true, false, false, true]
    batched.Suits x.shape y.shape ∧ einsum batched.render x y = .ok c ∧
      ∀ e, c.isNonzero e = true ↔ e.length = 2 ∧
        ∃ u v, x.isNonzero u = true ∧ y.isNonzero v = true ∧
          Coincide ['b', 'i', 'k'] u ['k', 'j', 'b'] v ∧
            Coincide ['j', 'b'] e ['b', 'i', 'k'] u ∧ Coincide ['j', 'b'] e ['k', 'j', 'b'] v := by
  intro x y c
  have suits : batched.Suits x.shape y.shape := by
    constructor
    case known => simp [batched]
    all_goals decide
  have computed : einsum batched.render x y = .ok c := by decide
  obtain ⟨c', product, entries, -⟩ :=
    (products_exact (a := x) (b := y) rfl rfl (by decide) (by decide)).1 batched suits
  obtain rfl : c' = c := Except.ok.inj (product.symm.trans computed)
  exact ⟨suits, computed, entries⟩

end Pattern

end TensorKernel
