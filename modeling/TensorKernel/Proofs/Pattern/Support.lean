import TensorKernel.Pattern.Algebra
import TensorKernel.Proofs.Index.Point
import TensorKernel.Proofs.Pattern.Reading

/-!
Patterns as sets of entries. The pattern of a sum has the entries of both summands. The pattern of a
product or of a reduction has the entry at each point at which the operands have theirs, whatever
names are summed over; so no entry is missed that a value can come from.

* `isNonzero_add`, `isNonzero_einsum`, `isNonzero_reduce`: the entries of the results;
* `sized_add`, ..: a result has one flag per entry again.
-/

namespace TensorKernel

namespace Shape

/-- A point lies inside a shape if each coordinate is below the extent of its name. -/
theorem holds_map {κ : Type} {names : List κ} {s : Shape} {q : κ → Nat}
    (rank : names.length = s.length) :
    holds s (names.map q) = true ↔ ∀ pair ∈ names.zip s, q pair.1 < pair.2 := by
  induction names generalizing s with
  | nil =>
    obtain rfl := List.length_eq_zero_iff.mp rank.symm
    simp [holds]
  | cons name names ih =>
    cases s with
    | nil => cases rank
    | cons n s =>
      rw [List.map_cons, holds, Bool.and_eq_true, decide_eq_true_eq, ih (by simpa using rank),
        List.zip_cons_cons, List.forall_mem_cons]

end Shape

namespace Pattern

/-- A mask has one flag for each entry. -/
def Sized : Pattern → Prop
  | dense _ => True
  | masked shape mask => mask.length = Shape.volume shape

theorem sized_ofOffsets (shape : Shape) (offsets : List Nat) : (ofOffsets shape offsets).Sized := by
  simp [ofOffsets_eq, Sized]

theorem sized_ofMask {shape : Shape} {mask : List Bool} {p : Pattern}
    (h : ofMask shape mask = .ok p) : p.Sized := by
  unfold ofMask at h
  split at h
  · next length =>
    obtain rfl := Except.ok.inj h
    exact length
  · exact absurd h refuse_ne_ok

theorem sized_ofEntries {shape : Shape} {entries : List Entry} {p : Pattern}
    (h : ofEntries shape entries = .ok p) : p.Sized := by
  unfold ofEntries at h
  split at h
  · exact absurd h refuse_ne_ok
  · obtain rfl := Except.ok.inj h
    exact sized_ofOffsets shape _

/-! ### Entries -/

@[simp] theorem shape_ofOffsets (shape : Shape) (offsets : List Nat) :
    (ofOffsets shape offsets).shape = shape := by
  rw [ofOffsets_eq, Pattern.shape]

theorem holds_of_isNonzero {p : Pattern} {e : Entry} (h : p.isNonzero e = true) :
    Shape.holds p.shape e = true := by
  rw [isNonzero.eq_def, Bool.and_eq_true] at h
  exact h.1

@[simp] theorem isNonzero_dense (shape : Shape) (e : Entry) :
    (dense shape).isNonzero e = Shape.holds shape e := by
  rw [isNonzero, Pattern.shape, Bool.and_true]

theorem isNonzero_masked (shape : Shape) (mask : List Bool) (e : Entry) :
    (masked shape mask).isNonzero e =
      (Shape.holds shape e && mask.getD (Shape.offset shape e) false) :=
  rfl

theorem isNonzero_ofOffsets {shape : Shape} {offsets : List Nat} {e : Entry}
    (h : Shape.holds shape e = true) (mem : Shape.offset shape e ∈ offsets) :
    (ofOffsets shape offsets).isNonzero e = true := by
  simp [ofOffsets_eq, isNonzero, Pattern.shape, h, Shape.offset_lt_volume h, mem]

/-- Every non-zero entry is listed. -/
theorem mem_entries_of_isNonzero {p : Pattern} {e : Entry} (h : p.isNonzero e = true) :
    e ∈ p.entries := by
  have inside := holds_of_isNonzero h
  cases p with
  | dense shape =>
    refine List.mem_map.mpr ⟨Shape.offset shape e, ?_, Shape.unravel_offset inside⟩
    exact List.mem_range.mpr (Shape.offset_lt_volume inside)
  | masked shape mask =>
    refine List.mem_map.mpr ⟨Shape.offset shape e, ?_, Shape.unravel_offset inside⟩
    rw [isNonzero_masked, Bool.and_eq_true, List.getD_eq_getElem?_getD] at h
    have flag : mask[Shape.offset shape e]? = some true := by
      cases found : mask[Shape.offset shape e]? <;> simp_all
    refine List.mem_filterMap.mpr ⟨(true, Shape.offset shape e), ?_, rfl⟩
    exact List.mem_zipIdx_iff_getElem?.mpr flag

/-! ### Sums -/

theorem add_eq_ok {a b c : Pattern} (h : a.add b = .ok c) :
    a.shape = b.shape ∧ c.shape = a.shape := by
  unfold add at h
  split at h
  · exact absurd h violates_ne_ok
  · next shapes =>
    refine ⟨of_not_not shapes, ?_⟩
    split at h <;> obtain rfl := Except.ok.inj h <;> rfl

theorem add_ok {a b : Pattern} (shapes : a.shape = b.shape) : ∃ c, a.add b = .ok c := by
  unfold add
  rw [if_neg (not_not.mpr shapes)]
  split <;> exact ⟨_, rfl⟩

theorem sized_add {a b c : Pattern} (ha : a.Sized) (hb : b.Sized) (h : a.add b = .ok c) :
    c.Sized := by
  have shapes := (add_eq_ok h).1
  unfold add at h
  rw [if_neg (not_not.mpr shapes)] at h
  split at h <;> obtain rfl := Except.ok.inj h
  · next shape left other right =>
    obtain rfl : shape = other := shapes
    rw [Sized] at ha hb ⊢
    rw [List.length_zipWith, ha, hb, Nat.min_self]
  · trivial

/-- The sum has the entries of both patterns. -/
theorem isNonzero_add {a b c : Pattern} (ha : a.Sized) (hb : b.Sized) (h : a.add b = .ok c)
    (e : Entry) : c.isNonzero e = (a.isNonzero e || b.isNonzero e) := by
  have shapes := (add_eq_ok h).1
  unfold add at h
  rw [if_neg (not_not.mpr shapes)] at h
  have inside (p : Pattern) : p.isNonzero e = (Shape.holds p.shape e && p.isNonzero e) := by
    rw [isNonzero.eq_def, ← Bool.and_assoc, Bool.and_self]
  match a, b with
  | masked shape left, masked other right =>
    obtain rfl := Except.ok.inj h
    obtain rfl : shape = other := shapes
    rw [Sized] at ha hb
    cases holds : Shape.holds shape e with
    | false => simp [isNonzero, Pattern.shape, holds]
    | true =>
      have place := Shape.offset_lt_volume holds
      have first : Shape.offset shape e < left.length := ha ▸ place
      have second : Shape.offset shape e < right.length := hb ▸ place
      simp [isNonzero, Pattern.shape, holds, first, second]
  | dense shape, p =>
    obtain rfl := Except.ok.inj h
    obtain rfl : shape = p.shape := shapes
    rw [isNonzero_dense, isNonzero_dense, inside p, Pattern.shape]
    cases Shape.holds p.shape e <;> simp
  | masked shape left, dense other =>
    obtain rfl := Except.ok.inj h
    obtain rfl : shape = other := shapes
    rw [isNonzero_dense, isNonzero_dense, inside (masked shape left), Pattern.shape]
    cases Shape.holds shape e <;> simp

/-! ### Points and assignments -/

/-- Of names with the coordinates of a point each has its coordinate. -/
theorem lookup_zip_map {names : List Char} {q : Point} {name : Char} (h : name ∈ names) :
    (names.zip (names.map q)).lookup name = some (q name) := by
  induction names with
  | nil => cases h
  | cons first rest ih =>
    rw [List.map_cons, List.zip_cons_cons, List.lookup_cons]
    by_cases same : name = first
    · subst same
      simp
    · rw [beq_false_of_ne same]
      exact ih ((List.mem_cons.mp h).resolve_left same)

theorem lookup_eq_none {α : Type} {names : List Char} {values : List α} {name : Char}
    (h : name ∉ names) : (names.zip values).lookup name = none := by
  rw [List.lookup_eq_none_iff]
  intro pair hp
  have known : pair.1 ∈ names := (List.of_mem_zip hp).1
  rw [bne_iff_ne]
  rintro rfl
  exact h known

/-- A lookup finds a pair of the list. -/
theorem mem_of_lookup {α : Type} {pairs : List (Char × α)} {name : Char} {value : α}
    (h : pairs.lookup name = some value) : (name, value) ∈ pairs := by
  obtain ⟨before, after, rfl, -⟩ := List.lookup_eq_some_iff.mp h
  simp

namespace Assignment

/-- The projection of the coordinates that a point gives is the entry of the output there. -/
theorem project_eq_map {values : Assignment} {names : List Char} {q : Point}
    (h : ∀ name ∈ names, values.lookup name = some (q name)) :
    project values names = names.map q := by
  refine List.map_congr_left fun name hn => ?_
  rw [h name hn, Option.getD_some]

/-- An output whose names are those of two operands at a point is the entry of the output there. -/
theorem project_append {l r o : List Char} {q : Point}
    (known : ∀ name ∈ o, name ∈ l ∨ name ∈ r) :
    project (l.zip (l.map q) ++ r.zip (r.map q)) o = o.map q := by
  refine project_eq_map fun name hn => ?_
  rw [List.lookup_append]
  by_cases first : name ∈ l
  · rw [lookup_zip_map first, Option.some_or]
  · rw [lookup_eq_none first, Option.none_or, lookup_zip_map ((known name hn).resolve_left first)]

/-- The coordinates that one point gives to the names of two operands agree. -/
theorem agrees_map (l r : List Char) (q : Point) :
    agrees (l.zip (l.map q)) (r.zip (r.map q)) = true := by
  rw [agrees, List.all_eq_true]
  rintro ⟨name, value⟩ mem
  obtain rfl : value = q name := by
    rw [← List.map_id r, List.map_map, List.zip_map, List.zip_eq_zipWith, List.zipWith_self,
      List.map_map, List.mem_map] at mem
    obtain ⟨_, -, pair⟩ := mem
    cases pair
    rfl
  by_cases shared : name ∈ l
  · simp [lookup_zip_map shared]
  · simp [lookup_eq_none shared]

end Assignment

/-- A point inside the operands lies inside an output whose extents were looked up in them. -/
theorem holds_of_lookup {extents : Assignment} {names : List Char} {shape : Shape} {q : Point}
    (found : names.mapM (extents.lookup ·) = some shape)
    (below : ∀ pair ∈ extents, q pair.1 < pair.2) : Shape.holds shape (names.map q) = true := by
  rw [mapM_eq_some] at found
  induction found with
  | nil => rfl
  | cons known _ ih =>
    rw [List.map_cons, Shape.holds, Bool.and_eq_true, decide_eq_true_eq]
    exact ⟨below _ (mem_of_lookup known), ih⟩

/-- Names whose extents were looked up are names of the operands. -/
theorem mem_of_lookup_extents {pairs : Assignment} {target : List Char} {shape : Shape}
    (found : target.mapM (pairs.lookup ·) = some shape) {name : Char} (h : name ∈ target) :
    ∃ n, (name, n) ∈ pairs := by
  obtain ⟨n, -, known⟩ := exists_of_forall₂_right (mapM_eq_some.mp found).flip h
  exact ⟨n, mem_of_lookup known⟩

theorem mem_operands_of_lookup {l r target : List Char} {s t shape : Shape}
    (found : target.mapM ((l.zip s ++ r.zip t).lookup ·) = some shape) {name : Char}
    (h : name ∈ target) : name ∈ l ∨ name ∈ r := by
  obtain ⟨n, known⟩ := mem_of_lookup_extents found h
  exact (List.mem_append.mp known).imp (fun h => (List.of_mem_zip h).1) fun h =>
    (List.of_mem_zip h).1

/-! ### Reductions -/

theorem reduce_eq_ok {source target : List Char} {a c : Pattern}
    (h : reduce source target a = .ok c) :
    source.length = a.shape.length ∧
      target.mapM ((source.zip a.shape).lookup ·) = some c.shape ∧
      (a.isDense = true ∧ c = dense c.shape ∨
        a.isDense = false ∧ c = ofOffsets c.shape (a.entries.map fun entry =>
          Shape.offset c.shape (Assignment.project (source.zip entry) target))) := by
  unfold reduce at h
  split at h
  · exact absurd h violates_ne_ok
  · next rank =>
    split at h
    · exact absurd h violates_ne_ok
    · next shape found =>
      refine ⟨of_not_not rank, ?_⟩
      split at h
      · next isDense =>
        obtain rfl := Except.ok.inj h
        exact ⟨found, .inl ⟨isDense, rfl⟩⟩
      · next masked =>
        obtain rfl := Except.ok.inj h
        rw [shape_ofOffsets]
        exact ⟨found, .inr ⟨Bool.eq_false_of_not_eq_true masked, rfl⟩⟩

theorem reduce_ok {source target : List Char} {a : Pattern} {shape : Shape}
    (rank : source.length = a.shape.length)
    (found : target.mapM ((source.zip a.shape).lookup ·) = some shape) :
    ∃ c, reduce source target a = .ok c ∧ c.shape = shape := by
  unfold reduce
  rw [if_neg (not_not.mpr rank), found]
  dsimp only
  split
  · exact ⟨_, rfl, rfl⟩
  · exact ⟨_, rfl, shape_ofOffsets _ _⟩

theorem sized_reduce {source target : List Char} {a c : Pattern}
    (h : reduce source target a = .ok c) : c.Sized := by
  obtain ⟨-, -, ⟨-, isDense⟩ | ⟨-, marked⟩⟩ := reduce_eq_ok h
  · rw [isDense]
    trivial
  · rw [marked]
    exact sized_ofOffsets _ _

/-- A reduction has an entry wherever the pattern has one at the same point. -/
theorem isNonzero_reduce {source target : List Char} {a c : Pattern}
    (h : reduce source target a = .ok c) {q : Point} (ha : a.isNonzero (source.map q) = true) :
    c.isNonzero (target.map q) = true := by
  obtain ⟨rank, found, result⟩ := reduce_eq_ok h
  have below := (Shape.holds_map rank).mp (holds_of_isNonzero ha)
  have inside := holds_of_lookup found below
  rcases result with ⟨-, isDense⟩ | ⟨-, marked⟩
  · rw [isDense, isNonzero_dense]
    exact inside
  · have projected : Assignment.project (source.zip (source.map q)) target = target.map q := by
      refine Assignment.project_eq_map fun name hn => lookup_zip_map ?_
      obtain ⟨n, known⟩ := mem_of_lookup_extents found hn
      exact (List.of_mem_zip known).1
    rw [marked]
    refine isNonzero_ofOffsets inside (List.mem_map.mpr ⟨_, mem_entries_of_isNonzero ha, ?_⟩)
    rw [projected]

/-! ### Products -/

theorem einsum_eq_ok {descriptor : List Char} {a b c : Pattern}
    (h : einsum descriptor a b = .ok c) :
    ∃ d, Descriptor.parse descriptor = .ok d ∧ d.left.length = a.shape.length ∧
      d.right.length = b.shape.length ∧
      inconsistent? (d.left.zip a.shape ++ d.right.zip b.shape) = none ∧
      d.output.mapM ((d.left.zip a.shape ++ d.right.zip b.shape).lookup ·) = some c.shape ∧
      ((a.isDense && b.isDense) = true ∧ c = dense c.shape ∨
        (a.isDense && b.isDense) = false ∧
          c = ofOffsets c.shape (productOffsets d a b c.shape)) := by
  obtain ⟨d, parsed, h⟩ := bind_eq_ok.mp h
  refine ⟨d, parsed, ?_⟩
  split at h
  · exact absurd h violates_ne_ok
  · next ranks =>
    simp only [Bool.or_eq_true, decide_eq_true_eq, not_or, not_not] at ranks
    refine ⟨ranks.1, ranks.2, ?_⟩
    dsimp only at h
    split at h
    · exact absurd h violates_ne_ok
    · exact absurd h violates_ne_ok
    · next consistent found =>
      refine ⟨consistent, ?_⟩
      split at h
      · next both =>
        obtain rfl := Except.ok.inj h
        exact ⟨found, .inl ⟨both, rfl⟩⟩
      · next masked =>
        obtain rfl := Except.ok.inj h
        rw [shape_ofOffsets]
        exact ⟨found, .inr ⟨Bool.eq_false_of_not_eq_true masked, rfl⟩⟩

/-- Where operands have the ranks that a descriptor was written for, it has been read as written. -/
theorem readable_of_einsum {l r o : List Char} {a b c : Pattern} (ha : a.shape.length = l.length)
    (hb : b.shape.length = r.length) (h : einsum (Descriptor.render ⟨l, r, o⟩) a b = .ok c) :
    Descriptor.Readable ⟨l, r, o⟩ := by
  obtain ⟨d, parsed, left, right, -⟩ := einsum_eq_ok h
  rw [Descriptor.eq_of_parse_render parsed (left.trans ha) (right.trans hb)] at parsed
  exact Descriptor.parse_render.mp parsed

theorem einsum_ok {descriptor : List Char} {d : Descriptor} {a b : Pattern} {shape : Shape}
    (parsed : Descriptor.parse descriptor = .ok d) (left : d.left.length = a.shape.length)
    (right : d.right.length = b.shape.length)
    (consistent : inconsistent? (d.left.zip a.shape ++ d.right.zip b.shape) = none)
    (found : d.output.mapM ((d.left.zip a.shape ++ d.right.zip b.shape).lookup ·) = some shape) :
    ∃ c, einsum descriptor a b = .ok c ∧ c.shape = shape := by
  rw [einsum, parsed]
  dsimp only [bind, Except.bind]
  rw [left, right, consistent, found]
  simp only [ne_eq, not_true_eq_false, decide_false, Bool.or_self, Bool.false_eq_true, if_false]
  split
  · exact ⟨_, rfl, rfl⟩
  · exact ⟨_, rfl, shape_ofOffsets _ _⟩

theorem exists_lookup {α : Type} {pairs : List (Char × α)} {name : Char}
    (h : name ∈ pairs.map Prod.fst) : ∃ value, pairs.lookup name = some value := by
  cases found : pairs.lookup name with
  | some value => exact ⟨value, rfl⟩
  | none =>
    obtain ⟨pair, hp, rfl⟩ := List.mem_map.mp h
    have other := List.lookup_eq_none_iff.mp found pair hp
    simp at other

/-- Where a product has a pattern, it has one for any output among the names of its operands. -/
theorem einsum_of_output {l r o other : List Char} {a b c : Pattern}
    (h : einsum (Descriptor.render ⟨l, r, o⟩) a b = .ok c)
    (known : ∀ name ∈ other, name ∈ l ∨ name ∈ r) :
    ∃ c', einsum (Descriptor.render ⟨l, r, other⟩) a b = .ok c' := by
  obtain ⟨d, parsed, left, right, consistent, found, -⟩ := einsum_eq_ok h
  obtain ⟨rest, output, names, again⟩ := Descriptor.parse_render_cases parsed
  have operand (name : Char) (hn : name ∈ d.left ++ d.right) :
      ∃ extent, (d.left.zip a.shape ++ d.right.zip b.shape).lookup name = some extent := by
    apply exists_lookup
    rwa [List.map_append, List.map_fst_zip left.le, List.map_fst_zip right.le]
  have behind (name : Char) (hn : name ∈ rest) :
      ∃ extent, (d.left.zip a.shape ++ d.right.zip b.shape).lookup name = some extent := by
    rw [output, mapM_eq_some] at found
    obtain ⟨extent, -, looked⟩ :=
      exists_of_forall₂_right found.flip (List.mem_append_left o hn)
    exact ⟨extent, looked⟩
  have each : ∀ name ∈ rest ++ other,
      ∃ extent, (d.left.zip a.shape ++ d.right.zip b.shape).lookup name = some extent := by
    intro name hn
    rcases List.mem_append.mp hn with hn | hn
    · exact behind name hn
    · have written : name ∈ l ++ r := List.mem_append.mpr (known name hn)
      rcases List.mem_append.mp (names.mem_iff.mp written) with hn | hn
      · exact operand name hn
      · exact behind name hn
  obtain ⟨shape, extents⟩ := forall₂_of_exists each
  obtain ⟨c', done, -⟩ :=
    einsum_ok (again other) left right consistent (mapM_eq_some.mpr extents)
  exact ⟨c', done⟩

theorem sized_einsum {descriptor : List Char} {a b c : Pattern}
    (h : einsum descriptor a b = .ok c) : c.Sized := by
  obtain ⟨_, -, -, -, -, -, ⟨-, isDense⟩ | ⟨-, marked⟩⟩ := einsum_eq_ok h
  · rw [isDense]
    trivial
  · rw [marked]
    exact sized_ofOffsets _ _

/-- A product has an entry wherever both operands have one at the same point. -/
theorem isNonzero_einsum {descriptor l r o : List Char} {a b c : Pattern}
    (parsed : Descriptor.parse descriptor = .ok ⟨l, r, o⟩) (h : einsum descriptor a b = .ok c)
    {q : Point} (ha : a.isNonzero (l.map q) = true) (hb : b.isNonzero (r.map q) = true) :
    c.isNonzero (o.map q) = true := by
  obtain ⟨d, same, left, right, -, found, result⟩ := einsum_eq_ok h
  obtain rfl : ⟨l, r, o⟩ = d := Except.ok.inj (parsed.symm.trans same)
  have below : ∀ pair ∈ l.zip a.shape ++ r.zip b.shape, q pair.1 < pair.2 := by
    intro pair hp
    rcases List.mem_append.mp hp with hp | hp
    · exact (Shape.holds_map left).mp (holds_of_isNonzero ha) pair hp
    · exact (Shape.holds_map right).mp (holds_of_isNonzero hb) pair hp
  have inside := holds_of_lookup found below
  rcases result with ⟨-, isDense⟩ | ⟨-, marked⟩
  · rw [isDense, isNonzero_dense]
    exact inside
  · have projected : Assignment.project (l.zip (l.map q) ++ r.zip (r.map q)) o = o.map q :=
      Assignment.project_append fun name hn => mem_operands_of_lookup found hn
    rw [marked]
    refine isNonzero_ofOffsets inside (List.mem_flatMap.mpr
      ⟨_, mem_entries_of_isNonzero ha, List.mem_map.mpr ⟨r.zip (r.map q), ?_, ?_⟩⟩)
    · rw [List.mem_filter]
      exact ⟨List.mem_map_of_mem (mem_entries_of_isNonzero hb), Assignment.agrees_map l r q⟩
    · rw [projected]

end Pattern

end TensorKernel
