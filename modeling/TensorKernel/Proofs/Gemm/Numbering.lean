import Mathlib.Algebra.BigOperators.Ring.List
import Mathlib.Algebra.BigOperators.Group.Finset.Basic
import Mathlib.Data.List.TakeWhile
import Mathlib.Tactic.Ring
import TensorKernel.Gemm.Selection
import TensorKernel.Proofs.Layout.Fusion
import TensorKernel.Proofs.Tree.WellFormed

/-!
How operands of a matrix product number the values of a group of indices that they address as one
dimension. The number of a value is its address in the group, counted in steps of the group's first
dimension.

* `fused_eq_sum`: where a group can be addressed as one, each index counts with the extents of the
  group's indices that stand before it;
* `numberAlike_iff`: two operands number a group alike, up to a constant, exactly if these weights
  are the same for each index with two values that both operands store.
-/

namespace TensorKernel

theorem Shape.volume_eq_prod (s : Shape) : volume s = s.prod := by
  induction s with
  | nil => rfl
  | cons n s ih => rw [volume, ih, List.prod_cons]

namespace Layout

def rangeOf (l : Layout) (i : Indices) (name : Char) : Range :=
  ((i.find? name).bind fun position => l.box.ranges[position]?).getD ⟨0, 0⟩

def strideOf (l : Layout) (i : Indices) (name : Char) : Nat :=
  ((i.find? name).bind fun position => l.strides[position]?).getD 0

/-- The stride of the first dimension that belongs to a group. -/
def firstStride (l : Layout) (i part : Indices) : Nat :=
  ((i.names.find? part.contains).map (l.strideOf i)).getD 1

/-- The number of a value of a group of indices, as the operand counts. -/
def fused (l : Layout) (i part : Indices) (v : Point) : Int :=
  (part.names.map fun g => ((v g : Int) - (l.rangeOf i g).start) * l.strideOf i g).sum /
    l.firstStride i part

def Stores (l : Layout) (i part : Indices) (v : Point) : Prop :=
  ∃ p : Point, l.box.contains (i.entryAt p) = true ∧ ∀ g ∈ part.names, p g = v g

/-- The number of stored values of a group's indices that stand before one of them. -/
def inner (l : Layout) (i part : Indices) (name : Char) : Nat :=
  (((i.names.takeWhile (· ≠ name)).filter part.contains).map fun h => (l.rangeOf i h).size).prod

/-- The layout stores a box of a tensor with the given indices. -/
structure Lays (l : Layout) (i : Indices) : Prop where
  distinct : i.Distinct
  rank : l.box.ranges.length = i.names.length
  strides : l.strides = stridesFrom 1 l.box.ranges

theorem lays_ofBox {shape : Shape} {box : Box} {alignment : Option Nat} {i : Indices}
    (distinct : i.Distinct) (rank : box.ranges.length = i.names.length) :
    (ofBox shape box alignment).Lays i := by
  refine ⟨distinct, ?_, rfl⟩
  cases alignment with
  | none => exact rank
  | some width =>
    have kept : (box.alignFirst width).ranges.length = box.ranges.length := by
      unfold Box.alignFirst
      split <;> simp [*]
    exact kept.trans rank

section
variable {l : Layout} {i part : Indices}

/-- Names stand for their stored ranges one by one. -/
theorem Lays.map_rangeOf (h : l.Lays i) : i.names.map (l.rangeOf i) = l.box.ranges := by
  apply List.ext_getElem
  · rw [List.length_map, h.rank]
  · intro k hk hr
    have hn : k < i.names.length := by simpa using hk
    have place : i.names.idxOf i.names[k] = k := h.distinct.idxOf_getElem k hn
    simp [rangeOf, Indices.find?_of_mem (List.getElem_mem hn), place, hr]

theorem takeWhile_ne_eq_take {names : List Char} {name : Char} :
    names.takeWhile (· ≠ name) = names.take (names.idxOf name) := by
  induction names with
  | nil => rfl
  | cons c cs ih =>
    by_cases same : c = name
    · simp [same]
    · rw [List.idxOf_cons_ne _ (by simpa using same), List.take_succ_cons, ← ih]
      simp [same]

/-- Strides are column-major. -/
theorem Lays.strideOf_eq (h : l.Lays i) {name : Char} (mem : name ∈ i.names) :
    l.strideOf i name =
      ((i.names.takeWhile (· ≠ name)).map fun c => (l.rangeOf i c).size).prod := by
  have position : i.names.idxOf name < l.box.ranges.length := by
    rw [h.rank]
    exact List.idxOf_lt_length_of_mem mem
  rw [strideOf, Indices.find?_of_mem mem, Option.bind_some, h.strides,
    stridesFrom_getElem? 1 _ position, Option.getD_some, Nat.one_mul, Shape.volume_eq_prod,
    takeWhile_ne_eq_take, ← h.map_rangeOf, ← List.map_take, List.map_map]
  rfl

/-- An entry is stored if each of its coordinates is. -/
theorem Lays.contains_iff (h : l.Lays i) {p : Point} :
    l.box.contains (i.entryAt p) = true ↔
      ∀ name ∈ i.names, (l.rangeOf i name).contains (p name) = true := by
  have rank : (i.entryAt p).length = l.box.rank := by
    rw [Indices.entryAt, List.length_map, Box.rank, h.rank]
  have each : List.zipWith Range.contains l.box.ranges (i.entryAt p) =
      i.names.map fun name => (l.rangeOf i name).contains (p name) := by
    rw [← h.map_rangeOf, Indices.entryAt, List.zipWith_map, List.zipWith_self]
  simp [Box.contains, rank, each]

theorem Lays.size_pos (h : l.Lays i) {v : Point} (stored : l.Stores i part v) {name : Char}
    (mem : name ∈ i.names) : 0 < (l.rangeOf i name).size := by
  obtain ⟨p, contained, -⟩ := stored
  have inside := h.contains_iff.mp contained name mem
  simp only [Range.contains, Bool.and_eq_true, decide_eq_true_eq] at inside
  unfold Range.size
  omega

/-- Values that are stored may be mixed. -/
theorem Lays.stores_update (h : l.Lays i) {v w : Point} (hv : l.Stores i part v)
    (hw : l.Stores i part w) {g : Char} (mem : g ∈ part.names) :
    l.Stores i part (Function.update v g (w g)) := by
  obtain ⟨p, containsP, sameP⟩ := hv
  obtain ⟨q, containsQ, sameQ⟩ := hw
  rw [h.contains_iff] at containsP containsQ
  refine ⟨Function.update p g (q g), h.contains_iff.mpr fun name hn => ?_, fun c hc => ?_⟩
  · by_cases same : name = g
    · subst same
      simpa using containsQ name hn
    · simpa [same] using containsP name hn
  · by_cases same : c = g
    · subst same
      simpa using sameQ c hc
    · simpa [same] using sameP c hc

/-! ### Groups that are addressed as one dimension -/

structure Together (i part : Indices) (before group after : List Char) : Prop where
  names : i.names = before ++ group ++ after
  before : ∀ c ∈ before, c ∉ part.names
  group : ∀ c, c ∈ group ↔ c ∈ part.names
  after : ∀ c ∈ after, c ∉ part.names

/-- A group that is addressed as one dimension has positions that follow each other. -/
theorem adjacent_of_fuses (h : Gemm.fuses i l part = .ok true) : i.Adjacent part := by
  unfold Gemm.fuses at h
  split at h
  · next ps positions => exact ⟨ps, positions, successive_of_mayFuse h⟩
  · cases h

theorem together_of_fuses (hi : i.Distinct) (h : Gemm.fuses i l part = .ok true) :
    ∃ before group after, Together i part before group after := by
  obtain ⟨before, group, after, names, perm⟩ := (adjacent_of_fuses h).split
  have once : (before ++ group ++ after).Nodup := names ▸ hi
  obtain ⟨first, -, behind⟩ := List.nodup_append.mp once
  obtain ⟨-, -, ahead⟩ := List.nodup_append.mp first
  refine ⟨before, group, after, names, fun c hc named => ?_, fun c => perm.mem_iff,
    fun c hc named => ?_⟩
  · exact ahead c hc c (perm.mem_iff.mpr named) rfl
  · exact behind c (List.mem_append_right _ (perm.mem_iff.mpr named)) c hc rfl

variable {before group after : List Char}

/-- Of the names that stand before one of a group, those of the group stand last. -/
theorem Together.takeWhile_eq (t : Together i part before group after) {g : Char}
    (mem : g ∈ part.names) :
    i.names.takeWhile (· ≠ g) = before ++ group.takeWhile (· ≠ g) := by
  have skip : ∀ c ∈ before, decide (c ≠ g) = true := by
    intro c hc
    refine decide_eq_true fun same => ?_
    exact t.before c hc (same ▸ mem)
  have stop : ¬∀ c ∈ group, decide (c ≠ g) = true := fun all => by
    simpa using all g ((t.group g).mpr mem)
  rw [t.names, List.append_assoc, List.takeWhile_append_of_pos skip, List.takeWhile_append,
    if_neg]
  intro whole
  exact stop (List.takeWhile_eq_self_iff.mp ((List.takeWhile_prefix _).eq_of_length whole))

theorem Together.filter_eq (t : Together i part before group after) {g : Char}
    (mem : g ∈ part.names) :
    (i.names.takeWhile (· ≠ g)).filter part.contains = group.takeWhile (· ≠ g) := by
  rw [t.takeWhile_eq mem, List.filter_append]
  have gone : before.filter part.contains = [] := by
    refine List.filter_eq_nil_iff.mpr fun c hc => ?_
    rw [Indices.contains_iff]
    exact t.before c hc
  have kept : (group.takeWhile (· ≠ g)).filter part.contains = group.takeWhile (· ≠ g) := by
    refine List.filter_eq_self.mpr fun c hc => ?_
    rw [Indices.contains_iff]
    exact (t.group c).mp ((List.takeWhile_prefix _).subset hc)
  rw [gone, kept, List.nil_append]

/-- The stride of an index is the one of its group times the extents inside the group. -/
theorem Together.strideOf_eq (t : Together i part before group after) (h : l.Lays i) {g : Char}
    (mem : g ∈ part.names) :
    l.strideOf i g = (before.map fun c => (l.rangeOf i c).size).prod * l.inner i part g := by
  have named : g ∈ i.names := by
    rw [t.names, List.mem_append, List.mem_append]
    exact .inl (.inr ((t.group g).mpr mem))
  rw [h.strideOf_eq named, inner, t.filter_eq mem, t.takeWhile_eq mem, List.map_append,
    List.prod_append]

theorem Together.firstStride_eq (t : Together i part before group after) (h : l.Lays i)
    (some' : part.names ≠ []) :
    l.firstStride i part = (before.map fun c => (l.rangeOf i c).size).prod := by
  obtain ⟨g, hg⟩ := List.exists_mem_of_ne_nil _ some'
  cases group with
  | nil => exact absurd ((t.group g).mpr hg) List.not_mem_nil
  | cons f rest =>
    have member : f ∈ part.names := (t.group f).mp List.mem_cons_self
    have first : i.names.find? part.contains = some f := by
      have skip : before.find? part.contains = none := by
        refine List.find?_eq_none.mpr fun c hc => ?_
        rw [Indices.contains_iff]
        exact t.before c hc
      rw [t.names, List.append_assoc, List.find?_append, skip, Option.none_or, List.cons_append,
        List.find?_cons_of_pos (Indices.contains_iff.mpr member)]
    have alone : l.inner i part f = 1 := by
      rw [inner, t.filter_eq member, List.takeWhile_cons_of_neg (by simp), List.map_nil,
        List.prod_nil]
    rw [firstStride, first, Option.map_some, Option.getD_some, t.strideOf_eq h member, alone,
      Nat.mul_one]

/-- In a group that is addressed as one dimension each index counts with the extents before it. -/
theorem fused_eq_sum (t : Together i part before group after) (h : l.Lays i) {v : Point}
    (stored : l.Stores i part v) :
    l.fused i part v =
      (part.names.map fun g => ((v g : Int) - (l.rangeOf i g).start) * l.inner i part g).sum := by
  by_cases empty : part.names = []
  · simp [fused, empty]
  let first : Nat := (before.map fun c => (l.rangeOf i c).size).prod
  have positive : 0 < first := by
    refine List.prod_pos_iff_forall_pos_nat.mpr fun size mem => ?_
    obtain ⟨c, hc, rfl⟩ := List.mem_map.mp mem
    refine h.size_pos stored ?_
    rw [t.names, List.append_assoc]
    exact List.mem_append_left _ hc
  have terms : (part.names.map fun g => ((v g : Int) - (l.rangeOf i g).start) * l.strideOf i g) =
      part.names.map fun g =>
        (first : Int) * (((v g : Int) - (l.rangeOf i g).start) * l.inner i part g) := by
    refine List.map_congr_left fun g hg => ?_
    rw [t.strideOf_eq h hg, Nat.cast_mul]
    ring
  rw [fused, t.firstStride_eq h empty, terms, List.sum_map_mul_left]
  exact Int.mul_ediv_cancel_left _ (by omega)

/-- A step of one index counts as often as its extents say. -/
theorem fused_update (hp : part.Distinct) (t : Together i part before group after) (h : l.Lays i)
    {v w : Point} (hv : l.Stores i part v) (hw : l.Stores i part w) {g : Char}
    (mem : g ∈ part.names) :
    l.fused i part (Function.update v g (w g)) - l.fused i part v =
      ((w g : Int) - v g) * l.inner i part g := by
  rw [fused_eq_sum t h (h.stores_update hv hw mem), fused_eq_sum t h hv, ← List.sum_toFinset _ hp,
    ← List.sum_toFinset _ hp, ← Finset.sum_sub_distrib, Finset.sum_eq_single g]
  · rw [Function.update_self]
    ring
  · intro c _ other
    rw [Function.update_of_ne other]
    ring
  · intro absent
    exact absurd (List.mem_toFinset.mpr mem) absent

end

/-! ### Two operands -/

section
variable (part : Indices) (l l' : Layout) (i i' : Indices)

/-- Two operands number the values of a group that both store alike, up to a constant. -/
def NumberAlike : Prop :=
  ∃ d : Int, ∀ v, l.Stores i part v → l'.Stores i' part v →
    l.fused i part v = l'.fused i' part v + d

/-- In each index of which two operands store two common values, a step counts the same in both. -/
def WeighAlike : Prop :=
  ∀ g ∈ part.names, ∀ v w, l.Stores i part v ∧ l'.Stores i' part v →
    l.Stores i part w ∧ l'.Stores i' part w → v g ≠ w g → l.inner i part g = l'.inner i' part g

end

theorem numberAlike_iff {part : Indices} {l l' : Layout} {i i' : Indices} (hp : part.Distinct)
    (h : l.Lays i) (h' : l'.Lays i') (fuses : Gemm.fuses i l part = .ok true)
    (fuses' : Gemm.fuses i' l' part = .ok true) :
    NumberAlike part l l' i i' ↔ WeighAlike part l l' i i' := by
  obtain ⟨_, _, _, t⟩ := together_of_fuses h.distinct fuses
  obtain ⟨_, _, _, t'⟩ := together_of_fuses h'.distinct fuses'
  constructor
  · rintro ⟨d, alike⟩ g hg v w ⟨hv, hv'⟩ ⟨hw, hw'⟩ other
    have step := fused_update hp t h hv hw hg
    have step' := fused_update hp t' h' hv' hw' hg
    rw [alike _ (h.stores_update hv hw hg) (h'.stores_update hv' hw' hg), alike v hv hv'] at step
    have same : ((w g : Int) - v g) * l.inner i part g = ((w g : Int) - v g) * l'.inner i' part g := by
      rw [← step, ← step']
      ring
    have moved : (w g : Int) - v g ≠ 0 := by omega
    exact Int.ofNat_inj.mp (mul_left_cancel₀ moved same)
  · intro alike
    by_cases both : ∃ v, l.Stores i part v ∧ l'.Stores i' part v
    · obtain ⟨v, hv, hv'⟩ := both
      refine ⟨l.fused i part v - l'.fused i' part v, fun w hw hw' => ?_⟩
      have difference : l.fused i part w - l.fused i part v =
          l'.fused i' part w - l'.fused i' part v := by
        rw [fused_eq_sum t h hw, fused_eq_sum t h hv, fused_eq_sum t' h' hw',
          fused_eq_sum t' h' hv']
        simp only [← List.sum_toFinset _ hp]
        rw [← Finset.sum_sub_distrib, ← Finset.sum_sub_distrib]
        refine Finset.sum_congr rfl fun g hg => ?_
        by_cases same : w g = v g
        · rw [same]
          ring
        · rw [alike g (List.mem_toFinset.mp hg) w v ⟨hw, hw'⟩ ⟨hv, hv'⟩ same]
          ring
      omega
    · exact ⟨0, fun v hv hv' => absurd ⟨v, hv, hv'⟩ both⟩

end Layout

namespace Gemm

theorem fusesAll_eq_ok {i : Indices} {l : Layout} {parts : List Indices} :
    fusesAll i l parts = .ok true ↔ ∀ part ∈ parts, fuses i l part = .ok true := by
  induction parts with
  | nil => simp [fusesAll, pure_eq_ok]
  | cons part parts ih =>
    rw [fusesAll, bind_eq_ok, List.forall_mem_cons, ← ih]
    constructor
    · rintro ⟨_ | _, first, rest⟩
      · cases rest
      · exact ⟨first, rest⟩
    · rintro ⟨first, rest⟩
      exact ⟨true, first, rest⟩

theorem argumentsFit_eq_ok {g : Gemm} {a b : Indices} {la lb : Layout} :
    g.argumentsFit a b la lb = .ok true ↔
      fusesAll a la [g.m, g.k] = .ok true ∧ fusesAll b lb [g.k, g.n] = .ok true := by
  rw [argumentsFit, bind_eq_ok]
  constructor
  · rintro ⟨_ | _, first, rest⟩
    · cases rest
    · exact ⟨first, rest⟩
  · rintro ⟨first, rest⟩
    exact ⟨true, first, rest⟩

end Gemm

namespace Node

structure StoredAs (n : Node) (i : Indices) (l : Layout) : Prop where
  indices : n.indices = some i
  layout : n.storage? = some l
  lays : l.Lays i

/-- Matrix products are accepted only if each operand addresses both of its groups as one. -/
theorem fuses_of_gemmCost? {n a b : Node} {c ai bi : Indices} {lc la lb : Layout}
    {partition : Gemm.Partition} {cost : Gemm.Cost} (children : n.children = [a, b])
    (result : n.StoredAs c lc) (left : a.StoredAs ai la) (right : b.StoredAs bi lb)
    (accepted : n.gemmCost? partition = .ok (some cost)) :
    (∀ part ∈ [partition.m, partition.k], Gemm.fuses ai la part = .ok true) ∧
      (∀ part ∈ [partition.k, partition.n], Gemm.fuses bi lb part = .ok true) ∧
      ∀ part ∈ [partition.m, partition.n], Gemm.fuses c lc part = .ok true := by
  simp only [gemmCost?, children, result.indices, left.indices, right.indices, left.layout,
    right.layout, result.layout] at accepted
  cases mapped : Gemm.ofPartition c ai bi partition with
  | error e => simp [mapped, pure_eq_ok] at accepted
  | ok mapping =>
    obtain ⟨-, -, -, rfl⟩ := Gemm.ofPartition_iff.mp mapped
    rw [mapped] at accepted
    obtain ⟨fits, arguments, rest⟩ := bind_eq_ok.mp accepted
    cases fits with
    | false => cases rest
    | true =>
      obtain ⟨fits, value, rest⟩ := bind_eq_ok.mp rest
      cases fits with
      | false => cases rest
      | true =>
        obtain ⟨first, second⟩ := Gemm.argumentsFit_eq_ok.mp arguments
        exact ⟨Gemm.fusesAll_eq_ok.mp first, Gemm.fusesAll_eq_ok.mp second,
          Gemm.fusesAll_eq_ok.mp value⟩

/-- Where matrix products are accepted, the operands that hold a group number its values alike
exactly if they weigh its indices alike: the acceptance asks each layout for itself. -/
theorem numberAlike_iff_weighAlike {n a b : Node} {c ai bi : Indices} {lc la lb : Layout}
    {partition : Gemm.Partition} {cost : Gemm.Cost} (children : n.children = [a, b])
    (result : n.StoredAs c lc) (left : a.StoredAs ai la) (right : b.StoredAs bi lb)
    (hm : partition.m.Distinct) (hn : partition.n.Distinct) (hk : partition.k.Distinct)
    (accepted : n.gemmCost? partition = .ok (some cost)) :
    (Layout.NumberAlike partition.m la lc ai c ↔ Layout.WeighAlike partition.m la lc ai c) ∧
      (Layout.NumberAlike partition.k la lb ai bi ↔ Layout.WeighAlike partition.k la lb ai bi) ∧
      (Layout.NumberAlike partition.n lb lc bi c ↔ Layout.WeighAlike partition.n lb lc bi c) := by
  obtain ⟨ofLeft, ofRight, ofResult⟩ := fuses_of_gemmCost? children result left right accepted
  refine ⟨?_, ?_, ?_⟩
  · exact Layout.numberAlike_iff hm left.lays result.lays (ofLeft _ (by simp))
      (ofResult _ (by simp))
  · exact Layout.numberAlike_iff hk left.lays right.lays (ofLeft _ (by simp))
      (ofRight _ (by simp))
  · exact Layout.numberAlike_iff hn right.lays result.lays (ofRight _ (by simp))
      (ofResult _ (by simp))

/-- The contraction `A_ijk B_kn` in any storage order of the result, everything stored. -/
def rowsTimesColumns (order : List Dim) : Node :=
  { ofKind (.contraction ⟨[⟨'k', 2⟩]⟩)
      [dense "A" [⟨'i', 2⟩, ⟨'j', 3⟩, ⟨'k', 2⟩], dense "B" [⟨'k', 2⟩, ⟨'n', 2⟩]] (some ⟨order⟩) with
    layout := some (.full (order.map Dim.extent)) }

def rowsAndColumns : Gemm.Partition where
  m := ⟨[⟨'i', 2⟩, ⟨'j', 3⟩]⟩
  n := ⟨[⟨'n', 2⟩]⟩
  k := ⟨[⟨'k', 2⟩]⟩

theorem storedAs_dense {name : String} {dims : List Dim} (h : (dims.map Dim.name).Nodup) :
    (dense name dims).StoredAs ⟨dims⟩ (.full (dims.map Dim.extent)) :=
  ⟨rfl, rfl, Layout.lays_ofBox h (by simp [Box.ofShape, Indices.names])⟩

theorem storedAs_rowsTimesColumns {order : List Dim} (h : (order.map Dim.name).Nodup) :
    (rowsTimesColumns order).StoredAs ⟨order⟩ (.full (order.map Dim.extent)) :=
  ⟨rfl, rfl, Layout.lays_ofBox h (by simp [Box.ofShape, Indices.names])⟩

/-- A result that is stored as `ijn` numbers the rows as the left operand does. -/
theorem numberAlike_iff_weighAlike_ijn :
    let n := rowsTimesColumns [⟨'i', 2⟩, ⟨'j', 3⟩, ⟨'n', 2⟩]
    n.gemmCost? rowsAndColumns = .ok (some ⟨0, 0, 0, 4⟩) ∧
      Layout.NumberAlike rowsAndColumns.m (.full [2, 3, 2]) (.full [2, 3, 2])
        ⟨[⟨'i', 2⟩, ⟨'j', 3⟩, ⟨'k', 2⟩]⟩ ⟨[⟨'i', 2⟩, ⟨'j', 3⟩, ⟨'n', 2⟩]⟩ := by
  intro n
  have accepted : n.gemmCost? rowsAndColumns = .ok (some ⟨0, 0, 0, 4⟩) := by rfl
  refine ⟨accepted, ?_⟩
  have iff := numberAlike_iff_weighAlike (n := n) rfl (storedAs_rowsTimesColumns (by decide))
    (storedAs_dense (by decide)) (storedAs_dense (by decide)) (by decide) (by decide) (by decide)
    accepted
  refine iff.1.mpr fun g hg _ _ _ _ _ => ?_
  have names : g = 'i' ∨ g = 'j' := by simpa [rowsAndColumns, Indices.names] using hg
  rcases names with rfl | rfl <;> rfl

/-- The rows of a result that is stored as `jin` run over `j` first, those of the left operand over
`i`; the matrix product is accepted, and no constant turns one numbering into the other. -/
theorem rows_not_numbered_alike :
    (rowsTimesColumns [⟨'j', 3⟩, ⟨'i', 2⟩, ⟨'n', 2⟩]).gemmCost? rowsAndColumns =
        .ok (some ⟨0, 0, 0, 4⟩) ∧
      ¬Layout.NumberAlike rowsAndColumns.m (.full [2, 3, 2]) (.full [3, 2, 2])
        ⟨[⟨'i', 2⟩, ⟨'j', 3⟩, ⟨'k', 2⟩]⟩ ⟨[⟨'j', 3⟩, ⟨'i', 2⟩, ⟨'n', 2⟩]⟩ := by
  refine ⟨rfl, fun ⟨d, alike⟩ => ?_⟩
  let a : Indices := ⟨[⟨'i', 2⟩, ⟨'j', 3⟩, ⟨'k', 2⟩]⟩
  let c : Indices := ⟨[⟨'j', 3⟩, ⟨'i', 2⟩, ⟨'n', 2⟩]⟩
  let start : Point := fun _ => 0
  let next : Point := fun name => if name = 'i' then 1 else 0
  have first := alike start ⟨start, by decide, fun _ _ => rfl⟩ ⟨start, by decide, fun _ _ => rfl⟩
  have second := alike next ⟨next, by decide, fun _ _ => rfl⟩ ⟨next, by decide, fun _ _ => rfl⟩
  have left : Layout.fused (.full [2, 3, 2]) a rowsAndColumns.m start = 0 ∧
      Layout.fused (.full [2, 3, 2]) a rowsAndColumns.m next = 1 := by decide
  have result : Layout.fused (.full [3, 2, 2]) c rowsAndColumns.m start = 0 ∧
      Layout.fused (.full [3, 2, 2]) c rowsAndColumns.m next = 3 := by decide
  rw [left.1, result.1] at first
  rw [left.2, result.2] at second
  omega

end Node

end TensorKernel
