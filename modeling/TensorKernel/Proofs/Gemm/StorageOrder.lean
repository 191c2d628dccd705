import TensorKernel.Proofs.Gemm.Numbering

/-!
In which order an operand of a matrix product stores its groups. A mapping looks only at the first
index of each group; once the groups can be addressed as single dimensions, that is enough, since
of two groups whose indices stand together all of one stands before all of the other.

* `named_of_fits`: which groups stand in which operand;
* `Adjacent.allBefore`: groups that stand together stand one before the other;
* `standsBehind_iff`: what a transposition says of whole groups;
* `fused_dimensions`: dimensions and groups that are addressed as one.
-/

namespace TensorKernel

namespace Indices

variable {i part other : Indices}

theorem names_of_isSubsetOf (h : part.isSubsetOf i = true) : ∀ g ∈ part.names, g ∈ i.names := by
  intro g hg
  obtain ⟨d, hd, rfl⟩ := mem_names.mp hg
  rw [isSubsetOf, List.all_eq_true] at h
  have extent := of_decide_eq_true (h d hd)
  exact extent?_isSome.mp (Option.isSome_of_eq_some extent)

def AllBefore (i sooner later : Indices) : Prop :=
  ∀ g ∈ sooner.names, ∀ h ∈ later.names,
    ∃ p q, i.find? g = some p ∧ i.find? h = some q ∧ p < q

theorem Adjacent.sub (h : i.Adjacent part) : ∀ g ∈ part.names, g ∈ i.names := by
  obtain ⟨ps, found, -⟩ := h
  exact (positions?_eq_some.mp found).1

/-- The positions of a part that stands together are an interval. -/
theorem Adjacent.interval (h : i.Adjacent part) : ∃ p n, ∀ q,
    (p ≤ q ∧ q < p + n) ↔ ∃ g ∈ part.names, i.names.idxOf g = q := by
  obtain ⟨ps, found, successive⟩ := h
  obtain ⟨-, perm, -⟩ := positions?_eq_some.mp found
  obtain ⟨p, n, rfl⟩ := successive.exists_eq_range'
  refine ⟨p, n, fun q => ?_⟩
  rw [← List.mem_range'_1, perm.mem_iff, List.mem_map]

/-- If one index of a part stands before one index of another, all of them do. -/
theorem Adjacent.allBefore (first : i.Adjacent part) (second : i.Adjacent other)
    (apart : ∀ g ∈ part.names, g ∉ other.names) {g h : Char} (hg : g ∈ part.names)
    (hh : h ∈ other.names) (before : i.names.idxOf g < i.names.idxOf h) :
    i.AllBefore part other := by
  intro g' hg' h' hh'
  have here' := first.sub g' hg'
  have there' := second.sub h' hh'
  refine ⟨_, _, find?_of_mem here', find?_of_mem there', ?_⟩
  obtain ⟨p, n, places⟩ := first.interval
  obtain ⟨q, m, places'⟩ := second.interval
  have inside := (places _).mpr ⟨g, hg, rfl⟩
  have inside' := (places' _).mpr ⟨h, hh, rfl⟩
  have within := (places _).mpr ⟨g', hg', rfl⟩
  have within' := (places' _).mpr ⟨h', hh', rfl⟩
  -- No position belongs to both parts.
  have disjoint (r : Nat) (left : p ≤ r ∧ r < p + n) (right : q ≤ r ∧ r < q + m) : False := by
    obtain ⟨x, hx, rfl⟩ := (places r).mp left
    obtain ⟨y, hy, same⟩ := (places' _).mp right
    have equal : y = x := (List.idxOf_inj (second.sub y hy)).mp same
    exact apart x hx (equal ▸ hy)
  by_contra notBefore
  by_cases early : i.names.idxOf h' ≤ i.names.idxOf g
  · exact disjoint (i.names.idxOf g) inside (by omega)
  · exact disjoint (i.names.idxOf h') (by omega) within'

theorem mem_names_of_first? {name : Char} (h : part.first? = some name) : name ∈ part.names :=
  List.mem_of_head? h

theorem exists_first? (h : part.isEmpty = false) : ∃ name, part.first? = some name := by
  obtain ⟨_ | ⟨d, ds⟩⟩ := part
  · cases h
  · exact ⟨d.name, rfl⟩

end Indices

namespace Gemm

variable {c a b : Indices} {p : Partition}

/-- Whether the first index of one part stands behind that of another tells whether all do, if both
parts stand together. -/
theorem standsBehind_iff {i later sooner : Indices} (first : i.Adjacent later)
    (second : i.Adjacent sooner) (apart : ∀ g ∈ sooner.names, g ∉ later.names)
    (some₁ : later.isEmpty = false) (some₂ : sooner.isEmpty = false) :
    standsBehind i later sooner = true ↔ i.AllBefore sooner later := by
  obtain ⟨g, hg⟩ := Indices.exists_first? some₁
  obtain ⟨h, hh⟩ := Indices.exists_first? some₂
  have named := Indices.mem_names_of_first? hg
  have named' := Indices.mem_names_of_first? hh
  have here := Indices.find?_of_mem (first.sub g named)
  have here' := Indices.find?_of_mem (second.sub h named')
  have compared : standsBehind i later sooner =
      decide (i.names.idxOf h < i.names.idxOf g) := by
    rw [standsBehind, hg, hh, Option.bind_some, Option.bind_some, here, here']
  rw [compared, decide_eq_true_iff]
  constructor
  · exact second.allBefore first apart named' named
  · intro all
    obtain ⟨p, q, foundP, foundQ, before⟩ := all h named' g named
    rw [here', Option.some.injEq] at foundP
    rw [here, Option.some.injEq] at foundQ
    omega

/-- Of a group of two or more, a layout of its operand asks only for whether it stands together. -/
theorem fuses_iff {i part : Indices} {l : Layout} (strided : l.Strided) (rank : l.box.rank = i.size)
    (several : 2 ≤ part.size) : fuses i l part = .ok true ↔ i.Adjacent part := by
  refine ⟨Layout.adjacent_of_fuses, ?_⟩
  rintro ⟨ps, found, successive⟩
  obtain ⟨sub, perm, -⟩ := Indices.positions?_eq_some.mp found
  have length : ps.length = part.size := by
    rw [perm.length_eq, List.length_map, Indices.length_names]
  have inside : ∀ p ∈ ps, p < l.box.rank := by
    intro p hp
    obtain ⟨g, hg, rfl⟩ := List.mem_map.mp (perm.mem_iff.mp hp)
    rw [rank, ← Indices.length_names]
    exact List.idxOf_lt_length_of_mem (sub g hg)
  rw [fuses, found]
  dsimp only
  rw [strided.mayFuse_eq (by omega), decide_eq_true ⟨successive, inside⟩]

/-- Where the names of the groups stand: each in two of the three index sets. -/
structure Partition.Named (p : Partition) (c a b : Indices) : Prop where
  rows : ∀ g ∈ p.m.names, g ∈ a.names ∧ g ∈ c.names ∧ g ∉ b.names
  columns : ∀ g ∈ p.n.names, g ∈ b.names ∧ g ∈ c.names ∧ g ∉ a.names
  summed : ∀ g ∈ p.k.names, g ∈ a.names ∧ g ∈ b.names ∧ g ∉ c.names

theorem named_of_fits (fits : p.fits c a b = true) : p.Named c a b := by
  simp only [Partition.fits, Bool.and_eq_true, Bool.not_eq_true', List.any_eq_false,
    Indices.contains_iff] at fits
  obtain ⟨⟨⟨⟨⟨⟨⟨⟨ma, mc⟩, ka⟩, kb⟩, nb⟩, nc⟩, inner⟩, rows⟩, columns⟩ := fits
  refine ⟨fun g hg => ⟨?_, ?_, rows g hg⟩, fun g hg => ⟨?_, ?_, columns g hg⟩,
    fun g hg => ⟨?_, ?_, inner g hg⟩⟩
  · exact Indices.names_of_isSubsetOf ma g hg
  · exact Indices.names_of_isSubsetOf mc g hg
  · exact Indices.names_of_isSubsetOf nb g hg
  · exact Indices.names_of_isSubsetOf nc g hg
  · exact Indices.names_of_isSubsetOf ka g hg
  · exact Indices.names_of_isSubsetOf kb g hg

/-- The storage order of the operands, as an accepted mapping has it. -/
theorem transposed_iff {g : Gemm} {la lb : Layout} (made : ofPartition c a b p = .ok g)
    (accepted : g.argumentsFit a b la lb = .ok true) :
    (g.transA = true ↔ a.AllBefore g.k g.m) ∧
      (g.n.isEmpty = false → (g.transB = true ↔ b.AllBefore g.n g.k)) := by
  obtain ⟨rows, inner, fits, rfl⟩ := ofPartition_iff.mp made
  have named := named_of_fits fits
  obtain ⟨ofLeft, ofRight⟩ := argumentsFit_eq_ok.mp accepted
  have left := fusesAll_eq_ok.mp ofLeft
  have right := fusesAll_eq_ok.mp ofRight
  have together {i part : Indices} {l : Layout} (h : fuses i l part = .ok true) : i.Adjacent part :=
    Layout.adjacent_of_fuses h
  refine ⟨?_, fun columns => ?_⟩
  · refine standsBehind_iff (together (left p.m (by simp))) (together (left p.k (by simp))) ?_ rows
      inner
    exact fun g hg row => (named.rows g row).2.2 (named.summed g hg).2.1
  · refine standsBehind_iff (together (right p.k (by simp))) (together (right p.n (by simp))) ?_
      inner columns
    exact fun g hg summed => (named.summed g summed).2.2 (named.columns g hg).2.1

/-- Two or more dimensions of a layout are accepted as one exactly if they follow each other and
exist. Then an address is a part that depends on the other coordinates alone, and as many strides of
the first of these dimensions as the column-major number of their coordinates says. Of a mapping
that is accepted for its operands, an operand is transposed exactly if the whole of one group stands
before the whole of the other. -/
theorem fused_dimensions :
    (∀ l : Layout, l.Built → ∀ ps : List Nat, 2 ≤ ps.length →
      ∃ fuses, l.mayFuse ps = .ok fuses ∧
        (fuses = true ↔ Successive ps ∧ ∀ p ∈ ps, p < l.box.rank) ∧
        (fuses = true → ∃ first stride, ps.head? = some first ∧
          l.strides[first]? = some stride ∧ l.OneDimension ps stride)) ∧
    ∀ (c a b : Indices) (p : Partition) (g : Gemm) (la lb : Layout),
      ofPartition c a b p = .ok g → g.argumentsFit a b la lb = .ok true →
        (g.transA = true ↔ a.AllBefore g.k g.m) ∧
          (g.n.isEmpty = false → (g.transB = true ↔ b.AllBefore g.n g.k)) := by
  refine ⟨fun l built ps several => ?_, fun c a b p g la lb made accepted => ?_⟩
  · have strided := built.strided
    refine ⟨_, strided.mayFuse_eq several, decide_eq_true_iff, fun accepted => ?_⟩
    obtain ⟨successive, inside⟩ := of_decide_eq_true accepted
    have some' : ps ≠ [] := by
      rintro rfl
      simp at several
    exact strided.exists_oneDimension some' successive inside
  · exact transposed_iff made accepted

/-- The last two dimensions of an aligned layout, and a left operand that stores its summed indices
first, in another order than the mapping has them. -/
theorem fused_dimensions_aligned :
    let l : Layout := .ofBox [4, 3, 2] ⟨[⟨2, 4⟩, ⟨1, 3⟩, ⟨0, 2⟩]⟩ (some 4)
    let c : Indices := ⟨[⟨'i', 2⟩, ⟨'j', 4⟩, ⟨'n', 5⟩]⟩
    let a : Indices := ⟨[⟨'k', 2⟩, ⟨'l', 3⟩, ⟨'i', 2⟩, ⟨'j', 4⟩]⟩
    let b : Indices := ⟨[⟨'k', 2⟩, ⟨'l', 3⟩, ⟨'n', 5⟩]⟩
    let p : Partition := ⟨⟨[⟨'j', 4⟩, ⟨'i', 2⟩]⟩, ⟨[⟨'n', 5⟩]⟩, ⟨[⟨'l', 3⟩, ⟨'k', 2⟩]⟩⟩
    (Layout.ofPattern (.ofOffsets [3, 4, 2] [7, 23]) (some 4)).permute? [1, 0, 2] = some l ∧
      l.mayFuse [1, 2] = .ok true ∧ l.OneDimension [1, 2] 4 ∧ l.mayFuse [2, 1] = .ok false ∧
      ∃ g, ofPartition c a b p = .ok g ∧
        g.argumentsFit a b (.full a.shape) (.full b.shape) = .ok true ∧
        a.AllBefore g.k g.m ∧ ¬b.AllBefore g.n g.k := by
  intro l c a b p
  obtain ⟨dimensions, groups⟩ := fused_dimensions
  have permuted : (Layout.ofPattern (.ofOffsets [3, 4, 2] [7, 23]) (some 4)).permute? [1, 0, 2] =
      some l := by decide
  have built : l.Built := .permute (.ofPattern ..) permuted
  obtain ⟨fuses, found, accepted, one⟩ := dimensions l built [1, 2] (by decide)
  have taken : fuses = true := accepted.mpr (by decide)
  obtain ⟨first, stride, head, strides, dimension⟩ := one taken
  obtain rfl : 1 = first := Option.some.inj head
  obtain rfl : 4 = stride := Option.some.inj strides
  obtain ⟨fuses', found', accepted', -⟩ := dimensions l built [2, 1] (by decide)
  have left : fuses' = false := by
    rw [← Bool.not_eq_true, accepted']
    decide
  obtain ⟨g, made⟩ : ∃ g, ofPartition c a b p = .ok g := ⟨_, rfl⟩
  obtain rfl := (ofPartition_iff.mp made).2.2.2
  have fits : argumentsFit { p with transA := standsBehind a p.m p.k, transB := standsBehind b p.k p.n }
      a b (.full a.shape) (.full b.shape) = .ok true := by decide
  obtain ⟨transA, transB⟩ := groups c a b p _ _ _ made fits
  refine ⟨permuted, taken ▸ found, dimension, left ▸ found', _, made, fits, transA.mp (by decide),
    fun before => ?_⟩
  exact absurd ((transB (by decide)).mpr before) (by decide)

end Gemm

end TensorKernel
