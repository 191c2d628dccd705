import TensorKernel.Proofs.Gemm.Numbering
import TensorKernel.Proofs.Tree.Selection
import TensorKernel.Proofs.Tree.Written

/-!
Which matrix products the natural partitions of a contraction lead to. The groups of both partitions
always fit a contraction. Those of the second one are single indices, which every layout can address,
so that it is always accepted; but the first one fuses more at the same price, and is taken wherever
the layouts allow it.

* `wholeGroups`, `Partition.leadingGroups`: the two partitions;
* `accepted_iff`: when a partition has a cost;
* `Selected.mappedNaturally`: what becomes of a contraction;
* `Written.outcomes`: all contractions of a statement.
-/

namespace TensorKernel

namespace Gemm

/-- The rows are what A has of the result for itself, the columns what B has of it for itself; in
between stand the summed indices of both. -/
def wholeGroups (c a b sum : Indices) : Partition :=
  ⟨(a.inter c).diff b, (b.inter c).diff a, (a.inter sum).inter b⟩

def Partition.leadingGroups (p : Partition) : Partition :=
  ⟨leading p.m, leading p.n, leading p.k⟩

variable {c a b sum : Indices} {p q : Partition}

theorem naturalPartitions_eq : naturalPartitions c a b sum =
    let whole := wholeGroups c a b sum
    if whole.m.isEmpty || whole.k.isEmpty then []
    else if whole.leadingGroups = whole then [whole] else [whole, whole.leadingGroups] :=
  rfl

theorem isEmpty_leading (i : Indices) : (leading i).isEmpty = i.isEmpty := by
  obtain ⟨_ | ⟨d, ds⟩⟩ := i <;> rfl

theorem first?_leading (i : Indices) : (leading i).first? = i.first? := by
  obtain ⟨_ | ⟨d, ds⟩⟩ := i <;> rfl

theorem mem_of_mem_leading {i : Indices} {d : Dim} (h : d ∈ (leading i).dims) : d ∈ i.dims :=
  List.mem_of_mem_take h

/-! ### Groups that fit -/

theorem ofPartition_ok (hc : c.Distinct) (ha : a.Distinct) (hb : b.Distinct)
    (groups : p.Groups c a b) (apart : p.Apart a b) (rows : p.m.isEmpty = false)
    (inner : p.k.isEmpty = false) : ofPartition c a b p =
      .ok { p with transA := standsBehind a p.m p.k, transB := standsBehind b p.k p.n } := by
  have fits : p.fits c a b = true := by
    simp only [Partition.fits, Bool.and_eq_true, Indices.isSubsetOf_iff hc,
      Indices.isSubsetOf_iff ha, Indices.isSubsetOf_iff hb, Bool.not_eq_true', List.any_eq_false,
      Indices.contains_iff]
    exact ⟨⟨⟨⟨⟨⟨⟨⟨fun d hd => (groups.rows d hd).1, fun d hd => (groups.rows d hd).2⟩,
      fun d hd => (groups.summed d hd).1⟩, fun d hd => (groups.summed d hd).2⟩,
      fun d hd => (groups.columns d hd).1⟩, fun d hd => (groups.columns d hd).2⟩, groups.inner⟩,
      apart.rows⟩, apart.columns⟩
  exact ofPartition_iff.mpr ⟨rows, inner, fits, rfl⟩

theorem groups_leadingGroups (h : p.Groups c a b) : p.leadingGroups.Groups c a b := by
  refine ⟨fun d hd => h.rows d (mem_of_mem_leading hd),
    fun d hd => h.columns d (mem_of_mem_leading hd),
    fun d hd => h.summed d (mem_of_mem_leading hd), fun name mem => ?_⟩
  obtain ⟨d, hd, rfl⟩ := Indices.mem_names.mp mem
  exact h.inner d.name (Indices.mem_names_of_mem (mem_of_mem_leading hd))

theorem apart_leadingGroups (h : p.Apart a b) : p.leadingGroups.Apart a b := by
  constructor
  · intro name mem
    obtain ⟨d, hd, rfl⟩ := Indices.mem_names.mp mem
    exact h.rows d.name (Indices.mem_names_of_mem (mem_of_mem_leading hd))
  · intro name mem
    obtain ⟨d, hd, rfl⟩ := Indices.mem_names.mp mem
    exact h.columns d.name (Indices.mem_names_of_mem (mem_of_mem_leading hd))

theorem groups_wholeGroups {left right : Node} (contracts : Contracts sum c left right) :
    (wholeGroups c left.own right.own sum).Groups c left.own right.own := by
  refine ⟨fun d hd => ?_, fun d hd => ?_, fun d hd => ?_, fun name mem kept => ?_⟩
  · obtain ⟨hd, -⟩ := Indices.mem_diff.mp hd
    obtain ⟨own, named⟩ := Indices.mem_filter.mp hd
    exact ⟨own, mem_of_contracts contracts (.inl own) (Indices.contains_iff.mp named)⟩
  · obtain ⟨hd, -⟩ := Indices.mem_diff.mp hd
    obtain ⟨own, named⟩ := Indices.mem_filter.mp hd
    exact ⟨own, mem_of_contracts contracts (.inr own) (Indices.contains_iff.mp named)⟩
  · obtain ⟨hd, shared⟩ := Indices.mem_filter.mp hd
    have own := (Indices.mem_filter.mp hd).1
    obtain ⟨e, he, same⟩ := Indices.mem_names.mp (Indices.contains_iff.mp shared)
    exact ⟨own, contracts.agree d own e he same.symm ▸ he⟩
  · obtain ⟨d, hd, rfl⟩ := Indices.mem_names.mp kept
    refine ((contracts.kept d).mp hd).2 ?_
    exact (Indices.mem_names_inter.mp (Indices.mem_names_inter.mp mem).1).2

theorem apart_wholeGroups : (wholeGroups c a b sum).Apart a b :=
  ⟨fun _ mem => (Indices.mem_names_diff.mp mem).2, fun _ mem => (Indices.mem_names_diff.mp mem).2⟩

theorem isEmpty_iff_names {i : Indices} : i.isEmpty = true ↔ ∀ name, name ∉ i.names := by
  rw [Indices.isEmpty_iff, ← List.eq_nil_iff_forall_not_mem, Indices.names, List.map_eq_nil_iff]

/-- Without rows, what A has of the result is shared with B. -/
theorem isEmpty_rows : (wholeGroups c a b sum).m.isEmpty = true ↔
    ∀ name ∈ c.names, name ∈ a.names → name ∈ b.names := by
  rw [isEmpty_iff_names]
  simp only [wholeGroups, Indices.mem_names_diff, Indices.mem_names_inter]
  grind

/-- Without inner indices, no summed index is shared. -/
theorem isEmpty_inner : (wholeGroups c a b sum).k.isEmpty = true ↔
    ∀ name ∈ sum.names, ¬(name ∈ a.names ∧ name ∈ b.names) := by
  rw [isEmpty_iff_names]
  simp only [wholeGroups, Indices.mem_names_inter]
  grind

/-- The natural partitions of a contraction fit it. -/
theorem ofPartition_natural {left right : Node} (contracts : Contracts sum c left right)
    (hc : c.Distinct) (hl : left.own.Distinct) (hr : right.own.Distinct) :
    ∀ p ∈ naturalPartitions c left.own right.own sum,
      ∃ g, ofPartition c left.own right.own p = .ok g := by
  let whole := wholeGroups c left.own right.own sum
  have groups : whole.Groups c left.own right.own := groups_wholeGroups contracts
  have apart : whole.Apart left.own right.own := apart_wholeGroups
  intro p hp
  rw [naturalPartitions_eq] at hp
  dsimp only at hp
  split at hp
  · cases hp
  · next full =>
    rw [Bool.or_eq_true, not_or, Bool.not_eq_true, Bool.not_eq_true] at full
    obtain rfl | rfl : p = whole ∨ p = whole.leadingGroups := by
      split at hp
      · exact .inl (List.mem_singleton.mp hp)
      · exact List.mem_pair.mp hp
    · exact ⟨_, ofPartition_ok hc hl hr groups apart full.1 full.2⟩
    · exact ⟨_, ofPartition_ok hc hl hr (groups_leadingGroups groups) (apart_leadingGroups apart)
        ((isEmpty_leading _).trans full.1) ((isEmpty_leading _).trans full.2)⟩

/-! ### Costs -/

/-- The price of a partition, without the number of indices that it fuses, depends on the leading
indices alone. -/
theorem cost_leadingGroups {g g' : Gemm} (h : ofPartition c a b p = .ok g)
    (h' : ofPartition c a b p.leadingGroups = .ok g') :
    ¬(g'.cost a b).less (g.cost a b) = true := by
  obtain ⟨-, -, -, rfl⟩ := ofPartition_iff.mp h
  obtain ⟨-, -, -, rfl⟩ := ofPartition_iff.mp h'
  have size (i : Indices) : (leading i).size ≤ i.size := by
    simp [leading, Indices.size]
  have leads (i part : Indices) : Gemm.leads i (leading part) = Gemm.leads i part := by
    rw [Gemm.leads, Gemm.leads, first?_leading]
  have pick (t : Bool) (i j : Indices) :
      (if t then leading i else leading j) = leading (if t then i else j) := by
    cases t <;> rfl
  have behind (i later sooner : Indices) :
      standsBehind i (leading later) (leading sooner) = standsBehind i later sooner := by
    rw [standsBehind, standsBehind, first?_leading, first?_leading]
  rw [Cost.less_iff]
  simp only [Gemm.cost, Partition.leadingGroups, behind, pick, leads]
  have rows := size p.m
  have columns := size p.n
  have inner := size p.k
  omega

/-! ### Layouts -/

/-- Both operands that hold a group can address it as one dimension. -/
structure Partition.Addressable (p : Partition) (c a b : Indices) (lc la lb : Layout) : Prop where
  rows : fuses a la p.m = .ok true ∧ fuses c lc p.m = .ok true
  columns : fuses b lb p.n = .ok true ∧ fuses c lc p.n = .ok true
  summed : fuses a la p.k = .ok true ∧ fuses b lb p.k = .ok true

theorem positions?_leading {i part : Indices} (sub : ∀ name ∈ part.names, name ∈ i.names) :
    ∃ places, i.positions? (leading part) = some places ∧ places.length ≤ 1 := by
  have named : ∀ name ∈ (leading part).names, name ∈ i.names := by
    intro name mem
    obtain ⟨d, hd, rfl⟩ := Indices.mem_names.mp mem
    exact sub d.name (Indices.mem_names_of_mem (mem_of_mem_leading hd))
  obtain ⟨places, found⟩ := Indices.exists_positions? named
  have length := (Indices.positions?_eq_some.mp found).2.1.length_eq
  rw [List.length_map, Indices.length_names] at length
  have short : (leading part).size ≤ 1 := List.length_take_le 1 part.dims
  exact ⟨places, found, by omega⟩

/-- A single index can always be addressed. -/
theorem fuses_leading {i part : Indices} (l : Layout) (sub : ∀ name ∈ part.names, name ∈ i.names) :
    fuses i l (leading part) = .ok true := by
  obtain ⟨places, found, short⟩ := positions?_leading sub
  rw [fuses, found]
  match places, short with
  | [], _ | [_], _ => rfl

/-- Names of dimensions that stand in other indices, too. -/
theorem addressable_leadingGroups (h : p.Groups c a b) (lc la lb : Layout) :
    p.leadingGroups.Addressable c a b lc la lb := by
  have names {i part : Indices} (sub : ∀ d ∈ part.dims, d ∈ i.dims) :
      ∀ name ∈ part.names, name ∈ i.names := by
    intro name mem
    obtain ⟨d, hd, rfl⟩ := Indices.mem_names.mp mem
    exact Indices.mem_names_of_mem (sub d hd)
  exact ⟨⟨fuses_leading la (names fun d hd => (h.rows d hd).1),
      fuses_leading lc (names fun d hd => (h.rows d hd).2)⟩,
    ⟨fuses_leading lb (names fun d hd => (h.columns d hd).1),
      fuses_leading lc (names fun d hd => (h.columns d hd).2)⟩,
    ⟨fuses_leading la (names fun d hd => (h.summed d hd).1),
      fuses_leading lb (names fun d hd => (h.summed d hd).2)⟩⟩

end Gemm

namespace Node

/-! ### One contraction -/

structure StoredContraction (sum c : Indices) (a b : Node) (lc la lb : Layout) (x : Node) : Prop
    extends IsContraction sum c a b x where
  result : x.storage? = some lc
  storedLeft : a.storage? = some la
  storedRight : b.storage? = some lb

variable {sum c : Indices} {a b x y : Node} {lc la lb : Layout} {p : Gemm.Partition}

/-- A partition is accepted if its groups fit and all layouts can address them. -/
theorem accepted_iff (h : StoredContraction sum c a b lc la lb x) {cost : Gemm.Cost} :
    x.gemmCost? p = .ok (some cost) ↔ ∃ g, Gemm.ofPartition c a.own b.own p = .ok g ∧
      p.Addressable c a.own b.own lc la lb ∧ g.cost a.own b.own = cost := by
  simp only [gemmCost?, h.children, h.indices, h.left, h.right, h.result, h.storedLeft,
    h.storedRight]
  cases made : Gemm.ofPartition c a.own b.own p with
  | error => simp [pure_eq_ok]
  | ok g =>
    obtain ⟨rfl, -⟩ := Gemm.fits_of_ofPartition made
    have addressable : g.Addressable c a.own b.own lc la lb ↔
        g.argumentsFit a.own b.own la lb = .ok true ∧ g.resultFits c lc = .ok true := by
      rw [Gemm.argumentsFit_eq_ok, Gemm.resultFits]
      simp only [Gemm.fusesAll_eq_ok, List.forall_mem_cons, List.not_mem_nil, false_implies,
        implies_true, and_true]
      constructor
      · rintro ⟨⟨ma, mc⟩, ⟨nb, nc⟩, ka, kb⟩
        exact ⟨⟨⟨ma, ka⟩, kb, nb⟩, mc, nc⟩
      · rintro ⟨⟨⟨ma, ka⟩, kb, nb⟩, mc, nc⟩
        exact ⟨⟨ma, mc⟩, ⟨nb, nc⟩, ka, kb⟩
    rw [bind_eq_ok]
    simp only [Except.ok.injEq, exists_eq_left', addressable]
    constructor
    · rintro ⟨_ | _, first, rest⟩
      · cases rest
      · obtain ⟨_ | _, second, rest⟩ := bind_eq_ok.mp rest
        · cases rest
        · cases rest
          exact ⟨⟨first, second⟩, rfl⟩
    · rintro ⟨⟨first, second⟩, rfl⟩
      exact ⟨true, first, bind_eq_ok.mpr ⟨true, second, rfl⟩⟩

/-- What becomes of a contraction by its natural partitions. -/
structure MappedNaturally (sum c a b : Indices) (lc la lb : Layout) (x y : Node) : Prop where
  stays : y.kind = x.kind ↔
    (∀ name ∈ c.names, name ∈ a.names → name ∈ b.names) ∨
      ∀ name ∈ sum.names, ¬(name ∈ a.names ∧ name ∈ b.names)
  whole : y.kind ≠ x.kind → (Gemm.wholeGroups c a b sum).Addressable c a b lc la lb →
    ∃ g, y.kind = .gemm g ∧ g.toPartition = Gemm.wholeGroups c a b sum
  leading : y.kind ≠ x.kind → ¬(Gemm.wholeGroups c a b sum).Addressable c a b lc la lb →
    ∃ g, y.kind = .gemm g ∧ g.toPartition = (Gemm.wholeGroups c a b sum).leadingGroups
  fits : ∀ p ∈ Gemm.naturalPartitions c a b sum, ∃ g, Gemm.ofPartition c a b p = .ok g
  accepted : y.kind ≠ x.kind →
    ∃ cost, x.gemmCost? (Gemm.wholeGroups c a b sum).leadingGroups = .ok (some cost)

/-- The whole groups are taken if they can be, and else the leading ones. -/
theorem firstCheapest_natural (h : StoredContraction sum c a b lc la lb x)
    (contracts : Contracts sum c a b) (hc : c.Distinct) (ha : a.own.Distinct) (hb : b.own.Distinct)
    (rows : (Gemm.wholeGroups c a.own b.own sum).m.isEmpty = false)
    (inner : (Gemm.wholeGroups c a.own b.own sum).k.isEmpty = false) :
    let whole := Gemm.wholeGroups c a.own b.own sum
    (∃ cost, x.gemmCost? whole.leadingGroups = .ok (some cost)) ∧
      (whole.Addressable c a.own b.own lc la lb →
        ∃ cost, x.FirstCheapest (x.candidates Gemm.naturalPartitions) whole cost) ∧
      (¬whole.Addressable c a.own b.own lc la lb →
        ∃ cost, x.FirstCheapest (x.candidates Gemm.naturalPartitions) whole.leadingGroups cost) := by
  intro whole
  have groups : whole.Groups c a.own b.own := Gemm.groups_wholeGroups contracts
  have apart : whole.Apart a.own b.own := Gemm.apart_wholeGroups
  have made := Gemm.ofPartition_ok hc ha hb groups apart rows inner
  have made' := Gemm.ofPartition_ok hc ha hb (Gemm.groups_leadingGroups groups)
    (Gemm.apart_leadingGroups apart) ((Gemm.isEmpty_leading _).trans rows)
    ((Gemm.isEmpty_leading _).trans inner)
  have always := (accepted_iff h).mpr
    ⟨_, made', Gemm.addressable_leadingGroups groups lc la lb, rfl⟩
  have offered : x.candidates Gemm.naturalPartitions =
      if whole.leadingGroups = whole then [whole] else [whole, whole.leadingGroups] := by
    rw [h.candidates_eq, Gemm.naturalPartitions_eq]
    simp [whole, rows, inner]
  rw [offered]
  refine ⟨⟨_, always⟩, fun addressable => ?_, fun refused => ?_⟩
  · have accepted := (accepted_iff h).mpr ⟨_, made, addressable, rfl⟩
    split
    · exact ⟨_, .head accepted (by simp)⟩
    · refine ⟨_, .head accepted fun p hp other same => ?_⟩
      obtain rfl := List.mem_singleton.mp hp
      cases always.symm.trans same
      exact Gemm.cost_leadingGroups made made'
  · have rejected (other : Gemm.Cost) (same : x.gemmCost? whole = .ok (some other)) : False := by
      obtain ⟨_, -, addressable, -⟩ := (accepted_iff h).mp same
      exact refused addressable
    split
    · next same =>
      rw [same] at always
      exact (rejected _ always).elim
    · exact ⟨_, .cons (.head always (by simp)) fun other same => (rejected other same).elim⟩

theorem Selected.mappedNaturally (selected : Selected Gemm.naturalPartitions x y)
    (h : StoredContraction sum c a b lc la lb x) (contracts : Contracts sum c a b)
    (hc : c.Distinct) (ha : a.own.Distinct) (hb : b.own.Distinct) :
    MappedNaturally sum c a.own b.own lc la lb x y := by
  let whole := Gemm.wholeGroups c a.own b.own sum
  have fits := Gemm.ofPartition_natural contracts hc ha hb
  have noRows : whole.m.isEmpty = true ↔ _ := Gemm.isEmpty_rows
  have noInner : whole.k.isEmpty = true ↔ _ := Gemm.isEmpty_inner
  by_cases none : whole.m.isEmpty = true ∨ whole.k.isEmpty = true
  · have offered : Gemm.naturalPartitions c a.own b.own sum = [] := by
      rw [Gemm.naturalPartitions_eq]
      simp only [whole] at none
      simp [none]
    have kept : y.kind = x.kind := by
      refine selected.kept ?_
      rw [h.candidates_eq, offered]
      simp
    exact ⟨⟨fun _ => none.imp noRows.mp noInner.mp, fun _ => kept⟩, fun other => absurd kept other,
      fun other => absurd kept other, fits, fun other => absurd kept other⟩
  · obtain ⟨rows, inner⟩ := not_or.mp none
    obtain ⟨accepted, first, second⟩ := firstCheapest_natural h contracts hc ha hb
      (Bool.eq_false_of_not_eq_true rows) (Bool.eq_false_of_not_eq_true inner)
    obtain ⟨g, cost, kind, found⟩ := selected.chosen (by
      by_cases addressable : whole.Addressable c a.own b.own lc la lb
      · obtain ⟨cost, cheapest⟩ := first addressable
        exact ⟨_, cheapest.mem, cost, cheapest.accepted⟩
      · obtain ⟨cost, cheapest⟩ := second addressable
        exact ⟨_, cheapest.mem, cost, cheapest.accepted⟩)
    have changed : y.kind ≠ x.kind := by simp [kind, h.kind]
    refine ⟨⟨fun kept => absurd kept changed, fun few => ?_⟩, fun _ addressable => ?_,
      fun _ refused => ?_, fits, fun _ => accepted⟩
    · exact absurd (few.imp noRows.mpr noInner.mpr) none
    · obtain ⟨_, cheapest⟩ := first addressable
      exact ⟨g, kind, found.unique cheapest⟩
    · obtain ⟨_, cheapest⟩ := second refused
      exact ⟨g, kind, found.unique cheapest⟩

/-! ### Statements -/

theorem mem_postorder_of_at? {n x : Node} {path : List Nat} (h : n.at? path = some x) :
    x ∈ n.postorder := by
  induction path generalizing n with
  | nil => exact mem_postorder.mpr (.inl (Option.some.inj h).symm)
  | cons place path ih =>
    obtain ⟨c, found, h⟩ := Option.bind_eq_some_iff.mp h
    exact mem_postorder.mpr (.inr ⟨c, List.mem_of_getElem? found, ih h⟩)

/-- Layouts do not depend on whether matrix products are selected behind them. -/
theorem prepare_unmapped {config : Config} {n m : Node} (maps : config.mapGemm = true)
    (h : n.prepare config = .ok m) : ∃ r p u count, n.resolve = .ok r ∧
      r.propagateSparsity = .ok p ∧ p.computeLayouts config = .ok u ∧
      n.prepare { config with mapGemm := false } = .ok u ∧
      u.mapContractions Gemm.naturalPartitions = .ok (m, count) := by
  obtain ⟨kind, r, p, u, resolved, propagated, laid, mapped⟩ := prepare_eq_ok.mp h
  rw [if_pos maps] at mapped
  obtain ⟨count, mapped⟩ := mapped
  refine ⟨r, p, u, count, resolved, propagated, laid, ?_, mapped⟩
  exact prepare_eq_ok.mpr ⟨kind, r, p, u, resolved, propagated, laid, rfl⟩

/-- Every contraction of a statement is mapped as its natural partitions allow. -/
theorem Written.outcomes {config : Config} {n m : Node} (written : n.Written)
    (maps : config.mapGemm = true) (h : n.prepare config = .ok m) :
    ∃ u, n.prepare { config with mapGemm := false } = .ok u ∧
      ∀ path x sum, u.at? path = some x → x.kind = .contraction sum →
        ∃ y c a b lc la lb, m.at? path = some y ∧ StoredContraction sum c a b lc la lb x ∧
          MappedNaturally sum c a.own b.own lc la lb x y := by
  obtain ⟨r, p, u, count, resolved, propagated, laid, unmapped, mapped⟩ := prepare_unmapped maps h
  refine ⟨u, unmapped, fun path x sum found kind => ?_⟩
  have sound := written.sound
  obtain ⟨formed, -⟩ := sound.composed.resolveTo none r (by simp) resolved
  have tensors : r.Everywhere fun x => ∀ t, x.kind = .leaf t → t.Constructed :=
    (resolveTo_everywhere stable_fresh sound.fresh resolved).mono fun x h => h.made
  obtain ⟨formed, -, placed⟩ := placed_of_computeLayouts formed tensors propagated laid
  have member := mem_postorder_of_at? found
  have whole := formed.everywhere x member
  have fits := whole.fits
  rw [kind] at fits
  obtain ⟨c, a, b, indices, children, left, right, contracts⟩ := fits
  have stored (y : Node) (hy : y ∈ u.postorder) : ∃ l, y.storage? = some l := by
    obtain ⟨l, place⟩ := placed y hy
    exact ⟨l, place.1⟩
  obtain ⟨lc, result⟩ := stored x member
  obtain ⟨la, storedLeft⟩ := stored a (mem_postorder_of_child member (by simp [children]))
  obtain ⟨lb, storedRight⟩ := stored b (mem_postorder_of_child member (by simp [children]))
  obtain ⟨y, found', selected⟩ : ∃ y, m.at? path = some y ∧ Selected Gemm.naturalPartitions x y := by
    have related := selected_at mapped path
    rw [found] at related
    generalize m.at? path = y at related
    cases related with
    | some selected => exact ⟨_, rfl, selected⟩
  have operands : StoredContraction sum c a b lc la lb x :=
    ⟨⟨kind, children, indices, left, right⟩, result, storedLeft, storedRight⟩
  exact ⟨y, c, a, b, lc, la, lb, found', operands,
    selected.mappedNaturally operands contracts (whole.indices indices)
      (whole.children a (by simp [children])).own (whole.children b (by simp [children])).own⟩

/-- The statement `C_ijn = A_ikj B_kn`: between the rows `i` and `j` of `A` stands a summed index. -/
def unfusedProduct : Result Node := do
  let c ← indexed (← Tensor.ofName "C" [2, 2, 2]) ['i', 'j', 'n']
  let a ← indexed (← Tensor.ofName "A" [2, 3, 2]) ['i', 'k', 'j']
  let b ← indexed (← Tensor.ofName "B" [3, 2]) ['k', 'n']
  c.assign (.node (← a.times (.node b)))

theorem written_unfusedProduct {n : Node} (h : unfusedProduct = .ok n) : n.Written := by
  simp only [unfusedProduct, bind_eq_ok] at h
  obtain ⟨_, madeC, c, hc, _, madeA, a, ha, _, madeB, b, hb, ab, product, done⟩ := h
  have right : b.Written := .indexed (.ofName madeB) hb
  have value : ab.Written := .times (.indexed (.ofName madeA) ha) right.operand product
  exact .assign (.indexed (.ofName madeC) hc) value.operand done

theorem outcomes_unfusedProduct : ∃ n m u x y, unfusedProduct = .ok n ∧ n.Written ∧
    Config.standard.mapGemm = true ∧ n.prepare .standard = .ok m ∧
    n.prepare { Config.standard with mapGemm := false } = .ok u ∧
    u.at? [1] = some x ∧ x.kind = .contraction ⟨[⟨'k', 3⟩]⟩ ∧ m.at? [1] = some y ∧
    (∃ c a b lc la lb, StoredContraction ⟨[⟨'k', 3⟩]⟩ c a b lc la lb x ∧
      MappedNaturally ⟨[⟨'k', 3⟩]⟩ c a.own b.own lc la lb x y) ∧
    ∃ g, y.kind = .gemm g ∧ g.toPartition = ⟨⟨[⟨'i', 2⟩]⟩, ⟨[⟨'n', 2⟩]⟩, ⟨[⟨'k', 3⟩]⟩⟩ := by
  obtain ⟨n, m, u, x, y, built, prepared, unmapped, found, kind, found', mapped⟩ :
      ∃ n m u x y, unfusedProduct = .ok n ∧ n.prepare .standard = .ok m ∧
        n.prepare { Config.standard with mapGemm := false } = .ok u ∧ u.at? [1] = some x ∧
        x.kind = .contraction ⟨[⟨'k', 3⟩]⟩ ∧ m.at? [1] = some y ∧ ∃ g, y.kind = .gemm g ∧
        g.toPartition = ⟨⟨[⟨'i', 2⟩]⟩, ⟨[⟨'n', 2⟩]⟩, ⟨[⟨'k', 3⟩]⟩⟩ :=
    ⟨_, _, _, _, _, rfl, rfl, rfl, rfl, rfl, rfl, _, rfl, rfl⟩
  have written := written_unfusedProduct built
  obtain ⟨u', unmapped', outcome⟩ := written.outcomes rfl prepared
  obtain rfl := Except.ok.inj (unmapped.symm.trans unmapped')
  obtain ⟨y', c, a, b, lc, la, lb, same, operands, outcome⟩ := outcome [1] x _ found kind
  obtain rfl := Option.some.inj (found'.symm.trans same)
  exact ⟨n, m, u, x, y, built, written, rfl, prepared, unmapped, found, kind, found',
    ⟨c, a, b, lc, la, lb, operands, outcome⟩, mapped⟩

end Node

end TensorKernel
