import TensorKernel.Proofs.Tree.WellFormed
import TensorKernel.Tree.Binary

/-!
A new storage order does not change what a tree computes: `reorder_spec` for the order alone,
`bring_spec` for an order with extents that have to agree.
-/

namespace TensorKernel

namespace Indices

theorem restrict_congr {i j : Indices} (same : ∀ name, name ∈ i.names ↔ name ∈ j.names) :
    i.restrict = j.restrict := by
  funext p name
  by_cases h : name ∈ i.names
  · rw [restrict_of_mem h, restrict_of_mem ((same name).mp h)]
  · have h' : name ∉ j.names := fun hj => h ((same name).mpr hj)
    simp [restrict, h, h']

theorem mem_names_congr {i j : Indices} (same : ∀ d, d ∈ i.dims ↔ d ∈ j.dims) (name : Char) :
    name ∈ i.names ↔ name ∈ j.names := by
  simp only [mem_names, same]

theorem sameNames_refl (i : Indices) : i.sameNames i = true := by
  simp [sameNames]

theorem checkAgrees_refl (i : Indices) : i.checkAgrees i = .ok () := by
  have agree : i.agrees i = true := by simp [agrees]
  rw [checkAgrees, if_pos agree]

/-- Index sets of the same names are permutations of one another. -/
theorem permutationTo?_of_sameNames {i order : Indices} (h : i.Distinct) (ho : order.Distinct)
    (same : i.sameNames order = true) : ∃ perm, i.permutationTo? order = some perm := by
  simp only [permutationTo?, if_pos same, mapM_eq_some]
  exact forall₂_of_exists fun name hn => ⟨_, find?_of_mem (((sameNames_iff h ho).mp same name).mpr hn)⟩

/-- Index sets are brought to the orders that they are permutations of. -/
theorem permute?_of_permutationTo? {i order : Indices} {perm : List Nat}
    (h : i.permutationTo? order = some perm) : ∃ k, i.permute? order = some k := by
  rw [permutationTo?] at h
  split at h
  · next same =>
    rw [permute?, if_pos same, ← Option.isSome_iff_exists, extract?_isSome]
    intro name hn
    obtain ⟨position, -, found⟩ := exists_of_forall₂_right (mapM_eq_some.mp h).flip hn
    exact List.isSome_idxOf?.mp (Option.isSome_of_eq_some found)
  · cases h

end Indices

namespace Node

theorem reorderAll_eq_ok {order : Indices} {keep : Bool} {children done : List Node} :
    reorderAll order keep children = .ok done ↔
      List.Forall₂ (fun c d => c.reorder order keep = .ok d) children done := by
  induction children generalizing done with
  | nil => rw [reorderAll, pure_eq_ok, List.forall₂_nil_left_iff, eq_comm]
  | cons c cs ih =>
    simp only [reorderAll, bind_eq_ok, pure_eq_ok, ih, List.forall₂_cons_left_iff]
    grind

def ReorderedChildren (order : Indices) (keep : Bool) : Kind → List Node → List Node → Prop
  | .scale _, children, done | .add, children, done =>
    List.Forall₂ (fun c d => c.reorder order keep = .ok d) children done
  | .leaf _, _, _ | .assign, _, _ => False
  | .einsum, children, done | .indexSum _, children, done | .product, children, done
  | .contraction _, children, done | .gemm _, children, done => done = children

/-- Leaves and assignments take no new order. -/
theorem ReorderedChildren.not_stored {order : Indices} {keep : Bool} {kind : Kind}
    {children done : List Node} (h : ReorderedChildren order keep kind children done) :
    kind.isLeaf = false ∧ kind ≠ .assign := by
  cases kind with
  | leaf | assign => exact h.elim
  | einsum | add | scale | indexSum | product | contraction | gemm => exact ⟨rfl, by simp⟩

theorem reorderPattern_none {keep : Bool} {perm : List Nat} {before after : Option Pattern}
    (h : reorderPattern keep perm before = .ok after) (absent : before = none) : after = none := by
  subst absent
  exact (pure_eq_ok.mp h).symm

theorem reorderLayout_none {perm : List Nat} {before after : Option Layout}
    (h : reorderLayout perm before = .ok after) (absent : before = none) : after = none := by
  subst absent
  exact (pure_eq_ok.mp h).symm

/-- A node in a new order, with the positions that its dimensions had in the old one. -/
structure Moved (current order : Indices) (perm : List Nat) (keep : Bool) (n m : Node) : Prop where
  kind : m.kind = n.kind
  indices : m.indices = current.permute? order
  pattern : reorderPattern keep perm n.pattern = .ok m.pattern
  layout : reorderLayout perm n.layout = .ok m.layout
  prefetch : m.prefetch = n.prefetch
  children : ReorderedChildren order keep n.kind n.children m.children

/-- A node that has the order already is left alone; any other one is moved. -/
theorem reorder_eq_ok {n m : Node} {order : Indices} {keep : Bool} :
    n.reorder order keep = .ok m ↔ ∃ current, n.indices = some current ∧
      (current = order ∧ m = n ∨
        current ≠ order ∧ ∃ perm, current.permutationTo? order = some perm ∧
          Moved current order perm keep n m) := by
  obtain ⟨kind, indices, pattern, layout, prefetch, children⟩ := n
  cases indices with
  | none => simp [reorder]
  | some current =>
    rw [reorder]
    constructor
    · intro h
      refine ⟨current, rfl, ?_⟩
      split at h
      · next same => exact .inl ⟨same, (pure_eq_ok.mp h).symm⟩
      · next other =>
        split at h
        · exact absurd h refuse_ne_ok
        · next perm found =>
          refine .inr ⟨other, perm, found, ?_⟩
          cases kind with
          | leaf | assign =>
            obtain ⟨_, refused, -⟩ := bind_eq_ok.mp h
            exact absurd refused refuse_ne_ok
          | scale | add =>
            simp only [bind_eq_ok, pure_eq_ok] at h
            obtain ⟨done, all, _, moved, _, moved', rfl⟩ := h
            exact ⟨rfl, rfl, moved, moved', rfl, reorderAll_eq_ok.mp all⟩
          | einsum | indexSum | product | contraction | gemm =>
            simp only [bind_eq_ok, pure_eq_ok] at h
            obtain ⟨done, rfl, _, moved, _, moved', rfl⟩ := h
            exact ⟨rfl, rfl, moved, moved', rfl, rfl⟩
    · rintro ⟨_, ⟨⟩, ⟨rfl, rfl⟩ | ⟨other, perm, found, moved⟩⟩
      · rw [if_pos rfl]
        rfl
      rw [if_neg other, found]
      obtain ⟨_, _, pattern', layout', _, done⟩ := m
      obtain ⟨⟨⟩, ⟨⟩, moved, moved', ⟨⟩, children'⟩ := moved
      cases kind with
      | leaf | assign => exact children'.elim
      | scale | add =>
        simp only [bind_eq_ok, pure_eq_ok]
        exact ⟨done, reorderAll_eq_ok.mpr children', pattern', moved, layout', moved', rfl⟩
      | einsum | indexSum | product | contraction | gemm =>
        obtain rfl : done = children := children'
        simp only [bind_eq_ok, pure_eq_ok]
        exact ⟨done, rfl, pattern', moved, layout', moved', rfl⟩

/-- A node that has the order already is left alone; any other one takes the order and hands it
down as its kind demands. -/
theorem reorder_cases {n m : Node} {order : Indices} {keep : Bool}
    (h : n.reorder order keep = .ok m) :
    ∃ current, n.indices = some current ∧
      (current = order ∧ m = n ∨
        current ≠ order ∧ (∃ k, current.permute? order = some k ∧ m.indices = some k) ∧
          m.kind = n.kind ∧ (n.pattern = none → m.pattern = none) ∧
          (n.layout = none → m.layout = none) ∧ m.prefetch = n.prefetch ∧
          ReorderedChildren order keep n.kind n.children m.children) := by
  obtain ⟨current, known, same | ⟨other, perm, found, moved⟩⟩ := reorder_eq_ok.mp h
  · exact ⟨current, known, .inl same⟩
  · obtain ⟨k, permuted⟩ := Indices.permute?_of_permutationTo? found
    exact ⟨current, known, .inr ⟨other, ⟨k, permuted, moved.indices.trans permuted⟩, moved.kind,
      reorderPattern_none moved.pattern, reorderLayout_none moved.layout, moved.prefetch,
      moved.children⟩⟩

theorem reorder_own {n : Node} {i : Indices} {keep : Bool} (known : n.indices = some i) :
    n.reorder i keep = .ok n := by
  obtain ⟨kind, indices, pattern, layout, prefetch, children⟩ := n
  obtain rfl : indices = some i := known
  rw [reorder, if_pos rfl]
  rfl

/-- Nodes of the same indices have the same indices after a reordering. -/
theorem reorder_indices_congr {n n' m m' : Node} {order : Indices} {keep : Bool}
    (same : n.indices = n'.indices) (h : n.reorder order keep = .ok m)
    (h' : n'.reorder order keep = .ok m') : m.indices = m'.indices := by
  obtain ⟨i, known, ⟨rfl, rfl⟩ | ⟨other, ⟨k, hk, indices⟩, -⟩⟩ := reorder_cases h <;>
    obtain ⟨i', known', ⟨rfl, rfl⟩ | ⟨other', ⟨k', hk', indices'⟩, -⟩⟩ := reorder_cases h'
  · exact same
  · rw [known, known', Option.some.injEq] at same
    exact absurd same.symm other'
  · rw [known, known', Option.some.injEq] at same
    exact absurd same other
  · rw [known, known', Option.some.injEq] at same
    rw [indices, indices', ← hk, ← hk', same]

/-- What has been brought to a new order knows its indices. -/
theorem known_of_reorder {n m : Node} {order : Indices} {keep : Bool}
    (h : n.reorder order keep = .ok m) : m.indices ≠ none := by
  obtain ⟨i, known, ⟨-, rfl⟩ | ⟨-, ⟨k, -, indices⟩, -⟩⟩ := reorder_cases h
  · simp [known]
  · simp [indices]

/-! ### Fixed orders -/

/-- Tensors are stored already, and so are the values of assignments. -/
theorem hasFixedOrder_stored {n : Node} (kind : n.kind.isLeaf = true ∨ n.kind = .assign) :
    n.hasFixedOrder = true := by
  obtain ⟨kind', _, _, _, _, _⟩ := n
  cases kind' with
  | leaf | assign => simp only [hasFixedOrder]
  | einsum | add | scale | indexSum | product | contraction | gemm => simp [Kind.isLeaf] at kind

/-- A scaled node has a fixed order if its term has. -/
theorem hasFixedOrder_scale {n term : Node} (scale : n.kind.isScale = true)
    (children : n.children = [term]) : n.hasFixedOrder = term.hasFixedOrder := by
  obtain ⟨kind, _, _, _, _, _⟩ := n
  obtain rfl := children
  cases kind with
  | scale => simp only [hasFixedOrder, firstHasFixedOrder]
  | leaf | einsum | add | indexSum | product | contraction | gemm | assign => cases scale

/-- A sum has a fixed order if one of its operands has. -/
theorem hasFixedOrder_add {n : Node} (h : n.kind = .add) :
    n.hasFixedOrder = n.children.any hasFixedOrder := by
  obtain ⟨kind, _, _, _, _, children⟩ := n
  obtain rfl := h
  have any (children : List Node) : anyHasFixedOrder children = children.any hasFixedOrder := by
    induction children with
    | nil => rfl
    | cons c cs ih => rw [anyHasFixedOrder, ih, List.any_cons]
  simp only [hasFixedOrder, any]

end Node

/-- A node that computes its value in any order demands the same of its children in each. -/
theorem Kind.Fits.reindex {kind : Kind} {i k : Indices} {children : List Node}
    (h : kind.Fits (some i) children) (notLeaf : kind.isLeaf = false) (notAdd : kind ≠ .add)
    (notScale : kind.isScale = false) (notAssign : kind ≠ .assign)
    (dims : ∀ d, d ∈ k.dims ↔ d ∈ i.dims) : kind.Fits (some k) children := by
  have names (name : Char) (absent : name ∉ i.names) : name ∉ k.names := by
    rwa [Indices.mem_names_congr dims]
  cases kind with
  | leaf => cases notLeaf
  | add => exact absurd rfl notAdd
  | scale => cases notScale
  | assign => exact absurd rfl notAssign
  | einsum => exact h
  | indexSum =>
    obtain ⟨_, term, ⟨⟩, operand, ht, sums⟩ := h
    exact ⟨k, term, rfl, operand, ht, sums.single, fun d => (dims d).trans (sums.kept d)⟩
  | gemm =>
    obtain ⟨_, left, right, ⟨⟩, operands, hl, hr, groups⟩ := h
    exact ⟨k, left, right, rfl, operands, hl, hr,
      fun d hd => (groups.rows d hd).imp_right (dims d).mpr,
      fun d hd => (groups.columns d hd).imp_right (dims d).mpr, groups.summed,
      fun name hn => names name (groups.inner name hn)⟩
  | product | contraction =>
    obtain ⟨_, left, right, ⟨⟩, operands, hl, hr, contracts⟩ := h
    exact ⟨k, left, right, rfl, operands, hl, hr, contracts.distinct, contracts.agree,
      fun d => (dims d).trans (contracts.kept d), contracts.summed⟩

theorem Gemm.loopIndices_distinct (g : Gemm) {c a b : Indices} (hc : c.Distinct) (ha : a.Distinct)
    (hb : b.Distinct) : (g.loopIndices c a b).Distinct :=
  ((hc.diff _).merge ((ha.diff _).diff _)).merge (((hb.diff _).diff _).diff _)

section
variable {R : Type} [CommSemiring R] (scalars : Factor → R) (σ : Store (Entry → R))

/-- Loops that a matrix product sums over do not depend on the order of the result. -/
theorem Gemm.outerLoops_congr (g : Gemm) {c c' a b : Indices} (ha : a.Distinct) (hb : b.Distinct)
    (hc : c.Distinct) (hc' : c'.Distinct) (same : ∀ d, d ∈ c.dims ↔ d ∈ c'.dims)
    (f : Point → R) :
    sumOver ((g.loopIndices c a b).diff c).dims f =
      sumOver ((g.loopIndices c' a b).diff c').dims f := by
  have names := Indices.mem_names_congr same
  refine sumOver_eq_of_mem ((g.loopIndices_distinct hc ha hb).diff c)
    ((g.loopIndices_distinct hc' ha hb).diff c') (fun d => ?_) f
  simp only [Gemm.loopIndices, Indices.mem_diff, Indices.mem_names_diff, Indices.mem_names_merge,
    Indices.mem_merge (((hb.diff _).diff _).diff _), Indices.mem_merge ((ha.diff _).diff _), same,
    names]

/-- All kinds but matrix products see nothing of their operands but the values. -/
theorem Kind.combine_congr {kind : Kind} (h : ∀ mapping, kind ≠ .gemm mapping) {i j : Indices}
    {xs ys : List (Indices × (Point → R))} (same : xs.map Prod.snd = ys.map Prod.snd) :
    kind.combine scalars i xs = kind.combine scalars j ys := by
  have length := congrArg List.length same
  rw [List.length_map, List.length_map] at length
  match xs, ys with
  | [], [] => cases kind <;> rfl
  | [x], [y] =>
    have : x.2 = y.2 := by simpa using same
    cases kind <;> simp [Kind.combine, this]
  | [x, x'], [y, y'] =>
    have : x.2 = y.2 ∧ x'.2 = y'.2 := by simpa using same
    cases kind <;> first | exact absurd rfl (h _) | simp [Kind.combine, this]
  | x :: x' :: x'' :: xs, y :: y' :: y'' :: ys =>
    cases kind <;> simp_all [Kind.combine]
  | [], _ :: _ | _ :: _, [] | [_], _ :: _ :: _ | _ :: _ :: _, [_] | [_, _], _ :: _ :: _ :: _
  | _ :: _ :: _ :: _, [_, _] => simp at length

namespace Node

/-- What a node looks like after its value was brought to a new storage order. -/
structure Reordered (order : Indices) (n m : Node) : Prop where
  wellFormed : m.WellFormed
  kind : m.kind = n.kind
  indices : ∃ k, m.indices = some k ∧ k.names = order.names
  dims : ∀ d, d ∈ m.own.dims ↔ d ∈ n.own.dims
  value : ∀ p, m.valueAt scalars σ p = n.valueAt scalars σ p

/-- A node in a new order whose children kept their values. -/
theorem Reordered.of_children {n m : Node} {order k : Indices} (hn : n.WellFormed)
    (hk : k.Distinct) (notLeaf : n.kind.isLeaf = false) (kind : m.kind = n.kind)
    (indices : m.indices = some k) (names : k.names = order.names)
    (dims : ∀ d, d ∈ k.dims ↔ d ∈ n.own.dims) (formed : ∀ c ∈ m.children, c.WellFormed)
    (values : m.children.map (valueAt scalars σ) = n.children.map (valueAt scalars σ))
    (gemm : ∀ mapping, n.kind = .gemm mapping → m.children = n.children)
    (fits : m.kind.Fits m.indices m.children) : Reordered scalars σ order n m := by
  have own := own_of_indices indices
  refine ⟨.of_known indices hk fits formed, kind, ⟨k, indices, names⟩, by rwa [own],
    fun p => ?_⟩
  rw [valueAt_eq scalars σ (kind ▸ notLeaf), valueAt_eq scalars σ notLeaf, kind, own,
    Indices.restrict_congr (Indices.mem_names_congr dims)]
  refine congrFun ?_ _
  by_cases matrix : ∃ mapping, n.kind = .gemm mapping
  · obtain ⟨mapping, hm⟩ := matrix
    rw [gemm mapping hm, hm]
    have children := hn.children
    rcases operands : n.children with _ | ⟨a, _ | ⟨b, _ | _⟩⟩
    case cons.cons.nil =>
      rw [operands] at children
      have ha := (children a (by simp)).own
      have hb := (children b (by simp)).own
      exact mapping.outerLoops_congr ha hb hk hn.own dims _
    all_goals rfl
  · refine Kind.combine_congr scalars (fun mapping hm => matrix ⟨mapping, hm⟩) ?_
    rw [List.map_map, List.map_map]
    exact values

/-- A node in a new order whose children are in that order too. -/
theorem Reordered.of_each {n m : Node} {order k : Indices} (hn : n.WellFormed) (hk : k.Distinct)
    (notLeaf : n.kind.isLeaf = false) (notGemm : ∀ mapping, n.kind ≠ .gemm mapping)
    (kind : m.kind = n.kind) (indices : m.indices = some k) (names : k.names = order.names)
    (dims : ∀ d, d ∈ k.dims ↔ d ∈ n.own.dims)
    (each : List.Forall₂ (Reordered scalars σ order) n.children m.children)
    (fits : m.kind.Fits m.indices m.children) : Reordered scalars σ order n m := by
  refine .of_children scalars σ hn hk notLeaf kind indices names dims (fun d hd => ?_) ?_
    (fun mapping same => absurd same (notGemm mapping)) fits
  · obtain ⟨c, -, spec⟩ := exists_of_forall₂_right each hd
    exact spec.wellFormed
  · exact map_eq_of_forall₂ (each.imp fun _ _ spec => funext spec.value)

theorem reorder_spec {n m : Node} {order : Indices} {keep : Bool} (hn : n.WellFormed)
    (ho : order.Distinct) (h : n.reorder order keep = .ok m) : Reordered scalars σ order n m := by
  induction n using Node.induction generalizing m with
  | node kind indices pattern layout prefetch children ih =>
  obtain ⟨current, known, ⟨rfl, rfl⟩ | ⟨-, ⟨k, hk, hindices⟩, hkind, -, -, -, hchildren⟩⟩ :=
    reorder_cases h
  · exact ⟨hn, rfl, ⟨current, known, rfl⟩, fun _ => .rfl, fun _ => rfl⟩
  have hc := hn.indices known
  obtain ⟨names, distinct, dims⟩ := Indices.permute?_eq_some hc ho hk
  rw [← own_of_indices known] at dims
  have spec {done : List Node} (h : List.Forall₂ (fun c d => c.reorder order keep = .ok d)
      children done) : List.Forall₂ (Reordered scalars σ order) children done :=
    forall₂_imp_of_mem h fun c hc d done => ih c hc (hn.children c hc) done
  cases kind with
  | leaf | assign => exact hchildren.elim
  | scale =>
    apply Reordered.of_each scalars σ hn distinct rfl (by simp) hkind hindices names dims
      (spec hchildren)
    rw [hkind]
    obtain ⟨term, rfl, aligned⟩ := hn.fits
    obtain ⟨d, ds, done, rest, hm⟩ := List.forall₂_cons_left_iff.mp hchildren
    obtain rfl := List.forall₂_nil_left_iff.mp rest
    exact ⟨d, hm, reorder_indices_congr aligned done h⟩
  | add =>
    apply Reordered.of_each scalars σ hn distinct rfl (by simp) hkind hindices names dims
      (spec hchildren)
    rw [hkind]
    intro d hd
    obtain ⟨c, hc, done⟩ := exists_of_forall₂_right hchildren hd
    obtain ⟨_, has, -⟩ := reorder_cases done
    exact .inr (reorder_indices_congr ((hn.fits c hc).resolve_left (by simp [has])) done h)
  | einsum | indexSum | product | contraction | gemm =>
    obtain rfl : m.children = children := hchildren
    apply Reordered.of_children scalars σ hn distinct rfl hkind hindices names dims hn.children rfl
    · intro _ _
      rfl
    · have fits := hn.fits
      rw [known] at fits
      rw [hkind, hindices]
      exact fits.reindex rfl (by simp) rfl (by simp) fun d => (dims d).trans (own_of_indices known ▸ .rfl)

theorem resolvedIndices_eq_ok {n : Node} {i : Indices} :
    n.resolvedIndices = .ok i ↔ n.indices = some i := by
  unfold resolvedIndices
  split <;> simp [*]

theorem bring_own {n : Node} {i : Indices} (known : n.indices = some i) : n.bring i = .ok n := by
  rw [bring, resolvedIndices_eq_ok.mpr known, ok_bind, if_pos i.sameNames_refl,
    i.checkAgrees_refl, ok_bind]
  exact reorder_own known

/-- A node that is brought to an order has that order, extents included, and its old value. -/
theorem bring_spec {n m : Node} {target : Indices} (hn : n.WellFormed) (ht : target.Distinct)
    (h : n.bring target = .ok m) :
    Reordered scalars σ target n m ∧ m.indices = some target ∧ n.indices = some n.own := by
  simp only [bring, bind_eq_ok, resolvedIndices_eq_ok] at h
  obtain ⟨current, known, h⟩ := h
  split at h
  case isFalse => exact absurd h refuse_ne_ok
  case isTrue same =>
    obtain ⟨_, agree, done⟩ := bind_eq_ok.mp h
    have hc := hn.indices known
    have spec := reorder_spec scalars σ hn ht done
    obtain ⟨k, hk, names⟩ := spec.indices
    have own := own_of_indices known
    refine ⟨spec, ?_, own ▸ known⟩
    have dims := spec.dims
    rw [own_of_indices hk, own] at dims
    rw [hk, Indices.eq_of_names_eq names fun d hd e he =>
      (Indices.checkAgrees_eq_ok hc ht).mp agree d ((dims d).mp hd) e he]

end Node

end

end TensorKernel
