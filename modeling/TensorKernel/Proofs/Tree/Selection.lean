import Mathlib.Data.Option.Defs
import TensorKernel.Proofs.Tree.Preparation

/-!
The choice of matrix products. Costs are compared lexicographically, and a contraction takes the
first of the cheapest candidates that fit it. Which candidates fit depends on the indices and layouts
of the node and its operands alone, and not on what has become of the operands before.

* `FirstCheapest`: the candidate that is to be taken, apart from how it is found;
* `cheapest_none`: the search finds it;
* `selected_at`, `count_eq`: what becomes of each node of a tree, and how many nodes change;
* `mapContractions_selects`: both for a whole run.
-/

namespace TensorKernel

/-! ### Costs -/

namespace Gemm.Cost

theorem less_iff {a b : Cost} : a.less b = true ↔
    a.strided < b.strided ∨ a.strided = b.strided ∧
      (a.leftTransposed < b.leftTransposed ∨ a.leftTransposed = b.leftTransposed ∧
        (a.rightTransposed < b.rightTransposed ∨ a.rightTransposed = b.rightTransposed ∧
          b.fused < a.fused)) := by
  simp only [less, compare, decide_eq_true_eq, Ordering.then_eq_lt, Nat.compare_eq_lt,
    Nat.compare_eq_eq]

theorem less_trans {a b c : Cost} (h : a.less b = true) (k : b.less c = true) :
    a.less c = true := by
  rw [less_iff] at h k ⊢
  omega

theorem less_of_less_of_not_less {a b c : Cost} (h : a.less b = true) (k : ¬c.less b = true) :
    a.less c = true := by
  rw [less_iff] at h k ⊢
  omega

end Gemm.Cost

namespace Node

/-! ### One node -/

/-- The partitions that are tried for a node: those that the source offers for a contraction. -/
def candidates (source : Gemm.Source) (n : Node) : List Gemm.Partition :=
  match n.kind, n.indices, n.children.map Node.indices with
  | .contraction sum, some c, [some a, some b] => source c a b sum
  | _, _, _ => []

structure IsContraction (sum c : Indices) (a b n : Node) : Prop where
  kind : n.kind = .contraction sum
  children : n.children = [a, b]
  indices : n.indices = some c
  left : a.indices = some a.own
  right : b.indices = some b.own

theorem IsContraction.candidates_eq {sum c : Indices} {a b n : Node} (h : IsContraction sum c a b n)
    (source : Gemm.Source) : n.candidates source = source c a.own b.own sum := by
  simp only [candidates, h.kind, h.children, h.indices, List.map_cons, List.map_nil, h.left, h.right]

theorem candidates_cases (source : Gemm.Source) (n : Node) :
    (∃ sum c a b, IsContraction sum c a b n) ∨
      n.candidates source = [] ∧ n.gemmPartition? source = .ok none := by
  by_cases h : ∃ sum c a b, IsContraction sum c a b n
  · exact .inl h
  · refine .inr ⟨?_, ?_⟩
    · rw [candidates]
      split
      · next sum c ai bi kind indices operands =>
        simp only [List.map_eq_cons_iff, List.map_eq_nil_iff] at operands
        obtain ⟨a, _, children, left, b, _, rfl, right, rfl⟩ := operands
        exact absurd ⟨sum, c, a, b, kind, children, indices, own_of_indices left ▸ left,
          own_of_indices right ▸ right⟩ h
      · rfl
    · rw [gemmPartition?]
      split
      · next sum a b c kind children indices =>
        split
        · next ai bi left right =>
          exact absurd ⟨sum, c, a, b, kind, children, indices, own_of_indices left ▸ left,
            own_of_indices right ▸ right⟩ h
        · rfl
      · rfl

theorem gemmPartition?_eq (source : Gemm.Source) (n : Node) :
    n.gemmPartition? source = return (← n.cheapest none (n.candidates source)).map Prod.fst := by
  rcases candidates_cases source n with ⟨sum, c, a, b, h⟩ | ⟨empty, none⟩
  · rw [h.candidates_eq]
    simp only [gemmPartition?, h.kind, h.children, h.indices, h.left, h.right]
  · rw [none, empty]
    rfl

/-- The candidate has the given cost; those before it that have one cost more, and those behind it
do not cost less. -/
structure FirstCheapest (n : Node) (ps : List Gemm.Partition) (p : Gemm.Partition)
    (cost : Gemm.Cost) : Prop where
  accepted : n.gemmCost? p = .ok (some cost)
  place : ∃ before after, ps = before ++ p :: after ∧
    (∀ q ∈ before, ∀ other, n.gemmCost? q = .ok (some other) → cost.less other = true) ∧
    ∀ q ∈ after, ∀ other, n.gemmCost? q = .ok (some other) → ¬other.less cost = true

namespace FirstCheapest

variable {n : Node} {ps : List Gemm.Partition} {p q : Gemm.Partition} {cost other : Gemm.Cost}

theorem head (accepted : n.gemmCost? p = .ok (some cost))
    (rest : ∀ q ∈ ps, ∀ other, n.gemmCost? q = .ok (some other) → ¬other.less cost = true) :
    n.FirstCheapest (p :: ps) p cost :=
  ⟨accepted, [], ps, rfl, by simp, rest⟩

theorem cons (h : n.FirstCheapest ps p cost)
    (first : ∀ other, n.gemmCost? q = .ok (some other) → cost.less other = true) :
    n.FirstCheapest (q :: ps) p cost := by
  obtain ⟨accepted, before, after, rfl, sooner, later⟩ := h
  exact ⟨accepted, q :: before, after, rfl, List.forall_mem_cons.mpr ⟨first, sooner⟩, later⟩

theorem mem (h : n.FirstCheapest ps p cost) : p ∈ ps := by
  obtain ⟨-, before, after, rfl, -⟩ := h
  simp

/-- There is at most one first cheapest candidate. -/
theorem unique (h : n.FirstCheapest ps p cost) (k : n.FirstCheapest ps q other) : p = q := by
  obtain ⟨first, before, after, rfl, sooner, later⟩ := h
  obtain ⟨second, before', after', same, sooner', later'⟩ := k
  rcases List.append_eq_append_iff.mp same with ⟨more, rfl, rest⟩ | ⟨more, rfl, rest⟩
  · cases more with
    | nil => exact (List.cons.inj rest).1
    | cons r more =>
      obtain ⟨rfl, rfl⟩ := List.cons.inj rest
      exact absurd (sooner' p (by simp) cost first) (later q (by simp) other second)
  · cases more with
    | nil => exact (List.cons.inj rest).1.symm
    | cons r more =>
      obtain ⟨rfl, rfl⟩ := List.cons.inj rest
      exact absurd (sooner q (by simp) other second) (later' p (by simp) cost first)

end FirstCheapest

/-- What a search finds that has found `best` before: it keeps this unless a candidate is cheaper,
and then finds the first cheapest of them. -/
inductive Finds (n : Node) (ps : List Gemm.Partition) :
    Option (Gemm.Partition × Gemm.Cost) → Option (Gemm.Partition × Gemm.Cost) → Prop
  | kept {best : Option (Gemm.Partition × Gemm.Cost)}
      (noCheaper : ∀ q ∈ ps, ∀ cost, n.gemmCost? q = .ok (some cost) →
        ∃ p ∈ best, ¬cost.less p.2 = true) : Finds n ps best best
  | found {best : Option (Gemm.Partition × Gemm.Cost)} {p : Gemm.Partition} {cost : Gemm.Cost}
      (first : n.FirstCheapest ps p cost) (cheaper : ∀ q ∈ best, cost.less q.2 = true) :
      Finds n ps best (some (p, cost))

theorem finds_of_cheapest {n : Node} {ps : List Gemm.Partition}
    {best result : Option (Gemm.Partition × Gemm.Cost)} (h : n.cheapest best ps = .ok result) :
    n.Finds ps best result := by
  induction ps generalizing best with
  | nil =>
    obtain rfl := pure_eq_ok.mp h
    exact .kept (by simp)
  | cons q qs ih =>
    rw [cheapest] at h
    obtain ⟨known, accepted, h⟩ := bind_eq_ok.mp h
    cases known with
    | none =>
      -- a candidate that is not accepted changes nothing
      have refused {P : Gemm.Cost → Prop} (cost : Gemm.Cost)
          (other : n.gemmCost? q = .ok (some cost)) : P cost := by
        cases accepted.symm.trans other
      cases ih h with
      | kept noCheaper => exact .kept (List.forall_mem_cons.mpr ⟨refused, noCheaper⟩)
      | found first cheaper => exact .found (first.cons refused) cheaper
    | some cost =>
      have costs {P : Gemm.Cost → Prop} (holds : P cost) (other : Gemm.Cost)
          (same : n.gemmCost? q = .ok (some other)) : P other := by
        cases accepted.symm.trans same
        exact holds
      dsimp only at h
      split at h
      · next improves =>
        have improves : ∀ p ∈ best, cost.less p.2 = true := by
          simpa [Option.all_eq_true] using improves
        cases ih h with
        | kept noCheaper =>
          refine .found (.head accepted fun r hr other same => ?_) improves
          obtain ⟨_, ⟨⟩, notLess⟩ := noCheaper r hr other same
          exact notLess
        | found first cheaper =>
          have less := cheaper _ rfl
          exact .found (first.cons (costs less))
            fun p hp => Gemm.Cost.less_trans less (improves p hp)
      · next remains =>
        obtain ⟨least, known, notLess⟩ : ∃ p ∈ best, ¬cost.less p.2 = true := by
          simpa [Option.all_eq_true] using remains
        cases ih h with
        | kept noCheaper =>
          exact .kept (List.forall_mem_cons.mpr ⟨costs ⟨least, known, notLess⟩, noCheaper⟩)
        | found first cheaper =>
          exact .found (first.cons (costs
            (Gemm.Cost.less_of_less_of_not_less (cheaper least known) notLess))) cheaper

/-- A search from the start finds the first cheapest candidate, if any is accepted. -/
theorem cheapest_none {n : Node} {ps : List Gemm.Partition}
    {result : Option (Gemm.Partition × Gemm.Cost)} (h : n.cheapest none ps = .ok result) :
    (result = none ∧ ∀ p ∈ ps, ∀ cost, n.gemmCost? p ≠ .ok (some cost)) ∨
      ∃ p cost, result = some (p, cost) ∧ n.FirstCheapest ps p cost := by
  cases finds_of_cheapest h with
  | kept noCheaper =>
    refine .inl ⟨rfl, fun p hp cost accepted => ?_⟩
    obtain ⟨_, ⟨⟩, -⟩ := noCheaper p hp cost accepted
  | found first => exact .inr ⟨_, _, rfl, first⟩

/-! ### Children that were mapped before -/

section
variable {n : Node} {done : List Node}

/-- The cost of a candidate depends on the indices and layouts of the operands alone. -/
theorem gemmCost?_children
    (same : List.Forall₂ (fun c d => d.indices = c.indices ∧ d.storage? = c.storage?) n.children
      done) (p : Gemm.Partition) : gemmCost? { n with children := done } p = n.gemmCost? p := by
  have stored : storage? { n with children := done } = n.storage? := rfl
  rw [gemmCost?.eq_def, gemmCost?.eq_def, stored]
  dsimp only
  generalize n.children = children at same
  cases same with
  | nil => rfl
  | cons first rest =>
    cases rest with
    | nil => rfl
    | cons second => simp only [first, second]

theorem candidates_children (source : Gemm.Source)
    (same : List.Forall₂ (fun c d => d.indices = c.indices) n.children done) :
    candidates source { n with children := done } = n.candidates source := by
  rw [candidates, candidates, map_eq_of_forall₂ same]

theorem FirstCheapest.children {ps : List Gemm.Partition} {p : Gemm.Partition} {cost : Gemm.Cost}
    (h : FirstCheapest { n with children := done } ps p cost)
    (same : List.Forall₂ (fun c d => d.indices = c.indices ∧ d.storage? = c.storage?) n.children
      done) : n.FirstCheapest ps p cost := by
  obtain ⟨accepted, before, after, parts, sooner, later⟩ := h
  simp only [gemmCost?_children same] at accepted sooner later
  exact ⟨accepted, before, after, parts, sooner, later⟩

end

/-! ### Trees -/

/-- The node at a position: the places of the children on the way down to it. -/
def at? : Node → List Nat → Option Node
  | n, [] => some n
  | n, place :: path => n.children[place]?.bind fun c => c.at? path

/-- Trees that are related child by child are related at every position. -/
theorem rel_at? {R : Node → Node → Prop}
    (down : ∀ x y, R x y → List.Forall₂ R x.children y.children) {n m : Node} (h : R n m)
    (path : List Nat) : Option.Rel R (n.at? path) (m.at? path) := by
  induction path generalizing n m with
  | nil => exact .some h
  | cons place path ih =>
    have children := down n m h
    rw [at?, at?]
    rcases lt_or_ge place n.children.length with inside | outside
    · have inside' := children.length_eq ▸ inside
      rw [List.getElem?_eq_getElem inside, List.getElem?_eq_getElem inside', Option.bind_some,
        Option.bind_some]
      exact ih (children.get inside inside')
    · have outside' := children.length_eq ▸ outside
      rw [List.getElem?_eq_none outside, List.getElem?_eq_none outside']
      exact .none

/-- What the selection makes of a node. If a candidate is accepted, the node runs as matrix products
over the groups of the first cheapest one, and else it keeps its kind. -/
structure Selected (source : Gemm.Source) (x y : Node) : Prop where
  indices : y.indices = x.indices
  pattern : y.pattern = x.pattern
  layout : y.layout = x.layout
  prefetch : y.prefetch = x.prefetch
  chosen : (∃ p ∈ x.candidates source, ∃ cost, x.gemmCost? p = .ok (some cost)) →
    ∃ g cost, y.kind = .gemm g ∧ x.FirstCheapest (x.candidates source) g.toPartition cost
  kept : (¬∃ p ∈ x.candidates source, ∃ cost, x.gemmCost? p = .ok (some cost)) → y.kind = x.kind

/-- A run first maps the children, and then looks for a partition for the node. -/
theorem mapContractions_eq_ok {source : Gemm.Source} {n m : Node} {count : Nat}
    (h : n.mapContractions source = .ok (m, count)) :
    ∃ done k, mapContractionsAll source n.children = .ok (done, k) ∧
      (gemmPartition? source { n with children := done } = .ok none ∧
          m = { n with children := done } ∧ count = k ∨
        ∃ p, gemmPartition? source { n with children := done } = .ok (some p) ∧
          asGemm { n with children := done } p = .ok m ∧ count = k + 1) := by
  obtain ⟨kind, indices, pattern, layout, prefetch, children⟩ := n
  simp only [mapContractions, bind_eq_ok, Prod.exists] at h
  obtain ⟨done, k, all, partition, chosen, h⟩ := h
  refine ⟨done, k, all, ?_⟩
  cases partition with
  | none =>
    cases pure_eq_ok.mp h
    exact .inl ⟨chosen, rfl, rfl⟩
  | some p =>
    obtain ⟨_, mapped, h⟩ := bind_eq_ok.mp h
    cases pure_eq_ok.mp h
    exact .inr ⟨p, chosen, mapped, rfl⟩

section
variable {source : Gemm.Source} {n m : Node} {count : Nat}

/-- A candidate is taken for a contraction, whose operands may have been mapped before. -/
theorem asGemm_of_candidate {done : List Node} {p : Gemm.Partition}
    (same : List.Forall₂ (fun c d => d.indices = c.indices) n.children done)
    (offered : p ∈ n.candidates source) (h : asGemm { n with children := done } p = .ok m) :
    ∃ g, g.toPartition = p ∧ m = { n with kind := .gemm g, children := done } ∧
      ∃ sum, n.kind = .contraction sum := by
  rcases candidates_cases source n with ⟨sum, c, a, b, operands⟩ | ⟨empty, -⟩
  · rw [operands.children] at same
    obtain ⟨d, e, rfl, left, right⟩ := forall₂_two same
    obtain ⟨g, made, rfl⟩ := asGemm_eq_ok (n := { n with children := [d, e] }) rfl
      operands.indices (left.trans operands.left) (right.trans operands.right) h
    exact ⟨g, (Gemm.fits_of_ofPartition made).1, rfl, sum, operands.kind⟩
  · rw [empty] at offered
    cases offered

/-- One node and its children, which are mapped before. The number grows exactly if the kind of the
node changes. -/
theorem selected_of_mapContractions (h : n.mapContractions source = .ok (m, count)) :
    Selected source n m ∧ ∃ k, mapContractionsAll source n.children = .ok (m.children, k) ∧
      count = k + if n.kind ≠ m.kind then 1 else 0 := by
  obtain ⟨done, k, all, result⟩ := mapContractions_eq_ok h
  have same : List.Forall₂ (fun c d => d.indices = c.indices ∧ d.storage? = c.storage?) n.children
      done := by
    refine (mapContractionsAll_eq_ok all).imp fun c d ⟨_, mapped⟩ => ?_
    have mapped := (mapped_of_mapContractions mapped).1
    exact ⟨mapped.indices, mapped.storage⟩
  have chosen {p : Option Gemm.Partition}
      (h : gemmPartition? source { n with children := done } = .ok p) :
      ∃ result, cheapest { n with children := done } none (n.candidates source) = .ok result ∧
        result.map Prod.fst = p := by
    rw [gemmPartition?_eq, candidates_children source (same.imp fun _ _ => And.left)] at h
    simpa only [bind_eq_ok, pure_eq_ok] using h
  rcases result with ⟨none, rfl, rfl⟩ | ⟨p, some, mapped, rfl⟩
  · obtain ⟨found, cheapest, empty⟩ := chosen none
    obtain ⟨-, refused⟩ :=
      (cheapest_none cheapest).resolve_right (by rintro ⟨_, _, rfl, -⟩; cases empty)
    refine ⟨⟨rfl, rfl, rfl, rfl, fun ⟨p, hp, cost, accepted⟩ => ?_, fun _ => rfl⟩, count, all,
      by simp⟩
    rw [← gemmCost?_children same] at accepted
    exact absurd accepted (refused p hp cost)
  · obtain ⟨found, cheapest, full⟩ := chosen some
    obtain ⟨p, cost, rfl, first⟩ :=
      (cheapest_none cheapest).resolve_left (by rintro ⟨rfl, -⟩; cases full)
    cases full
    have first := first.children same
    obtain ⟨g, rfl, rfl, sum, contraction⟩ :=
      asGemm_of_candidate (same.imp fun _ _ => And.left) first.mem mapped
    refine ⟨⟨rfl, rfl, rfl, rfl, fun _ => ⟨g, cost, rfl, first⟩, fun refused => ?_⟩, k, all, ?_⟩
    · exact absurd ⟨g.toPartition, first.mem, cost, first.accepted⟩ refused
    · simp [contraction]

/-- What becomes of the node at a position. -/
theorem selected_at (h : n.mapContractions source = .ok (m, count)) (path : List Nat) :
    Option.Rel (Selected source) (n.at? path) (m.at? path) := by
  have related := rel_at? (R := fun x y => ∃ k, x.mapContractions source = .ok (y, k))
    (fun x y ⟨_, mapped⟩ => (mapped_of_mapContractions mapped).2) ⟨count, h⟩ path
  cases found : n.at? path <;> cases found' : m.at? path <;> rw [found, found'] at related
  · exact .none
  · cases related
  · cases related
  · cases related with
    | some mapped =>
      obtain ⟨_, mapped⟩ := mapped
      exact .some (selected_of_mapContractions mapped).1

/-- The number of nodes of a tree whose kind differs from that of the node in their place. -/
def changes (n m : Node) : Nat :=
  (n.postorder.zip m.postorder).countP fun (x, y) => x.kind ≠ y.kind

/-- The numbers of the children, which stand in both trees in the same places, add up. -/
theorem countAll_eq {cs ds : List Node} {k : Nat}
    (each : ∀ c ∈ cs, ∀ d k, c.mapContractions source = .ok (d, k) →
      c.postorder.length = d.postorder.length ∧ k = c.changes d)
    (all : mapContractionsAll source cs = .ok (ds, k)) :
    (postorderAll cs).length = (postorderAll ds).length ∧
      k = ((postorderAll cs).zip (postorderAll ds)).countP fun (x, y) => x.kind ≠ y.kind := by
  induction cs generalizing ds k with
  | nil =>
    cases pure_eq_ok.mp all
    exact ⟨rfl, rfl⟩
  | cons c cs ih =>
    obtain ⟨first, rest⟩ := List.forall_mem_cons.mp each
    simp only [mapContractionsAll, bind_eq_ok, pure_eq_ok] at all
    obtain ⟨⟨d, own⟩, mapped, ⟨ds, others⟩, later, h⟩ := all
    cases h
    obtain ⟨length, rfl⟩ := first d own mapped
    obtain ⟨length', rfl⟩ := ih rest later
    rw [postorderAll, postorderAll, List.zip_append length, List.countP_append,
      List.length_append, List.length_append, length, length']
    exact ⟨rfl, rfl⟩

/-- The number that is returned is that of the nodes that change. -/
theorem count_eq (h : n.mapContractions source = .ok (m, count)) :
    n.postorder.length = m.postorder.length ∧ count = n.changes m := by
  induction n using Node.induction generalizing m count with
  | node kind indices pattern layout prefetch children ih =>
    obtain ⟨-, k, all, counted⟩ := selected_of_mapContractions h
    obtain ⟨length, number⟩ := countAll_eq (fun c hc d k => ih c hc) all
    obtain ⟨kind', indices', pattern', layout', prefetch', done⟩ := m
    rw [changes, postorder, postorder, List.zip_append length, List.countP_append,
      List.length_append, List.length_append, length, counted, number]
    simp [List.countP_cons]

/-- A run maps each contraction for which a candidate is accepted by the first cheapest one, keeps
everything else at every position, and returns the number of nodes that it has mapped. -/
theorem mapContractions_selects (h : n.mapContractions source = .ok (m, count)) :
    (∀ path, Option.Rel (Selected source) (n.at? path) (m.at? path)) ∧ count = n.changes m :=
  ⟨selected_at h, (count_eq h).2⟩

end

def storedProduct : Node :=
  { ofKind (.contraction ⟨[⟨'k', 3⟩]⟩)
      [dense "A" [⟨'i', 2⟩, ⟨'k', 3⟩], dense "B" [⟨'k', 3⟩, ⟨'j', 2⟩]]
      (some ⟨[⟨'i', 2⟩, ⟨'j', 2⟩]⟩) with layout := some (.full [2, 2]) }

/-- Of products with single columns and, twice, of whole matrices, the second candidate is taken. -/
theorem mapContractions_selects_second :
    let columns : Gemm.Partition := ⟨⟨[⟨'i', 2⟩]⟩, .empty, ⟨[⟨'k', 3⟩]⟩⟩
    let whole : Gemm.Partition := ⟨⟨[⟨'i', 2⟩]⟩, ⟨[⟨'j', 2⟩]⟩, ⟨[⟨'k', 3⟩]⟩⟩
    let source : Gemm.Source := fun _ _ _ _ => [columns, whole, whole]
    ∃ m g, storedProduct.mapContractions source = .ok (m, 1) ∧ storedProduct.changes m = 1 ∧
      (∀ path, Option.Rel (Selected source) (storedProduct.at? path) (m.at? path)) ∧
      m.kind = .gemm g ∧ g.toPartition = whole := by
  intro columns whole source
  obtain ⟨m, mapped, kind⟩ : ∃ m, storedProduct.mapContractions source = .ok (m, 1) ∧
      m.kind = .gemm ⟨whole, false, false⟩ := ⟨_, rfl, rfl⟩
  obtain ⟨each, count⟩ := mapContractions_selects mapped
  exact ⟨m, _, mapped, count.symm, each, kind, rfl⟩

end Node

end TensorKernel
