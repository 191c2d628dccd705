import TensorKernel.Proofs.Tree.Permutation
import TensorKernel.Proofs.Tree.Refusal

/-!
Which nodes can be permuted. A node whose order no tensor fixes takes any order of its indices, and
so do all nodes that it hands the order down to, as they have its indices. The exception are sums of
nothing, which have no indices: a node that hands an order down to one cannot be permuted.

* `Ranked`: patterns and layouts of the rank of the indices, which move along;
* `reorder_iff`: one tree;
* `permutable_iff`: the trees that resolution and the passes behind it give.
-/

namespace TensorKernel.Node

/-- The pattern of a node, and the layout of its result, have a dimension for each of its indices. -/
structure Ranked (x : Node) : Prop where
  pattern : ∀ p, x.pattern = some p → p.shape.length = x.own.size
  layout : x.kind.isLeaf = false → x.kind ≠ .assign → ∀ l, x.layout = some l →
    l.Boxed ∧ l.shape.length = x.own.size

section
variable {x y : Node} {i order : Indices} {perm : List Nat}

theorem reorderPattern_ok {pattern : Option Pattern} (distinct : i.Distinct)
    (picked : Pattern.pick? i.names perm = some order.names)
    (rank : ∀ p, pattern = some p → p.shape.length = i.size) (keep : Bool) :
    ∃ after, reorderPattern keep perm pattern = .ok after := by
  cases pattern with
  | none => exact ⟨none, rfl⟩
  | some p =>
    cases keep with
    | false => exact ⟨none, rfl⟩
    | true =>
      obtain ⟨s, shape, -⟩ := exists_map_eq distinct
        (i.length_names.trans (rank p rfl).symm) fun _ => 0
      have moved : Pattern.pick? p.shape perm = some (order.names.map s) := by
        rw [← shape, Pattern.pick?_map picked]
      obtain ⟨p', done⟩ := Pattern.transpose?_of_pick? moved
      exact ⟨some p', map_eq_ok.mpr ⟨p', dimension_eq_ok.mpr done, rfl⟩⟩

theorem reorderLayout_ok {layout : Option Layout} (distinct : i.Distinct)
    (picked : Pattern.pick? i.names perm = some order.names)
    (rank : ∀ l, layout = some l → l.Boxed ∧ l.shape.length = i.size) :
    ∃ after, reorderLayout perm layout = .ok after := by
  cases layout with
  | none => exact ⟨none, rfl⟩
  | some l =>
    obtain ⟨boxed, length⟩ := rank l rfl
    obtain ⟨s, r, -, done⟩ := Layout.permute?_keys boxed distinct
      (i.length_names.trans length.symm) picked
    exact ⟨_, map_eq_ok.mpr ⟨_, dimension_eq_ok.mpr done, rfl⟩⟩

/-- Whether a node can be permuted is a matter of its children. -/
theorem reorder_ok_iff (ranked : x.Ranked) (hi : x.indices = some i) (distinct : i.Distinct)
    (names : order.names.Perm i.names) (other : i ≠ order) (keep : Bool) :
    (∃ m, x.reorder order keep = .ok m) ↔
      ∃ children, ReorderedChildren order keep x.kind x.children children := by
  constructor
  · rintro ⟨m, done⟩
    obtain ⟨current, known, ⟨same, -⟩ | ⟨-, _, -, moved⟩⟩ := reorder_eq_ok.mp done
    · obtain rfl := Option.some.inj (hi.symm.trans known)
      exact absurd same other
    · exact ⟨m.children, moved.children⟩
  · rintro ⟨children, handed⟩
    have ordered : order.Distinct := names.nodup_iff.mpr distinct
    obtain ⟨perm, found⟩ := Indices.permutationTo?_of_sameNames distinct ordered
      ((Indices.sameNames_iff distinct ordered).mpr fun _ => names.mem_iff.symm)
    have picked := Indices.pick?_names found
    have own := own_of_indices hi
    obtain ⟨notLeaf, notAssign⟩ := handed.not_stored
    obtain ⟨pattern, movedPattern⟩ := reorderPattern_ok distinct picked (own ▸ ranked.pattern) keep
    obtain ⟨layout, movedLayout⟩ :=
      reorderLayout_ok distinct picked (own ▸ ranked.layout notLeaf notAssign)
    exact ⟨⟨x.kind, i.permute? order, pattern, layout, x.prefetch, children⟩, reorder_eq_ok.mpr
      ⟨i, hi, .inr ⟨other, perm, found, rfl, rfl, movedPattern, movedLayout, rfl, handed⟩⟩⟩

theorem handed_iff (role : x.kind = .add ∨ x.kind.isScale = true) :
    Handed x y ↔ y = x ∨ ∃ c ∈ x.children, Handed c y := by
  constructor
  · rintro (_ | ⟨-, hc, below⟩)
    · exact .inl rfl
    · exact .inr ⟨_, hc, below⟩
  · rintro (rfl | ⟨c, hc, below⟩)
    · exact .root y
    · exact .child role hc below

theorem handed_iff_eq (kept : ¬(x.kind = .add ∨ x.kind.isScale = true)) : Handed x y ↔ y = x := by
  constructor
  · rintro (_ | ⟨hands, -⟩)
    · rfl
    · exact absurd hands kept
  · rintro rfl
    exact .root y

/-- A node can be permuted exactly if no tensor fixes its order and all nodes that it hands the
order down to have indices. -/
theorem reorder_iff (formed : x.WellFormed) (ranked : x.Everywhere Ranked)
    (hi : x.indices = some i) (names : order.names.Perm i.names) (other : i ≠ order)
    (keep : Bool) :
    (∃ m, x.reorder order keep = .ok m) ↔
      x.hasFixedOrder = false ∧ ∀ y, Handed x y → y.indices ≠ none := by
  induction x using Node.induction with
  | node kind indices pattern layout prefetch children ih =>
  rw [reorder_ok_iff ranked.root hi (formed.indices hi) names other]
  have known : indices ≠ none := Option.ne_none_iff_exists'.mpr ⟨i, hi⟩
  -- children that take the order have the indices of the node
  have hands (role : kind = .add ∨ kind.isScale = true) :
      (∃ ds, List.Forall₂ (fun c d => c.reorder order keep = .ok d) children ds) ↔
        ∀ c ∈ children, c.hasFixedOrder = false ∧ ∀ y, Handed c y → y.indices ≠ none := by
    have each {c : Node} (hc : c ∈ children) (given : c.indices ≠ none) :=
      ih c hc (formed.children c hc) (ranked.children c hc)
        ((formed.order_child role hc given).trans hi)
    constructor
    · rintro ⟨ds, done⟩ c hc
      obtain ⟨d, -, moved⟩ := exists_of_forall₂_right done.flip hc
      obtain ⟨current, given, -⟩ := reorder_eq_ok.mp moved
      exact (each hc (by simp [given])).mp ⟨d, moved⟩
    · exact fun free => forall₂_of_exists fun c hc =>
        (each hc ((free c hc).2 c (.root c))).mpr (free c hc)
  have handed (role : kind = .add ∨ kind.isScale = true) :
      (∀ y, Handed ⟨kind, indices, pattern, layout, prefetch, children⟩ y → y.indices ≠ none) ↔
        ∀ c ∈ children, ∀ y, Handed c y → y.indices ≠ none := by
    have below (y : Node) := handed_iff (x := ⟨kind, indices, pattern, layout, prefetch, children⟩)
      (y := y) role
    simp only [below]
    grind
  cases kind with
  | leaf | assign => simp [ReorderedChildren, hasFixedOrder]
  | add =>
    rw [handed (.inl rfl), hasFixedOrder_add rfl, List.any_eq_false]
    refine (hands (.inl rfl)).trans ?_
    simp only [Bool.not_eq_true, forall_and]
  | scale =>
    obtain ⟨term, rfl, -⟩ := formed.fits
    rw [handed (.inr rfl), hasFixedOrder_scale rfl rfl]
    refine (hands (.inr rfl)).trans ?_
    simp only [List.forall_mem_singleton]
  | einsum | indexSum | product | contraction | gemm =>
    simp [ReorderedChildren, hasFixedOrder, handed_iff_eq, Kind.isScale, known]

/-- Where no sum is empty, all nodes of a well-formed tree have indices. -/
theorem known_of_summands (formed : x.WellFormed)
    (summand : x.Everywhere fun z => z.kind = .add → z.children ≠ []) :
    x.Everywhere fun z => z.indices = some z.own := by
  induction x using Node.induction with
  | node kind indices pattern layout prefetch children ih =>
    have each (c : Node) (hc : c ∈ children) :=
      ih c hc (formed.children c hc) (summand.children c hc)
    exact everywhere_iff.mpr
      ⟨known_of_children formed summand.root fun c hc => (each c hc).root, each⟩

theorem Handed.mem_postorder (h : Handed x y) : y ∈ x.postorder := by
  induction h with
  | root n => exact Node.mem_postorder.mpr (.inl rfl)
  | child _ hc _ ih => exact Node.mem_postorder.mpr (.inr ⟨_, hc, ih⟩)

end

/-! ### Resolved trees and what passes make of them -/

/-- A tree that was resolved, at any stage of its preparation. -/
inductive InPreparation (r : Node) : Node → Prop
  | resolved : InPreparation r r
  | propagated {p : Node} (patterns : r.propagateSparsity = .ok p) : InPreparation r p
  | placed {p l : Node} {config : Config} (patterns : r.propagateSparsity = .ok p)
      (layouts : p.computeLayouts config = .ok l) : InPreparation r l
  | mapped {p l m : Node} {config : Config} {count : Nat} (patterns : r.propagateSparsity = .ok p)
      (layouts : p.computeLayouts config = .ok l)
      (gemm : l.mapContractions Gemm.naturalPartitions = .ok (m, count)) : InPreparation r m

/-- Nothing is known of a tree that is built but its indices. -/
theorem Constructed.bare {n : Node} (h : n.Constructed) : n.Everywhere Bare :=
  h.everywhere stable_bare (fun _ => ⟨rfl, rfl⟩) fun _ => ⟨rfl, rfl⟩

theorem Bare.ranked {x : Node} (h : x.Bare) : x.Ranked :=
  ⟨by simp [h.pattern], by simp [h.layout]⟩

theorem Known.ranked {x : Node} {p : Pattern} (h : Known x p)
    (layout : x.kind.isLeaf = false → x.kind ≠ .assign → ∀ l, x.layout = some l →
      l.Boxed ∧ l.shape.length = x.own.size) : x.Ranked := by
  refine ⟨fun q pattern => ?_, layout⟩
  obtain rfl := Option.some.inj (h.pattern.symm.trans pattern)
  exact h.rank

theorem Finished.ranked {config : Config} {x : Node} (h : Finished config x) : x.Ranked := by
  obtain ⟨p, l, known, placed⟩ := h
  refine known.ranked fun leaf assign l' stored => ?_
  obtain ⟨layout, boxed, rank⟩ := placed.boxed known leaf assign
  obtain rfl := Option.some.inj (layout.symm.trans stored)
  exact ⟨boxed, rank⟩

section
variable {r t : Node} (formed : r.WellFormed)
  (tensors : r.Everywhere fun x => ∀ t, x.kind = .leaf t → t.Constructed)
include formed tensors

/-- Layouts are computed behind the patterns. -/
theorem ranked_of_propagate (bare : r.Everywhere Bare) (h : r.propagateSparsity = .ok t) :
    t.Everywhere Ranked := by
  intro y hy
  obtain ⟨p, known⟩ := known_of_propagate formed tensors h y hy
  obtain ⟨x, hx, same, -⟩ := exists_of_annotate (K := fun x y => y.layout = x.layout)
    (fun n children m done => by
      obtain ⟨p, -, rfl⟩ := withPattern_eq_ok.mp done
      exact ⟨rfl, rfl⟩) h hy
  exact known.ranked fun _ _ l stored => by simp [same, (bare x hx).layout] at stored

/-- Patterns and layouts fit the indices at each stage, and all indices are known if no sum is
empty. -/
theorem InPreparation.spec (bare : r.Everywhere Bare) (h : InPreparation r t) :
    t.WellFormed ∧ t.Everywhere Ranked ∧
      ((r.Everywhere fun z => z.kind = .add → z.children ≠ []) →
        t.Everywhere fun z => z.indices = some z.own) := by
  -- behind the propagation of patterns all indices are known
  have finished {config : Config} {p l m : Node} (patterns : r.propagateSparsity = .ok p)
      (layouts : p.computeLayouts config = .ok l)
      (gemm : m = l ∨ ∃ count, l.mapContractions Gemm.naturalPartitions = .ok (m, count)) :
      m.WellFormed ∧ m.Everywhere Ranked ∧ m.Everywhere fun z => z.indices = some z.own := by
    obtain ⟨formed, -, finished⟩ := finished_of_stages formed tensors patterns layouts gemm
    refine ⟨formed, finished.mono fun x h => h.ranked, finished.mono ?_⟩
    rintro x ⟨p, l, known, -⟩
    exact known.indices
  cases h with
  | resolved => exact ⟨formed, bare.mono fun x h => h.ranked, known_of_summands formed⟩
  | propagated patterns =>
    refine ⟨annotate_wellFormed annotates_withPattern formed patterns,
      ranked_of_propagate formed tensors bare patterns, fun _ => ?_⟩
    refine (known_of_propagate formed tensors patterns).mono ?_
    rintro x ⟨p, known⟩
    exact known.indices
  | placed patterns layouts =>
    obtain ⟨formed, ranked, known⟩ := finished patterns layouts (.inl rfl)
    exact ⟨formed, ranked, fun _ => known⟩
  | mapped patterns layouts gemm =>
    obtain ⟨formed, ranked, known⟩ := finished patterns layouts (.inr ⟨_, gemm⟩)
    exact ⟨formed, ranked, fun _ => known⟩

end

/-- A node of a resolved tree takes another order of its indices exactly if no tensor fixes its own
and no node that it hands the order down to lacks indices, whether patterns are kept or forgotten.
Where no sum is empty, no node lacks indices. -/
theorem permutable_iff {n r t x : Node} {i order : Indices} (composed : n.Composed)
    (tensors : n.Everywhere fun z => ∀ t, z.kind = .leaf t → t.Constructed)
    (bare : n.Everywhere Bare) (resolved : n.resolve = .ok r) (stage : InPreparation r t)
    (hx : x ∈ t.postorder) (hi : x.indices = some i) (names : order.names.Perm i.names)
    (other : order ≠ i) (keep : Bool) :
    ((∃ m, x.reorder order keep = .ok m) ↔
      x.hasFixedOrder = false ∧ ∀ y, Handed x y → y.indices ≠ none) ∧
    ((n.Everywhere fun z => z.kind = .add → z.children ≠ []) →
      ((∃ m, x.reorder order keep = .ok m) ↔ x.hasFixedOrder = false)) := by
  obtain ⟨formed, -⟩ := composed.resolveTo none r (by simp) resolved
  obtain ⟨formed, ranked, known⟩ := stage.spec formed
    (resolveTo_everywhere (ofKind_tensors _).stable tensors resolved)
    (resolveTo_everywhere stable_bare bare resolved)
  have permutable :=
    reorder_iff (formed.everywhere x hx) (ranked.subtree hx) hi names other.symm keep
  refine ⟨permutable, fun summand => permutable.trans (and_iff_left fun y handed => ?_)⟩
  have whole := known (resolveTo_everywhere stable_summand summand resolved)
  rw [whole.subtree hx y handed.mem_postorder]
  exact Option.some_ne_none _

theorem permutable_corner : ∃ n r p c x, cornerProducts = .ok n ∧ n.resolve = .ok r ∧
    r.propagateSparsity = .ok p ∧ p.children = [c, x] ∧
      ∀ keep, (∃ m, x.reorder ⟨[⟨'j', 2⟩, ⟨'i', 2⟩]⟩ keep = .ok m) ∧
        ¬∃ m, c.reorder ⟨[⟨'j', 2⟩, ⟨'i', 2⟩]⟩ keep = .ok m := by
  have permutable {n r p y : Node} (built : cornerProducts = .ok n) (resolved : n.resolve = .ok r)
      (propagated : r.propagateSparsity = .ok p) (member : y ∈ p.children)
      (summand : n.Everywhere fun z => z.kind = .add → z.children ≠ [])
      (known : y.indices = some ⟨[⟨'i', 2⟩, ⟨'j', 2⟩]⟩) (keep : Bool) :
      (∃ m, y.reorder ⟨[⟨'j', 2⟩, ⟨'i', 2⟩]⟩ keep = .ok m) ↔ y.hasFixedOrder = false := by
    have constructed := constructed_cornerProducts built
    exact (permutable_iff constructed.composed constructed.tensors constructed.bare resolved
      (.propagated propagated) (mem_postorder_of_child (mem_postorder.mpr (.inl rfl)) member) known
      (by decide) (by decide) keep).2 summand
  refine ⟨_, _, _, _, _, rfl, rfl, rfl, rfl, fun keep => ⟨?_, ?_⟩⟩
  · exact (permutable rfl rfl rfl (by simp) (by decide) rfl keep).mpr rfl
  · rw [permutable rfl rfl rfl (by simp) (by decide) rfl keep]
    exact Bool.noConfusion

/-- The sum `0 + A_ik B_kj`, where nothing is added up in the first operand. -/
def emptySummand : Node :=
  add [add [], einsum [dense "A" [⟨'i', 2⟩, ⟨'k', 2⟩], dense "B" [⟨'k', 2⟩, ⟨'j', 2⟩]]]

/-- No tensor fixes the order of such a sum, but the empty operand cannot take another one. -/
theorem emptySummand_refused : ∃ r i order, emptySummand.resolve = .ok r ∧ r ∈ r.postorder ∧
    r.indices = some i ∧ order.names.Perm i.names ∧ order ≠ i ∧ r.hasFixedOrder = false ∧
      ∀ keep, r.reorder order keep =
        .error (.composition (.operandWithoutIndices (add []).text)) :=
  ⟨_, _, ⟨[⟨'j', 2⟩, ⟨'i', 2⟩]⟩, rfl, mem_postorder.mpr (.inl rfl), rfl, by decide, by decide, rfl,
    fun _ => rfl⟩

end TensorKernel.Node
