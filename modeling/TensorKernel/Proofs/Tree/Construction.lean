import TensorKernel.Proofs.Pattern.Support
import TensorKernel.Proofs.Tree.Everywhere

/-!
Trees that are built by hand, and what resolution makes of them.

* `Tensor.Constructed`, `Node.Constructed`: what the constructors give, where index sets are written
  without repeated names;
* `Composed`: what they guarantee. Operations and factors fit their operands; products, sums and the
  values of assignments are still to be resolved;
* `Composed.resolveTo`: resolution makes a well-formed tree of it, with the indices required.
-/

namespace TensorKernel

namespace Tensor

/-- The tensors that can be made: dense ones, members of groups, and tensors with a pattern. -/
inductive Constructed : Tensor → Prop
  | ofName {name : String} {shape : Shape} {t : Tensor} (done : ofName name shape = .ok t) :
      Constructed t
  | withGroup {t : Tensor} (member : Nat) (h : Constructed t) : Constructed (t.withGroup member)
  | withPattern {t u : Tensor} {p : Pattern} (h : Constructed t) (sized : p.Sized)
      (done : t.withPattern p = .ok u) : Constructed u

/-- A tensor is stored as its pattern demands: a dense one as a whole, and else the box of the
pattern. -/
inductive Stores (t : Tensor) : Prop
  | full (pattern : t.pattern = .dense t.shape) (layout : t.layout = .full t.shape)
  | box (layout : t.layout = .ofPattern t.pattern none)

theorem checkName_eq_ok {name : String} {u : Unit} (h : checkName name = .ok u) :
    isIdentifier name = true := by
  unfold checkName at h
  split at h
  · assumption
  · exact absurd h refuse_ne_ok

theorem withPattern_eq_ok {t u : Tensor} {p : Pattern} (h : t.withPattern p = .ok u) :
    p.shape = t.shape ∧ u = { t with pattern := p, layout := .ofPattern p none } := by
  unfold withPattern at h
  split at h
  · next same => exact ⟨same, (Except.ok.inj h).symm⟩
  · exact absurd h refuse_ne_ok

theorem Constructed.identifier {t : Tensor} (h : t.Constructed) : isIdentifier t.base = true := by
  induction h with
  | ofName done =>
    simp only [Tensor.ofName, bind_eq_ok, pure_eq_ok] at done
    obtain ⟨_, valid, rfl⟩ := done
    exact checkName_eq_ok valid
  | withGroup _ _ ih => exact ih
  | withPattern _ _ done ih =>
    obtain ⟨-, rfl⟩ := withPattern_eq_ok done
    exact ih

theorem Constructed.pattern {t : Tensor} (h : t.Constructed) :
    t.pattern.Sized ∧ t.pattern.shape = t.shape ∧ t.Stores := by
  induction h with
  | ofName done =>
    simp only [Tensor.ofName, bind_eq_ok, pure_eq_ok] at done
    obtain ⟨_, -, rfl⟩ := done
    exact ⟨trivial, rfl, .full rfl rfl⟩
  | withGroup _ _ ih =>
    obtain ⟨sized, shape, ⟨pattern, layout⟩ | layout⟩ := ih
    · exact ⟨sized, shape, .full pattern layout⟩
    · exact ⟨sized, shape, .box layout⟩
  | withPattern _ sized done =>
    obtain ⟨shape, rfl⟩ := withPattern_eq_ok done
    exact ⟨sized, shape, .box rfl⟩

end Tensor

namespace Node

inductive Constructed : Node → Prop
  | indexed {tensor : Tensor} {names : List Char} {n : Node} (h : tensor.Constructed)
      (done : indexed tensor names = .ok n) : Constructed n
  | einsum {operands : List Node} (h : ∀ x ∈ operands, Constructed x) :
      Constructed (einsum operands)
  | add {operands : List Node} (h : ∀ x ∈ operands, Constructed x) : Constructed (add operands)
  | scale {factor : Factor} {term n : Node} (h : Constructed term)
      (done : scale factor term = .ok n) : Constructed n
  | indexSum {term n : Node} {name : Char} (h : Constructed term)
      (done : term.indexSum name = .ok n) : Constructed n
  | product {left right n : Node} (hl : Constructed left) (hr : Constructed right)
      (done : left.product right = .ok n) : Constructed n
  | contraction {indices sum : Indices} {left right n : Node} (hl : Constructed left)
      (hr : Constructed right) (order : indices.Distinct) (summed : sum.Distinct)
      (done : contraction indices left right sum = .ok n) : Constructed n
  | gemm {indices : Indices} {left right n : Node} {partition : Gemm.Partition}
      (hl : Constructed left) (hr : Constructed right) (order : indices.Distinct)
      (done : gemm indices left right partition = .ok n) : Constructed n
  | assignment {target value n : Node} (ht : Constructed target) (hv : Constructed value)
      (done : target.assignment value = .ok n) : Constructed n

end Node

def Kind.Composes (indices : Option Indices) (children : List Node) (kind : Kind) : Prop :=
  match kind with
  | .einsum | .add => indices = none
  | .assign => ∃ i leaf value tensor, indices = some i ∧ children = [leaf, value] ∧
      leaf.kind = .leaf tensor ∧ leaf.indices = some i
  | .leaf _ => kind.Fits indices children ∧ children = []
  | .scale _ | .indexSum _ | .product | .contraction _ | .gemm _ => kind.Fits indices children

def Kind.isOperation : Kind → Bool
  | .indexSum _ | .product | .contraction _ | .gemm _ => true
  | .leaf _ | .einsum | .add | .scale _ | .assign => false

/-- Operations know the indices of their operands. -/
theorem Kind.Fits.operands {kind : Kind} {indices : Option Indices}
    {children : List Node} (h : kind.Fits indices children)
    (operation : kind.isOperation = true) : ∀ c ∈ children, c.indices = some c.own := by
  cases kind with
  | indexSum =>
    obtain ⟨_, term, -, rfl, known, -⟩ := h
    simpa using known
  | product | contraction | gemm =>
    obtain ⟨_, left, right, -, rfl, hl, hr, -⟩ := h
    simpa using ⟨hl, hr⟩
  | leaf | einsum | add | scale | assign => cases operation

namespace Node

/-- No node of the tree repeats an index name, and its children are as the constructors demand. -/
inductive Composed : Node → Prop
  | node {n : Node} (own : ∀ i, n.indices = some i → i.Distinct)
      (composes : n.kind.Composes n.indices n.children) (children : ∀ c ∈ n.children, Composed c) :
      Composed n

namespace Composed

variable {n : Node}

theorem indices (h : n.Composed) {i : Indices} (known : n.indices = some i) : i.Distinct := by
  cases h with
  | node own _ _ => exact own i known

theorem composes (h : n.Composed) : n.kind.Composes n.indices n.children := by
  cases h with
  | node _ composes _ => exact composes

theorem children (h : n.Composed) : ∀ c ∈ n.children, c.Composed := by
  cases h with
  | node _ _ children => exact children

theorem own (h : n.Composed) : n.own.Distinct := by
  cases known : n.indices with
  | none =>
    rw [Node.own, known]
    exact Indices.distinct_empty
  | some i =>
    rw [own_of_indices known]
    exact h.indices known

/-- A node of known indices whose children are composed. -/
theorem of_known {i : Indices} (known : n.indices = some i) (distinct : i.Distinct)
    (composes : n.kind.Composes n.indices n.children) (children : ∀ c ∈ n.children, c.Composed) :
    n.Composed := by
  refine .node (fun j hj => ?_) composes children
  rw [known] at hj
  cases hj
  exact distinct

end Composed

/-! ### Constructors -/

theorem IsTensor.composed {n : Node} {tensor : Tensor} {i : Indices} (h : n.IsTensor tensor i) :
    n.Composed := by
  refine .of_known h.indices h.distinct ?_ (by simp [h.children])
  rw [h.kind]
  exact ⟨⟨i, h.indices, h.shape, h.valid⟩, h.children⟩

theorem composed_scaled {n term : Node} {factor : Factor} (ht : term.Composed)
    (kind : n.kind = .scale factor) (indices : n.indices = term.indices)
    (children : n.children = [term]) : n.Composed := by
  refine .node (fun i known => ht.indices (indices ▸ known)) ?_ (by simpa [children] using ht)
  rw [kind]
  exact ⟨term, children, indices.symm⟩

theorem composed_contraction {indices sum : Indices} {left right n : Node} (hl : left.Composed)
    (hr : right.Composed) (ho : indices.Distinct) (hs : sum.Distinct)
    (h : contraction indices left right sum = .ok n) : n.Composed := by
  obtain ⟨agree, found, extracted, done⟩ := contraction_eq_ok hl.own hr.own h
  obtain ⟨-, contracts⟩ := contracts_of_extract hl.own hr.own hs agree extracted
  have natural : ((left.own.diff sum).merge
      ((right.own.diff sum).diff (left.own.diff sum))).Distinct :=
    (hl.own.diff _).merge ((hr.own.diff _).diff _)
  have fits := (show (Kind.contraction found).Fits (some _) [left, right] from
    ⟨_, left, right, rfl, rfl, agree.left, agree.right, contracts⟩)
  obtain ⟨current, known, ⟨-, rfl⟩ | ⟨-, ⟨k, hk, indices⟩, kind, -, -, -, children⟩⟩ :=
    reorder_cases done
  · exact .of_known rfl natural fits (by simp [ofKind, hl, hr])
  · obtain rfl := Option.some.inj known
    obtain ⟨-, distinct, dims⟩ := Indices.permute?_eq_some natural ho hk
    have operands : n.children = [left, right] := children
    refine .of_known indices distinct ?_ (by simp [operands, hl, hr])
    rw [kind, indices, operands]
    exact fits.reindex rfl (by simp) rfl (by simp) dims

theorem gemm_eq_ok {indices : Indices} {left right n : Node} {partition : Gemm.Partition}
    (h : gemm indices left right partition = .ok n) :
    left.indices = some left.own ∧ right.indices = some right.own ∧
      ∃ mapping, Gemm.ofPartition indices left.own right.own partition = .ok mapping ∧
        n = ofKind (.gemm mapping) [left, right] (some indices) := by
  simp only [gemm, bind_eq_ok, operandIndices_eq_ok, pure_eq_ok] at h
  obtain ⟨li, hl, ri, hr, mapping, mapped, rfl⟩ := h
  obtain rfl := own_of_indices hl
  obtain rfl := own_of_indices hr
  exact ⟨hl, hr, mapping, mapped, rfl⟩

theorem Constructed.composed {n : Node} (h : n.Constructed) : n.Composed := by
  induction h with
  | indexed ht done => exact (isTensor_of_indexed ht.identifier done).1.composed
  | einsum _ ih | add _ ih => exact .node (by simp [Node.einsum, Node.add, ofKind]) rfl ih
  | scale _ done ih =>
    obtain ⟨-, scaled⟩ := scale_eq_ok done
    exact composed_scaled ih scaled.kind scaled.indices scaled.children
  | indexSum _ done ih =>
    obtain ⟨known, d, hd, rfl, rfl⟩ := indexSum_eq_ok ih.own done
    exact .of_known rfl (ih.own.filter _) (fits_indexSum known hd) (by simpa [ofKind] using ih)
  | product _ _ done hl hr =>
    obtain ⟨agree, rfl⟩ := product_eq_ok hl.own hr.own done
    exact .of_known rfl (hl.own.merge (hr.own.diff _))
      ⟨_, _, _, rfl, rfl, agree.left, agree.right, contracts_product hr.own agree⟩
      (by simp [ofKind, hl, hr])
  | contraction _ _ order summed done hl hr => exact composed_contraction hl hr order summed done
  | gemm _ _ order done hl hr =>
    obtain ⟨left, right, mapping, mapped, rfl⟩ := gemm_eq_ok done
    obtain ⟨rfl, groups⟩ := Gemm.ofPartition_eq_ok order hl.own hr.own mapped
    exact .of_known rfl order ⟨_, _, _, rfl, rfl, left, right, groups⟩
      (by simp [ofKind, hl, hr])
  | assignment _ _ done ht hv =>
    obtain ⟨⟨tensor, leaf⟩, rfl⟩ := assignment_eq_ok done
    have composes := ht.composes
    rw [leaf] at composes
    obtain ⟨⟨i, known, -, -⟩, -⟩ := composes
    exact .of_known known (ht.indices known) ⟨i, _, _, tensor, known, rfl, leaf, known⟩
      (by simp [ofKind, ht, hv])

/-- What holds of tensors and of other nodes as they are made, and is kept by resolution, holds
everywhere in a tree that is built. -/
theorem Constructed.everywhere {P : Node → Prop} {n : Node} (h : n.Constructed) (stable : Stable P)
    (tensor : ∀ {t i}, t.Constructed → P (ofKind (.leaf t) [] i))
    (other : ∀ {kind children i}, kind.isLeaf = false → P (ofKind kind children i)) :
    n.Everywhere P := by
  induction h with
  | indexed made done =>
    simp only [Node.indexed, bind_eq_ok, mapError_eq_ok, pure_eq_ok] at done
    obtain ⟨i, -, rfl⟩ := done
    exact everywhere_iff.mpr ⟨tensor made, by simp [ofKind]⟩
  | einsum _ ih | add _ ih => exact everywhere_iff.mpr ⟨other rfl, ih⟩
  | scale _ done ih =>
    unfold Node.scale at done
    split at done
    · exact absurd done refuse_ne_ok
    · obtain rfl := pure_eq_ok.mp done
      exact everywhere_iff.mpr ⟨other rfl, by simpa [ofKind] using ih⟩
  | indexSum _ done ih =>
    exact stable.closed.of_combines ((Combines.operand _).indexSum done) (by simpa using ih)
  | product _ _ done hl hr =>
    exact stable.closed.of_combines ((Combines.operand _).product (.operand _) done)
      (by simp [hl, hr])
  | contraction _ _ _ _ done hl hr =>
    exact stable.closed.of_combines ((Combines.operand _).contraction (.operand _) done)
      (by simp [hl, hr])
  | gemm _ _ _ done hl hr =>
    obtain ⟨-, -, mapping, -, rfl⟩ := gemm_eq_ok done
    exact everywhere_iff.mpr ⟨other rfl, by simp [ofKind, hl, hr]⟩
  | assignment _ _ done ht hv =>
    obtain ⟨-, rfl⟩ := assignment_eq_ok done
    exact everywhere_iff.mpr ⟨other rfl, by simp [ofKind, ht, hv]⟩

/-- Every tensor of a tree that is built was made. -/
theorem Constructed.tensors {n : Node} (h : n.Constructed) :
    n.Everywhere fun x => ∀ t, x.kind = .leaf t → t.Constructed := by
  refine h.everywhere (ofKind_tensors _).stable ?_ ?_
  · rintro t i made _ ⟨⟩
    exact made
  · rintro kind children i notLeaf t rfl
    cases notLeaf

/-! ### Resolution -/

theorem Composed.fits {n : Node} (h : n.Composed) (operation : n.kind.isOperation = true) :
    n.kind.Fits n.indices n.children := by
  have composes := h.composes
  cases kind : n.kind with
  | indexSum | product | contraction | gemm =>
    rw [kind] at composes
    exact composes
  | leaf | einsum | add | scale | assign =>
    rw [kind] at operation
    cases operation

theorem Composed.leaf_wellFormed {n : Node} {tensor : Tensor} (h : n.Composed)
    (kind : n.kind = .leaf tensor) : n.WellFormed := by
  have composes := h.composes
  rw [kind] at composes
  refine .node (fun i known => h.indices known) ?_ (by simp [composes.2])
  rw [kind]
  exact composes.1

def ResolvesFormed (n : Node) : Prop :=
  ∀ (target : Option Indices) (m : Node), (∀ t, target = some t → t.Distinct) →
    n.resolveTo target = .ok m → m.WellFormed ∧ ∀ t, target = some t → m.indices = some t

theorem Composed.resolveTo {n : Node} (hn : n.Composed) : n.ResolvesFormed := by
  induction n using Node.induction with
  | node kind indices pattern layout prefetch children ih =>
  intro target m ht h
  obtain ⟨r, resolved, brought⟩ := resolveTo_cases h
  have composes := hn.composes
  have each (c : Node) (hc : c ∈ children) := ih c hc (hn.children c hc)
  have whole : r.WellFormed := by
    cases kind with
    | leaf tensor =>
      obtain rfl := resolved
      exact hn.leaf_wellFormed rfl
    | einsum =>
      obtain ⟨ds, factors, products⟩ := resolved
      have formed : ∀ d ∈ ds, d.WellFormed := by
        intro d hd
        obtain ⟨c, hc, done⟩ := exists_of_forall₂_right factors hd
        exact (each c hc none d (by simp) done).1
      obtain ⟨_, _, -, -, spec, -⟩ := binarize_spec (R := Nat) 0 0 formed ht products
      exact spec.wellFormed
    | add =>
      obtain ⟨ds, order, summands, rfl⟩ := resolved
      have start := distinct_sumOrder ht fun c hc i known => (hn.children c hc).indices known
      obtain ⟨-, distinct, formed⟩ :=
        resolveSummands_aligned (fun formed _ known => formed.indices known) each start summands
      exact .node distinct (fun d hd => (formed d hd).2) fun d hd => (formed d hd).1
    | scale =>
      obtain ⟨term, d, last, done, rfl⟩ := resolved
      obtain ⟨formed, -⟩ := each term (List.mem_of_getLast? last) target d ht done
      exact .node (fun i known => formed.indices known) ⟨d, rfl, rfl⟩ (by simpa using formed)
    | indexSum | product | contraction | gemm =>
      obtain ⟨ds, operands, rfl⟩ := resolved
      have fits := hn.fits rfl
      have known := fits.operands rfl
      have formed : List.Forall₂ (fun c d => d.WellFormed ∧ d.indices = c.indices) children ds := by
        refine forall₂_imp_of_mem operands fun c hc d done => ?_
        obtain ⟨formed, kept⟩ :=
          each c hc c.indices d (fun t same => (hn.children c hc).indices same) done
        exact ⟨formed, (kept c.own (known c hc)).trans (known c hc).symm⟩
      refine .node (fun i known => hn.indices known)
        (fits.of_children (formed.imp fun _ _ spec => spec.2) (by simp)) fun d hd => ?_
      obtain ⟨c, -, spec⟩ := exists_of_forall₂_right formed hd
      exact spec.1
    | assign =>
      obtain ⟨leaf, value, v, rfl, done, rfl⟩ := resolved
      obtain ⟨i, _, _, tensor, known, ⟨⟩, isLeaf, target⟩ := composes
      have hl := hn.children leaf (by simp)
      obtain ⟨formed, kept⟩ :=
        each value (by simp) leaf.indices v (fun t same => hl.indices same) done
      exact .of_known known (hn.indices known)
        ⟨i, leaf, v, tensor, known, rfl, isLeaf, target, kept i target⟩
        (by simpa using ⟨hl.leaf_wellFormed isLeaf, formed⟩)
  cases target with
  | none =>
    obtain rfl := pure_eq_ok.mp brought
    exact ⟨whole, by simp⟩
  | some t =>
    obtain ⟨reordered, known, -⟩ := bring_spec (R := Nat) 0 0 whole (ht t rfl) brought
    refine ⟨reordered.wellFormed, fun t' same => ?_⟩
    cases same
    exact known

end Node

end TensorKernel
