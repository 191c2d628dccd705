import TensorKernel.Proofs.Tree.Shape

/-!
Operands of products. A product and a contraction are refused where the operands disagree on the
extent of a shared index, so that the result always has a pattern of its shape. A node that is made
for matrix products is checked group by group: the operands may disagree on an index that is looped
over, and the result may have an index of its own or with an extent of its own.

* `Spanned`: the operands agree, and each index of the result is one of theirs;
* `findsShape_iff`: this is what it takes for a pattern of the right shape;
* `products_shaped`: what the three constructors check of it.
-/

namespace TensorKernel

/-- The operands agree on the extents of shared indices, and the result has no others. -/
structure Indices.Spanned (c a b : Indices) : Prop where
  agree : ∀ d ∈ a.dims, ∀ e ∈ b.dims, d.name = e.name → d = e
  kept : ∀ d ∈ c.dims, d ∈ a.dims ∨ d ∈ b.dims

theorem Contracts.spanned {sum i : Indices} {left right : Node} (h : Contracts sum i left right) :
    i.Spanned left.own right.own :=
  ⟨h.agree, fun d hd => ((h.kept d).mp hd).1⟩

/-! ### Patterns of products -/

namespace Pattern

/-- Where no extent is inconsistent, each name has the extent that it is found with. -/
theorem lookup_of_consistent {extents : Assignment} (h : inconsistent? extents = none)
    {name : Char} {extent : Nat} (mem : (name, extent) ∈ extents) :
    extents.lookup name = some extent := by
  rw [inconsistent?, Option.map_eq_none_iff, List.find?_eq_none] at h
  simpa using h _ mem

/-- A product has a pattern of the given shape only if the operands span the result. -/
theorem spanned_of_einsum {l r o : Indices} {a b p : Pattern} (ha : a.shape = l.shape)
    (hb : b.shape = r.shape) (found : einsum (Node.productDescriptor l r o) a b = .ok p)
    (shape : p.shape = o.shape) : o.Spanned l r := by
  obtain ⟨d, parsed, left, right, consistent, extents, -⟩ := einsum_eq_ok found
  obtain rfl : d = ⟨l.names, r.names, o.names⟩ := by
    refine Descriptor.eq_of_parse_render parsed ?_ ?_
    · rw [left, ha, Indices.length_shape, Indices.length_names]
    · rw [right, hb, Indices.length_shape, Indices.length_names]
  dsimp only at consistent extents
  rw [ha, hb, Indices.zip_names_shape, Indices.zip_names_shape] at consistent extents
  have listed {d : Dim} : (d.name, d.extent) ∈ l.dims.map (fun d => (d.name, d.extent)) ++
      r.dims.map (fun d => (d.name, d.extent)) ↔ d ∈ l.dims ∨ d ∈ r.dims := by
    simp only [List.mem_append, List.mem_map]
    constructor
    · rintro (⟨e, he, same⟩ | ⟨e, he, same⟩) <;> obtain rfl : e = d := by
        cases e
        cases d
        simpa using same
      · exact .inl he
      · exact .inr he
    · exact Or.imp (fun h => ⟨d, h, rfl⟩) fun h => ⟨d, h, rfl⟩
  constructor
  · intro d hd e he name
    have first := lookup_of_consistent consistent (listed.mpr (.inl hd))
    have second := lookup_of_consistent consistent (listed.mpr (.inr he))
    rw [name, second, Option.some.injEq] at first
    cases d
    cases e
    simp_all
  · intro d hd
    rw [shape, mapM_eq_some, Indices.names, Indices.shape, List.forall₂_map_left_iff,
      List.forall₂_map_right_iff, List.forall₂_same] at extents
    exact listed.mp (mem_of_lookup (extents d hd))

end Pattern

namespace Node

/-- The children of the node give it a pattern of the shape of its indices. -/
def FindsShape (n : Node) : Prop :=
  ∃ p, n.patternFromChildren = .ok p ∧ p.shape = n.own.shape

def carrying (n : Node) (patterns : List Pattern) : Node :=
  { n with children := List.zipWith (fun c p => { c with pattern := some p }) n.children patterns }

variable {left right n : Node}

structure Multiplies (left right n : Node) : Prop where
  kind : n.kind.multiplies = true
  children : n.children = [left, right]
  known : n.indices = some n.own
  left : left.indices = some left.own
  right : right.indices = some right.own

/-- A node that multiplies has a pattern of its shape exactly if its operands span its indices. -/
theorem findsShape_iff {a b : Pattern} (made : Multiplies left right n) (hl : left.own.Distinct)
    (hr : right.own.Distinct)
    (readable : ∀ output, Descriptor.Readable ⟨left.own.names, right.own.names, output⟩)
    (ha : a.shape = left.own.shape) (hb : b.shape = right.own.shape) :
    (n.carrying [a, b]).FindsShape ↔ n.own.Spanned left.own right.own := by
  have children : (n.carrying [a, b]).children =
      [{ left with pattern := some a }, { right with pattern := some b }] := by
    rw [carrying, made.children]
    rfl
  have product {p : Pattern} : (n.carrying [a, b]).patternFromChildren = .ok p ↔
      Pattern.einsum (productDescriptor left.own right.own n.own) a b = .ok p := by
    rw [patternFromChildren_product (x := n.carrying [a, b]) made.kind children made.left made.right
      made.known]
    constructor
    · rintro ⟨_, _, ⟨⟩, ⟨⟩, found⟩
      exact found
    · exact fun found => ⟨a, b, rfl, rfl, found⟩
  constructor
  · rintro ⟨p, found, shape⟩
    exact Pattern.spanned_of_einsum ha hb (product.mp found) shape
  · intro spanned
    obtain ⟨p, found, shape⟩ := einsum_ok hl hr spanned.agree spanned.kept ha hb
      (readable n.own.names)
    exact ⟨p, product.mpr found, shape⟩

/-! ### The constructors -/

theorem multiplies_of_product (hl : left.own.Distinct) (hr : right.own.Distinct)
    (h : left.product right = .ok n) :
    Multiplies left right n ∧ n.own.Spanned left.own right.own := by
  obtain ⟨agree, rfl⟩ := product_eq_ok hl hr h
  exact ⟨⟨rfl, rfl, rfl, agree.left, agree.right⟩, (contracts_product hr agree).spanned⟩

theorem multiplies_of_contraction {indices sum : Indices} (hl : left.own.Distinct)
    (hr : right.own.Distinct) (order : indices.Distinct) (summed : sum.Distinct)
    (h : contraction indices left right sum = .ok n) :
    Multiplies left right n ∧ n.own.Spanned left.own right.own := by
  obtain ⟨agree, found, extracted, done⟩ := contraction_eq_ok hl hr h
  have contracts := (contracts_of_extract hl hr summed agree extracted).2
  have natural : ((left.own.diff sum).merge
      ((right.own.diff sum).diff (left.own.diff sum))).Distinct :=
    (hl.diff _).merge ((hr.diff _).diff _)
  obtain ⟨current, known, ⟨-, rfl⟩ | ⟨-, ⟨k, hk, indices⟩, kind, -, -, -, children⟩⟩ :=
    reorder_cases done
  · exact ⟨⟨rfl, rfl, rfl, agree.left, agree.right⟩, contracts.spanned⟩
  · obtain rfl := Option.some.inj known
    obtain ⟨-, -, dims⟩ := Indices.permute?_eq_some natural order hk
    obtain rfl := own_of_indices indices
    refine ⟨⟨by rw [kind]; rfl, children, indices, agree.left, agree.right⟩, agree.extents, ?_⟩
    exact fun d hd => contracts.spanned.kept d ((dims d).mp hd)

/-- Products and contractions find a pattern of their shape whenever they are accepted. Of a node
that is made for matrix products only the groups are checked, and whether it finds one depends on
what was not: on the agreement of the operands and on the origin of the indices of the result. -/
theorem products_shaped {a b : Pattern} (hl : left.own.Distinct) (hr : right.own.Distinct)
    (readable : ∀ output, Descriptor.Readable ⟨left.own.names, right.own.names, output⟩)
    (ha : a.shape = left.own.shape) (hb : b.shape = right.own.shape) :
    (∀ n, left.product right = .ok n → (n.carrying [a, b]).FindsShape) ∧
    (∀ indices sum n, indices.Distinct → sum.Distinct →
      contraction indices left right sum = .ok n → (n.carrying [a, b]).FindsShape) ∧
    ∀ indices partition n, indices.Distinct → gemm indices left right partition = .ok n →
      partition.Groups indices left.own right.own ∧ partition.Apart left.own right.own ∧
        ((n.carrying [a, b]).FindsShape ↔ indices.Spanned left.own right.own) := by
  have finds {n : Node} (made : Multiplies left right n) :=
    findsShape_iff made hl hr readable ha hb
  refine ⟨fun n h => ?_, fun indices sum n order summed h => ?_,
    fun indices partition n order h => ?_⟩
  · obtain ⟨made, spanned⟩ := multiplies_of_product hl hr h
    exact (finds made).mpr spanned
  · obtain ⟨made, spanned⟩ := multiplies_of_contraction hl hr order summed h
    exact (finds made).mpr spanned
  · obtain ⟨knownL, knownR, mapping, mapped, rfl⟩ := gemm_eq_ok h
    obtain ⟨rfl, groups⟩ := Gemm.ofPartition_eq_ok order hl hr mapped
    exact ⟨groups, Gemm.apart_of_ofPartition mapped, finds ⟨rfl, rfl, rfl, knownL, knownR⟩⟩

/-- A node made for the matrix products `C_ij.. = A_ik.. B_kj..` of a 4 × 3 and a 3 × 5 matrix, with
further indices of the result and of both operands. -/
def matrixProducts (result left right : List Dim) : Result Node :=
  gemm ⟨⟨'i', 4⟩ :: ⟨'j', 5⟩ :: result⟩ (dense "A" (⟨'i', 4⟩ :: ⟨'k', 3⟩ :: left))
    (dense "B" (⟨'k', 3⟩ :: ⟨'j', 5⟩ :: right)) ⟨⟨[⟨'i', 4⟩]⟩, ⟨[⟨'j', 5⟩]⟩, ⟨[⟨'k', 3⟩]⟩⟩

/-- A batch of products, of which each has its own two matrices. -/
theorem products_shaped_batched :
    let left := dense "A" [⟨'i', 4⟩, ⟨'k', 3⟩, ⟨'l', 2⟩]
    let right := dense "B" [⟨'k', 3⟩, ⟨'j', 5⟩, ⟨'l', 2⟩]
    left.own.Distinct ∧ right.own.Distinct ∧
      (∀ output, Descriptor.Readable ⟨left.own.names, right.own.names, output⟩) ∧
      left.own.shape = [4, 3, 2] ∧ right.own.shape = [3, 5, 2] ∧
      ∃ n, matrixProducts [⟨'l', 2⟩] [⟨'l', 2⟩] [⟨'l', 2⟩] = .ok n ∧
        (n.carrying [.dense [4, 3, 2], .dense [3, 5, 2]]).FindsShape := by
  intro left right
  have readable (output : List Char) :
      Descriptor.Readable ⟨left.own.names, right.own.names, output⟩ :=
    show Descriptor.Readable ⟨left.own.names, right.own.names, []⟩ by decide
  have distinctL : left.own.Distinct := by decide
  have distinctR : right.own.Distinct := by decide
  obtain ⟨n, made⟩ : ∃ n, matrixProducts [⟨'l', 2⟩] [⟨'l', 2⟩] [⟨'l', 2⟩] = .ok n := ⟨_, rfl⟩
  have shaped := products_shaped (a := .dense [4, 3, 2]) (b := .dense [3, 5, 2]) distinctL distinctR
    readable rfl rfl
  obtain ⟨-, -, finds⟩ := shaped.2.2 _ _ n (by decide) made
  exact ⟨distinctL, distinctR, readable, rfl, rfl, n, made, finds.mpr ⟨by decide, by decide⟩⟩

/-- Operands that disagree on an index that is looped over, a result with an index of its own, and
one with an extent of its own are accepted: the first two have no pattern, the last one has a pattern
of another shape. -/
theorem matrixProducts_not_shaped :
    (∃ n, matrixProducts [] [⟨'l', 2⟩] [⟨'l', 7⟩] = .ok n ∧
      ¬(n.carrying [.dense [4, 3, 2], .dense [3, 5, 7]]).FindsShape) ∧
    (∃ n, matrixProducts [⟨'l', 2⟩] [] [] = .ok n ∧
      ¬(n.carrying [.dense [4, 3], .dense [3, 5]]).FindsShape) ∧
    ∃ n, matrixProducts [⟨'l', 7⟩] [⟨'l', 2⟩] [] = .ok n ∧ n.own.shape = [4, 5, 7] ∧
      (n.carrying [.dense [4, 3, 2], .dense [3, 5]]).patternFromChildren = .ok (.dense [4, 5, 2]) ∧
      ¬(n.carrying [.dense [4, 3, 2], .dense [3, 5]]).FindsShape := by
  have refused {n : Node} (cause : Error) (h : n.patternFromChildren = .error cause) :
      ¬n.FindsShape := by
    rintro ⟨p, found, -⟩
    rw [h] at found
    cases found
  refine ⟨⟨_, rfl, refused _ rfl⟩, ⟨_, rfl, refused _ rfl⟩, _, rfl, rfl, rfl, ?_⟩
  rintro ⟨p, found, shape⟩
  obtain rfl : Pattern.dense [4, 5, 2] = p := Except.ok.inj found
  cases shape

end Node

end TensorKernel
