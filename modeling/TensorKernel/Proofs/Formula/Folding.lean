import TensorKernel.Proofs.Formula.Basic
import TensorKernel.Proofs.Tree.Resolution

/-!
The trees that the operations of the user build mean what the formulas mean. Operations fold: a
product takes the factors of its operands in and moves their scalar factors outside, a sum takes the
operands of sums in.

* `fold_spec`: the children of a folded node;
* `folds_times`, `folds_plus`, `folds_scale`: one operation;
* `folds_build`: a whole formula.
-/

namespace TensorKernel

namespace Node

/-- What holds of a node, and of its children if they are taken in, holds of what it is folded to. -/
theorem of_mem_flattened {P : Node → Prop} {n c : Node} {kind : Kind} (root : P n)
    (children : n.kind = kind → ∀ x ∈ n.children, P x) (mem : c ∈ n.flattened kind) : P c := by
  unfold flattened at mem
  split at mem
  · next same => exact children same c mem
  · exact List.mem_singleton.mp mem ▸ root

theorem Expression.children {n : Node} (h : n.Expression) : ∀ c ∈ n.children, c.Expression := by
  cases h with
  | tensor leaf => simp [leaf.children]
  | product _ _ factors => exact factors
  | sum _ _ summands => exact summands
  | scaled _ children _ term => simpa [children] using term

/-- Products and sums have no indices of their own before they are resolved. -/
theorem Expression.indices_eq_none {n : Node} (h : n.Expression)
    (kind : n.kind = .einsum ∨ n.kind = .add) : n.indices = none := by
  cases h with
  | tensor leaf => simp [leaf.kind] at kind
  | product _ indices _ => exact indices
  | sum _ indices _ => exact indices
  | scaled scale => simp [scale] at kind

/-- Folding gives a node of the kind. -/
theorem kind_fold (kind : Kind) (left right : Node) : (fold kind left right).kind = kind := by
  unfold fold
  split
  · assumption
  · split
    · assumption
    · rfl

/-- A folded node has the operands of both sides. -/
theorem children_fold (kind : Kind) (left right : Node) :
    (fold kind left right).children = left.flattened kind ++ right.flattened kind := by
  unfold fold
  split
  · rfl
  · split <;> rfl

theorem fold_spec {kind : Kind} {left right : Node} (hk : kind = .einsum ∨ kind = .add)
    (hl : left.Expression) (hr : right.Expression) :
    (fold kind left right).kind = kind ∧ (fold kind left right).indices = none ∧
      (fold kind left right).children = left.flattened kind ++ right.flattened kind := by
  refine ⟨kind_fold kind left right, ?_, children_fold kind left right⟩
  unfold fold
  split
  · next same => exact hl.indices_eq_none (same ▸ hk)
  · split
    · next same => exact hr.indices_eq_none (same ▸ hk)
    · rfl

theorem expression_fold {kind : Kind} {left right : Node} (hk : kind = .einsum ∨ kind = .add)
    (hl : left.Expression) (hr : right.Expression) : (fold kind left right).Expression := by
  obtain ⟨same, indices, children⟩ := fold_spec hk hl hr
  have operands : ∀ c ∈ (fold kind left right).children, c.Expression := by
    intro c hc
    rw [children, List.mem_append] at hc
    exact hc.elim (of_mem_flattened hl fun _ => hl.children)
      (of_mem_flattened hr fun _ => hr.children)
  rcases hk with rfl | rfl
  · exact .product same indices operands
  · exact .sum same indices operands

theorem Scaled.expression {factor : Factor} {term n : Node} (h : Scaled factor term n)
    (ht : term.Expression) : n.Expression :=
  .scaled h.kind h.children h.indices ht

theorem Scaled.isScale {factor : Factor} {term n : Node} (h : Scaled factor term n) :
    n.kind.isScale = true := by
  rw [h.kind]
  rfl

theorem Scaled.term_expression {factor : Factor} {term n : Node} (h : Scaled factor term n)
    (hn : n.Expression) : term.Expression := by
  have kind := h.kind
  cases hn with
  | tensor leaf => simp [leaf.kind] at kind
  | product other _ _ | sum other _ _ => simp [other] at kind
  | scaled _ children _ expression =>
    obtain rfl : _ = term := by simpa [h.children] using children.symm
    exact expression

theorem Scaled.hasFixedOrder_eq {factor : Factor} {term n : Node} (h : Scaled factor term n) :
    n.hasFixedOrder = term.hasFixedOrder :=
  hasFixedOrder_scale h.isScale h.children

theorem hasFixedOrder_einsum {n : Node} (h : n.kind = .einsum) : n.hasFixedOrder = false := by
  obtain ⟨kind, _, _, _, _, _⟩ := n
  obtain rfl := h
  simp only [hasFixedOrder]

/-- What a sum takes in has a fixed order somewhere if the whole has. -/
theorem any_flattened_hasFixedOrder (n : Node) :
    (n.flattened .add).any hasFixedOrder = n.hasFixedOrder := by
  unfold flattened
  split
  · next same => exact (hasFixedOrder_add same).symm
  · rw [List.any_cons, List.any_nil, Bool.or_false]

theorem mapUnderFactors_of_unscaled {f : Node → Node} {n : Node} (h : n.kind.isScale = false) :
    n.mapUnderFactors f = .ok (f n) := by
  obtain ⟨kind, _, _, _, _, _⟩ := n
  cases kind with
  | scale => cases h
  | _ =>
    simp only [mapUnderFactors]
    rfl

/-- What is applied under a factor stays under it. -/
theorem scaled_of_mapUnderFactors {f : Node → Node} {factor : Factor} {term n m : Node}
    (scaled : Scaled factor term n) (h : n.mapUnderFactors f = .ok m) :
    ∃ t, term.mapUnderFactors f = .ok t ∧ Scaled factor t m := by
  obtain ⟨kind, _, _, _, _, _⟩ := n
  obtain rfl := scaled.kind
  obtain rfl := scaled.children
  simp only [mapUnderFactors, mapLastUnderFactors, bind_eq_ok, pure_eq_ok] at h
  obtain ⟨t, mapped, rfl⟩ := h
  exact ⟨t, mapped, rfl, rfl, rfl⟩

theorem mapUnderFactors_of_scaled {f : Node → Node} {factor : Factor} {term n m : Node}
    (scaled : Scaled factor term n) (unscaled : term.kind.isScale = false)
    (h : n.mapUnderFactors f = .ok m) : Scaled factor (f term) m := by
  obtain ⟨t, mapped, scaled⟩ := scaled_of_mapUnderFactors scaled h
  rw [mapUnderFactors_of_unscaled unscaled] at mapped
  exact Except.ok.inj mapped ▸ scaled

end Node

namespace Formula

section
variable {R : Type} [CommRing R] (scalars : Scalars R) (σ : Store (Entry → R))

/-! ### What a tree has in common with its formula -/

structure Means (f : Formula) (n : Node) : Prop where
  expression : n.Expression
  free : n.free = some f.free
  meaning : ∀ q, n.meaning scalars.value σ q = f.meaning scalars σ q
  fixed : n.hasFixedOrder = f.hasFixedOrder
  ofTensor : n.indices = f.ofTensor?
  leaf : n.kind.isLeaf = true → ∃ t names, f = .tensor t names

structure Factors (f : Formula) (n : Node) : Prop where
  indices : (n.flattened .einsum).map (fun c => c.free.getD .empty) = f.factorIndices
  meanings : (n.flattened .einsum).map (Node.meaning scalars.value σ none) =
    f.factorMeanings scalars σ

/-- The scalar factor of a formula stands before a tree, or is one. -/
inductive Scales (f : Formula) (n : Node) : Prop
  | plain (unscaled : n.kind.isScale = false) (one : f.coefficient scalars = 1)
      (factors : Factors scalars σ f n)
  | scaled {factor : Factor} {term : Node} (scaled : Node.Scaled factor term n)
      (unscaled : term.kind.isScale = false)
      (value : f.coefficient scalars = scalars.value factor) (factors : Factors scalars σ f term)

structure Summands (f : Formula) (n : Node) : Prop where
  fixedOrder : ((n.flattened .add).find? Node.hasFixedOrder).map Node.indices = f.fixedOrder?
  leading : f.fixedOrder?.join = none → (n.flattened .add).findSome? Node.free = some f.free
  sum : ∀ i, ((n.flattened .add).map (Node.meaning scalars.value σ (some i))).sum =
    f.meaning scalars σ (some i)

/-- A tree is what a formula is, on its own and as an operand of a product or a sum. -/
structure Folds (f : Formula) (n : Node) : Prop where
  means : Means scalars σ f n
  scales : Scales scalars σ f n
  summands : Summands scalars σ f n

/-- A tree that is no sum is one operand of a sum. -/
theorem Means.summands {f : Formula} {n : Node} (h : Means scalars σ f n)
    (single : f.summands = [f]) (kind : n.kind ≠ .add) : Summands scalars σ f n := by
  have flat : n.flattened .add = [n] := if_neg kind
  constructor
  · rw [flat, fixedOrder?, single, List.find?_singleton, List.find?_singleton, h.fixed]
    cases f.hasFixedOrder <;> simp [h.ofTensor]
  · intro _
    simp [flat, h.free]
  · intro i
    simp [flat, h.meaning]

/-- A tree that is no product is one factor of a product. -/
theorem Means.factors {f : Formula} {n : Node} (h : Means scalars σ f n) (kind : n.kind ≠ .einsum)
    (indices : f.factorIndices = [f.free])
    (meanings : f.factorMeanings scalars σ = [f.meaning scalars σ none]) :
    Factors scalars σ f n := by
  have flat : n.flattened .einsum = [n] := if_neg kind
  constructor
  · rw [flat, List.map_singleton, h.free, indices, Option.getD_some]
  · rw [flat, List.map_singleton, h.meaning, meanings]

theorem folds_tensor {t : Tensor} {names : List Char} {n : Node}
    (valid : isIdentifier t.base = true) (h : Node.indexed t names = .ok n) :
    Folds scalars σ (.tensor t names) n := by
  obtain ⟨leaf, order⟩ := Node.isTensor_of_indexed valid h
  have kind := leaf.kind
  have means : Means scalars σ (.tensor t names) n := by
    refine ⟨.tensor leaf, Node.free_tensor leaf, fun q => ?_, ?_, leaf.indices,
      fun _ => ⟨t, names, rfl⟩⟩
    · rw [Node.meaning_tensor _ _ leaf]
      funext p
      rw [Indices.entryAt, order, Formula.meaning]
    · obtain ⟨_, _, _, _, _, _⟩ := n
      obtain rfl := kind
      simp only [Node.hasFixedOrder]
      rfl
  have unscaled : n.kind.isScale = false := by rw [kind]; rfl
  refine ⟨means, .plain unscaled rfl (means.factors scalars σ (by simp [kind]) rfl ?_),
    means.summands scalars σ rfl (by simp [kind])⟩
  rw [factorMeanings, Formula.meaning]

/-! ### Products -/

/-- The product of two trees that are not scaled has the factors of both. -/
structure IsProduct (left right : Formula) (n : Node) : Prop where
  kind : n.kind = .einsum
  indices : n.indices = none
  expression : n.Expression
  free : n.free = some (times left right).free
  factors : Factors scalars σ (times left right) n
  meaning : ∀ q, (times left right).meaning scalars σ q = fun p =>
    left.coefficient scalars * right.coefficient scalars * n.meaning scalars.value σ q p

theorem isProduct_timesNode {left right : Formula} {l r : Node} (hl : Factors scalars σ left l)
    (hr : Factors scalars σ right r) (el : l.Expression) (er : r.Expression) :
    IsProduct scalars σ left right (Node.timesNode l r) := by
  have spec : (Node.timesNode l r).kind = .einsum ∧ (Node.timesNode l r).indices = none ∧
      (Node.timesNode l r).children = l.flattened .einsum ++ r.flattened .einsum :=
    Node.fold_spec (.inl rfl) el er
  obtain ⟨kind, indices, children⟩ := spec
  have flat : (Node.timesNode l r).flattened .einsum = (Node.timesNode l r).children := if_pos kind
  have frees : (Node.timesNode l r).children.map (fun c => c.free.getD .empty) =
      left.factorIndices ++ right.factorIndices := by
    rw [children, List.map_append, hl.indices, hr.indices]
  have meanings : (Node.timesNode l r).children.map (Node.meaning scalars.value σ none) =
      left.factorMeanings scalars σ ++ right.factorMeanings scalars σ := by
    rw [children, List.map_append, hl.meanings, hr.meanings]
  refine ⟨kind, indices, Node.expression_fold (.inl rfl) el er, ?_, ⟨?_, ?_⟩, fun q => ?_⟩
  · rw [Node.free_product kind, frees, Formula.free]
  · rw [flat, frees, factorIndices]
  · rw [flat, meanings, factorMeanings]
  · rw [Node.meaning_product _ _ kind, frees, meanings, Formula.meaning]

/-- A product without a factor on its outside. -/
theorem IsProduct.folds {left right : Formula} {n : Node} (h : IsProduct scalars σ left right n)
    (one : left.coefficient scalars * right.coefficient scalars = 1) :
    Folds scalars σ (times left right) n := by
  have means : Means scalars σ (times left right) n := by
    refine ⟨h.expression, h.free, fun q => ?_, Node.hasFixedOrder_einsum h.kind, h.indices, ?_⟩
    · rw [h.meaning, one]
      simp
    · simp [h.kind, Kind.isLeaf]
  have unscaled : n.kind.isScale = false := by rw [h.kind]; rfl
  exact ⟨means, .plain unscaled one h.factors, means.summands scalars σ rfl (by simp [h.kind])⟩

/-- A product with a factor on its outside. -/
theorem IsProduct.folds_scaled {left right : Formula} {product n : Node} {factor : Factor}
    (h : IsProduct scalars σ left right product) (scaled : Node.Scaled factor product n)
    (value : left.coefficient scalars * right.coefficient scalars = scalars.value factor) :
    Folds scalars σ (times left right) n := by
  have means : Means scalars σ (times left right) n := by
    refine ⟨scaled.expression h.expression, ?_, fun q => ?_, ?_, scaled.indices.trans h.indices, ?_⟩
    · rw [Node.free_scaled scaled.kind scaled.children, h.free]
    · rw [h.meaning, value, Node.meaning_scaled _ _ scaled.kind scaled.children]
    · rw [scaled.hasFixedOrder_eq, Node.hasFixedOrder_einsum h.kind]
      rfl
    · simp [scaled.kind, Kind.isLeaf]
  have unscaled : product.kind.isScale = false := by rw [h.kind]; rfl
  exact ⟨means, .scaled scaled unscaled value h.factors,
    means.summands scalars σ rfl (by simp [scaled.kind])⟩

theorem folds_times {left right : Formula} {l r n : Node} (hl : Folds scalars σ left l)
    (hr : Folds scalars σ right r) (h : l.times (.node r) = .ok n) :
    Folds scalars σ (times left right) n := by
  have el := hl.means.expression
  have er := hr.means.expression
  simp only [Node.times] at h
  cases hl.scales with
  | plain plain one factors =>
    rw [plain] at h
    simp only [Bool.false_eq_true, if_false] at h
    cases hr.scales with
    | plain plain' one' factors' =>
      rw [Node.mapUnderFactors_of_unscaled plain', Except.ok.injEq] at h
      have product := isProduct_timesNode scalars σ factors factors' el er
      exact h ▸ product.folds scalars σ (by rw [one, one', one_mul])
    | scaled scaled plain' value factors' =>
      have product := isProduct_timesNode scalars σ factors factors' el (scaled.term_expression er)
      have outside := Node.mapUnderFactors_of_scaled scaled plain' h
      exact product.folds_scaled scalars σ outside (by rw [one, value, one_mul])
  | scaled scaled plain value factors =>
    rw [scaled.isScale] at h
    simp only [if_true] at h
    cases hr.scales with
    | plain plain' one factors' =>
      rw [plain'] at h
      simp only [Bool.false_eq_true, if_false] at h
      have product := isProduct_timesNode scalars σ factors factors' (scaled.term_expression el) er
      have outside := Node.mapUnderFactors_of_scaled scaled plain h
      exact product.folds_scaled scalars σ outside (by rw [one, value, mul_one])
    | scaled scaled' _ _ _ =>
      rw [scaled'.isScale] at h
      exact absurd h refuse_ne_ok

/-! ### Sums -/

theorem fixedOrder?_plus (left right : Formula) :
    (plus left right).fixedOrder? = left.fixedOrder?.or right.fixedOrder? := by
  simp only [fixedOrder?, summands, List.find?_append, Option.map_or]

/-- A sum has the operands of both sides. -/
theorem summands_fold {left right : Formula} {l r n : Node} (hl : Summands scalars σ left l)
    (hr : Summands scalars σ right r) (kind : n.kind = .add)
    (children : n.children = l.flattened .add ++ r.flattened .add) :
    Summands scalars σ (plus left right) n := by
  have flat : n.flattened .add = l.flattened .add ++ r.flattened .add :=
    (if_pos kind).trans children
  constructor
  · rw [flat, List.find?_append, Option.map_or, hl.fixedOrder, hr.fixedOrder, fixedOrder?_plus]
  · intro unknown
    have first : left.fixedOrder?.join = none := by
      rw [fixedOrder?_plus] at unknown
      cases known : left.fixedOrder? with
      | none => rfl
      | some i => simpa [known] using unknown
    rw [flat, List.findSome?_append, hl.leading first, Option.some_or, Formula.free, unknown,
      Option.getD_none]
  · intro i
    rw [flat, List.map_append, List.sum_append, hl.sum, hr.sum, Formula.meaning]
    rfl

theorem means_fold {left right : Formula} {l r n : Node} (hl : Means scalars σ left l)
    (hr : Means scalars σ right r) (kind : n.kind = .add) (indices : n.indices = none)
    (children : n.children = l.flattened .add ++ r.flattened .add) (expression : n.Expression)
    (operands : Summands scalars σ (plus left right) n) : Means scalars σ (plus left right) n := by
  have flat : n.flattened .add = n.children := if_pos kind
  obtain ⟨order, leading, sum⟩ := operands
  rw [flat] at order leading
  have free : n.free = some (plus left right).free := by
    have known : Node.sumOrder none n.children = (plus left right).fixedOrder?.join := by
      rw [← order, Node.sumOrder]
      cases n.children.find? Node.hasFixedOrder <;> rfl
    rw [Node.free_sum kind, known]
    cases first : (plus left right).fixedOrder?.join with
    | some i => rw [Formula.free, first, Option.some_or, Option.getD_some]
    | none => rw [leading first, Option.none_or]
  refine ⟨expression, free, fun q => ?_, ?_, indices, by simp [kind, Kind.isLeaf]⟩
  · rw [Node.meaning_sum _ _ kind, free, ← flat]
    cases q with
    | some i => exact sum i
    | none =>
      rw [Option.none_or, sum, Formula.meaning, Formula.meaning]
      rfl
  · rw [Node.hasFixedOrder_add kind, children, List.any_append, Node.any_flattened_hasFixedOrder,
      Node.any_flattened_hasFixedOrder, hl.fixed, hr.fixed]
    rfl

theorem folds_plus {left right : Formula} {l r n : Node} (hl : Folds scalars σ left l)
    (hr : Folds scalars σ right r) (h : l.plus (.node r) = .ok n) :
    Folds scalars σ (plus left right) n := by
  have el := hl.means.expression
  have er := hr.means.expression
  obtain rfl : Node.fold .add l r = n := pure_eq_ok.mp h
  obtain ⟨kind, indices, children⟩ := Node.fold_spec (.inr rfl) el er
  have operands := summands_fold scalars σ hl.summands hr.summands kind children
  have means := means_fold scalars σ hl.means hr.means kind indices children
    (Node.expression_fold (.inr rfl) el er) operands
  have unscaled : (Node.fold .add l r).kind.isScale = false := by rw [kind]; rfl
  refine ⟨means, .plain unscaled rfl (means.factors scalars σ (by simp [kind]) rfl ?_), operands⟩
  rw [factorMeanings, Formula.meaning]
  rfl

/-! ### Scalar factors -/

/-- A factor before a term that has none. -/
theorem folds_scale {factor : Factor} {term : Formula} {t n : Node}
    (ht : Folds scalars σ term t) (h : Node.scale factor t = .ok n) :
    Folds scalars σ (scale factor term) n := by
  obtain ⟨unscaled, scaled⟩ := Node.scale_eq_ok h
  have means : Means scalars σ (scale factor term) n := by
    refine ⟨scaled.expression ht.means.expression, ?_, fun q => ?_, ?_,
      scaled.indices.trans ht.means.ofTensor, by simp [scaled.kind, Kind.isLeaf]⟩
    · rw [Node.free_scaled scaled.kind scaled.children, ht.means.free]
      rfl
    · rw [Node.meaning_scaled _ _ scaled.kind scaled.children, ht.means.meaning, Formula.meaning]
    · rw [scaled.hasFixedOrder_eq, ht.means.fixed]
      rfl
  refine ⟨means, ?_, means.summands scalars σ rfl (by simp [scaled.kind])⟩
  cases ht.scales with
  | plain _ one factors =>
    refine .scaled scaled unscaled ?_ ⟨factors.indices, factors.meanings⟩
    rw [coefficient, one, mul_one]
  | scaled nested _ _ _ =>
    rw [nested.isScale] at unscaled
    cases unscaled

/-! ### Negation and differences -/

/-- Formulas that are built into the same trees. -/
structure Alike (f g : Formula) : Prop where
  free : f.free = g.free
  meaning : ∀ q, f.meaning scalars σ q = g.meaning scalars σ q
  fixed : f.hasFixedOrder = g.hasFixedOrder
  ofTensor : f.ofTensor? = g.ofTensor?
  coefficient : f.coefficient scalars = g.coefficient scalars
  indices : f.factorIndices = g.factorIndices
  meanings : f.factorMeanings scalars σ = g.factorMeanings scalars σ
  fixedOrder : f.fixedOrder? = g.fixedOrder?
  leaf : ∀ t names, g ≠ .tensor t names

theorem Folds.congr {f g : Formula} {n : Node} (h : Folds scalars σ g n)
    (alike : Alike scalars σ f g) : Folds scalars σ f n := by
  have factors {m : Node} (hm : Factors scalars σ g m) : Factors scalars σ f m :=
    ⟨hm.indices.trans alike.indices.symm, hm.meanings.trans alike.meanings.symm⟩
  obtain ⟨means, scales, fixedOrder, leading, sum⟩ := h
  refine ⟨⟨means.expression, ?_, fun q => ?_, ?_, ?_, fun leaf => ?_⟩, ?_, ⟨?_, ?_, fun i => ?_⟩⟩
  · rw [alike.free, means.free]
  · rw [alike.meaning, means.meaning]
  · rw [alike.fixed, means.fixed]
  · rw [alike.ofTensor, means.ofTensor]
  · obtain ⟨t, names, known⟩ := means.leaf leaf
    exact absurd known (alike.leaf t names)
  · cases scales with
    | plain unscaled one hm => exact .plain unscaled (alike.coefficient.trans one) (factors hm)
    | scaled scaled unscaled value hm =>
      exact .scaled scaled unscaled (alike.coefficient.trans value) (factors hm)
  · rw [alike.fixedOrder, fixedOrder]
  · rw [alike.fixedOrder, alike.free]
    exact leading
  · rw [alike.meaning, sum]

/-- A negated term is the term times minus one. -/
theorem alike_negate (term : Formula) :
    Alike scalars σ (negate term) (scale (.constant .minusOne) term) := by
  refine ⟨rfl, fun q => ?_, rfl, rfl, ?_, rfl, rfl, ?_, by simp⟩
  · funext p
    rw [Formula.meaning, Formula.meaning, scalars.minusOne]
    exact (neg_one_mul _).symm
  · rw [coefficient, coefficient, scalars.minusOne, neg_one_mul]
  · by_cases fixed : term.hasFixedOrder = true <;>
      simp [fixedOrder?, summands, hasFixedOrder, ofTensor?, fixed]

/-- A difference is the sum with the negated right operand. -/
theorem alike_minus (left right : Formula) :
    Alike scalars σ (minus left right) (plus left (negate right)) := by
  have free : (minus left right).free = (plus left (negate right)).free := rfl
  refine ⟨free, fun q => ?_, rfl, rfl, rfl, rfl, ?_, rfl, by simp⟩
  · rw [Formula.meaning, Formula.meaning, Formula.meaning, sub_eq_add_neg, free]
  · rw [factorMeanings, factorMeanings, Formula.meaning, sub_eq_add_neg, free]

theorem folds_negate {term : Formula} {t n : Node} (ht : Folds scalars σ term t)
    (h : t.negate = .ok n) : Folds scalars σ (negate term) n :=
  (folds_scale scalars σ ht h).congr scalars σ (alike_negate scalars σ term)

theorem folds_minus {left right : Formula} {l r n : Node} (hl : Folds scalars σ left l)
    (hr : Folds scalars σ right r) (h : l.minus (.node r) = .ok n) :
    Folds scalars σ (minus left right) n := by
  obtain ⟨negated, done, added⟩ := bind_eq_ok.mp h
  have sum := folds_plus scalars σ hl (folds_negate scalars σ hr done) added
  exact sum.congr scalars σ (alike_minus scalars σ left right)

/-- The trees of formulas over tensors whose names are identifiers. -/
theorem folds_build {f : Formula} {n : Node}
    (valid : ∀ t ∈ f.tensors, isIdentifier t.base = true) (h : f.build = .ok n) :
    Folds scalars σ f n := by
  induction f generalizing n with
  | tensor t names => exact folds_tensor scalars σ (valid t (List.mem_singleton.mpr rfl)) h
  | times left right hl hr =>
    simp only [build, bind_eq_ok] at h
    obtain ⟨l, built, r, built', folded⟩ := h
    exact folds_times scalars σ (hl (fun t ht => valid t (List.mem_append_left _ ht)) built)
      (hr (fun t ht => valid t (List.mem_append_right _ ht)) built') folded
  | plus left right hl hr =>
    simp only [build, bind_eq_ok] at h
    obtain ⟨l, built, r, built', folded⟩ := h
    exact folds_plus scalars σ (hl (fun t ht => valid t (List.mem_append_left _ ht)) built)
      (hr (fun t ht => valid t (List.mem_append_right _ ht)) built') folded
  | minus left right hl hr =>
    simp only [build, bind_eq_ok] at h
    obtain ⟨l, built, r, built', folded⟩ := h
    exact folds_minus scalars σ (hl (fun t ht => valid t (List.mem_append_left _ ht)) built)
      (hr (fun t ht => valid t (List.mem_append_right _ ht)) built') folded
  | negate term ih =>
    obtain ⟨t, built, scaled⟩ := bind_eq_ok.mp h
    exact folds_negate scalars σ (ih valid built) scaled
  | scale factor term ih =>
    obtain ⟨t, built, scaled⟩ := bind_eq_ok.mp h
    exact folds_scale scalars σ (ih valid built) scaled

end

end Formula

end TensorKernel
