import TensorKernel.Proofs.Pattern.Reading
import TensorKernel.Proofs.Tree.Construction

/-!
The patterns of a tree hold all entries that can be non-zero. What a node computes is non-zero only
where the children that it reads are, and the pattern of the node has the entries that these have:
the union of the patterns for a sum, and for an operation the projection of every point at which all
operands have an entry.

* `Supported`: the pattern of a node holds the entries at which its value is not zero;
* `supported_add`, ..: one kind of node over children that are supported;
* `propagateSparsity_nonzero`: all nodes of a tree.
-/

namespace TensorKernel

def Kind.multiplies : Kind → Bool
  | .product | .contraction _ | .gemm _ => true
  | .leaf _ | .einsum | .add | .scale _ | .indexSum _ | .assign => false

namespace Node

def Propagated (x : Node) : Prop :=
  ∃ p, x.pattern = some p ∧ x.patternFromChildren = .ok p

theorem everywhere_propagated {n m : Node} (h : n.propagateSparsity = .ok m) :
    m.Everywhere Propagated := by
  refine everywhere_of_annotate annotates_withPattern (fun n m done => ?_) h
  obtain ⟨p, found, same⟩ := bind_eq_ok.mp done
  obtain rfl := pure_eq_ok.mp same
  exact ⟨p, rfl, found⟩

theorem computedPattern_eq_ok {n : Node} {p : Pattern} :
    n.computedPattern = .ok p ↔ n.pattern = some p := by
  unfold computedPattern
  split <;> simp [*]

theorem deducedIndices_eq_ok {n : Node} {i : Indices} :
    n.deducedIndices = .ok i ↔ n.indices = some i := by
  unfold deducedIndices
  split <;> simp [*]

/-- A sum of patterns has the entries of all of them. -/
theorem addPatterns_eq_ok {sum p : Pattern} {operands : List Node}
    (h : addPatterns sum operands = .ok p) (hs : sum.Sized)
    (ho : ∀ c ∈ operands, ∀ q, c.pattern = some q → q.Sized) :
    p.Sized ∧ p.shape = sum.shape ∧ (∀ e, sum.isNonzero e = true → p.isNonzero e = true) ∧
      ∀ c ∈ operands, ∀ q, c.pattern = some q → ∀ e, q.isNonzero e = true → p.isNonzero e = true := by
  induction operands generalizing sum with
  | nil =>
    obtain rfl := pure_eq_ok.mp h
    exact ⟨hs, rfl, fun _ => id, by simp⟩
  | cons c cs ih =>
    obtain ⟨first, rest⟩ := List.forall_mem_cons.mp ho
    simp only [addPatterns, bind_eq_ok, computedPattern_eq_ok] at h
    obtain ⟨q, pattern, next, added, h⟩ := h
    have hq := first q pattern
    obtain ⟨sized, shape, start, each⟩ := ih h (Pattern.sized_add hs hq added) rest
    have union (e : Entry) := Pattern.isNonzero_add hs hq added e
    refine ⟨sized, shape.trans (Pattern.add_eq_ok added).2, fun e mem => start e ?_,
      List.forall_mem_cons.mpr ⟨fun q' same e mem => start e ?_, each⟩⟩
    · rw [union, mem, Bool.true_or]
    · obtain rfl := Option.some.inj (pattern.symm.trans same)
      rw [union, mem, Bool.or_true]

/-- A sum without summands has no pattern. -/
theorem summand_of_patternFromChildren {x : Node} {p : Pattern} (add : x.kind = .add)
    (h : x.patternFromChildren = .ok p) : x.children ≠ [] := by
  intro empty
  simp only [patternFromChildren, add, empty] at h
  exact absurd h violates_ne_ok

/-- The pattern of a product is the one that its descriptor names. -/
theorem patternFromChildren_product {x left right : Node} {p : Pattern}
    (kind : x.kind.multiplies = true) (children : x.children = [left, right])
    (hl : left.indices = some left.own) (hr : right.indices = some right.own)
    (hx : x.indices = some x.own) :
    x.patternFromChildren = .ok p ↔ ∃ a b, left.pattern = some a ∧ right.pattern = some b ∧
      Pattern.einsum (productDescriptor left.own right.own x.own) a b = .ok p := by
  have done : x.patternFromChildren = (do
      let descriptor := productDescriptor left.own right.own x.own
      Pattern.einsum descriptor (← left.computedPattern) (← right.computedPattern)) := by
    cases known : x.kind with
    | product | contraction | gemm =>
      simp only [patternFromChildren, known, operands, children, ok_bind,
        deducedIndices_eq_ok.mpr hl, deducedIndices_eq_ok.mpr hr, deducedIndices_eq_ok.mpr hx]
    | leaf | einsum | add | scale | indexSum | assign =>
      rw [known] at kind
      cases kind
  simp only [done, bind_eq_ok, computedPattern_eq_ok]
  grind

section
variable {R : Type} [CommSemiring R] (scalars : Factor → R) (σ : Store (Entry → R))

/-- A node with a pattern for its indices that has an entry wherever the value is not zero. -/
structure Supported (x : Node) (p : Pattern) : Prop where
  pattern : x.pattern = some p
  known : x.indices = some x.own
  sized : p.Sized
  rank : p.shape.length = x.own.size
  nonzero : ∀ q, x.valueAt scalars σ q ≠ 0 → p.isNonzero (x.own.entryAt q) = true

section
variable {x : Node} {p : Pattern}

theorem supported_leaf {t : Tensor} (formed : x.WellFormed) (kind : x.kind = .leaf t)
    (sized : t.pattern.Sized) (shape : t.pattern.shape = t.shape)
    (zero : ∀ e : Entry, e.length = t.shape.length → σ t.name e ≠ 0 →
      t.pattern.isNonzero e = true)
    (pattern : x.pattern = some p) (found : x.patternFromChildren = .ok p) :
    Supported scalars σ x p := by
  have fits := formed.fits
  rw [kind] at fits
  obtain ⟨i, known, extents, -⟩ := fits
  obtain rfl := own_of_indices known
  have size : t.shape.length = x.own.size := by
    rw [← extents, Indices.length_shape]
  rw [patternFromChildren, kind] at found
  obtain rfl := pure_eq_ok.mp found
  refine ⟨pattern, known, sized, by rw [shape, size], fun q value => ?_⟩
  apply zero
  · rw [Indices.length_entryAt, size]
  · rwa [valueAt, value_leaf scalars σ kind] at value

theorem supported_add (formed : x.WellFormed) (kind : x.kind = .add)
    (each : ∀ c ∈ x.children, ∃ q, Supported scalars σ c q) (pattern : x.pattern = some p)
    (found : x.patternFromChildren = .ok p) : Supported scalars σ x p := by
  have fits := formed.fits
  rw [kind] at fits
  -- the children know their indices, so all of them have the indices of the sum
  have aligned : ∀ c ∈ x.children, c.indices = x.indices := by
    intro c hc
    obtain ⟨q, spec⟩ := each c hc
    exact (fits c hc).resolve_left (by simp [spec.known])
  have sized : ∀ c ∈ x.children, ∀ q, c.pattern = some q → q.Sized := by
    intro c hc q same
    obtain ⟨q', spec⟩ := each c hc
    obtain rfl := Option.some.inj (spec.pattern.symm.trans same)
    exact spec.sized
  simp only [patternFromChildren, kind] at found
  split at found
  · exact absurd found violates_ne_ok
  · next first rest children =>
    simp only [bind_eq_ok, computedPattern_eq_ok] at found
    obtain ⟨q, start, added⟩ := found
    rw [children] at each aligned sized
    obtain ⟨q', spec⟩ := each first List.mem_cons_self
    obtain rfl := Option.some.inj (spec.pattern.symm.trans start)
    have own : x.own = first.own := own_eq (aligned first List.mem_cons_self).symm
    obtain ⟨hp, shape, firstEntries, restEntries⟩ :=
      addPatterns_eq_ok added spec.sized fun c hc => sized c (List.mem_cons_of_mem first hc)
    refine ⟨pattern, ?_, hp, by rw [shape, own, spec.rank], fun q value => ?_⟩
    · rw [own, ← aligned first List.mem_cons_self, spec.known]
    rw [valueAt_aligned scalars σ kind (fun c hc => .inr (aligned c (children ▸ hc)))] at value
    obtain ⟨c, hc, summand⟩ : ∃ c ∈ first :: rest, c.valueAt scalars σ q ≠ 0 := by
      by_contra none
      simp only [not_exists, not_and, not_not] at none
      rw [children, List.map_congr_left none] at value
      simp at value
    obtain ⟨pc, specC⟩ := each c hc
    have entry := specC.nonzero q summand
    rw [own_eq (m := x) (aligned c hc)] at entry
    rcases List.mem_cons.mp hc with rfl | hc
    · obtain rfl := Option.some.inj (spec.pattern.symm.trans specC.pattern)
      exact firstEntries _ entry
    · exact restEntries c hc pc specC.pattern _ entry

/-- A node with the value of a child, perhaps times a factor, has the pattern of the child. -/
theorem supported_same {c : Node} (indices : x.indices = c.indices)
    (value : ∀ q, x.valueAt scalars σ q ≠ 0 → c.valueAt scalars σ q ≠ 0)
    (pattern : x.pattern = some p) (spec : Supported scalars σ c p) :
    Supported scalars σ x p := by
  have own : x.own = c.own := own_eq indices
  refine ⟨pattern, ?_, spec.sized, ?_, fun q nonzero => ?_⟩
  · rw [own, indices, spec.known]
  · rw [own, spec.rank]
  · rw [own]
    exact spec.nonzero q (value q nonzero)

theorem supported_scale {factor : Factor} (formed : x.WellFormed) (kind : x.kind = .scale factor)
    (each : ∀ c ∈ x.children, ∃ q, Supported scalars σ c q) (pattern : x.pattern = some p)
    (found : x.patternFromChildren = .ok p) : Supported scalars σ x p := by
  have fits := formed.fits
  rw [kind] at fits
  obtain ⟨term, children, indices⟩ := fits
  simp only [patternFromChildren, kind, Node.term, children, List.head?_cons, bind_eq_ok,
    Except.ok.injEq, computedPattern_eq_ok] at found
  obtain ⟨_, rfl, start⟩ := found
  obtain ⟨q, spec⟩ := each term (by simp [children])
  obtain rfl := Option.some.inj (spec.pattern.symm.trans start)
  refine supported_same scalars σ indices.symm (fun q value zero => value ?_) pattern spec
  rw [valueAt_scaled scalars σ kind children (fun name hn => own_eq (m := x) indices ▸ hn), zero,
    mul_zero]

theorem supported_assign (formed : x.WellFormed) (kind : x.kind = .assign)
    (each : ∀ c ∈ x.children, ∃ q, Supported scalars σ c q) (pattern : x.pattern = some p)
    (found : x.patternFromChildren = .ok p) : Supported scalars σ x p := by
  have fits := formed.fits
  rw [kind] at fits
  obtain ⟨i, target, value, -, known, children, -, -, indices⟩ := fits
  simp only [patternFromChildren, kind, operands, children, bind_eq_ok, Except.ok.injEq,
    computedPattern_eq_ok] at found
  obtain ⟨_, rfl, start⟩ := found
  obtain ⟨q, spec⟩ := each value (by simp [children])
  obtain rfl := Option.some.inj (spec.pattern.symm.trans start)
  have same : x.indices = value.indices := known.trans indices.symm
  refine supported_same scalars σ same (fun q nonzero => ?_) pattern spec
  rw [valueAt_eq scalars σ (by rw [kind]; rfl), kind, children] at nonzero
  rwa [← value.valueAt_restrict scalars σ (i := x.own) (fun name hn => own_eq same ▸ hn)]

theorem supported_indexSum {index : Indices} (formed : x.WellFormed)
    (kind : x.kind = .indexSum index) (each : ∀ c ∈ x.children, ∃ q, Supported scalars σ c q)
    (pattern : x.pattern = some p) (found : x.patternFromChildren = .ok p) :
    Supported scalars σ x p := by
  have fits := formed.fits
  rw [kind] at fits
  obtain ⟨i, term, known, children, operand, sums⟩ := fits
  obtain rfl := own_of_indices known
  simp only [patternFromChildren, kind, Node.term, children, List.head?_cons, bind_eq_ok,
    Except.ok.injEq, computedPattern_eq_ok, deducedIndices_eq_ok] at found
  obtain ⟨_, rfl, _, source, _, target, q, start, reduced⟩ := found
  obtain rfl := own_of_indices source
  obtain rfl := own_of_indices target
  obtain ⟨q', spec⟩ := each term (by simp [children])
  obtain rfl := Option.some.inj (spec.pattern.symm.trans start)
  have rank := (mapM_eq_some.mp (Pattern.reduce_eq_ok reduced).2.1).length_eq
  refine ⟨pattern, known, Pattern.sized_reduce reduced, ?_, fun q value => ?_⟩
  · rw [← rank, Indices.length_names]
  rw [valueAt_eq scalars σ (by rw [kind]; rfl), kind, children] at value
  obtain ⟨q', same, nonzero⟩ := exists_of_sumOver_ne_zero value
  have entry : x.own.entryAt q = x.own.entryAt q' := by
    refine Indices.entryAt_congr fun name hn => ?_
    rw [same name fun gone => sums.gone gone hn, Indices.restrict_of_mem hn]
  rw [entry]
  exact Pattern.isNonzero_reduce reduced (spec.nonzero q' nonzero)

/-- A product is non-zero only where both operands have an entry at one point. -/
theorem supported_product {left right : Node} (kind : x.kind.multiplies = true)
    (children : x.children = [left, right]) (hl : left.indices = some left.own)
    (hr : right.indices = some right.own) (hx : x.indices = some x.own)
    (points : ∀ q, x.valueAt scalars σ q ≠ 0 → ∃ q', x.own.entryAt q' = x.own.entryAt q ∧
      left.valueAt scalars σ q' * right.valueAt scalars σ q' ≠ 0)
    (each : ∀ c ∈ x.children, ∃ q, Supported scalars σ c q) (pattern : x.pattern = some p)
    (found : x.patternFromChildren = .ok p) : Supported scalars σ x p := by
  obtain ⟨a, b, patternA, patternB, product⟩ :=
    (patternFromChildren_product kind children hl hr hx).mp found
  obtain ⟨a', specA⟩ := each left (by simp [children])
  obtain rfl := Option.some.inj (specA.pattern.symm.trans patternA)
  obtain ⟨b', specB⟩ := each right (by simp [children])
  obtain rfl := Option.some.inj (specB.pattern.symm.trans patternB)
  obtain ⟨d, parsed, rankA, rankB, -, extents, -⟩ := Pattern.einsum_eq_ok product
  -- both operands have the ranks that the descriptor was written for, so it is read back
  have read : d = ⟨left.own.names, right.own.names, x.own.names⟩ := by
    apply Descriptor.eq_of_parse_render parsed
    · rw [rankA, specA.rank, Indices.length_names]
    · rw [rankB, specB.rank, Indices.length_names]
  subst read
  refine ⟨pattern, hx, Pattern.sized_einsum product, ?_, fun q value => ?_⟩
  · rw [← (mapM_eq_some.mp extents).length_eq, Indices.length_names]
  obtain ⟨q', entry, nonzero⟩ := points q value
  rw [← entry]
  exact Pattern.isNonzero_einsum parsed product
    (specA.nonzero q' (left_ne_zero_of_mul nonzero))
    (specB.nonzero q' (right_ne_zero_of_mul nonzero))

/-- Sums over indices that a node does not have read its operands at points with its entry. -/
theorem exists_of_summed {ds : List Dim} {f : Point → R} {q : Point}
    (gone : ∀ d ∈ ds, d.name ∉ x.own.names) (h : sumOver ds f (x.own.restrict q) ≠ 0) :
    ∃ q', x.own.entryAt q' = x.own.entryAt q ∧ f q' ≠ 0 := by
  obtain ⟨q', same, nonzero⟩ := exists_of_sumOver_ne_zero h
  refine ⟨q', Indices.entryAt_congr fun name hn => ?_, nonzero⟩
  rw [same name, Indices.restrict_of_mem hn]
  intro summed
  obtain ⟨d, hd, rfl⟩ := List.mem_map.mp summed
  exact gone d hd hn

/-- Every node is supported whose children are. -/
theorem supported_of_children (formed : x.WellFormed)
    (tensors : ∀ t, x.kind = .leaf t → t.Constructed ∧ ∀ e : Entry, e.length = t.shape.length →
      σ t.name e ≠ 0 → t.pattern.isNonzero e = true)
    (each : ∀ c ∈ x.children, ∃ q, Supported scalars σ c q) (pattern : x.pattern = some p)
    (found : x.patternFromChildren = .ok p) : Supported scalars σ x p := by
  have fits := formed.fits
  have value (q : Point) (leaf : x.kind.isLeaf = false) := valueAt_eq scalars σ (n := x) leaf q
  cases kind : x.kind with
  | leaf t =>
    obtain ⟨made, zero⟩ := tensors t kind
    obtain ⟨sized, shape, -⟩ := made.pattern
    exact supported_leaf scalars σ formed kind sized shape zero pattern found
  | einsum =>
    rw [kind] at fits
    exact fits.elim
  | add => exact supported_add scalars σ formed kind each pattern found
  | scale => exact supported_scale scalars σ formed kind each pattern found
  | indexSum => exact supported_indexSum scalars σ formed kind each pattern found
  | assign => exact supported_assign scalars σ formed kind each pattern found
  | product =>
    rw [kind] at fits
    obtain ⟨i, left, right, known, children, hl, hr, -⟩ := fits
    obtain rfl := own_of_indices known
    refine supported_product scalars σ (by rw [kind]; rfl) children hl hr known (fun q nonzero => ?_)
      each pattern found
    rw [value q (by rw [kind]; rfl), kind, children] at nonzero
    exact exists_of_summed (by simp) (show sumOver [] _ _ ≠ 0 from nonzero)
  | contraction sum =>
    rw [kind] at fits
    obtain ⟨i, left, right, known, children, hl, hr, contracts⟩ := fits
    obtain rfl := own_of_indices known
    refine supported_product scalars σ (by rw [kind]; rfl) children hl hr known (fun q nonzero => ?_)
      each pattern found
    rw [value q (by rw [kind]; rfl), kind, children] at nonzero
    refine exists_of_summed (fun d hd kept => ?_) nonzero
    obtain ⟨e, he, same⟩ := Indices.mem_names.mp kept
    exact ((contracts.kept e).mp he).2 (same ▸ Indices.mem_names_of_mem hd)
  | gemm mapping =>
    rw [kind] at fits
    obtain ⟨i, left, right, known, children, hl, hr, groups⟩ := fits
    obtain rfl := own_of_indices known
    refine supported_product scalars σ (by rw [kind]; rfl) children hl hr known (fun q nonzero => ?_)
      each pattern found
    rw [value q (by rw [kind]; rfl), kind, children] at nonzero
    simp only [Kind.combine, List.map_cons, List.map_nil] at nonzero
    rw [← sumOver_append] at nonzero
    refine exists_of_summed (fun d hd kept => ?_) nonzero
    rcases List.mem_append.mp hd with loop | hk
    · exact (Indices.mem_diff.mp loop).2 kept
    · exact groups.inner d.name (Indices.mem_names_of_mem hk) kept

end

/-- All nodes of a well-formed tree are supported. -/
theorem everywhere_supported {n : Node} (formed : n.WellFormed) (patterns : n.Everywhere Propagated)
    (tensors : n.Everywhere fun x => ∀ t, x.kind = .leaf t → t.Constructed ∧
      ∀ e : Entry, e.length = t.shape.length → σ t.name e ≠ 0 → t.pattern.isNonzero e = true) :
    n.Everywhere fun x => ∃ p, Supported scalars σ x p := by
  induction n using Node.induction with
  | node kind indices pattern layout prefetch children ih =>
    have each (c : Node) (hc : c ∈ children) :=
      ih c hc (formed.children c hc) (patterns.children c hc) (tensors.children c hc)
    obtain ⟨p, known, found⟩ := patterns.root
    refine everywhere_iff.mpr ⟨⟨p, ?_⟩, each⟩
    exact supported_of_children scalars σ formed tensors.root (fun c hc => (each c hc).root) known
      found

/-- Sparsity propagation misses no entry: where tensors are zero outside their patterns, every node of
a tree that was built, resolved and propagated is zero outside its pattern. -/
theorem propagateSparsity_nonzero {n m r : Node} (built : n.Constructed)
    (resolved : n.resolve = .ok m) (propagated : m.propagateSparsity = .ok r)
    (zero : ∀ x ∈ n.postorder, ∀ t, x.kind = .leaf t → ∀ e : Entry, e.length = t.shape.length →
      σ t.name e ≠ 0 → t.pattern.isNonzero e = true)
    {x : Node} (hx : x ∈ r.postorder) :
    ∃ p, x.pattern = some p ∧ ∀ e : Entry, e.length = x.own.size →
      x.value scalars σ e ≠ 0 → p.isNonzero e = true := by
  have tensors : n.Everywhere fun x => ∀ t, x.kind = .leaf t → t.Constructed ∧
      ∀ e : Entry, e.length = t.shape.length → σ t.name e ≠ 0 → t.pattern.isNonzero e = true :=
    fun x hx t kind => ⟨built.tensors x hx t kind, zero x hx t kind⟩
  obtain ⟨formed, -⟩ := built.composed.resolveTo none m (by simp) resolved
  have refines := (annotate_rebuilt scalars annotates_withPattern propagated).refines scalars
  have leaves := annotate_everywhere (ofKind_tensors _) annotates_withPattern
    (resolveTo_everywhere (ofKind_tensors _).stable tensors resolved) propagated
  have whole := refines.wellFormed formed
  obtain ⟨p, spec⟩ :=
    everywhere_supported scalars σ whole (everywhere_propagated propagated) leaves x hx
  refine ⟨p, spec.pattern, fun e rank value => ?_⟩
  have entry := Indices.entryAt_pointOf (whole.everywhere x hx).own rank
  rw [← entry] at value ⊢
  exact spec.nonzero _ value

end

def flagged (name : String) (mask : List Bool) : Tensor :=
  let p := Pattern.masked [2, 2] mask
  ⟨name, none, [2, 2], p, .ofPattern p none⟩

theorem constructed_flagged {name : String} {mask : List Bool} (valid : isIdentifier name = true)
    (size : mask.length = 4) : (flagged name mask).Constructed := by
  have made : Tensor.ofName name [2, 2] = .ok ⟨name, none, [2, 2], .dense [2, 2], .full [2, 2]⟩ := by
    rw [Tensor.ofName, checkName, if_pos valid, ok_bind]
    rfl
  exact .withPattern (p := .masked [2, 2] mask) (.ofName made) size (if_pos rfl)

def diagonal (name : String) : Tensor := flagged name [true, false, false, true]

/-- The statement `C_ij = D_ik B_kj + s D_ij` with a diagonal matrix `D`. -/
def diagonalUpdate : Result Node := do
  let c ← indexed (← Tensor.ofName "C" [2, 2]) ['i', 'j']
  let b ← indexed (← Tensor.ofName "B" [2, 2]) ['k', 'j']
  let d ← indexed (diagonal "D") ['i', 'k']
  let e ← indexed (diagonal "D") ['i', 'j']
  c.assignment (add [einsum [d, b], ← scale (.named "s") e])

theorem propagateSparsity_nonzero_diagonalUpdate :
    let σ : Store (Entry → Int) := fun name e =>
      if name = "D" then if e = [0, 0] ∨ e = [1, 1] then 3 else 0
      else if Shape.holds [2, 2] e then e.sum + 1 else 0
    ∃ n m r p, diagonalUpdate = .ok n ∧ n.Constructed ∧ n.resolve = .ok m ∧
      m.propagateSparsity = .ok r ∧ r.pattern = some p ∧
      r.value (fun _ => 2) σ [1, 0] = 6 ∧ p.isNonzero [1, 0] = true := by
  intro σ
  have built (n : Node) (h : diagonalUpdate = .ok n) : n.Constructed := by
    simp only [diagonalUpdate, bind_eq_ok] at h
    obtain ⟨_, tensorC, c, hc, _, tensorB, b, hb, d, hd, e, he, s, scaled, done⟩ := h
    have left := Constructed.indexed (constructed_flagged (by decide) rfl) hd
    have right := Constructed.indexed (.ofName tensorB) hb
    have term := Constructed.scale (.indexed (constructed_flagged (by decide) rfl) he) scaled
    have product : (einsum [d, b]).Constructed := .einsum (by simpa using ⟨left, right⟩)
    exact .assignment (.indexed (.ofName tensorC) hc) (.add (by simpa using ⟨product, term⟩)) done
  have diagonalOnly (e : Entry) (value : σ "D" e ≠ 0) :
      (diagonal "D").pattern.isNonzero e = true := by
    obtain rfl | rfl : e = [0, 0] ∨ e = [1, 1] := by
      by_contra off
      simp [σ, off] at value
    all_goals decide
  have inside {name : String} (other : name ≠ "D") (e : Entry) (value : σ name e ≠ 0) :
      (Pattern.dense [2, 2]).isNonzero e = true := by
    by_contra outside
    rw [Pattern.isNonzero_dense] at outside
    simp [σ, other, outside] at value
  refine ⟨_, _, _, _, rfl, built _ rfl, rfl, rfl, rfl, by decide, ?_⟩
  obtain ⟨p, known, nonzero⟩ := propagateSparsity_nonzero (fun _ => 2) σ (built _ rfl) rfl rfl
    (fun x hx t leaf e _ => by
      have kind := List.mem_map_of_mem (f := Node.kind) hx
      rw [leaf] at kind
      let full (name : String) : Tensor := ⟨name, none, [2, 2], .dense [2, 2], .full [2, 2]⟩
      change Kind.leaf t ∈ [.leaf (full "C"), .leaf (diagonal "D"), .leaf (full "B"), .einsum,
        .leaf (diagonal "D"), .scale (.named "s"), .add, .assign] at kind
      simp only [List.mem_cons, Kind.leaf.injEq, reduceCtorEq, List.not_mem_nil, or_false, false_or]
        at kind
      rcases kind with rfl | rfl | rfl | rfl
      · exact inside (by decide) e
      · exact diagonalOnly e
      · exact inside (by decide) e
      · exact diagonalOnly e) (mem_postorder.mpr (.inl rfl))
  obtain rfl := Option.some.inj known
  exact nonzero [1, 0] rfl (by decide)

end Node

end TensorKernel
