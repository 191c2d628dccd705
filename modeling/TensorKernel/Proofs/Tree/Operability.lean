import TensorKernel.Proofs.Tree.Resolved
import TensorKernel.Proofs.Tree.Preparation
import TensorKernel.Tree.Flops

/-!
What the passes behind resolution leave at every node, whatever tree they were given. That a pattern
was found says what the node and its children have, and that is what counting operations asks for.

* `Operable`: what a node has once patterns are propagated;
* `totalFlops_ok`: the operations of a tree of such nodes can be counted;
* `operable_of_prepare`, `stored_of_prepare`: preparation leaves such nodes, with a layout each.
-/

namespace TensorKernel.Node

structure Operable (x : Node) : Prop where
  resolved : x.kind ≠ .einsum
  pattern : ∃ p, x.pattern = some p
  operands : ∀ c ∈ x.children, ∃ p, c.pattern = some p
  term : x.kind = .add ∨ (∃ index, x.kind = .indexSum index) → x.children ≠ []
  binary : x.kind = .assign → ∃ target value, x.children = [target, value]
  pairs : x.kind.multiplies = true → ∃ p, x.pairPattern = .ok p

section
variable {x y : Node}

theorem pairPattern_eq_ok {p : Pattern} :
    x.pairPattern = .ok p ↔ ∃ left right li ri a b, x.children = [left, right] ∧
      left.indices = some li ∧ right.indices = some ri ∧ left.pattern = some a ∧
      right.pattern = some b ∧
      Pattern.einsum (productDescriptor li ri (li.merge ri)) a b = .ok p := by
  simp only [pairPattern, bind_eq_ok, Prod.exists, operands_eq_ok, deducedIndices_eq_ok,
    computedPattern_eq_ok]
  grind

/-- The pattern of a product is found from operands of known indices and patterns. -/
theorem einsum_of_patternFromChildren {p : Pattern} (kind : x.kind.multiplies = true)
    (h : x.patternFromChildren = .ok p) : ∃ left right li ri i a b, x.children = [left, right] ∧
      left.indices = some li ∧ right.indices = some ri ∧ left.pattern = some a ∧
      right.pattern = some b ∧ Pattern.einsum (productDescriptor li ri i) a b = .ok p := by
  cases known : x.kind with
  | product | contraction | gemm =>
    simp only [patternFromChildren, known, bind_eq_ok, Prod.exists, operands_eq_ok,
      deducedIndices_eq_ok, computedPattern_eq_ok] at h
    obtain ⟨left, right, children, li, hl, ri, hr, i, -, a, ha, b, hb, found⟩ := h
    exact ⟨left, right, li, ri, i, a, b, children, hl, hr, ha, hb, found⟩
  | leaf | einsum | add | scale | indexSum | assign =>
    rw [known] at kind
    cases kind

/-- All pairs of entries can be listed where the product has found its pattern, even if its
descriptor was not read as it was written. -/
theorem pairPattern_of_patternFromChildren {p : Pattern} (kind : x.kind.multiplies = true)
    (h : x.patternFromChildren = .ok p) : ∃ q, x.pairPattern = .ok q := by
  obtain ⟨left, right, li, ri, i, a, b, children, hl, hr, ha, hb, found⟩ :=
    einsum_of_patternFromChildren kind h
  have among : ∀ name ∈ (li.merge ri).names, name ∈ li.names ∨ name ∈ ri.names :=
    fun name => Indices.mem_names_merge.mp
  obtain ⟨q, pairs⟩ := Pattern.einsum_of_output found among
  exact ⟨q, pairPattern_eq_ok.mpr ⟨left, right, li, ri, a, b, children, hl, hr, ha, hb, pairs⟩⟩

theorem operable_of_propagated (found : Propagated x)
    (operands : ∀ c ∈ x.children, ∃ p, c.pattern = some p) : x.Operable := by
  obtain ⟨p, pattern, found⟩ := found
  refine ⟨fun einsum => ?_, ⟨p, pattern⟩, operands, ?_, fun assign => ?_, fun multiplies =>
    pairPattern_of_patternFromChildren multiplies found⟩
  · rw [patternFromChildren, einsum] at found
    exact absurd found violates_ne_ok
  · rintro (add | ⟨index, indexSum⟩)
    · exact summand_of_patternFromChildren add found
    · intro empty
      simp only [patternFromChildren, indexSum, Node.term, empty, List.head?_nil,
        bind_eq_ok] at found
      obtain ⟨_, none, -⟩ := found
      exact absurd none violates_ne_ok
  · simp only [patternFromChildren, assign, bind_eq_ok, Prod.exists, operands_eq_ok] at found
    obtain ⟨target, value, children, -⟩ := found
    exact ⟨target, value, children⟩

/-- What a node has is passed on with its indices and pattern. -/
theorem Operable.carried (h : x.Operable) (carries : Carries x y)
    (children : List.Forall₂ Carries x.children y.children) : y.Operable := by
  have kinds {P : Kind → Prop} (noGemm : ∀ g, ¬P (.gemm g)) (hy : P y.kind) : P x.kind := by
    rcases carries.kind with same | ⟨-, g, gemm⟩
    · exact same ▸ hy
    · exact absurd (gemm ▸ hy) (noGemm g)
  constructor
  · intro einsum
    exact h.resolved (kinds (P := (· = .einsum)) (by simp) einsum)
  · obtain ⟨p, pattern⟩ := h.pattern
    exact ⟨p, carries.pattern.trans pattern⟩
  · intro d hd
    obtain ⟨c, hc, carried⟩ := exists_of_forall₂_right children hd
    obtain ⟨p, pattern⟩ := h.operands c hc
    exact ⟨p, carried.pattern.trans pattern⟩
  · intro kind empty
    rw [empty] at children
    refine h.term ?_ (List.forall₂_nil_right_iff.mp children)
    exact kinds (P := fun kind => kind = .add ∨ ∃ index, kind = .indexSum index) (by simp) kind
  · intro assign
    obtain ⟨target, value, operands⟩ := h.binary (kinds (P := (· = .assign)) (by simp) assign)
    rw [operands] at children
    obtain ⟨target', value', operands', -⟩ := forall₂_two children
    exact ⟨target', value', operands'⟩
  · intro multiplies
    have multiplies : x.kind.multiplies = true := by
      rcases carries.kind with same | ⟨⟨sum, contraction⟩, -⟩
      · exact same ▸ multiplies
      · rw [contraction]
        rfl
    obtain ⟨p, pairs⟩ := h.pairs multiplies
    obtain ⟨left, right, li, ri, a, b, operands, hl, hr, ha, hb, found⟩ :=
      pairPattern_eq_ok.mp pairs
    rw [operands] at children
    obtain ⟨left', right', operands', cl, cr⟩ := forall₂_two children
    exact ⟨p, pairPattern_eq_ok.mpr ⟨left', right', li, ri, a, b, operands', cl.indices.trans hl,
      cr.indices.trans hr, cl.pattern.trans ha, cr.pattern.trans hb, found⟩⟩

/-! ### Counting -/

theorem nonzeroCount_ok (h : ∃ p, x.pattern = some p) : ∃ k, x.nonzeroCount = .ok k := by
  obtain ⟨p, pattern⟩ := h
  exact ⟨word p.countNonzero, bind_eq_ok.mpr ⟨p, computedPattern_eq_ok.mpr pattern, rfl⟩⟩

theorem nonzeroCounts_ok {children : List Node} (h : ∀ c ∈ children, ∃ p, c.pattern = some p) :
    ∃ k, nonzeroCounts children = .ok k := by
  induction children with
  | nil => exact ⟨0, rfl⟩
  | cons c cs ih =>
    obtain ⟨first, rest⟩ := List.forall_mem_cons.mp h
    obtain ⟨j, own⟩ := nonzeroCount_ok first
    obtain ⟨k, others⟩ := ih rest
    refine ⟨word (j + k), ?_⟩
    rw [nonzeroCounts, own, ok_bind, others, ok_bind]
    rfl

theorem Operable.flops (h : x.Operable) : ∃ f, x.flops = .ok f := by
  obtain ⟨own, counted⟩ := nonzeroCount_ok h.pattern
  cases kind : x.kind with
  | leaf | assign => exact ⟨0, by rw [Node.flops, kind]; rfl⟩
  | einsum => exact absurd kind h.resolved
  | product | contraction => exact ⟨own, by rw [Node.flops, kind]; exact counted⟩
  | add =>
    obtain ⟨all, operands⟩ := nonzeroCounts_ok h.operands
    refine ⟨all - own, ?_⟩
    rw [Node.flops, kind]
    exact bind_eq_ok.mpr ⟨all, operands, bind_eq_ok.mpr ⟨own, counted, rfl⟩⟩
  | scale factor =>
    by_cases unit : factor.isUnit = true
    · exact ⟨0, by rw [Node.flops, kind]; exact if_pos unit⟩
    · exact ⟨own, by rw [Node.flops, kind]; exact (if_neg unit).trans counted⟩
  | indexSum index =>
    obtain ⟨c, cs, children⟩ := List.exists_cons_of_ne_nil (h.term (.inr ⟨index, kind⟩))
    obtain ⟨all, operand⟩ := nonzeroCount_ok (h.operands c (by simp [children]))
    have first : x.term = .ok c := by
      rw [Node.term, children]
      rfl
    refine ⟨all - own, ?_⟩
    rw [Node.flops, kind]
    exact bind_eq_ok.mpr
      ⟨c, first, bind_eq_ok.mpr ⟨all, operand, bind_eq_ok.mpr ⟨own, counted, rfl⟩⟩⟩
  | gemm g =>
    obtain ⟨p, pairs⟩ := h.pairs (by rw [kind]; rfl)
    refine ⟨word (2 * word p.countNonzero) - own, ?_⟩
    rw [Node.flops, kind]
    exact bind_eq_ok.mpr ⟨p, pairs, bind_eq_ok.mpr ⟨own, counted, rfl⟩⟩

end

/-- Every node of a prepared tree has what later questions ask for. -/
theorem operable_of_prepare {config : Config} {n m : Node} (h : n.prepare config = .ok m) :
    m.Everywhere Operable := by
  obtain ⟨r, p, l, -, propagated, laid, mapped⟩ := prepare_stages h
  have patterns := everywhere_propagated propagated
  have first : p.Everywhere Operable := by
    intro x hx
    refine operable_of_propagated (patterns x hx) fun c hc => ?_
    obtain ⟨q, pattern, -⟩ := patterns c (mem_postorder_of_child hx hc)
    exact ⟨q, pattern⟩
  have second : l.Everywhere Operable := by
    intro y hy
    obtain ⟨x, hx, carries, children⟩ := exists_of_annotate carries_withLayout laid hy
    exact (first x hx).carried carries children
  rcases mapped with rfl | ⟨count, mapped⟩
  · exact second
  · intro y hy
    obtain ⟨x, hx, mapped, children⟩ := exists_of_mapContractions mapped hy
    exact (second x hx).carried mapped.toCarries (children.imp fun _ _ h => h.toCarries)

/-- Every node of a prepared tree has a place for its value. -/
theorem stored_of_prepare {config : Config} {n m : Node} (h : n.prepare config = .ok m) :
    m.Everywhere fun x => ∃ l, x.storage? = some l := by
  obtain ⟨r, p, l, -, -, laid, mapped⟩ := prepare_stages h
  have placed : l.Everywhere fun x => ∃ stored, x.storage? = some stored := by
    refine everywhere_of_annotate (annotates_withLayout config) (fun x y done => ?_) laid
    obtain ⟨stored, place⟩ := placed_of_withLayout done
    exact ⟨stored, place.1⟩
  rcases mapped with rfl | ⟨count, mapped⟩
  · exact placed
  · intro y hy
    obtain ⟨x, hx, mapped, -⟩ := exists_of_mapContractions mapped hy
    obtain ⟨stored, place⟩ := placed x hx
    exact ⟨stored, mapped.storage.trans place⟩

end TensorKernel.Node
