import TensorKernel.Proofs.Tree.Acceptance
import TensorKernel.Proofs.Tree.Fixity
import TensorKernel.Proofs.Tree.Written

/-!
The common order of a sum of which none is required. If a tensor dictates the order of one of the
operands, the sum and all operands have that order, wherever the operand stands. Whether an order
can be required of a sum is a matter of each operand by itself. So the order of the operands decides
nothing but which order is tried; if that is known, operands can be exchanged.

* `Addend`, `Written.addend`: the operands that arithmetic gives;
* `operands_of_sum`: all operands of a sum end in its order;
* `resolveTo_of_free`, `resolveTo_of_perm`: which orders can be required of an operand;
* `Dictates`, `indices_of_dictates`: an order that a tensor dictates;
* `sum_order`: sums of such operands.
-/

namespace TensorKernel.Node

/-! ### Operands -/

/-- What arithmetic gives for an operand: what is stored already, a product of at least two factors,
a sum of such operands, or one that is scaled. -/
inductive Addend : Node → Prop
  | stored {n : Node} (kind : n.kind.isLeaf = true ∨ n.kind = .assign) : Addend n
  | product {n : Node} (kind : n.kind = .einsum) (factors : 2 ≤ n.children.length) : Addend n
  | sum {n : Node} (kind : n.kind = .add) (each : ∀ c ∈ n.children, Addend c) : Addend n
  | scaled {factor : Factor} {term n : Node} (scaled : Scaled factor term n)
      (addend : Addend term) : Addend n

theorem Addend.factors {n : Node} (h : n.Addend) (kind : n.kind = .einsum) :
    2 ≤ n.children.length := by
  cases h with
  | stored stored => simp [kind, Kind.isLeaf] at stored
  | product _ factors => exact factors
  | sum add => cases add.symm.trans kind
  | scaled scaled => cases scaled.kind.symm.trans kind

theorem Addend.summands {n : Node} (h : n.Addend) (kind : n.kind = .add) :
    ∀ c ∈ n.children, c.Addend := by
  cases h with
  | stored stored => simp [kind, Kind.isLeaf] at stored
  | product einsum => cases einsum.symm.trans kind
  | sum _ each => exact each
  | scaled scaled => cases scaled.kind.symm.trans kind

theorem addend_fold {kind : Kind} {left right : Node} (hk : kind = .einsum ∨ kind = .add)
    (hl : left.Addend) (hr : right.Addend) : (fold kind left right).Addend := by
  have children := children_fold kind left right
  rcases hk with rfl | rfl
  · -- each side brings a factor at least
    have some_factor {n : Node} (h : n.Addend) : 1 ≤ (n.flattened .einsum).length := by
      unfold flattened
      split
      · next same =>
        have := h.factors same
        omega
      · exact Nat.le_refl 1
    have left_factor := some_factor hl
    have right_factor := some_factor hr
    refine .product (kind_fold _ _ _) ?_
    rw [children, List.length_append]
    omega
  · refine .sum (kind_fold _ _ _) fun c hc => ?_
    rw [children, List.mem_append] at hc
    exact hc.elim (of_mem_flattened hl hl.summands) (of_mem_flattened hr hr.summands)

theorem addend_mapUnderFactors {f : Node → Node} (hf : ∀ x, x.Addend → (f x).Addend) {n m : Node}
    (hn : n.Addend) (h : n.mapUnderFactors f = .ok m) : m.Addend := by
  induction hn generalizing m with
  | scaled scaled _ ih =>
    obtain ⟨t, mapped, scaled⟩ := scaled_of_mapUnderFactors scaled h
    exact .scaled scaled (ih mapped)
  | @stored n kind =>
    have unscaled : n.kind.isScale = false := by
      cases same : n.kind <;> simp_all [Kind.isLeaf, Kind.isScale]
    rw [mapUnderFactors_of_unscaled unscaled] at h
    exact Except.ok.inj h ▸ hf n (.stored kind)
  | @product n kind factors =>
    rw [mapUnderFactors_of_unscaled (by rw [kind]; rfl)] at h
    exact Except.ok.inj h ▸ hf n (.product kind factors)
  | @sum n kind each =>
    rw [mapUnderFactors_of_unscaled (by rw [kind]; rfl)] at h
    exact Except.ok.inj h ▸ hf n (.sum kind each)

theorem arithmetical_addend : Arithmetical Addend where
  scale ht done := .scaled (scale_eq_ok done).2 ht
  fold hk hl hr := addend_fold hk hl hr
  underFactors hf hn done := addend_mapUnderFactors (fun x hx => (hf x hx).1) hn done

theorem Written.addend {n : Node} (h : n.Written) : n.Addend := by
  induction h with
  | indexed made done =>
    refine .stored (.inl ?_)
    rw [(isTensor_of_indexed made.identifier done).1.kind]
    rfl
  | times _ _ done hl hr => exact arithmetical_addend.times hl hr done
  | plus _ _ done hl hr => exact arithmetical_addend.plus hl hr done
  | minus _ _ done hl hr => exact arithmetical_addend.minus hl hr done
  | negate _ done ih => exact arithmetical_addend.scale ih done
  | @assign target n value _ _ done =>
    have assigned {v : Node} (made : target.assignment v = .ok n) : n.Addend := by
      rw [(assignment_eq_ok made).2]
      exact .stored (.inr rfl)
    cases value with
    | factor factor => exact absurd done refuse_ne_ok
    | node value =>
      simp only [Node.assign] at done
      split at done <;> exact assigned done

/-! ### Required orders -/

theorem Sound.resolvesTo {n : Node} (h : n.Sound) :
    n.ResolvesTo fun m => m.WellFormed ∧ m.indices = some m.own := by
  intro target m ht done
  obtain ⟨formed, required⟩ := h.composed.resolveTo target m ht done
  have summand := resolveTo_everywhere stable_summand (h.fresh.mono fun x fresh => fresh.summand)
    done
  exact ⟨⟨formed, (known_of_summands formed summand).root⟩, required⟩

section
variable {n c d m term : Node} {i o o' : Indices} {target : Option Indices} {cs ds : List Node}
  {factor : Factor}

/-- What is stored already is brought to what is required, if it can be. -/
theorem resolveTo_stored (kind : n.kind.isLeaf = true ∨ n.kind = .assign) :
    n.resolveTo (some o) = n.resolveTo none >>= bring o := by
  obtain ⟨kind', _, _, _, _, _⟩ := n
  cases kind' with
  | leaf => rfl
  | assign =>
    simp only [resolveTo, bind_assoc]
    rfl
  | einsum | add | scale | indexSum | product | contraction | gemm => simp [Kind.isLeaf] at kind

/-- What is stored already keeps its indices. -/
theorem indices_of_stored (kind : n.kind.isLeaf = true ∨ n.kind = .assign) (sound : n.Sound)
    (ht : ∀ t, target = some t → t.Distinct) (h : n.resolveTo target = .ok d) :
    d.indices = n.indices := by
  have free {r : Node} (done : n.resolveTo none = .ok r) :
      r.indices = n.indices ∧ r.kind = n.kind := by
    obtain ⟨_, into, same⟩ := resolveTo_cases done
    obtain rfl := pure_eq_ok.mp same
    rcases kind with leaf | assign
    · obtain ⟨t, leaf⟩ := Kind.isLeaf_iff.mp leaf
      rw [ResolvesInto, leaf] at into
      rw [into]
      exact ⟨rfl, rfl⟩
    · rw [ResolvesInto, assign] at into
      obtain ⟨_, _, _, -, -, rfl⟩ := into
      exact ⟨rfl, assign.symm⟩
  cases target with
  | none => exact (free h).1
  | some t =>
    rw [resolveTo_stored kind] at h
    obtain ⟨r, done, brought⟩ := bind_eq_ok.mp h
    obtain ⟨indices, same⟩ := free done
    obtain ⟨⟨formed, -⟩, -⟩ := sound.resolvesTo none r (by simp) done
    obtain ⟨-, -, reordered⟩ := (bring_eq_ok formed.own (ht t rfl)).mp brought
    obtain ⟨_, -, ⟨-, rfl⟩ | ⟨-, -, -, -, -, -, moved⟩⟩ := reorder_cases reordered
    · exact indices
    · obtain ⟨notLeaf, notAssign⟩ := same ▸ moved.not_stored
      rcases kind with leaf | assign
      · cases notLeaf.symm.trans leaf
      · exact absurd assign notAssign

/-- What is required of a sum is required of its operands. -/
theorem resolveTo_sum (kind : n.kind = .add) :
    (∃ m, n.resolveTo (some o) = .ok m) ↔
      ∀ c ∈ n.children, ∃ d, c.resolveTo (some o) = .ok d := by
  obtain ⟨_, indices, pattern, layout, prefetch, children⟩ := n
  obtain rfl := kind
  constructor
  · rintro ⟨m, done⟩ c hc
    obtain ⟨_, ⟨ds, order, summands, -⟩, -⟩ := resolveTo_cases done
    obtain ⟨-, each⟩ := resolveSummands_required.mp summands
    obtain ⟨d, -, done⟩ := exists_of_forall₂_right each.flip hc
    exact ⟨d, done⟩
  · intro each
    obtain ⟨ds, done⟩ := forall₂_of_exists each
    refine ⟨⟨.add, some o, pattern, layout, prefetch, ds⟩, ?_⟩
    rw [resolveTo, sumOrder, Option.orElse_some, resolveSummands_required.mpr ⟨rfl, done⟩]
    exact bring_own (n := ⟨.add, some o, pattern, layout, prefetch, ds⟩) rfl

/-- What is required of a scaled node is required of its term. -/
theorem resolveTo_scaled (scaled : Scaled factor term n) (sound : term.Sound)
    (ht : ∀ t, target = some t → t.Distinct) :
    n.resolveTo target = .ok m ↔
      ∃ d, term.resolveTo target = .ok d ∧
        m = { n with indices := d.indices, children := [d] } := by
  obtain ⟨_, indices, pattern, layout, prefetch, _⟩ := n
  obtain rfl := scaled.kind
  obtain rfl := scaled.children
  rw [resolveTo, resolveTerm, bind_eq_ok]
  refine exists_congr fun d => and_congr_right fun done => ?_
  cases target with
  | none => exact pure_eq_ok.trans eq_comm
  | some t =>
    have own : bring t ⟨.scale factor, d.indices, pattern, layout, prefetch, [d]⟩ =
        .ok ⟨.scale factor, d.indices, pattern, layout, prefetch, [d]⟩ :=
      bring_own ((sound.resolvesTo _ d ht done).2 t rfl)
    change bring t _ = _ ↔ _
    rw [own, Except.ok.injEq, eq_comm]

theorem Sound.labelled_factors (sound : n.Sound)
    (each : List.Forall₂ (fun c d => c.resolveTo none = .ok d) n.children ds) :
    ∀ d ∈ ds, d.Labelled := by
  intro d hd
  obtain ⟨c, hc, done⟩ := exists_of_forall₂_right each hd
  obtain ⟨⟨formed, known⟩, -⟩ := (sound.children c hc).resolvesTo none d (by simp) done
  exact ⟨known, formed.own⟩

/-- A product takes any order of indices that its operands have. -/
theorem resolveTo_product (sound : n.Sound) (kind : n.kind = .einsum)
    (factors : 2 ≤ n.children.length) (ht : ∀ t, target = some t → t.Distinct) :
    (∃ m, n.resolveTo target = .ok m) ↔
      ∃ ds, List.Forall₂ (fun c d => c.resolveTo none = .ok d) n.children ds ∧ Compatible ds ∧
        ∀ t, target = some t → ∀ e ∈ t.dims, ∃ x ∈ ds, e ∈ x.own.dims := by
  have accepted {ds : List Node}
      (each : List.Forall₂ (fun c d => c.resolveTo none = .ok d) n.children ds) :
      (∃ m, n.resolveTo target = .ok m) ↔ Compatible ds ∧
        ∀ t, target = some t → ∀ e ∈ t.dims, ∃ x ∈ ds, e ∈ x.own.dims := by
    have labelled := sound.labelled_factors each
    simp only [resolveTo_einsum_iff kind ht (fun d hd => (labelled d hd).distinct) each]
    exact binarize_iff ht labelled (each.length_eq ▸ factors)
  constructor
  · rintro ⟨m, done⟩
    obtain ⟨r, into, -⟩ := resolveTo_cases done
    rw [ResolvesInto, kind] at into
    obtain ⟨ds, each, -⟩ := into
    exact ⟨ds, each, (accepted each).mp ⟨m, done⟩⟩
  · rintro ⟨ds, each, spec⟩
    exact (accepted each).mpr spec

/-- The operands of a sum end in one order. Whatever has been required of one of them is that
order. -/
theorem resolveSummands_run {order final : Option Indices} (sound : ∀ c ∈ cs, c.Sound)
    (ho : ∀ i, order = some i → i.Distinct) (h : resolveSummands order cs = .ok (ds, final)) :
    (∀ i, order = some i → final = some i) ∧
      List.Forall₂ (fun c d => d.indices = final ∧
        ∃ o, (∀ i, o = some i → final = some i) ∧ c.resolveTo o = .ok d) cs ds := by
  obtain ⟨start, -, aligned⟩ := resolveSummands_aligned
    (fun {m} (spec : m.WellFormed ∧ _) _ known => spec.1.indices known)
    (fun c hc => (sound c hc).resolvesTo) ho h
  have ordered : ∀ d ∈ ds, d.indices = final := by
    intro d hd
    obtain ⟨⟨-, known⟩, none | same⟩ := aligned d hd
    · cases known.symm.trans none
    · exact same
  have each : List.Forall₂ (fun c d => ∃ o, (∀ i, o = some i → final = some i) ∧
      c.resolveTo o = .ok d) cs ds := by
    cases order with
    | some i =>
      obtain ⟨-, each⟩ := resolveSummands_required.mp h
      exact each.imp fun _ _ done => ⟨some i, start, done⟩
    | none =>
      cases cs with
      | nil =>
        rw [resolveSummands, pure_eq_ok] at h
        cases h
        exact .nil
      | cons c cs =>
        simp only [resolveSummands, bind_eq_ok, pure_eq_ok] at h
        obtain ⟨d, first, ⟨rest, last⟩, others, done⟩ := h
        cases done
        obtain ⟨⟨-, known⟩, -⟩ := (sound c (by simp)).resolvesTo none d (by simp) first
        rw [Option.orElse_none, known] at others
        obtain ⟨rfl, each⟩ := resolveSummands_required.mp others
        exact .cons ⟨none, by simp, first⟩
          (each.imp fun _ _ done => ⟨some d.own, fun _ same => same, done⟩)
  exact ⟨start, (forall₂_imp_of_mem each.flip fun d hd c done => ⟨ordered d hd, done⟩).flip⟩

/-- A sum gives all its operands its own order. -/
theorem operands_of_sum (kind : n.kind = .add) (sound : n.Sound)
    (ht : ∀ t, target = some t → t.Distinct) (done : n.resolveTo target = .ok m) :
    ∃ ds, (target = none → m.children = ds) ∧ List.Forall₂ (fun c d => d.indices = m.indices ∧
      ∃ o, (∀ i, o = some i → m.indices = some i) ∧ c.resolveTo o = .ok d) n.children ds := by
  obtain ⟨r, into, brought⟩ := resolveTo_cases done
  rw [ResolvesInto, kind] at into
  obtain ⟨ds, order, summands, rfl⟩ := into
  obtain ⟨start, run⟩ := resolveSummands_run sound.children
    (distinct_sumOrder ht fun c hc i => (sound.children c hc).composed.indices) summands
  cases target with
  | none =>
    obtain rfl := pure_eq_ok.mp brought
    exact ⟨ds, fun _ => rfl, run⟩
  | some t =>
    obtain rfl : m.indices = order :=
      ((sound.resolvesTo _ m ht done).2 t rfl).trans (start t rfl).symm
    exact ⟨ds, by simp, run⟩

/-- The indices that an operand has by itself can be required of it. -/
theorem resolveTo_of_free (addend : n.Addend) (sound : n.Sound) (done : n.resolveTo none = .ok d)
    (known : d.indices = some o) : ∃ m, n.resolveTo (some o) = .ok m := by
  induction addend generalizing d with
  | stored kind =>
    rw [resolveTo_stored kind, done]
    exact ⟨d, bring_own known⟩
  | product kind factors =>
    obtain ⟨ds, each, compatible, -⟩ :=
      (resolveTo_product sound kind factors (by simp)).mp ⟨d, done⟩
    have distinct (x : Node) (hx : x ∈ ds) := (sound.labelled_factors each x hx).distinct
    obtain ⟨keep, first, rest, product, run⟩ := factored_of_binarize (by simp) distinct
      ((resolveTo_einsum_iff kind (by simp) distinct each).mp done)
    obtain rfl := Option.some.inj (run.indices.symm.trans known)
    refine (resolveTo_product sound kind factors ?_).mpr ⟨ds, each, compatible, ?_⟩ <;>
      rintro t ⟨⟩
    · exact run.distinct
    · exact run.among
  | @sum n kind each ih =>
    rw [resolveTo_sum kind]
    obtain ⟨ds, -, run⟩ := operands_of_sum kind sound (by simp) done
    intro c hc
    obtain ⟨d', -, same, required, order, done⟩ := exists_of_forall₂_right run.flip hc
    -- only the first operand can be resolved without the order of the sum
    cases required with
    | none => exact ih c hc (sound.children c hc) done (same.trans known)
    | some i =>
      obtain rfl := Option.some.inj ((order i rfl).symm.trans known)
      exact ⟨d', done⟩
  | @scaled factor term n scaled _ ih =>
    have inner : term.Sound := sound.children term (by simp [scaled.children])
    obtain ⟨⟨formed, -⟩, -⟩ := sound.resolvesTo none d (by simp) done
    obtain ⟨d', done', rfl⟩ := (resolveTo_scaled scaled inner (by simp)).mp done
    obtain ⟨m, done⟩ := ih inner done' known
    refine ⟨_, (resolveTo_scaled scaled inner ?_).mpr ⟨m, done, rfl⟩⟩
    rintro t ⟨⟩
    exact formed.indices known

/-- Any other order can be required of an operand, too, if no tensor fixes it. -/
theorem resolveTo_of_perm (addend : n.Addend) (sound : n.Sound) (free : n.hasFixedOrder = false)
    (ho : o.Distinct) (same : o'.dims.Perm o.dims) (done : n.resolveTo (some o) = .ok d) :
    ∃ m, n.resolveTo (some o') = .ok m := by
  have required {o : Indices} (ho : o.Distinct) : ∀ t, some o = some t → t.Distinct := by
    rintro t ⟨⟩
    exact ho
  induction addend generalizing d with
  | stored kind => cases (hasFixedOrder_stored kind).symm.trans free
  | product kind factors =>
    obtain ⟨ds, each, compatible, among⟩ :=
      (resolveTo_product sound kind factors (required ho)).mp ⟨d, done⟩
    refine (resolveTo_product sound kind factors (required (ho.of_perm same))).mpr
      ⟨ds, each, compatible, ?_⟩
    rintro t ⟨⟩ e he
    exact among o rfl e (same.mem_iff.mp he)
  | @sum n kind _ ih =>
    rw [resolveTo_sum kind]
    intro c hc
    obtain ⟨d, done⟩ := (resolveTo_sum kind).mp ⟨d, done⟩ c hc
    rw [hasFixedOrder_add kind, List.any_eq_false] at free
    exact ih c hc (sound.children c hc) (by simpa using free c hc) done
  | @scaled factor term n scaled _ ih =>
    have inner : term.Sound := sound.children term (by simp [scaled.children])
    obtain ⟨d', done', -⟩ := (resolveTo_scaled scaled inner (required ho)).mp done
    obtain ⟨m, done⟩ := ih inner (scaled.hasFixedOrder_eq ▸ free) done'
    exact ⟨_, (resolveTo_scaled scaled inner (required (ho.of_perm same))).mpr ⟨m, done, rfl⟩⟩

/-! ### Dictated orders -/

/-- The indices are those of a tensor or an assignment: the node itself, the term that it scales, or
a summand. -/
inductive Dictates (i : Indices) : Node → Prop
  | stored {n : Node} (kind : n.kind.isLeaf = true ∨ n.kind = .assign)
      (known : n.indices = some i) : Dictates i n
  | scaled {factor : Factor} {term n : Node} (scaled : Scaled factor term n)
      (dictates : Dictates i term) : Dictates i n
  | sum {n c : Node} (kind : n.kind = .add) (hc : c ∈ n.children) (dictates : Dictates i c) :
      Dictates i n

/-- A node has the indices that are dictated to it, whatever is required. -/
theorem indices_of_dictates (dictates : Dictates i n) (sound : n.Sound)
    (ht : ∀ t, target = some t → t.Distinct) (done : n.resolveTo target = .ok m) :
    m.indices = some i := by
  induction dictates generalizing target m with
  | stored kind known => exact (indices_of_stored kind sound ht done).trans known
  | @scaled factor term n scaled _ ih =>
    have inner : term.Sound := sound.children term (by simp [scaled.children])
    obtain ⟨d, resolved, rfl⟩ := (resolveTo_scaled scaled inner ht).mp done
    have dictated : d.indices = some i := ih inner ht resolved
    exact dictated
  | @sum n c kind hc _ ih =>
    obtain ⟨⟨formed, -⟩, -⟩ := sound.resolvesTo _ m ht done
    obtain ⟨ds, -, run⟩ := operands_of_sum kind sound ht done
    obtain ⟨d, -, same, required, order, resolved⟩ := exists_of_forall₂_right run.flip hc
    exact same.symm.trans (ih (sound.children c hc)
      (fun t given => formed.indices (order t given)) resolved)

/-- A fixed order that is known before resolution is dictated. -/
theorem dictates_of_fixed (addend : n.Addend) (sound : n.Sound) (fixed : n.hasFixedOrder = true)
    (known : n.indices = some i) : Dictates i n := by
  induction addend with
  | stored kind => exact .stored kind known
  | product kind =>
    rw [hasFixedOrder_einsum kind] at fixed
    cases fixed
  | sum kind => cases (sound.indices_eq_none (.inr kind)).symm.trans known
  | scaled scaled _ ih =>
    exact .scaled scaled (ih (sound.children _ (by simp [scaled.children]))
      (scaled.hasFixedOrder_eq ▸ fixed) (scaled.indices ▸ known))

end

/-! ### Sums -/

section
variable {cs : List Node} {m : Node} {i : Indices} (written : ∀ c ∈ cs, c.Written)
include written

theorem sound_sum (nonempty : cs ≠ []) : (add cs).Sound :=
  sound_folded (.inr rfl) rfl (fun _ => nonempty) ⟨rfl, rfl⟩ fun c hc => (written c hc).sound

/-- The operands of a sum take any order that the sum takes by itself. -/
theorem resolveTo_operands (done : (add cs).resolve = .ok m) (known : m.indices = some i) :
    ∀ c ∈ cs, ∃ d, c.resolveTo (some i) = .ok d := by
  by_cases empty : cs = []
  · simp [empty]
  have addend : (add cs).Addend := .sum rfl fun c hc => (written c hc).addend
  exact (resolveTo_sum rfl).mp (resolveTo_of_free addend (sound_sum written empty) done known)

end

theorem resolve_sum_ok {cs ds : List Node} {order : Option Indices}
    (done : resolveSummands (sumOrder none cs) cs = .ok (ds, order)) :
    ∃ m, (add cs).resolve = .ok m := by
  refine ⟨ofKind .add ds order, ?_⟩
  rw [resolve, add, ofKind, resolveTo, done]
  rfl

/-- A sum gets the order that a tensor dictates to one of its operands, and so do all operands. The
operands can be exchanged if the first fixed order is known, or if none is fixed and the operand
that comes first has the indices of the sum by itself. -/
theorem sum_order {cs : List Node} (written : ∀ c ∈ cs, c.Written) :
    (∀ m, (add cs).resolve = .ok m → ∀ c ∈ cs, ∀ i, Dictates i c →
      m.indices = some i ∧ ∀ d ∈ m.children, d.indices = some i) ∧
    ∀ cs' m', cs'.Perm cs → (add cs').resolve = .ok m' →
      ((∃ c i, cs.find? hasFixedOrder = some c ∧ c.indices = some i) ∨
        (∀ c ∈ cs, c.hasFixedOrder = false) ∧ ∃ c d, cs.head? = some c ∧ c.resolve = .ok d ∧
          d.own.dims.Perm m'.own.dims) →
      ∃ m, (add cs).resolve = .ok m := by
  constructor
  · intro m done c hc i dictates
    have sound := sound_sum written (List.ne_nil_of_mem hc)
    have known : m.indices = some i :=
      indices_of_dictates (.sum rfl hc dictates) sound (by simp) done
    obtain ⟨ds, operands, run⟩ := operands_of_sum rfl sound (by simp) done
    refine ⟨known, fun d hd => ?_⟩
    obtain ⟨c, -, same, -⟩ := exists_of_forall₂_right run (operands rfl ▸ hd)
    exact same.trans known
  intro cs' m' same done' first
  have written' : ∀ c ∈ cs', c.Written := fun c hc => written c (same.mem_iff.mp hc)
  have accepted (nonempty : cs' ≠ []) : m'.own.Distinct ∧
      ∀ c ∈ cs, ∃ d, c.resolveTo (some m'.own) = .ok d := by
    obtain ⟨⟨formed, known⟩, -⟩ := (sound_sum written' nonempty).resolvesTo none m' (by simp) done'
    exact ⟨formed.own, fun c hc =>
      resolveTo_operands written' done' known c (same.mem_iff.mpr hc)⟩
  rcases first with ⟨c, i, first, known⟩ | ⟨free, c, d, first, resolved, perm⟩
  · -- the first fixed order is that of the sum in any order of its operands
    have hc := List.mem_of_find?_eq_some first
    obtain ⟨distinct, accepted⟩ := accepted (List.ne_nil_of_mem (same.mem_iff.mpr hc))
    have required : ∀ t, some m'.own = some t → t.Distinct := by
      rintro t ⟨⟩
      exact distinct
    have sound := (written c hc).sound
    obtain ⟨d, done⟩ := accepted c hc
    have dictated := indices_of_dictates
      (dictates_of_fixed (written c hc).addend sound (List.find?_some first) known) sound required
      done
    obtain rfl := Option.some.inj
      (((sound.resolvesTo _ d required done).2 _ rfl).symm.trans dictated)
    obtain ⟨ds, each⟩ := forall₂_of_exists accepted
    have start : sumOrder none cs = some m'.own := by
      rw [sumOrder, first, Option.orElse_none, Option.bind_some, known]
    exact resolve_sum_ok (start ▸ resolveSummands_required.mpr ⟨rfl, each⟩)
  · -- the operand that comes first sets the order, and the others take it
    obtain ⟨rest, rfl⟩ : ∃ rest, cs = c :: rest := List.head?_eq_some_iff.mp first
    obtain ⟨distinct, accepted⟩ :=
      accepted (List.ne_nil_of_mem (same.mem_iff.mpr List.mem_cons_self))
    obtain ⟨-, others⟩ := List.forall_mem_cons.mp accepted
    obtain ⟨ds, each⟩ := forall₂_of_exists fun x hx => by
      obtain ⟨y, done⟩ := others x hx
      have member := List.mem_cons_of_mem c hx
      exact resolveTo_of_perm (written x member).addend (written x member).sound (free x member)
        distinct perm done
    obtain ⟨⟨-, known⟩, -⟩ :=
      (written c List.mem_cons_self).sound.resolvesTo none d (by simp) resolved
    have unknown : sumOrder none (c :: rest) = none := by
      rw [sumOrder, List.find?_eq_none.mpr fun x hx => by simp [free x hx]]
      rfl
    have summands : resolveSummands none (c :: rest) = .ok (d :: ds, some d.own) := by
      rw [resolveSummands, show c.resolveTo none = .ok d from resolved, ok_bind,
        Option.orElse_none, known, resolveSummands_required.mpr ⟨rfl, each⟩]
      rfl
    exact resolve_sum_ok (unknown ▸ summands)

/-- A tensor with distinct index names can be written. -/
theorem written_dense {name : String} {dims : List Dim} (valid : isIdentifier name = true)
    (distinct : (dims.map Dim.name).Nodup) : (dense name dims).Written := by
  have made : Tensor.ofName name (dims.map Dim.extent) = .ok ⟨name, none, dims.map Dim.extent,
      .dense (dims.map Dim.extent), .full (dims.map Dim.extent)⟩ := by
    rw [Tensor.ofName, checkName, if_pos valid]
    rfl
  have named : Indices.ofNames (dims.map Dim.name) (dims.map Dim.extent) = .ok ⟨dims⟩ := by
    have whole : List.zipWith Dim.mk (dims.map Dim.name) (dims.map Dim.extent) = dims := by
      rw [List.zipWith_map, List.zipWith_self]
      exact List.map_id dims
    rw [Indices.ofNames, if_neg (by simp), if_pos distinct, whole]
  have done : indexed ⟨name, none, dims.map Dim.extent, .dense (dims.map Dim.extent),
      .full (dims.map Dim.extent)⟩ (dims.map Dim.name) = .ok (dense name dims) := by
    rw [indexed, named]
    rfl
  exact .indexed (.ofName made) done

/-- The product `A_ik B_kj`. -/
def matrixProduct : Node :=
  einsum [dense "A" [⟨'i', 2⟩, ⟨'k', 2⟩], dense "B" [⟨'k', 2⟩, ⟨'j', 2⟩]]

/-- A tensor `C_ji`, whose order is not that of the product. -/
def transposed (name : String) : Node := dense name [⟨'j', 2⟩, ⟨'i', 2⟩]

def multiple (name : String) (term : Node) : Node :=
  ofKind (.scale (.named name)) [term] term.indices

theorem written_matrixProduct : matrixProduct.Written :=
  .times (written_dense (by decide) (by decide))
    (Written.operand (written_dense (by decide) (by decide))) rfl

theorem written_transposed {name : String} (valid : isIdentifier name = true) :
    (transposed name).Written :=
  written_dense valid (by decide)

theorem written_multiple {name : String} {term : Node} (ht : term.Written)
    (unscaled : term.kind.isScale = false) : (multiple name term).Written := by
  have done : term.times (.factor (.named name)) = .ok (multiple name term) :=
    scale_of_unscaled unscaled
  exact .times ht (by simp) done

/-- The operands of `A_ik B_kj + t C_ji + s (D_ji + E_ji)`. -/
def mixedOrders : List Node :=
  [matrixProduct, multiple "t" (transposed "C"),
    multiple "s" (add [transposed "D", transposed "E"])]

theorem written_mixedOrders : ∀ c ∈ mixedOrders, c.Written := by
  have sum : (add [transposed "D", transposed "E"]).Written :=
    .plus (written_transposed (by decide)) (Written.operand (written_transposed (by decide))) rfl
  simp only [mixedOrders, List.forall_mem_cons]
  exact ⟨written_matrixProduct, written_multiple (written_transposed (by decide)) rfl,
    written_multiple sum rfl, by simp⟩

/-- The order of the scaled tensor is that of the sum, though a product comes first. -/
theorem sum_order_mixed : ∃ m, (add mixedOrders).resolve = .ok m ∧
    m.indices = some ⟨[⟨'j', 2⟩, ⟨'i', 2⟩]⟩ ∧
      ∀ d ∈ m.children, d.indices = some ⟨[⟨'j', 2⟩, ⟨'i', 2⟩]⟩ := by
  obtain ⟨dictated, exchanged⟩ := sum_order written_mixedOrders
  obtain ⟨m', done'⟩ : ∃ m, (add mixedOrders.reverse).resolve = .ok m := ⟨_, rfl⟩
  obtain ⟨m, done⟩ := exchanged mixedOrders.reverse m' (List.reverse_perm _) done'
    (.inl ⟨multiple "t" (transposed "C"), _, rfl, rfl⟩)
  have scaled : Scaled (.named "t") (transposed "C") (multiple "t" (transposed "C")) :=
    ⟨rfl, rfl, rfl⟩
  exact ⟨m, done, dictated m done (multiple "t" (transposed "C")) (by simp [mixedOrders]) _
    (.scaled scaled (.stored (.inl rfl) rfl))⟩

/-- The operands cannot always be exchanged. A product that comes first sets an order of its own
indices, which another product, `D_i E_k`, need not have. -/
theorem sum_order_exchanged :
    let other := einsum [dense "D" [⟨'i', 2⟩], dense "E" [⟨'k', 2⟩]]
    (∀ c ∈ [matrixProduct, other], c.Written) ∧
      (∃ m, (add [other, matrixProduct]).resolve = .ok m) ∧
        ¬∃ m, (add [matrixProduct, other]).resolve = .ok m := by
  intro other
  have product : other.Written :=
    .times (written_dense (by decide) (by decide))
      (Written.operand (written_dense (by decide) (by decide))) rfl
  refine ⟨?_, ⟨_, rfl⟩, ?_⟩
  · simp only [List.forall_mem_cons]
    exact ⟨written_matrixProduct, product, by simp⟩
  · rintro ⟨m, done⟩
    cases done

end TensorKernel.Node
