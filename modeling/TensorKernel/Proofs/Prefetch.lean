import TensorKernel.Proofs.Emission
import TensorKernel.Proofs.Tree.Prefetch

/-!
Programs ask for the tensors that are attached to the operations of their statements. Lowering emits
the operations of a tree one after the other, and elimination of copies removes no operation; what
remains attached through preparation is therefore reported.

* `Node.Resolved.carriesOut`, `operationsOf_sweep`: the operations of a program;
* `Program.Reports`, `Program.reports`: what a program asks for;
* `prefetches_prepared`: from statements to the programs of a kernel.
-/

namespace TensorKernel

/-- The nodes whose operations are carried out by actions. -/
def operationsOf (actions : List Action) : List Node := actions.filterMap (·.term.node?)

theorem operationsOf_append (as bs : List Action) :
    operationsOf (as ++ bs) = operationsOf as ++ operationsOf bs :=
  List.filterMap_append

/-- Copies carry out no operation. -/
theorem operationsOf_copies {actions : List Action}
    (copies : ∀ a ∈ actions, ∃ v, a.term = .copy v) : operationsOf actions = [] := by
  refine List.filterMap_eq_nil_iff.mpr fun a ha => ?_
  obtain ⟨v, copy⟩ := copies a ha
  rw [copy]
  rfl

/-! ### Lowering -/

namespace Lowering

theorem Takes.operationsOf {s t : Lowering} {v : Variable} {more : List Action}
    (h : Takes s v more t) :
    operationsOf t.actions = operationsOf s.actions ++ operationsOf more := by
  rw [h.state, operationsOf_append]

def CarriesOut (n : Node) : Prop := ∀ s v t, Yields n.lower s v t →
  operationsOf t.actions = operationsOf s.actions ++ n.operations

theorem LowersAll.operationsOf {cs : List Node} {s t : Lowering} {vs : List Variable}
    (h : LowersAll cs s vs t) (each : ∀ c ∈ cs, CarriesOut c) :
    operationsOf t.actions = operationsOf s.actions ++ cs.flatMap Node.operations := by
  induction h with
  | nil => simp
  | cons lowered _ ih =>
    obtain ⟨first, rest⟩ := List.forall_mem_cons.mp each
    rw [ih rest, first _ _ _ lowered, List.flatMap_cons, List.append_assoc]

end Lowering

open Lowering

/-- The actions of a resolved tree carry out its operations, in their order. -/
theorem Node.Resolved.carriesOut {n : Node} (h : n.Resolved) : CarriesOut n := by
  induction h with
  | @leaf n t kind _ =>
    intro s v t h
    have done := lower_cases h
    rw [LowersInto, kind] at done
    obtain ⟨-, -, -, rfl⟩ := done
    rw [Node.operations_eq, Node.evaluated, kind]
    simp [Kind.isLeaf, Kind.isOperation]
  | @add n kind _ _ ih =>
    intro s v t h
    have done := lower_cases h
    rw [LowersInto, kind] at done
    obtain ⟨vs, r, lowered, -, takes⟩ := done
    have copies : operationsOf (additions v (summationOrder vs)) = [] :=
      operationsOf_copies fun a ha => by
        obtain ⟨-, w, -, copy⟩ := mem_additions ha
        exact ⟨w, copy⟩
    rw [takes.operationsOf, copies, lowered.operationsOf ih, Node.operations_eq, Node.evaluated,
      kind]
    simp [Kind.isLeaf, Kind.isScale, Kind.isOperation]
  | @scale n term factor kind operand _ _ ih =>
    intro s v t h
    have done := lower_cases h
    rw [LowersInto, kind] at done
    obtain ⟨_, _, w, r, children, lowered, takes⟩ := done
    cases operand.symm.trans children
    rw [takes.operationsOf, ih s w r lowered, Node.operations_eq n, Node.evaluated, kind, operand]
    simp [Kind.isLeaf, Kind.isScale, Kind.isOperation, operationsOf, Term.node?]
  | @computed n kind _ _ ih =>
    intro s v t h
    have done := lower_cases h
    obtain ⟨nodeKind, indices, pattern, layout, prefetch, children⟩ := n
    rw [Node.operations_eq, Node.evaluated]
    cases nodeKind with
    | leaf | einsum | add | scale => simp [Kind.isOperation] at kind
    | indexSum | product | contraction | gemm =>
      obtain ⟨vs, r, lowered, takes⟩ := done
      rw [takes.operationsOf, lowered.operationsOf ih]
      simp [Kind.isLeaf, Kind.isScale, Kind.isOperation, operationsOf, Term.node?]
    | assign =>
      obtain ⟨target, value, r, q, w, u, operands, actions, -, -, first, second, rfl⟩ := done
      obtain rfl : children = [target, value] := operands
      rw [operationsOf_append, ih value (by simp) q w u second, ih target (by simp) r v q first,
        actions]
      simp [Kind.isLeaf, Kind.isScale, Kind.isOperation, operationsOf, Term.node?]

/-! ### Elimination of copies -/

namespace CopyElimination

theorem operationsOf_removed {before : List Action} {copy : Action} {after : List Action}
    {source : Variable} (h : Removable before copy after source) :
    operationsOf (before.map (retarget copy source.name) ++ after) =
      operationsOf (before ++ copy :: after) := by
  have moved : operationsOf (before.map (retarget copy source.name)) = operationsOf before := by
    rw [operationsOf, List.filterMap_map]
    exact List.filterMap_congr fun a _ => by simp
  have removed : operationsOf (copy :: after) = operationsOf after := by
    rw [operationsOf, List.filterMap_cons, h.term]
    rfl
  rw [operationsOf_append, operationsOf_append, moved, removed]

theorem operationsOf_removeAt (actions : List Action) (position : Nat) :
    operationsOf (removeAt actions position) = operationsOf actions := by
  rcases removeAt_cases actions position with same | ⟨before, copy, after, source, rfl, rem, new⟩
  · rw [same]
  · rw [new, operationsOf_removed rem]

theorem operationsOf_sweep (actions : List Action) (position : Nat) :
    operationsOf (sweep actions position) = operationsOf actions := by
  induction position generalizing actions with
  | zero => rfl
  | succ position ih => rw [sweep, ih, operationsOf_removeAt]

end CopyElimination

/-! ### Programs -/

section
variable {α : Type} {r : α → α → Bool}

/-- Of what stands for the same something remains. -/
theorem exists_mem_eraseDupsBy (refl : ∀ a, r a a = true) {as : List α} {a : α} (ha : a ∈ as) :
    ∃ b ∈ as.eraseDupsBy r, r a b = true := by
  match as with
  | [] => cases ha
  | b :: bs =>
    rw [List.eraseDupsBy_cons]
    by_cases same : r a b = true
    · exact ⟨b, List.mem_cons_self, same⟩
    · have later : a ∈ bs.filter fun c => r c b = false := by
        rcases List.mem_cons.mp ha with rfl | ha
        · exact absurd (refl a) same
        · exact List.mem_filter.mpr ⟨ha, by simpa using same⟩
      obtain ⟨c, hc, stands⟩ := exists_mem_eraseDupsBy refl later
      exact ⟨c, List.mem_cons_of_mem b hc, stands⟩
termination_by as.length
decreasing_by exact Nat.lt_succ_of_le (List.length_filter_le _ _)

end

/-- The prefetches of a program are taken from given tensors, and each of these is among them by its
name. -/
structure Program.Reports (p : Program) (tensors : List Tensor) : Prop where
  attached : ∀ t ∈ p.prefetches, t ∈ tensors
  named : ∀ t ∈ tensors, ∃ t' ∈ p.prefetches, t'.name = t.name

theorem Program.reports (p : Program) :
    p.Reports ((operationsOf p.actions).filterMap Node.prefetch) := by
  have all : (operationsOf p.actions).filterMap Node.prefetch =
      p.actions.filterMap fun a => a.term.node?.bind Node.prefetch :=
    List.filterMap_filterMap
  rw [all]
  constructor
  · intro t ht
    exact mem_of_mem_eraseDupsBy (List.mem_mergeSort.mp ht)
  · intro t ht
    obtain ⟨t', remains, same⟩ :=
      exists_mem_eraseDupsBy (r := fun s t : Tensor => s.name = t.name) (by simp) ht
    exact ⟨t', List.mem_mergeSort.mpr remains, (of_decide_eq_true same).symm⟩

namespace Kernel

/-- Statements are lowered one after the other. -/
theorem operationsOf_lowerFrom {nodes : List Node} (each : ∀ m ∈ nodes, CarriesOut m)
    {name : String} {position : Nat} {a b : Lowering}
    (h : lowerFrom name a position nodes = .ok b) :
    operationsOf b.actions = operationsOf a.actions ++ nodes.flatMap Node.operations := by
  induction nodes generalizing position a with
  | nil =>
    obtain rfl := pure_eq_ok.mp h
    simp
  | cons m nodes ih =>
    obtain ⟨first, later⟩ := List.forall_mem_cons.mp each
    obtain ⟨v, r, step, rest⟩ := lowerFrom_cons_eq_ok h
    rw [ih later rest, first a v r step, List.flatMap_cons, List.append_assoc]

/-- Tensors that are attached to operations survive preparation and are reported. Each prepared
statement has attached to its operations what the statement has; a sum over an index, a product or a
contraction of a tree all of whose children count is such an operation. The statements can be
lowered, and the program reports these tensors with and without elimination of copies. -/
theorem prefetches_prepared {statements : List Node} (assembled : ∀ n ∈ statements, n.Assembled)
    {k : Kernel}
    (prepared : List.Forall₂ (fun n m => n.prepare k.config = .ok m) statements k.statements) :
    List.Forall₂ (fun n m => m.prefetched = n.prefetched ∧
      ((n.Everywhere fun x => x.evaluated = x.children) → ∀ x ∈ n.postorder,
        x.kind.isOperation = true → ∀ t, x.prefetch = some t →
          t ∈ n.prefetched ∧ ∃ y ∈ m.postorder, y.prefetch = some t)) statements k.statements ∧
    ∃ lowered, lowerFrom k.name (.start k.config.simpleLayouts) 0 k.statements = .ok lowered ∧
      ∀ p, p = lowered.program ∨ k.program = .ok p →
        p.Reports (statements.flatMap Node.prefetched) := by
  have resolved : ∀ m ∈ k.statements, m.Resolved := by
    intro m hm
    obtain ⟨n, hn, done⟩ := exists_of_forall₂_right prepared hm
    exact Node.resolved_of_prepare (assembled n hn).rooted done
  obtain ⟨lowered, done⟩ :=
    lowerFrom_of_prepared assembled prepared k.name 0 (.start k.config.simpleLayouts)
  have operations := operationsOf_lowerFrom (fun m hm => (resolved m hm).carriesOut) done
  have attached : (operationsOf lowered.actions).filterMap Node.prefetch =
      statements.flatMap Node.prefetched := by
    have same : k.statements.map Node.prefetched = statements.map Node.prefetched :=
      map_eq_of_forall₂ (prepared.imp fun _ _ => Node.prefetched_of_prepare)
    calc
      (operationsOf lowered.actions).filterMap Node.prefetch =
          (k.statements.flatMap Node.operations).filterMap Node.prefetch := by
        rw [operations]
        rfl
      _ = k.statements.flatMap Node.prefetched := List.filterMap_flatMap
      _ = statements.flatMap Node.prefetched := by
        rw [List.flatMap_def, same, List.flatMap_def]
  have plain : operationsOf lowered.program.actions = operationsOf lowered.actions := by
    rw [Lowering.program, Program.actions_ofActions]
  refine ⟨?_, lowered, done, fun p compiled => ?_⟩
  · refine prepared.imp fun n m done => ?_
    have kept := Node.prefetched_of_prepare done
    refine ⟨kept, fun count x hx operation t attached => ?_⟩
    have ht : t ∈ n.prefetched :=
      List.mem_filterMap.mpr ⟨x, Node.operations_of_evaluated count x hx operation, attached⟩
    rw [← kept] at ht
    obtain ⟨y, hy, again⟩ := List.mem_filterMap.mp ht
    exact ⟨kept ▸ ht, y, Node.mem_postorder_of_operations hy, again⟩
  · have actions : operationsOf p.actions = operationsOf lowered.actions := by
      rcases compiled with rfl | compiled
      · exact plain
      · obtain ⟨lowered', done', rfl⟩ := program_eq_ok compiled
        obtain rfl := Except.ok.inj (done.symm.trans done')
        split
        · rw [CopyElimination.run, Program.actions_ofActions, CopyElimination.operationsOf_sweep,
            plain]
        · exact plain
    rw [← attached, ← actions]
    exact p.reports

/-- The statement `C_ij = (A_ik B_kj) G_j`, where `P` is to be prefetched while the operand in
brackets, a contraction of its own, is computed. -/
def weighted : Result Node := do
  let a ← Node.indexed (← Tensor.ofName "A" [2, 3]) ['i', 'k']
  let b ← Node.indexed (← Tensor.ofName "B" [3, 2]) ['k', 'j']
  let c ← Node.indexed (← Tensor.ofName "C" [2, 2]) ['i', 'j']
  let g ← Node.indexed (← Tensor.ofName "G" [2]) ['j']
  let p ← Tensor.ofName "P" [4]
  let product ← Node.contraction ⟨[⟨'i', 2⟩, ⟨'j', 2⟩]⟩ a b ⟨[⟨'k', 3⟩]⟩
  c.assignment (Node.einsum [{ product with prefetch := some p }, g])

theorem assembled_weighted {n : Node} (h : weighted = .ok n) : n.Assembled := by
  simp only [weighted, bind_eq_ok] at h
  obtain ⟨_, madeA, a, ha, _, madeB, b, hb, _, madeC, c, hc, _, madeG, g, hg, p, -, product,
    contracted, done⟩ := h
  have left := Node.Assembled.indexed (.ofName madeA) ha
  have right := Node.Assembled.indexed (.ofName madeB) hb
  have attached := Node.Assembled.prefetching p (.contraction left right contracted)
  have weight := Node.Assembled.indexed (.ofName madeG) hg
  refine .assignment (.indexed (.ofName madeC) hc) (.einsum fun x hx => ?_) done
  rcases List.mem_pair.mp hx with rfl | rfl
  · exact attached
  · exact weight

theorem draft_weighted : (do
      let n ← Outcome.ofResult weighted
      let k ← ofStatements "weigh" [n] .standard
      let p ← k.draft
      return (p.alone, n.prefetched.map Tensor.name)) = .ok (true, ["P"]) :=
  eq_ok_of_toOption (by decide +kernel)

theorem prefetches_prepared_weighted : ∃ n m k p, weighted = .ok n ∧ n.Assembled ∧
    k = Kernel.mk "weigh" [m] .standard ∧ n.prepare k.config = .ok m ∧ k.program = .ok p ∧
    n.prefetched.map Tensor.name = ["P"] ∧ m.prefetched = n.prefetched ∧
    p.Reports n.prefetched := by
  have drafted := draft_weighted
  simp only [bind_eq_ok, pure_eq_ok, Outcome.ofResult, mapError_eq_ok, Prod.mk.injEq] at drafted
  obtain ⟨n, built, k, accepted, p, drafted, alone, names⟩ := drafted
  have compiled := program_of_draft drafted alone
  obtain ⟨name, config, each⟩ := ofStatements_eq_ok accepted
  obtain ⟨m, statements, prepared⟩ := forall₂_one each
  have assembled := assembled_weighted built
  rw [← config] at each
  obtain ⟨kept, lowered, -, reports⟩ := prefetches_prepared (by simpa using assembled) each
  obtain ⟨kept, -⟩ := List.forall₂_cons.mp (statements ▸ kept)
  refine ⟨n, m, k, p, built, assembled, ?_, config ▸ prepared, compiled, names, kept.1, ?_⟩
  · rw [← name, ← config, ← statements]
  · simpa using reports p (.inr compiled)

/-- The statement `C_ij = A_ik B_kj`, where `P` is to be prefetched while the product is
computed. -/
def announced : Result Node := do
  let a ← Node.indexed (← Tensor.ofName "A" [2, 3]) ['i', 'k']
  let b ← Node.indexed (← Tensor.ofName "B" [3, 2]) ['k', 'j']
  let c ← Node.indexed (← Tensor.ofName "C" [2, 2]) ['i', 'j']
  let p ← Tensor.ofName "P" [4]
  let product ← a.times (.node b)
  c.assign (.node { product with prefetch := some p })

/-- What is attached to a product that is still to be resolved is lost: resolution makes a new node
of its operands. -/
theorem prefetch_lost : ∃ n k p, announced = .ok n ∧
    (∃ x ∈ n.postorder, x.kind = .einsum ∧ x.children.length = 2 ∧ x.prefetch ≠ none) ∧
    ofStatements "multiply" [n] .standard = .ok k ∧ k.program = .ok p ∧
    (∀ m ∈ k.statements, ∀ y ∈ m.postorder, y.prefetch = none) ∧ p.prefetches = [] := by
  have evaluated : (do
      let n ← Outcome.ofResult announced
      let k ← ofStatements "multiply" [n] .standard
      let p ← k.draft
      return (p.alone, n.postorder.any fun x =>
          x.kind = Kind.einsum && x.children.length = 2 && x.prefetch.isSome,
        k.statements.all fun m => m.postorder.all fun y => y.prefetch.isNone,
        (operationsOf p.actions).all fun x => x.prefetch.isNone)) = .ok (true, true, true, true) :=
    eq_ok_of_toOption (by decide +kernel)
  simp only [bind_eq_ok, pure_eq_ok, Outcome.ofResult, mapError_eq_ok, Prod.mk.injEq] at evaluated
  obtain ⟨n, built, k, accepted, p, drafted, alone, attached, lost, unreported⟩ := evaluated
  refine ⟨n, k, p, built, ?_, accepted, program_of_draft drafted alone, ?_, ?_⟩
  · simpa [and_assoc, Option.isSome_iff_ne_none] using attached
  · simpa using lost
  · refine List.eq_nil_iff_forall_not_mem.mpr fun t ht => ?_
    obtain ⟨x, hx, attached⟩ := List.mem_filterMap.mp (p.reports.attached t ht)
    have none := List.all_eq_true.mp unreported x hx
    simp [attached] at none

end Kernel

end TensorKernel
