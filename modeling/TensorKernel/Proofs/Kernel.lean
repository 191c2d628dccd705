import TensorKernel.Proofs.Execution
import TensorKernel.Proofs.Formula.Statement

/-!
Compilation is correct: the program of a kernel leaves in every tensor of the user what its
statements leave there, one after the other.

* `statement_spec`: one statement, from its formula to its actions;
* `lowerFrom_spec`: statements in one lowering;
* `program_run`: the whole kernel, with or without elimination of copies.
-/

namespace TensorKernel

section
variable {R : Type} [CommRing R] (scalars : Scalars R)

open Lowering

/-- The actions of a statement do what the statement does. -/
theorem statement_spec {tensors : List Tensor} (named : Named tensors) {config : Config}
    {s : Statement} {n m : Node} (known : ∀ t ∈ s.tensors, t ∈ tensors) (built : s.build = .ok n)
    (prepared : n.prepare config = .ok m) {a b : Lowering} {v : Variable}
    (lowered : Yields m.lower a v b) : ∃ as, b.actions = a.actions ++ as ∧
      Segment a.next b.next as ∧ Does scalars.value tensors as fun σ => s.run scalars σ := by
  have valid : ∀ t ∈ s.tensors, isIdentifier t.base = true := fun t ht =>
    named.valid t (known t ht)
  obtain ⟨leaf, value, builds⟩ := Statement.build_spec scalars valid built
  obtain ⟨target, source, ready⟩ :=
    Node.prepare_spec scalars.value builds.assignment builds.target prepared
  have free : source.Everywhere (·.kind ≠ .assign) := by
    obtain ⟨tensor, i, isTensor⟩ := builds.assignment.target
    refine (Node.prepare_operands Node.ofKind_free prepared ?_).2 source (by simp [ready.children])
    rw [builds.assignment.children]
    have leafFree := Node.Expression.free (.tensor isTensor)
    simpa using ⟨leafFree, builds.assignment.value.free⟩
  obtain ⟨as, appended, segment, assigns⟩ := lower_assign scalars.value ready.kind ready.children
    ready.leaf ready.leafWellFormed ready.wellFormed free lowered
  refine ⟨as, appended, segment, fun σ τ agree t ht e rank => ?_⟩
  have same : s.meaning scalars σ = s.meaning scalars τ := by
    simp only [Statement.build, bind_eq_ok] at built
    obtain ⟨_, -, _, right, -⟩ := built
    exact Statement.meaning_congr scalars valid right (agree.mono known)
  dsimp only
  by_cases written : t.name = s.target.name
  · obtain rfl := named.unique t ht s.target (known _ List.mem_cons_self) written
    have own : source.own = s.indices := Node.own_of_indices ready.indices
    have entry : s.indices.entryAt (s.indices.pointOf e) = e :=
      Indices.entryAt_pointOf builds.target.distinct (rank.trans builds.target.size.symm)
    have content := assigns.written τ (s.indices.pointOf e)
    rw [own, entry, ready.means, builds.meaning] at content
    rw [Statement.run, Function.update_self, content, same]
  · rw [Statement.run, Function.update_of_ne written,
      assigns.kept τ t.name (Tensor.name_ne_temporaryName (named.valid t ht)) written]
    exact agree t ht e rank

namespace Kernel

/-- Lowering takes the statements one after the other. -/
theorem lowerFrom_spec {tensors : List Tensor} (named : Named tensors) {config : Config}
    {name : String} {statements : List Statement} {nodes : List Node}
    (known : ∀ s ∈ statements, ∀ t ∈ s.tensors, t ∈ tensors)
    (each : List.Forall₂ (fun s m => ∃ n, s.build = .ok n ∧ n.prepare config = .ok m)
      statements nodes)
    {position : Nat} {a b : Lowering} (lowered : lowerFrom name a position nodes = .ok b) :
    ∃ as, b.actions = a.actions ++ as ∧ Segment a.next b.next as ∧
      Does scalars.value tensors as fun σ => statements.foldl (Statement.run scalars) σ := by
  refine lowerFrom_does scalars.value (forall₂_imp_of_mem each fun s hs m spec a v b step => ?_) lowered
  obtain ⟨n, built, prepared⟩ := spec
  exact statement_spec scalars named (known s hs) built prepared step

/-- A kernel that compiles computes what its statements mean: over every commutative ring and
whatever the tensors and scalars hold, its program leaves at each entry of each tensor what the
statements leave there under the summation convention. -/
theorem program_run {statements : List Statement} {nodes : List Node} {name : String}
    {config : Config} {k : Kernel} {p : Program}
    (built : statements.mapM Statement.build = .ok nodes)
    (prepared : ofStatements name nodes config = .ok k) (compiled : k.program = .ok p)
    {tensors : List Tensor} (named : Named tensors)
    (known : ∀ s ∈ statements, ∀ t ∈ s.tensors, t ∈ tensors)
    (σ : Store (Entry → R)) {t : Tensor} (ht : t ∈ tensors) {e : Entry}
    (rank : e.length = t.shape.length) :
    p.run (tensorMachine scalars.value) σ t.name e =
      statements.foldl (Statement.run scalars) σ t.name e := by
  simp only [ofStatements, bind_eq_ok, Outcome.within, mapError_eq_ok, pure_eq_ok] at prepared
  obtain ⟨_, -, done, each, rfl⟩ := prepared
  obtain ⟨lowered, actions, rfl⟩ := program_eq_ok compiled
  have both := forall₂_comp (mapM_eq_ok.mp built) (prepareFrom_eq_ok each)
  obtain ⟨as, appended, segment, does⟩ := lowerFrom_spec scalars named known both actions
  have plain : lowered.program.actions = as := by
    rw [Lowering.program, Program.actions_ofActions, appended]
    rfl
  have agree := does σ σ (fun _ _ _ _ => rfl) t ht e rank
  have run : lowered.program.run (tensorMachine scalars.value) σ t.name e =
      statements.foldl (Statement.run scalars) σ t.name e := by
    rw [Program.run, plain, ← agree]
  split
  · have overwritten := segment.temporariesOverwritten
    rw [← plain] at overwritten segment
    rw [← run, CopyElimination.run_of_not_temporary _ overwritten σ fun v hv same =>
      segment.isGlobal_of_name (Tensor.name_ne_temporaryName (named.valid t ht)) hv same]
  · exact run

def compile (name : String) (statements : List Statement) : Outcome Program := do
  let nodes ← Outcome.ofResult (statements.mapM Statement.build)
  (← ofStatements name nodes .standard).program

end Kernel

end

namespace Kernel

/-- The statements `C_ij = s A_ik B_kj - C_ij` and `B_ij = A_ki (B_kj + C_kj)`, whose targets are
operands too. -/
def updates : List Statement :=
  let tensor (name : String) (names : List Char) : Formula := .tensor (square name) names
  [⟨square "C", ['i', 'j'], .minus
      (.scale (.named "s") (.times (tensor "A" ['i', 'k']) (tensor "B" ['k', 'j'])))
      (tensor "C" ['i', 'j'])⟩,
    ⟨square "B", ['i', 'j'], .times (tensor "A" ['k', 'i'])
      (.plus (tensor "B" ['k', 'j']) (tensor "C" ['k', 'j']))⟩]

theorem compile_updates :
    (fun p => p.actions.map Action.text) <$> compile "update" updates = .ok
      ["_tmp1 = s * LoopOverGEMM(A, B)", "_tmp2 = -1.0 * C", "C = _tmp1", "C += _tmp2",
        "_tmp4 = B", "_tmp4 += C", "B = LoopOverGEMM(A, _tmp4)"] := by
  have drafted : (do
      let nodes ← Outcome.ofResult (updates.mapM Statement.build)
      let k ← ofStatements "update" nodes .standard
      let p ← k.draft
      return (p.alone, p.actions.map Action.text)) = .ok
        (true, ["_tmp1 = s * LoopOverGEMM(A, B)", "_tmp2 = -1.0 * C", "C = _tmp1", "C += _tmp2",
          "_tmp4 = B", "_tmp4 += C", "B = LoopOverGEMM(A, _tmp4)"]) :=
    eq_ok_of_toOption (by decide +kernel)
  simp only [bind_eq_ok, pure_eq_ok, Prod.mk.injEq] at drafted
  obtain ⟨nodes, built, k, prepared, p, drafted, alone, texts⟩ := drafted
  rw [compile, built, ok_bind, prepared, ok_bind, program_of_draft drafted alone]
  exact congrArg Except.ok texts

theorem program_run_updates :
    let scalars : Scalars Int := ⟨fun factor => if factor = .constant .minusOne then -1 else 3, rfl⟩
    let σ : Store (Entry → Int) := fun name e => if name = "A" then 2 * e.sum + 1 else e.sum + 2
    ∃ nodes k p, updates.mapM Statement.build = .ok nodes ∧
      ofStatements "update" nodes .standard = .ok k ∧ k.program = .ok p ∧
      Named [square "A", square "B", square "C"] ∧
      p.run (tensorMachine scalars.value) σ "B" [1, 0] =
        updates.foldl (Statement.run scalars) σ "B" [1, 0] ∧
      updates.foldl (Statement.run scalars) σ "B" [1, 0] = 414 := by
  intro scalars σ
  obtain ⟨p, compiled, -⟩ := map_eq_ok.mp compile_updates
  simp only [compile, bind_eq_ok, Outcome.ofResult, mapError_eq_ok] at compiled
  obtain ⟨nodes, built, k, prepared, compiled⟩ := compiled
  have named : Named [square "A", square "B", square "C"] := ⟨by decide, by decide⟩
  refine ⟨nodes, k, p, built, prepared, compiled, named, ?_, by decide +kernel⟩
  exact program_run scalars built prepared compiled named (by decide) σ (t := square "B")
    (by decide) (by decide)

end Kernel

end TensorKernel
