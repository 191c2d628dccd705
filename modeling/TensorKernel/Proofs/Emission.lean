import TensorKernel.Kernel
import TensorKernel.Proofs.Program.Lowering
import TensorKernel.Proofs.Tree.Operability

/-!
What preparation accepts can be compiled. The operations of prepared statements can be counted, the
statements can be lowered one after the other in any state, and a program fails for one reason only:
it uses a tensor name both with a group and without.

* `Succeeds`: a step of a lowering that does not fail;
* `Resolved.lower_succeeds`: resolved trees of operable nodes;
* `emits`: the statements of a kernel;
* `program_of_draft`: the program of a kernel whose tensors stand alone.
-/

namespace TensorKernel

namespace Lowering

section
variable {α β : Type} {s : Lowering}

def Succeeds (x : LoweringM α) (s : Lowering) : Prop := ∃ a t, Yields x s a t

theorem succeeds_bind {x : LoweringM α} {f : α → LoweringM β} (hx : Succeeds x s)
    (hf : ∀ a t, Yields x s a t → Succeeds (f a) t) : Succeeds (x >>= f) s := by
  obtain ⟨a, r, first⟩ := hx
  obtain ⟨b, t, rest⟩ := hf a r first
  exact ⟨b, t, yields_bind.mpr ⟨a, r, first, rest⟩⟩

theorem succeeds_pure (a : α) : Succeeds (pure a) s := ⟨a, s, yields_pure.mpr ⟨rfl, rfl⟩⟩

theorem succeeds_get : Succeeds get s := ⟨s, s, yields_get.mpr ⟨rfl, rfl⟩⟩

theorem succeeds_modify (f : Lowering → Lowering) : Succeeds (modify f) s :=
  ⟨(), f s, yields_modify.mpr rfl⟩

theorem succeeds_check {x : Result α} {a : α} (h : x = .ok a) : Succeeds (check x) s :=
  ⟨a, s, yields_check.mpr ⟨h, rfl⟩⟩

theorem succeeds_accumulate (sum : Variable) (operands : List Variable) :
    Succeeds (accumulate sum operands) s := by
  have later (rest : List Variable) (s : Lowering) :
      Succeeds (rest.forM fun operand => emit ⟨sum, .copy operand, true, none⟩) s := by
    induction rest generalizing s with
    | nil => exact succeeds_pure ()
    | cons v vs ih => exact succeeds_bind (succeeds_modify _) fun _ t _ => ih t
  cases operands with
  | nil => exact succeeds_pure ()
  | cons first rest => exact succeeds_bind (succeeds_modify _) fun _ t _ => later rest t

variable {n : Node}

/-- The layout of a node of known indices and storage, in either layout mode. -/
theorem succeeds_layoutOf (known : n.indices ≠ none) (stored : ∃ l, n.storage? = some l) :
    Succeeds (layoutOf n) s := by
  obtain ⟨i, indices⟩ := Option.ne_none_iff_exists'.mp known
  obtain ⟨l, layout⟩ := stored
  refine succeeds_bind succeeds_get fun now t _ => ?_
  split
  · refine succeeds_bind (succeeds_check (a := i.shape) ?_) fun _ _ _ => succeeds_pure _
    exact bind_eq_ok.mpr ⟨i, Node.deducedIndices_eq_ok.mpr indices, rfl⟩
  · exact succeeds_check (Node.computedLayout_eq_ok.mpr layout)

theorem succeeds_temporary (known : n.indices ≠ none) (stored : ∃ l, n.storage? = some l) :
    Succeeds (temporary n) s :=
  succeeds_bind succeeds_get fun _ _ _ => succeeds_bind (succeeds_modify _) fun _ _ _ =>
    succeeds_bind (succeeds_layoutOf known stored) fun _ _ _ => succeeds_pure _

theorem succeeds_lowerAll {children : List Node}
    (each : ∀ c ∈ children, ∀ s, Succeeds c.lower s) : Succeeds (Node.lowerAll children) s := by
  induction children generalizing s with
  | nil => exact succeeds_pure []
  | cons c cs ih =>
    obtain ⟨first, rest⟩ := List.forall_mem_cons.mp each
    exact succeeds_bind (first s) fun _ _ _ =>
      succeeds_bind (ih rest) fun _ _ _ => succeeds_pure _

end

end Lowering

open Lowering

namespace Node

/-- A resolved tree can be lowered whatever was lowered before, if its nodes have patterns and
layouts. -/
theorem Resolved.lower_succeeds {n : Node} (h : n.Resolved) (operable : n.Everywhere Operable)
    (stored : n.Everywhere fun x => ∃ l, x.storage? = some l) (s : Lowering) :
    Succeeds n.lower s := by
  have known := h.known (operable.mono fun x operable add => operable.term (.inl add))
  have place := stored.root
  induction h generalizing s with
  | @leaf n t kind _ =>
    obtain ⟨_, _, _, _, _, _⟩ := n
    obtain rfl := kind
    rw [lower]
    exact succeeds_bind (succeeds_layoutOf known place) fun _ _ _ =>
      succeeds_bind succeeds_get fun _ _ _ => succeeds_pure _
  | @add n kind _ resolved ih =>
    have summand := operable.root.term (.inl kind)
    have each : ∀ c ∈ n.children, ∀ s, Succeeds c.lower s := by
      intro c hc s
      have operable := operable.children c hc
      exact ih c hc operable (stored.children c hc) s
        ((resolved c hc).known (operable.mono fun x operable add => operable.term (.inl add)))
        (stored.children c hc).root
    obtain ⟨_, _, _, _, _, children⟩ := n
    obtain rfl := kind
    rw [lower]
    refine succeeds_bind (succeeds_lowerAll each) fun vs t lowered => ?_
    split
    · next empty =>
      have none : children.length = 0 := by
        rw [← (lowersAll_of_yields lowered).length, List.isEmpty_iff.mp empty, List.length_nil]
      exact absurd (List.length_eq_zero_iff.mp none) summand
    · exact succeeds_bind (succeeds_temporary known place) fun _ _ _ =>
        succeeds_bind (succeeds_accumulate _ _) fun _ _ _ => succeeds_pure _
  | @scale n term factor kind operand same resolved ih =>
    have member : term ∈ n.children := by simp [operand]
    have first (s : Lowering) : Succeeds term.lower s :=
      ih (operable.children term member) (stored.children term member) s (same ▸ known)
        (stored.children term member).root
    obtain ⟨_, _, _, _, _, _⟩ := n
    obtain rfl := kind
    obtain rfl := operand
    rw [lower, lowerTerm]
    exact succeeds_bind (first s) fun _ _ _ =>
      succeeds_bind (succeeds_temporary known place) fun _ _ _ =>
        succeeds_bind (succeeds_modify _) fun _ _ _ => succeeds_pure _
  | @computed n kind _ resolved ih =>
    have binary := operable.root.binary
    have each : ∀ c ∈ n.children, ∀ s, Succeeds c.lower s := by
      intro c hc s
      have operable := operable.children c hc
      exact ih c hc operable (stored.children c hc) s
        ((resolved c hc).known (operable.mono fun x operable add => operable.term (.inl add)))
        (stored.children c hc).root
    obtain ⟨nodeKind, _, _, _, _, children⟩ := n
    cases nodeKind with
    | leaf | einsum | add | scale => simp [Kind.isOperation] at kind
    | assign =>
      obtain ⟨target, value, rfl⟩ := binary rfl
      rw [lower, lowerAssigned]
      have rest (t : Lowering) : Succeeds (do
          let result ← target.lower
          let source ← value.lower
          emit ⟨result, .copy source, false, none⟩
          pure result) t :=
        succeeds_bind (each target (by simp) _) fun _ _ _ =>
          succeeds_bind (each value (by simp) _) fun _ _ _ =>
            succeeds_bind (succeeds_modify _) fun _ _ _ => succeeds_pure _
      cases target.tensorName? with
      | some name => exact succeeds_bind (succeeds_modify _) fun _ t _ => rest t
      | none => exact rest s
    | indexSum | product | contraction | gemm =>
      rw [lower]
      exact succeeds_bind (succeeds_lowerAll each) fun _ _ _ =>
        succeeds_bind (succeeds_temporary known place) fun _ _ _ =>
          succeeds_bind (succeeds_layoutOf known place) fun _ _ _ =>
            succeeds_bind (succeeds_modify _) fun _ _ _ => succeeds_pure _

/-- A prepared statement can be lowered, whatever it was put together from. -/
theorem lower_of_prepare {config : Config} {n m : Node} (assembled : n.Assembled)
    (h : n.prepare config = .ok m) (s : Lowering) : Succeeds m.lower s :=
  (resolved_of_prepare assembled.rooted h).lower_succeeds (operable_of_prepare h)
    (stored_of_prepare h) s

end Node

/-! ### Groups -/

section
variable {α : Type} {r : α → α → Bool}

theorem mem_of_mem_eraseDupsBy {as : List α} {a : α} (h : a ∈ as.eraseDupsBy r) : a ∈ as := by
  match as with
  | [] => exact h
  | b :: bs =>
    rw [List.eraseDupsBy_cons, List.mem_cons] at h
    rcases h with rfl | h
    · exact List.mem_cons_self
    · exact List.mem_cons_of_mem b (List.mem_of_mem_filter (mem_of_mem_eraseDupsBy h))
termination_by as.length
decreasing_by exact Nat.lt_succ_of_le (List.length_filter_le _ _)

end

namespace Program

theorem mem_variablesOf_of_mem_globals {p : Program} {v : Variable} (hv : v ∈ p.globals) :
    v ∈ variablesOf p.actions :=
  (List.mem_filter.mp (mem_of_mem_eraseDupsBy (List.mem_mergeSort.mp hv))).1

/-- Whether no tensor of a program is a member of a group. -/
def alone (p : Program) : Bool :=
  (variablesOf p.actions).all fun v => v.tensor.all fun t => t.group.isNone

theorem addToGroups_of_alone (base : String) {groups : Groups}
    (single : ∀ entry ∈ groups, entry.2 = none) :
    ∃ gs, addToGroups base none groups = .ok gs ∧ ∀ entry ∈ gs, entry.2 = none := by
  induction groups with
  | nil => exact ⟨_, rfl, by simp⟩
  | cons entry rest ih =>
    obtain ⟨here, later⟩ := List.forall_mem_cons.mp single
    obtain ⟨other, members⟩ := entry
    obtain rfl : members = none := here
    by_cases same : other = base
    · refine ⟨(base, none) :: rest, ?_, by simpa using later⟩
      rw [addToGroups, if_pos same]
      rfl
    · obtain ⟨gs, added, kept⟩ := ih later
      refine ⟨(other, none) :: gs, ?_, by simpa using kept⟩
      rw [addToGroups, if_neg same, added]
      rfl

theorem foldlM_of_alone {tensors : List Tensor} (alone : ∀ t ∈ tensors, t.group = none)
    {groups : Groups} (single : ∀ entry ∈ groups, entry.2 = none) :
    ∃ gs, tensors.foldlM (fun groups (t : Tensor) => addToGroups t.base t.group groups)
      groups = Except.ok gs := by
  induction tensors generalizing groups with
  | nil => exact ⟨groups, rfl⟩
  | cons t ts ih =>
    obtain ⟨here, later⟩ := List.forall_mem_cons.mp alone
    obtain ⟨gs, added, kept⟩ := addToGroups_of_alone t.base single
    rw [List.foldlM_cons, here, added]
    exact ih later kept

/-- Tensors that stand alone are not refused for their groups. -/
theorem groups_of_alone {p : Program} (h : p.alone = true) : ∃ gs, p.groups = .ok gs := by
  refine foldlM_of_alone (fun t ht => ?_) (by simp)
  obtain ⟨v, hv, carries⟩ := List.mem_filterMap.mp ht
  have single := List.all_eq_true.mp h v (mem_variablesOf_of_mem_globals hv)
  simpa [carries] using single

end Program

namespace Kernel

theorem lowerFrom_cons_eq_ok {name : String} {position : Nat} {a b : Lowering} {n : Node}
    {nodes : List Node} (h : lowerFrom name a position (n :: nodes) = .ok b) :
    ∃ v r, Yields n.lower a v r ∧ lowerFrom name r (position + 1) nodes = .ok b := by
  rw [lowerFrom] at h
  split at h
  · next v r lowered => exact ⟨v, r, lowered, h⟩
  · cases h

theorem lowerFrom_cons {name : String} {position : Nat} {a r : Lowering} {n : Node} {v : Variable}
    (nodes : List Node) (h : Yields n.lower a v r) :
    lowerFrom name a position (n :: nodes) = lowerFrom name r (position + 1) nodes := by
  have run : n.lower.run a = (Except.ok v, r) := h
  rw [lowerFrom, run]

theorem lowerFrom_succeeds {nodes : List Node} (each : ∀ m ∈ nodes, ∀ s, Succeeds m.lower s)
    (name : String) (position : Nat) (a : Lowering) :
    ∃ b, lowerFrom name a position nodes = .ok b := by
  induction nodes generalizing position a with
  | nil => exact ⟨a, rfl⟩
  | cons m nodes ih =>
    obtain ⟨first, rest⟩ := List.forall_mem_cons.mp each
    obtain ⟨v, r, step⟩ := first a
    obtain ⟨b, done⟩ := ih rest (position + 1) r
    exact ⟨b, (lowerFrom_cons nodes step).trans done⟩

theorem prepareFrom_eq_ok {name : String} {config : Config} {position : Nat}
    {nodes done : List Node} (h : prepareFrom name config position nodes = .ok done) :
    List.Forall₂ (fun n m => n.prepare config = .ok m) nodes done := by
  induction nodes generalizing position done with
  | nil =>
    obtain rfl := pure_eq_ok.mp h
    exact .nil
  | cons n nodes ih =>
    simp only [prepareFrom, bind_eq_ok, Outcome.within, mapError_eq_ok, pure_eq_ok] at h
    obtain ⟨m, prepared, ms, rest, rfl⟩ := h
    exact .cons prepared (ih rest)

theorem ofStatements_eq_ok {name : String} {statements : List Node} {config : Config} {k : Kernel}
    (h : ofStatements name statements config = .ok k) :
    k.name = name ∧ k.config = config ∧
      List.Forall₂ (fun n m => n.prepare config = .ok m) statements k.statements := by
  simp only [ofStatements, bind_eq_ok, pure_eq_ok] at h
  obtain ⟨_, -, prepared, each, rfl⟩ := h
  exact ⟨rfl, rfl, prepareFrom_eq_ok each⟩

theorem program_eq_ok {k : Kernel} {p : Program} (h : k.program = .ok p) :
    ∃ lowered, lowerFrom k.name (.start k.config.simpleLayouts) 0 k.statements = .ok lowered ∧
      p = if k.config.eliminateCopies then CopyElimination.run lowered.program
        else lowered.program := by
  simp only [program, bind_eq_ok, Outcome.within, mapError_eq_ok, pure_eq_ok] at h
  obtain ⟨lowered, done, _, -, rfl⟩ := h
  exact ⟨lowered, done, rfl⟩

/-- Prepared statements can be lowered in any state. -/
theorem lowerFrom_of_prepared {config : Config} {statements nodes : List Node}
    (assembled : ∀ n ∈ statements, n.Assembled)
    (prepared : List.Forall₂ (fun n m => n.prepare config = .ok m) statements nodes) (name : String)
    (position : Nat) (a : Lowering) : ∃ b, lowerFrom name a position nodes = .ok b := by
  refine lowerFrom_succeeds (fun m hm => ?_) name position a
  obtain ⟨n, hn, done⟩ := exists_of_forall₂_right prepared hm
  exact Node.lower_of_prepare (assembled n hn) done

/-- The program of a kernel, whatever its groups are. -/
def draft (k : Kernel) : Outcome Program := do
  let lowered ← lowerFrom k.name (.start k.config.simpleLayouts) 0 k.statements
  return if k.config.eliminateCopies then CopyElimination.run lowered.program else lowered.program

theorem program_of_draft {k : Kernel} {p : Program} (drafted : k.draft = .ok p)
    (alone : p.alone = true) : k.program = .ok p := by
  simp only [draft, bind_eq_ok, pure_eq_ok] at drafted
  obtain ⟨lowered, done, rfl⟩ := drafted
  obtain ⟨groups, found⟩ := Program.groups_of_alone alone
  rw [program, done, ok_bind]
  dsimp only
  rw [found]
  rfl

/-- The statement `C_ij = A_ik B_kj`, in which the operands of the contraction change places and
`D_ji` takes the place of the target after it was built. -/
def exchanged : Result (List Node) := do
  let a ← Node.indexed (← Tensor.ofName "A" [2, 3]) ['i', 'k']
  let b ← Node.indexed (← Tensor.ofName "B" [3, 2]) ['k', 'j']
  let c ← Node.indexed (← Tensor.ofName "C" [2, 2]) ['i', 'j']
  let d ← Node.indexed (← Tensor.ofName "D" [2, 2]) ['j', 'i']
  let product ← Node.contraction ⟨[⟨'i', 2⟩, ⟨'j', 2⟩]⟩ a b ⟨[⟨'k', 3⟩]⟩
  let swapped ← product.withChildren [b, a]
  let statement ← c.assignment swapped
  return [← statement.withChildren [d, swapped]]

end Kernel

end TensorKernel
