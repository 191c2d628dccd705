import TensorKernel.Proofs.Program.Steps
import TensorKernel.Proofs.Tree.WellFormed

/-!
Lowering keeps values. The actions of a tree are a segment that writes temporaries only; after them
the variable of the tree holds its value, whatever was in the temporaries before.

* `compute_eq_valueAt`, `run_additions`: what an operation and a sum leave in their temporary;
* `lower_spec`: the actions of a tree;
* `lower_assign`: the actions of an assignment.
-/

namespace TensorKernel

section
variable {R : Type} [CommSemiring R] (scalars : Factor → R)

open Lowering

theorem run_copies {sum : Variable} {operands : List Variable} (σ : Store (Entry → R))
    (apart : ∀ v ∈ operands, v.name ≠ sum.name) :
    runActions (tensorMachine scalars) σ
        (operands.map fun operand => ⟨sum, .copy operand, true, none⟩) sum.name =
      σ sum.name + (operands.map fun v => σ v.name).sum := by
  induction operands generalizing σ with
  | nil => simp
  | cons v vs ih =>
    obtain ⟨first, rest⟩ := List.forall_mem_cons.mp apart
    let a : Action := ⟨sum, .copy v, true, none⟩
    have kept : vs.map (fun w => a.run (tensorMachine scalars) σ w.name) =
        vs.map fun w => σ w.name :=
      List.map_congr_left fun w hw => Action.run_of_ne _ σ (rest w hw)
    have written : a.run (tensorMachine scalars) σ sum.name = σ sum.name + σ v.name :=
      Action.run_result _ σ a
    rw [List.map_cons, runActions_cons, ih _ rest, kept, written, List.map_cons, List.sum_cons,
      add_assoc]

/-- A sum holds what its operands held. -/
theorem run_additions {sum : Variable} {operands : List Variable} (σ : Store (Entry → R))
    (some_operand : operands ≠ []) (apart : ∀ v ∈ operands, v.name ≠ sum.name) :
    runActions (tensorMachine scalars) σ (additions sum operands) sum.name =
      (operands.map fun v => σ v.name).sum := by
  cases operands with
  | nil => exact absurd rfl some_operand
  | cons v vs =>
    obtain ⟨-, rest⟩ := List.forall_mem_cons.mp apart
    let a : Action := ⟨sum, .copy v, false, none⟩
    have kept : vs.map (fun w => a.run (tensorMachine scalars) σ w.name) =
        vs.map fun w => σ w.name :=
      List.map_congr_left fun w hw => Action.run_of_ne _ σ (rest w hw)
    have written : a.run (tensorMachine scalars) σ sum.name = σ v.name :=
      Action.run_result _ σ a
    rw [additions, runActions_cons, run_copies scalars _ rest, kept, written, List.map_cons,
      List.sum_cons]

namespace Node

/-- An operation on the values of the children of a node gives the value of the node. -/
theorem compute_eq_valueAt {n : Node} (leaf : n.kind.isLeaf = false) {σ : Store (Entry → R)}
    {contents : List (Entry → R)}
    (h : List.Forall₂ (fun c x => ∀ p, x (c.own.entryAt p) = c.valueAt scalars σ p)
      n.children contents) (p : Point) :
    n.compute scalars contents (n.own.entryAt p) = n.valueAt scalars σ p := by
  have operands {cs : List Node} {xs : List (Entry → R)}
      (h : List.Forall₂ (fun c x => ∀ p, x (c.own.entryAt p) = c.valueAt scalars σ p) cs xs) :
      List.zipWith stored cs xs = cs.map (asOperand scalars σ) := by
    induction h with
    | nil => rfl
    | cons holds _ ih => rw [List.zipWith_cons_cons, ih, List.map_cons, stored, funext holds, asOperand]
  rw [valueAt_eq scalars σ leaf, compute, Indices.pointOf_entryAt, operands h]

end Node

/-! ### Trees -/

def SameTensors {V : Type} (σ τ : Store V) : Prop :=
  ∀ name, (∀ k, name ≠ temporaryName k) → τ name = σ name

theorem SameTensors.run {V : Type} {m : Machine V} {σ τ : Store V} {lo hi : Nat}
    {actions : List Action} (h : SameTensors σ τ) (scratch : Scratch lo hi actions) :
    SameTensors σ (runActions m τ actions) := by
  intro name tensor
  rw [scratch.run_of_outside m τ fun k _ _ => tensor k, h name tensor]

structure Holds (lo hi : Nat) (actions : List Action) (n : Node) (v : Variable) : Prop where
  inRange : v.InRange lo hi
  indices : n.indices = some n.own
  value : ∀ σ τ, SameTensors σ τ → ∀ p,
    runActions (tensorMachine scalars) τ actions v.name (n.own.entryAt p) = n.valueAt scalars σ p

namespace Holds

variable {lo mid hi : Nat} {actions more : List Action} {n : Node} {v : Variable}

theorem before (h : Holds scalars lo mid actions n v) (scratch : Scratch mid hi more) :
    Holds scalars lo hi (actions ++ more) n v := by
  refine ⟨h.inRange.mono (Nat.le_refl lo) scratch.le, h.indices, fun σ τ same p => ?_⟩
  rw [runActions_append, scratch.run_of_inRange _ _ h.inRange, h.value σ τ same]

theorem after (scratch : Scratch lo mid actions) (h : Holds scalars mid hi more n v) :
    Holds scalars lo hi (actions ++ more) n v := by
  refine ⟨h.inRange.mono scratch.le (Nat.le_refl hi), h.indices, fun σ τ same p => ?_⟩
  rw [runActions_append, h.value σ _ (same.run scratch)]

end Holds

/-- The actions that a step appends are a segment with the temporaries that the step has taken. -/
structure Emits (s t : Lowering) (actions : List Action) : Prop where
  appended : t.actions = s.actions ++ actions
  scratch : Scratch s.next t.next actions

theorem Emits.refl (s : Lowering) : Emits s s [] :=
  ⟨(List.append_nil _).symm, .nil s.next⟩

theorem Emits.trans {s r t : Lowering} {as bs : List Action} (h : Emits s r as)
    (k : Emits r t bs) : Emits s t (as ++ bs) :=
  ⟨by rw [k.appended, h.appended, List.append_assoc], h.scratch.concat k.scratch⟩

/-- A variable of which a step has written the value of a tree. -/
def Leaves (n : Node) (s : Lowering) (v : Variable) (t : Lowering) : Prop :=
  ∃ as, Emits s t as ∧ Holds scalars s.next t.next as n v

/-- Actions that write the next temporary, the first of them overwriting it. -/
theorem leaves_of_defined {n : Node} {s r t : Lowering} {as more : List Action} {result : Variable}
    (h : Emits s r as) (takes : Takes r result more t) (defined : DefinedFirst result.name more)
    (results : ∀ a ∈ more, a.result = result)
    (inputs : ∀ a ∈ more, ∀ v ∈ a.term.inputs, v.InRange s.next r.next)
    (indices : n.indices = some n.own)
    (value : ∀ σ τ, SameTensors σ τ → ∀ p, runActions (tensorMachine scalars)
      (runActions (tensorMachine scalars) τ as) more result.name (n.own.entryAt p) =
        n.valueAt scalars σ p) : Leaves scalars n s result t := by
  obtain ⟨isLocal, -, name, rfl⟩ := takes
  refine ⟨as ++ more, ⟨?_, h.scratch.define (name ▸ defined) (fun a ha => ?_) inputs⟩,
    .temporary r.next h.scratch.le (Nat.lt_succ_self r.next) isLocal name, indices,
    fun σ τ same p => ?_⟩
  · rw [h.appended, List.append_assoc]
  · rw [results a ha]
    exact ⟨isLocal, name⟩
  · rw [runActions_append, value σ τ same]

def Lowers (n : Node) : Prop := ∀ s v t, Yields n.lower s v t → Leaves scalars n s v t

theorem lowerAll_spec {children : List Node} (each : ∀ c ∈ children, Lowers scalars c)
    {s t : Lowering} {vs : List Variable} (h : LowersAll children s vs t) :
    ∃ as, Emits s t as ∧ List.Forall₂ (Holds scalars s.next t.next as) children vs := by
  induction h with
  | nil s => exact ⟨[], .refl s, .nil⟩
  | cons lowered _ ih =>
    obtain ⟨first, rest⟩ := List.forall_mem_cons.mp each
    obtain ⟨as, emits, holds⟩ := first _ _ _ lowered
    obtain ⟨bs, emits', holds'⟩ := ih rest
    exact ⟨as ++ bs, emits.trans emits', .cons (holds.before scalars emits'.scratch)
      (holds'.imp fun _ _ held => held.after scalars emits.scratch)⟩

section
variable {n : Node} {s r t : Lowering} {as : List Action} {vs : List Variable} {result : Variable}

theorem inRange_of_holds {cs : List Node} {lo hi : Nat}
    (h : List.Forall₂ (Holds scalars lo hi as) cs vs) : ∀ v ∈ vs, v.InRange lo hi := by
  intro v hv
  obtain ⟨c, -, held⟩ := exists_of_forall₂_right h hv
  exact held.inRange

/-- The operation of a node on what its children left. -/
theorem leaves_operation {layout : Layout} (leaf : n.kind.isLeaf = false)
    (indices : n.indices = some n.own) (emits : Emits s r as)
    (operands : List.Forall₂ (Holds scalars s.next r.next as) n.children vs)
    (takes : Takes r result [⟨result, .operation n layout vs, false, none⟩] t) :
    Leaves scalars n s result t := by
  let a : Action := ⟨result, .operation n layout vs, false, none⟩
  refine leaves_of_defined scalars emits takes (definedFirst_cons (a := a) rfl)
    (by simp) (by simpa [Term.inputs] using inRange_of_holds scalars operands) indices
    fun σ τ same p => ?_
  have written (ρ : Store (Entry → R)) : a.run (tensorMachine scalars) ρ result.name =
      n.compute scalars (vs.map fun v => ρ v.name) :=
    Action.run_result _ ρ a
  rw [runActions_cons, runActions_nil, written]
  refine n.compute_eq_valueAt scalars leaf ?_ p
  rw [List.forall₂_map_right_iff]
  exact operands.imp fun _ _ held => held.value σ τ same

/-- A term times a factor. -/
theorem leaves_scaled {term : Node} {factor : Factor} {v : Variable} (kind : n.kind = .scale factor)
    (children : n.children = [term]) (aligned : term.indices = n.indices) (emits : Emits s r as)
    (held : Holds scalars s.next r.next as term v)
    (takes : Takes r result [⟨result, .copy v, false, some factor⟩] t) :
    Leaves scalars n s result t := by
  let a : Action := ⟨result, .copy v, false, some factor⟩
  have own : n.own = term.own := Node.own_eq aligned.symm
  refine leaves_of_defined scalars emits takes (definedFirst_cons (a := a) rfl)
    (by simp) (by simpa [Term.inputs] using held.inRange) (by rw [own, ← aligned, held.indices])
    fun σ τ same p => ?_
  have written (ρ : Store (Entry → R)) (e : Entry) :
      a.run (tensorMachine scalars) ρ result.name e = scalars factor * ρ v.name e :=
    congrFun (Action.run_result _ ρ a) e
  rw [runActions_cons, runActions_nil, written, own, held.value σ τ same,
    Node.valueAt_scaled scalars σ kind children (fun name hn => own ▸ hn)]

/-- The sum of what the children left, which is stored in the order of the sum. -/
theorem leaves_sum (kind : n.kind = .add) (some_operand : vs ≠ [])
    (aligned : ∀ c ∈ n.children, c.indices = none ∨ c.indices = n.indices) (emits : Emits s r as)
    (operands : List.Forall₂ (Holds scalars s.next r.next as) n.children vs)
    (takes : Takes r result (additions result (summationOrder vs)) t) :
    Leaves scalars n s result t := by
  have order := summationOrder_perm vs
  have inRange : ∀ v ∈ summationOrder vs, v.InRange s.next r.next := by
    intro v hv
    exact inRange_of_holds scalars operands v (order.mem_iff.mp hv)
  have nonempty : summationOrder vs ≠ [] := by
    intro empty
    exact some_operand (List.nil_perm.mp (empty ▸ order))
  have known : ∀ c ∈ n.children, c.indices = n.indices := by
    intro c hc
    obtain ⟨v, -, held⟩ := exists_of_forall₂_right operands.flip hc
    exact (aligned c hc).resolve_left (by simp [held.indices])
  have indices : n.indices = some n.own := by
    obtain ⟨v, hv⟩ := List.exists_mem_of_ne_nil vs some_operand
    obtain ⟨c, hc, held⟩ := exists_of_forall₂_right operands hv
    rw [Node.own_eq (known c hc).symm, ← known c hc, held.indices]
  have apart : ∀ v ∈ summationOrder vs, v.name ≠ result.name := by
    intro v hv
    rw [takes.name]
    exact (inRange v hv).name_ne (.inr (Nat.le_refl r.next))
  apply leaves_of_defined scalars emits takes (definedFirst_additions nonempty)
    (fun a ha => (mem_additions ha).1)
    (fun a ha v hv => inRange v (mem_of_input_of_additions ha hv)) indices
  intro σ τ same p
  have each : vs.map (fun v => runActions (tensorMachine scalars) τ as v.name (n.own.entryAt p)) =
      n.children.map fun c => c.valueAt scalars σ p := by
    refine map_eq_of_forall₂ (forall₂_imp_of_mem operands fun c hc v held => ?_)
    rw [Node.own_eq (known c hc).symm, held.value σ τ same]
  have sub : ∀ c ∈ n.children, ∀ name ∈ c.own.names, name ∈ n.own.names := by
    intro c hc name hn
    rwa [← Node.own_eq (known c hc)]
  rw [run_additions scalars _ nonempty apart, (order.map _).sum_eq, sum_apply, List.map_map,
    Node.valueAt_sum scalars σ kind sub, ← each]
  rfl

end

theorem leaves_leaf {n : Node} {tensor : Tensor} (kind : n.kind = .leaf tensor)
    (hn : n.WellFormed) {s : Lowering} {v : Variable} (isGlobal : v.isGlobal = true)
    (name : v.name = tensor.name) : Leaves scalars n s v s := by
  have fits := hn.fits
  rw [kind] at fits
  obtain ⟨i, known, -, valid⟩ := fits
  have apart := Tensor.name_ne_temporaryName valid
  have indices : n.indices = some n.own := by rw [Node.own_of_indices known, known]
  refine ⟨[], .refl s, .tensor isGlobal (name ▸ apart), indices, fun σ τ same p => ?_⟩
  rw [runActions_nil, name, same _ apart, Node.valueAt, Node.value_leaf scalars σ kind]

/-- Lowering a tree keeps its value, as long as nothing is assigned in it. -/
theorem lower_spec {n : Node} (hn : n.WellFormed) (free : n.Everywhere (·.kind ≠ .assign)) :
    Lowers scalars n := by
  induction n using Node.induction with
  | node kind indices pattern layout prefetch children ih =>
    have each : ∀ c ∈ children, Lowers scalars c := fun c hc =>
      ih c hc (hn.children c hc) (free.children c hc)
    have fits := hn.fits
    intro s v t h
    have done := lower_cases h
    cases kind with
    | leaf tensor =>
      obtain ⟨isGlobal, name, -, rfl⟩ := done
      exact leaves_leaf scalars rfl hn isGlobal name
    | einsum => exact fits.elim
    | assign => exact absurd rfl free.root
    | add =>
      obtain ⟨vs, r, lowered, some_operand, takes⟩ := done
      obtain ⟨as, emits, operands⟩ := lowerAll_spec scalars each lowered
      exact leaves_sum scalars rfl some_operand fits emits operands takes
    | scale factor =>
      obtain ⟨term, rfl, aligned⟩ := fits
      obtain ⟨_, _, w, r, ⟨⟩, lowered, takes⟩ := done
      obtain ⟨as, emits, held⟩ := each term (List.mem_singleton.mpr rfl) s w r lowered
      exact leaves_scaled scalars rfl rfl aligned emits held takes
    | indexSum =>
      obtain ⟨i, term, known, -, -⟩ := fits
      obtain ⟨vs, r, lowered, takes⟩ := done
      obtain ⟨as, emits, operands⟩ := lowerAll_spec scalars each lowered
      exact leaves_operation scalars rfl (by rw [Node.own_of_indices known, known]) emits operands
        takes
    | product | gemm | contraction =>
      obtain ⟨i, left, right, known, -⟩ := fits
      obtain ⟨vs, r, lowered, takes⟩ := done
      obtain ⟨as, emits, operands⟩ := lowerAll_spec scalars each lowered
      exact leaves_operation scalars rfl (by rw [Node.own_of_indices known, known]) emits operands
        takes

/-! ### Assignments -/

/-- Actions that give a tensor the value of a tree and keep all other tensors. -/
structure Assigns (tensor : Tensor) (source : Node) (actions : List Action) : Prop where
  kept : ∀ σ name, (∀ k, name ≠ temporaryName k) → name ≠ tensor.name →
    runActions (tensorMachine scalars) σ actions name = σ name
  written : ∀ σ p, runActions (tensorMachine scalars) σ actions tensor.name (source.own.entryAt p) =
    source.valueAt scalars σ p

/-- A copy to the target, after the actions of its value. -/
theorem assigns_of_holds {source : Node} {tensor : Tensor} {lo hi : Nat} {as : List Action}
    {result w : Variable} (name : result.name = tensor.name) (scratch : Scratch lo hi as)
    (held : Holds scalars lo hi as source w) :
    Assigns scalars tensor source (as ++ [⟨result, .copy w, false, none⟩]) := by
  let copy : Action := ⟨result, .copy w, false, none⟩
  constructor
  · intro σ other apart ne
    rw [runActions_append, runActions_cons, runActions_nil,
      Action.run_of_ne _ _ (a := copy) (name.symm ▸ ne),
      scratch.run_of_outside _ σ fun k _ _ => apart k]
  · intro σ p
    have written (ρ : Store (Entry → R)) :
        copy.run (tensorMachine scalars) ρ tensor.name = ρ w.name := by
      rw [← name]
      exact Action.run_result _ ρ copy
    rw [runActions_append, runActions_cons, runActions_nil, written,
      held.value σ σ fun _ _ => rfl]

theorem lower_assign {m target source : Node} {tensor : Tensor} {s t : Lowering} {v : Variable}
    (kind : m.kind = .assign) (children : m.children = [target, source])
    (leaf : target.kind = .leaf tensor) (ht : target.WellFormed) (hs : source.WellFormed)
    (free : source.Everywhere (·.kind ≠ .assign)) (h : Yields m.lower s v t) :
    ∃ as, t.actions = s.actions ++ as ∧ Segment s.next t.next as ∧
      Assigns scalars tensor source as := by
  have fits := ht.fits
  rw [leaf] at fits
  obtain ⟨-, -, -, valid⟩ := fits
  have apart := Tensor.name_ne_temporaryName valid
  obtain ⟨r, w, q, actions, next, -, lowered, isGlobal, name, -, rfl⟩ :=
    lower_assign_cases kind children leaf h
  obtain ⟨as, emits, held⟩ := lower_spec scalars hs free r w q lowered
  refine ⟨as ++ [⟨v, .copy w, false, none⟩], ?_, ?_,
    assigns_of_holds scalars name emits.scratch held⟩
  · rw [emits.appended, actions, List.append_assoc]
  · rw [← next]
    apply emits.scratch.append (Nat.le_refl q.next)
    · intro x hx
      obtain ⟨a, ha, used⟩ := mem_variablesOf.mp hx
      obtain rfl := List.mem_singleton.mp ha
      rcases used with rfl | read
      · exact .tensor isGlobal (name ▸ apart)
      · exact List.mem_singleton.mp read ▸ held.inRange
    · intro k least below
      exact absurd below (Nat.not_lt.mpr least)

end

end TensorKernel
