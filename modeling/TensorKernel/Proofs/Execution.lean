import TensorKernel.Proofs.Emission

/-!
Execution of statements. A prepared statement computes its value from what the tensors hold and then
overwrites its target; the actions that one lowering emits for a list of statements do the same, one
statement after the other.

* `Does`, `lowerFrom_does`: actions that do to tensors what statements do;
* `lowerFrom_run`: the actions of a list of statements, and of each of its beginnings.
-/

namespace TensorKernel

open Lowering

/-- Tensors with valid names, no two of them with one name. -/
structure Named (tensors : List Tensor) : Prop where
  valid : ∀ t ∈ tensors, isIdentifier t.base = true
  unique : ∀ t ∈ tensors, ∀ u ∈ tensors, t.name = u.name → t = u

section
variable {R : Type} [CommSemiring R] (scalars : Factor → R)

/-- Actions that do to some tensors what a change of stores does. -/
def Does (tensors : List Tensor) (actions : List Action)
    (change : Store (Entry → R) → Store (Entry → R)) : Prop :=
  ∀ σ τ, AgreeOn tensors σ τ →
    AgreeOn tensors (change σ) (runActions (tensorMachine scalars) τ actions)

namespace Kernel

/-- Nodes that are lowered one after the other do what each of them does. -/
theorem lowerFrom_does {ι : Type} {tensors : List Tensor} {items : List ι} {nodes : List Node}
    {change : ι → Store (Entry → R) → Store (Entry → R)} {name : String}
    (each : List.Forall₂ (fun i m => ∀ a v b, Yields (Node.lower m) a v b →
      ∃ as, b.actions = a.actions ++ as ∧ Segment a.next b.next as ∧
        Does scalars tensors as (change i)) items nodes)
    {position : Nat} {a b : Lowering} (lowered : lowerFrom name a position nodes = .ok b) :
    ∃ as, b.actions = a.actions ++ as ∧ Segment a.next b.next as ∧
      Does scalars tensors as fun σ => items.foldl (fun τ i => change i τ) σ := by
  induction each generalizing position a with
  | nil =>
    obtain rfl := pure_eq_ok.mp lowered
    exact ⟨[], (List.append_nil _).symm, .nil a.next, fun σ τ agree => agree⟩
  | cons first _ ih =>
    obtain ⟨v, r, step, rest⟩ := lowerFrom_cons_eq_ok lowered
    obtain ⟨as, appended, segment, does⟩ := first a v r step
    obtain ⟨bs, appended', segment', does'⟩ := ih rest
    refine ⟨as ++ bs, ?_, segment.concat segment', fun σ τ agree => ?_⟩
    · rw [appended', appended, List.append_assoc]
    · rw [runActions_append]
      exact does' _ _ (does σ τ agree)

/-- Lowering goes on where it stopped. -/
theorem lowerFrom_append {name : String} {position : Nat} {a r b : Lowering}
    {first second : List Node} (h : lowerFrom name a position first = .ok r)
    (k : lowerFrom name r (position + first.length) second = .ok b) :
    lowerFrom name a position (first ++ second) = .ok b := by
  induction first generalizing a position with
  | nil =>
    obtain rfl := pure_eq_ok.mp h
    exact k
  | cons n nodes ih =>
    obtain ⟨v, q, step, rest⟩ := lowerFrom_cons_eq_ok h
    rw [List.cons_append, lowerFrom_cons _ step]
    refine ih rest ?_
    rwa [List.length_cons, Nat.add_comm nodes.length 1, ← Nat.add_assoc] at k

end Kernel

namespace Node

/-- The value of a tree depends on the entries of its tensors. -/
theorem valueAt_congr {tensors : List Tensor} {n : Node} (formed : n.WellFormed)
    (known : n.Everywhere fun x => ∀ t, x.kind = .leaf t → t ∈ tensors)
    {σ τ : Store (Entry → R)} (agree : AgreeOn tensors σ τ) (p : Point) :
    n.valueAt scalars σ p = n.valueAt scalars τ p := by
  induction n using Node.induction generalizing p with
  | node kind indices pattern layout prefetch children ih =>
    cases leaf : kind.isLeaf with
    | true =>
      obtain ⟨t, rfl⟩ := Kind.isLeaf_iff.mp leaf
      obtain ⟨i, rfl, extents, -⟩ := formed.fits
      rw [valueAt, valueAt, value_leaf scalars σ rfl, value_leaf scalars τ rfl]
      refine agree t (known.root t rfl) _ ?_
      rw [← extents, Indices.length_entryAt, Indices.length_shape]
      rfl
    | false =>
      have operands : children.map (asOperand scalars σ) = children.map (asOperand scalars τ) := by
        refine List.map_congr_left fun c hc => ?_
        rw [asOperand, asOperand, funext (ih c hc (formed.children c hc) (known.children c hc))]
      rw [valueAt_eq scalars σ leaf, valueAt_eq scalars τ leaf, operands]

/-- The name of the tensor that an assignment writes. -/
def assigned? (m : Node) : Option String :=
  match m.children with
  | [target, _] => target.tensorName?
  | _ => none

/-- The store after an assignment: the tensor holds the value that the other operand had. -/
def execute (σ : Store (Entry → R)) (m : Node) : Store (Entry → R) :=
  match m.assigned?, m.children with
  | some name, [_, source] => Function.update σ name (source.value scalars σ)
  | _, _ => σ

theorem execute_of_ne {m : Node} {name : String} (σ : Store (Entry → R))
    (h : m.assigned? ≠ some name) : m.execute scalars σ name = σ name := by
  have changed : m.execute scalars σ = σ ∨ ∃ other x, m.assigned? = some other ∧
      m.execute scalars σ = Function.update σ other x := by
    unfold execute
    split
    · next other _ source assigned _ => exact .inr ⟨other, _, assigned, rfl⟩
    · exact .inl rfl
  obtain same | ⟨other, x, assigned, same⟩ := changed
  · rw [same]
  · rw [same]
    apply Function.update_of_ne
    rintro rfl
    exact h assigned

/-- Statements leave all tensors alone that they do not assign. -/
theorem foldl_execute_of_ne {nodes : List Node} {name : String} (σ : Store (Entry → R))
    (h : name ∉ nodes.filterMap assigned?) : nodes.foldl (execute scalars) σ name = σ name := by
  induction nodes generalizing σ with
  | nil => rfl
  | cons m nodes ih =>
    simp only [List.mem_filterMap, List.mem_cons, exists_eq_or_imp, not_or] at h
    obtain ⟨first, rest⟩ := h
    rw [List.foldl_cons, ih _ (by simpa using rest), execute_of_ne scalars σ first]

def tensors (n : Node) : List Tensor :=
  n.postorder.filterMap fun x => match x.kind with
    | .leaf t => some t
    | _ => none

theorem mem_tensors {n : Node} {t : Tensor} :
    t ∈ n.tensors ↔ ∃ x ∈ n.postorder, x.kind = .leaf t := by
  rw [tensors, List.mem_filterMap]
  refine exists_congr fun x => and_congr_right fun _ => ?_
  split <;> simp_all

/-- A statement that is built by hand and accepted. It assigns nothing but its value, and its tensors
are known. -/
structure Accepted (tensors : List Tensor) (n m : Node) : Prop where
  built : n.Constructed
  free : ∀ c ∈ n.children, c.Everywhere (·.kind ≠ .assign)
  known : ∀ t ∈ n.tensors, t ∈ tensors
  prepared : ∃ config, n.prepare config = .ok m

/-- The actions of a statement do what its execution does. -/
theorem Accepted.does {tensors : List Tensor} (named : Named tensors) {n m : Node}
    (h : Accepted tensors n m) {a b : Lowering} {v : Variable} (lowered : Yields m.lower a v b) :
    ∃ as, b.actions = a.actions ++ as ∧ Segment a.next b.next as ∧
      Does scalars tensors as fun σ => m.execute scalars σ := by
  obtain ⟨config, prepared⟩ := h.prepared
  obtain ⟨formed, -, -⟩ := prepare_finished h.built.composed h.built.tensors prepared
  obtain ⟨kind, free⟩ := prepare_operands ofKind_free prepared h.free
  have whole : n.Everywhere fun x => ∀ t, x.kind = .leaf t → t ∈ tensors :=
    fun x hx t leaf => h.known t (mem_tensors.mpr ⟨x, hx, leaf⟩)
  obtain ⟨-, known⟩ := prepare_operands (ofKind_tensors (· ∈ tensors)) prepared whole.children
  have fits := formed.fits
  rw [kind] at fits
  obtain ⟨i, target, source, tensor, indices, children, leaf, ht, hv⟩ := fits
  have operands := formed.children
  rw [children] at operands free known
  obtain ⟨formedT, formedS⟩ : target.WellFormed ∧ source.WellFormed := by simpa using operands
  obtain ⟨as, appended, segment, assigns⟩ := lower_assign scalars kind children leaf formedT formedS
    (free source (by simp)) lowered
  refine ⟨as, appended, segment, fun σ τ agree t mem e rank => ?_⟩
  have assigned : m.assigned? = some tensor.name := by
    simp only [assigned?, children, tensorName?, leaf]
  by_cases written : t.name = tensor.name
  · have own : source.own = i := own_of_indices hv
    obtain rfl := named.unique t mem tensor ((known target (by simp)).root tensor leaf) written
    have shape := formedT.fits
    rw [leaf, ht] at shape
    obtain ⟨_, ⟨⟩, extents, -⟩ := shape
    have entry : i.entryAt (i.pointOf e) = e := by
      apply Indices.entryAt_pointOf (formed.indices indices)
      rw [rank, ← extents, Indices.length_shape]
    have content := assigns.written τ (i.pointOf e)
    have same := valueAt_congr scalars formedS (known source (by simp)) agree (i.pointOf e)
    rw [own, entry, ← same, valueAt, own, entry] at content
    simp only [execute, assigned, children, Function.update_self, content]
  · dsimp only
    rw [execute_of_ne scalars σ (by simpa [assigned] using Ne.symm written),
      assigns.kept τ t.name (Tensor.name_ne_temporaryName (named.valid t mem)) written]
    exact agree t mem e rank

theorem Accepted.lower_succeeds {tensors : List Tensor} {n m : Node} (h : Accepted tensors n m)
    (s : Lowering) : Succeeds m.lower s := by
  obtain ⟨config, prepared⟩ := h.prepared
  exact lower_of_prepare h.built.assembled prepared s

end Node

namespace Kernel

/-- Lowering is correct: statements that are accepted can be lowered, the actions leave in every
tensor what executing the statements leaves there, and no beginning of them has changed a tensor to
which nothing was assigned. -/
theorem lowerFrom_run {tensors : List Tensor} (named : Named tensors) {statements nodes : List Node}
    (accepted : List.Forall₂ (Node.Accepted tensors) statements nodes) (name : String)
    (position : Nat) (simple : Bool) (σ : Store (Entry → R)) :
    ∃ s, lowerFrom name (.start simple) position nodes = .ok s ∧
      (∀ t ∈ tensors, ∀ e : Entry, e.length = t.shape.length →
        s.program.run (tensorMachine scalars) σ t.name e =
          nodes.foldl (Node.execute scalars) σ t.name e) ∧
      ∀ k, ∃ r, lowerFrom name (.start simple) position (nodes.take k) = .ok r ∧
        r.actions <+: s.actions ∧
        ∀ t ∈ tensors, t.name ∉ (nodes.take k).filterMap Node.assigned? →
          ∀ e : Entry, e.length = t.shape.length →
            r.program.run (tensorMachine scalars) σ t.name e = σ t.name e := by
  have succeeds : ∀ m ∈ nodes, ∀ s, Succeeds m.lower s := by
    intro m hm
    obtain ⟨n, -, statement⟩ := exists_of_forall₂_right accepted hm
    exact statement.lower_succeeds
  have does {part : List Node} (sub : ∀ m ∈ part, m ∈ nodes) {position : Nat} {a b : Lowering}
      (lowered : lowerFrom name a position part = .ok b) : ∃ as, b.actions = a.actions ++ as ∧
        Does scalars tensors as fun σ => part.foldl (Node.execute scalars) σ := by
    have each : List.Forall₂ (fun i m => ∀ a v b, Yields (Node.lower m) a v b →
        ∃ as, b.actions = a.actions ++ as ∧ Segment a.next b.next as ∧
          Does scalars tensors as fun σ => i.execute scalars σ) part part := by
      refine List.forall₂_same.mpr fun m hm a v b step => ?_
      obtain ⟨n, -, statement⟩ := exists_of_forall₂_right accepted (sub m hm)
      exact statement.does scalars named step
    obtain ⟨as, appended, -, does⟩ := lowerFrom_does scalars each lowered
    exact ⟨as, appended, does⟩
  have run {part : List Node} (sub : ∀ m ∈ part, m ∈ nodes) {r : Lowering}
      (lowered : lowerFrom name (.start simple) position part = .ok r) {t : Tensor} (ht : t ∈ tensors)
      {e : Entry} (rank : e.length = t.shape.length) :
      r.program.run (tensorMachine scalars) σ t.name e =
        part.foldl (Node.execute scalars) σ t.name e := by
    obtain ⟨as, appended, does⟩ := does sub lowered
    have actions : r.program.actions = as := by
      rw [Lowering.program, Program.actions_ofActions, appended]
      rfl
    rw [Program.run, actions, ← does σ σ (fun _ _ _ _ => rfl) t ht e rank]
  obtain ⟨s, lowered⟩ := lowerFrom_succeeds succeeds name position (.start simple)
  refine ⟨s, lowered, fun t ht e rank => run (fun _ => id) lowered ht rank, fun k => ?_⟩
  have take (m) (hm : m ∈ nodes.take k) : m ∈ nodes := List.mem_of_mem_take hm
  have drop (m) (hm : m ∈ nodes.drop k) : m ∈ nodes := List.mem_of_mem_drop hm
  obtain ⟨r, first⟩ := lowerFrom_succeeds (fun m hm => succeeds m (take m hm)) name position
    (.start simple)
  obtain ⟨b, second⟩ := lowerFrom_succeeds (fun m hm => succeeds m (drop m hm)) name
    (position + (nodes.take k).length) r
  have whole := lowerFrom_append first second
  rw [List.take_append_drop, lowered] at whole
  obtain rfl := Except.ok.inj whole
  obtain ⟨as, appended, -⟩ := does drop second
  refine ⟨r, first, ⟨as, appended.symm⟩, fun t ht free e rank => ?_⟩
  rw [run take first ht rank, Node.foldl_execute_of_ne scalars σ free]

end Kernel

end

namespace Kernel

def square (name : String) : Tensor := ⟨name, none, [2, 2], .dense [2, 2], .full [2, 2]⟩

/-- The statements `C_ij = A_ik B_kj`, a contraction that is built by hand, and
`A_ij = s C_ij + A_ij`. -/
def accumulated : Result (List Node) := do
  let a ← Node.indexed (square "A") ['i', 'k']
  let b ← Node.indexed (square "B") ['k', 'j']
  let c ← Node.indexed (square "C") ['i', 'j']
  let d ← Node.indexed (square "A") ['i', 'j']
  let product ← Node.contraction ⟨[⟨'i', 2⟩, ⟨'j', 2⟩]⟩ a b ⟨[⟨'k', 2⟩]⟩
  return [← c.assignment product, ← d.assignment (Node.add [← Node.scale (.named "s") c, d])]

theorem lowerFrom_run_accumulated :
    let scalars : Factor → Int := fun _ => 3
    let σ : Store (Entry → Int) := fun name e => if name = "A" then 2 * e.sum + 1 else e.sum + 2
    ∃ statements nodes s r, accumulated = .ok statements ∧
      List.Forall₂ (Node.Accepted [square "A", square "B", square "C"]) statements nodes ∧
      lowerFrom "accumulate" (.start false) 0 nodes = .ok s ∧
      s.program.run (tensorMachine scalars) σ "A" [1, 0] =
        nodes.foldl (Node.execute scalars) σ "A" [1, 0] ∧
      nodes.foldl (Node.execute scalars) σ "A" [1, 0] = 66 ∧
      lowerFrom "accumulate" (.start false) 0 (nodes.take 1) = .ok r ∧
      r.program.run (tensorMachine scalars) σ "A" [1, 0] = 3 := by
  intro scalars σ
  have named : Named [square "A", square "B", square "C"] := ⟨by decide, by decide⟩
  have made (name : String) (valid : isIdentifier name = true) : (square name).Constructed := by
    have done : Tensor.ofName name [2, 2] = .ok (square name) := by
      rw [Tensor.ofName, checkName, if_pos valid, ok_bind]
      rfl
    exact .ofName done
  have built (statements : List Node) (h : accumulated = .ok statements) :
      ∀ n ∈ statements, n.Constructed := by
    simp only [accumulated, bind_eq_ok, pure_eq_ok] at h
    obtain ⟨a, ha, b, hb, c, hc, d, hd, product, contracted, first, hfirst, s, scaled, second,
      hsecond, rfl⟩ := h
    have left := Node.Constructed.indexed (made "A" (by decide)) ha
    have right := Node.Constructed.indexed (made "B" (by decide)) hb
    have target := Node.Constructed.indexed (made "C" (by decide)) hc
    have other := Node.Constructed.indexed (made "A" (by decide)) hd
    have value := Node.Constructed.contraction left right (by decide) (by decide) contracted
    have term := Node.Constructed.scale target scaled
    have sum : (Node.add [s, d]).Constructed := .add (by simpa using ⟨term, other⟩)
    simpa using ⟨Node.Constructed.assignment target value hfirst, .assignment other sum hsecond⟩
  obtain ⟨statements, nodes, build, accepted, first, value⟩ : ∃ statements nodes,
      accumulated = .ok statements ∧
      List.Forall₂ (Node.Accepted [square "A", square "B", square "C"]) statements nodes ∧
      (nodes.take 1).filterMap Node.assigned? = ["C"] ∧
      nodes.foldl (Node.execute scalars) σ "A" [1, 0] = 66 :=
    ⟨_, _, rfl, .cons ⟨built _ rfl _ (by simp), by decide, by decide, .standard, rfl⟩
      (.cons ⟨built _ rfl _ (by simp), by decide, by decide, .standard, rfl⟩ .nil), rfl, by decide⟩
  obtain ⟨s, lowered, run, part⟩ := lowerFrom_run scalars named accepted "accumulate" 0 false σ
  obtain ⟨r, lowered', -, kept⟩ := part 1
  refine ⟨statements, nodes, s, r, build, accepted, lowered, ?_, value, lowered', ?_⟩
  · exact run (square "A") (by decide) [1, 0] rfl
  · exact kept (square "A") (by decide) (by rw [first]; decide) [1, 0] rfl

end Kernel

end TensorKernel
