import TensorKernel.Proofs.Execution
import TensorKernel.Proofs.Tree.Preparation

/-!
Nodes and actions. The lowering of statements is a walk over their trees, children before their
parent. A tensor takes no action and an assignment one; any other node takes a temporary of its own,
in which its actions compute its value.

* `Walks`, `Walks.own`, `Walks.targets`: the actions of a walk, and which of them write a name;
* `evaluates_of_lower`: the walk over a tree without assignments;
* `visits_of_lowerFrom`: the walk over statements, and the tensors that may be written after it;
* `Corresponds`, `actions_correspond`: the statements of a kernel and its actions.
-/

namespace TensorKernel

/-- Whether the value of a node takes a temporary. -/
def Kind.isComputed : Kind → Bool
  | .einsum | .add | .scale _ | .indexSum _ | .product | .contraction _ | .gemm _ => true
  | .leaf _ | .assign => false

namespace Node

def onlyComputed (xs : List Node) : List Node := xs.filter (·.kind.isComputed)

/-- The nodes of trees that take temporaries, children before their parent. -/
def computed (nodes : List Node) : List Node := onlyComputed (nodes.flatMap postorder)

/-- How many actions carry out a node: none for a tensor, one for each operand of a sum, and one for
any other node. -/
def actionCount (x : Node) : Nat :=
  match x.kind with
  | .leaf _ => 0
  | .add => x.children.length
  | .einsum | .scale _ | .indexSum _ | .product | .contraction _ | .gemm _ | .assign => 1

/-- The names of the variables that hold the values of trees whose temporaries are numbered from `k`
on. A tensor holds its own value, and any other tree leaves it in the last of its temporaries. -/
def valueNames : Nat → List Node → List String
  | _, [] => []
  | k, n :: nodes =>
    n.tensorName?.getD (temporaryName (k + (computed [n]).length - 1)) ::
      valueNames (k + (computed [n]).length) nodes

def Performs (x : Node) (a : Action) : Prop :=
  match x.kind with
  | .add | .assign => a.term.node? = none ∧ a.factor = none
  | .scale factor => a.term.node? = none ∧ a.factor = some factor
  | .indexSum _ | .product | .contraction _ | .gemm _ => a.term.node? = some x ∧ a.factor = none
  | .leaf _ | .einsum => False

/-- Nothing is below a node that is a tensor. -/
def Ending (x : Node) : Prop := x.kind.isLeaf = true → x.children = []

theorem stable_ending : Stable Ending := by
  refine ⟨fun {x y} resembles ending leaf => ?_, fun {kind children i} made _ leaf => ?_⟩
  · rw [resembles.kind] at leaf
    rw [resembles.below leaf]
    exact ending leaf
  · cases kind <;> simp_all [ofKind, Kind.isMade, Kind.isLeaf]

theorem ending_of_annotate {pass : Node → Result Node} (annotates : Annotates pass) {n m : Node}
    (hn : n.Everywhere Ending) (h : n.annotate pass = .ok m) : m.Everywhere Ending := by
  intro y hy leaf
  obtain ⟨x, hx, same, children⟩ := exists_of_annotate (K := fun x y => y.kind = x.kind)
    (fun n children m done => ⟨(annotates _ m done).kind, (annotates _ m done).children⟩) h hy
  rw [same] at leaf
  rw [hn x hx leaf] at children
  exact List.forall₂_nil_left_iff.mp children

theorem ending_of_mapContractions {source : Gemm.Source} {n m : Node} {count : Nat}
    (hn : n.Everywhere Ending) (h : n.mapContractions source = .ok (m, count)) :
    m.Everywhere Ending := by
  intro y hy leaf
  obtain ⟨x, hx, mapped, children⟩ := exists_of_mapContractions h hy
  rcases mapped.kind with same | ⟨-, g, gemm⟩
  · rw [same] at leaf
    rw [hn x hx leaf] at children
    exact List.forall₂_nil_left_iff.mp children
  · rw [gemm] at leaf
    cases leaf

/-- Nothing is below the tensors of a statement that was built and prepared. -/
theorem ending_of_prepare {config : Config} {n m : Node} (built : n.Constructed)
    (h : n.prepare config = .ok m) : m.Everywhere Ending := by
  have ending : n.Everywhere Ending := built.everywhere stable_ending (fun _ _ => rfl)
    fun noLeaf leaf => absurd (noLeaf.symm.trans leaf) Bool.false_ne_true
  obtain ⟨r, p, l, resolved, propagated, laid, mapped⟩ := prepare_stages h
  have placed := ending_of_annotate (annotates_withLayout config)
    (ending_of_annotate annotates_withPattern (resolveTo_everywhere stable_ending ending resolved)
      propagated) laid
  rcases mapped with rfl | ⟨count, mapped⟩
  · exact placed
  · exact ending_of_mapContractions placed mapped

section
variable {x : Node} {xs ys : List Node}

theorem onlyComputed_cons (kind : x.kind.isComputed = true) :
    onlyComputed (x :: xs) = x :: onlyComputed xs :=
  List.filter_cons_of_pos (p := fun y : Node => y.kind.isComputed) kind

theorem onlyComputed_cons_of_isLeaf (leaf : x.kind.isLeaf = true) :
    onlyComputed (x :: xs) = onlyComputed xs := by
  obtain ⟨_, leaf⟩ := Kind.isLeaf_iff.mp leaf
  exact List.filter_cons_of_neg (by simp [leaf, Kind.isComputed])

theorem onlyComputed_cons_of_assign (assign : x.kind = .assign) :
    onlyComputed (x :: xs) = onlyComputed xs :=
  List.filter_cons_of_neg (by simp [assign, Kind.isComputed])

theorem computed_append : computed (xs ++ ys) = computed xs ++ computed ys := by
  rw [computed, List.flatMap_append, onlyComputed, List.filter_append]
  rfl

theorem computed_singleton : computed [x] = computed x.children ++ onlyComputed [x] := by
  rw [computed, List.flatMap_singleton, postorder_eq, onlyComputed, List.filter_append]
  rfl

end

end Node

namespace Lowering

/-! ### Walks -/

/-- Actions that compute a node in the temporary of a number. The first one overwrites it and all
others add to it; together they read what the children of the node have left. -/
structure Computes (x : Node) (number : Nat) (block : List Action) : Prop where
  count : block.length = x.actionCount
  results : ∀ a ∈ block, a.result.isGlobal = false ∧ a.result.name = temporaryName number
  adds : block.map Action.add = false :: List.replicate (x.actionCount - 1) true
  performs : ∀ a ∈ block, x.Performs a
  reads : ((block.flatMap (·.term.inputs)).map Variable.name).Perm
    (Node.valueNames (number - (Node.computed x.children).length) x.children)

/-- The action of an assignment: it overwrites the target with what the other operand has left,
whose temporaries are numbered below `number`. -/
structure Overwrites (x : Node) (number : Nat) (a : Action) : Prop where
  kind : x.kind = .assign
  target : x.assigned? = some a.result.name
  isGlobal : a.result.isGlobal = true
  name : ∀ k, a.result.name ≠ temporaryName k
  add : a.add = false
  performs : x.Performs a
  reads : a.term.inputs.map Variable.name =
    Node.valueNames (number - (Node.computed x.children).length) x.children.tail

/-- What is emitted on a walk over nodes, from a number of temporaries on. -/
inductive Walks : Nat → List Node → List Action → Prop
  | nil (number : Nat) : Walks number [] []
  | tensor {number : Nat} {x : Node} {xs : List Node} {as : List Action}
      (leaf : x.kind.isLeaf = true) (rest : Walks number xs as) : Walks number (x :: xs) as
  | computed {number : Nat} {x : Node} {xs : List Node} {block as : List Action}
      (kind : x.kind.isComputed = true) (first : Computes x number block)
      (rest : Walks (number + 1) xs as) : Walks number (x :: xs) (block ++ as)
  | assigned {number : Nat} {x : Node} {xs : List Node} {a : Action} {as : List Action}
      (first : Overwrites x number a) (rest : Walks number xs as) : Walks number (x :: xs) (a :: as)

namespace Walks

variable {number : Nat} {xs ys : List Node} {as bs : List Action}

theorem append (h : Walks number xs as)
    (rest : Walks (number + (Node.onlyComputed xs).length) ys bs) :
    Walks number (xs ++ ys) (as ++ bs) := by
  induction h with
  | nil => exact rest
  | tensor leaf _ ih =>
    rw [Node.onlyComputed_cons_of_isLeaf leaf] at rest
    exact .tensor leaf (ih rest)
  | computed kind first _ ih =>
    rw [Node.onlyComputed_cons kind, List.length_cons, Nat.add_comm _ 1, ← Nat.add_assoc] at rest
    rw [List.append_assoc]
    exact .computed kind first (ih rest)
  | assigned first _ ih =>
    rw [Node.onlyComputed_cons_of_assign first.kind] at rest
    exact .assigned first (ih rest)

theorem length (h : Walks number xs as) : as.length = (xs.map Node.actionCount).sum := by
  induction h with
  | nil => rfl
  | tensor leaf _ ih =>
    obtain ⟨_, leaf⟩ := Kind.isLeaf_iff.mp leaf
    rw [List.map_cons, List.sum_cons, Node.actionCount, leaf, ih, Nat.zero_add]
  | computed _ first _ ih =>
    rw [List.length_append, List.map_cons, List.sum_cons, first.count, ih]
  | assigned first _ ih =>
    rw [List.length_cons, List.map_cons, List.sum_cons, Node.actionCount, first.kind, ih,
      Nat.add_comm]

/-- Tensors are written, and the temporaries that are taken on the way. -/
theorem results (h : Walks number xs as) :
    ∀ a ∈ as, a.result.InRange number (number + (Node.onlyComputed xs).length) := by
  induction h with
  | nil => simp
  | tensor leaf _ ih => rwa [Node.onlyComputed_cons_of_isLeaf leaf]
  | @computed number x xs block as kind first _ ih =>
    rw [Node.onlyComputed_cons kind, List.length_cons, Nat.add_comm _ 1, ← Nat.add_assoc]
    refine List.forall_mem_append.mpr ⟨fun a ha => ?_, fun a ha => ?_⟩
    · obtain ⟨isLocal, name⟩ := first.results a ha
      exact .temporary number (Nat.le_refl number) (by omega) isLocal name
    · exact (ih a ha).mono (Nat.le_succ number) (Nat.le_refl _)
  | assigned first _ ih =>
    rw [Node.onlyComputed_cons_of_assign first.kind]
    exact List.forall_mem_cons.mpr ⟨.tensor first.isGlobal first.name, ih⟩

end Walks

theorem filter_writes_eq_nil {actions : List Action} {name : String}
    (others : ∀ a ∈ actions, a.result.name ≠ name) : actions.filter (·.writes name) = [] :=
  List.filter_eq_nil_iff.mpr fun a ha writes => others a ha (of_decide_eq_true writes)

/-- The actions that write a temporary compute the node that has taken it. -/
theorem Walks.own {number : Nat} {xs : List Node} {as : List Action} (h : Walks number xs as)
    {k : Nat} {x : Node} (taken : (Node.onlyComputed xs)[k]? = some x) :
    Computes x (number + k) (as.filter (·.writes (temporaryName (number + k)))) := by
  -- a block has the number of its node, and all blocks behind it have later ones
  induction h generalizing k with
  | nil => cases taken
  | tensor leaf _ ih =>
    rw [Node.onlyComputed_cons_of_isLeaf leaf] at taken
    exact ih taken
  | @computed number y ys block as kind first rest ih =>
    rw [Node.onlyComputed_cons kind] at taken
    rw [List.filter_append]
    cases k with
    | zero =>
      obtain rfl : y = x := by simpa using taken
      have own : block.filter (·.writes (temporaryName number)) = block :=
        List.filter_eq_self.mpr fun a ha => decide_eq_true (first.results a ha).2
      have later : as.filter (·.writes (temporaryName number)) = [] :=
        filter_writes_eq_nil fun a ha =>
          (rest.results a ha).name_ne (.inl (Nat.lt_succ_self number))
      rw [Nat.add_zero, own, later, List.append_nil]
      exact first
    | succ k =>
      have others : block.filter (·.writes (temporaryName (number + (k + 1)))) = [] := by
        refine filter_writes_eq_nil fun a ha same => ?_
        have := temporaryName_injective ((first.results a ha).2.symm.trans same)
        omega
      rw [others, List.nil_append, Nat.add_comm k 1, ← Nat.add_assoc]
      exact ih (by simpa using taken)
  | @assigned number y ys a as first _ ih =>
    rw [Node.onlyComputed_cons_of_assign first.kind] at taken
    have other : a.writes (temporaryName (number + k)) = false := decide_eq_false (first.name _)
    rw [List.filter_cons, other]
    exact ih taken

/-- The actions that write a tensor are those of the assignments to it. -/
theorem Walks.targets {number : Nat} {xs : List Node} {as : List Action} (h : Walks number xs as)
    {name : String} (tensor : ∀ k, name ≠ temporaryName k) :
    (as.filter (·.writes name)).map (fun a => (a.result.isGlobal, a.add)) =
      List.replicate (xs.countP fun x => x.kind = .assign ∧ x.assigned? = some name)
        (true, false) := by
  induction h with
  | nil => rfl
  | tensor leaf _ ih =>
    obtain ⟨_, leaf⟩ := Kind.isLeaf_iff.mp leaf
    rw [List.countP_cons_of_neg (by simp [leaf]), ih]
  | @computed number x xs block as kind first _ ih =>
    have others : block.filter (·.writes name) = [] := by
      refine filter_writes_eq_nil fun a ha same => tensor number ?_
      rw [← same, (first.results a ha).2]
    have value : x.kind ≠ .assign := by
      intro assign
      rw [assign] at kind
      cases kind
    rw [List.filter_append, others, List.nil_append, ih, List.countP_cons_of_neg (by simp [value])]
  | @assigned number x xs a as first _ ih =>
    by_cases same : a.result.name = name
    · have own : a.writes name = true := decide_eq_true same
      rw [List.filter_cons, own, if_pos rfl, List.map_cons, ih, first.isGlobal, first.add,
        List.countP_cons_of_pos (by simp [first.kind, first.target, same]), List.replicate_succ]
    · have other : a.writes name = false := decide_eq_false same
      rw [List.filter_cons, other, List.countP_cons_of_neg (by simp [first.target, same])]
      exact ih

/-! ### Trees -/

structure Visits (s : Lowering) (nodes : List Node) (as : List Action) (t : Lowering) : Prop where
  actions : t.actions = s.actions ++ as
  next : t.next = s.next + (Node.computed nodes).length
  walks : Walks s.next (nodes.flatMap Node.postorder) as

theorem Visits.nil (s : Lowering) : Visits s [] [] s :=
  ⟨(List.append_nil _).symm, rfl, .nil s.next⟩

theorem Visits.concat {s r t : Lowering} {xs ys : List Node} {as bs : List Action}
    (h : Visits s xs as r) (k : Visits r ys bs t) : Visits s (xs ++ ys) (as ++ bs) t := by
  refine ⟨?_, ?_, ?_⟩
  · rw [k.actions, h.actions, List.append_assoc]
  · rw [k.next, h.next, Node.computed_append, List.length_append, Nat.add_assoc]
  · rw [List.flatMap_append]
    exact h.walks.append (h.next ▸ k.walks)

/-- What the lowering of trees without assignments has emitted, and the variables that hold their
values. No tensor may be written that could not be written before. -/
structure Evaluates (s : Lowering) (nodes : List Node) (vs : List Variable) (as : List Action)
    (t : Lowering) : Prop extends Visits s nodes as t where
  marks : ∀ name, t.isWritable name = s.isWritable name
  names : vs.map Variable.name = Node.valueNames s.next nodes
  granted : ∀ v ∈ vs ++ variablesOf as, v.isGlobal = true → v.writable = s.isWritable v.name

namespace Evaluates

variable {s r t : Lowering} {n c : Node} {cs : List Node} {v : Variable} {vs : List Variable}
  {as bs more : List Action}

theorem nil (s : Lowering) : Evaluates s [] [] [] s :=
  ⟨.nil s, fun _ => rfl, rfl, by simp [variablesOf]⟩

theorem cons (h : Evaluates s [c] [v] as r) (k : Evaluates r cs vs bs t) :
    Evaluates s (c :: cs) (v :: vs) (as ++ bs) t := by
  refine ⟨h.toVisits.concat k.toVisits, fun name => (k.marks name).trans (h.marks name), ?_, ?_⟩
  · have first : v.name = _ := (List.cons.inj h.names).1
    rw [List.map_cons, first, k.names, h.next, Node.valueNames]
  · intro u hu isGlobal
    rw [variablesOf, List.flatMap_append, List.cons_append, ← List.append_assoc] at hu
    have old (hu : u ∈ [v] ++ variablesOf as) := h.granted u hu isGlobal
    have new (hu : u ∈ vs ++ variablesOf bs) := (k.granted u hu isGlobal).trans (h.marks u.name)
    simp only [List.mem_cons, List.mem_append] at hu old new
    rcases hu with first | (rest | first) | rest
    · exact old (.inl (by simpa using first))
    · exact new (.inl rest)
    · exact old (.inr first)
    · exact new (.inr rest)

/-- The actions of a node behind those of its children. -/
theorem takes (h : Evaluates s n.children vs as r) (kind : n.kind.isComputed = true)
    (takes : Takes r v more t) (results : ∀ a ∈ more, a.result = v)
    (count : more.length = n.actionCount)
    (adds : more.map Action.add = false :: List.replicate (n.actionCount - 1) true)
    (performs : ∀ a ∈ more, n.Performs a) (inputs : (more.flatMap (·.term.inputs)).Perm vs) :
    Evaluates s [n] [v] (as ++ more) t := by
  obtain ⟨isLocal, -, name, rfl⟩ := takes
  have below : r.next - (Node.computed n.children).length = s.next := by
    rw [h.next]
    exact Nat.add_sub_cancel ..
  have whole : (Node.computed [n]).length = (Node.computed n.children).length + 1 := by
    rw [Node.computed_singleton, Node.onlyComputed_cons kind, List.length_append]
    rfl
  have computes : Computes n r.next more := by
    refine ⟨count, fun a ha => ?_, adds, performs, ?_⟩
    · rw [results a ha]
      exact ⟨isLocal, name⟩
    · rw [below, ← h.names]
      exact inputs.map Variable.name
  refine ⟨⟨?_, ?_, ?_⟩, h.marks, ?_, ?_⟩
  · rw [h.actions, List.append_assoc]
  · rw [whole, ← Nat.add_assoc, ← h.next]
  · rw [List.flatMap_singleton, Node.postorder_eq]
    have last : Walks r.next [n] more := by
      rw [← List.append_nil more]
      exact .computed kind computes (.nil _)
    exact h.walks.append (h.next ▸ last)
  · have noTensor : n.tensorName? = none := by
      unfold Node.tensorName?
      split
      · next leaf =>
        rw [leaf] at kind
        cases kind
      · rfl
    rw [List.map_singleton, name, Node.valueNames, Node.valueNames, noTensor, Option.getD_none,
      whole, ← Nat.add_assoc, ← h.next]
    rfl
  · intro u hu isGlobal
    have other : u ≠ v := by
      rintro rfl
      exact Bool.false_ne_true (isLocal.symm.trans isGlobal)
    rw [variablesOf, List.flatMap_append, List.singleton_append, List.mem_cons,
      List.mem_append] at hu
    rcases hu with same | old | new
    · exact absurd same other
    · exact h.granted u (List.mem_append_right vs old) isGlobal
    · obtain ⟨a, ha, occurs⟩ := List.mem_flatMap.mp new
      rcases List.mem_cons.mp occurs with same | input
      · exact absurd (same.trans (results a ha)) other
      · have held := inputs.subset (List.mem_flatMap.mpr ⟨a, ha, input⟩)
        exact h.granted u (List.mem_append_left _ held) isGlobal

end Evaluates

theorem inputs_additions (sum : Variable) (operands : List Variable) :
    (additions sum operands).flatMap (·.term.inputs) = operands := by
  cases operands with
  | nil => rfl
  | cons first rest => simp [additions, List.flatMap_map, Term.inputs]

theorem adds_additions (sum : Variable) {operands : List Variable} (some_operand : operands ≠ []) :
    (additions sum operands).map Action.add =
      false :: List.replicate (operands.length - 1) true := by
  cases operands with
  | nil => exact absurd rfl some_operand
  | cons first rest => simp [additions, Function.comp_def]

theorem length_additions (sum : Variable) (operands : List Variable) :
    (additions sum operands).length = operands.length := by
  cases operands with
  | nil => rfl
  | cons first rest => simp [additions]

theorem performs_additions {n : Node} {sum : Variable} {operands : List Variable}
    (kind : n.kind = .add) : ∀ a ∈ additions sum operands, n.Performs a := by
  simp only [Node.Performs, kind]
  cases operands with
  | nil => simp [additions]
  | cons first rest => simp [additions, Term.node?]

/-- Operands are evaluated one after the other. -/
theorem evaluates_of_lowersAll {cs : List Node} (each : ∀ c ∈ cs, ∀ s v t, Yields c.lower s v t →
    ∃ as, Evaluates s [c] [v] as t) {s t : Lowering} {vs : List Variable}
    (h : LowersAll cs s vs t) : ∃ as, Evaluates s cs vs as t := by
  induction h with
  | nil s => exact ⟨[], .nil s⟩
  | cons lowered _ ih =>
    obtain ⟨first, rest⟩ := List.forall_mem_cons.mp each
    obtain ⟨as, h⟩ := first _ _ _ lowered
    obtain ⟨bs, k⟩ := ih rest
    exact ⟨as ++ bs, h.cons k⟩

structure Proper (x : Node) : Prop where
  free : x.kind ≠ .assign
  ending : x.Ending

/-- The walk over a tree without assignments. -/
theorem evaluates_of_lower {n : Node} (formed : n.WellFormed) (proper : n.Everywhere Proper)
    {s t : Lowering} {v : Variable} (h : Yields n.lower s v t) :
    ∃ as, Evaluates s [n] [v] as t := by
  induction n using Node.induction generalizing s v t with
  | node kind indices pattern layout prefetch children ih =>
    have each : ∀ c ∈ children, ∀ s v t, Yields c.lower s v t →
        ∃ as, Evaluates s [c] [v] as t := by
      intro c hc s v t h
      exact ih c hc (formed.children c hc) (proper.children c hc) h
    have done := lower_cases h
    cases kind with
    | leaf tensor =>
      obtain ⟨isGlobal, name, writable, rfl⟩ := done
      obtain rfl : children = [] := proper.root.ending rfl
      refine ⟨[], ⟨⟨(List.append_nil _).symm, rfl, .tensor rfl (.nil _)⟩, fun _ => rfl, ?_, ?_⟩⟩
      · rw [List.map_singleton, name]
        rfl
      · intro u hu _
        obtain rfl : u = v := by simpa [variablesOf] using hu
        rw [writable, name]
    | einsum => exact done.elim
    | add =>
      obtain ⟨vs, r, lowered, some_operand, takes⟩ := done
      obtain ⟨as, h⟩ := evaluates_of_lowersAll each lowered
      have perm := summationOrder_perm vs
      have count : (summationOrder vs).length = children.length :=
        perm.length_eq.trans lowered.length
      refine ⟨_, h.takes rfl takes (fun a ha => (mem_additions ha).1) ?_ ?_
        (performs_additions rfl) ?_⟩
      · rw [length_additions, count]
        rfl
      · rw [adds_additions, count]
        · rfl
        · intro none
          rw [none] at perm
          exact some_operand perm.symm.eq_nil
      · rw [inputs_additions]
        exact perm
    | scale =>
      obtain ⟨term, rest, w, r, operands, lowered, takes⟩ := done
      obtain ⟨only, single, -⟩ := formed.fits
      obtain rfl : children = term :: rest := operands
      obtain ⟨rfl, rfl⟩ := List.cons.inj single
      obtain ⟨as, h⟩ := each term List.mem_cons_self s w r lowered
      exact ⟨_, h.takes rfl takes (by simp) rfl rfl (by simp [Node.Performs, Term.node?])
        (by simp [Term.inputs])⟩
    | indexSum | product | contraction | gemm =>
      obtain ⟨vs, r, lowered, takes⟩ := done
      obtain ⟨as, h⟩ := evaluates_of_lowersAll each lowered
      exact ⟨_, h.takes rfl takes (by simp) rfl rfl (by simp [Node.Performs, Term.node?])
        (by simp [Term.inputs])⟩
    | assign => exact absurd rfl proper.root.free

/-! ### Statements -/

structure Assigning (m : Node) : Prop where
  kind : m.kind = .assign
  formed : m.WellFormed
  operands : ∀ c ∈ m.children, c.Everywhere Proper

/-- The walk over a statement. Its target may be written from then on, in the actions of the
statement, too. -/
theorem visits_of_lower {m : Node} (assigning : Assigning m) {s t : Lowering} {v : Variable}
    (h : Yields m.lower s v t) : ∃ as, Visits s [m] as t ∧
      (∀ name, t.isWritable name = true ↔ s.isWritable name = true ∨ m.assigned? = some name) ∧
      ∀ u ∈ variablesOf as, u.isGlobal = true → u.writable = t.isWritable u.name := by
  have fits := assigning.formed.fits
  rw [assigning.kind] at fits
  obtain ⟨i, target, source, tensor, -, children, leaf, -, -⟩ := fits
  obtain ⟨r, w, q, actions, next, marked, lowered, isGlobal, name, writable, rfl⟩ :=
    lower_assign_cases assigning.kind children leaf h
  obtain ⟨formedT, formedS⟩ : target.WellFormed ∧ source.WellFormed := by
    simpa [children] using assigning.formed.children
  obtain ⟨properT, properS⟩ : target.Everywhere Proper ∧ source.Everywhere Proper := by
    simpa [children] using assigning.operands
  have isLeaf : target.kind.isLeaf = true := by
    rw [leaf]
    rfl
  have bare : target.children = [] := properT.root.ending isLeaf
  have alone : target.postorder = [target] := by
    rw [Node.postorder_eq, bare]
    rfl
  have taken : Node.computed m.children = Node.computed [source] := by
    rw [children, Node.computed, List.flatMap_cons, alone, List.singleton_append,
      Node.onlyComputed_cons_of_isLeaf isLeaf]
    rfl
  obtain ⟨as, evaluates⟩ := evaluates_of_lower formedS properS lowered
  have assigned : m.assigned? = some v.name := by
    rw [name]
    simp only [Node.assigned?, children, Node.tensorName?, leaf]
  have valid : isIdentifier tensor.base = true := by
    have fits := formedT.fits
    rw [leaf] at fits
    obtain ⟨_, -, -, valid⟩ := fits
    exact valid
  have overwrites : Overwrites m q.next ⟨v, .copy w, false, none⟩ := by
    refine ⟨assigning.kind, assigned, isGlobal, fun k => ?_, rfl, ?_, ?_⟩
    · rw [name]
      exact Tensor.name_ne_temporaryName valid k
    · simp [Node.Performs, assigning.kind, Term.node?]
    · rw [taken, evaluates.next, Nat.add_sub_cancel, children]
      exact evaluates.names
  refine ⟨as ++ [⟨v, .copy w, false, none⟩], ⟨?_, ?_, ?_⟩, fun other => ?_, fun u hu held => ?_⟩
  · rw [evaluates.actions, actions, List.append_assoc]
  · rw [Node.computed_singleton, Node.onlyComputed_cons_of_assign assigning.kind, taken, ← next]
    simpa [Node.onlyComputed] using evaluates.next
  · rw [List.flatMap_singleton, Node.postorder_eq, children, List.flatMap_cons, alone, ← next]
    exact .tensor isLeaf (evaluates.walks.append (evaluates.next ▸ .assigned overwrites (.nil _)))
  · rw [assigned, Option.some.injEq, name, ← marked, ← evaluates.marks]
    rfl
  · have same : q.isWritable u.name = r.isWritable u.name := evaluates.marks u.name
    rw [variablesOf, List.flatMap_append, List.mem_append] at hu
    rcases hu with old | new
    · exact (evaluates.granted u (List.mem_append_right _ old) held).trans same.symm
    · simp only [List.flatMap_singleton, Term.inputs, List.mem_pair] at new
      rcases new with rfl | rfl
      · exact writable.trans (same.trans ((marked u.name).mpr (.inr name.symm))).symm
      · exact (evaluates.granted u (by simp) held).trans same.symm

end Lowering

namespace Kernel

open Lowering

/-- The walk over statements. The tensors that they assign may be written from then on. -/
theorem visits_of_lowerFrom {nodes : List Node} (each : ∀ m ∈ nodes, Assigning m) {name : String}
    {position : Nat} {a b : Lowering} (h : lowerFrom name a position nodes = .ok b) :
    ∃ as, Visits a nodes as b ∧ ∀ other, b.isWritable other = true ↔
      a.isWritable other = true ∨ other ∈ nodes.filterMap Node.assigned? := by
  induction nodes generalizing position a with
  | nil =>
    obtain rfl := pure_eq_ok.mp h
    exact ⟨[], .nil a, by simp⟩
  | cons m nodes ih =>
    obtain ⟨first, others⟩ := List.forall_mem_cons.mp each
    obtain ⟨v, r, step, rest⟩ := lowerFrom_cons_eq_ok h
    obtain ⟨as, visits, marked, -⟩ := visits_of_lower first step
    obtain ⟨bs, visits', marked'⟩ := ih others rest
    refine ⟨as ++ bs, visits.concat visits', fun other => ?_⟩
    rw [marked', marked, or_assoc]
    refine or_congr_right ?_
    simp only [List.mem_filterMap, List.mem_cons, exists_eq_or_imp]

theorem assigning_of_prepare {config : Config} {n m : Node} (built : n.Constructed)
    (free : ∀ c ∈ n.children, c.Everywhere (·.kind ≠ .assign)) (h : n.prepare config = .ok m) :
    Assigning m := by
  obtain ⟨kind, free⟩ := Node.prepare_operands Node.ofKind_free h free
  obtain ⟨formed, -⟩ := Node.prepare_finished built.composed built.tensors h
  have ending := (Node.ending_of_prepare built h).children
  exact ⟨kind, formed, fun c hc x hx => ⟨free c hc x hx, ending c hc x hx⟩⟩

/-- The nodes of statements and the actions of a lowering correspond to each other. -/
structure Corresponds (nodes : List Node) (s : Lowering) : Prop where
  /-- A node has one action, or one for each operand if it is a sum. -/
  count : s.actions.length = ((nodes.flatMap Node.postorder).map Node.actionCount).sum
  /-- The temporaries are numbered from 0 on, one for each node that is computed. -/
  next : s.next = (Node.computed nodes).length
  /-- The actions that write a temporary are those of its node. -/
  own : ∀ k x, (Node.computed nodes)[k]? = some x →
    Computes x k (s.actions.filter (·.writes (temporaryName k)))
  /-- No other temporary is written. -/
  locals : ∀ a ∈ s.actions, a.result.isGlobal = false →
    ∃ k < s.next, a.result.name = temporaryName k
  /-- A tensor is overwritten once for each assignment to it, and nothing is added to it. -/
  targets : ∀ t : Tensor, t.Constructed →
    (s.actions.filter (·.writes t.name)).map (fun a => (a.result.isGlobal, a.add)) =
      List.replicate ((nodes.flatMap Node.postorder).countP fun x =>
        x.kind = .assign ∧ x.assigned? = some t.name) (true, false)
  /-- The actions stand in the order of the nodes. -/
  walks : Walks 0 (nodes.flatMap Node.postorder) s.actions

theorem corresponds_of_visits {nodes : List Node} {as : List Action} {simple : Bool} {s : Lowering}
    (h : Visits (.start simple) nodes as s) : Corresponds nodes s := by
  have actions : s.actions = as := h.actions
  have next : s.next = (Node.computed nodes).length := h.next.trans (Nat.zero_add _)
  have walks : Walks 0 (nodes.flatMap Node.postorder) s.actions := actions ▸ h.walks
  refine ⟨walks.length, next, fun k x taken => ?_, fun a ha isLocal => ?_, fun t made => ?_, walks⟩
  · have own := walks.own taken
    rwa [Nat.zero_add] at own
  · cases walks.results a ha with
    | tensor isGlobal _ => exact absurd (isLocal.symm.trans isGlobal) Bool.false_ne_true
    | temporary k _ below _ name =>
      rw [Nat.zero_add] at below
      exact ⟨k, next ▸ below, name⟩
  · exact walks.targets (Tensor.name_ne_temporaryName made.identifier)

/-- The tensors in the actions of a statement that is lowered behind others. -/
theorem writable_iff {before : List Node} {m : Node} (each : ∀ n ∈ before, Assigning n)
    (assigning : Assigning m) {name : String} {simple : Bool} {a b : Lowering} {v : Variable}
    (first : lowerFrom name (.start simple) 0 before = .ok a) (step : Yields m.lower a v b) :
    ∃ as, b.actions = a.actions ++ as ∧ ∀ u ∈ variablesOf as, u.isGlobal = true →
      (u.writable = true ↔ u.name ∈ (before ++ [m]).filterMap Node.assigned?) := by
  obtain ⟨_, -, marked⟩ := visits_of_lowerFrom each first
  obtain ⟨as, visits, marks, granted⟩ := visits_of_lower assigning step
  refine ⟨as, visits.actions, fun u hu isGlobal => ?_⟩
  have unmarked : (start simple).isWritable u.name = false := rfl
  rw [granted u hu isGlobal, marks, marked, unmarked, List.filterMap_append, List.mem_append,
    List.mem_filterMap (l := [m])]
  simp

/-- Statements and actions correspond to each other: each node has its own actions in the order of
the walk over the statements, and each computed node has a temporary of its own. A tensor that
occurs in the actions of a statement may be written if and only if this statement or one before it
assigns it. -/
theorem actions_correspond {config : Config} {statements nodes : List Node}
    (built : ∀ n ∈ statements, n.Constructed)
    (free : ∀ n ∈ statements, ∀ c ∈ n.children, c.Everywhere (·.kind ≠ .assign))
    (prepared : List.Forall₂ (fun n m => n.prepare config = .ok m) statements nodes) (name : String)
    (simple : Bool) :
    ∃ s, lowerFrom name (.start simple) 0 nodes = .ok s ∧ Corresponds nodes s ∧
      ∀ before m after, nodes = before ++ m :: after →
        ∃ a b as, lowerFrom name (.start simple) 0 before = .ok a ∧
          lowerFrom name a before.length [m] = .ok b ∧
          b.actions = a.actions ++ as ∧ b.actions <+: s.actions ∧
          ∀ v ∈ variablesOf as, v.isGlobal = true →
            (v.writable = true ↔ v.name ∈ (before ++ [m]).filterMap Node.assigned?) := by
  have assigning : ∀ m ∈ nodes, Assigning m := by
    intro m hm
    obtain ⟨n, hn, done⟩ := exists_of_forall₂_right prepared hm
    exact assigning_of_prepare (built n hn) (free n hn) done
  have succeeds : ∀ m ∈ nodes, ∀ s, Succeeds m.lower s := by
    intro m hm
    obtain ⟨n, hn, done⟩ := exists_of_forall₂_right prepared hm
    exact Node.lower_of_prepare (built n hn).assembled done
  obtain ⟨s, lowered⟩ := lowerFrom_succeeds succeeds name 0 (.start simple)
  obtain ⟨_, visits, -⟩ := visits_of_lowerFrom assigning lowered
  refine ⟨s, lowered, corresponds_of_visits visits, ?_⟩
  rintro before m after rfl
  obtain ⟨assigningB, assigningRest⟩ := List.forall_mem_append.mp assigning
  obtain ⟨assigningM, assigningA⟩ := List.forall_mem_cons.mp assigningRest
  obtain ⟨succeedsB, succeedsRest⟩ := List.forall_mem_append.mp succeeds
  obtain ⟨succeedsM, succeedsA⟩ := List.forall_mem_cons.mp succeedsRest
  obtain ⟨a, first⟩ := lowerFrom_succeeds succeedsB name 0 (.start simple)
  obtain ⟨v, b, step⟩ := succeedsM a
  obtain ⟨t, last⟩ := lowerFrom_succeeds succeedsA name (before.length + 1) b
  have rest : lowerFrom name a (0 + before.length) (m :: after) = .ok t := by
    rw [Nat.zero_add]
    exact (lowerFrom_cons after step).trans last
  obtain rfl := Except.ok.inj (lowered.symm.trans (lowerFrom_append first rest))
  obtain ⟨as, appended, writable⟩ := writable_iff assigningB assigningM first step
  obtain ⟨bs, later, -⟩ := visits_of_lowerFrom assigningA last
  exact ⟨a, b, as, first, lowerFrom_cons [] step, appended, ⟨bs, later.actions.symm⟩, writable⟩

/-- The statements `C_ij = A_ik B_kj` and `D_ij = B_ij + (B_ij + D_ij + C_ij) + s C_ij`. -/
def nested : Result (List Node) := do
  let a ← Node.indexed (square "A") ['i', 'k']
  let b ← Node.indexed (square "B") ['k', 'j']
  let c ← Node.indexed (square "C") ['i', 'j']
  let d ← Node.indexed (square "D") ['i', 'j']
  let e ← Node.indexed (square "B") ['i', 'j']
  let scaled ← Node.scale (.named "s") c
  return [← c.assignment (Node.einsum [a, b]),
    ← d.assignment (Node.add [e, Node.add [e, d, c], scaled])]

theorem constructed_square {name : String} (valid : isIdentifier name = true) :
    (square name).Constructed := by
  have done : Tensor.ofName name [2, 2] = .ok (square name) := by
    rw [Tensor.ofName, checkName, if_pos valid, ok_bind]
    rfl
  exact .ofName done

theorem constructed_nested {statements : List Node} (h : nested = .ok statements) :
    ∀ n ∈ statements, n.Constructed := by
  simp only [nested, bind_eq_ok, pure_eq_ok] at h
  obtain ⟨a, ha, b, hb, c, hc, d, hd, e, he, scaled, hs, first, hfirst, second, hsecond, rfl⟩ := h
  have left := Node.Constructed.indexed (constructed_square (by decide)) ha
  have right := Node.Constructed.indexed (constructed_square (by decide)) hb
  have product := Node.Constructed.indexed (constructed_square (by decide)) hc
  have target := Node.Constructed.indexed (constructed_square (by decide)) hd
  have term := Node.Constructed.indexed (constructed_square (by decide)) he
  have inner : (Node.add [e, d, c]).Constructed := .add (by simpa using ⟨term, target, product⟩)
  have outer : (Node.add [e, Node.add [e, d, c], scaled]).Constructed :=
    .add (by simpa using ⟨term, inner, .scale product hs⟩)
  have value : (Node.einsum [a, b]).Constructed := .einsum (by simpa using ⟨left, right⟩)
  simpa using ⟨Node.Constructed.assignment product value hfirst, .assignment target outer hsecond⟩

theorem texts_nested : (do
      let statements ← Outcome.ofResult nested
      let nodes ← statements.mapM (Node.prepare .standard)
      let s ← lowerFrom "nested" (.start false) 0 nodes
      return (decide (∀ n ∈ statements, ∀ c ∈ n.children, c.Everywhere (·.kind ≠ Kind.assign)),
        nodes.map Node.assigned?, (Node.computed nodes).map fun (x : Node) => x.kind.name,
        s.actions.map Action.text)) = .ok
    (true, [some "C", some "D"], ["LoopOverGEMM", "Add", "ScalarMultiplication", "Add"],
      ["_tmp0 = LoopOverGEMM(A, B)", "C = _tmp0", "_tmp1 = D", "_tmp1 += C", "_tmp1 += B",
        "_tmp2 = s * C", "_tmp3 = B", "_tmp3 += _tmp1", "_tmp3 += _tmp2", "D = _tmp3"]) :=
  eq_ok_of_toOption (by decide +kernel)

theorem actions_correspond_nested : ∃ statements first second s, nested = .ok statements ∧
    (∀ n ∈ statements, n.Constructed) ∧
    (∀ n ∈ statements, ∀ c ∈ n.children, c.Everywhere (·.kind ≠ .assign)) ∧
    List.Forall₂ (fun n m => n.prepare .standard = .ok m) statements [first, second] ∧
    lowerFrom "nested" (.start false) 0 [first, second] = .ok s ∧
    Corresponds [first, second] s ∧
    s.actions.map Action.text =
      ["_tmp0 = LoopOverGEMM(A, B)", "C = _tmp0", "_tmp1 = D", "_tmp1 += C", "_tmp1 += B",
        "_tmp2 = s * C", "_tmp3 = B", "_tmp3 += _tmp1", "_tmp3 += _tmp2", "D = _tmp3"] ∧
    ∃ a b as, lowerFrom "nested" (.start false) 0 [first] = .ok a ∧
      lowerFrom "nested" a 1 [second] = .ok b ∧ b.actions = a.actions ++ as ∧
      ∀ v ∈ variablesOf as, v.isGlobal = true → (v.writable = true ↔ v.name ∈ ["C", "D"]) := by
  have texts := texts_nested
  simp only [bind_eq_ok, pure_eq_ok, Outcome.ofResult, mapError_eq_ok, Prod.mk.injEq,
    decide_eq_true_eq] at texts
  obtain ⟨statements, build, nodes, prepare, s, lowered, free, assigned, -, texts⟩ := texts
  have prepared := mapM_eq_ok.mp prepare
  have two : nodes.length = 2 := by simpa using congrArg List.length assigned
  obtain ⟨first, second, rfl⟩ := List.length_eq_two.mp two
  have built := constructed_nested build
  obtain ⟨s', lowered', corresponds, each⟩ := actions_correspond built free prepared "nested" false
  obtain rfl := Except.ok.inj (lowered.symm.trans lowered')
  obtain ⟨a, b, as, before, step, appended, -, writable⟩ := each [first] second [] rfl
  simp only [List.map_cons, List.map_nil, List.cons.injEq, and_true] at assigned
  refine ⟨statements, first, second, s, build, built, free, prepared, lowered, corresponds, texts,
    a, b, as, before, step, appended, fun v hv isGlobal => ?_⟩
  rw [writable v hv isGlobal, List.singleton_append, List.filterMap_cons_some assigned.1,
    List.filterMap_cons_some assigned.2, List.filterMap_nil]

end Kernel

end TensorKernel
