import TensorKernel.Proofs.Tree.Construction

/-!
The tensors to prefetch that are attached to the operations of a tree. Passes rebuild the nodes of a
tree, and the tensors have to move on with them: all passes keep them, in the order in which their
operations run. What is attached to a product that is still to be resolved is not among them, as
resolution makes other nodes of it.

* `operations`, `prefetched`: the operations of a tree and what is attached to them;
* `Combines.prefetched`, `prefetched_resolveTo`: resolution;
* `prefetched_of_prepare`: preparation as a whole.
-/

namespace TensorKernel.Node

/-- The children from which the value of a node is computed: of a factor its last child, of a tensor
none. -/
def evaluated (n : Node) : List Node :=
  if n.kind.isLeaf then [] else if n.kind.isScale then n.children.getLast?.toList else n.children

theorem mem_children_of_evaluated {n c : Node} (hc : c ∈ n.evaluated) : c ∈ n.children := by
  unfold evaluated at hc
  split at hc
  · cases hc
  · split at hc
    · exact List.mem_of_getLast? (Option.mem_toList.mp hc)
    · exact hc

mutual

/-- The operations of a tree in the order in which they run. -/
def operations : Node → List Node
  | n@⟨kind, _, _, _, _, children⟩ =>
    match kind with
    | .leaf _ => []
    | .scale _ => operationsOfLast children
    | .einsum | .add | .assign => operationsOfAll children
    | .indexSum _ | .product | .contraction _ | .gemm _ => operationsOfAll children ++ [n]

def operationsOfAll : List Node → List Node
  | [] => []
  | child :: children => child.operations ++ operationsOfAll children

def operationsOfLast : List Node → List Node
  | [] => []
  | [term] => term.operations
  | _ :: term :: terms => operationsOfLast (term :: terms)

end

def prefetched (n : Node) : List Tensor := n.operations.filterMap prefetch

theorem operationsOfAll_eq (children : List Node) :
    operationsOfAll children = children.flatMap operations := by
  induction children with
  | nil => rfl
  | cons c cs ih => rw [operationsOfAll, ih, List.flatMap_cons]

theorem operationsOfLast_eq (children : List Node) :
    operationsOfLast children = children.getLast?.toList.flatMap operations := by
  induction children with
  | nil => rfl
  | cons c cs ih =>
    cases cs with
    | nil => simp [operationsOfLast]
    | cons c' cs => rw [operationsOfLast, ih, List.getLast?_cons_cons]

theorem operations_eq (n : Node) :
    n.operations = n.evaluated.flatMap operations ++ if n.kind.isOperation then [n] else [] := by
  obtain ⟨kind, _, _, _, _, children⟩ := n
  cases kind <;> simp [operations, evaluated, operationsOfAll_eq, operationsOfLast_eq, Kind.isLeaf,
    Kind.isScale, Kind.isOperation]

theorem prefetched_eq (n : Node) :
    n.prefetched =
      n.evaluated.flatMap prefetched ++ if n.kind.isOperation then n.prefetch.toList else [] := by
  have own : (if n.kind.isOperation then [n] else []).filterMap prefetch =
      if n.kind.isOperation then n.prefetch.toList else [] := by
    split
    · cases h : n.prefetch <;> simp [h]
    · rfl
  rw [prefetched, operations_eq, List.filterMap_append, List.filterMap_flatMap, own]
  rfl

/-- Where each child counts, the operations are the nodes of their kinds. -/
theorem operations_of_evaluated {n : Node} (each : n.Everywhere fun x => x.evaluated = x.children) :
    ∀ x ∈ n.postorder, x.kind.isOperation = true → x ∈ n.operations := by
  induction n using Node.induction with
  | node kind indices pattern layout prefetch children ih =>
    intro x hx operation
    rw [operations_eq, List.mem_append, each.root]
    rcases mem_postorder.mp hx with rfl | ⟨c, hc, hx⟩
    · right
      rw [if_pos operation]
      exact List.mem_singleton.mpr rfl
    · left
      exact List.mem_flatMap.mpr ⟨c, hc, ih c hc (each.children c hc) x hx operation⟩

theorem mem_postorder_of_operations {n x : Node} (hx : x ∈ n.operations) : x ∈ n.postorder := by
  induction n using Node.induction with
  | node kind indices pattern layout prefetch children ih =>
    rw [operations_eq, List.mem_append] at hx
    rw [mem_postorder]
    rcases hx with below | own
    · right
      obtain ⟨c, hc, hx⟩ := List.mem_flatMap.mp below
      have child := mem_children_of_evaluated hc
      exact ⟨c, child, ih c child hx⟩
    · left
      split at own
      · exact List.mem_singleton.mp own
      · cases own

/-! ### Nodes that are rebuilt -/

/-- A node that goes on as one of the same role, with its tensor, keeps what is attached if its
children do. -/
theorem prefetched_congr {n m : Node} (leaf : m.kind.isLeaf = n.kind.isLeaf)
    (scale : m.kind.isScale = n.kind.isScale)
    (operation : m.kind.isOperation = n.kind.isOperation) (prefetch : m.prefetch = n.prefetch)
    (children : List.Forall₂ (fun c d => d.prefetched = c.prefetched) n.children m.children) :
    m.prefetched = n.prefetched := by
  have evaluated :
      List.Forall₂ (fun c d => d.prefetched = c.prefetched) n.evaluated m.evaluated := by
    unfold Node.evaluated
    rw [leaf, scale]
    split
    · exact .nil
    · split
      · exact forall₂_getLast? children
      · exact children
  have same : m.evaluated.map prefetched = n.evaluated.map prefetched := map_eq_of_forall₂ evaluated
  rw [prefetched_eq, prefetched_eq, operation, prefetch, List.flatMap_def, List.flatMap_def, same]

theorem prefetched_congr_kind {n m : Node} (kind : m.kind = n.kind)
    (prefetch : m.prefetch = n.prefetch)
    (children : List.Forall₂ (fun c d => d.prefetched = c.prefetched) n.children m.children) :
    m.prefetched = n.prefetched :=
  prefetched_congr (by rw [kind]) (by rw [kind]) (by rw [kind]) prefetch children

/-! ### Resolution -/

theorem prefetched_reorder {n m : Node} {order : Indices} {keep : Bool}
    (h : n.reorder order keep = .ok m) : m.prefetched = n.prefetched := by
  induction n using Node.induction generalizing m with
  | node kind indices pattern layout prefetch children ih =>
    obtain ⟨_, -, ⟨-, rfl⟩ | ⟨-, -, same, -, -, prefetch, done⟩⟩ := reorder_cases h
    · rfl
    refine prefetched_congr_kind same prefetch ?_
    cases kind with
    | leaf | assign => exact done.elim
    | scale | add => exact forall₂_imp_of_mem done fun c hc d reordered => ih c hc reordered
    | einsum | indexSum | product | contraction | gemm =>
      obtain rfl : m.children = children := done
      exact List.forall₂_same.mpr fun _ _ => rfl

/-- Nodes that resolution makes have nothing attached. -/
theorem prefetched_made {kind : Kind} (made : kind.isMade = true) (children : List Node)
    (indices : Option Indices) :
    (ofKind kind children indices).prefetched = children.flatMap prefetched := by
  rw [prefetched_eq]
  cases kind with
  | indexSum | product | contraction =>
    simp [evaluated, ofKind, Kind.isLeaf, Kind.isScale, Kind.isOperation]
  | leaf | einsum | add | scale | gemm | assign => cases made

/-- What is made of operands has attached what they have. -/
theorem Combines.prefetched {xs : List Node} {n : Node} (h : Combines xs n) :
    n.prefetched = xs.flatMap Node.prefetched := by
  induction h with
  | operand n => rw [List.flatMap_singleton]
  | reorder _ done ih => rw [prefetched_reorder done, ih]
  | sum _ ih => rw [prefetched_made rfl, List.flatMap_singleton, ih]
  | pair made _ _ hl hr =>
    rw [prefetched_made made, List.flatMap_append, ← hl, ← hr]
    simp

theorem prefetched_resolveTo {n m : Node} {target : Option Indices}
    (h : n.resolveTo target = .ok m) : m.prefetched = n.prefetched := by
  induction n using Node.induction generalizing target m with
  | node kind indices pattern layout prefetch children ih =>
  obtain ⟨r, resolved, brought⟩ := resolveTo_cases h
  have whole : r.prefetched = (mk kind indices pattern layout prefetch children).prefetched := by
    cases kind with
    | leaf =>
      obtain rfl := resolved
      rfl
    | einsum =>
      obtain ⟨ds, each, products⟩ := resolved
      have operands : List.Forall₂ (fun c d => d.prefetched = c.prefetched) children ds :=
        forall₂_imp_of_mem each fun c hc d done => ih c hc done
      rw [(Combines.binarize products).prefetched, prefetched_eq, List.flatMap_def,
        map_eq_of_forall₂ operands]
      simp [evaluated, Kind.isLeaf, Kind.isScale, Kind.isOperation, List.flatMap_def]
    | add =>
      obtain ⟨ds, order, each, rfl⟩ := resolved
      refine prefetched_congr_kind rfl rfl
        (forall₂_imp_of_mem (resolveSummands_eq_ok each) fun c hc d summand => ?_)
      obtain ⟨_, done⟩ := summand
      exact ih c hc done
    | scale =>
      obtain ⟨term, d, last, done, rfl⟩ := resolved
      rw [prefetched_eq, prefetched_eq]
      simp [evaluated, Kind.isLeaf, Kind.isScale, Kind.isOperation, last,
        ih term (List.mem_of_getLast? last) done]
    | indexSum | product | contraction | gemm =>
      obtain ⟨ds, each, rfl⟩ := resolved
      exact prefetched_congr_kind rfl rfl
        (forall₂_imp_of_mem each fun c hc d done => ih c hc done)
    | assign =>
      obtain ⟨leaf, value, v, rfl, done, rfl⟩ := resolved
      exact prefetched_congr_kind rfl rfl (.cons rfl (.cons (ih value (by simp) done) .nil))
  cases target with
  | none =>
    obtain rfl := pure_eq_ok.mp brought
    exact whole
  | some t =>
    rw [((Combines.operand r).bring brought).prefetched, List.flatMap_singleton, whole]

/-! ### The passes behind resolution -/

theorem prefetched_annotate {pass : Node → Result Node} (annotates : Annotates pass) {n m : Node}
    (h : n.annotate pass = .ok m) : m.prefetched = n.prefetched := by
  induction n using Node.induction generalizing m with
  | node kind indices pattern layout prefetch children ih =>
    obtain ⟨done, all, passed⟩ := annotate_eq_ok.mp h
    have kept := annotates _ m passed
    refine prefetched_congr_kind kept.kind kept.prefetch ?_
    rw [kept.children]
    exact forall₂_imp_of_mem all fun c hc d annotated => ih c hc annotated

/-- A contraction hands its tensor on to the matrix products. -/
theorem prefetched_mapContractions {source : Gemm.Source} {n m : Node} {count : Nat}
    (h : n.mapContractions source = .ok (m, count)) : m.prefetched = n.prefetched := by
  induction n using Node.induction generalizing m count with
  | node kind indices pattern layout prefetch children ih =>
    obtain ⟨mapped, each⟩ := mapped_of_mapContractions h
    have children : List.Forall₂ (fun c d => d.prefetched = c.prefetched) children m.children := by
      refine forall₂_imp_of_mem each fun c hc d counted => ?_
      obtain ⟨_, done⟩ := counted
      exact ih c hc done
    rcases mapped.kind with same | ⟨⟨sum, contraction⟩, g, gemm⟩
    · exact prefetched_congr_kind same mapped.prefetch children
    · refine prefetched_congr ?_ ?_ ?_ mapped.prefetch children <;> rw [contraction, gemm] <;> rfl

/-- Preparation keeps what is attached to the operations of a statement. -/
theorem prefetched_of_prepare {config : Config} {n m : Node} (h : n.prepare config = .ok m) :
    m.prefetched = n.prefetched := by
  obtain ⟨r, p, l, resolved, propagated, laid, mapped⟩ := prepare_stages h
  have before : l.prefetched = n.prefetched :=
    calc
      l.prefetched = p.prefetched := prefetched_annotate (annotates_withLayout config) laid
      _ = r.prefetched := prefetched_annotate annotates_withPattern propagated
      _ = n.prefetched := prefetched_resolveTo resolved
  rcases mapped with rfl | ⟨count, mapped⟩
  · exact before
  · rw [prefetched_mapContractions mapped, before]

end TensorKernel.Node
