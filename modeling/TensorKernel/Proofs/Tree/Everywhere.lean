import TensorKernel.Proofs.Tree.Passes

/-!
Properties that hold everywhere in a tree and that passes keep. Resolution takes nodes over, some of
them in a new order or with other children, and makes sums over an index and binary products; so a
property that these nodes have stays true of the whole tree (`resolveTo_everywhere`). The passes
behind it change patterns and layouts and make matrix products, and keep what is a matter of the
kind of a node (`prepare_operands`).
-/

namespace TensorKernel

def Kind.isMade : Kind → Bool
  | .indexSum _ | .product | .contraction _ => true
  | .leaf _ | .einsum | .add | .scale _ | .gemm _ | .assign => false

namespace Node

/-- What resolution keeps of a node that it takes over. -/
structure Resembles (x y : Node) : Prop where
  kind : y.kind = x.kind
  leaf : x.kind.isLeaf = true → y.indices = x.indices
  below : x.kind.isLeaf = true → y.children = x.children
  childless : y.children = [] → x.children = []
  pattern : x.pattern = none → y.pattern = none
  layout : x.layout = none → y.layout = none

/-- A property of the nodes that resolution takes over or makes. -/
structure Stable (P : Node → Prop) : Prop where
  resembling : ∀ {x y}, Resembles x y → P x → P y
  made : ∀ {kind children indices}, kind.isMade = true → children ≠ [] →
    P (ofKind kind children indices)

/-- A property of trees that a new storage order keeps, and that is passed on to the nodes that
resolution makes of operands. -/
structure Closed (T : Node → Prop) : Prop where
  reorder : ∀ {n m : Node} {order : Indices} {keep : Bool}, T n → n.reorder order keep = .ok m → T m
  made : ∀ {kind : Kind} {children : List Node} {i : Indices}, kind.isMade = true → children ≠ [] →
    (∀ c ∈ children, T c) → T (ofKind kind children (some i))

/-! ### Products -/

/-- A tree that is made of operands in their order, each of which is taken once: they are reordered,
summed over indices and multiplied with one another. -/
inductive Combines : List Node → Node → Prop
  | operand (n : Node) : Combines [n] n
  | reorder {xs : List Node} {n m : Node} {order : Indices} {keep : Bool} (hn : Combines xs n)
      (done : n.reorder order keep = .ok m) : Combines xs m
  | sum {xs : List Node} {term : Node} {index i : Indices} (ht : Combines xs term) :
      Combines xs (ofKind (.indexSum index) [term] (some i))
  | pair {xs ys : List Node} {left right : Node} {kind : Kind} {i : Indices}
      (made : kind.isMade = true) (hl : Combines xs left) (hr : Combines ys right) :
      Combines (xs ++ ys) (ofKind kind [left, right] (some i))

theorem Closed.of_combines {T : Node → Prop} (closed : Closed T) {xs : List Node} {n : Node}
    (h : Combines xs n) (each : ∀ x ∈ xs, T x) : T n := by
  induction h with
  | operand => exact each _ (List.mem_singleton.mpr rfl)
  | reorder _ done ih => exact closed.reorder (ih each) done
  | sum _ ih => exact closed.made rfl (List.cons_ne_nil _ _) (by simpa using ih each)
  | pair made _ _ hl hr =>
    obtain ⟨left, right⟩ := List.forall_mem_append.mp each
    exact closed.made made (List.cons_ne_nil _ _) (by simp [hl left, hr right])

namespace Combines

variable {xs ys : List Node} {left right n m : Node}

theorem bring {target : Indices} (hn : Combines xs n) (h : n.bring target = .ok m) :
    Combines xs m := by
  obtain ⟨current, -, h⟩ := bind_eq_ok.mp h
  split at h
  · obtain ⟨_, -, done⟩ := bind_eq_ok.mp h
    exact hn.reorder done
  · exact absurd h refuse_ne_ok

theorem indexSum {name : Char} (hn : Combines xs n) (h : n.indexSum name = .ok m) :
    Combines xs m := by
  obtain ⟨i, -, h⟩ := bind_eq_ok.mp h
  split at h
  · obtain rfl := pure_eq_ok.mp h
    exact hn.sum
  · exact absurd h refuse_ne_ok

theorem product (hl : Combines xs left) (hr : Combines ys right)
    (h : left.product right = .ok n) : Combines (xs ++ ys) n := by
  simp only [Node.product, bind_eq_ok, pure_eq_ok] at h
  obtain ⟨_, -, rfl⟩ := h
  exact .pair rfl hl hr

theorem contraction {indices sum : Indices} (hl : Combines xs left) (hr : Combines ys right)
    (h : contraction indices left right sum = .ok n) : Combines (xs ++ ys) n := by
  simp only [Node.contraction, bind_eq_ok] at h
  obtain ⟨_, -, h⟩ := h
  split at h
  · exact absurd h refuse_ne_ok
  · exact .reorder (.pair rfl hl hr) h

theorem multiply {needed : Indices} (hl : Combines xs left) (hr : Combines ys right)
    (h : multiply needed left right = .ok n) : Combines (xs ++ ys) n := by
  simp only [Node.multiply, bind_eq_ok] at h
  obtain ⟨li, -, ri, -, h⟩ := h
  split at h
  · exact hl.product hr h
  · exact hl.contraction hr h

theorem multiplyAll {keep : Indices} {rest : List Node} (hl : Combines xs left)
    (hr : List.Forall₂ (fun y right => Combines [y] right) ys rest)
    (h : left.multiplyAll keep rest = .ok n) : Combines (xs ++ ys) n := by
  induction hr generalizing xs left with
  | nil =>
    obtain rfl := pure_eq_ok.mp h
    rwa [List.append_nil]
  | @cons y right ys later hright _ ih =>
    obtain ⟨next, first, rest⟩ := bind_eq_ok.mp h
    rw [List.append_cons]
    exact ih (hl.multiply hright first) rest

theorem sumPrivate {keep : Indices} {operands : List Node} (hn : Combines xs n)
    (h : sumPrivate keep operands n = .ok m) : Combines xs m := by
  have fold {names : List Char} {n : Node} (hn : Combines xs n)
      (h : names.foldlM Node.indexSum n = .ok m) : Combines xs m := by
    induction names generalizing n with
    | nil =>
      obtain rfl := pure_eq_ok.mp h
      exact hn
    | cons name names ih =>
      obtain ⟨next, first, rest⟩ := bind_eq_ok.mp (List.foldlM_cons.symm.trans h)
      exact ih (hn.indexSum first) rest
  obtain ⟨i, -, sums⟩ := bind_eq_ok.mp h
  exact fold hn sums

/-- The product of operands is made of them. -/
theorem binarize {target : Option Indices} {operands : List Node}
    (h : binarize target operands = .ok n) : Combines operands n := by
  obtain ⟨all, keep, first, rest, product, -, -, sums, products, brought⟩ := binarize_cases h
  have each : List.Forall₂ (fun x y => Combines [x] y) operands (first :: rest) :=
    (mapM_eq_ok.mp sums).imp fun x _ done => (operand x).sumPrivate done
  cases each with
  | cons hfirst hrest => exact (hfirst.multiplyAll hrest products).bring brought

end Combines

section
variable {P : Node → Prop} (stable : Stable P)
include stable

theorem reorder_everywhere {n m : Node} {order : Indices} {keep : Bool} (hn : n.Everywhere P)
    (h : n.reorder order keep = .ok m) : m.Everywhere P := by
  induction n using Node.induction generalizing m with
  | node kind indices pattern layout prefetch children ih =>
  obtain ⟨current, known, ⟨-, rfl⟩ | ⟨-, -, hkind, hpattern, hlayout, -, hchildren⟩⟩ :=
    reorder_cases h
  · exact hn
  have resembles (leaf : kind.isLeaf = false) (childless : m.children = [] → children = []) :
      P m := by
    have noLeaf (isLeaf : kind.isLeaf = true) : False :=
      Bool.false_ne_true (leaf.symm.trans isLeaf)
    exact stable.resembling ⟨hkind, fun isLeaf => (noLeaf isLeaf).elim,
      fun isLeaf => (noLeaf isLeaf).elim, childless, hpattern, hlayout⟩ hn.root
  rw [everywhere_iff]
  cases kind with
  | leaf | assign => exact hchildren.elim
  | scale | add =>
    refine ⟨resembles rfl fun empty => ?_, fun d hd => ?_⟩
    · rw [ReorderedChildren, empty] at hchildren
      exact List.forall₂_nil_right_iff.mp hchildren
    · obtain ⟨c, hc, done⟩ := exists_of_forall₂_right hchildren hd
      exact ih c hc (hn.children c hc) done
  | einsum | indexSum | product | contraction | gemm =>
    obtain rfl : m.children = children := hchildren
    exact ⟨resembles rfl id, hn.children⟩

theorem Stable.closed : Closed (Everywhere P) :=
  ⟨reorder_everywhere stable, fun made some_child each =>
    everywhere_iff.mpr ⟨stable.made made some_child, each⟩⟩

/-! ### Resolution -/

theorem resolveTo_everywhere {n m : Node} {target : Option Indices} (hn : n.Everywhere P)
    (h : n.resolveTo target = .ok m) : m.Everywhere P := by
  induction n using Node.induction generalizing target m with
  | node kind indices pattern layout prefetch children ih =>
  obtain ⟨r, resolved, brought⟩ := resolveTo_cases h
  -- a node that keeps its kind, with resolved children of its own
  have kept {i : Option Indices} {ds : List Node} (leaf : kind.isLeaf = false)
      (childless : ds = [] → children = [])
      (each : ∀ d ∈ ds, ∃ c ∈ children, d = c ∨ ∃ o, c.resolveTo o = .ok d) :
      Everywhere P ⟨kind, i, pattern, layout, prefetch, ds⟩ := by
    have noLeaf (isLeaf : kind.isLeaf = true) : False :=
      Bool.false_ne_true (leaf.symm.trans isLeaf)
    have resembles : Resembles ⟨kind, indices, pattern, layout, prefetch, children⟩
        ⟨kind, i, pattern, layout, prefetch, ds⟩ :=
      ⟨rfl, fun isLeaf => (noLeaf isLeaf).elim, fun isLeaf => (noLeaf isLeaf).elim, childless, id,
        id⟩
    refine everywhere_iff.mpr ⟨stable.resembling resembles hn.root, fun d hd => ?_⟩
    · obtain ⟨c, hc, rfl | ⟨o, done⟩⟩ := each d hd
      · exact hn.children _ hc
      · exact ih c hc (hn.children c hc) done
  have whole : r.Everywhere P := by
    cases kind with
    | leaf =>
      obtain rfl := resolved
      exact hn
    | einsum =>
      obtain ⟨ds, each, products⟩ := resolved
      refine stable.closed.of_combines (.binarize products) fun d hd => ?_
      obtain ⟨c, hc, done⟩ := exists_of_forall₂_right each hd
      exact ih c hc (hn.children c hc) done
    | add =>
      obtain ⟨ds, order, each, rfl⟩ := resolved
      have each := resolveSummands_eq_ok each
      refine kept rfl (fun empty => ?_) fun d hd => ?_
      · rw [empty] at each
        exact List.forall₂_nil_right_iff.mp each
      · obtain ⟨c, hc, o, done⟩ := exists_of_forall₂_right each hd
        exact ⟨c, hc, .inr ⟨o, done⟩⟩
    | scale =>
      obtain ⟨term, d, last, done, rfl⟩ := resolved
      refine kept rfl (fun empty => absurd empty (List.cons_ne_nil _ _)) fun x hx => ?_
      obtain rfl := List.mem_singleton.mp hx
      exact ⟨term, List.mem_of_getLast? last, .inr ⟨target, done⟩⟩
    | indexSum | product | contraction | gemm =>
      obtain ⟨ds, each, rfl⟩ := resolved
      refine kept rfl (fun empty => ?_) fun d hd => ?_
      · rw [empty] at each
        exact List.forall₂_nil_right_iff.mp each
      · obtain ⟨c, hc, done⟩ := exists_of_forall₂_right each hd
        exact ⟨c, hc, .inr ⟨c.indices, done⟩⟩
    | assign =>
      obtain ⟨leaf, value, v, rfl, done, rfl⟩ := resolved
      refine kept rfl (fun empty => absurd empty (List.cons_ne_nil _ _)) fun d hd => ?_
      rcases List.mem_pair.mp hd with rfl | rfl
      · exact ⟨d, List.mem_cons_self, .inl rfl⟩
      · exact ⟨value, by simp, .inr ⟨leaf.indices, done⟩⟩
  cases target with
  | none =>
    obtain rfl := pure_eq_ok.mp brought
    exact whole
  | some t =>
    exact stable.closed.of_combines ((Combines.operand r).bring brought) (by simpa using whole)

end

/-- Resolution makes no matrix products. -/
theorem stable_noGemm : Stable fun x => ∀ g, x.kind ≠ .gemm g := by
  refine ⟨fun resembles noGemm g gemm => noGemm g (resembles.kind.symm.trans gemm),
    fun {kind children indices} made _ g gemm => ?_⟩
  obtain rfl : kind = .gemm g := gemm
  cases made

/-- Resolution empties no sum. -/
theorem stable_summand : Stable fun x => x.kind = .add → x.children ≠ [] :=
  ⟨fun resembles summand add empty =>
    summand (resembles.kind.symm.trans add) (resembles.childless empty),
    fun _ some_child _ => some_child⟩

/-! ### The passes behind resolution -/

/-- What a pass does to each node holds everywhere after it. -/
theorem everywhere_of_annotate {pass : Node → Result Node} (annotates : Annotates pass)
    {Q : Node → Prop} (each : ∀ n m, pass n = .ok m → Q m) {n m : Node}
    (h : n.annotate pass = .ok m) : m.Everywhere Q := by
  induction n using Node.induction generalizing m with
  | node kind indices pattern layout prefetch children ih =>
    obtain ⟨done, all, passed⟩ := annotate_eq_ok.mp h
    refine everywhere_iff.mpr ⟨each _ m passed, ?_⟩
    rw [(annotates _ m passed).children]
    intro d hd
    obtain ⟨c, hc, annotated⟩ := exists_of_forall₂_right all hd
    exact ih c hc annotated

/-- Every node after a pass comes from one before it. What the pass does to a node, whatever its
children are, relates both of them and their children. -/
theorem exists_of_annotate {pass : Node → Result Node} {K : Node → Node → Prop}
    (does : ∀ n children m, pass { n with children } = .ok m → K n m ∧ m.children = children)
    {n m y : Node} (h : n.annotate pass = .ok m) (hy : y ∈ m.postorder) :
    ∃ x ∈ n.postorder, K x y ∧ List.Forall₂ K x.children y.children := by
  induction n using Node.induction generalizing m with
  | node kind indices pattern layout prefetch children ih =>
    obtain ⟨done, all, passed⟩ := annotate_eq_ok.mp h
    obtain ⟨root, kept⟩ := does ⟨kind, indices, pattern, layout, prefetch, children⟩ _ m passed
    rcases mem_postorder.mp hy with rfl | ⟨d, hd, hy⟩
    · refine ⟨_, mem_postorder.mpr (.inl rfl), root, ?_⟩
      rw [kept]
      refine all.imp fun c d annotated => ?_
      obtain ⟨_, -, passed⟩ := annotate_eq_ok.mp annotated
      exact (does c _ d passed).1
    · rw [kept] at hd
      obtain ⟨c, hc, annotated⟩ := exists_of_forall₂_right all hd
      obtain ⟨x, hx, related⟩ := ih c hc annotated hy
      exact ⟨x, mem_postorder.mpr (.inr ⟨c, hc, hx⟩), related⟩

/-- A pass keeps what is a matter of the kind alone. -/
theorem annotate_kinds {pass : Node → Result Node} (annotates : Annotates pass) {P : Node → Prop}
    (ofKind : ∀ {x y : Node}, y.kind = x.kind → P x → P y) {n m : Node} (hn : n.Everywhere P)
    (h : n.annotate pass = .ok m) : m.Everywhere P := by
  intro y hy
  obtain ⟨x, hx, same, -⟩ := exists_of_annotate (K := fun x y => y.kind = x.kind)
    (fun n children m done => ⟨(annotates _ m done).kind, (annotates _ m done).children⟩) h hy
  exact ofKind same (hn x hx)

/-- A node whose indices and pattern have passed to another, for which a contraction may have become
matrix products. -/
structure Carries (x y : Node) : Prop where
  kind : y.kind = x.kind ∨ (∃ sum, x.kind = .contraction sum) ∧ ∃ g, y.kind = .gemm g
  indices : y.indices = x.indices
  pattern : y.pattern = x.pattern

structure Mapped (x y : Node) : Prop extends Carries x y where
  layout : y.layout = x.layout
  prefetch : y.prefetch = x.prefetch

theorem mapped_of_mapContractions {source : Gemm.Source} {n m : Node} {count : Nat}
    (h : n.mapContractions source = .ok (m, count)) :
    Mapped n m ∧
      List.Forall₂ (fun c d => ∃ k, c.mapContractions source = .ok (d, k)) n.children
        m.children := by
  obtain ⟨done, each, rfl | ⟨p, chosen, mapped⟩⟩ := mapContractions_cases h
  · exact ⟨⟨⟨.inl rfl, rfl, rfl⟩, rfl, rfl⟩, each⟩
  · obtain ⟨-, sum, a, b, c, _, _, contraction, operands, known, hl, hr, -⟩ :=
      gemmPartition?_eq_ok chosen
    obtain ⟨g, -, rfl⟩ := asGemm_eq_ok operands known hl hr mapped
    exact ⟨⟨⟨.inr ⟨⟨sum, contraction⟩, g, rfl⟩, rfl, rfl⟩, rfl, rfl⟩, each⟩

/-- Every node after the choice of matrix products comes from one before it. -/
theorem exists_of_mapContractions {source : Gemm.Source} {n m y : Node} {count : Nat}
    (h : n.mapContractions source = .ok (m, count)) (hy : y ∈ m.postorder) :
    ∃ x ∈ n.postorder, Mapped x y ∧ List.Forall₂ Mapped x.children y.children := by
  induction n using Node.induction generalizing m count with
  | node kind indices pattern layout prefetch children ih =>
    obtain ⟨root, each⟩ := mapped_of_mapContractions h
    rcases mem_postorder.mp hy with rfl | ⟨d, hd, hy⟩
    · exact ⟨_, mem_postorder.mpr (.inl rfl), root,
        each.imp fun _ _ ⟨_, done⟩ => (mapped_of_mapContractions done).1⟩
    · obtain ⟨c, hc, _, done⟩ := exists_of_forall₂_right each hd
      obtain ⟨x, hx, related⟩ := ih c hc done hy
      exact ⟨x, mem_postorder.mpr (.inr ⟨c, hc, hx⟩), related⟩

/-- A property that is a matter of the kind, and that all kinds but tensors and assignments have. -/
structure OfKind (P : Node → Prop) : Prop where
  kind : ∀ {x y : Node}, y.kind = x.kind → P x → P y
  computed : ∀ {x : Node}, x.kind.isLeaf = false → x.kind ≠ .assign → P x

section
variable {P : Node → Prop} (ofKind : OfKind P)
include ofKind

theorem OfKind.stable : Stable P := by
  refine ⟨fun resembles => ofKind.kind resembles.kind, fun {kind children indices} made _ => ?_⟩
  apply ofKind.computed
  all_goals cases kind <;> simp_all [Kind.isMade, Node.ofKind, Kind.isLeaf]

theorem OfKind.carried {x y : Node} (h : Carries x y) (hx : P x) : P y := by
  rcases h.kind with same | ⟨-, g, gemm⟩
  · exact ofKind.kind same hx
  · apply ofKind.computed <;> simp [gemm, Kind.isLeaf]

theorem annotate_everywhere {pass : Node → Result Node} (annotates : Annotates pass) {n m : Node}
    (hn : n.Everywhere P) (h : n.annotate pass = .ok m) : m.Everywhere P :=
  annotate_kinds annotates ofKind.kind hn h

theorem mapContractions_everywhere {source : Gemm.Source} {n m : Node} {count : Nat}
    (hn : n.Everywhere P) (h : n.mapContractions source = .ok (m, count)) : m.Everywhere P := by
  intro y hy
  obtain ⟨x, hx, mapped, -⟩ := exists_of_mapContractions h hy
  exact ofKind.carried mapped.toCarries (hn x hx)

/-- Statements are assignments, and preparation keeps what holds everywhere in their operands. -/
theorem prepare_operands {config : Config} {n m : Node} (h : n.prepare config = .ok m)
    (hn : ∀ c ∈ n.children, c.Everywhere P) :
    m.kind = .assign ∧ ∀ c ∈ m.children, c.Everywhere P := by
  obtain ⟨kind, -⟩ := prepare_eq_ok.mp h
  obtain ⟨r, p, l, resolved, propagated, laid, mapped⟩ := prepare_stages h
  have annotated {pass : Node → Result Node} (annotates : Annotates pass) {x y : Node}
      (start : x.kind = .assign ∧ ∀ c ∈ x.children, c.Everywhere P) (h : x.annotate pass = .ok y) :
      y.kind = .assign ∧ ∀ c ∈ y.children, c.Everywhere P := by
    obtain ⟨done, all, passed⟩ := annotate_eq_ok.mp h
    have kept := annotates _ y passed
    refine ⟨kept.kind.trans start.1, fun d hd => ?_⟩
    rw [kept.children] at hd
    obtain ⟨c, hc, done⟩ := exists_of_forall₂_right all hd
    exact annotate_everywhere ofKind annotates (start.2 c hc) done
  have first : r.kind = .assign ∧ ∀ c ∈ r.children, c.Everywhere P := by
    obtain ⟨_, into, same⟩ := resolveTo_cases resolved
    obtain rfl := pure_eq_ok.mp same
    rw [ResolvesInto, kind] at into
    obtain ⟨leaf, value, v, operands, done, rfl⟩ := into
    refine ⟨rfl, fun d hd => ?_⟩
    rw [operands] at hn
    rcases List.mem_pair.mp hd with rfl | rfl
    · exact hn d List.mem_cons_self
    · exact resolveTo_everywhere ofKind.stable (hn value (by simp)) done
  obtain ⟨assign, each⟩ :=
    annotated (annotates_withLayout config) (annotated annotates_withPattern first propagated) laid
  rcases mapped with rfl | ⟨count, mapped⟩
  · exact ⟨assign, each⟩
  · obtain ⟨done, all, rfl⟩ := mapContractions_assign assign mapped
    refine ⟨assign, fun d hd => ?_⟩
    obtain ⟨c, hc, _, done⟩ := exists_of_forall₂_right all hd
    exact mapContractions_everywhere ofKind (each c hc) done

end

theorem ofKind_free : OfKind (·.kind ≠ .assign) :=
  ⟨fun same free assign => free (same.symm.trans assign), fun _ free => free⟩

/-- Properties of the tensors of a tree. -/
theorem ofKind_tensors (p : Tensor → Prop) : OfKind fun x => ∀ t, x.kind = .leaf t → p t :=
  ⟨fun same h t leaf => h t (same.symm.trans leaf), fun {x} noLeaf _ t leaf => by
    rw [leaf] at noLeaf
    cases noLeaf⟩

/-- Nothing is assigned in an expression. -/
theorem Expression.free {n : Node} (h : n.Expression) : n.Everywhere (·.kind ≠ .assign) := by
  induction h with
  | tensor leaf => exact everywhere_iff.mpr ⟨by simp [leaf.kind], by simp [leaf.children]⟩
  | product kind _ _ ih | sum kind _ _ ih => exact everywhere_iff.mpr ⟨by simp [kind], ih⟩
  | scaled kind children _ _ ih =>
    exact everywhere_iff.mpr ⟨by simp [kind], by simpa [children] using ih⟩

end Node

end TensorKernel
