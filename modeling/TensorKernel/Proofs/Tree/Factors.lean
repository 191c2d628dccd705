import TensorKernel.Proofs.Tree.Binary
import TensorKernel.Proofs.Tree.Refusal
import TensorKernel.Proofs.Tree.Resolving

/-!
Products by their indices alone. Whatever their operands compute, the steps of a product of many
operands are a matter of which indices the operands have and in which extents.

* `reorder_made`: a node that was just made can be brought to any order;
* `multiply_ok`: operands that agree on shared extents have a product;
* `Entered`, `sumPrivate_ok`: operands enter a product without the indices that they have for
  themselves and that are not kept;
* `Reduced`, `reduced_multiply`: what the products from left to right keep at each step;
* `binarize_iff`: two operands or more have a product over kept indices exactly if they agree and
  have the kept ones.
-/

namespace TensorKernel.Node

structure Labelled (n : Node) : Prop where
  known : n.indices = some n.own
  distinct : n.own.Distinct

theorem labelled_of_indices {n : Node} {i : Indices} (known : n.indices = some i)
    (distinct : i.Distinct) : n.Labelled := by
  obtain rfl := own_of_indices known
  exact ⟨known, distinct⟩

/-- Extents go with names: dimensions of the nodes that have one name are one dimension. -/
def Compatible (xs : List Node) : Prop :=
  ∀ a ∈ xs, ∀ b ∈ xs, ∀ d ∈ a.own.dims, ∀ e ∈ b.own.dims, d.name = e.name → d = e

instance (xs : List Node) : Decidable (Compatible xs) :=
  inferInstanceAs (Decidable (∀ a ∈ xs, ∀ b ∈ xs, ∀ d ∈ a.own.dims, ∀ e ∈ b.own.dims,
    d.name = e.name → d = e))

theorem compatible_pair {a b : Node} (ha : a.Labelled) (hb : b.Labelled)
    (agree : ∀ d ∈ a.own.dims, ∀ e ∈ b.own.dims, d.name = e.name → d = e) : Compatible [a, b] := by
  intro x hx y hy d hd e he same
  rcases List.mem_pair.mp hx with rfl | rfl <;> rcases List.mem_pair.mp hy with rfl | rfl
  · exact ha.distinct.dim_unique hd he same
  · exact agree d hd e he same
  · exact (agree e he d hd same.symm).symm
  · exact hb.distinct.dim_unique hd he same

def Occurs (xs : List Node) (name : Char) : Prop := ∃ x ∈ xs, name ∈ x.own.names

instance (xs : List Node) (name : Char) : Decidable (Occurs xs name) :=
  inferInstanceAs (Decidable (∃ x ∈ xs, name ∈ x.own.names))

theorem occurs_append {xs ys : List Node} {name : Char} :
    Occurs (xs ++ ys) name ↔ Occurs xs name ∨ Occurs ys name := by
  simp only [Occurs, List.mem_append, or_and_right, exists_or]

theorem occurs_cons {x : Node} {xs : List Node} {name : Char} :
    Occurs (x :: xs) name ↔ name ∈ x.own.names ∨ Occurs xs name :=
  List.exists_mem_cons_iff _ _ _

theorem occurs_iff {xs : List Node} {name : Char} :
    Occurs xs name ↔ ∃ d, d.name = name ∧ ∃ x ∈ xs, d ∈ x.own.dims := by
  simp only [Occurs, Indices.mem_names]
  grind

/-! ### Orders -/

/-- A node that was just made can be brought to any order of its indices. -/
theorem reorder_made {n : Node} {order : Indices} (made : n.kind.isMade = true) (bare : n.Bare)
    (hn : n.Labelled) (ho : order.Distinct) (same : n.own.sameNames order = true) (keep : Bool) :
    ∃ m, n.reorder order keep = .ok m ∧ m.kind = n.kind ∧ m.children = n.children ∧ m.Bare ∧
      m.Labelled ∧ (∀ d, d ∈ m.own.dims ↔ d ∈ n.own.dims) ∧ m.own.names = order.names := by
  by_cases equal : n.own = order
  · refine ⟨n, reorder_eq_ok.mpr ⟨_, hn.known, .inl ⟨equal, rfl⟩⟩, rfl, rfl, bare, hn,
      fun _ => .rfl, by rw [equal]⟩
  obtain ⟨perm, found⟩ := Indices.permutationTo?_of_sameNames hn.distinct ho same
  obtain ⟨k, permuted⟩ := Indices.permute?_of_permutationTo? found
  obtain ⟨names, distinct, dims⟩ := Indices.permute?_eq_some hn.distinct ho permuted
  have kept : ReorderedChildren order keep n.kind n.children n.children := by
    cases kind : n.kind with
    | indexSum | product | contraction => rfl
    | leaf | einsum | add | scale | gemm | assign =>
      rw [kind] at made
      cases made
  refine ⟨⟨n.kind, some k, none, none, n.prefetch, n.children⟩,
    reorder_eq_ok.mpr ⟨_, hn.known, .inr ⟨equal, perm, found, ⟨rfl, permuted.symm, ?_, ?_, rfl, kept⟩⟩⟩,
    rfl, rfl, ⟨rfl, rfl⟩, ⟨rfl, distinct⟩, dims, names⟩
  · rw [bare.pattern]
    rfl
  · rw [bare.layout]
    rfl

/-- Where no name is repeated, a node can be brought to an order exactly if it has the same
dimensions and can be reordered. -/
theorem bring_eq_ok {n m : Node} {target : Indices} (hn : n.own.Distinct) (ht : target.Distinct) :
    n.bring target = .ok m ↔ n.indices = some n.own ∧
      (∀ d, d ∈ n.own.dims ↔ d ∈ target.dims) ∧ n.reorder target true = .ok m := by
  simp only [bring, bind_eq_ok, resolvedIndices_eq_ok]
  constructor
  · rintro ⟨current, known, h⟩
    obtain rfl := own_of_indices known
    split at h
    case isFalse => exact absurd h refuse_ne_ok
    case isTrue names =>
      obtain ⟨_, agree, done⟩ := bind_eq_ok.mp h
      rw [Indices.checkAgrees_eq_ok hn ht] at agree
      rw [Indices.sameNames_iff hn ht] at names
      refine ⟨known, fun d => ⟨fun hd => ?_, fun hd => ?_⟩, done⟩
      · obtain ⟨e, he, same⟩ :=
          Indices.mem_names.mp ((names d.name).mp (Indices.mem_names_of_mem hd))
        exact agree d hd e he same.symm ▸ he
      · obtain ⟨e, he, same⟩ :=
          Indices.mem_names.mp ((names d.name).mpr (Indices.mem_names_of_mem hd))
        exact agree e he d hd same ▸ he
  · rintro ⟨known, same, done⟩
    have names : n.own.sameNames target = true :=
      (Indices.sameNames_iff hn ht).mpr (Indices.mem_names_congr same)
    refine ⟨n.own, known, ?_⟩
    rw [if_pos names, (Indices.checkAgrees_eq_ok hn ht).mpr fun d hd e he =>
      ht.dim_unique ((same d).mp hd) he, ok_bind, done]

/-- A node that is brought to an order has that order. -/
theorem indices_of_bring {n m : Node} {target : Indices} (hn : n.own.Distinct)
    (ht : target.Distinct) (h : n.bring target = .ok m) : m.indices = some target := by
  obtain ⟨known, same, done⟩ := (bring_eq_ok hn ht).mp h
  obtain ⟨current, known', ⟨equal, rfl⟩ | ⟨-, ⟨k, permuted, indices⟩, -⟩⟩ := reorder_cases done
  · rw [known', equal]
  · obtain rfl := Option.some.inj (known.symm.trans known')
    obtain ⟨names, -, dims⟩ := Indices.permute?_eq_some hn ht permuted
    rw [indices, Indices.eq_of_names_eq names fun d hd e he =>
      ht.dim_unique ((same d).mp ((dims d).mp hd)) he]

/-! ### Sums over one index -/

theorem indexSum_ok {x : Node} {name : Char} (hx : x.Labelled) (mem : name ∈ x.own.names) :
    ∃ d ∈ x.own.dims, d.name = name ∧
      x.indexSum name = .ok (ofKind (.indexSum ⟨[d]⟩) [x] (some (x.own.without name))) := by
  obtain ⟨y, done⟩ : ∃ y, x.indexSum name = .ok y := by
    obtain ⟨index, found⟩ := Option.isSome_iff_exists.mp <|
      Indices.extract?_isSome.mpr fun c hc => (List.mem_singleton.mp hc ▸ mem : c ∈ x.own.names)
    refine ⟨ofKind (.indexSum index) [x] (some (x.own.without name)), ?_⟩
    rw [indexSum, operandIndices_eq_ok.mpr hx.known, ok_bind, found]
    rfl
  obtain ⟨-, d, hd, named, rfl⟩ := indexSum_eq_ok hx.distinct done
  exact ⟨d, hd, named, done⟩

/-- A node can be summed over any of its indices, one after the other. -/
theorem foldlM_indexSum_ok {names : List Char} {x : Node} (hx : x.Labelled) (nodup : names.Nodup)
    (mem : ∀ name ∈ names, name ∈ x.own.names) :
    ∃ y, names.foldlM indexSum x = .ok y ∧ y.Labelled ∧
      ∀ d, d ∈ y.own.dims ↔ d ∈ x.own.dims ∧ d.name ∉ names := by
  induction names generalizing x with
  | nil => exact ⟨x, rfl, hx, by simp⟩
  | cons name names ih =>
    obtain ⟨first, others⟩ := List.forall_mem_cons.mp mem
    obtain ⟨fresh, nodup⟩ := List.nodup_cons.mp nodup
    obtain ⟨d, -, -, done⟩ := indexSum_ok hx first
    have labelled : (ofKind (.indexSum ⟨[d]⟩) [x] (some (x.own.without name))).Labelled :=
      labelled_of_indices rfl (hx.distinct.filter _)
    obtain ⟨y, rest, hy, dims⟩ := ih labelled nodup fun c hc =>
      Indices.mem_names_without.mpr ⟨others c hc, fun same => fresh (same ▸ hc)⟩
    refine ⟨y, by rw [List.foldlM_cons, done]; exact rest, hy, fun e => ?_⟩
    rw [dims]
    change e ∈ (x.own.without name).dims ∧ _ ↔ _
    rw [Indices.without, Indices.mem_filter, decide_eq_true_eq, List.mem_cons, not_or, and_assoc]

structure Entered (keep : Indices) (operands : List Node) (x y : Node) : Prop where
  labelled : y.Labelled
  dims : ∀ d, d ∈ y.own.dims ↔ d ∈ x.own.dims ∧ ¬IsPrivate keep operands d.name

theorem sumPrivate_ok (keep : Indices) (operands : List Node) {x : Node} (hx : x.Labelled) :
    ∃ y, sumPrivate keep operands x = .ok y ∧ Entered keep operands x y := by
  obtain ⟨y, done, labelled, dims⟩ := foldlM_indexSum_ok hx
    (List.Nodup.filter (fun name => !keep.contains name && occurrences operands name = 1)
      hx.distinct) fun _ hc => (List.mem_filter.mp hc).1
  refine ⟨y, bind_eq_ok.mpr ⟨_, resolvedIndices_eq_ok.mpr hx.known, done⟩, labelled, fun d => ?_⟩
  rw [dims, List.mem_filter]
  refine and_congr_right fun hd => not_congr ?_
  simp only [Indices.mem_names_of_mem hd, true_and, Bool.and_eq_true, Bool.not_eq_true',
    Indices.contains_eq_false, decide_eq_true_eq, IsPrivate]

theorem entered_of_sumPrivate {keep : Indices} {operands : List Node} {x y : Node}
    (hx : x.Labelled) (h : sumPrivate keep operands x = .ok y) : Entered keep operands x y := by
  obtain ⟨y', done, entered⟩ := sumPrivate_ok keep operands hx
  obtain rfl := Except.ok.inj (h.symm.trans done)
  exact entered

theorem occurrences_pos {xs : List Node} (labelled : ∀ x ∈ xs, x.Labelled) (name : Char) :
    0 < occurrences xs name ↔ Occurs xs name := by
  rw [occurrences, List.countP_pos_iff]
  exact exists_congr fun x => and_congr_right fun hx => mentions_iff (labelled x hx).known

section
variable {keep : Indices} {done later : List Node} {x : Node} {name : Char}
  (labelled : ∀ z ∈ done ++ x :: later, z.Labelled)
include labelled

/-- What an operand does not have for itself is kept or in another operand. -/
theorem not_isPrivate_iff (mem : name ∈ x.own.names) :
    ¬IsPrivate keep (done ++ x :: later) name ↔
      name ∈ keep.names ∨ Occurs (done ++ later) name := by
  obtain ⟨hdone, rest⟩ := List.forall_mem_append.mp labelled
  obtain ⟨hx, hlater⟩ := List.forall_mem_cons.mp rest
  have others := occurrences_pos (List.forall_mem_append.mpr ⟨hdone, hlater⟩) name
  rw [occurrences, List.countP_append] at others
  rw [IsPrivate, not_and_or, not_not, ← others, occurrences, List.countP_append, List.countP_cons,
    if_pos ((mentions_iff hx.known).mpr mem)]
  refine or_congr_right ?_
  omega

/-- What an operand shares with a later one is nobody's own. -/
theorem not_isPrivate_of_shared (early : Occurs (done ++ [x]) name) (late : Occurs later name) :
    ¬IsPrivate keep (done ++ x :: later) name := by
  rw [List.append_cons] at labelled ⊢
  obtain ⟨first, rest⟩ := List.forall_mem_append.mp labelled
  have before := (occurrences_pos first name).mpr early
  have behind := (occurrences_pos rest name).mpr late
  rw [IsPrivate, occurrences, List.countP_append]
  simp only [occurrences] at before behind
  omega

end

/-! ### Binary products -/

/-- The product of two operands, summed over the indices with some names. -/
structure ProductOf (gone : List Char) (left right n : Node) : Prop where
  labelled : n.Labelled
  bare : n.Bare
  kind : n.kind = .product ∧ gone = [] ∨ ∃ sum, n.kind = .contraction sum ∧ sum.names = gone
  children : n.children = [left, right]
  dims : ∀ d, d ∈ n.own.dims ↔ (d ∈ left.own.dims ∨ d ∈ right.own.dims) ∧ d.name ∉ gone

theorem ProductOf.made {gone : List Char} {left right n : Node} (h : ProductOf gone left right n) :
    n.kind.isMade = true := by
  rcases h.kind with ⟨kind, -⟩ | ⟨sum, kind, -⟩ <;> rw [kind] <;> rfl

section
variable {left right n : Node} (hl : left.Labelled) (hr : right.Labelled)
include hl hr

theorem agreeingIndices_ok (agree : Compatible [left, right]) :
    agreeingIndices left right = .ok (left.own, right.own) := by
  have checked : left.own.checkAgrees right.own = .ok () :=
    (Indices.checkAgrees_eq_ok hl.distinct hr.distinct).mpr (agree left (by simp) right (by simp))
  rw [agreeingIndices, operandIndices_eq_ok.mpr hl.known, ok_bind,
    operandIndices_eq_ok.mpr hr.known, ok_bind, checked]
  rfl

theorem product_ok (agree : Compatible [left, right]) :
    ∃ n, left.product right = .ok n ∧ ProductOf [] left right n := by
  have done : left.product right = .ok (ofKind .product [left, right]
      (some (left.own.merge (right.own.diff (left.own.inter right.own))))) := by
    rw [product, agreeingIndices_ok hl hr agree]
    rfl
  have distinct := hl.distinct.merge (hr.distinct.diff (left.own.inter right.own))
  obtain ⟨agreeing, -⟩ := product_eq_ok hl.distinct hr.distinct done
  refine ⟨_, done, labelled_of_indices rfl distinct, ⟨rfl, rfl⟩, .inl ⟨rfl, rfl⟩, rfl, ?_⟩
  exact (contracts_product hr.distinct agreeing).kept

theorem contraction_ok {sum : Indices} (hs : sum.Distinct) (agree : Compatible [left, right])
    (sub : ∀ name ∈ sum.names, name ∈ left.own.names) :
    ∃ n, contraction ((left.own.diff sum).merge (right.own.diff sum)) left right sum = .ok n ∧
      ProductOf sum.names left right n := by
  obtain ⟨found, extracted⟩ : ∃ found, (left.own.merge right.own).extract? sum.names = some found :=
    Option.isSome_iff_exists.mp <| Indices.extract?_isSome.mpr fun name hn =>
      Indices.mem_names_merge.mpr (.inl (sub name hn))
  have agreeing : Agreeing left right :=
    ⟨hl.known, hr.known, agree left (by simp) right (by simp)⟩
  obtain ⟨names, contracts⟩ :=
    contracts_of_extract hl.distinct hr.distinct hs agreeing extracted
  let natural := (left.own.diff sum).merge ((right.own.diff sum).diff (left.own.diff sum))
  have distinct : natural.Distinct :=
    (hl.distinct.diff _).merge ((hr.distinct.diff _).diff _)
  have ordered := (hl.distinct.diff sum).merge (hr.distinct.diff sum)
  obtain ⟨m, moved, kind, children, bare, labelled, dims, -⟩ :=
    reorder_made (n := ofKind (.contraction found) [left, right] (some natural)) rfl ⟨rfl, rfl⟩
      (labelled_of_indices rfl distinct) ordered
      ((Indices.sameNames_iff distinct ordered).mpr fun name => by
        simp only [natural, Indices.mem_names_merge, Indices.mem_names_diff]
        tauto) true
  refine ⟨m, ?_, labelled, bare, .inr ⟨found, kind, names⟩, children, fun d => ?_⟩
  · rw [contraction, agreeingIndices_ok hl hr agree, ok_bind]
    simp only [extracted]
    exact moved
  · rw [dims, ← names]
    exact contracts.kept d

theorem multiply_ok {needed : Indices} (agree : Compatible [left, right]) :
    ∃ n, multiply needed left right = .ok n ∧
      ProductOf ((left.own.inter right.own).diff needed).names left right n := by
  rw [multiply, resolvedIndices_eq_ok.mpr hl.known, ok_bind, resolvedIndices_eq_ok.mpr hr.known,
    ok_bind]
  dsimp only
  split
  case isTrue none =>
    rw [Indices.isEmpty_iff] at none
    have nothing : ((left.own.inter right.own).diff needed).names = [] := by
      simp [Indices.names, none]
    rw [nothing]
    exact product_ok hl hr agree
  case isFalse =>
    exact contraction_ok hl hr ((hl.distinct.inter _).diff _) agree fun name hn =>
      (Indices.mem_names_inter.mp (Indices.mem_names_diff.mp hn).1).1

end

/-! ### Products from left to right -/

/-- What is left of the operands that are multiplied already: of their indices, those that are kept
or that a later operand has. -/
structure Reduced (keep : Indices) (done later : List Node) (n : Node) : Prop where
  labelled : n.Labelled
  dims : ∀ d, d ∈ n.own.dims ↔
    (∃ x ∈ done, d ∈ x.own.dims) ∧ (d.name ∈ keep.names ∨ Occurs later d.name)

theorem Reduced.mem_names {keep : Indices} {done later : List Node} {n : Node} {name : Char}
    (h : Reduced keep done later n) : name ∈ n.own.names ↔
      Occurs done name ∧ (name ∈ keep.names ∨ Occurs later name) := by
  rw [Indices.mem_names, occurs_iff]
  simp only [h.dims]
  grind

theorem Entered.dims_of_split {keep : Indices} {done later : List Node} {x y : Node}
    (h : Entered keep (done ++ x :: later) x y) (labelled : ∀ z ∈ done ++ x :: later, z.Labelled)
    (d : Dim) : d ∈ y.own.dims ↔
      d ∈ x.own.dims ∧ (d.name ∈ keep.names ∨ Occurs (done ++ later) d.name) := by
  rw [h.dims]
  exact and_congr_right fun hd => not_isPrivate_iff labelled (Indices.mem_names_of_mem hd)

theorem Entered.mem_names {keep : Indices} {done later : List Node} {x y : Node} {name : Char}
    (h : Entered keep (done ++ x :: later) x y) (labelled : ∀ z ∈ done ++ x :: later, z.Labelled) :
    name ∈ y.own.names ↔
      name ∈ x.own.names ∧ (name ∈ keep.names ∨ Occurs (done ++ later) name) := by
  simp only [Indices.mem_names, h.dims_of_split labelled]
  grind

/-- An operand that enters the product has what is kept or what another operand has. -/
theorem Entered.reduced_eraseIdx {keep : Indices} {xs : List Node} {x y : Node} {j : Nat}
    (h : Entered keep xs x y) (labelled : ∀ z ∈ xs, z.Labelled) (hx : xs[j]? = some x) :
    Reduced keep [x] (xs.eraseIdx j) y := by
  have split : xs.take j ++ x :: xs.drop (j + 1) = xs := by
    obtain ⟨hj, rfl⟩ := List.getElem?_eq_some_iff.mp hx
    simp
  refine ⟨h.labelled, fun d => ?_⟩
  rw [← split] at h labelled
  simpa [List.eraseIdx_eq_take_drop_succ] using h.dims_of_split labelled d

/-- The first operand as it enters the product. -/
theorem Entered.reduced {keep : Indices} {later : List Node} {x y : Node}
    (h : Entered keep (x :: later) x y) (labelled : ∀ z ∈ x :: later, z.Labelled) :
    Reduced keep [x] later y :=
  h.reduced_eraseIdx labelled (j := 0) rfl

section
variable {keep : Indices} {done later ys : List Node} {x n y : Node}
  (labelled : ∀ z ∈ done ++ x :: later, z.Labelled)
  (entered : List.Forall₂ (Entered keep (done ++ x :: later)) later ys)
include labelled entered

/-- What an operand shares with an earlier one it has when it enters the product. -/
theorem occurs_entered {name : Char} (mem : Occurs (done ++ [x]) name) :
    Occurs ys name ↔ Occurs later name := by
  rw [occurs_iff, occurs_iff]
  refine exists_congr fun d => and_congr_right ?_
  rintro rfl
  constructor
  · rintro ⟨y, hy, hd⟩
    obtain ⟨z, hz, spec⟩ := exists_of_forall₂_right entered hy
    exact ⟨z, hz, ((spec.dims d).mp hd).1⟩
  · rintro ⟨z, hz, hd⟩
    obtain ⟨y, hy, spec⟩ := exists_of_forall₂_right entered.flip hz
    exact ⟨y, hy, (spec.dims d).mpr ⟨hd, not_isPrivate_of_shared labelled mem
      ⟨z, hz, Indices.mem_names_of_mem hd⟩⟩⟩

/-- One more operand is multiplied: the indices that both have are summed unless they are kept or
still to come. -/
theorem reduced_multiply (compatible : Compatible (done ++ x :: later))
    (hn : Reduced keep done (x :: later) n) (hy : Entered keep (done ++ x :: later) x y) :
    ∃ m, multiply (keep.merge (laterIndices ys)) n y = .ok m ∧
      ProductOf ((n.own.inter y.own).diff (keep.merge (laterIndices ys))).names n y m ∧
      Reduced keep (done ++ [x]) later m := by
  have agree : Compatible [n, y] := by
    refine compatible_pair hn.labelled hy.labelled fun d hd e he => ?_
    obtain ⟨⟨z, hz, hd⟩, -⟩ := (hn.dims d).mp hd
    exact compatible z (List.mem_append_left _ hz) x (by simp) d hd e ((hy.dims e).mp he).1
  obtain ⟨m, product, spec⟩ := multiply_ok hn.labelled hy.labelled agree
  refine ⟨m, product, spec, spec.labelled, fun d => ?_⟩
  have left : d.name ∈ n.own.names ↔
      Occurs done d.name ∧ (d.name ∈ keep.names ∨ d.name ∈ x.own.names ∨ Occurs later d.name) :=
    hn.mem_names.trans (by rw [occurs_cons])
  have right : d.name ∈ y.own.names ↔
      d.name ∈ x.own.names ∧ (d.name ∈ keep.names ∨ Occurs (done ++ later) d.name) :=
    hy.mem_names labelled
  have early : (∃ z ∈ done, d ∈ z.own.dims) → Occurs done d.name :=
    fun ⟨z, hz, hd⟩ => ⟨z, hz, Indices.mem_names_of_mem hd⟩
  have next : d ∈ x.own.dims → d.name ∈ x.own.names := Indices.mem_names_of_mem
  have toCome : Occurs done d.name ∨ d.name ∈ x.own.names →
      (d.name ∈ (laterIndices ys).names ↔ Occurs later d.name) := fun mem =>
    mem_laterIndices.trans (occurs_entered labelled entered (by simpa [occurs_append, Occurs] using mem))
  have union : (∃ z ∈ done ++ [x], d ∈ z.own.dims) ↔
      (∃ z ∈ done, d ∈ z.own.dims) ∨ d ∈ x.own.dims := by
    simp [or_and_right, exists_or]
  rw [spec.dims, hn.dims, hy.dims_of_split labelled, Indices.mem_names_diff,
    Indices.mem_names_inter, Indices.mem_names_merge, left, right, union, occurs_append, occurs_cons]
  grind

end

/-- All operands are multiplied. What remains is kept, and a node that a product made is still
open to any order. -/
theorem multiplyAll_ok {keep : Indices} {whole done later ys : List Node} {n : Node}
    (split : whole = done ++ later) (labelled : ∀ z ∈ whole, z.Labelled)
    (compatible : Compatible whole) (hn : Reduced keep done later n)
    (entered : List.Forall₂ (Entered keep whole) later ys) :
    ∃ m, n.multiplyAll keep ys = .ok m ∧ Reduced keep whole [] m ∧
      (later ≠ [] → m.kind.isMade = true ∧ m.Bare) := by
  induction entered generalizing done n with
  | nil =>
    rw [List.append_nil] at split
    exact ⟨n, rfl, split ▸ hn, fun some_later => absurd rfl some_later⟩
  | @cons x y later ys hy rest ih =>
    subst split
    obtain ⟨next, product, spec, reduced⟩ := reduced_multiply labelled rest compatible hn hy
    obtain ⟨m, products, final, made⟩ := ih (List.append_cons done x later) reduced
    refine ⟨m, ?_, final, fun _ => ?_⟩
    · rw [multiplyAll, product, ok_bind, products]
    · cases rest with
      | nil =>
        obtain rfl := pure_eq_ok.mp products
        exact ⟨spec.made, spec.bare⟩
      | cons => exact made (List.cons_ne_nil _ _)

/-- In the end the product has the kept indices and no others. -/
theorem Reduced.final {keep : Indices} {operands : List Node} {n : Node}
    (h : Reduced keep operands [] n) (compatible : Compatible operands)
    (sub : ∀ d ∈ keep.dims, ∃ x ∈ operands, d ∈ x.own.dims) (d : Dim) :
    d ∈ n.own.dims ↔ d ∈ keep.dims := by
  have nothing : ¬Occurs [] d.name := by simp [Occurs]
  rw [h.dims, or_iff_left nothing]
  constructor
  · rintro ⟨⟨x, hx, hd⟩, kept⟩
    obtain ⟨e, he, same⟩ := Indices.mem_names.mp kept
    obtain ⟨y, hy, hey⟩ := sub e he
    exact compatible x hx y hy d hd e hey same.symm ▸ he
  · exact fun hd => ⟨sub d hd, Indices.mem_names_of_mem hd⟩

/-! ### Products of any number of operands -/

theorem mergedIndices_ok {found : Indices} {operands : List Node} (hf : found.Distinct)
    (labelled : ∀ x ∈ operands, x.Labelled)
    (agree : ∀ x ∈ operands, ∀ d ∈ found.dims, ∀ e ∈ x.own.dims, d.name = e.name → d = e)
    (compatible : Compatible operands) : ∃ all, mergedIndices found operands = .ok all := by
  have ownDistinct : ∀ x ∈ operands, x.own.Distinct := fun x hx => (labelled x hx).distinct
  refine ⟨_, mergedIndices_eq_ok.mpr ⟨fun x hx => (labelled x hx).known,
    Indices.agreeInTurn_iff.mpr ⟨?_, Indices.pairwise_agree_iff.mpr ?_⟩, rfl⟩⟩
  · exact List.forall_mem_map.mpr fun x hx =>
      (Indices.agree_iff hf (ownDistinct x hx)).mpr (agree x hx)
  · exact List.forall_mem_map.mpr fun x hx => List.forall_mem_map.mpr fun y hy =>
      (Indices.agree_iff (ownDistinct x hx) (ownDistinct y hy)).mpr (compatible x hx y hy)

/-- Operands whose indices merge agree on the extents of shared names. -/
theorem compatible_of_mergedIndices {all : Indices} {operands : List Node}
    (distinct : ∀ x ∈ operands, x.own.Distinct) (h : mergedIndices .empty operands = .ok all) :
    Compatible operands ∧ (∀ x ∈ operands, x.Labelled) ∧ all.Distinct ∧
      ∀ d, d ∈ all.dims ↔ ∃ x ∈ operands, d ∈ x.own.dims := by
  obtain ⟨-, unique, known, dims⟩ := mergedIndices_spec Indices.distinct_empty distinct h
  have dims (d : Dim) : d ∈ all.dims ↔ ∃ x ∈ operands, d ∈ x.own.dims := by
    rw [dims]
    simp [Indices.empty]
  refine ⟨fun a ha b hb d hd e he => ?_, fun x hx => ⟨known x hx, distinct x hx⟩, unique, dims⟩
  exact unique.dim_unique ((dims d).mpr ⟨a, ha, hd⟩) ((dims e).mpr ⟨b, hb, he⟩)

theorem keptIndices_ok {target : Option Indices} (operands : List Node) {all : Indices}
    (ha : all.Distinct) (ht : ∀ t, target = some t → t.Distinct ∧ ∀ d ∈ t.dims, d ∈ all.dims) :
    ∃ keep, keptIndices target operands all = .ok keep := by
  cases target with
  | none => exact ⟨_, rfl⟩
  | some t =>
    obtain ⟨distinct, sub⟩ := ht t rfl
    have missing : (t.names.find? fun name => !all.contains name) = none := by
      refine List.find?_eq_none.mpr fun name hn => ?_
      obtain ⟨d, hd, rfl⟩ := Indices.mem_names.mp hn
      simpa using Indices.mem_names_of_mem (sub d hd)
    refine ⟨t, ?_⟩
    simp only [keptIndices, missing]
    rw [(Indices.checkAgrees_eq_ok ha distinct).mpr fun d hd e he same =>
      ha.dim_unique hd (sub e he) same]
    rfl

/-- The product of operands, step by step: the indices that are kept, the operands as they enter it,
and the last product, which is brought to the kept indices. -/
structure Factored (target : Option Indices) (operands : List Node) (keep : Indices)
    (first : Node) (rest : List Node) (product n : Node) : Prop where
  labelled : ∀ x ∈ operands, x.Labelled
  compatible : Compatible operands
  required : ∀ t, target = some t → keep = t
  unshared : target = none → ∀ name, name ∈ keep.names ↔ occurrences operands name = 1
  distinct : keep.Distinct
  among : ∀ d ∈ keep.dims, ∃ x ∈ operands, d ∈ x.own.dims
  entered : List.Forall₂ (fun x y => sumPrivate keep operands x = .ok y ∧ Entered keep operands x y)
    operands (first :: rest)
  products : first.multiplyAll keep rest = .ok product
  reduced : Reduced keep operands [] product
  brought : product.bring keep = .ok n
  indices : n.indices = some keep

section
variable {target : Option Indices} {operands : List Node}
  (ht : ∀ t, target = some t → t.Distinct)
include ht

theorem factored_of_binarize (distinct : ∀ x ∈ operands, x.own.Distinct) {n : Node}
    (h : binarize target operands = .ok n) :
    ∃ keep first rest product, Factored target operands keep first rest product n := by
  obtain ⟨all, keep, first, rest, product, merged, kept, sums, products, brought⟩ :=
    binarize_cases h
  obtain ⟨compatible, labelled, unique, dims⟩ := compatible_of_mergedIndices distinct merged
  obtain ⟨required, hk, among⟩ := keptIndices_spec unique ht kept
  have unshared (free : target = none) (name : Char) :
      name ∈ keep.names ↔ occurrences operands name = 1 := by
    subst free
    have occurs : name ∈ all.names ↔ 0 < occurrences operands name := by
      rw [occurrences_pos labelled, occurs_iff, Indices.mem_names]
      simp only [dims]
      grind
    rw [required, Option.getD_none, Indices.mem_names_filter, occurs, decide_eq_true_eq]
    omega
  have entered : List.Forall₂ (fun x y => sumPrivate keep operands x = .ok y ∧
      Entered keep operands x y) operands (first :: rest) :=
    forall₂_imp_of_mem (mapM_eq_ok.mp sums) fun x hx _ done =>
      ⟨done, entered_of_sumPrivate (labelled x hx) done⟩
  obtain ⟨x, xs, start, others, rfl⟩ := List.forall₂_cons_right_iff.mp entered
  obtain ⟨m, products', reduced, -⟩ := multiplyAll_ok (List.singleton_append).symm labelled
    compatible (start.2.reduced labelled) (others.imp fun _ _ spec => spec.2)
  obtain rfl := Except.ok.inj (products.symm.trans products')
  exact ⟨keep, first, rest, product, {
    labelled
    compatible
    required := by
      rintro t rfl
      exact required
    unshared
    distinct := hk
    among := fun d hd => (dims d).mp (among d hd)
    entered
    products
    reduced
    brought
    indices := indices_of_bring reduced.labelled.distinct hk brought }⟩

/-- A product has the indices that are required of it. -/
theorem indices_of_binarize (distinct : ∀ x ∈ operands, x.own.Distinct) {n : Node}
    (h : binarize target operands = .ok n) :
    ∃ keep, keep.Distinct ∧ n.indices = some keep ∧ ∀ t, target = some t → keep = t := by
  obtain ⟨keep, first, rest, product, run⟩ := factored_of_binarize ht distinct h
  exact ⟨keep, run.distinct, run.indices, run.required⟩

/-- At least two operands have a product over indices that are kept exactly if they agree on the
extents of shared names and have all indices that are kept. -/
theorem binarize_iff (labelled : ∀ x ∈ operands, x.Labelled) (two : 2 ≤ operands.length) :
    (∃ n, binarize target operands = .ok n) ↔ Compatible operands ∧
      ∀ t, target = some t → ∀ d ∈ t.dims, ∃ x ∈ operands, d ∈ x.own.dims := by
  have distinct (x : Node) (hx : x ∈ operands) := (labelled x hx).distinct
  constructor
  · rintro ⟨n, h⟩
    obtain ⟨keep, first, rest, product, run⟩ := factored_of_binarize ht distinct h
    exact ⟨run.compatible, fun t given => run.required t given ▸ run.among⟩
  rintro ⟨compatible, sub⟩
  obtain ⟨all, merged⟩ := mergedIndices_ok Indices.distinct_empty labelled
    (fun _ _ _ hd => absurd hd List.not_mem_nil) compatible
  obtain ⟨-, -, unique, dims⟩ := compatible_of_mergedIndices distinct merged
  obtain ⟨keep, kept⟩ := keptIndices_ok operands unique fun t given =>
    ⟨ht t given, fun d hd => (dims d).mpr (sub t given d hd)⟩
  obtain ⟨-, hk, among⟩ := keptIndices_spec unique ht kept
  obtain ⟨ys, each⟩ := forall₂_of_exists fun x hx =>
    sumPrivate_ok keep operands (labelled x hx)
  have entered : List.Forall₂ (Entered keep operands) operands ys := each.imp fun _ _ spec => spec.2
  obtain ⟨x, x', xs, rfl⟩ : ∃ x x' xs, operands = x :: x' :: xs := by
    match operands, two with
    | x :: x' :: xs, _ => exact ⟨x, x', xs, rfl⟩
  obtain ⟨first, rest, start, others, rfl⟩ := List.forall₂_cons_left_iff.mp entered
  obtain ⟨product, products, reduced, made⟩ := multiplyAll_ok (List.singleton_append).symm labelled
    compatible (start.reduced labelled) others
  obtain ⟨made, bare⟩ := made (List.cons_ne_nil _ _)
  have same := reduced.final compatible fun d hd => (dims d).mp (among d hd)
  obtain ⟨n, moved, -⟩ := reorder_made made bare reduced.labelled hk
    ((Indices.sameNames_iff reduced.labelled.distinct hk).mpr (Indices.mem_names_congr same)) true
  have brought := (bring_eq_ok reduced.labelled.distinct hk).mpr ⟨reduced.labelled.known, same, moved⟩
  refine ⟨n, ?_⟩
  simp only [binarize, List.isEmpty_cons, Bool.false_eq_true, if_false, merged, kept,
    mapM_eq_ok.mpr (each.imp fun _ _ spec => spec.1), products, brought, ok_bind]

end

/-! ### Resolved trees -/

theorem DistinctNames.own {x : Node} (h : x.DistinctNames) : x.own.Distinct := by
  cases known : x.indices with
  | none =>
    rw [Node.own, known]
    exact Indices.distinct_empty
  | some i =>
    rw [own_of_indices known]
    exact h i known

theorem distinctNames_of_indices {x : Node} {i : Indices} (known : x.indices = some i)
    (distinct : i.Distinct) : x.DistinctNames := by
  intro j hj
  obtain rfl := Option.some.inj (known.symm.trans hj)
  exact distinct

/-- Resolution repeats no name, and gives a tree the indices that are required of it. -/
theorem resolveTo_distinct {n : Node} (hn : n.Everywhere DistinctNames) :
    n.ResolvesTo DistinctNames := by
  induction n using Node.induction with
  | node kind indices pattern layout prefetch children ih =>
  intro target m ht h
  obtain ⟨r, resolved, brought⟩ := resolveTo_cases h
  have each (c : Node) (hc : c ∈ children) := ih c hc (hn.children c hc)
  have whole : r.DistinctNames := by
    cases kind with
    | leaf =>
      obtain rfl := resolved
      exact hn.root
    | einsum =>
      obtain ⟨ds, factors, products⟩ := resolved
      have distinct : ∀ d ∈ ds, d.own.Distinct := by
        intro d hd
        obtain ⟨c, hc, done⟩ := exists_of_forall₂_right factors hd
        exact (each c hc none d (by simp) done).1.own
      obtain ⟨keep, distinct, known, -⟩ := indices_of_binarize ht distinct products
      exact distinctNames_of_indices known distinct
    | add =>
      obtain ⟨ds, order, summands, rfl⟩ := resolved
      exact (resolveSummands_aligned id each (distinct_sumOrder ht fun c hc =>
        (hn.children c hc).root) summands).2.1
    | scale =>
      obtain ⟨term, d, last, done, rfl⟩ := resolved
      exact (each term (List.mem_of_getLast? last) target d ht done).1
    | indexSum | product | contraction | gemm =>
      obtain ⟨ds, -, rfl⟩ := resolved
      exact hn.root
    | assign =>
      obtain ⟨leaf, value, v, -, -, rfl⟩ := resolved
      exact hn.root
  cases target with
  | none =>
    obtain rfl := pure_eq_ok.mp brought
    exact ⟨whole, by simp⟩
  | some t =>
    have exact := indices_of_bring whole.own (ht t rfl) brought
    refine ⟨distinctNames_of_indices exact (ht t rfl), fun t' same => ?_⟩
    cases same
    exact exact

end TensorKernel.Node
