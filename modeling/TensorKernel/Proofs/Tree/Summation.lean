import TensorKernel.Proofs.Tree.Acceptance

/-!
Products sum over their indices as early as possible. An operand enters the product with the indices
that are kept or that another operand has, and the product so far has those indices of its operands
that are kept or still to come. So no index is carried on that nothing needs, and each one that is
not kept is summed in one place.

* `Accumulates`: the products from left to right, one after the other;
* `SumsAbove`: the names that the nodes above the operands sum over;
* `SumsOnce`: each index that a tree over operands no longer has was summed once;
* `reduced_of_accumulates`: the invariant of the products from left to right;
* `einsum_sums_early`: all together.
-/

namespace TensorKernel.Node

/-- The products of operands from left to right: the first operand, and the product with each
further one. -/
inductive Accumulates (keep : Indices) : List Node → List Node → Prop
  | last (n : Node) : Accumulates keep [n] [n]
  | next {n y m : Node} {later accs : List Node}
      (product : multiply (keep.merge (laterIndices later)) n y = .ok m)
      (rest : Accumulates keep (m :: later) accs) : Accumulates keep (n :: y :: later) (n :: accs)

theorem accumulates_of_multiplyAll {keep : Indices} {n m : Node} {rest : List Node}
    (h : n.multiplyAll keep rest = .ok m) :
    ∃ accs, Accumulates keep (n :: rest) accs ∧ accs.getLast? = some m := by
  induction rest generalizing n with
  | nil =>
    obtain rfl := pure_eq_ok.mp h
    exact ⟨[n], .last n, rfl⟩
  | cons y later ih =>
    obtain ⟨next, product, rest⟩ := bind_eq_ok.mp h
    obtain ⟨accs, accumulates, last⟩ := ih rest
    exact ⟨n :: accs, .next product accumulates, by simp [List.getLast?_cons, last]⟩

/-- A tree over operands in their order, and the names that its nodes sum over on the way down to
them, one entry for each name and each node that sums over it. -/
inductive SumsAbove : List Node → Node → List Char → Prop
  | operand (x : Node) : SumsAbove [x] x []
  | indexSum {xs : List Node} {n term : Node} {index : Indices} {s : List Char}
      (kind : n.kind = .indexSum index) (children : n.children = [term])
      (ht : SumsAbove xs term s) : SumsAbove xs n (index.names ++ s)
  | product {xs ys : List Node} {n left right : Node} {s s' : List Char} (kind : n.kind = .product)
      (children : n.children = [left, right]) (hl : SumsAbove xs left s)
      (hr : SumsAbove ys right s') : SumsAbove (xs ++ ys) n (s ++ s')
  | contraction {xs ys : List Node} {n left right : Node} {sum : Indices} {s s' : List Char}
      (kind : n.kind = .contraction sum) (children : n.children = [left, right])
      (hl : SumsAbove xs left s) (hr : SumsAbove ys right s') :
      SumsAbove (xs ++ ys) n (sum.names ++ (s ++ s'))
  | reordered {xs : List Node} {n m : Node} {order : Indices} {keep : Bool} {s : List Char}
      (hn : SumsAbove xs n s) (done : n.reorder order keep = .ok m) : SumsAbove xs m s

/-- A tree over operands, each index of which it either has or sums over in one place. -/
structure SumsOnce (xs : List Node) (n : Node) : Prop where
  occurs : ∀ c ∈ n.own.names, Occurs xs c
  sums : ∃ s, SumsAbove xs n s ∧
    ∀ c, s.count c = if Occurs xs c ∧ c ∉ n.own.names then 1 else 0

theorem sumsOnce_operand (x : Node) : SumsOnce [x] x := by
  have occurs (c : Char) : Occurs [x] c ↔ c ∈ x.own.names := by simp [Occurs]
  refine ⟨fun c hc => (occurs c).mpr hc, [], .operand x, fun c => ?_⟩
  rw [if_neg fun both => both.2 ((occurs c).mp both.1)]
  rfl

theorem SumsOnce.reorder {xs : List Node} {n m : Node} {order : Indices} {keep : Bool}
    (h : SumsOnce xs n) (done : n.reorder order keep = .ok m)
    (same : ∀ d, d ∈ m.own.dims ↔ d ∈ n.own.dims) : SumsOnce xs m := by
  have names := Indices.mem_names_congr same
  obtain ⟨s, above, count⟩ := h.sums
  refine ⟨fun c hc => h.occurs c ((names c).mp hc), s, .reordered above done, fun c => ?_⟩
  simp only [count, names]

theorem SumsOnce.indexSum {xs : List Node} {term n : Node} {name : Char} (h : SumsOnce xs term)
    (distinct : term.own.Distinct) (done : term.indexSum name = .ok n) : SumsOnce xs n := by
  obtain ⟨-, d, hd, rfl, rfl⟩ := indexSum_eq_ok distinct done
  have mem := Indices.mem_names_of_mem hd
  have names (c : Char) : c ∈ (term.own.without d.name).names ↔ c ∈ term.own.names ∧ c ≠ d.name :=
    Indices.mem_names_without
  obtain ⟨s, above, count⟩ := h.sums
  refine ⟨fun c hc => h.occurs c ((names c).mp hc).1, [d.name] ++ s,
    @SumsAbove.indexSum xs _ term ⟨[d]⟩ s rfl rfl above, fun c => ?_⟩
  change _ = if Occurs xs c ∧ c ∉ (term.own.without d.name).names then 1 else 0
  simp only [List.count_append, count, List.count_singleton, beq_iff_eq, names]
  have := h.occurs d.name mem
  grind

/-- A product sums once over each index if what one side has summed already does not occur in the
operands of the other. -/
theorem SumsOnce.product {xs ys : List Node} {gone : List Char} {left right n : Node}
    (hl : SumsOnce xs left) (hr : SumsOnce ys right) (h : ProductOf gone left right n)
    (distinct : gone.Nodup) (shared : ∀ c ∈ gone, c ∈ left.own.names ∧ c ∈ right.own.names)
    (apartLeft : ∀ c, Occurs xs c → c ∉ left.own.names → ¬Occurs ys c)
    (apartRight : ∀ c, Occurs ys c → c ∉ right.own.names → ¬Occurs xs c) :
    SumsOnce (xs ++ ys) n := by
  have names (c : Char) : c ∈ n.own.names ↔
      (c ∈ left.own.names ∨ c ∈ right.own.names) ∧ c ∉ gone := by
    simp only [Indices.mem_names, h.dims]
    grind
  obtain ⟨s, aboveLeft, countLeft⟩ := hl.sums
  obtain ⟨s', aboveRight, countRight⟩ := hr.sums
  have above : SumsAbove (xs ++ ys) n (gone ++ (s ++ s')) := by
    rcases h.kind with ⟨kind, rfl⟩ | ⟨sum, kind, rfl⟩
    · rw [List.nil_append]
      exact .product kind h.children aboveLeft aboveRight
    · exact .contraction kind h.children aboveLeft aboveRight
  refine ⟨fun c hc => ?_, _, above, fun c => ?_⟩
  · exact occurs_append.mpr (((names c).mp hc).1.imp (hl.occurs c) (hr.occurs c))
  · simp only [List.count_append, countLeft, countRight, names, occurs_append,
      distinct.count]
    have := hl.occurs c
    have := hr.occurs c
    have := shared c
    have := apartLeft c
    have := apartRight c
    grind

/-- Private sums sum once over each index that the operand loses. -/
theorem sumsOnce_sumPrivate {keep : Indices} {operands : List Node} {x y : Node} (hx : x.Labelled)
    (h : sumPrivate keep operands x = .ok y) : SumsOnce [x] y := by
  have fold {names : List Char} {n : Node} (hn : SumsOnce [x] n) (distinct : n.own.Distinct)
      (done : names.foldlM Node.indexSum n = .ok y) : SumsOnce [x] y := by
    induction names generalizing n with
    | nil =>
      obtain rfl := pure_eq_ok.mp done
      exact hn
    | cons name names ih =>
      obtain ⟨next, first, rest⟩ := bind_eq_ok.mp (List.foldlM_cons.symm.trans done)
      have summed : next.own.Distinct := by
        obtain ⟨-, d, -, -, rfl⟩ := indexSum_eq_ok distinct first
        exact distinct.filter (· ≠ name)
      exact ih (hn.indexSum distinct first) summed rest
  obtain ⟨i, -, sums⟩ := bind_eq_ok.mp h
  exact fold (sumsOnce_operand x) hx.distinct sums

/-! ### The products from left to right -/

/-- One more operand is multiplied: it has not lost an index that an earlier one has, nor have they
lost one that it has. -/
theorem SumsOnce.multiply {keep : Indices} {done later ys : List Node} {x n y m : Node}
    (labelled : ∀ z ∈ done ++ x :: later, z.Labelled) (hn : Reduced keep done (x :: later) n)
    (hy : Entered keep (done ++ x :: later) x y) (sumsDone : SumsOnce done n)
    (sumsNext : SumsOnce [x] y)
    (h : ProductOf ((n.own.inter y.own).diff (keep.merge (laterIndices ys))).names n y m) :
    SumsOnce (done ++ [x]) m := by
  have single (c : Char) : Occurs [x] c ↔ c ∈ x.own.names := by simp [Occurs]
  refine sumsDone.product sumsNext h ((hn.labelled.distinct.inter _).diff _) (fun c hc => ?_)
    (fun c occurs lost => ?_) (fun c occurs lost => ?_)
  · exact Indices.mem_names_inter.mp (Indices.mem_names_diff.mp hc).1
  · rw [single]
    exact fun mem => lost (hn.mem_names.mpr ⟨occurs, .inr (occurs_cons.mpr (.inl mem))⟩)
  · rw [single] at occurs
    exact fun early => lost <|
      (hy.mem_names labelled).mpr ⟨occurs, .inr (occurs_append.mpr (.inl early))⟩

/-- The invariant of the products from left to right. -/
theorem reduced_of_accumulates {keep : Indices} {whole done later ys accs : List Node} {n : Node}
    (split : whole = done ++ later) (labelled : ∀ z ∈ whole, z.Labelled)
    (compatible : Compatible whole) (hn : Reduced keep done later n) (sums : SumsOnce done n)
    (entered : List.Forall₂ (fun x y => Entered keep whole x y ∧ SumsOnce [x] y) later ys)
    (h : Accumulates keep (n :: ys) accs) :
    accs.length = later.length + 1 ∧ ∀ j acc, accs[j]? = some acc →
      Reduced keep (whole.take (done.length + j)) (whole.drop (done.length + j)) acc ∧
        SumsOnce (whole.take (done.length + j)) acc := by
  have here {done later : List Node} {n : Node} (split : whole = done ++ later)
      (hn : Reduced keep done later n) (sums : SumsOnce done n) :
      Reduced keep (whole.take done.length) (whole.drop done.length) n ∧
        SumsOnce (whole.take done.length) n := by
    rw [split, List.take_left, List.drop_left]
    exact ⟨hn, sums⟩
  induction entered generalizing done n accs with
  | nil =>
    cases h
    refine ⟨rfl, fun j acc found => ?_⟩
    obtain ⟨rfl, rfl⟩ : j = 0 ∧ n = acc := by simpa [List.getElem?_cons] using found
    exact here split hn sums
  | @cons x y later ys next rest ih =>
    cases h with
    | @next _ _ m _ accs product others =>
      subst split
      obtain ⟨m', product', spec, reduced⟩ :=
        reduced_multiply labelled (rest.imp fun _ _ both => both.1) compatible hn next.1
      obtain rfl := Except.ok.inj (product.symm.trans product')
      have summed := SumsOnce.multiply labelled hn next.1 sums next.2 spec
      obtain ⟨length, each⟩ := ih (List.append_cons done x later) reduced summed others
      refine ⟨by simp [length], fun j acc found => ?_⟩
      cases j with
      | zero =>
        obtain rfl := Option.some.inj found
        exact here rfl hn sums
      | succ j =>
        have := each j acc (by simpa using found)
        rwa [List.length_append, List.length_singleton, Nat.add_assoc, Nat.add_comm 1] at this

/-- What is done in a product of operands: they are summed over what they have for themselves, they
are multiplied from left to right, and the last product is brought to the kept indices. -/
structure Folds (keep : Indices) (xs ys accs : List Node) (m : Node) : Prop where
  enter : List.Forall₂ (fun x y => sumPrivate keep xs x = .ok y) xs ys
  accumulate : Accumulates keep ys accs
  last : ∃ product, accs.getLast? = some product ∧ product.bring keep = .ok m

/-- In a product that is resolved, the operands and the products from left to right have the indices
of their operands that are kept or occur in another operand, or in one that is still to come, and no
others. Each index that is not kept is summed in exactly one node. -/
theorem einsum_sums_early {operands : List Node} {target : Option Indices} {m : Node}
    (distinct : ∀ c ∈ operands, c.Everywhere DistinctNames)
    (ht : ∀ t, target = some t → t.Distinct) (h : (einsum operands).resolveTo target = .ok m) :
    ∃ xs ys accs keep, List.Forall₂ (fun c x => c.resolve = .ok x) operands xs ∧
      m.indices = some keep ∧ (∀ t, target = some t → keep = t) ∧
      (target = none → ∀ c, c ∈ keep.names ↔ occurrences xs c = 1) ∧
      Folds keep xs ys accs m ∧ ys.length = xs.length ∧ accs.length = xs.length ∧
      (∀ j x y, xs[j]? = some x → ys[j]? = some y → Reduced keep [x] (xs.eraseIdx j) y) ∧
      (∀ j acc, accs[j]? = some acc → Reduced keep (xs.take (j + 1)) (xs.drop (j + 1)) acc) ∧
      ∃ s, SumsAbove xs m s ∧ ∀ c, s.count c = if Occurs xs c ∧ c ∉ keep.names then 1 else 0 := by
  obtain ⟨_, ⟨xs, each, -⟩, -⟩ := resolveTo_cases h
  have unique : ∀ x ∈ xs, x.own.Distinct := by
    intro x hx
    obtain ⟨c, hc, resolved⟩ := exists_of_forall₂_right each hx
    exact (resolveTo_distinct (distinct c hc) none _ (by simp) resolved).1.own
  obtain ⟨keep, first, rest, product, run⟩ :=
    factored_of_binarize ht unique ((resolveTo_einsum_iff rfl ht unique each).mp h)
  obtain ⟨accs, accumulates, last⟩ := accumulates_of_multiplyAll run.products
  have entered : List.Forall₂ (fun x y => Entered keep xs x y ∧ SumsOnce [x] y) xs
      (first :: rest) :=
    forall₂_imp_of_mem run.entered fun x hx y spec =>
      ⟨spec.2, sumsOnce_sumPrivate (run.labelled x hx) spec.1⟩
  obtain ⟨x, xs, start, others, rfl⟩ := List.forall₂_cons_right_iff.mp entered
  obtain ⟨length, products⟩ := reduced_of_accumulates (List.singleton_append).symm run.labelled
    run.compatible (start.1.reduced run.labelled) start.2 others accumulates
  have whole : SumsOnce (x :: xs) product := by
    have final := (products xs.length product
      (by simpa [List.getLast?_eq_getElem?, length] using last)).2
    rwa [List.take_of_length_le (by simp [Nat.add_comm])] at final
  have sums : SumsOnce (x :: xs) m := by
    obtain ⟨-, same, moved⟩ :=
      (bring_eq_ok run.reduced.labelled.distinct run.distinct).mp run.brought
    refine whole.reorder moved fun d => ?_
    rw [own_of_indices run.indices, same]
  obtain ⟨s, above, count⟩ := sums.sums
  rw [own_of_indices run.indices] at count
  refine ⟨x :: xs, first :: rest, accs, keep, each, run.indices, run.required, run.unshared,
    ⟨run.entered.imp fun _ _ spec => spec.1, accumulates, product, last, run.brought⟩,
    run.entered.length_eq.symm, length, fun j z y hz hy => ?_, fun j acc found => ?_, s, above, count⟩
  · exact (forall₂_getElem? entered hz hy).1.reduced_eraseIdx run.labelled hz
  · rw [Nat.add_comm]
    exact (products j acc found).1

/-- In a chain the second operand enters without the index that it has for itself, and what it shares
with the first one is gone before the third one comes. -/
theorem einsum_sums_early_chain :
    ∃ m ys accs, (einsum chainOperands).resolveTo (some chainIndices) = .ok m ∧
      Folds chainIndices chainOperands ys accs m ∧
      (∃ y, ys[1]? = some y ∧ ∀ d, d ∈ y.own.dims ↔ d = ⟨'j', 4⟩ ∨ d = ⟨'k', 3⟩) ∧
      ∃ acc, accs[1]? = some acc ∧ ∀ d, d ∈ acc.own.dims ↔ d = ⟨'i', 2⟩ ∨ d = ⟨'j', 4⟩ := by
  have ordered : ∀ t, some chainIndices = some t → t.Distinct := by
    rintro _ ⟨⟩
    decide
  obtain ⟨m, done⟩ : ∃ m, (einsum chainOperands).resolveTo (some chainIndices) = .ok m := ⟨_, rfl⟩
  obtain ⟨xs, ys, accs, keep, each, -, same, -, folds, entering, length, enter, reduced, -⟩ :=
    einsum_sums_early distinctNames_chainOperands ordered done
  obtain rfl := same chainIndices rfl
  obtain rfl : xs = chainOperands := by
    have resolved : chainOperands.mapM resolve = .ok chainOperands := rfl
    exact Except.ok.inj ((mapM_eq_ok.mpr each).symm.trans resolved)
  obtain ⟨y, hy⟩ : ∃ y, ys[1]? = some y :=
    ⟨_, List.getElem?_eq_getElem (entering ▸ by decide)⟩
  obtain ⟨acc, hacc⟩ : ∃ acc, accs[1]? = some acc :=
    ⟨_, List.getElem?_eq_getElem (length ▸ by decide)⟩
  refine ⟨m, ys, accs, done, folds, ⟨y, hy, fun d => ?_⟩, acc, hacc, fun d => ?_⟩
  · rw [(enter 1 _ y rfl hy).dims]
    simp only [chainOperands, chainIndices, dense, ofKind, own, Occurs, Indices.names,
      Option.getD_some, List.eraseIdx_cons_succ, List.eraseIdx_zero, List.tail_cons, List.map_cons,
      List.map_nil, List.mem_cons, List.not_mem_nil, or_false, exists_eq_left, exists_eq_or_imp]
    grind
  · rw [(reduced 1 acc hacc).dims]
    simp only [chainOperands, chainIndices, dense, ofKind, own, Occurs, Indices.names,
      Option.getD_some, List.take_succ_cons, List.take_zero, List.drop_succ_cons, List.drop_zero,
      List.map_cons, List.map_nil, List.mem_cons, List.not_mem_nil, or_false, exists_eq_left,
      exists_eq_or_imp]
    grind

end TensorKernel.Node
