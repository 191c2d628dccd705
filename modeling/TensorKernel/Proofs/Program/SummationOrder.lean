import TensorKernel.Kernel
import TensorKernel.Proofs.Program.Steps
import TensorKernel.Proofs.Tree.Induction
import TensorKernel.Tree.Compose

/-!
The order in which a sum lists its operands. It goes by one number, `lateness`, in which a tensor that
is not writable ties with a temporary. So writable tensors come first, and what ties stays as it
stands in the tree; but a temporary, which is writable, does not overtake a tensor that is not.

* `writable_of_lower`: operands are tensors or writable temporaries;
* `sorted_summationOrder`, `filter_summationOrder`: the order of a sum;
* `Preferred`, `preferred_iff`: writable operands first, then tensors before temporaries;
* `sum_listed`: the actions of a sum;
* `offset_not_preferred`: a tensor that is listed before a temporary.
-/

namespace TensorKernel.Lowering

/-! ### Operands -/

/-- What a tree is lowered to is a tensor or may be written from the start. -/
theorem writable_of_lower {n : Node} {s t : Lowering} {v : Variable} (h : Yields n.lower s v t) :
    v.isGlobal = true ∨ v.writable = true := by
  induction n using Node.induction generalizing s v t with
  | node kind indices pattern layout prefetch children ih =>
    have done := lower_cases h
    cases kind with
    | leaf =>
      obtain ⟨isGlobal, -⟩ := done
      exact .inl isGlobal
    | einsum => exact done.elim
    | add =>
      obtain ⟨_, _, -, -, takes⟩ := done
      exact .inr takes.writable
    | scale =>
      obtain ⟨_, _, _, _, -, -, takes⟩ := done
      exact .inr takes.writable
    | indexSum | product | contraction | gemm =>
      obtain ⟨_, _, -, takes⟩ := done
      exact .inr takes.writable
    | assign =>
      obtain ⟨target, value, _, _, _, _, operands, -, -, -, first, -, -⟩ := done
      obtain rfl : children = [target, value] := operands
      exact ih target List.mem_cons_self first

theorem LowersAll.writable {cs : List Node} {s t : Lowering} {vs : List Variable}
    (h : LowersAll cs s vs t) : ∀ v ∈ vs, v.isGlobal = true ∨ v.writable = true := by
  induction h with
  | nil => simp
  | cons first _ ih => exact List.forall_mem_cons.mpr ⟨writable_of_lower first, ih⟩

/-! ### The order of a sum -/

variable {vs order : List Variable} {v w : Variable}

theorem lateness_le_two (v : Variable) : lateness v ≤ 2 := by
  unfold lateness
  split <;> split <;> simp

theorem lateness_le_one (held : v.isGlobal = true ∨ v.writable = true) : lateness v ≤ 1 := by
  unfold lateness
  rcases held with isGlobal | writable
  · simp only [isGlobal, if_true]
    split <;> decide
  · simp only [writable, if_true]
    split <;> decide

theorem summationOrder_eq (vs : List Variable) : summationOrder vs =
    vs.filter (lateness · = 0) ++ (vs.filter (lateness · = 1) ++ vs.filter (lateness · = 2)) := by
  simp [summationOrder]

/-- What comes later is listed later. -/
theorem sorted_summationOrder (vs : List Variable) :
    (summationOrder vs).Pairwise fun v w => lateness v ≤ lateness w := by
  have late {v : Variable} {k : Nat} (hv : v ∈ vs.filter (lateness · = k)) : lateness v = k := by
    simpa using (List.mem_filter.mp hv).2
  have each (k : Nat) :
      (vs.filter (lateness · = k)).Pairwise fun v w => lateness v ≤ lateness w :=
    List.pairwise_of_forall_mem_list fun v hv w hw => (late hv).trans_le (late hw).ge
  rw [summationOrder_eq, List.pairwise_append, List.pairwise_append]
  refine ⟨each 0, ⟨each 1, each 2, fun v hv w hw => ?_⟩, fun v hv w _ => ?_⟩
  · rw [late hv, late hw]
    decide
  · rw [late hv]
    exact Nat.zero_le _

/-- What comes equally late is listed as it stands. -/
theorem filter_summationOrder (vs : List Variable) (k : Nat) :
    (summationOrder vs).filter (lateness · = k) = vs.filter (lateness · = k) := by
  have part (j : Nat) : (vs.filter (lateness · = j)).filter (lateness · = k) =
      if j = k then vs.filter (lateness · = k) else [] := by
    rw [List.filter_filter]
    split
    · next same => simp [same]
    · next differ =>
      refine List.filter_eq_nil_iff.mpr fun v _ both => ?_
      simp only [Bool.and_eq_true, decide_eq_true_eq] at both
      exact differ (both.2.symm.trans both.1)
  rw [summationOrder_eq, List.filter_append, List.filter_append, part 0, part 1, part 2]
  match k with
  | 0 | 1 | 2 => simp
  | k + 3 =>
    have beyond : vs.filter (lateness · = k + 3) = [] := by
      refine List.filter_eq_nil_iff.mpr fun v _ late => ?_
      have below := lateness_le_two v
      rw [of_decide_eq_true late] at below
      omega
    rw [beyond]
    rfl

/-- The preferred order of operands: writable ones come first, of those that are equally writable
tensors come before temporaries, and those that are alike in both stay as they stand. -/
structure Preferred (vs order : List Variable) : Prop where
  perm : order.Perm vs
  writable : order.Pairwise fun v w => w.writable = true → v.writable = true
  tensors : order.Pairwise fun v w =>
    v.writable = w.writable → w.isGlobal = true → v.isGlobal = true
  stable : ∀ writable isGlobal,
    order.filter (fun v => v.writable = writable ∧ v.isGlobal = isGlobal) =
      vs.filter fun v => v.writable = writable ∧ v.isGlobal = isGlobal

/-- A sum has the preferred order if no tensor that is not writable stands before a temporary. -/
theorem preferred_iff (held : ∀ v ∈ vs, v.isGlobal = true ∨ v.writable = true) :
    Preferred vs (summationOrder vs) ↔
      vs.Pairwise fun v w => v.writable = true ∨ w.isGlobal = true := by
  have perm := summationOrder_perm vs
  -- only what comes equally late in the middle can stand the wrong way round
  have middle : (summationOrder vs).Pairwise (fun v w => w.writable = true → v.writable = true) ↔
      (vs.filter (lateness · = 1)).Pairwise fun v w => w.writable = true → v.writable = true := by
    have early : ∀ v ∈ vs.filter (lateness · = 0), v.writable = true := by
      intro v hv
      have late := (List.mem_filter.mp hv).2
      cases writable : v.writable with
      | true => rfl
      | false => simp [lateness, writable] at late
    have last : vs.filter (lateness · = 2) = [] := by
      refine List.filter_eq_nil_iff.mpr fun v hv late => ?_
      have below := lateness_le_one (held v hv)
      rw [of_decide_eq_true late] at below
      omega
    rw [summationOrder_eq, last, List.append_nil, List.pairwise_append]
    constructor
    · rintro ⟨-, later, -⟩
      exact later
    · intro later
      refine ⟨?_, later, fun v hv w _ _ => early v hv⟩
      exact List.pairwise_of_forall_mem_list fun v hv w _ _ => early v hv
  have same : (vs.filter (lateness · = 1)).Pairwise
      (fun v w => w.writable = true → v.writable = true) ↔
      vs.Pairwise fun v w => v.writable = true ∨ w.isGlobal = true := by
    rw [List.pairwise_filter]
    refine List.Pairwise.iff_of_mem fun {v w} hv hw => ?_
    have heldV := held v hv
    have heldW := held w hw
    cases vw : v.writable <;> cases vg : v.isGlobal <;> cases ww : w.writable <;>
      cases wg : w.isGlobal <;> simp_all [lateness]
  rw [← same, ← middle]
  refine ⟨Preferred.writable, fun writable => ⟨perm, writable, ?_, fun b g => ?_⟩⟩
  · refine (sorted_summationOrder vs).imp fun {v w} sorted alike isGlobal => ?_
    cases other : v.isGlobal with
    | true => rfl
    | false =>
      rw [lateness, lateness, alike, isGlobal, other] at sorted
      simp only [Bool.false_eq_true, if_false, if_true, Nat.add_zero] at sorted
      exact absurd sorted (Nat.not_succ_le_self _)
  · let k := (if b then 0 else 1) + if g then 0 else 1
    have late (vs : List Variable) :
        vs.filter (fun v => v.writable = b ∧ v.isGlobal = g) =
          (vs.filter (lateness · = k)).filter fun v => v.writable = b ∧ v.isGlobal = g := by
      rw [List.filter_filter]
      refine List.filter_congr fun v _ => ?_
      by_cases alike : v.writable = b ∧ v.isGlobal = g
      · obtain ⟨rfl, rfl⟩ := alike
        simp [lateness, k]
      · simp [alike]
    rw [late, filter_summationOrder, ← late]

/-! ### Sums -/

theorem terms_additions (sum : Variable) (operands : List Variable) :
    (additions sum operands).map Action.term = operands.map Term.copy := by
  cases operands with
  | nil => rfl
  | cons first rest => simp [additions, Function.comp_def]

/-- A sum lists the operands that its children left in the order of their lateness, and those that
come equally late as they stand. This is the preferred order exactly if no tensor that is not
writable stands before a temporary. -/
theorem sum_listed {n : Node} {s t : Lowering} {v : Variable} (kind : n.kind = .add)
    (h : Yields n.lower s v t) :
    ∃ vs r more, LowersAll n.children s vs r ∧ t.actions = r.actions ++ more ∧
      more.map Action.term = (summationOrder vs).map Term.copy ∧
      (summationOrder vs).Perm vs ∧
      ((summationOrder vs).Pairwise fun v w => lateness v ≤ lateness w) ∧
      (∀ k, (summationOrder vs).filter (lateness · = k) = vs.filter (lateness · = k)) ∧
      (Preferred vs (summationOrder vs) ↔
        vs.Pairwise fun v w => v.writable = true ∨ w.isGlobal = true) := by
  have done := lower_cases h
  rw [LowersInto, kind] at done
  obtain ⟨vs, r, lowered, -, takes⟩ := done
  refine ⟨vs, r, additions v (summationOrder vs), lowered, ?_, terms_additions v _,
    summationOrder_perm vs, sorted_summationOrder vs, filter_summationOrder vs,
    preferred_iff lowered.writable⟩
  rw [takes.state]

/-- The statement `C_ij = A_ij + s B_ij + C_ij`. -/
def offset : Result Node := do
  let s ← Factor.ofName "s"
  let a ← Node.indexed (← Tensor.ofName "A" [2, 2]) ['i', 'j']
  let b ← Node.indexed (← Tensor.ofName "B" [2, 2]) ['i', 'j']
  let c ← Node.indexed (← Tensor.ofName "C" [2, 2]) ['i', 'j']
  let scaled ← b.times (.factor s)
  c.assign (.node (← (← a.plus (.node scaled)).plus (.node c)))

/-- Before the sum of the statement is lowered, its target may be written. -/
def beforeOffset : Lowering := { start false with writable := ["C"] }

def loweredOffset : Outcome (Node × Variable × Lowering) := do
  let m ← (← Outcome.ofResult offset).prepare .standard
  let sum := m.children.getLastD m
  match Id.run (sum.lower.run beforeOffset) with
  | (.ok v, t) => pure (sum, v, t)
  | (.error e, _) => Outcome.ofResult (.error e)

theorem yields_of_loweredOffset {n : Node} {v : Variable} {t : Lowering}
    (h : loweredOffset = .ok (n, v, t)) : Yields n.lower beforeOffset v t := by
  simp only [loweredOffset, bind_eq_ok] at h
  obtain ⟨_, -, m, -, h⟩ := h
  split at h
  · next v' t' lowered =>
    obtain ⟨rfl, rfl, rfl⟩ : m.children.getLastD m = n ∧ v' = v ∧ t' = t := by
      simpa using pure_eq_ok.mp h
    exact lowered
  · cases h

theorem actions_offset : (do
      let (sum, _, t) ← loweredOffset
      return (decide (sum.kind = Kind.add), sum.children.length, t.actions.map Action.text,
        t.actions.map fun (a : Action) => a.term.inputs.map Variable.writable)) =
    .ok (true, 3, ["_tmp0 = s * B", "_tmp1 = C", "_tmp1 += A", "_tmp1 += _tmp0"],
      [[false], [true], [false], [true]]) := by
  rfl

theorem sum_listed_offset : ∃ n v t, loweredOffset = .ok (n, v, t) ∧ n.kind = .add ∧
    Yields n.lower beforeOffset v t ∧
    ∃ vs r more, LowersAll n.children beforeOffset vs r ∧ t.actions = r.actions ++ more ∧
      more.map Action.term = (summationOrder vs).map Term.copy ∧
      more.map Action.text = ["_tmp1 = C", "_tmp1 += A", "_tmp1 += _tmp0"] := by
  have actions := actions_offset
  simp only [bind_eq_ok, pure_eq_ok, Prod.mk.injEq, decide_eq_true_eq] at actions
  obtain ⟨⟨n, v, t⟩, lowered, kind, operands, texts, -⟩ := actions
  have yields := yields_of_loweredOffset lowered
  obtain ⟨vs, r, more, each, appended, terms, perm, -⟩ := sum_listed kind yields
  have length : more.length = 3 := by
    have same := congrArg List.length terms
    rwa [List.length_map, List.length_map, perm.length_eq, each.length, operands] at same
  rw [appended, List.map_append] at texts
  refine ⟨n, v, t, lowered, kind, yields, vs, r, more, each, appended, terms, ?_⟩
  have parts : r.actions.map Action.text ++ more.map Action.text =
      ["_tmp0 = s * B"] ++ ["_tmp1 = C", "_tmp1 += A", "_tmp1 += _tmp0"] := texts
  exact (List.append_inj' parts (by simpa using length)).2

/-- A tensor that is not writable is listed before a temporary, so the order is not the preferred
one. -/
theorem offset_not_preferred : ∃ n v t, loweredOffset = .ok (n, v, t) ∧ n.kind = .add ∧
    Yields n.lower beforeOffset v t ∧
    t.actions.map Action.text =
      ["_tmp0 = s * B", "_tmp1 = C", "_tmp1 += A", "_tmp1 += _tmp0"] ∧
    ¬∃ vs r more order, LowersAll n.children beforeOffset vs r ∧ t.actions = r.actions ++ more ∧
      more.map Action.term = order.map Term.copy ∧ Preferred vs order := by
  have actions := actions_offset
  simp only [bind_eq_ok, pure_eq_ok, Prod.mk.injEq, decide_eq_true_eq] at actions
  obtain ⟨⟨n, v, t⟩, lowered, kind, operands, texts, writable⟩ := actions
  refine ⟨n, v, t, lowered, kind, yields_of_loweredOffset lowered, texts, ?_⟩
  rintro ⟨vs, r, more, order, each, appended, terms, preferred⟩
  have length : order.length = 3 := by rw [preferred.perm.length_eq, each.length, operands]
  obtain ⟨first, second, third, rfl⟩ := List.length_eq_three.mp length
  have read : more.map (fun a => a.term.inputs.map Variable.writable) =
      [[first.writable], [second.writable], [third.writable]] := by
    have inputs := congrArg (List.map fun term => term.inputs.map Variable.writable) terms
    rwa [List.map_map, List.map_map] at inputs
  rw [appended, List.map_append, read] at writable
  have parts : r.actions.map (fun a => a.term.inputs.map Variable.writable) ++
      [[first.writable], [second.writable], [third.writable]] =
        [[false]] ++ [[true], [false], [true]] := writable
  have listed := (List.append_inj' parts rfl).2
  simp only [List.cons.injEq, and_true] at listed
  obtain ⟨-, tensor, temporary⟩ := listed
  obtain ⟨-, wrong⟩ := List.pairwise_cons.mp preferred.writable
  rw [List.pairwise_pair] at wrong
  cases tensor.symm.trans (wrong temporary)

end TensorKernel.Lowering
