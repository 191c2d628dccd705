import TensorKernel.Proofs.Program.Stages

/-!
The programs of kernels run in stages, one for each statement, if nothing is assigned inside a
statement. The temporaries of a statement are numbered in a range of its own; each is overwritten
once, and so is the target.

* `Scribbles`: actions that overwrite each temporary of a range once;
* `writes_of_lower`: the actions of a tree without assignments;
* `staged_of_lowerFrom`: the actions of all statements;
* `eliminated_again`: a second elimination of copies changes no program of a kernel.
-/

namespace TensorKernel

namespace Lowering

/-- No name is overwritten by both actions. -/
def Apart (a b : Action) : Prop :=
  a.add = false → b.add = false → a.result.name ≠ b.result.name

/-- Actions that write the temporaries of a range and overwrite none of them twice. -/
structure Scribbles (lo hi : Nat) (actions : List Action) : Prop where
  le : lo ≤ hi
  results : ∀ a ∈ actions, ∃ k, lo ≤ k ∧ k < hi ∧ a.result.name = temporaryName k
  once : actions.Pairwise Apart

namespace Scribbles

variable {lo mid hi : Nat} {actions more : List Action}

theorem nil (lo : Nat) : Scribbles lo lo [] := ⟨Nat.le_refl lo, by simp, .nil⟩

theorem concat (h : Scribbles lo mid actions) (k : Scribbles mid hi more) :
    Scribbles lo hi (actions ++ more) := by
  refine ⟨h.le.trans k.le, List.forall_mem_append.mpr ⟨fun a ha => ?_, fun a ha => ?_⟩,
    List.pairwise_append.mpr ⟨h.once, k.once, fun a ha b hb _ _ same => ?_⟩⟩
  · obtain ⟨j, least, below, name⟩ := h.results a ha
    exact ⟨j, least, below.trans_le k.le, name⟩
  · obtain ⟨j, least, below, name⟩ := k.results a ha
    exact ⟨j, h.le.trans least, below, name⟩
  · obtain ⟨i, -, below, left⟩ := h.results a ha
    obtain ⟨j, least, -, right⟩ := k.results b hb
    have number := temporaryName_injective (left.symm.trans (same.trans right))
    omega

/-- Further actions that write the next temporary. -/
theorem define (h : Scribbles lo mid actions)
    (results : ∀ a ∈ more, a.result.name = temporaryName mid) (once : more.Pairwise Apart) :
    Scribbles lo (mid + 1) (actions ++ more) :=
  h.concat ⟨Nat.le_succ mid, fun a ha => ⟨mid, Nat.le_refl mid, Nat.lt_succ_self mid, results a ha⟩,
    once⟩

end Scribbles

/-- Operands are added to what the first of them has overwritten. -/
theorem apart_additions (sum : Variable) (operands : List Variable) :
    (additions sum operands).Pairwise Apart := by
  cases operands with
  | nil => exact .nil
  | cons first rest =>
    refine List.pairwise_cons.mpr ⟨fun a ha _ overwrites => ?_, List.pairwise_map.mpr ?_⟩
    · obtain ⟨v, -, rfl⟩ := List.mem_map.mp ha
      cases overwrites
    · exact List.pairwise_of_forall_mem_list fun v _ w _ overwrites => by cases overwrites

def Writes (s t : Lowering) : Prop :=
  ∃ as, t.actions = s.actions ++ as ∧ Scribbles s.next t.next as

theorem Writes.takes {s r t : Lowering} {v : Variable} {more : List Action} (h : Writes s r)
    (takes : Takes r v more t) (results : ∀ a ∈ more, a.result = v) (once : more.Pairwise Apart) :
    Writes s t := by
  obtain ⟨as, appended, writes⟩ := h
  obtain ⟨-, -, name, rfl⟩ := takes
  refine ⟨as ++ more, by rw [appended, List.append_assoc], writes.define (fun a ha => ?_) once⟩
  rw [results a ha, name]

theorem writes_of_lowersAll {cs : List Node}
    (each : ∀ c ∈ cs, ∀ s v t, Yields c.lower s v t → Writes s t) {s t : Lowering}
    {vs : List Variable} (h : LowersAll cs s vs t) : Writes s t := by
  induction h with
  | nil s => exact ⟨[], (List.append_nil _).symm, .nil s.next⟩
  | cons lowered _ ih =>
    obtain ⟨first, rest⟩ := List.forall_mem_cons.mp each
    obtain ⟨as, appended, writes⟩ := first _ _ _ lowered
    obtain ⟨bs, appended', writes'⟩ := ih rest
    exact ⟨as ++ bs, by rw [appended', appended, List.append_assoc], writes.concat writes'⟩

/-- The actions of a tree in which nothing is assigned overwrite each temporary once. -/
theorem writes_of_lower {n : Node} (free : n.Everywhere (·.kind ≠ .assign)) {s t : Lowering}
    {v : Variable} (h : Yields n.lower s v t) : Writes s t := by
  induction n using Node.induction generalizing s v t with
  | node kind indices pattern layout prefetch children ih =>
    have each : ∀ c ∈ children, ∀ s v t, Yields c.lower s v t → Writes s t := by
      intro c hc s v t h
      exact ih c hc (free.children c hc) h
    have done := lower_cases h
    cases kind with
    | leaf =>
      obtain ⟨-, -, -, rfl⟩ := done
      exact ⟨[], (List.append_nil _).symm, .nil s.next⟩
    | einsum => exact done.elim
    | add =>
      obtain ⟨vs, r, lowered, -, takes⟩ := done
      exact (writes_of_lowersAll each lowered).takes takes (fun a ha => (mem_additions ha).1)
        (apart_additions _ _)
    | scale =>
      obtain ⟨term, rest, w, r, operands, lowered, takes⟩ := done
      obtain rfl : children = term :: rest := operands
      exact (each term List.mem_cons_self s w r lowered).takes takes (by simp) (by simp)
    | indexSum | product | contraction | gemm =>
      obtain ⟨vs, r, lowered, takes⟩ := done
      exact (writes_of_lowersAll each lowered).takes takes (by simp) (by simp)
    | assign => exact absurd rfl free.root

/-- The stage of a statement that is lowered first: its actions use temporaries of a range, and
overwrite no name twice. -/
structure Stage (lo hi : Nat) (actions : List Action) : Prop where
  le : lo ≤ hi
  inRange : ∀ a ∈ actions, ∀ k, a.touches (temporaryName k) = true → lo ≤ k ∧ k < hi
  once : actions.Pairwise Apart

/-- A statement that assigns a value to a tensor. -/
theorem stage_of_statement {m : Node} (rooted : m.Everywhere Node.Rooted) (kind : m.kind = .assign)
    (free : ∀ c ∈ m.children, c.Everywhere (·.kind ≠ .assign)) {s t : Lowering} {v : Variable}
    (h : Yields m.lower s v t) : ∃ as, t.actions = s.actions ++ as ∧ Stage s.next t.next as := by
  obtain ⟨as, appended, emitted⟩ := appends_of_lower (rooted.mono fun x h => h.made) h
  refine ⟨as, appended, emitted.le, fun a ha k touches => ?_, ?_⟩
  · by_contra outside
    rw [emitted.toSegment.not_touches (by omega) a ha] at touches
    cases touches
  · obtain ⟨target, value, tensor, operands, leaf⟩ := rooted.root.target kind
    obtain ⟨r, w, u, actions, -, -, second, -, name, -, rfl⟩ :=
      lower_assign_cases kind operands leaf h
    obtain ⟨bs, appended', writes⟩ := writes_of_lower (free value (by simp [operands])) second
    have made := (rooted.children target (by simp [operands])).root.made tensor leaf
    obtain rfl : as = bs ++ [⟨v, .copy w, false, none⟩] := by
      have same : s.actions ++ as = u.actions ++ [⟨v, .copy w, false, none⟩] := appended.symm
      rw [appended', actions, List.append_assoc] at same
      exact List.append_cancel_left same
    refine List.pairwise_append.mpr ⟨writes.once, List.pairwise_singleton _ _, ?_⟩
    intro a ha b hb _ _ same
    obtain rfl := List.mem_singleton.mp hb
    obtain ⟨k, -, -, temporary⟩ := writes.results a ha
    exact Tensor.name_ne_temporaryName made.identifier k (name.symm.trans (same.symm.trans temporary))

/-- A stage before others that have later numbers and later temporaries. -/
theorem staged_cons {lo hi position : Nat} {as : List Action} {xs : List (Nat × Action)}
    (stage : Stage lo hi as) (staged : CopyElimination.Staged xs)
    (behind : ∀ x ∈ xs, position < x.1)
    (later : ∀ x ∈ xs, ∀ k, x.2.touches (temporaryName k) = true → hi ≤ k) :
    CopyElimination.Staged (as.map (Prod.mk position) ++ xs) := by
  constructor
  · refine List.pairwise_append.mpr ⟨List.pairwise_map.mpr ?_, staged.later, ?_⟩
    · exact stage.once.imp fun apart => ⟨Nat.le_refl position, fun ha hb same =>
        absurd same (apart ha hb)⟩
    · intro z hz y hy
      obtain ⟨a, -, rfl⟩ := List.mem_map.mp hz
      exact ⟨(behind y hy).le, fun _ _ _ => behind y hy⟩
  · have disjoint {a : Action} {y : Nat × Action} {k : Nat} (ha : a ∈ as) (hy : y ∈ xs)
        (ta : a.touches (temporaryName k) = true) (ty : y.2.touches (temporaryName k) = true) :
        False := by
      have below := (stage.inRange a ha k ta).2
      have above := later y hy k ty
      omega
    intro x hx y hy k tx ty
    rcases List.mem_append.mp hx with hx | hx <;> rcases List.mem_append.mp hy with hy | hy
    · obtain ⟨a, -, rfl⟩ := List.mem_map.mp hx
      obtain ⟨b, -, rfl⟩ := List.mem_map.mp hy
      rfl
    · obtain ⟨a, ha, rfl⟩ := List.mem_map.mp hx
      exact (disjoint ha hy tx ty).elim
    · obtain ⟨b, hb, rfl⟩ := List.mem_map.mp hy
      exact (disjoint hb hx ty tx).elim
    · exact staged.own x hx y hy k tx ty

end Lowering

/-! ### Kernels -/

namespace Kernel

open Lowering

/-- A statement that assigns to a tensor and inside of which nothing is assigned. -/
structure Assigns (m : Node) : Prop where
  rooted : m.Everywhere Node.Rooted
  kind : m.kind = .assign
  free : ∀ c ∈ m.children, c.Everywhere (·.kind ≠ .assign)

theorem assigns_of_prepare {config : Config} {n m : Node} (assembled : n.Assembled)
    (free : ∀ c ∈ n.children, c.Everywhere (·.kind ≠ .assign)) (h : n.prepare config = .ok m) :
    Assigns m := by
  obtain ⟨kind, free⟩ := Node.prepare_operands Node.ofKind_free h free
  exact ⟨Node.rooted_of_prepare assembled.rooted h, kind, free⟩

/-- The statements of a kernel are lowered to one stage each. -/
theorem staged_of_lowerFrom {nodes : List Node} (each : ∀ m ∈ nodes, Assigns m) {name : String}
    {position : Nat} {a b : Lowering} (h : lowerFrom name a position nodes = .ok b) :
    ∃ xs : List (Nat × Action), b.actions = a.actions ++ xs.map Prod.snd ∧
      CopyElimination.Staged xs ∧ (∀ x ∈ xs, position ≤ x.1) ∧
      ∀ x ∈ xs, ∀ k, x.2.touches (temporaryName k) = true → a.next ≤ k := by
  induction nodes generalizing position a with
  | nil =>
    obtain rfl := pure_eq_ok.mp h
    exact ⟨[], (List.append_nil _).symm, ⟨.nil, by simp⟩, by simp, by simp⟩
  | cons m nodes ih =>
    obtain ⟨first, others⟩ := List.forall_mem_cons.mp each
    obtain ⟨v, r, step, rest⟩ := lowerFrom_cons_eq_ok h
    obtain ⟨as, appended, stage⟩ := stage_of_statement first.rooted first.kind first.free step
    obtain ⟨xs, appended', staged, numbers, ranges⟩ := ih others rest
    refine ⟨as.map (Prod.mk position) ++ xs, ?_, staged_cons stage staged numbers ranges, ?_, ?_⟩
    · rw [appended', appended, List.append_assoc, List.map_append, List.map_map]
      simp [Function.comp_def]
    · refine List.forall_mem_append.mpr ⟨fun x hx => ?_, fun x hx => ?_⟩
      · obtain ⟨_, -, rfl⟩ := List.mem_map.mp hx
        exact Nat.le_refl position
      · have number := numbers x hx
        omega
    · refine List.forall_mem_append.mpr ⟨fun x hx k touches => ?_, fun x hx k touches => ?_⟩
      · obtain ⟨action, ha, rfl⟩ := List.mem_map.mp hx
        exact (stage.inRange action ha k touches).1
      · exact stage.le.trans (ranges x hx k touches)

/-- Elimination of copies reaches a fixed point in one run, for every kernel in which only whole
statements are assignments: of the program that is left no copy can be removed. -/
theorem eliminated_again {statements : List Node} (assembled : ∀ n ∈ statements, n.Assembled)
    (free : ∀ n ∈ statements, ∀ c ∈ n.children, c.Everywhere (·.kind ≠ .assign)) {name : String}
    {config : Config} {k : Kernel} (accepted : ofStatements name statements config = .ok k) :
    ∃ lowered, lowerFrom k.name (.start k.config.simpleLayouts) 0 k.statements = .ok lowered ∧
      let eliminated := CopyElimination.run lowered.program
      CopyElimination.run eliminated = eliminated ∧
      ∀ before copy after, eliminated.actions = before ++ copy :: after →
        CopyElimination.removable? before copy after = none := by
  obtain ⟨-, -, prepared⟩ := ofStatements_eq_ok accepted
  have each : ∀ m ∈ k.statements, Assigns m := by
    intro m hm
    obtain ⟨n, hn, done⟩ := exists_of_forall₂_right prepared hm
    exact assigns_of_prepare (assembled n hn) (free n hn) done
  obtain ⟨lowered, done⟩ :=
    lowerFrom_of_prepared assembled prepared k.name 0 (.start k.config.simpleLayouts)
  obtain ⟨as, appended, emitted⟩ :=
    appends_of_lowerFrom (fun m hm => (each m hm).rooted.mono fun x h => h.made) done
  obtain ⟨xs, stages, staged, -, -⟩ := staged_of_lowerFrom each done
  refine ⟨lowered, done, ?_⟩
  apply CopyElimination.run_of_stages
  · rw [Lowering.program, Program.actions_ofActions]
    exact ⟨xs, stages.symm, staged⟩
  · rw [Lowering.program, Program.actions_ofActions, appended]
    exact emitted.sound

theorem free_reduced :
    (fun n : Node => decide (∀ c ∈ n.children, c.Everywhere (·.kind ≠ .assign))) <$> reduced =
      .ok true :=
  eq_ok_of_toOption (by decide +kernel)

theorem texts_reduced_twice : (do
      let n ← Outcome.ofResult reduced
      let k ← ofStatements "reduce" [n, n] .standard
      let lowered ← lowerFrom k.name (.start k.config.simpleLayouts) 0 k.statements
      return (CopyElimination.run lowered.program).actions.map Action.text) = .ok
    ["_tmp1 = s * LoopOverGEMM(A, B)", "_tmp2 = -1.0 * C", "C = _tmp1", "C += _tmp2",
      "_tmp5 = s * LoopOverGEMM(A, B)", "_tmp6 = -1.0 * C", "C = _tmp5", "C += _tmp6"] :=
  eq_ok_of_toOption (by decide +kernel)

theorem eliminated_again_reduced : ∃ n k lowered, reduced = .ok n ∧ n.Assembled ∧
    ofStatements "reduce" [n, n] .standard = .ok k ∧
    lowerFrom k.name (.start k.config.simpleLayouts) 0 k.statements = .ok lowered ∧
    let eliminated := CopyElimination.run lowered.program
    CopyElimination.run eliminated = eliminated ∧ "C = _tmp5" ∈ eliminated.actions.map Action.text ∧
    ∀ before copy after, eliminated.actions = before ++ copy :: after →
      CopyElimination.removable? before copy after = none := by
  have texts := texts_reduced_twice
  simp only [bind_eq_ok, pure_eq_ok, Outcome.ofResult, mapError_eq_ok] at texts
  obtain ⟨n, built, k, accepted, lowered, done, eliminated⟩ := texts
  have assembled := assembled_reduced built
  have free : ∀ c ∈ n.children, c.Everywhere (·.kind ≠ .assign) := by
    obtain ⟨n', built', free⟩ := map_eq_ok.mp free_reduced
    obtain rfl := Except.ok.inj (built.symm.trans built')
    exact of_decide_eq_true free
  obtain ⟨lowered', done', again, none⟩ :=
    eliminated_again (by simpa using assembled) (by simpa using free) accepted
  obtain rfl := Except.ok.inj (done.symm.trans done')
  refine ⟨n, k, lowered, built, assembled, accepted, done, again, ?_, none⟩
  rw [eliminated]
  decide

end Kernel

end TensorKernel
