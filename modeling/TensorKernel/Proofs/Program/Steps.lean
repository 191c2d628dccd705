import TensorKernel.Program.Lower
import TensorKernel.Proofs.Program.Segment
import TensorKernel.Proofs.Success

/-!
Steps of a lowering that succeed.

* `yields_bind`, ..: what is known of a step that succeeds;
* `summationOrder_perm`, `definedFirst_additions`: the actions of a sum;
* `lower_cases`: what the lowering of a tree has done, kind by kind.
-/

namespace TensorKernel

namespace Lowering

def additions (sum : Variable) : List Variable → List Action
  | [] => []
  | first :: rest =>
    ⟨sum, .copy first, false, none⟩ :: rest.map fun operand => ⟨sum, .copy operand, true, none⟩

/-! ### Steps that succeed -/

section
variable {α β : Type} {s t : Lowering}

def Yields (x : LoweringM α) (s : Lowering) (a : α) (t : Lowering) : Prop :=
  Id.run (x.run s) = (Except.ok a, t)

theorem yields_bind {x : LoweringM α} {f : α → LoweringM β} {b : β} :
    Yields (x >>= f) s b t ↔ ∃ a r, Yields x s a r ∧ Yields (f a) r b t := by
  have run : Id.run ((x >>= f).run s) =
      Id.run ((ExceptT.bindCont f (Id.run (x.run s)).1).run (Id.run (x.run s)).2) := rfl
  unfold Yields
  rw [run]
  cases first : Id.run (x.run s) with
  | mk result r =>
    cases result with
    | error e =>
      constructor
      · intro h
        cases h
      · rintro ⟨_, _, h, -⟩
        cases h
    | ok a =>
      constructor
      · intro h
        exact ⟨a, r, rfl, h⟩
      · rintro ⟨_, _, h, then_⟩
        cases h
        exact then_

theorem yields_pure {a b : α} : Yields (pure a) s b t ↔ a = b ∧ s = t := by
  change (Except.ok a, s) = (Except.ok b, t) ↔ _
  simp

theorem yields_get {a : Lowering} : Yields get s a t ↔ s = a ∧ s = t := by
  change (Except.ok s, s) = (Except.ok a, t) ↔ _
  simp

theorem yields_modify {f : Lowering → Lowering} {u : Unit} : Yields (modify f) s u t ↔ f s = t := by
  change (Except.ok (), f s) = (Except.ok u, t) ↔ _
  simp

theorem yields_check {x : Result α} {a : α} : Yields (check x) s a t ↔ x = .ok a ∧ s = t := by
  cases x with
  | error e =>
    change (Except.error e, s) = (Except.ok a, t) ↔ _
    simp
  | ok b =>
    rw [check, yields_pure, Except.ok.injEq]

/-- The layout in which the value of a node is stored, in either layout mode. -/
def layoutIn (simple : Bool) (n : Node) : Result Layout :=
  if simple then Layout.full <$> n.shape else n.computedLayout

theorem yields_layoutOf {n : Node} {layout : Layout} (h : Yields (layoutOf n) s layout t) :
    layoutIn s.simpleLayouts n = .ok layout ∧ s = t := by
  obtain ⟨now, _, got, h⟩ := yields_bind.mp h
  obtain ⟨rfl, rfl⟩ := yields_get.mp got
  unfold layoutIn
  split at h
  · next simple =>
    obtain ⟨shape, _, checked, h⟩ := yields_bind.mp h
    obtain ⟨known, rfl⟩ := yields_check.mp checked
    obtain ⟨rfl, rfl⟩ := yields_pure.mp h
    rw [if_pos simple, known]
    exact ⟨rfl, rfl⟩
  · next simple =>
    rw [if_neg simple]
    exact yields_check.mp h

theorem yields_temporary {n : Node} {v : Variable} (h : Yields (temporary n) s v t) :
    layoutIn s.simpleLayouts n = .ok v.layout ∧ v.isGlobal = false ∧ v.writable = true ∧
      v.name = temporaryName s.next ∧ t = { s with next := s.next + 1 } := by
  simp only [temporary, yields_bind, yields_get, yields_modify] at h
  obtain ⟨_, _, ⟨rfl, rfl⟩, _, _, rfl, layout, _, laid, h⟩ := h
  obtain ⟨stored, rfl⟩ := yields_layoutOf laid
  obtain ⟨rfl, rfl⟩ := yields_pure.mp h
  exact ⟨stored, rfl, rfl, rfl, rfl⟩

theorem yields_tensorVariable {n : Node} {tensor : Tensor} {v : Variable}
    (h : Yields (tensorVariable n tensor) s v t) :
    v.isGlobal = true ∧ v.name = tensor.name ∧ v.writable = s.isWritable tensor.name ∧ s = t := by
  simp only [tensorVariable, yields_bind, yields_get] at h
  obtain ⟨layout, _, laid, _, _, ⟨rfl, rfl⟩, h⟩ := h
  obtain ⟨-, rfl⟩ := yields_layoutOf laid
  obtain ⟨rfl, rfl⟩ := yields_pure.mp h
  exact ⟨rfl, rfl, rfl, rfl⟩

theorem yields_markWritable {name : String} {u : Unit} (h : Yields (markWritable name) s u t) :
    t.actions = s.actions ∧ t.next = s.next ∧
      ∀ other, t.isWritable other = true ↔ s.isWritable other = true ∨ name = other := by
  obtain rfl := yields_modify.mp h
  split
  · next marked =>
    refine ⟨rfl, rfl, fun other => (or_iff_left_of_imp ?_).symm⟩
    rintro rfl
    exact marked
  · refine ⟨rfl, rfl, fun other => ?_⟩
    rw [isWritable, isWritable, List.contains_iff_mem, List.contains_iff_mem, List.mem_append,
      List.mem_singleton, eq_comm (a := other)]

theorem yields_emit {a : Action} {u : Unit} :
    Yields (emit a) s u t ↔ t = { s with actions := s.actions ++ [a] } := by
  rw [emit, yields_modify, eq_comm]

theorem yields_accumulate {sum : Variable} {operands : List Variable} {u : Unit}
    (h : Yields (accumulate sum operands) s u t) :
    t = { s with actions := s.actions ++ additions sum operands } := by
  have later {rest : List Variable} {s t : Lowering} {u : Unit}
      (h : Yields (rest.forM fun operand => emit ⟨sum, .copy operand, true, none⟩) s u t) :
      t = { s with
        actions := s.actions ++ rest.map fun operand => ⟨sum, .copy operand, true, none⟩ } := by
    induction rest generalizing s with
    | nil =>
      obtain ⟨-, rfl⟩ := yields_pure.mp h
      simp
    | cons v vs ih =>
      obtain ⟨_, _, emitted, h⟩ := yields_bind.mp h
      obtain rfl := yields_emit.mp emitted
      rw [ih h]
      simp
  cases operands with
  | nil =>
    obtain ⟨-, rfl⟩ := yields_pure.mp h
    simp [additions]
  | cons first rest =>
    obtain ⟨_, _, emitted, h⟩ := yields_bind.mp h
    obtain rfl := yields_emit.mp emitted
    rw [later h]
    simp [additions]

end

/-! ### Sums -/

/-- Operands come early, later or last. -/
theorem summationOrder_perm (vs : List Variable) : (summationOrder vs).Perm vs := by
  have split : summationOrder vs = vs.filter (lateness · = 0) ++ (vs.filter (lateness · = 1) ++
      vs.filter (lateness · = 2)) := by
    simp [summationOrder]
  rw [split]
  induction vs with
  | nil => exact .nil
  | cons v vs ih =>
    have ih := ih (by simp [summationOrder])
    have late : lateness v = 0 ∨ lateness v = 1 ∨ lateness v = 2 := by
      unfold lateness
      split <;> split <;> simp
    rcases late with h | h | h <;> simp only [h, List.filter_cons, decide_true, decide_false,
      reduceCtorEq, Nat.reduceEqDiff, if_true, if_false]
    · exact ih.cons v
    · exact List.perm_middle.trans (ih.cons v)
    · exact (List.perm_middle.append_left _).trans (List.perm_middle.trans (ih.cons v))

theorem mem_additions {sum : Variable} {operands : List Variable} {a : Action}
    (h : a ∈ additions sum operands) :
    a.result = sum ∧ ∃ v ∈ operands, a.term = .copy v := by
  cases operands with
  | nil => cases h
  | cons first rest =>
    rcases List.mem_cons.mp h with rfl | h
    · exact ⟨rfl, first, List.mem_cons_self, rfl⟩
    · obtain ⟨v, hv, rfl⟩ := List.mem_map.mp h
      exact ⟨rfl, v, List.mem_cons_of_mem first hv, rfl⟩

theorem mem_of_input_of_additions {sum v : Variable} {operands : List Variable} {a : Action}
    (h : a ∈ additions sum operands) (hv : v ∈ a.term.inputs) : v ∈ operands := by
  obtain ⟨-, w, hw, copies⟩ := mem_additions h
  rw [copies] at hv
  rwa [List.mem_singleton.mp hv]

theorem definedFirst_additions {sum : Variable} {operands : List Variable}
    (some_operand : operands ≠ []) : DefinedFirst sum.name (additions sum operands) := by
  cases operands with
  | nil => exact absurd rfl some_operand
  | cons first rest => exact definedFirst_cons (a := ⟨sum, .copy first, false, none⟩) rfl

/-! ### Trees -/

/-- Trees that are lowered one after the other, and the variables that hold their values. -/
inductive LowersAll : List Node → Lowering → List Variable → Lowering → Prop
  | nil (s : Lowering) : LowersAll [] s [] s
  | cons {c : Node} {cs : List Node} {s r t : Lowering} {v : Variable} {vs : List Variable}
      (first : Yields c.lower s v r) (rest : LowersAll cs r vs t) :
      LowersAll (c :: cs) s (v :: vs) t

theorem lowersAll_of_yields {cs : List Node} {s t : Lowering} {vs : List Variable}
    (h : Yields (Node.lowerAll cs) s vs t) : LowersAll cs s vs t := by
  induction cs generalizing s vs t with
  | nil =>
    rw [Node.lowerAll] at h
    obtain ⟨rfl, rfl⟩ := yields_pure.mp h
    exact .nil s
  | cons c cs ih =>
    rw [Node.lowerAll] at h
    obtain ⟨v, r, first, h⟩ := yields_bind.mp h
    obtain ⟨vs, u, rest, h⟩ := yields_bind.mp h
    obtain ⟨rfl, rfl⟩ := yields_pure.mp h
    exact .cons first (ih rest)

theorem LowersAll.length {cs : List Node} {s t : Lowering} {vs : List Variable}
    (h : LowersAll cs s vs t) : vs.length = cs.length := by
  induction h with
  | nil => rfl
  | cons _ _ ih => rw [List.length_cons, List.length_cons, ih]

structure Takes (s : Lowering) (v : Variable) (more : List Action) (t : Lowering) : Prop where
  isLocal : v.isGlobal = false
  writable : v.writable = true
  name : v.name = temporaryName s.next
  state : t = { s with next := s.next + 1, actions := s.actions ++ more }

/-- What the lowering of a tree has done when it succeeds. -/
def LowersInto (n : Node) (s : Lowering) (v : Variable) (t : Lowering) : Prop :=
  match n.kind with
  | .leaf tensor => v.isGlobal = true ∧ v.name = tensor.name ∧
      v.writable = s.isWritable tensor.name ∧ s = t
  | .einsum => False
  | .add => ∃ vs r, LowersAll n.children s vs r ∧ vs ≠ [] ∧
      Takes r v (additions v (summationOrder vs)) t
  | .scale factor => ∃ term rest w r, n.children = term :: rest ∧ Yields term.lower s w r ∧
      Takes r v [⟨v, .copy w, false, some factor⟩] t
  | .indexSum _ | .product | .contraction _ | .gemm _ => ∃ vs r, LowersAll n.children s vs r ∧
      Takes r v [⟨v, .operation n v.layout vs, false, none⟩] t
  | .assign => ∃ target value r q w u, n.children = [target, value] ∧
      r.actions = s.actions ∧ r.next = s.next ∧
      (∀ name, r.isWritable name = true ↔
        s.isWritable name = true ∨ target.tensorName? = some name) ∧
      Yields target.lower r v q ∧ Yields value.lower q w u ∧
      t = { u with actions := u.actions ++ [⟨v, .copy w, false, none⟩] }

/-- An operation computes its value in the layout of the temporary that takes it. -/
theorem takes_of_operation {n : Node} {s t : Lowering} {v : Variable} (h : Yields (do
      let operands ← Node.lowerAll n.children
      let result ← temporary n
      emit ⟨result, .operation n (← layoutOf n) operands, false, none⟩
      pure result) s v t) :
    ∃ vs r, LowersAll n.children s vs r ∧
      Takes r v [⟨v, .operation n v.layout vs, false, none⟩] t := by
  obtain ⟨vs, r, lowered, h⟩ := yields_bind.mp h
  obtain ⟨result, u, taken, h⟩ := yields_bind.mp h
  obtain ⟨layout, _, laid, h⟩ := yields_bind.mp h
  obtain ⟨_, q, emitted, h⟩ := yields_bind.mp h
  obtain ⟨rfl, rfl⟩ := yields_pure.mp h
  obtain ⟨stored, isLocal, writable, name, rfl⟩ := yields_temporary taken
  obtain ⟨same, rfl⟩ := yields_layoutOf laid
  obtain rfl := Except.ok.inj (stored.symm.trans same)
  exact ⟨vs, r, lowersAll_of_yields lowered, isLocal, writable, name, yields_emit.mp emitted⟩

theorem lower_cases {n : Node} {s t : Lowering} {v : Variable} (h : Yields n.lower s v t) :
    LowersInto n s v t := by
  obtain ⟨kind, indices, pattern, layout, prefetch, children⟩ := n
  cases kind with
  | leaf tensor =>
    rw [Node.lower] at h
    exact yields_tensorVariable h
  | einsum =>
    rw [Node.lower] at h
    exact violates_ne_ok (yields_check.mp h).1
  | add =>
    rw [Node.lower] at h
    obtain ⟨vs, r, lowered, h⟩ := yields_bind.mp h
    split at h
    · obtain ⟨_, _, checked, -⟩ := yields_bind.mp h
      exact absurd (yields_check.mp checked).1 violates_ne_ok
    · next some_operand =>
      obtain ⟨result, u, taken, h⟩ := yields_bind.mp h
      obtain ⟨_, q, accumulated, h⟩ := yields_bind.mp h
      obtain ⟨rfl, rfl⟩ := yields_pure.mp h
      obtain ⟨-, isLocal, writable, name, rfl⟩ := yields_temporary taken
      exact ⟨vs, r, lowersAll_of_yields lowered, by simpa using some_operand, isLocal, writable,
        name, yields_accumulate accumulated⟩
  | scale factor =>
    rw [Node.lower] at h
    obtain ⟨w, r, lowered, h⟩ := yields_bind.mp h
    obtain ⟨result, u, taken, h⟩ := yields_bind.mp h
    obtain ⟨_, q, emitted, h⟩ := yields_bind.mp h
    obtain ⟨rfl, rfl⟩ := yields_pure.mp h
    obtain ⟨-, isLocal, writable, name, rfl⟩ := yields_temporary taken
    cases children with
    | nil =>
      rw [Node.lowerTerm] at lowered
      exact absurd (yields_check.mp lowered).1 violates_ne_ok
    | cons term rest =>
      exact ⟨term, rest, w, r, rfl, lowered, isLocal, writable, name, yields_emit.mp emitted⟩
  | indexSum | product | contraction | gemm =>
    rw [Node.lower] at h
    exact takes_of_operation h
  | assign =>
    rw [Node.lower] at h
    unfold Node.lowerAssigned at h
    split at h
    · next target value =>
      have rest {r : Lowering} (actions : r.actions = s.actions) (next : r.next = s.next)
          (marked : ∀ name, r.isWritable name = true ↔
            s.isWritable name = true ∨ target.tensorName? = some name)
          (h : Yields (do
            let result ← target.lower
            let source ← value.lower
            emit ⟨result, .copy source, false, none⟩
            pure result) r v t) : LowersInto ⟨.assign, indices, pattern, layout, prefetch,
              [target, value]⟩ s v t := by
        obtain ⟨result, q, first, h⟩ := yields_bind.mp h
        obtain ⟨w, u, second, h⟩ := yields_bind.mp h
        obtain ⟨_, _, emitted, h⟩ := yields_bind.mp h
        obtain ⟨rfl, rfl⟩ := yields_pure.mp h
        exact ⟨target, value, r, q, w, u, rfl, actions, next, marked, first, second,
          yields_emit.mp emitted⟩
      cases named : target.tensorName? with
      | none =>
        rw [named] at h
        exact rest rfl rfl (by simp [named]) h
      | some name =>
        rw [named] at h
        obtain ⟨_, r, mark, h⟩ := yields_bind.mp h
        obtain ⟨actions, next, marked⟩ := yields_markWritable mark
        exact rest actions next (by simpa [named] using marked) h
    · exact absurd (yields_check.mp h).1 violates_ne_ok

/-- The target of an assignment may be written from then on, and is written last. -/
theorem lower_assign_cases {m target source : Node} {tensor : Tensor} (kind : m.kind = .assign)
    (children : m.children = [target, source]) (leaf : target.kind = .leaf tensor)
    {s t : Lowering} {v : Variable} (h : Yields m.lower s v t) :
    ∃ r w q, r.actions = s.actions ∧ r.next = s.next ∧
      (∀ name, r.isWritable name = true ↔ s.isWritable name = true ∨ tensor.name = name) ∧
      Yields source.lower r w q ∧ v.isGlobal = true ∧ v.name = tensor.name ∧ v.writable = true ∧
      t = { q with actions := q.actions ++ [⟨v, .copy w, false, none⟩] } := by
  have done := lower_cases h
  rw [LowersInto, kind] at done
  obtain ⟨_, _, r, q, w, u, operands, actions, next, marked, first, second, rfl⟩ := done
  cases children.symm.trans operands
  have done := lower_cases first
  rw [LowersInto, leaf] at done
  obtain ⟨isGlobal, name, writable, rfl⟩ := done
  have named : target.tensorName? = some tensor.name := by rw [Node.tensorName?, leaf]
  simp only [named, Option.some.injEq] at marked
  exact ⟨r, w, u, actions, next, marked, second, isGlobal, name,
    writable.trans ((marked tensor.name).mpr (.inr rfl)), rfl⟩

end Lowering

end TensorKernel
