import TensorKernel.Proofs.Emission

/-!
Programs are well formed. A temporary is defined before it is read or added to, has a name that no
tensor has, and one layout wherever it occurs; an operation computes its value in the layout of its
result; and only the last point of a program is without an action.

* `Sound.wellFormed`: what has to hold of the actions of a program;
* `sound_removeAt`: a copy is eliminated from sound actions;
* `Emitted`, `appends_of_lower`: the actions of a tree, whatever its shape is;
* `programs_wellFormed`: the programs of a kernel.
-/

namespace TensorKernel

/-- Temporaries of one name have one layout. -/
def Coherent (vs : List Variable) : Prop :=
  ∀ v ∈ vs, ∀ w ∈ vs, v.isLocal = true → w.isLocal = true → v.name = w.name → v.layout = w.layout

theorem Coherent.mono {vs ws : List Variable} (h : Coherent ws) (sub : ∀ v ∈ vs, v ∈ ws) :
    Coherent vs :=
  fun v hv w hw => h v (sub v hv) w (sub w hw)

/-- What holds of actions before and after elimination of copies. -/
structure Sound (actions : List Action) : Prop where
  overwritten : temporariesOverwritten actions = true
  unread : ∀ a ∈ actions, a.result.isLocal = true → a.reads a.result.name = false
  temporaries : ∀ v ∈ variablesOf actions, v.isLocal = true → ∃ k, v.name = temporaryName k
  tensors : ∀ v ∈ variablesOf actions, v.isGlobal = true → ∀ k, v.name ≠ temporaryName k
  layouts : Coherent (variablesOf actions)
  operations : ∀ a ∈ actions, ∀ l, a.term.layout? = some l → a.result.layout = l

/-- The first action in which a name occurs overwrites it with a value that does not depend on
it. -/
def StartsDefined (name : String) (actions : List Action) : Prop :=
  ∃ before a after, actions = before ++ a :: after ∧ (∀ b ∈ before, b.touches name = false) ∧
    a.writes name = true ∧ a.add = false ∧ a.reads name = false

/-- A program whose temporaries are used as buffers that it defines itself. -/
structure Program.WellFormed (p : Program) : Prop where
  defined : ∀ v ∈ variablesOf p.actions, v.isLocal = true → StartsDefined v.name p.actions
  apart : ∀ v ∈ variablesOf p.actions, v.isLocal = true →
    (∀ t : Tensor, t.Constructed → v.name ≠ t.name) ∧
      ∀ w ∈ variablesOf p.actions, w.isGlobal = true → v.name ≠ w.name
  layouts : Coherent (variablesOf p.actions)
  operations : ∀ a ∈ p.actions, ∀ l, a.term.layout? = some l → a.result.layout = l
  ending : p.points = p.actions.map some ++ [none]

namespace Sound

variable {actions : List Action}

/-- What has the name of a temporary is a temporary. -/
theorem isLocal_of_name (h : Sound actions) {v w : Variable} (hv : v ∈ variablesOf actions)
    (hw : w ∈ variablesOf actions) (isLocal : v.isLocal = true) (same : w.name = v.name) :
    w.isLocal = true := by
  obtain ⟨k, name⟩ := h.temporaries v hv isLocal
  by_contra other
  have isGlobal : w.isGlobal = true := by simpa [Variable.isLocal] using other
  exact h.tensors w hw isGlobal k (same.trans name)

theorem startsDefined (h : Sound actions) {v : Variable} (hv : v ∈ variablesOf actions)
    (isLocal : v.isLocal = true) : StartsDefined v.name actions := by
  have first := overwrittenFirst_iff.mp (temporariesOverwritten_iff.mp h.overwritten v hv isLocal)
  obtain ⟨b, hb, occurs⟩ := mem_variablesOf.mp hv
  have touched : b.touches v.name = true := by
    rcases occurs with rfl | read
    · simp [Action.touches, Action.writes]
    · by_contra untouched
      rw [Bool.not_eq_true, Action.not_touches, Action.not_reads] at untouched
      exact untouched.2 v read rfl
  cases found : actions.find? (·.touches v.name) with
  | none => exact absurd touched (List.find?_eq_none.mp found b hb)
  | some a =>
    obtain ⟨-, before, after, rfl, untouched⟩ := List.find?_eq_some_iff_append.mp found
    obtain ⟨writes, overwrites⟩ := first a found
    have name : a.result.name = v.name := of_decide_eq_true writes
    have result : a.result ∈ variablesOf (before ++ a :: after) :=
      mem_variablesOf.mpr ⟨a, by simp, .inl rfl⟩
    have unread := h.unread a (by simp) (h.isLocal_of_name hv result isLocal name)
    rw [name] at unread
    exact ⟨before, a, after, rfl, by simpa using untouched, writes, overwrites, unread⟩

theorem wellFormed (h : Sound actions) : (Program.ofActions actions).WellFormed := by
  have same := Program.actions_ofActions actions
  constructor <;> rw [same]
  · exact fun v hv isLocal => h.startsDefined hv isLocal
  · intro v hv isLocal
    obtain ⟨k, name⟩ := h.temporaries v hv isLocal
    constructor
    · intro t made
      rw [name]
      exact (Tensor.name_ne_temporaryName made.identifier k).symm
    · intro w hw isGlobal
      rw [name]
      exact (h.tensors w hw isGlobal k).symm
  · exact h.layouts
  · exact h.operations
  · rfl

end Sound

/-! ### Elimination of copies -/

namespace CopyElimination

/-- The definitions of a temporary whose copy is removed leave the target of the copy alone. -/
theorem Removable.untouched {before : List Action} {copy : Action} {after : List Action}
    {source : Variable} (h : Removable before copy after source) {a : Action} (ha : a ∈ before)
    (writes : a.writes source.name = true) : a.touches copy.result.name = false := by
  obtain ⟨pre, first, rest, span⟩ := h.span
  rw [span.split, List.mem_append] at ha
  rcases ha with early | late
  · rw [span.unwritten a early] at writes
    cases writes
  · exact (span.free a late).2

theorem sound_removeAt {actions : List Action} (h : Sound actions) (position : Nat) :
    Sound (removeAt actions position) := by
  have keeps := keeps_removeAt position h.overwritten
  rcases removeAt_cases actions position with same | ⟨before, copy, after, source, rfl, rem, new⟩
  · rwa [same]
  rw [new] at keeps ⊢
  refine ⟨keeps.overwritten, ?_, fun v hv => h.temporaries v (keeps.sub v hv),
    fun v hv => h.tensors v (keeps.sub v hv), h.layouts.mono keeps.sub, ?_⟩
  · refine List.forall_mem_append.mpr ⟨fun a ha => ?_, fun a ha => h.unread a (by simp [ha])⟩
    obtain ⟨b, hb, rfl⟩ := List.mem_map.mp ha
    intro isLocal
    rw [retarget_reads]
    cases writes : b.writes source.name with
    | true =>
      rw [retarget_result copy writes]
      exact (Action.not_touches.mp (rem.untouched hb writes)).2
    | false =>
      rw [retarget_of_not_writes writes] at isLocal ⊢
      exact h.unread b (by simp [hb]) isLocal
  · refine List.forall_mem_append.mpr ⟨fun a ha => ?_, fun a ha => h.operations a (by simp [ha])⟩
    obtain ⟨b, hb, rfl⟩ := List.mem_map.mp ha
    intro l layout
    rw [retarget_term] at layout
    have laid := h.operations b (by simp [hb]) l layout
    cases writes : b.writes source.name with
    | true =>
      -- the definition has the layout of the temporary, which a copy has to share with its target
      have name : b.result.name = source.name := of_decide_eq_true writes
      have read := rem.mem_variablesOf
      have result : b.result ∈ variablesOf (before ++ copy :: after) :=
        mem_variablesOf.mpr ⟨b, by simp [hb], .inl rfl⟩
      have isLocal := h.isLocal_of_name read result rem.isLocal name
      rw [retarget_result copy writes, ← rem.layout, ← laid]
      exact h.layouts source read b.result result rem.isLocal isLocal name.symm
    | false =>
      rw [retarget_of_not_writes writes]
      exact laid

theorem sound_sweep {actions : List Action} (h : Sound actions) (position : Nat) :
    Sound (sweep actions position) := by
  induction position generalizing actions with
  | zero => exact h
  | succ position ih => exact ih (sound_removeAt h position)

end CopyElimination

/-! ### Ranges of temporaries -/

namespace Variable.InRange

variable {lo mid hi : Nat} {v w : Variable}

theorem exists_number (h : v.InRange lo hi) (isLocal : v.isLocal = true) :
    ∃ k, lo ≤ k ∧ k < hi ∧ v.name = temporaryName k := by
  cases h with
  | tensor isGlobal _ => simp [Variable.isLocal, isGlobal] at isLocal
  | temporary number least below _ name => exact ⟨number, least, below, name⟩

/-- A temporary of an earlier range has another name than all variables of a later one. -/
theorem name_ne_later (hv : v.InRange lo mid) (hw : w.InRange mid hi) (isLocal : v.isLocal = true) :
    v.name ≠ w.name := by
  obtain ⟨k, -, below, name⟩ := hv.exists_number isLocal
  rw [name]
  exact (hw.name_ne (.inl below)).symm

end Variable.InRange

/-- Variables of ranges next to each other. -/
theorem Coherent.append {lo mid hi : Nat} {vs ws : List Variable} (hv : Coherent vs)
    (hw : Coherent ws) (before : ∀ v ∈ vs, v.InRange lo mid) (after : ∀ w ∈ ws, w.InRange mid hi) :
    Coherent (vs ++ ws) := by
  intro v mv w mw lv lw same
  rcases List.mem_append.mp mv with mv | mv <;> rcases List.mem_append.mp mw with mw | mw
  · exact hv v mv w mw lv lw same
  · exact absurd same ((before v mv).name_ne_later (after w mw) lv)
  · exact absurd same.symm ((before w mw).name_ne_later (after v mv) lw)
  · exact hw v mv w mw lv lw same

/-! ### Lowering -/

/-- Actions with the temporaries of a range, all of which they define, and variables that hold
values after them. -/
structure Emitted (lo hi : Nat) (actions : List Action) (vs : List Variable) : Prop
    extends Segment lo hi actions where
  held : ∀ v ∈ vs, v.InRange lo hi
  layouts : Coherent (vs ++ variablesOf actions)
  unread : ∀ a ∈ actions, a.result.isLocal = true → a.reads a.result.name = false
  operations : ∀ a ∈ actions, ∀ l, a.term.layout? = some l → a.result.layout = l

namespace Emitted

variable {lo mid hi : Nat} {actions more : List Action} {vs ws : List Variable}

theorem all_inRange (h : Emitted lo hi actions vs) :
    ∀ v ∈ vs ++ variablesOf actions, v.InRange lo hi :=
  List.forall_mem_append.mpr ⟨h.held, h.inRange⟩

theorem sound (h : Emitted lo hi actions vs) : Sound actions where
  overwritten := h.temporariesOverwritten
  unread := h.unread
  temporaries v hv isLocal := by
    obtain ⟨k, -, -, name⟩ := (h.inRange v hv).exists_number isLocal
    exact ⟨k, name⟩
  tensors v hv isGlobal k := by
    cases h.inRange v hv with
    | tensor _ name => exact name k
    | temporary _ _ _ isLocal _ => rw [isGlobal] at isLocal; cases isLocal
  layouts := h.layouts.mono fun v hv => List.mem_append_right vs hv
  operations := h.operations

theorem nil (lo : Nat) : Emitted lo lo [] [] :=
  ⟨.nil lo, by simp, by simp [Coherent, variablesOf], by simp, by simp⟩

theorem tensor (lo : Nat) {v : Variable} (isGlobal : v.isGlobal = true)
    (name : ∀ k, v.name ≠ temporaryName k) : Emitted lo lo [] [v] := by
  refine ⟨.nil lo, by simpa using .tensor isGlobal name, ?_, by simp, by simp⟩
  simp [Coherent, variablesOf]

theorem forget (h : Emitted lo hi actions vs) : Emitted lo hi actions [] :=
  ⟨h.toSegment, by simp, h.layouts.mono fun v hv => List.mem_append_right vs hv, h.unread,
    h.operations⟩

theorem concat (h : Emitted lo mid actions vs) (k : Emitted mid hi more ws) :
    Emitted lo hi (actions ++ more) (vs ++ ws) := by
  refine ⟨h.toSegment.concat k.toSegment, ?_, ?_, ?_, ?_⟩
  · refine List.forall_mem_append.mpr ⟨fun v hv => ?_, fun v hv => ?_⟩
    · exact (h.held v hv).mono (Nat.le_refl lo) k.le
    · exact (k.held v hv).mono h.le (Nat.le_refl hi)
  · refine (h.layouts.append k.layouts h.all_inRange k.all_inRange).mono fun v hv => ?_
    simp only [variablesOf, List.flatMap_append, List.mem_append] at hv ⊢
    tauto
  · exact List.forall_mem_append.mpr ⟨h.unread, k.unread⟩
  · exact List.forall_mem_append.mpr ⟨h.operations, k.operations⟩

/-- Actions that define the next temporary from what there is. -/
theorem define (h : Emitted lo mid actions vs) {result : Variable}
    (isLocal : result.isGlobal = false) (name : result.name = temporaryName mid)
    (defined : DefinedFirst result.name more)
    (results : ∀ a ∈ more, a.result = result) (inputs : ∀ a ∈ more, ∀ v ∈ a.term.inputs, v ∈ vs)
    (operations : ∀ a ∈ more, ∀ l, a.term.layout? = some l → result.layout = l) :
    Emitted lo (mid + 1) (actions ++ more) [result] := by
  have next : result.InRange mid (mid + 1) :=
    .temporary mid (Nat.le_refl mid) (Nat.lt_succ_self mid) isLocal name
  have whole : result.InRange lo (mid + 1) := next.mono h.le (Nat.le_refl _)
  have used : ∀ v ∈ variablesOf more, v = result ∨ v ∈ vs := by
    intro v hv
    obtain ⟨a, ha, occurs⟩ := mem_variablesOf.mp hv
    exact occurs.imp (fun same => same.trans (results a ha)) (inputs a ha v)
  refine ⟨h.toSegment.append (Nat.le_succ mid) (fun v hv => ?_) (fun k least below => ?_),
    by simpa using whole, ?_, ?_, ?_⟩
  · rcases used v hv with rfl | held
    · exact whole
    · exact (h.held v held).mono (Nat.le_refl lo) (Nat.le_succ mid)
  · obtain rfl : k = mid := by omega
    exact name ▸ defined
  · have one : Coherent [result] := by simp [Coherent]
    refine (h.layouts.append one h.all_inRange (by simpa using next)).mono fun v hv => ?_
    simp only [variablesOf, List.flatMap_append, List.mem_append, List.mem_singleton] at hv ⊢
    rcases hv with same | old | new
    · exact .inr same
    · exact .inl (.inr old)
    · exact (used v new).elim .inr fun held => .inl (.inl held)
  · refine List.forall_mem_append.mpr ⟨h.unread, fun a ha _ => Action.not_reads.mpr fun v hv => ?_⟩
    rw [results a ha, name]
    exact (h.held v (inputs a ha v hv)).name_ne (.inr (Nat.le_refl mid))
  · refine List.forall_mem_append.mpr ⟨h.operations, fun a ha l layout => ?_⟩
    rw [results a ha]
    exact operations a ha l layout

/-- A copy into a variable from before the value was computed. -/
theorem assign {v w : Variable} (h : Emitted lo mid actions [v]) (k : Emitted mid hi more [w]) :
    Emitted lo hi (actions ++ more ++ [⟨v, .copy w, false, none⟩]) [v] := by
  have both := h.concat k
  have used : ∀ u ∈ variablesOf [⟨v, .copy w, false, none⟩], u ∈ [v] ++ [w] := by
    simp [variablesOf, Term.inputs]
  refine ⟨both.toSegment.append (Nat.le_refl hi) (fun u hu => both.held u (used u hu))
    (fun k least below => by omega), fun u hu => both.held u (List.mem_append_left _ hu),
    ?_, ?_, ?_⟩
  · refine both.layouts.mono fun u hu => ?_
    rw [variablesOf, List.flatMap_append, List.mem_append, List.mem_append] at hu
    rcases hu with first | old | new
    · exact List.mem_append_left _ (List.mem_append_left _ first)
    · exact List.mem_append_right _ old
    · exact List.mem_append_left _ (used u new)
  · refine List.forall_mem_append.mpr ⟨both.unread, fun a ha isLocal => ?_⟩
    obtain rfl := List.mem_singleton.mp ha
    refine Action.not_reads.mpr fun u hu => ?_
    rw [List.mem_singleton.mp hu]
    exact ((h.held v (by simp)).name_ne_later (k.held w (by simp)) isLocal).symm
  · refine List.forall_mem_append.mpr ⟨both.operations, fun a ha l layout => ?_⟩
    obtain rfl := List.mem_singleton.mp ha
    cases layout

end Emitted

namespace Lowering

/-- What a step has appended when it leaves the given variables. -/
def Appends (s t : Lowering) (vs : List Variable) : Prop :=
  ∃ as, t.actions = s.actions ++ as ∧ Emitted s.next t.next as vs

theorem Appends.trans {s r t : Lowering} {vs ws : List Variable} (h : Appends s r vs)
    (k : Appends r t ws) : Appends s t (vs ++ ws) := by
  obtain ⟨as, appended, emitted⟩ := h
  obtain ⟨bs, appended', emitted'⟩ := k
  exact ⟨as ++ bs, by rw [appended', appended, List.append_assoc], emitted.concat emitted'⟩

theorem Appends.define {s r t : Lowering} {vs : List Variable} {result : Variable}
    {more : List Action} (h : Appends s r vs) (takes : Takes r result more t)
    (defined : DefinedFirst result.name more) (results : ∀ a ∈ more, a.result = result)
    (inputs : ∀ a ∈ more, ∀ v ∈ a.term.inputs, v ∈ vs)
    (operations : ∀ a ∈ more, ∀ l, a.term.layout? = some l → result.layout = l) :
    Appends s t [result] := by
  obtain ⟨as, appended, emitted⟩ := h
  obtain ⟨isLocal, -, name, rfl⟩ := takes
  exact ⟨as ++ more, by rw [appended, List.append_assoc],
    emitted.define isLocal name defined results inputs operations⟩

/-- One action with what there is. -/
theorem Appends.define_one {s r t : Lowering} {vs : List Variable} {result : Variable} {term : Term}
    {factor : Option Factor} (h : Appends s r vs)
    (takes : Takes r result [⟨result, term, false, factor⟩] t)
    (inputs : ∀ v ∈ term.inputs, v ∈ vs) (layout : ∀ l, term.layout? = some l → result.layout = l) :
    Appends s t [result] := by
  let a : Action := ⟨result, term, false, factor⟩
  refine h.define takes (definedFirst_cons (a := a) rfl) ?_ ?_ ?_
  · simp
  · simpa using inputs
  · simpa using layout

theorem appends_of_lowersAll {cs : List Node}
    (each : ∀ c ∈ cs, ∀ s v t, Yields c.lower s v t → Appends s t [v]) {s t : Lowering}
    {vs : List Variable} (h : LowersAll cs s vs t) : Appends s t vs := by
  induction h with
  | nil s => exact ⟨[], (List.append_nil _).symm, .nil s.next⟩
  | cons lowered _ ih =>
    obtain ⟨first, rest⟩ := List.forall_mem_cons.mp each
    exact (first _ _ _ lowered).trans (ih rest)

/-- The actions of a tree use its tensors and temporaries of their own, whatever the tree looks
like. -/
theorem appends_of_lower {n : Node}
    (made : n.Everywhere fun x => ∀ t, x.kind = .leaf t → t.Constructed)
    {s t : Lowering} {v : Variable} (h : Yields n.lower s v t) : Appends s t [v] := by
  induction n using Node.induction generalizing s v t with
  | node kind indices pattern layout prefetch children ih =>
    have each : ∀ c ∈ children, ∀ s v t, Yields c.lower s v t → Appends s t [v] := by
      intro c hc s v t h
      exact ih c hc (made.children c hc) h
    have done := lower_cases h
    cases kind with
    | leaf tensor =>
      obtain ⟨isGlobal, name, -, rfl⟩ := done
      have apart := Tensor.name_ne_temporaryName (made.root tensor rfl).identifier
      exact ⟨[], (List.append_nil _).symm, .tensor s.next isGlobal (name ▸ apart)⟩
    | einsum => exact done.elim
    | add =>
      obtain ⟨vs, r, lowered, some_operand, takes⟩ := done
      have order := summationOrder_perm vs
      have nonempty : summationOrder vs ≠ [] := by
        intro empty
        exact some_operand (List.nil_perm.mp (empty ▸ order))
      refine (appends_of_lowersAll each lowered).define takes (definedFirst_additions nonempty)
        (fun a ha => (mem_additions ha).1) (fun a ha w hw => ?_) fun a ha l layout => ?_
      · exact order.mem_iff.mp (mem_of_input_of_additions ha hw)
      · obtain ⟨-, w, -, copy⟩ := mem_additions ha
        rw [copy] at layout
        cases layout
    | scale factor =>
      obtain ⟨term, rest, w, r, operands, lowered, takes⟩ := done
      obtain rfl : children = term :: rest := operands
      exact (each term List.mem_cons_self s w r lowered).define_one takes (by simp [Term.inputs])
        (by simp [Term.layout?])
    | indexSum | product | contraction | gemm =>
      obtain ⟨vs, r, lowered, takes⟩ := done
      exact (appends_of_lowersAll each lowered).define_one takes (by simp [Term.inputs])
        (by simp [Term.layout?])
    | assign =>
      obtain ⟨target, value, r, q, w, u, operands, actions, next, -, first, second, rfl⟩ := done
      obtain rfl : children = [target, value] := operands
      obtain ⟨as, appended, emitted⟩ := each target (by simp) r v q first
      obtain ⟨bs, appended', emitted'⟩ := each value (by simp) q w u second
      refine ⟨as ++ bs ++ [⟨v, .copy w, false, none⟩], ?_, next ▸ emitted.assign emitted'⟩
      rw [appended', appended, actions, List.append_assoc, List.append_assoc, List.append_assoc]

end Lowering

/-! ### Kernels -/

namespace Kernel

open Lowering

theorem appends_of_lowerFrom {nodes : List Node}
    (made : ∀ m ∈ nodes, m.Everywhere fun x => ∀ t, x.kind = .leaf t → t.Constructed)
    {name : String} {position : Nat} {a b : Lowering}
    (h : lowerFrom name a position nodes = .ok b) : Appends a b [] := by
  induction nodes generalizing position a with
  | nil =>
    obtain rfl := pure_eq_ok.mp h
    exact ⟨[], (List.append_nil _).symm, .nil a.next⟩
  | cons m nodes ih =>
    obtain ⟨first, later⟩ := List.forall_mem_cons.mp made
    obtain ⟨v, r, step, rest⟩ := lowerFrom_cons_eq_ok h
    obtain ⟨as, appended, emitted⟩ := appends_of_lower first step
    have one : Appends a r [] := ⟨as, appended, emitted.forget⟩
    exact one.trans (ih later rest)

/-- The programs of a kernel are well formed, whatever its statements are made of: the one that is
lowered, the one from which copies have been eliminated, and with them the one that is compiled. -/
theorem programs_wellFormed {statements : List Node} (assembled : ∀ n ∈ statements, n.Assembled)
    {name : String} {config : Config} {k : Kernel}
    (accepted : ofStatements name statements config = .ok k) :
    ∃ lowered, lowerFrom k.name (.start k.config.simpleLayouts) 0 k.statements = .ok lowered ∧
      lowered.program.WellFormed ∧ (CopyElimination.run lowered.program).WellFormed ∧
      ∀ p, k.program = .ok p → p.WellFormed := by
  obtain ⟨-, -, each⟩ := ofStatements_eq_ok accepted
  have made : ∀ m ∈ k.statements, m.Everywhere fun x => ∀ t, x.kind = .leaf t → t.Constructed := by
    intro m hm
    obtain ⟨n, hn, prepared⟩ := exists_of_forall₂_right each hm
    have tensors := (assembled n hn).rooted.mono fun x rooted => rooted.made
    obtain ⟨assign, operands⟩ :=
      Node.prepare_operands (Node.ofKind_tensors _) prepared tensors.children
    exact Node.everywhere_iff.mpr ⟨by simp [assign], operands⟩
  obtain ⟨lowered, done⟩ :=
    lowerFrom_of_prepared assembled each k.name 0 (.start k.config.simpleLayouts)
  obtain ⟨as, appended, emitted⟩ := appends_of_lowerFrom made done
  have plain : Sound lowered.actions := by
    rw [appended]
    exact emitted.sound
  have eliminated : (CopyElimination.run lowered.program).WellFormed := by
    rw [CopyElimination.run, Lowering.program, Program.actions_ofActions]
    exact (CopyElimination.sound_sweep plain _).wellFormed
  refine ⟨lowered, done, plain.wellFormed, eliminated, fun p compiled => ?_⟩
  obtain ⟨lowered', done', rfl⟩ := program_eq_ok compiled
  obtain rfl := Except.ok.inj (done.symm.trans done')
  split
  · exact eliminated
  · exact plain.wellFormed

/-- The statement `C_ij = s A_ik B_kj - C_ij`, whose target is an operand. -/
def reduced : Result Node := do
  let s ← Factor.ofName "s"
  let a ← Node.indexed (← Tensor.ofName "A" [2, 3]) ['i', 'k']
  let b ← Node.indexed (← Tensor.ofName "B" [3, 2]) ['k', 'j']
  let c ← Node.indexed (← Tensor.ofName "C" [2, 2]) ['i', 'j']
  let product ← a.times (.node b)
  let scaled ← product.times (.factor s)
  c.assign (.node (← scaled.minus (.node c)))

theorem assembled_reduced {n : Node} (h : reduced = .ok n) : n.Assembled := by
  simp only [reduced, bind_eq_ok] at h
  obtain ⟨s, -, _, madeA, a, ha, _, madeB, b, hb, _, madeC, c, hc, product, multiplied, scaled,
    factor, value, subtracted, done⟩ := h
  have left := Node.Assembled.indexed (.ofName madeA) ha
  have right := Node.Assembled.indexed (.ofName madeB) hb
  have target := Node.Assembled.indexed (.ofName madeC) hc
  have whole := Node.Assembled.times left (by simpa using right) multiplied
  have weighted := Node.Assembled.times whole (by simp) factor
  have difference := Node.Assembled.minus weighted (by simpa using target) subtracted
  exact .assign target (by simpa using difference) done

theorem texts_reduced : (do
      let k ← ofStatements "reduce" [← Outcome.ofResult reduced] .standard
      let lowered ← lowerFrom k.name (.start k.config.simpleLayouts) 0 k.statements
      return (lowered.program.actions.map Action.text,
        (CopyElimination.run lowered.program).actions.map Action.text)) = .ok
    (["_tmp0 = LoopOverGEMM(A, B)", "_tmp1 = s * _tmp0", "_tmp2 = -1.0 * C", "_tmp3 = _tmp1",
        "_tmp3 += _tmp2", "C = _tmp3"],
      ["_tmp1 = s * LoopOverGEMM(A, B)", "_tmp2 = -1.0 * C", "C = _tmp1", "C += _tmp2"]) :=
  eq_ok_of_toOption (by decide +kernel)

theorem programs_wellFormed_reduced : ∃ n k lowered, reduced = .ok n ∧ n.Assembled ∧
    ofStatements "reduce" [n] .standard = .ok k ∧
    lowerFrom k.name (.start k.config.simpleLayouts) 0 k.statements = .ok lowered ∧
    lowered.program.WellFormed ∧ lowered.program.actions.length = 6 ∧
    (CopyElimination.run lowered.program).WellFormed ∧
    (CopyElimination.run lowered.program).actions.length = 4 := by
  have texts := texts_reduced
  simp only [bind_eq_ok, pure_eq_ok, Outcome.ofResult, mapError_eq_ok, Prod.mk.injEq] at texts
  obtain ⟨n, built, k, accepted, lowered, done, plain, eliminated⟩ := texts
  have assembled := assembled_reduced built
  obtain ⟨lowered', done', sound, sound', -⟩ :=
    programs_wellFormed (by simpa using assembled) accepted
  obtain rfl := Except.ok.inj (done.symm.trans done')
  refine ⟨n, k, lowered, built, assembled, accepted, done, sound, ?_, sound', ?_⟩
  · simpa using congrArg List.length plain
  · simpa using congrArg List.length eliminated

end Kernel

end TensorKernel
