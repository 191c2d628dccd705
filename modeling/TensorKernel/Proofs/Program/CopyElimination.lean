import Mathlib.Data.List.TakeWhile
import TensorKernel.Proofs.Program.Run
import TensorKernel.Program.CopyElimination

/-!
Elimination of copies keeps what a program computes.

* `value_retarget`, `follows_run`: from its first definition on, a temporary whose definitions write
  the target of its copy is followed by the target, value for value;
* `run_removed`: one removal changes no store except at the temporary;
* `overwritten_removed`: after a removal each temporary is still overwritten where it occurs first;
* `eliminated_run`: a whole run of the pass.
-/

namespace TensorKernel

def variablesOf (actions : List Action) : List Variable :=
  actions.flatMap fun a => a.result :: a.term.inputs

/-- Whether the first action that touches a name overwrites it. -/
def overwrittenFirst (name : String) (actions : List Action) : Bool :=
  (actions.find? (·.touches name)).all fun a => a.writes name && !a.add

/-- Whether each temporary occurs first as the result of an action that overwrites it. -/
def temporariesOverwritten (actions : List Action) : Bool :=
  (variablesOf actions).all fun v => v.isGlobal || overwrittenFirst v.name actions

/-- Whether each name is that of temporaries only or that of tensors only. -/
def namesApart (actions : List Action) : Bool :=
  (variablesOf actions).all fun v =>
    (variablesOf actions).all fun w => v.name ≠ w.name || v.isLocal = w.isLocal

theorem overwrittenFirst_iff {name : String} {actions : List Action} :
    overwrittenFirst name actions = true ↔
      ∀ a, actions.find? (·.touches name) = some a → a.writes name = true ∧ a.add = false := by
  cases found : actions.find? (·.touches name) <;> simp [overwrittenFirst, found]

theorem temporariesOverwritten_iff {actions : List Action} :
    temporariesOverwritten actions = true ↔
      ∀ v ∈ variablesOf actions, v.isLocal = true → overwrittenFirst v.name actions = true := by
  simp only [temporariesOverwritten, List.all_eq_true, Bool.or_eq_true, Variable.isLocal,
    Bool.not_eq_true', or_iff_not_imp_left, Bool.not_eq_true]

theorem mem_variablesOf {v : Variable} {actions : List Action} :
    v ∈ variablesOf actions ↔ ∃ a ∈ actions, v = a.result ∨ v ∈ a.term.inputs := by
  simp [variablesOf]

namespace CopyElimination

/-- What it takes to remove a copy of `source`. -/
structure Removable (before : List Action) (copy : Action) (after : List Action)
    (source : Variable) : Prop where
  term : copy.term = .copy source
  overwrites : copy.add = false
  isLocal : source.isLocal = true
  layout : source.layout = copy.result.layout
  unused : ∀ a ∈ after, a.touches source.name = false
  defined : ∃ a ∈ before, a.writes source.name = true
  free : spanIsFree before source.name copy.result.name = true
  scaled : copy.factor = none ∨ isPlainlyDefined before source.name = true

theorem removable?_eq_some {before : List Action} {copy : Action} {after : List Action}
    {source : Variable} (h : removable? before copy after = some source) :
    Removable before copy after source := by
  unfold removable? at h
  cases term : copy.term with
  | operation node layout operands => simp [term] at h
  | copy v =>
    simp only [term, Option.ite_none_right_eq_some, Option.some.injEq, Bool.and_eq_true,
      Bool.not_eq_true', List.all_eq_true, List.any_eq_true, Bool.or_eq_true, decide_eq_true_eq,
      Option.isNone_iff_eq_none] at h
    obtain ⟨⟨⟨⟨⟨⟨⟨add, isLocal⟩, layout⟩, unused⟩, defined⟩, free⟩, scaled⟩, rfl⟩ := h
    exact ⟨term, add, isLocal, layout, unused, defined, free, scaled⟩

/-- Actions split where a name is written first. -/
theorem split_at_definition {actions : List Action} {name : String}
    (h : ∃ a ∈ actions, a.writes name = true) :
    ∃ pre first rest, actions = pre ++ first :: rest ∧ first.writes name = true ∧
      (∀ a ∈ pre, a.writes name = false) ∧
      actions.dropWhile (fun a => !a.writes name) = first :: rest := by
  have split := List.takeWhile_append_dropWhile (p := fun a : Action => !a.writes name) (l := actions)
  cases drop : actions.dropWhile (fun a => !a.writes name) with
  | nil =>
    obtain ⟨a, mem, writes⟩ := h
    have := List.dropWhile_eq_nil_iff.mp drop a mem
    simp [writes] at this
  | cons first rest =>
    have writes := List.head?_dropWhile_not (fun a : Action => !a.writes name) actions
    rw [drop] at split writes
    refine ⟨_, first, rest, split.symm, by simpa using writes, ?_, rfl⟩
    intro a ha
    simpa using List.mem_takeWhile_imp ha

section
variable {V : Type} (m : Machine V)

/-- The target of a removed copy has the scaled value of the temporary, and all other names have
the same value. -/
structure Follows (copy : Action) (source : String) (σ τ : Store V) : Prop where
  target : τ copy.result.name = m.scaledBy copy.factor (σ source)
  others : ∀ x, x ≠ source → x ≠ copy.result.name → τ x = σ x

theorem retarget_of_not_writes {copy : Action} {source : String} {a : Action}
    (h : a.writes source = false) : retarget copy source a = a := by
  simp [retarget, h]

theorem retarget_result (copy : Action) {source : String} {a : Action}
    (h : a.writes source = true) : (retarget copy source a).result = copy.result := by
  simp [retarget, h]

@[simp] theorem retarget_term (copy : Action) (source : String) (a : Action) :
    (retarget copy source a).term = a.term := by
  unfold retarget
  split <;> rfl

@[simp] theorem retarget_add (copy : Action) (source : String) (a : Action) :
    (retarget copy source a).add = a.add := by
  unfold retarget
  split <;> rfl

@[simp] theorem retarget_reads (copy : Action) (source : String) (a : Action) (name : String) :
    (retarget copy source a).reads name = a.reads name := by
  simp [Action.reads]

/-- A definition computes the same value after it was moved to the target, scaled by the factor
that the copy had. -/
theorem value_retarget {copy : Action} {source : String} {a : Action} {σ τ : Store V}
    (writes : a.writes source = true)
    (factor : copy.factor = none ∨ a.factor = none)
    (same : a.value m σ = a.value m τ) :
    (retarget copy source a).value m τ = m.scaledBy copy.factor (a.value m σ) := by
  rw [same]
  cases scaled : copy.factor with
  | none => simp [retarget, writes, scaled, Action.value, Machine.scaledBy]
  | some s =>
    have plain : a.factor = none := factor.resolve_left (by simp [scaled])
    simp [retarget, writes, scaled, plain, Action.value, Machine.scaledBy]

/-- The first definition starts the span: it overwrites the target instead of the temporary. -/
theorem follows_first {copy : Action} {source : String} {first : Action} (σ : Store V)
    (writes : first.writes source = true) (overwrites : first.add = false)
    (ne : source ≠ copy.result.name) (factor : copy.factor = none ∨ first.factor = none) :
    Follows m copy source (first.run m σ) ((retarget copy source first).run m σ) := by
  have moved := retarget_result copy writes
  obtain rfl : first.result.name = source := by simpa [Action.writes] using writes
  constructor
  · have value := value_retarget m writes factor (rfl : first.value m σ = first.value m σ)
    have kept : first.run m σ first.result.name = first.value m σ := by
      rw [Action.run_result, overwrites]
      rfl
    rw [← moved, Action.run_result, retarget_add, overwrites, value, kept]
    rfl
  · intro x hs ht
    rw [Action.run_of_ne m σ hs, Action.run_of_ne m σ (moved ▸ ht)]

/-- One step of the span between the first definition and the copy. -/
theorem follows_step {copy : Action} {source : String} {a : Action} {σ τ : Store V}
    (follows : Follows m copy source σ τ)
    (reads : a.reads source = false) (touches : a.touches copy.result.name = false)
    (plain : copy.factor = none ∨ a.writes source = false) :
    Follows m copy source (a.run m σ) ((retarget copy source a).run m τ) := by
  obtain ⟨apart, unread⟩ := Action.not_touches.mp touches
  have same : a.value m σ = a.value m τ := by
    refine Action.value_congr m fun v hv => (follows.others v.name ?_ ?_).symm
    · exact Action.not_reads.mp reads v hv
    · exact Action.not_reads.mp unread v hv
  cases writes : a.writes source with
  | false =>
    rw [retarget_of_not_writes writes]
    have result : a.result.name ≠ source := by simpa [Action.writes] using writes
    constructor
    · rw [Action.run_of_ne m τ apart.symm, Action.run_of_ne m σ result.symm]
      exact follows.target
    · intro x hs ht
      by_cases written : x = a.result.name
      · subst written
        rw [Action.run_result, Action.run_result, same, follows.others _ hs ht]
      · rw [Action.run_of_ne m σ written, Action.run_of_ne m τ written]
        exact follows.others x hs ht
  | true =>
    have unscaled : copy.factor = none := plain.resolve_right (by simp [writes])
    have moved : (retarget copy source a).result = copy.result := retarget_result copy writes
    have value := value_retarget m writes (.inl unscaled) same
    have target := follows.target
    obtain rfl : a.result.name = source := by simpa [Action.writes] using writes
    constructor
    · rw [unscaled] at value target ⊢
      rw [← moved, Action.run_result, moved, Action.run_result, retarget_add, value, target]
      rfl
    · intro x hs ht
      rw [Action.run_of_ne m σ hs, Action.run_of_ne m τ (moved ▸ ht)]
      exact follows.others x hs ht

theorem follows_run {copy : Action} {source : String} {span : List Action} {σ τ : Store V}
    (follows : Follows m copy source σ τ)
    (free : ∀ a ∈ span, a.reads source = false ∧ a.touches copy.result.name = false)
    (plain : copy.factor = none ∨ ∀ a ∈ span, a.writes source = false) :
    Follows m copy source (runActions m σ span)
      (runActions m τ (span.map (retarget copy source))) := by
  induction span generalizing σ τ with
  | nil => exact follows
  | cons a as ih =>
    obtain ⟨reads, touches⟩ := free a List.mem_cons_self
    rw [List.map_cons, runActions_cons, runActions_cons]
    apply ih
    · exact follows_step m follows reads touches (plain.imp id fun h => h a List.mem_cons_self)
    · exact fun b hb => free b (List.mem_cons_of_mem a hb)
    · exact plain.imp id fun h b hb => h b (List.mem_cons_of_mem a hb)

structure Span (before : List Action) (copy : Action) (source : String)
    (pre : List Action) (first : Action) (rest : List Action) : Prop where
  split : before = pre ++ first :: rest
  writes : first.writes source = true
  unwritten : ∀ a ∈ pre, a.writes source = false
  free : ∀ a ∈ first :: rest, a.reads source = false ∧ a.touches copy.result.name = false
  plain : copy.factor = none ∨ first.factor = none ∧ ∀ a ∈ rest, a.writes source = false

theorem Removable.span {before : List Action} {copy : Action} {after : List Action}
    {source : Variable} (h : Removable before copy after source) :
    ∃ pre first rest, Span before copy source.name pre first rest := by
  obtain ⟨pre, first, rest, split, writes, unwritten, drop⟩ := split_at_definition h.defined
  refine ⟨pre, first, rest, split, writes, unwritten, ?_, ?_⟩
  · have free := h.free
    rw [spanIsFree, drop, List.all_eq_true] at free
    intro a ha
    simpa using free a ha
  · refine h.scaled.imp id fun plain => ?_
    have filtered : before.filter (·.writes source.name) =
        first :: rest.filter (·.writes source.name) := by
      rw [split, List.filter_append, List.filter_eq_nil_iff.mpr (by simpa using unwritten),
        List.nil_append, List.filter_cons_of_pos (by exact writes)]
    rw [isPlainlyDefined, filtered] at plain
    cases more : rest.filter (·.writes source.name) with
    | nil =>
      rw [more] at plain
      simp only [Bool.and_eq_true, Option.isNone_iff_eq_none] at plain
      exact ⟨plain.2, by simpa using List.filter_eq_nil_iff.mp more⟩
    | cons a as =>
      rw [more] at plain
      simp at plain

theorem Span.source_ne_target {before : List Action} {copy : Action} {source : String}
    {pre : List Action} {first : Action} {rest : List Action}
    (span : Span before copy source pre first rest) : source ≠ copy.result.name := by
  intro same
  have untouched := (span.free first List.mem_cons_self).2
  have writes := span.writes
  simp [← same, Action.touches, writes] at untouched

/-- Where a name is overwritten first, no earlier action touches it. -/
theorem first_overwrites {name : String} {pre rest : List Action} {first : Action}
    (overwritten : overwrittenFirst name (pre ++ first :: rest) = true)
    (writes : first.writes name = true) (unwritten : ∀ a ∈ pre, a.writes name = false) :
    first.add = false ∧ ∀ a ∈ pre, a.touches name = false := by
  rw [overwrittenFirst_iff] at overwritten
  cases found : pre.find? (·.touches name) with
  | some a =>
    have := (overwritten a (by simp [List.find?_append, found])).1
    rw [unwritten a (List.mem_of_find?_eq_some found)] at this
    cases this
  | none =>
    have touches : first.touches name = true := by simp [Action.touches, writes]
    refine ⟨(overwritten first (by simp [List.find?_append, found, touches])).2, ?_⟩
    simpa using List.find?_eq_none.mp found

theorem map_retarget_eq {copy : Action} {source : String} {pre : List Action}
    (unwritten : ∀ a ∈ pre, a.writes source = false) : pre.map (retarget copy source) = pre :=
  calc
    pre.map (retarget copy source) = pre.map id :=
      List.map_congr_left fun a ha => retarget_of_not_writes (unwritten a ha)
    _ = pre := List.map_id pre

/-- Without the copy, the store is the same except at the temporary. -/
theorem run_removed {before : List Action} {copy : Action} {after : List Action}
    {source : Variable} (h : Removable before copy after source)
    (overwritten : overwrittenFirst source.name (before ++ copy :: after) = true) (σ : Store V) :
    AgreeOff source.name (runActions m σ (before ++ copy :: after))
      (runActions m σ (before.map (retarget copy source.name) ++ after)) := by
  obtain ⟨pre, first, rest, span⟩ := h.span
  rw [span.split, List.append_assoc, List.cons_append] at overwritten
  have overwrites := (first_overwrites overwritten span.writes span.unwritten).1
  have start := follows_first m (runActions m σ pre) span.writes overwrites span.source_ne_target
    (span.plain.imp id And.left)
  have finish := follows_run m start (fun a ha => span.free a (List.mem_cons_of_mem first ha))
    (span.plain.imp id And.right)
  rw [span.split, List.map_append, map_retarget_eq span.unwritten, List.map_cons,
    runActions_append, runActions_append, runActions_append, runActions_append, runActions_cons,
    runActions_cons, runActions_cons]
  apply runActions_agreeOff m h.unused
  intro x hx
  by_cases target : x = copy.result.name
  · rw [target, Action.run_result, h.overwrites, finish.target, Action.value, h.term]
    rfl
  · rw [Action.run_of_ne m _ target, finish.others x hx target]

end

/-- Nothing touches the temporary of a removed copy any more. -/
theorem removed_untouched {before : List Action} {copy : Action} {after : List Action}
    {source : Variable} (h : Removable before copy after source)
    (overwritten : overwrittenFirst source.name (before ++ copy :: after) = true) :
    ∀ a ∈ before.map (retarget copy source.name) ++ after, a.touches source.name = false := by
  obtain ⟨pre, first, rest, span⟩ := h.span
  have split := span.split
  rw [split, List.append_assoc, List.cons_append] at overwritten
  have untouched := (first_overwrites overwritten span.writes span.unwritten).2
  intro a ha
  rcases List.mem_append.mp ha with ha | ha
  · obtain ⟨b, hb, rfl⟩ := List.mem_map.mp ha
    rw [Action.not_touches, retarget_reads]
    cases writes : b.writes source.name with
    | true =>
      rw [split] at hb
      rcases List.mem_append.mp hb with hb | hb
      · rw [span.unwritten b hb] at writes
        cases writes
      · rw [retarget_result copy writes]
        exact ⟨span.source_ne_target.symm, (span.free b hb).1⟩
    | false =>
      rw [retarget_of_not_writes writes]
      refine ⟨by simpa [Action.writes] using writes, ?_⟩
      rw [split] at hb
      rcases List.mem_append.mp hb with hb | hb
      · exact (Action.not_touches.mp (untouched b hb)).2
      · exact (span.free b hb).1
  · exact h.unused a ha

/-- The target of a removed copy is overwritten where it occurs first: before the definitions of the
temporary as it was, or else by the first of them. -/
theorem overwritten_target {before : List Action} {copy : Action} {after : List Action}
    {source : Variable} (h : Removable before copy after source)
    (defined : overwrittenFirst source.name (before ++ copy :: after) = true)
    (overwritten : overwrittenFirst copy.result.name (before ++ copy :: after) = true) :
    overwrittenFirst copy.result.name (before.map (retarget copy source.name) ++ after) = true := by
  rw [overwrittenFirst_iff] at overwritten ⊢
  intro a found
  obtain ⟨pre, first, rest, span⟩ := h.span
  rw [span.split, List.map_append, map_retarget_eq span.unwritten, List.map_cons,
    List.append_assoc, List.find?_append] at found
  cases early : pre.find? (·.touches copy.result.name) with
  | some b =>
    obtain rfl : b = a := by simpa [early] using found
    exact overwritten b (by simp [span.split, List.find?_append, early])
  | none =>
    have moved := retarget_result copy span.writes
    have touches : (retarget copy source.name first).touches copy.result.name = true := by
      simp [Action.touches, Action.writes, moved]
    obtain rfl : retarget copy source.name first = a := by
      simpa [early, touches] using found
    rw [span.split, List.append_assoc, List.cons_append] at defined
    exact ⟨by simp [Action.writes, moved],
      by simp [first_overwrites defined span.writes span.unwritten]⟩

/-- A removal does not change which actions touch a name that is neither the temporary nor the
target. -/
theorem retarget_touches {copy : Action} {source name : String} (gone : name ≠ source)
    (target : name ≠ copy.result.name) (b : Action) :
    (retarget copy source b).touches name = b.touches name := by
  cases writes : b.writes source with
  | false => rw [retarget_of_not_writes writes]
  | true =>
    have result : b.result.name = source := by simpa [Action.writes] using writes
    simp [Action.touches, Action.writes, retarget_result copy writes, result, Ne.symm gone,
      Ne.symm target]

theorem overwritten_other {before : List Action} {copy : Action} {after : List Action}
    {source : Variable} (h : Removable before copy after source) {name : String}
    (gone : name ≠ source.name) (target : name ≠ copy.result.name)
    (overwritten : overwrittenFirst name (before ++ copy :: after) = true) :
    overwrittenFirst name (before.map (retarget copy source.name) ++ after) = true := by
  rw [overwrittenFirst_iff] at overwritten ⊢
  intro a found
  have skipped : copy.touches name = false := by
    rw [Action.not_touches, Action.reads, h.term]
    exact ⟨Ne.symm target, by simp [Term.inputs, Ne.symm gone]⟩
  have same : (before ++ copy :: after).find? (·.touches name) =
      (before ++ after).find? (·.touches name) := by
    simp [List.find?_append, skipped]
  rw [List.find?_append, List.find?_map] at found
  rw [same, List.find?_append] at overwritten
  simp only [Function.comp_def, retarget_touches gone target] at found
  cases early : before.find? (·.touches name) with
  | some b =>
    rw [early] at found overwritten
    obtain rfl : retarget copy source.name b = a := by simpa using found
    obtain ⟨writes, add⟩ := overwritten b rfl
    have result : b.result.name = name := by simpa [Action.writes] using writes
    have kept : b.writes source.name = false := by simp [Action.writes, result, gone]
    rw [retarget_of_not_writes kept]
    exact ⟨writes, add⟩
  | none =>
    rw [early] at found overwritten
    exact overwritten a (by simpa using found)

/-- A removal keeps every name overwritten where it occurs first. -/
theorem overwritten_removed {before : List Action} {copy : Action} {after : List Action}
    {source : Variable} (h : Removable before copy after source)
    (defined : overwrittenFirst source.name (before ++ copy :: after) = true) {name : String}
    (overwritten : overwrittenFirst name (before ++ copy :: after) = true) :
    overwrittenFirst name (before.map (retarget copy source.name) ++ after) = true := by
  by_cases gone : name = source.name
  · subst gone
    rw [overwrittenFirst_iff]
    intro a found
    have untouched := removed_untouched h defined a (List.mem_of_find?_eq_some found)
    rw [List.find?_some found] at untouched
    cases untouched
  · by_cases target : name = copy.result.name
    · subst target
      exact overwritten_target h defined overwritten
    · exact overwritten_other h gone target overwritten

/-- A position holds a copy that is removed, or nothing happens. -/
theorem removeAt_cases (actions : List Action) (position : Nat) :
    removeAt actions position = actions ∨
      ∃ before copy after source, actions = before ++ copy :: after ∧
        Removable before copy after source ∧
        removeAt actions position = before.map (retarget copy source.name) ++ after := by
  unfold removeAt
  cases drop : actions.drop position with
  | nil => exact .inl rfl
  | cons copy after =>
    cases found : removable? (actions.take position) copy after with
    | none => exact .inl (by simp [found])
    | some source =>
      refine .inr ⟨actions.take position, copy, after, source, ?_, removable?_eq_some found, ?_⟩
      · rw [← drop, List.take_append_drop]
      · simp [found]

/-- What a pass keeps, from the actions before it to those after it. -/
structure Keeps (old new : List Action) : Prop where
  overwritten : temporariesOverwritten new = true
  sub : ∀ v ∈ variablesOf new, v ∈ variablesOf old
  run : ∀ {V : Type} (m : Machine V) (σ : Store V) (name : String),
    (∀ v ∈ variablesOf old, v.name = name → v.isGlobal = true) →
      runActions m σ new name = runActions m σ old name

theorem Removable.mem_variablesOf {before : List Action} {copy : Action} {after : List Action}
    {source : Variable} (h : Removable before copy after source) :
    source ∈ variablesOf (before ++ copy :: after) := by
  rw [TensorKernel.mem_variablesOf]
  refine ⟨copy, by simp, .inr ?_⟩
  rw [h.term]
  exact List.mem_singleton.mpr rfl

/-- A removal brings in no variables. -/
theorem variablesOf_removed {before : List Action} {copy : Action} {after : List Action}
    {source : String} {v : Variable}
    (hv : v ∈ variablesOf (before.map (retarget copy source) ++ after)) :
    v ∈ variablesOf (before ++ copy :: after) := by
  obtain ⟨a, ha, occurs⟩ := mem_variablesOf.mp hv
  rw [mem_variablesOf]
  rcases List.mem_append.mp ha with ha | ha
  · obtain ⟨b, hb, rfl⟩ := List.mem_map.mp ha
    rw [retarget_term] at occurs
    cases writes : b.writes source with
    | true =>
      rw [retarget_result copy writes] at occurs
      rcases occurs with result | input
      · exact ⟨copy, by simp, .inl result⟩
      · exact ⟨b, by simp [hb], .inr input⟩
    | false =>
      rw [retarget_of_not_writes writes] at occurs
      exact ⟨b, by simp [hb], occurs⟩
  · exact ⟨a, by simp [ha], occurs⟩

theorem keeps_removeAt {actions : List Action} (position : Nat)
    (h : temporariesOverwritten actions = true) : Keeps actions (removeAt actions position) := by
  rcases removeAt_cases actions position with same | ⟨before, copy, after, source, rfl, rem, new⟩
  · rw [same]
    exact ⟨h, fun _ hv => hv, fun _ _ _ _ => rfl⟩
  rw [new]
  rw [temporariesOverwritten_iff] at h
  have read := rem.mem_variablesOf
  have defined := h source read rem.isLocal
  constructor
  · rw [temporariesOverwritten_iff]
    intro v hv isLocal
    exact overwritten_removed rem defined (h v (variablesOf_removed hv) isLocal)
  · intro v hv
    exact variablesOf_removed hv
  · intro V m σ name isGlobal
    refine (run_removed m rem defined σ name ?_).symm
    rintro rfl
    have isLocal := rem.isLocal
    simp [Variable.isLocal, isGlobal source read rfl] at isLocal

theorem Keeps.trans {as bs cs : List Action} (h : Keeps as bs) (k : Keeps bs cs) : Keeps as cs where
  overwritten := k.overwritten
  sub v hv := h.sub v (k.sub v hv)
  run m σ name isGlobal := by
    rw [k.run m σ name fun v hv => isGlobal v (h.sub v hv), h.run m σ name isGlobal]

theorem keeps_sweep {actions : List Action} (position : Nat)
    (h : temporariesOverwritten actions = true) : Keeps actions (sweep actions position) := by
  induction position generalizing actions with
  | zero => exact ⟨h, fun _ hv => hv, fun _ _ _ _ => rfl⟩
  | succ position ih =>
    have removed := keeps_removeAt position h
    exact removed.trans (ih removed.overwritten)

/-- Names that no temporary has end with the value that the program gives them. -/
theorem run_of_not_temporary {V : Type} (m : Machine V) {p : Program}
    (h : temporariesOverwritten p.actions = true) (σ : Store V) {name : String}
    (isGlobal : ∀ v ∈ variablesOf p.actions, v.name = name → v.isGlobal = true) :
    (run p).run m σ name = p.run m σ name := by
  rw [Program.run, run, Program.actions_ofActions]
  exact (keeps_sweep p.actions.length h).run m σ name isGlobal

/-- Elimination of copies leaves in every tensor of the user exactly the value that the program
leaves there, whatever scaling, adding and the operations are, and temporaries are still overwritten
where they occur first. -/
theorem eliminated_run {V : Type} (m : Machine V) (p : Program)
    (apart : namesApart p.actions = true) (overwritten : temporariesOverwritten p.actions = true)
    (σ : Store V) :
    (∀ v ∈ variablesOf p.actions, v.isGlobal = true →
      (run p).run m σ v.name = p.run m σ v.name) ∧
    temporariesOverwritten (run p).actions = true := by
  constructor
  · intro v hv isGlobal
    refine run_of_not_temporary m overwritten σ fun w hw same => ?_
    simp only [namesApart, List.all_eq_true, Bool.or_eq_true, decide_eq_true_eq] at apart
    have := (apart w hw v hv).resolve_left (not_not_intro same)
    simpa [Variable.isLocal, isGlobal] using this
  · rw [run, Program.actions_ofActions]
    exact (keeps_sweep p.actions.length overwritten).overwritten

def scaledSum : Program :=
  let layout := Layout.full [2]
  let tensor (name : String) : Variable :=
    ⟨name, false, layout, none, some ⟨name, none, [2], .dense [2], layout⟩⟩
  let temporary (name : String) : Variable := .temporary name layout none
  .ofActions [
    ⟨temporary "_tmp0", .copy (tensor "A"), false, none⟩,
    ⟨temporary "_tmp0", .copy (tensor "B"), true, none⟩,
    ⟨temporary "_tmp1", .copy (temporary "_tmp0"), false, some (.named "s")⟩,
    ⟨tensor "C", .copy (temporary "_tmp1"), false, none⟩]

/-- Of two copies one is removed; the other one scales a temporary with two definitions. -/
theorem eliminated_run_scaledSum :
    namesApart scaledSum.actions = true ∧ temporariesOverwritten scaledSum.actions = true ∧
    (run scaledSum).text = "  _tmp0 = A\n  _tmp0 += B\n  C = s * _tmp0\n" ∧
    let m : Machine Int := ⟨fun _ x => 3 * x, (· + ·), fun _ _ _ => 0⟩
    let σ : Store Int := fun name => if name = "A" then 5 else 7
    (run scaledSum).run m σ "C" = scaledSum.run m σ "C" ∧ scaledSum.run m σ "C" = 36 := by
  have apart : namesApart scaledSum.actions = true := by decide
  have overwritten : temporariesOverwritten scaledSum.actions = true := by decide
  refine ⟨apart, overwritten, by decide, ?_, by decide⟩
  exact (eliminated_run _ scaledSum apart overwritten _).1
    (scaledSum.actions.getLast (by decide)).result (by decide) (by decide)

end CopyElimination

end TensorKernel
