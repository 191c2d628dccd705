import Mathlib.Data.List.Find
import TensorKernel.Program.Analysis
import TensorKernel.Proofs.Prefetch
import TensorKernel.Proofs.Program.Segment

/-!
Elimination of copies does not show in what is asked about a program. One removal keeps the
variables of the user, the factors and the operations. It renames a temporary to the target of its
copy, which nothing touches in between; so what is first written under a name was first written
under it before.

* `Tensor.name_inj`: the name of a tensor tells its base name and its place in a group;
* `firstOfEach`: answers list the first value of each key, and depend on the keys only;
* `unnoticed_removed`, `unnoticed_sweep`: what one removal keeps, and all of them;
* `eliminated_unnoticed`: the answers.
-/

namespace TensorKernel

/-! ### Names of tensors -/

namespace Tensor

theorem toList_name (t : Tensor) : t.name.toList =
    t.base.toList ++ t.group.elim [] fun member => '(' :: ((toString member).toList ++ [')']) := by
  unfold name
  split
  · next group => simp [group]
  · next group => simp [group]

/-- A base name ends at the first bracket, if there is one. -/
theorem base_eq_takeWhile {t : Tensor} (valid : isIdentifier t.base = true) :
    t.base.toList = t.name.toList.takeWhile (· ≠ '(') := by
  have letters : ∀ c ∈ t.base.toList, decide (c ≠ '(') = true := by
    unfold isIdentifier at valid
    split at valid
    · cases valid
    · next c cs chars =>
      simp only [Bool.and_eq_true, List.all_eq_true, Bool.or_eq_true, decide_eq_true_eq] at valid
      obtain ⟨first, others⟩ := valid
      rw [chars, List.forall_mem_cons]
      refine ⟨decide_eq_true ?_, fun d hd => decide_eq_true ?_⟩
      · rintro rfl
        exact absurd first (by decide)
      · rintro rfl
        exact absurd (others _ hd) (by decide)
  rw [toList_name, List.takeWhile_append_of_pos letters]
  cases t.group <;> simp

theorem name_inj {s t : Tensor} (hs : isIdentifier s.base = true) (ht : isIdentifier t.base = true)
    (same : s.name = t.name) : s.base = t.base ∧ s.group = t.group := by
  have base : s.base = t.base := by
    rw [← String.toList_inj, base_eq_takeWhile hs, same, ← base_eq_takeWhile ht]
  have rest := congrArg String.toList same
  rw [toList_name, toList_name, base, List.append_cancel_left_eq] at rest
  refine ⟨base, ?_⟩
  cases left : s.group with
  | none =>
    cases right : t.group with
    | none => rfl
    | some => simp [left, right] at rest
  | some member =>
    cases right : t.group with
    | none => simp [left, right] at rest
    | some other =>
      have digits : member.repr = other.repr := by
        simpa [left, right, ← String.toList_inj] using rest
      rw [toString_nat_injective digits]

end Tensor

/-! ### The first value of each key -/

section
variable {α : Type} {r : α → α → Bool}

theorem pairwise_eraseDupsBy (as : List α) :
    (as.eraseDupsBy r).Pairwise fun a b => r b a = false := by
  match as with
  | [] => exact .nil
  | a :: as =>
    rw [List.eraseDupsBy_cons, List.pairwise_cons]
    refine ⟨fun b hb => ?_, pairwise_eraseDupsBy _⟩
    simpa using (List.mem_filter.mp (mem_of_mem_eraseDupsBy hb)).2
termination_by as.length
decreasing_by exact Nat.lt_succ_of_le (List.length_filter_le _ _)

variable {key : α → String}

def firstOfEach (key : α → String) (as : List α) : List α :=
  (as.eraseDupsBy fun a b => key a = key b).mergeSort fun a b => key a ≤ key b

theorem mem_eraseDupsBy_key {as : List α} {a : α} :
    a ∈ as.eraseDupsBy (fun b c => key b = key c) ↔
      as.find? (fun b => key b = key a) = some a := by
  match as with
  | [] => simp
  | b :: bs =>
    rw [List.eraseDupsBy_cons, List.mem_cons]
    by_cases same : key b = key a
    · simp only [List.find?_cons, same, decide_true, Option.some.injEq, eq_comm (a := a)]
      refine or_iff_left fun later => ?_
      have different := (List.mem_filter.mp (mem_of_mem_eraseDupsBy later)).2
      simp at different
    · have later : (fun c => decide (decide (decide (key c = key b) = false) = true ∧
          decide (key c = key a) = true)) = fun c => decide (key c = key a) := by
        funext c
        by_cases other : key c = key a <;> simp [other, Ne.symm same]
      rw [List.find?_cons_of_neg (by simpa using same), mem_eraseDupsBy_key, List.find?_filter,
        later]
      exact or_iff_right fun h => same (congrArg key h.symm)
termination_by as.length
decreasing_by exact Nat.lt_succ_of_le (List.length_filter_le _ _)

variable {as bs : List α}

/-- The keys of the answer depend on the keys only. -/
theorem keys_firstOfEach (same : ∀ x, (∃ a ∈ as, key a = x) ↔ ∃ b ∈ bs, key b = x) :
    (firstOfEach key as).map key = (firstOfEach key bs).map key := by
  have sorted (as : List α) : ((firstOfEach key as).map key).Pairwise (· ≤ ·) := by
    rw [List.pairwise_map]
    refine (List.pairwise_mergeSort (fun a b c => ?_) (fun a b => ?_) _).imp of_decide_eq_true
    · simpa using String.le_trans
    · simpa using String.le_total _ _
  have nodup (as : List α) : ((firstOfEach key as).map key).Nodup := by
    refine ((List.mergeSort_perm _ _).map key).nodup_iff.mpr ?_
    rw [List.Nodup, List.pairwise_map]
    refine (pairwise_eraseDupsBy as).imp fun different => ?_
    simpa [eq_comm] using different
  have member (as : List α) (x : String) :
      x ∈ (firstOfEach key as).map key ↔ ∃ a ∈ as, key a = x := by
    simp only [List.mem_map, firstOfEach, List.mem_mergeSort]
    constructor
    · rintro ⟨a, ha, rfl⟩
      exact ⟨a, mem_of_mem_eraseDupsBy ha, rfl⟩
    · rintro ⟨a, ha, rfl⟩
      obtain ⟨b, hb, same⟩ :=
        exists_mem_eraseDupsBy (r := fun b c => key b = key c) (by simp) ha
      exact ⟨b, hb, (of_decide_eq_true same).symm⟩
  refine List.Perm.eq_of_pairwise (fun _ _ _ _ => String.le_antisymm) (sorted as) (sorted bs) ?_
  rw [List.perm_ext_iff_of_nodup (nodup as) (nodup bs)]
  intro x
  rw [member, member, same]

end

/-! ### Removals -/

def factorsOf (actions : List Action) : List Factor := actions.filterMap Action.factor

/-- The variable through which a name is written first. -/
def definition? (actions : List Action) (name : String) : Option Variable :=
  (actions.find? (·.writes name)).map Action.result

theorem mem_factorsOf {factor : Factor} {actions : List Action} :
    factor ∈ factorsOf actions ↔ ∃ a ∈ actions, a.factor = some factor :=
  List.mem_filterMap

theorem definition?_append (as bs : List Action) (name : String) :
    definition? (as ++ bs) name = (definition? as name).or (definition? bs name) := by
  rw [definition?, List.find?_append]
  cases found : as.find? (·.writes name) <;> simp [definition?, found]

theorem definition?_of_writes {name : String} {a : Action} (h : a.writes name = true)
    (as : List Action) : definition? (a :: as) name = some a.result := by
  simp [definition?, h]

theorem definition?_of_not_writes {name : String} {as : List Action}
    (h : ∀ a ∈ as, a.writes name = false) : definition? as name = none := by
  simpa [definition?] using h

theorem namesApart_iff {actions : List Action} : namesApart actions = true ↔
    ∀ v ∈ variablesOf actions, ∀ w ∈ variablesOf actions, v.name = w.name →
      v.isLocal = w.isLocal := by
  simp only [namesApart, List.all_eq_true, Bool.or_eq_true, decide_eq_true_eq, ne_eq,
    ← imp_iff_not_or]

namespace CopyElimination

/-- What the questions about a program do not tell apart. -/
structure Unnoticed (old new : List Action) : Prop where
  sub : ∀ v ∈ variablesOf new, v ∈ variablesOf old
  globals : ∀ v ∈ variablesOf old, v.isGlobal = true → v ∈ variablesOf new
  factors : ∀ factor, factor ∈ factorsOf new ↔ factor ∈ factorsOf old
  operations : operationsOf new = operationsOf old
  actions : (new.map fun a => (a.term, a.add)).Sublist (old.map fun a => (a.term, a.add))
  definitions : ∀ name v, definition? new name = some v → definition? old name = some v

theorem Unnoticed.refl (actions : List Action) : Unnoticed actions actions where
  sub _ hv := hv
  globals _ hv _ := hv
  factors _ := Iff.rfl
  operations := rfl
  actions := .refl _
  definitions _ _ h := h

theorem Unnoticed.trans {as bs cs : List Action} (h : Unnoticed as bs) (k : Unnoticed bs cs) :
    Unnoticed as cs where
  sub v hv := h.sub v (k.sub v hv)
  globals v hv isGlobal := k.globals v (h.globals v hv isGlobal) isGlobal
  factors factor := (k.factors factor).trans (h.factors factor)
  operations := k.operations.trans h.operations
  actions := k.actions.trans h.actions
  definitions name v found := h.definitions name v (k.definitions name v found)

theorem Unnoticed.apart {old new : List Action} (h : Unnoticed old new)
    (apart : namesApart old = true) : namesApart new = true := by
  rw [namesApart_iff] at apart ⊢
  exact fun v hv w hw => apart v (h.sub v hv) w (h.sub w hw)

section
variable {before after : List Action} {copy : Action} {source : Variable}

/-- The definitions of the temporary write no temporary of its name any more. -/
theorem not_writes_retarget {target : String} (ne : target ≠ copy.result.name) (a : Action) :
    (retarget copy target a).writes target = false := by
  cases writes : a.writes target with
  | true => simpa [Action.writes, retarget_result copy writes] using Ne.symm ne
  | false => rw [retarget_of_not_writes writes, writes]

/-- Only a name that is taken from a variable or given to it sees a difference. -/
theorem definition?_map_retarget {name : String} (gone : name ≠ source.name)
    (target : name ≠ copy.result.name) (as : List Action) :
    definition? (as.map (retarget copy source.name)) name = definition? as name := by
  induction as with
  | nil => rfl
  | cons a as ih =>
    cases moved : a.writes source.name with
    | true =>
      have result : a.result.name = source.name := by simpa [Action.writes] using moved
      have old : a.writes name = false := by simpa [Action.writes, result] using Ne.symm gone
      have new : (retarget copy source.name a).writes name = false := by
        simpa [Action.writes, retarget_result copy moved] using Ne.symm target
      simpa [definition?, old, new] using ih
    | false =>
      rw [List.map_cons, retarget_of_not_writes moved]
      cases writes : a.writes name with
      | true => rw [definition?_of_writes writes, definition?_of_writes writes]
      | false => simpa [definition?, writes] using ih

/-- What is first written under a name was first written under it before. -/
theorem definitions_removed (h : Removable before copy after source) (name : String) (v : Variable)
    (found : definition? (before.map (retarget copy source.name) ++ after) name = some v) :
    definition? (before ++ copy :: after) name = some v := by
  obtain ⟨pre, first, rest, span⟩ := h.span
  have ne := span.source_ne_target
  by_cases gone : name = source.name
  · subst gone
    have unwritten : ∀ a ∈ before.map (retarget copy source.name) ++ after,
        a.writes source.name = false := by
      intro a ha
      rcases List.mem_append.mp ha with ha | ha
      · obtain ⟨b, -, rfl⟩ := List.mem_map.mp ha
        exact not_writes_retarget ne b
      · have untouched := h.unused a ha
        rw [Action.touches, Bool.or_eq_false_iff] at untouched
        exact untouched.1
    rw [definition?_of_not_writes unwritten] at found
    cases found
  by_cases target : name = copy.result.name
  · subst target
    have moved : (retarget copy source.name first).writes copy.result.name = true := by
      simp [Action.writes, retarget_result copy span.writes]
    have unwritten : ∀ a ∈ first :: rest, a.writes copy.result.name = false := by
      intro a ha
      have untouched := (span.free a ha).2
      rw [Action.touches, Bool.or_eq_false_iff] at untouched
      exact untouched.1
    have written : copy.writes copy.result.name = true := by simp [Action.writes]
    rw [span.split, List.map_append, map_retarget_eq span.unwritten, List.append_assoc,
      definition?_append, List.map_cons, List.cons_append, definition?_of_writes moved,
      retarget_result copy span.writes] at found
    rw [span.split, List.append_assoc, definition?_append, definition?_append,
      definition?_of_not_writes unwritten, definition?_of_writes written, Option.none_or]
    exact found
  · have skipped : copy.writes name = false := by simpa [Action.writes] using Ne.symm target
    rw [definition?_append, definition?_map_retarget gone target] at found
    have later : definition? (copy :: after) name = definition? after name := by
      simp [definition?, skipped]
    rw [definition?_append, later, found]

/-- The factor of a removed copy is taken over by a definition that had none. -/
theorem factors_removed (h : Removable before copy after source) (factor : Factor) :
    factor ∈ factorsOf (before.map (retarget copy source.name) ++ after) ↔
      factor ∈ factorsOf (before ++ copy :: after) := by
  obtain ⟨pre, first, rest, span⟩ := h.span
  rw [mem_factorsOf, mem_factorsOf]
  constructor
  · rintro ⟨a, ha, scaled⟩
    rcases List.mem_append.mp ha with ha | ha
    · obtain ⟨b, hb, rfl⟩ := List.mem_map.mp ha
      unfold retarget at scaled
      split at scaled
      · cases copied : copy.factor with
        | none => exact ⟨b, by simp [hb], by simpa [copied] using scaled⟩
        | some => exact ⟨copy, by simp, by simpa [copied] using scaled⟩
      · exact ⟨b, by simp [hb], scaled⟩
    · exact ⟨a, by simp [ha], scaled⟩
  · rintro ⟨a, ha, scaled⟩
    rcases List.mem_append.mp ha with ha | ha
    · refine ⟨retarget copy source.name a, by simp [List.mem_map_of_mem ha], ?_⟩
      unfold retarget
      split
      · next writes =>
        obtain plain | ⟨unscaled, single⟩ := span.plain
        · simpa [plain] using scaled
        -- The only definition has no factor, and this action has one.
        · rw [span.split] at ha
          rcases List.mem_append.mp ha with ha | ha
          · cases (span.unwritten a ha).symm.trans writes
          · rcases List.mem_cons.mp ha with rfl | ha
            · cases unscaled.symm.trans scaled
            · cases (single a ha).symm.trans writes
      · exact scaled
    · rcases List.mem_cons.mp ha with rfl | ha
      · have mem : first ∈ before := by simp [span.split]
        refine ⟨retarget a source.name first, by simp [List.mem_map_of_mem mem], ?_⟩
        simp [retarget, span.writes, scaled]
      · exact ⟨a, by simp [ha], scaled⟩

/-- A removal takes away occurrences of the temporary only. -/
theorem globals_removed (apart : namesApart (before ++ copy :: after) = true)
    (h : Removable before copy after source) {v : Variable}
    (hv : v ∈ variablesOf (before ++ copy :: after)) (isGlobal : v.isGlobal = true) :
    v ∈ variablesOf (before.map (retarget copy source.name) ++ after) := by
  have other : v.name ≠ source.name := by
    intro same
    have form := namesApart_iff.mp apart v hv source h.mem_variablesOf same
    rw [h.isLocal, Variable.isLocal, isGlobal] at form
    cases form
  obtain ⟨a, ha, occurs⟩ := mem_variablesOf.mp hv
  rw [mem_variablesOf]
  rcases List.mem_append.mp ha with ha | ha
  · refine ⟨retarget copy source.name a, by simp [List.mem_map_of_mem ha], ?_⟩
    rw [retarget_term]
    refine occurs.imp (fun result => ?_) id
    have kept : a.writes source.name = false := by
      rw [Action.writes, ← result, decide_eq_false other]
    rw [retarget_of_not_writes kept, result]
  rcases List.mem_cons.mp ha with rfl | ha
  · rcases occurs with result | input
    · obtain ⟨b, hb, writes⟩ := h.defined
      refine ⟨retarget a source.name b, by simp [List.mem_map_of_mem hb], .inl ?_⟩
      rw [retarget_result a writes, result]
    · rw [h.term] at input
      obtain rfl := List.mem_singleton.mp input
      exact absurd rfl other
  · exact ⟨a, by simp [ha], occurs⟩

theorem unnoticed_removed (apart : namesApart (before ++ copy :: after) = true)
    (h : Removable before copy after source) :
    Unnoticed (before ++ copy :: after) (before.map (retarget copy source.name) ++ after) where
  sub _ hv := variablesOf_removed hv
  globals _ hv isGlobal := globals_removed apart h hv isGlobal
  factors := factors_removed h
  operations := operationsOf_removed h
  actions := by
    have moved : (before.map (retarget copy source.name)).map (fun a => (a.term, a.add)) =
        before.map fun a => (a.term, a.add) := by
      rw [List.map_map]
      exact List.map_congr_left fun a _ => by simp
    rw [List.map_append, moved, ← List.map_append]
    exact ((List.sublist_cons_self copy after).append_left before).map _
  definitions := definitions_removed h

end

theorem unnoticed_sweep {actions : List Action} (apart : namesApart actions = true)
    (position : Nat) : Unnoticed actions (sweep actions position) := by
  induction position generalizing actions with
  | zero => exact .refl actions
  | succ position ih =>
    have step : Unnoticed actions (removeAt actions position) := by
      rcases removeAt_cases actions position with same | ⟨_, _, _, _, rfl, removable, new⟩
      · rw [same]
        exact .refl actions
      · rw [new]
        exact unnoticed_removed apart removable
    exact step.trans (ih (step.apart apart))

end CopyElimination

/-! ### Answers -/

namespace Program

open CopyElimination

/-- Every variable is a temporary or carries the tensor whose full name it has. -/
def Named (p : Program) : Prop :=
  ∀ v ∈ variablesOf p.actions, ∀ t ∈ v.tensor, v.name = t.name ∧ isIdentifier t.base = true

instance (p : Program) : Decidable p.Named :=
  inferInstanceAs (Decidable
    (∀ v ∈ variablesOf p.actions, ∀ t ∈ v.tensor, v.name = t.name ∧ isIdentifier t.base = true))

section
variable {p q : Program}

theorem names_globals (h : Unnoticed p.actions q.actions) :
    q.globals.map Variable.name = p.globals.map Variable.name := by
  refine keys_firstOfEach fun x => ?_
  simp only [List.mem_filter]
  constructor
  · rintro ⟨v, ⟨hv, isGlobal⟩, named⟩
    exact ⟨v, ⟨h.sub v hv, isGlobal⟩, named⟩
  · rintro ⟨v, ⟨hv, isGlobal⟩, named⟩
    exact ⟨v, ⟨h.globals v hv isGlobal, isGlobal⟩, named⟩

theorem scalars_eq (h : Unnoticed p.actions q.actions) : q.scalars = p.scalars := by
  have names (p : Program) : p.scalars =
      (firstOfEach id ((factorsOf p.actions).filterMap Factor.name?)).map id := by
    rw [List.map_id, factorsOf, List.filterMap_filterMap]
    rfl
  rw [names, names]
  refine keys_firstOfEach fun x => ?_
  simp only [List.mem_filterMap, h.factors]

theorem prefetches_eq (h : Unnoticed p.actions q.actions) : q.prefetches = p.prefetches := by
  have attached (p : Program) : p.prefetches =
      firstOfEach Tensor.name ((operationsOf p.actions).filterMap Node.prefetch) := by
    rw [operationsOf, List.filterMap_filterMap]
    rfl
  rw [attached, attached, h.operations]

theorem Named.of_unnoticed (named : p.Named) (h : Unnoticed p.actions q.actions) : q.Named :=
  fun v hv => named v (h.sub v hv)

/-- The variables of the user carry tensors that they are named after. -/
theorem Named.globals (named : p.Named) {v : Variable} (hv : v ∈ p.globals) :
    ∃ t, v.tensor = some t ∧ v.name = t.name ∧ isIdentifier t.base = true := by
  obtain ⟨used, isGlobal⟩ := List.mem_filter.mp (mem_of_mem_eraseDupsBy (List.mem_mergeSort.mp hv))
  obtain ⟨t, carries⟩ := Option.isSome_iff_exists.mp isGlobal
  exact ⟨t, carries, named v used t carries⟩

/-- The names of variables decide which groups their tensors are in. -/
theorem groups_congr {vs ws : List Variable} (same : vs.map Variable.name = ws.map Variable.name)
    (hv : ∀ v ∈ vs, ∃ t, v.tensor = some t ∧ v.name = t.name ∧ isIdentifier t.base = true)
    (hw : ∀ w ∈ ws, ∃ t, w.tensor = some t ∧ w.name = t.name ∧ isIdentifier t.base = true)
    (groups : Groups) :
    (vs.filterMap Variable.tensor).foldlM (fun groups t => addToGroups t.base t.group groups)
        groups =
      (ws.filterMap Variable.tensor).foldlM (fun groups t => addToGroups t.base t.group groups)
        groups := by
  induction vs generalizing ws groups with
  | nil =>
    obtain rfl := List.map_eq_nil_iff.mp same.symm
    rfl
  | cons v vs ih =>
    cases ws with
    | nil => cases same
    | cons w ws =>
      obtain ⟨name, names⟩ := List.cons.inj same
      obtain ⟨⟨s, carriesV, namedV, validV⟩, others⟩ := List.forall_mem_cons.mp hv
      obtain ⟨⟨t, carriesW, namedW, validW⟩, others'⟩ := List.forall_mem_cons.mp hw
      obtain ⟨base, group⟩ :=
        Tensor.name_inj validV validW (namedV.symm.trans (name.trans namedW))
      rw [List.filterMap_cons_some carriesV, List.filterMap_cons_some carriesW, List.foldlM_cons,
        List.foldlM_cons, base, group]
      exact congrArg _ (funext fun groups => ih names others others' groups)

theorem groups_eq (h : Unnoticed p.actions q.actions) (named : p.Named) : q.groups = p.groups :=
  groups_congr (names_globals h) (fun _ hv => (named.of_unnoticed h).globals hv)
    (fun _ hv => named.globals hv) []

/-- Where names are kept apart, all that is written under the name of a temporary is one. -/
theorem find?_locals (apart : namesApart p.actions = true) {v : Variable}
    (isLocal : v.isLocal = true) (hv : v ∈ p.actions.map Action.result) :
    ((p.actions.map Action.result).filter Variable.isLocal).find? (fun w => w.name = v.name) =
      definition? p.actions v.name := by
  have occurs {w : Variable} (hw : w ∈ p.actions.map Action.result) :
      w ∈ variablesOf p.actions := by
    obtain ⟨a, ha, rfl⟩ := List.mem_map.mp hw
    exact mem_variablesOf.mpr ⟨a, ha, .inl rfl⟩
  have first : definition? p.actions v.name =
      (p.actions.map Action.result).find? fun w => w.name = v.name := by
    rw [List.find?_map]
    rfl
  rw [first, List.find?_filter]
  refine List.find?_congr fun w hw => ?_
  by_cases same : w.name = v.name
  · have form := namesApart_iff.mp apart w (occurs hw) v (occurs hv) same
    simp [same, form, isLocal]
  · simp [same]

/-- A buffer belongs to the variable through which a temporary is written first. -/
theorem mem_buffers (apart : namesApart p.actions = true) {b : String × Nat} :
    b ∈ p.buffers ↔ ∃ v, v.isLocal = true ∧ definition? p.actions v.name = some v ∧
      (v.name, v.layout.requiredReals) = b := by
  simp only [buffers, Variable.distinct, List.mem_map, mem_eraseDupsBy_key]
  constructor
  · rintro ⟨v, found, rfl⟩
    obtain ⟨hv, isLocal⟩ := List.mem_filter.mp (List.mem_of_find?_eq_some found)
    rw [find?_locals apart isLocal hv] at found
    exact ⟨v, isLocal, found, rfl⟩
  · rintro ⟨v, isLocal, first, rfl⟩
    obtain ⟨a, found, result⟩ := Option.map_eq_some_iff.mp first
    have hv : v ∈ p.actions.map Action.result :=
      List.mem_map.mpr ⟨a, List.mem_of_find?_eq_some found, result⟩
    exact ⟨v, (find?_locals apart isLocal hv).trans first, rfl⟩

end

end Program

namespace CopyElimination

open Program

/-- Elimination of copies does not show: a program uses the same tensors, scalars, prefetches and
groups without the copies that were removed. No action and no variable is new, and of the buffers
none is new either. -/
theorem eliminated_unnoticed (p : Program) (apart : namesApart p.actions = true) (named : p.Named) :
    (run p).globals.map Variable.name = p.globals.map Variable.name ∧
    (run p).scalars = p.scalars ∧ (run p).prefetches = p.prefetches ∧
    (run p).groups = p.groups ∧
    ((run p).actions.map fun a => (a.term, a.add)).Sublist
      (p.actions.map fun a => (a.term, a.add)) ∧
    (∀ v ∈ variablesOf (run p).actions, v ∈ variablesOf p.actions) ∧
    ∀ b ∈ (run p).buffers, b ∈ p.buffers := by
  have h : Unnoticed p.actions (run p).actions := by
    rw [run, Program.actions_ofActions]
    exact unnoticed_sweep apart p.actions.length
  refine ⟨names_globals h, scalars_eq h, prefetches_eq h, groups_eq h named, h.actions, h.sub,
    fun b hb => ?_⟩
  rw [mem_buffers (h.apart apart)] at hb
  obtain ⟨v, isLocal, first, rfl⟩ := hb
  exact (mem_buffers apart).mpr ⟨v, isLocal, h.definitions v.name v first, rfl⟩

/-- Two members of a group are assigned, the one a scaled tensor and the other one a sum. -/
def groupedUpdate : Program :=
  let layout := Layout.full [2]
  let tensor (base : String) (group : Option Nat) : Variable :=
    let t : Tensor := ⟨base, group, [2], .dense [2], layout⟩
    ⟨t.name, false, layout, none, some t⟩
  let temporary (name : String) : Variable := .temporary name layout none
  .ofActions [
    ⟨temporary "_tmp0", .copy (tensor "A" none), false, none⟩,
    ⟨temporary "_tmp1", .copy (temporary "_tmp0"), false, some (.named "s")⟩,
    ⟨tensor "Q" (some 0), .copy (temporary "_tmp1"), false, none⟩,
    ⟨temporary "_tmp2", .copy (tensor "A" none), false, none⟩,
    ⟨temporary "_tmp2", .copy (tensor "Q" (some 0)), true, none⟩,
    ⟨tensor "Q" (some 2), .copy (temporary "_tmp2"), false, none⟩]

/-- Three copies are removed, one of which scales. -/
theorem eliminated_unnoticed_groupedUpdate :
    namesApart groupedUpdate.actions = true ∧ groupedUpdate.Named ∧
    (run groupedUpdate).text = "  Q(0) = s * A\n  Q(2) = A\n  Q(2) += Q(0)\n" ∧
    (run groupedUpdate).groups = groupedUpdate.groups ∧
    (run groupedUpdate).scalars = ["s"] ∧
    (run groupedUpdate).globals.map Variable.name = ["A", "Q(0)", "Q(2)"] := by
  have apart : namesApart groupedUpdate.actions = true := by decide
  have named : groupedUpdate.Named := by decide
  obtain ⟨globals, scalars, -, groups, -⟩ := eliminated_unnoticed groupedUpdate apart named
  refine ⟨apart, named, by decide, groups, ?_, ?_⟩
  · rw [scalars, Program.scalars, List.mergeSort_of_pairwise (by decide +kernel)]
    decide +kernel
  · rw [globals, Program.globals, Variable.sorted, List.mergeSort_of_pairwise (by decide +kernel)]
    decide +kernel

end CopyElimination

end TensorKernel
