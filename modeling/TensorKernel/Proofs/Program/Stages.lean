import TensorKernel.Proofs.Program.WellFormed

/-!
Elimination of copies reaches a fixed point in one run. A removal can unblock a later copy: that a
target is overwritten between a temporary and the copy of that temporary into the same target may be
the only thing that keeps the latter. In programs that run in stages this does not happen. Each
stage has temporaries of its own and overwrites no name twice, so a name that is overwritten for the
second time is so in a later stage than for the first time, and no temporary lives that long.

* `Staged`: the stages of a program;
* `staged_removed`: a removal keeps them;
* `Removable.before_removal`: a copy that can be removed behind a removal could be removed before it;
* `settled_sweep`: from the last copy to the first, none is left that can be removed;
* `run_of_stages`: a second run finds nothing to remove.
-/

namespace TensorKernel.CopyElimination

/-! ### Copies that can be removed -/

section
variable {before after : List Action} {copy : Action} {source : Variable}

theorem Removable.found (h : Removable before copy after source) :
    removable? before copy after = some source := by
  have unused : after.all (!·.touches source.name) = true := by
    simpa using h.unused
  have defined : before.any (·.writes source.name) = true := by
    simpa using h.defined
  have scaled : (copy.factor.isNone || isPlainlyDefined before source.name) = true := by
    simpa using h.scaled
  simp only [removable?, h.term, h.overwrites, h.isLocal, h.layout, unused, defined, h.free, scaled,
    Bool.not_false, Bool.and_self, decide_true, if_true]

/-- What leaves a temporary and the target of its copy alone. -/
def Clear (source target : String) (a : Action) : Prop :=
  a.reads source = false ∧ a.touches target = false

/-- A span is free if every definition of the temporary and all that follows it leave the temporary
and the target alone. -/
theorem spanIsFree_iff {source target : String} :
    spanIsFree before source target = true ↔
      (∀ d ∈ before, d.writes source = true → Clear source target d) ∧
        before.Pairwise fun d e => d.writes source = true → Clear source target e := by
  unfold spanIsFree
  induction before with
  | nil => simp
  | cons a as ih =>
    cases writes : a.writes source with
    | false =>
      rw [List.dropWhile_cons_of_pos (by simp [writes]), ih]
      simp [writes]
    | true =>
      rw [List.dropWhile_cons_of_neg (by simp [writes])]
      simp only [List.all_cons, Bool.and_eq_true, Bool.not_eq_true', List.all_eq_true,
        List.forall_mem_cons, List.pairwise_cons, writes, true_imp_iff, Clear]
      constructor
      · rintro ⟨first, rest⟩
        refine ⟨⟨first, fun d hd _ => rest d hd⟩, rest, ?_⟩
        exact List.pairwise_of_forall_mem_list fun d _ e he _ => rest e he
      · rintro ⟨⟨first, -⟩, rest, -⟩
        exact ⟨first, rest⟩

end

/-! ### Stages -/

/-- A later action of another stage, or of the same one if the two do not overwrite one name. -/
structure Later (x y : Nat × Action) : Prop where
  le : x.1 ≤ y.1
  lt : x.2.add = false → y.2.add = false → x.2.result.name = y.2.result.name → x.1 < y.1

/-- Actions with the numbers of their stages. All that touch one temporary are of one stage. -/
structure Staged (xs : List (Nat × Action)) : Prop where
  later : xs.Pairwise Later
  own : ∀ x ∈ xs, ∀ y ∈ xs, ∀ k, x.2.touches (temporaryName k) = true →
    y.2.touches (temporaryName k) = true → x.1 = y.1

def InStages (actions : List Action) : Prop := ∃ xs, xs.map Prod.snd = actions ∧ Staged xs

section
variable {before after : List Action} {copy : Action} {source : Variable}

theorem Removable.copy_touches (h : Removable before copy after source) :
    copy.touches source.name = true := by
  simp [Action.touches, Action.reads, h.term, Term.inputs]

theorem touches_of_writes {a : Action} {name : String} (h : a.writes name = true) :
    a.touches name = true := by
  rw [Action.touches, h, Bool.true_or]

/-- What a definition touches that has been moved was touched by it or by the copy before. -/
theorem touches_of_retarget {name : String} {a : Action}
    (h : (retarget copy source.name a).touches name = true) :
    a.touches name = true ∨ a.writes source.name = true ∧ copy.touches name = true := by
  cases writes : a.writes source.name with
  | false =>
    rw [retarget_of_not_writes writes] at h
    exact .inl h
  | true =>
    rw [Action.touches, Action.writes, retarget_result copy writes, retarget_reads,
      Bool.or_eq_true] at h
    rcases h with target | read
    · exact .inr ⟨rfl, touches_of_writes target⟩
    · rw [Action.touches, read, Bool.or_true]
      exact .inl rfl

end

section
variable {xs ys : List (Nat × Action)} {number : Nat} {copy : Action} {source : Variable}

/-- An action with its stage where a copy has been removed. -/
def moved (copy : Action) (source : String) (x : Nat × Action) : Nat × Action :=
  (x.1, retarget copy source x.2)

section
variable (h : Staged (xs ++ (number, copy) :: ys))
  (rem : Removable (xs.map Prod.snd) copy (ys.map Prod.snd) source) {k : Nat}
  (name : source.name = temporaryName k)
include h rem name

/-- The definitions of a temporary are in the stage of its copy. -/
theorem stage_of_definition {x : Nat × Action} (hx : x ∈ xs)
    (writes : x.2.writes source.name = true) : x.1 = number := by
  have defines := touches_of_writes writes
  have reads := rem.copy_touches
  rw [name] at defines reads
  exact h.own x (by simp [hx]) (number, copy) (by simp) k defines reads

/-- An action that touches a name behind a removal has one of its stage that did so before. -/
theorem exists_of_moved {t : String} {y : Nat × Action}
    (hy : y ∈ xs.map (moved copy source.name) ++ ys) (touches : y.2.touches t = true) :
    ∃ x ∈ xs ++ (number, copy) :: ys, x.1 = y.1 ∧ x.2.touches t = true := by
  rcases List.mem_append.mp hy with hy | hy
  · obtain ⟨x, hx, rfl⟩ := List.mem_map.mp hy
    rcases touches_of_retarget touches with own | ⟨writes, target⟩
    · exact ⟨x, by simp [hx], rfl, own⟩
    · exact ⟨(number, copy), by simp, (stage_of_definition h rem name hx writes).symm, target⟩
  · exact ⟨y, by simp [hy], rfl, touches⟩

/-- The definitions that are moved overwrite the target in the stage in which the copy did. -/
theorem later_moved {x y : Nat × Action} (hx : x ∈ xs) (hy : y ∈ xs) (later : Later x y) :
    Later (moved copy source.name x) (moved copy source.name y) := by
  have toCopy {z : Nat × Action} (hz : z ∈ xs) : Later z (number, copy) :=
    (List.pairwise_append.mp h.later).2.2 z hz _ List.mem_cons_self
  have own {z : Nat × Action} (hz : z ∈ xs) := stage_of_definition h rem name hz
  refine ⟨later.le, fun ax ay same => ?_⟩
  simp only [moved, retarget_add] at ax ay same ⊢
  have order := later.le
  cases wx : x.2.writes source.name with
  | false =>
    rw [retarget_of_not_writes wx] at same
    cases wy : y.2.writes source.name with
    | false =>
      rw [retarget_of_not_writes wy] at same
      exact later.lt ax ay same
    | true =>
      rw [retarget_result copy wy] at same
      have before := (toCopy hx).lt ax rem.overwrites same
      rw [own hy wy]
      exact before
  | true =>
    rw [retarget_result copy wx] at same
    cases wy : y.2.writes source.name with
    | false =>
      rw [retarget_of_not_writes wy] at same
      have before := (toCopy hy).lt ay rem.overwrites same.symm
      have stage := own hx wx
      simp only at before
      omega
    | true =>
      have result : x.2.result.name = y.2.result.name :=
        (of_decide_eq_true wx).trans (of_decide_eq_true wy).symm
      exact later.lt ax ay result

/-- A removal leaves each action in its stage. -/
theorem staged_removed : Staged (xs.map (moved copy source.name) ++ ys) := by
  obtain ⟨early, late, across⟩ := List.pairwise_append.mp h.later
  obtain ⟨behind, late⟩ := List.pairwise_cons.mp late
  constructor
  · refine List.pairwise_append.mpr ⟨List.pairwise_map.mpr ?_, late, ?_⟩
    · exact early.imp_of_mem fun hx hy later => later_moved h rem name hx hy later
    · intro z hz y hy
      obtain ⟨x, hx, rfl⟩ := List.mem_map.mp hz
      have later := across x hx y (List.mem_cons_of_mem _ hy)
      refine ⟨later.le, fun ax ay same => ?_⟩
      simp only [moved, retarget_add] at ax same ⊢
      cases wx : x.2.writes source.name with
      | false =>
        rw [retarget_of_not_writes wx] at same
        exact later.lt ax ay same
      | true =>
        rw [retarget_result copy wx] at same
        rw [stage_of_definition h rem name hx wx]
        exact (behind y hy).lt rem.overwrites ay same
  · intro x hx y hy j tx ty
    obtain ⟨x', hx', sx, tx⟩ := exists_of_moved h rem name hx tx
    obtain ⟨y', hy', sy, ty⟩ := exists_of_moved h rem name hy ty
    rw [← sx, ← sy]
    exact h.own x' hx' y' hy' j tx ty

end

end

section
variable {before after : List Action} {copy : Action} {source : Variable}

theorem exists_staged {a : Action} (h : InStages (before ++ a :: after)) :
    ∃ xs number ys, xs.map Prod.snd = before ∧ ys.map Prod.snd = after ∧
      Staged (xs ++ (number, a) :: ys) := by
  obtain ⟨zs, actions, staged⟩ := h
  obtain ⟨xs, rest, rfl, first, second⟩ := List.map_eq_append_iff.mp actions
  obtain ⟨⟨number, _⟩, ys, rfl, rfl, last⟩ := List.map_eq_cons_iff.mp second
  exact ⟨xs, number, ys, first, last, staged⟩

theorem inStages_removed (h : InStages (before ++ copy :: after))
    (rem : Removable before copy after source) {k : Nat} (name : source.name = temporaryName k) :
    InStages (before.map (retarget copy source.name) ++ after) := by
  obtain ⟨xs, number, ys, rfl, rfl, staged⟩ := exists_staged h
  refine ⟨_, ?_, staged_removed staged rem name⟩
  simp [moved, Function.comp_def]

/-- Between a definition of a temporary and its last use no name is overwritten twice. -/
theorem InStages.apart {next d : Action} (h : InStages (before ++ copy :: after))
    (hnext : next ∈ after) (hc : copy.add = false) (hn : next.add = false) {k : Nat}
    (hd : d ∈ before) (defines : d.touches (temporaryName k) = true)
    (uses : next.touches (temporaryName k) = true) : copy.result.name ≠ next.result.name := by
  obtain ⟨xs, number, ys, rfl, rfl, staged⟩ := exists_staged h
  obtain ⟨y, hy, rfl⟩ := List.mem_map.mp hnext
  obtain ⟨x, hx, rfl⟩ := List.mem_map.mp hd
  obtain ⟨-, late, across⟩ := List.pairwise_append.mp staged.later
  have early : x.1 ≤ number := (across x hx (number, copy) List.mem_cons_self).le
  have same := staged.own x (by simp [hx]) y (by simp [hy]) k defines uses
  intro target
  have order : number < y.1 := ((List.pairwise_cons.mp late).1 y hy).lt hc hn target
  omega

end

/-! ### Removals do not unblock copies -/

section
variable {before mid last : List Action} {copy next : Action} {source other : Variable}

/-- Where the target of a removed copy is defined, the copy or one of the definitions that were moved
was the definition. -/
theorem writes_retarget {name : String} {a : Action} (gone : name ≠ source.name)
    (h : a.writes name = true) : (retarget copy source.name a).writes name = true := by
  have kept : a.writes source.name = false := by
    have result : a.result.name = name := of_decide_eq_true h
    simp [Action.writes, result, gone]
  rw [retarget_of_not_writes kept, h]

theorem clear_of_retarget {name target : String} {a : Action} (gone : target ≠ source.name)
    (h : Clear name target (retarget copy source.name a)) : Clear name target a := by
  refine ⟨by simpa using h.1, ?_⟩
  have untouched := h.2
  cases writes : a.writes source.name with
  | false => rwa [retarget_of_not_writes writes] at untouched
  | true =>
    have result : a.result.name = source.name := of_decide_eq_true writes
    rw [Action.not_touches, retarget_reads] at untouched
    rw [Action.not_touches, result]
    exact ⟨gone.symm, untouched.2⟩

/-- A free span behind a removal was free before: the definitions that the removal moved were clear
of the target, and so was the copy, as it does not overwrite the target. -/
theorem spanIsFree_before_removal {name target : String}
    (first : Removable before copy (mid ++ next :: last) source) (hn : name ≠ source.name)
    (ht : target ≠ source.name) (ne : name ≠ target)
    (apart : ∀ d ∈ before, d.writes name = true → copy.result.name ≠ target)
    (free : spanIsFree (before.map (retarget copy source.name) ++ mid) name target = true) :
    spanIsFree (before ++ copy :: mid) name target = true := by
  rw [spanIsFree_iff] at free ⊢
  simp only [List.forall_mem_append, List.forall_mem_map, List.pairwise_append, List.pairwise_map,
    List.forall_mem_cons, List.pairwise_cons] at free ⊢
  obtain ⟨⟨own, own'⟩, early, late, across⟩ := free
  have reads : copy.reads name = false := by
    simp [Action.reads, first.term, Term.inputs, hn.symm]
  have clear (other : copy.result.name ≠ target) : Clear name target copy := by
    refine ⟨reads, Action.not_touches.mpr ⟨other, ?_⟩⟩
    simp [Action.reads, first.term, Term.inputs, ht.symm]
  refine ⟨⟨fun d hd writes => ?_, fun writes => clear ?_, own'⟩, ?_, ⟨?_, late⟩, fun d hd => ⟨?_, ?_⟩⟩
  · exact clear_of_retarget ht (own d hd (writes_retarget hn writes))
  · rw [of_decide_eq_true writes]
    exact ne
  · refine early.imp fun {d e} clear writes => ?_
    exact clear_of_retarget ht (clear (writes_retarget hn writes))
  · -- the copy defines the temporary, so a definition that was moved defines it now
    intro e he writes
    obtain ⟨d, hd, defines⟩ := first.defined
    apply across d hd e he
    rw [Action.writes, retarget_result copy defines]
    exact writes
  · exact fun writes => clear (apart d hd writes)
  · exact fun e he writes => across d hd e he (writes_retarget hn writes)

theorem isPlainlyDefined_iff {actions : List Action} {name : String} :
    isPlainlyDefined actions name = true ↔
      ∃ d, actions.filter (·.writes name) = [d] ∧ d.add = false ∧ d.factor = none := by
  unfold isPlainlyDefined
  split
  · next d only => simp [only]
  · next other =>
    constructor
    · intro h
      cases h
    · rintro ⟨d, only, -⟩
      exact absurd only (other d)

/-- Where the target is another name, the definitions of the name are those before the removal. -/
theorem filter_removed {name : String} (gone : name ≠ source.name)
    (target : copy.result.name ≠ name) :
    (before.map (retarget copy source.name) ++ mid).filter (·.writes name) =
      (before ++ copy :: mid).filter (·.writes name) := by
  have skipped : copy.writes name = false := by simp [Action.writes, target]
  have kept (b : Action) (h : b.writes name = true) : b.writes source.name = false := by
    have result : b.result.name = name := of_decide_eq_true h
    simp [Action.writes, result, gone]
  have same (b : Action) : (retarget copy source.name b).writes name = b.writes name := by
    cases moves : b.writes source.name with
    | false => rw [retarget_of_not_writes moves]
    | true =>
      cases writes : b.writes name with
      | false => simp [Action.writes, retarget_result copy moves, target]
      | true => rw [kept b writes] at moves; cases moves
  rw [List.filter_append, List.filter_append, List.filter_cons_of_neg (by simp [skipped]),
    List.filter_map]
  simp only [Function.comp_def, same]
  rw [map_retarget_eq fun b hb => kept b (List.mem_filter.mp hb).2]

/-- The only definition of a temporary behind a removal is the one that it had before, or a moved
one in the place of the copy. -/
theorem isPlainlyDefined_before_removal {name : String} {after : List Action}
    (first : Removable before copy after source) (gone : name ≠ source.name)
    (plain : isPlainlyDefined (before.map (retarget copy source.name) ++ mid) name = true) :
    isPlainlyDefined (before ++ copy :: mid) name = true := by
  rw [isPlainlyDefined_iff] at plain ⊢
  by_cases target : copy.result.name = name
  · obtain ⟨d, only, -, unscaled⟩ := plain
    obtain ⟨pre, start, rest, span⟩ := first.span
    have writes : (retarget copy source.name start).writes name = true := by
      simp [Action.writes, retarget_result copy span.writes, target]
    have untouched : (start :: rest).filter (·.writes name) = [] := by
      refine List.filter_eq_nil_iff.mpr fun a ha => ?_
      have clear := (Action.not_touches.mp (span.free a ha).2).1
      simpa [Action.writes, target] using clear
    rw [span.split, List.map_append, map_retarget_eq span.unwritten, List.map_cons,
      List.filter_append, List.filter_append, List.filter_cons_of_pos (by exact writes),
      List.append_assoc, List.cons_append] at only
    have counts := congrArg List.length only
    simp only [List.length_append, List.length_cons, List.length_nil] at counts
    have early : pre.filter (·.writes name) = [] := List.length_eq_zero_iff.mp (by omega)
    have late : mid.filter (·.writes name) = [] := List.length_eq_zero_iff.mp (by omega)
    rw [early, List.nil_append] at only
    obtain ⟨rfl, -⟩ := List.cons.inj only
    refine ⟨copy, ?_, first.overwrites, ?_⟩
    · rw [span.split, List.filter_append, List.filter_append, early, untouched,
        List.filter_cons_of_pos (by simp [Action.writes, target]), late]
      rfl
    · simp only [retarget, span.writes, if_true] at unscaled
      cases factor : copy.factor with
      | none => rfl
      | some s => simp [factor] at unscaled
  · rwa [← filter_removed gone target]

/-- A copy behind a removal that can be removed could be removed before. -/
theorem Removable.before_removal
    (first : Removable before copy (mid ++ next :: last) source)
    (apart : ∀ d ∈ before, d.writes other.name = true → copy.result.name ≠ next.result.name)
    (h : Removable (before.map (retarget copy source.name) ++ mid) next last other) :
    Removable (before ++ copy :: mid) next last other := by
  have unused := first.unused next (by simp)
  rw [Action.not_touches, Action.not_reads, h.term] at unused
  obtain ⟨target, read⟩ := unused
  have gone : other.name ≠ source.name := read other (List.mem_singleton.mpr rfl)
  obtain ⟨_, _, _, span⟩ := h.span
  refine ⟨h.term, h.overwrites, h.isLocal, h.layout, h.unused, ?_, ?_, ?_⟩
  · obtain ⟨a, ha, writes⟩ := h.defined
    rcases List.mem_append.mp ha with ha | ha
    · obtain ⟨b, hb, rfl⟩ := List.mem_map.mp ha
      cases moves : b.writes source.name with
      | false =>
        rw [retarget_of_not_writes moves] at writes
        exact ⟨b, by simp [hb], writes⟩
      | true =>
        rw [Action.writes, retarget_result copy moves] at writes
        exact ⟨copy, by simp, writes⟩
    · exact ⟨a, by simp [ha], writes⟩
  · exact spanIsFree_before_removal first gone target span.source_ne_target apart h.free
  · exact h.scaled.imp id (isPlainlyDefined_before_removal first gone)

end

/-! ### The whole run -/

/-- No copy from a position on can be removed. -/
def Settled (actions : List Action) (position : Nat) : Prop :=
  ∀ before copy after source, actions = before ++ copy :: after → position ≤ before.length →
    ¬Removable before copy after source

section
variable {actions : List Action}

theorem removeAt_append {before after : List Action} {copy : Action} :
    removeAt (before ++ copy :: after) before.length =
      match removable? before copy after with
      | some source => before.map (retarget copy source.name) ++ after
      | none => before ++ copy :: after := by
  cases found : removable? before copy after with
  | none => simp only [removeAt, List.take_left, List.drop_left, found]
  | some source => simp only [removeAt, List.take_left, List.drop_left, found]

theorem inStages_removeAt (stages : InStages actions) (sound : Sound actions) (position : Nat) :
    InStages (removeAt actions position) := by
  rcases removeAt_cases actions position with same | ⟨before, copy, after, source, rfl, rem, new⟩
  · rwa [same]
  · obtain ⟨k, name⟩ := sound.temporaries source rem.mem_variablesOf rem.isLocal
    rw [new]
    exact inStages_removed stages rem name

/-- A removal does not unblock a copy behind it. -/
theorem settled_removed {before after : List Action} {copy : Action} {source : Variable}
    (stages : InStages (before ++ copy :: after)) (sound : Sound (before ++ copy :: after))
    (rem : Removable before copy after source)
    (h : Settled (before ++ copy :: after) (before.length + 1)) :
    Settled (before.map (retarget copy source.name) ++ after) before.length := by
  intro left next last other split length again
  obtain ⟨mid, rfl, rfl⟩ : ∃ mid, left = before.map (retarget copy source.name) ++ mid ∧
      after = mid ++ next :: last := by
    rcases List.append_eq_append_iff.mp split with ⟨mid, rfl, rfl⟩ | ⟨mid, whole, rest⟩
    · exact ⟨mid, rfl, rfl⟩
    · have empty : mid = [] := by
        have sizes := congrArg List.length whole
        rw [List.length_map, List.length_append] at sizes
        exact List.length_eq_zero_iff.mp (by omega)
      subst empty
      exact ⟨[], by simpa using whole.symm, by simpa using rest.symm⟩
  have whole : before ++ copy :: (mid ++ next :: last) = (before ++ copy :: mid) ++ next :: last := by
    simp
  have apart : ∀ d ∈ before, d.writes other.name = true →
      copy.result.name ≠ next.result.name := by
    intro d hd writes
    have read : other ∈ variablesOf (before ++ copy :: (mid ++ next :: last)) :=
      mem_variablesOf.mpr ⟨next, by simp, .inr (by simp [again.term, Term.inputs])⟩
    obtain ⟨k, name⟩ := sound.temporaries other read again.isLocal
    have uses := again.copy_touches
    have defines := touches_of_writes writes
    rw [name] at uses defines
    exact stages.apart (by simp) rem.overwrites again.overwrites hd defines uses
  apply h _ next last other whole _ (rem.before_removal apart again)
  rw [List.length_append, List.length_cons]
  omega

/-- One step of the run: behind its position no copy is left that can be removed. -/
theorem settled_removeAt (stages : InStages actions) (sound : Sound actions) {position : Nat}
    (h : Settled actions (position + 1)) : Settled (removeAt actions position) position := by
  cases drop : actions.drop position with
  | nil =>
    have same : removeAt actions position = actions := by simp [removeAt, drop]
    rw [same]
    intro before copy after source split length
    have short := List.drop_eq_nil_iff.mp drop
    rw [split, List.length_append, List.length_cons] at short
    omega
  | cons copy after =>
    have split := List.take_append_drop position actions
    have length : (actions.take position).length = position := by
      have some_left := congrArg List.length drop
      rw [List.length_drop, List.length_cons] at some_left
      rw [List.length_take]
      omega
    rw [drop] at split
    generalize actions.take position = before at split length
    subst length
    subst split
    rw [removeAt_append]
    cases found : removable? before copy after with
    | some source => exact settled_removed stages sound (removable?_eq_some found) h
    | none =>
      intro left next last other same length rem
      by_cases here : left.length = before.length
      · obtain ⟨rfl, rest⟩ := List.append_inj same here.symm
        obtain ⟨rfl, rfl⟩ := List.cons.inj rest
        cases found.symm.trans rem.found
      · exact h left next last other same (by omega) rem

/-- The run from the last copy to the first leaves none that can be removed. -/
theorem settled_sweep (stages : InStages actions) (sound : Sound actions) {position : Nat}
    (h : Settled actions position) : Settled (sweep actions position) 0 := by
  induction position generalizing actions with
  | zero => exact h
  | succ position ih =>
    exact ih (inStages_removeAt stages sound position) (sound_removeAt sound position)
      (settled_removeAt stages sound h)

theorem sweep_of_settled (h : Settled actions 0) (position : Nat) :
    sweep actions position = actions := by
  induction position with
  | zero => rfl
  | succ position ih =>
    rcases removeAt_cases actions position with same | ⟨before, copy, after, source, rfl, rem, -⟩
    · rw [sweep, same, ih]
    · exact absurd rem (h before copy after source rfl (Nat.zero_le _))

end

/-- Of actions that run in stages, a run removes all copies that can be removed, and a second run
finds nothing to do. -/
theorem run_of_stages {p : Program} (stages : InStages p.actions) (sound : Sound p.actions) :
    run (run p) = run p ∧ ∀ before copy after, (run p).actions = before ++ copy :: after →
      removable? before copy after = none := by
  have start : Settled p.actions p.actions.length := by
    intro before copy after source split length
    rw [split, List.length_append, List.length_cons] at length
    omega
  have settled : Settled (run p).actions 0 := by
    rw [run, Program.actions_ofActions]
    exact settled_sweep stages sound start
  constructor
  · conv_lhs => rw [run, sweep_of_settled settled]
    rw [run, Program.actions_ofActions]
  · intro before copy after split
    cases found : removable? before copy after with
    | none => rfl
    | some source =>
      exact absurd (removable?_eq_some found)
        (settled before copy after source split (Nat.zero_le _))

end TensorKernel.CopyElimination
