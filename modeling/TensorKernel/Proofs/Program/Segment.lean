import TensorKernel.Proofs.Program.CopyElimination

/-!
Segments: actions with a range of temporaries of their own. Each temporary of the range is defined in
the segment before it is read there; all other variables are tensors of the user, and no tensor has
the name of a temporary.
-/

namespace TensorKernel

def temporaryName (number : Nat) : String := "_tmp" ++ toString number

theorem toString_nat_injective : Function.Injective (toString : Nat → String) := by
  intro j k same
  have digits : Nat.toDigits 10 j = Nat.toDigits 10 k := by simpa [← String.toList_inj] using same
  have number := congrArg (Nat.ofDigitChars 10 · 0) digits
  simpa using number

theorem temporaryName_injective : Function.Injective temporaryName := by
  intro j k same
  refine toString_nat_injective ?_
  simpa [temporaryName, ← String.toList_inj] using same

/-- The name of a tensor starts with a letter. -/
theorem Tensor.name_ne_temporaryName {t : Tensor} (valid : isIdentifier t.base = true) (k : Nat) :
    t.name ≠ temporaryName k := by
  have letter : ∃ c cs, t.base.toList = c :: cs ∧ c.isAlpha = true := by
    unfold isIdentifier at valid
    split at valid
    · cases valid
    · next c cs chars =>
      rw [Bool.and_eq_true] at valid
      exact ⟨c, cs, chars, valid.1⟩
  obtain ⟨c, cs, chars, alpha⟩ := letter
  have first : t.name.toList.head? = some c := by
    unfold name
    split <;> simp [chars]
  intro same
  rw [same] at first
  have underscore : c = '_' := by simpa [temporaryName, eq_comm] using first
  rw [underscore] at alpha
  exact absurd alpha (by decide)

/-- A tensor of the user, or a temporary with a number from `lo` on and below `hi`. -/
inductive Variable.InRange (lo hi : Nat) (v : Variable) : Prop
  | tensor (isGlobal : v.isGlobal = true) (name : ∀ k, v.name ≠ temporaryName k)
  | temporary (number : Nat) (least : lo ≤ number) (below : number < hi)
      (isLocal : v.isGlobal = false) (name : v.name = temporaryName number)

namespace Variable.InRange

variable {lo hi : Nat} {v : Variable}

theorem mono {lo' hi' : Nat} (h : v.InRange lo hi) (least : lo' ≤ lo) (below : hi ≤ hi') :
    v.InRange lo' hi' := by
  cases h with
  | tensor isGlobal name => exact .tensor isGlobal name
  | temporary number l b isLocal name =>
    exact .temporary number (by omega) (by omega) isLocal name

theorem name_ne (h : v.InRange lo hi) {k : Nat} (outside : k < lo ∨ hi ≤ k) :
    v.name ≠ temporaryName k := by
  cases h with
  | tensor _ name => exact name k
  | temporary number least below _ name =>
    intro same
    have := temporaryName_injective (name.symm.trans same)
    omega

end Variable.InRange

/-- Whether a name is written, and not read or added to before. -/
def DefinedFirst (name : String) (actions : List Action) : Prop :=
  ∃ a, actions.find? (·.touches name) = some a ∧ a.writes name = true ∧ a.add = false

theorem definedFirst_cons {a : Action} {as : List Action} (overwrites : a.add = false) :
    DefinedFirst a.result.name (a :: as) := by
  have writes : a.writes a.result.name = true := decide_eq_true rfl
  refine ⟨a, ?_, writes, overwrites⟩
  rw [List.find?_cons_of_pos]
  rw [Action.touches, writes, Bool.true_or]

/-- Actions whose variables are tensors and the temporaries of a range, all of which they define. -/
structure Segment (lo hi : Nat) (actions : List Action) : Prop where
  le : lo ≤ hi
  inRange : ∀ v ∈ variablesOf actions, v.InRange lo hi
  defined : ∀ k, lo ≤ k → k < hi → DefinedFirst (temporaryName k) actions

namespace Segment

variable {lo mid hi : Nat} {actions more : List Action}

theorem nil (lo : Nat) : Segment lo lo [] :=
  ⟨Nat.le_refl lo, by simp [variablesOf], fun k least below => by omega⟩

theorem not_touches (h : Segment lo hi actions) {k : Nat} (outside : k < lo ∨ hi ≤ k) :
    ∀ a ∈ actions, a.touches (temporaryName k) = false := by
  intro a ha
  rw [Action.not_touches, Action.not_reads]
  constructor
  · exact (h.inRange a.result (mem_variablesOf.mpr ⟨a, ha, .inl rfl⟩)).name_ne outside
  · intro v hv
    exact (h.inRange v (mem_variablesOf.mpr ⟨a, ha, .inr hv⟩)).name_ne outside

/-- Further actions may read the temporaries so far and have to define new ones. -/
theorem append (h : Segment lo mid actions) (le : mid ≤ hi)
    (inRange : ∀ v ∈ variablesOf more, v.InRange lo hi)
    (defined : ∀ k, mid ≤ k → k < hi → DefinedFirst (temporaryName k) more) :
    Segment lo hi (actions ++ more) := by
  refine ⟨h.le.trans le, fun v hv => ?_, fun k least below => ?_⟩
  · rw [variablesOf, List.flatMap_append, List.mem_append] at hv
    rcases hv with hv | hv
    · exact (h.inRange v hv).mono (Nat.le_refl lo) le
    · exact inRange v hv
  · by_cases old : k < mid
    · obtain ⟨a, found, defines⟩ := h.defined k least old
      refine ⟨a, ?_, defines⟩
      rw [List.find?_append, found, Option.some_or]
    · obtain ⟨a, found, defines⟩ := defined k (by omega) below
      refine ⟨a, ?_, defines⟩
      have untouched : actions.find? (·.touches (temporaryName k)) = none :=
        List.find?_eq_none.mpr fun b hb => by
          rw [h.not_touches (.inr (Nat.le_of_not_lt old)) b hb]
          exact Bool.false_ne_true
      rw [List.find?_append, untouched, Option.none_or, found]

/-- Segments with ranges next to each other. -/
theorem concat (h : Segment lo mid actions) (k : Segment mid hi more) :
    Segment lo hi (actions ++ more) :=
  h.append k.le (fun v hv => (k.inRange v hv).mono h.le (Nat.le_refl hi)) k.defined

theorem temporariesOverwritten (h : Segment lo hi actions) :
    temporariesOverwritten actions = true := by
  refine temporariesOverwritten_iff.mpr fun v hv isLocal => ?_
  cases h.inRange v hv with
  | tensor isGlobal _ => simp [Variable.isLocal, isGlobal] at isLocal
  | temporary number least below _ name =>
    obtain ⟨a, found, writes, overwrites⟩ := h.defined number least below
    rw [name, overwrittenFirst_iff]
    intro b first
    obtain rfl := Option.some.inj (found.symm.trans first)
    exact ⟨writes, overwrites⟩

/-- A name of a tensor belongs to tensors only. -/
theorem isGlobal_of_name (h : Segment lo hi actions) {name : String}
    (tensor : ∀ k, name ≠ temporaryName k) {v : Variable} (hv : v ∈ variablesOf actions)
    (same : v.name = name) : v.isGlobal = true := by
  cases h.inRange v hv with
  | tensor isGlobal _ => exact isGlobal
  | temporary number _ _ _ known => exact absurd (same.symm.trans known) (tensor number)

end Segment

structure Scratch (lo hi : Nat) (actions : List Action) : Prop extends Segment lo hi actions where
  results : ∀ a ∈ actions, a.result.isGlobal = false

namespace Scratch

variable {lo mid hi : Nat} {actions more : List Action}

theorem nil (lo : Nat) : Scratch lo lo [] := ⟨.nil lo, by simp⟩

theorem concat (h : Scratch lo mid actions) (k : Scratch mid hi more) :
    Scratch lo hi (actions ++ more) := by
  refine ⟨h.toSegment.concat k.toSegment, fun a ha => ?_⟩
  rcases List.mem_append.mp ha with ha | ha
  · exact h.results a ha
  · exact k.results a ha

/-- Further actions define the next temporary from what there is. -/
theorem define (h : Scratch lo mid actions) (defined : DefinedFirst (temporaryName mid) more)
    (results : ∀ a ∈ more, a.result.isGlobal = false ∧ a.result.name = temporaryName mid)
    (inputs : ∀ a ∈ more, ∀ v ∈ a.term.inputs, v.InRange lo mid) :
    Scratch lo (mid + 1) (actions ++ more) := by
  refine ⟨h.append (Nat.le_succ mid) (fun v hv => ?_) (fun k least below => ?_), fun a ha => ?_⟩
  · obtain ⟨a, ha, result | input⟩ := mem_variablesOf.mp hv
    · obtain ⟨isLocal, name⟩ := results a ha
      exact result ▸ .temporary mid h.le (Nat.lt_succ_self mid) isLocal name
    · exact (inputs a ha v input).mono (Nat.le_refl lo) (Nat.le_succ mid)
  · obtain rfl : k = mid := by omega
    exact defined
  · rcases List.mem_append.mp ha with ha | ha
    · exact h.results a ha
    · exact (results a ha).1

/-- Names that are no temporaries of the range keep their values. -/
theorem run_of_outside {V : Type} (m : Machine V) (σ : Store V) (h : Scratch lo hi actions)
    {name : String} (outside : ∀ k, lo ≤ k → k < hi → name ≠ temporaryName k) :
    runActions m σ actions name = σ name := by
  refine runActions_of_not_written m σ fun a ha same => ?_
  cases h.inRange a.result (mem_variablesOf.mpr ⟨a, ha, .inl rfl⟩) with
  | tensor isGlobal _ => simp [h.results a ha] at isGlobal
  | temporary number least below _ known =>
    exact outside number least below (same.symm.trans known)

/-- Variables from before a segment keep their values. -/
theorem run_of_inRange {V : Type} (m : Machine V) (σ : Store V) (h : Scratch mid hi actions)
    {v : Variable} (hv : v.InRange lo mid) : runActions m σ actions v.name = σ v.name :=
  h.run_of_outside m σ fun _ least _ => hv.name_ne (.inr least)

end Scratch

end TensorKernel
