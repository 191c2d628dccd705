import Mathlib.Logic.Function.Basic
import TensorKernel.Program.Basic

/-!
Runs of programs. A machine says what values are and how they are scaled, added up and combined by
the operations of nodes; a store holds one value per name. An action changes the value of its result
and reads nothing but its operands and, if it adds, its result.
-/

namespace TensorKernel

/-- What buffers hold. -/
abbrev Store (V : Type) := String → V

/-- The values that actions compute with. No law is required of them. -/
structure Machine (V : Type) where
  scaled : Factor → V → V
  added : V → V → V
  operation : Node → Layout → List V → V

namespace Machine

variable {V : Type}

def scaledBy (m : Machine V) : Option Factor → V → V
  | none, x => x
  | some factor, x => m.scaled factor x

end Machine

section
variable {V : Type}

def Term.value (m : Machine V) (σ : Store V) : Term → V
  | .operation node layout operands =>
    m.operation node layout (operands.map fun v => σ v.name)
  | .copy source => σ source.name

namespace Action

def value (m : Machine V) (σ : Store V) (a : Action) : V :=
  m.scaledBy a.factor (a.term.value m σ)

def run (m : Machine V) (σ : Store V) (a : Action) : Store V :=
  Function.update σ a.result.name
    (if a.add then m.added (σ a.result.name) (a.value m σ) else a.value m σ)

end Action

/-- The store after actions, one after the other. -/
def runActions (m : Machine V) (σ : Store V) (actions : List Action) : Store V :=
  actions.foldl (Action.run m) σ

def Program.run (m : Machine V) (σ : Store V) (p : Program) : Store V :=
  runActions m σ p.actions

@[simp] theorem Program.actions_ofActions (actions : List Action) :
    (Program.ofActions actions).actions = actions := by
  simp [Program.ofActions, Program.actions, List.filterMap_append, List.filterMap_map]

@[simp] theorem runActions_nil (m : Machine V) (σ : Store V) : runActions m σ [] = σ := rfl

@[simp] theorem runActions_cons (m : Machine V) (σ : Store V) (a : Action) (as : List Action) :
    runActions m σ (a :: as) = runActions m (a.run m σ) as := rfl

theorem runActions_append (m : Machine V) (σ : Store V) (as bs : List Action) :
    runActions m σ (as ++ bs) = runActions m (runActions m σ as) bs := by
  simp [runActions]

namespace Action

theorem not_touches {a : Action} {name : String} :
    a.touches name = false ↔ a.result.name ≠ name ∧ a.reads name = false := by
  simp [touches, writes]

theorem not_reads {a : Action} {name : String} :
    a.reads name = false ↔ ∀ v ∈ a.term.inputs, v.name ≠ name := by
  simp [reads]

/-- The value of an action depends on its operands alone. -/
theorem value_congr (m : Machine V) {σ τ : Store V} {a : Action}
    (same : ∀ v ∈ a.term.inputs, σ v.name = τ v.name) : a.value m σ = a.value m τ := by
  have term : a.term.value m σ = a.term.value m τ := by
    cases h : a.term with
    | operation node layout operands =>
      rw [h] at same
      exact congrArg (m.operation node layout) (List.map_congr_left same)
    | copy source =>
      rw [h] at same
      exact same source (List.mem_singleton.mpr rfl)
  rw [value, value, term]

theorem run_result (m : Machine V) (σ : Store V) (a : Action) :
    a.run m σ a.result.name =
      if a.add then m.added (σ a.result.name) (a.value m σ) else a.value m σ := by
  simp [run]

/-- An action leaves every other name alone. -/
theorem run_of_ne (m : Machine V) (σ : Store V) {a : Action} {name : String}
    (h : name ≠ a.result.name) : a.run m σ name = σ name := by
  simp [run, h]

end Action

/-- Names that no action writes keep their value. -/
theorem runActions_of_not_written (m : Machine V) (σ : Store V) {actions : List Action}
    {name : String} (h : ∀ a ∈ actions, a.result.name ≠ name) :
    runActions m σ actions name = σ name := by
  induction actions generalizing σ with
  | nil => rfl
  | cons a as ih =>
    rw [runActions_cons, ih _ fun b hb => h b (List.mem_cons_of_mem a hb)]
    exact Action.run_of_ne m σ (h a List.mem_cons_self).symm

/-- Both stores have the same values, except perhaps at one name. -/
def AgreeOff (name : String) (σ τ : Store V) : Prop := ∀ x, x ≠ name → σ x = τ x

/-- Actions that do not touch a name keep stores equal elsewhere. -/
theorem runActions_agreeOff (m : Machine V) {name : String} {actions : List Action}
    (free : ∀ a ∈ actions, a.touches name = false) {σ τ : Store V} (h : AgreeOff name σ τ) :
    AgreeOff name (runActions m σ actions) (runActions m τ actions) := by
  induction actions generalizing σ τ with
  | nil => exact h
  | cons a as ih =>
    obtain ⟨result, reads⟩ := Action.not_touches.mp (free a List.mem_cons_self)
    apply ih fun b hb => free b (List.mem_cons_of_mem a hb)
    have value : a.value m σ = a.value m τ :=
      Action.value_congr m fun v hv => h v.name (Action.not_reads.mp reads v hv)
    intro x hx
    by_cases written : x = a.result.name
    · subst written
      rw [Action.run_result, Action.run_result, value, h _ result]
    · rw [Action.run_of_ne m σ written, Action.run_of_ne m τ written, h x hx]

end

end TensorKernel
