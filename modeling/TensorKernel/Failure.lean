import TensorKernel.Error

/-!
Failures of whole compilations: the cause, and the stages that it passed through, outermost first.
-/

namespace TensorKernel

/-- What was being done when something went wrong. -/
inductive Stage where
  | pass (name : String)
  | preparing (node : String)
  | naming (kernel : String)
  | statement (position : Nat) (kernel : String)
  | lowering (position : Nat) (kernel : String)
  | grouping (kernel : String)
deriving DecidableEq

def Stage.text : Stage → String
  | pass name => "pass " ++ name ++ " failed"
  | preparing node => "Failed to prepare statement " ++ node
  | naming kernel => "Invalid kernel name " ++ kernel
  | statement position kernel => "In statement " ++ toString position ++ " of kernel " ++ kernel
  | lowering position kernel =>
    "Failed to lower statement " ++ toString position ++ " of kernel " ++ kernel
  | grouping kernel => "Invalid tensor groups in kernel " ++ kernel

/-- An error with the stages around it. -/
structure Failure where
  stages : List Stage
  cause : Error
deriving DecidableEq

namespace Failure

def ofError (cause : Error) : Failure := ⟨[], cause⟩

def within (stage : Stage) (f : Failure) : Failure := { f with stages := stage :: f.stages }

/-- The stages and the cause, outermost first. -/
def text (f : Failure) : String :=
  String.intercalate ": " (f.stages.map Stage.text ++ [f.cause.text])

end Failure

/-- The result of a compilation. -/
abbrev Outcome := Except Failure

/-- Runs a step inside a stage. -/
def Outcome.within {α : Type} (stage : Stage) : Outcome α → Outcome α :=
  Except.mapError (Failure.within stage)

def Outcome.ofResult {α : Type} : Result α → Outcome α := Except.mapError Failure.ofError

end TensorKernel
