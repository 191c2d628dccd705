import TensorKernel.Prepare
import TensorKernel.Program.Analysis
import TensorKernel.Program.CopyElimination
import TensorKernel.Program.Lower
import TensorKernel.Tree.Flops

/-!
Kernels: named lists of statements that are compiled together.
-/

namespace TensorKernel

/-- A kernel with prepared statements. -/
structure Kernel where
  name : String
  statements : List Node
  config : Config

namespace Kernel

/-- Prepares the statements of a kernel, the first one at `position`. -/
def prepareFrom (name : String) (config : Config) (position : Nat) :
    List Node → Outcome (List Node)
  | [] => pure []
  | statement :: statements => do
    let prepared ← Outcome.within (.statement position name) (statement.prepare config)
    return prepared :: (← prepareFrom name config (position + 1) statements)

def ofStatements (name : String) (statements : List Node) (config : Config) : Outcome Kernel := do
  Outcome.within (.naming name) (.ofResult (checkName name))
  pure ⟨name, ← prepareFrom name config 0 statements, config⟩

/-- Lowers statements in one state, the first one at `position`. -/
def lowerFrom (name : String) (s : Lowering) (position : Nat) : List Node → Outcome Lowering
  | [] => pure s
  | statement :: statements => do
    match statement.lower.run s with
    | (.ok _, s) => lowerFrom name s (position + 1) statements
    | (.error e, _) => Outcome.within (.lowering position name) (.error (.ofError e))

/-- The program of a kernel, with copies eliminated if the configuration says so. -/
def program (k : Kernel) : Outcome Program := do
  let lowered ← lowerFrom k.name (.start k.config.simpleLayouts) 0 k.statements
  let program :=
    if k.config.eliminateCopies then CopyElimination.run lowered.program else lowered.program
  let _ ← Outcome.within (.grouping k.name) (.ofResult program.groups)
  pure program

/-- The arithmetic operations on non-zero entries of all statements. -/
def flops (k : Kernel) : Result Nat := Node.totalFlopsAll k.statements

end Kernel

end TensorKernel
