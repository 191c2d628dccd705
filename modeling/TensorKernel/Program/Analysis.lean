import TensorKernel.Program.Basic

/-!
Questions about a program: the tensors, scalars and prefetches it uses, its tensor groups, and the
buffers that its temporaries need.
-/

namespace TensorKernel.Program

/-- Every variable of the user, once per name and sorted by name. -/
def globals (p : Program) : List Variable :=
  let used := p.actions.flatMap fun a => a.result :: a.term.inputs
  Variable.sorted (Variable.distinct (used.filter Variable.isGlobal))

/-- The tensors to prefetch, once per name and sorted by name. -/
def prefetches (p : Program) : List Tensor :=
  let tensors := p.actions.filterMap fun a => a.term.node?.bind Node.prefetch
  (tensors.eraseDupsBy fun s t => s.name = t.name).mergeSort fun s t => s.name ≤ t.name

/-- The names of the scalars that are bound when the kernel runs, sorted. -/
def scalars (p : Program) : List String :=
  let names := p.actions.filterMap fun a => a.factor.bind Factor.name?
  names.eraseDups.mergeSort (· ≤ ·)

/-- The temporaries with the reals that each needs, in the order of their first definitions. -/
def buffers (p : Program) : List (String × Nat) :=
  (Variable.distinct ((p.actions.map Action.result).filter Variable.isLocal)).map fun v =>
    (v.name, v.layout.requiredReals)

/-- The groups of a program: to each base name nothing for a tensor that stands alone, else the
members of its group, ascending. -/
abbrev Groups := List (String × Option (List Nat))

/-- A member among others in ascending order. -/
def insertMember (member : Nat) : List Nat → List Nat
  | [] => [member]
  | m :: ms =>
    if member < m then member :: m :: ms
    else if member = m then m :: ms
    else m :: insertMember member ms

/-- Adds a tensor to the groups; a base name is used either with a group or without. -/
def addToGroups (base : String) (group : Option Nat) : Groups → Result Groups
  | [] => pure [(base, group.map fun member => [member])]
  | (other, members) :: rest =>
    if other = base then
      match members, group with
      | some members, some member => pure ((base, some (insertMember member members)) :: rest)
      | none, none => pure ((base, none) :: rest)
      | some _, none | none, some _ => .error (.grouping base)
    else return (other, members) :: (← addToGroups base group rest)

/-- The groups of the tensors that a program uses. -/
def groups (p : Program) : Result Groups :=
  (p.globals.filterMap Variable.tensor).foldlM
    (fun groups tensor => addToGroups tensor.base tensor.group groups) []

end TensorKernel.Program
