import TensorKernel.Program.Basic

/-!
Lowering: statements become actions. Each operation writes a temporary of its own, a sum adds its
operands up in one temporary, and an assignment copies into its target. One state serves all
statements of a kernel: it counts the temporaries and knows which tensors were assigned before.
-/

namespace TensorKernel

/-- The state of a lowering. -/
structure Lowering where
  /-- The number of the next temporary. -/
  next : Nat
  /-- The actions so far. -/
  actions : List Action
  /-- The names of the tensors assigned so far. -/
  writable : List String
  /-- Store every result as a whole. -/
  simpleLayouts : Bool

/-- A step of a lowering; when it fails, what was done before remains. -/
abbrev LoweringM := ExceptT Error (StateM Lowering)

namespace Lowering

def start (simpleLayouts : Bool) : Lowering := ⟨0, [], [], simpleLayouts⟩

def isWritable (s : Lowering) (name : String) : Bool := s.writable.contains name

def program (s : Lowering) : Program := .ofActions s.actions

def emit (action : Action) : LoweringM Unit :=
  modify fun s => { s with actions := s.actions ++ [action] }

/-- A tensor that is assigned to may be written from then on. -/
def markWritable (name : String) : LoweringM Unit :=
  modify fun s => if s.isWritable name then s else { s with writable := s.writable ++ [name] }

def check {α : Type} : Result α → LoweringM α
  | .ok value => pure value
  | .error e => throw e

/-- The layout in which the value of a node is stored. -/
def layoutOf (n : Node) : LoweringM Layout := do
  if (← get).simpleLayouts then return .full (← check n.shape)
  else check n.computedLayout

/-- A new temporary for the value of a node. -/
def temporary (n : Node) : LoweringM Variable := do
  let number := (← get).next
  modify fun s => { s with next := s.next + 1 }
  return .temporary ("_tmp" ++ toString number) (← layoutOf n) n.pattern

def tensorVariable (n : Node) (tensor : Tensor) : LoweringM Variable := do
  let layout ← layoutOf n
  return ⟨tensor.name, (← get).isWritable tensor.name, layout, n.pattern, some tensor⟩

/-- How late an operand comes in a sum: writable ones come first, and tensors before temporaries. -/
def lateness (v : Variable) : Nat := (if v.writable then 0 else 1) + (if v.isGlobal then 0 else 1)

/-- The operands of a sum in the order in which they are added up; those that come equally late keep
their order. -/
def summationOrder (operands : List Variable) : List Variable :=
  [0, 1, 2].flatMap fun late => operands.filter (lateness · = late)

/-- Adds operands up in a temporary; the first one overwrites it. -/
def accumulate (sum : Variable) : List Variable → LoweringM Unit
  | [] => pure ()
  | first :: rest => do
    emit ⟨sum, .copy first, false, none⟩
    rest.forM fun operand => emit ⟨sum, .copy operand, true, none⟩

end Lowering

namespace Node

open Lowering

mutual

/-- Emits the actions of a tree and returns the variable that holds its value. -/
def lower : Node → LoweringM Variable
  | n@⟨kind, _, _, _, _, children⟩ =>
    match kind with
    | .leaf tensor => tensorVariable n tensor
    | .einsum => check (violates (.cannotLower n.text))
    | .add => do
      let operands ← lowerAll children
      if operands.isEmpty then check (violates (.missingOperand n.text))
      let sum ← temporary n
      accumulate sum (summationOrder operands)
      pure sum
    | .scale factor => do
      let term ← lowerTerm n children
      let result ← temporary n
      emit ⟨result, .copy term, false, some factor⟩
      pure result
    | .assign => lowerAssigned n children
    | .indexSum _ | .product | .contraction _ | .gemm _ => do
      let operands ← lowerAll children
      let result ← temporary n
      emit ⟨result, .operation n (← layoutOf n) operands, false, none⟩
      pure result

def lowerAll : List Node → LoweringM (List Variable)
  | [] => pure []
  | child :: children => return (← child.lower) :: (← lowerAll children)

/-- The term of a scaled node, its first child. -/
def lowerTerm (n : Node) : List Node → LoweringM Variable
  | [] => check (violates (.missingOperand n.text))
  | term :: _ => term.lower

/-- Target and value of an assignment. -/
def lowerAssigned (n : Node) : List Node → LoweringM Variable
  | [target, value] => do
    if let some name := target.tensorName? then markWritable name
    let result ← target.lower
    let source ← value.lower
    emit ⟨result, .copy source, false, none⟩
    pure result
  | _ => check (violates (.missingOperand n.text))

end

end Node

end TensorKernel
