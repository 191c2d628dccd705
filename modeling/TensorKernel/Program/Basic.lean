import TensorKernel.Tree.Basic

/-!
Programs: a straight line of actions, each of which overwrites or adds to one variable. Variables
are tensors of the user or temporaries of the compiler, and are told apart by their names.
-/

namespace TensorKernel

/-- A buffer that actions read and write. -/
structure Variable where
  name : String
  /-- Assigned before in the kernel, or a temporary. -/
  writable : Bool
  layout : Layout
  pattern : Option Pattern
  /-- The tensor of the user, unless the variable is a temporary. -/
  tensor : Option Tensor
deriving DecidableEq, Inhabited

namespace Variable

/-- A temporary, which may be written from the start. -/
def temporary (name : String) (layout : Layout) (pattern : Option Pattern) : Variable :=
  ⟨name, true, layout, pattern, none⟩

def isGlobal (v : Variable) : Bool := v.tensor.isSome

def isLocal (v : Variable) : Bool := !v.isGlobal

/-- The variables ordered by name; those of one name keep their order. -/
def sorted (vs : List Variable) : List Variable := vs.mergeSort fun v w => v.name ≤ w.name

/-- The first variable of each name. -/
def distinct (vs : List Variable) : List Variable :=
  vs.eraseDupsBy fun v w => v.name = w.name

end Variable

/-- The value that an action writes. -/
inductive Term where
  /-- The operation of a node on variables that hold its operands. -/
  | operation (node : Node) (layout : Layout) (operands : List Variable)
  /-- The value of a variable. -/
  | copy (source : Variable)

namespace Term

/-- The variables that are read. -/
def inputs : Term → List Variable
  | operation _ _ operands => operands
  | copy source => [source]

def isOperation : Term → Bool
  | operation .. => true
  | copy _ => false

/-- The layout in which an operation computes its value. -/
def layout? : Term → Option Layout
  | operation _ layout _ => some layout
  | copy _ => none

/-- The node of an operation. -/
def node? : Term → Option Node
  | operation node _ _ => some node
  | copy _ => none

def text : Term → String
  | operation node _ operands =>
    node.kind.name ++ "(" ++ String.intercalate ", " (operands.map Variable.name) ++ ")"
  | copy source => source.name

end Term

/-- One step: a variable takes a value, which may be scaled, or adds it to its own. -/
structure Action where
  result : Variable
  term : Term
  add : Bool
  factor : Option Factor

namespace Action

/-- Whether the action reads a name as an operand. -/
def reads (a : Action) (name : String) : Bool := a.term.inputs.any (·.name = name)

def writes (a : Action) (name : String) : Bool := a.result.name = name

def touches (a : Action) (name : String) : Bool := a.writes name || a.reads name

def text (a : Action) : String :=
  a.result.name ++ (if a.add then " += " else " = ") ++
    ((a.factor.map fun factor => factor.text ++ " * ").getD "") ++ a.term.text

end Action

/-- The points of a program; one that is lowered ends in a point without an action. -/
structure Program where
  points : List (Option Action)

namespace Program

/-- Actions followed by the end. -/
def ofActions (actions : List Action) : Program := ⟨actions.map some ++ [none]⟩

def actions (p : Program) : List Action := p.points.filterMap id

/-- One line per action. -/
def text (p : Program) : String :=
  String.join (p.actions.map fun a => "  " ++ a.text ++ "\n")

end Program

end TensorKernel
