import TensorKernel.Layout
import TensorKernel.Scalar.Factor

/-!
Tensors: named data with a shape, a non-zero pattern and a storage layout. Tensors of one base name
can form a group, whose members are told apart by a number.
-/

namespace TensorKernel

structure Tensor where
  base : String
  group : Option Nat
  shape : Shape
  pattern : Pattern
  layout : Layout
deriving DecidableEq, Inhabited

def checkName (name : String) : Result Unit :=
  if isIdentifier name then .ok () else refuse (.invalidName name)

namespace Factor

/-- A scalar that is bound when the kernel runs. -/
def ofName (name : String) : Result Factor := do
  checkName name
  pure (named name)

end Factor

namespace Tensor

def ofName (name : String) (shape : Shape) : Result Tensor := do
  checkName name
  pure ⟨name, none, shape, .dense shape, .full shape⟩

/-- The tensor as a member of the group of its base name. -/
def withGroup (t : Tensor) (member : Nat) : Tensor := { t with group := some member }

/-- The full name, `base(member)` in a group. -/
def name (t : Tensor) : String :=
  match t.group with
  | some member => t.base ++ "(" ++ toString member ++ ")"
  | none => t.base

/-- The tensor with a pattern of its shape; the layout shrinks to the box of the pattern. -/
def withPattern (t : Tensor) (p : Pattern) : Result Tensor :=
  if p.shape = t.shape then .ok { t with pattern := p, layout := .ofPattern p none }
  else refuse (.tensorPattern p.shape t.name t.shape)

end Tensor

end TensorKernel
