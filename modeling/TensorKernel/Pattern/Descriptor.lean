import TensorKernel.Error

/-!
Descriptors of pattern products, such as `ik,kj->ij`: the index names of the left operand, of the
right operand and of the output. The first arrow and the first comma before it separate the three.
-/

namespace TensorKernel

/-- The index names of a product of two operands. -/
structure Descriptor where
  left : List Char
  right : List Char
  output : List Char
deriving DecidableEq

namespace Descriptor

/-- What stands before and after the first occurrence of `separator`. -/
def splitFirst? (separator : List Char) : List Char → Option (List Char × List Char)
  | [] => if separator.isEmpty then some ([], []) else none
  | c :: cs =>
    if separator.isPrefixOf (c :: cs) then some ([], (c :: cs).drop separator.length)
    else (splitFirst? separator cs).map fun (before, after) => (c :: before, after)

def render (d : Descriptor) : List Char :=
  d.left ++ ',' :: d.right ++ '-' :: '>' :: d.output

def parse (text : List Char) : Result Descriptor :=
  match splitFirst? ['-', '>'] text with
  | none => violates (.descriptorSyntax text)
  | some (operands, output) =>
    match splitFirst? [','] operands with
    | none => violates (.descriptorOperands text)
    | some (left, right) => .ok ⟨left, right, output⟩

end Descriptor

end TensorKernel
