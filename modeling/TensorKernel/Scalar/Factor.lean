import TensorKernel.Scalar.Shortest

/-!
Factors of scalar multiplications: constants, and scalars that get their value when the kernel
runs.
-/

namespace TensorKernel

/-- Names of tensors, scalars and kernels: an ASCII letter, then ASCII letters, digits and
underscores. -/
def isIdentifier (name : String) : Bool :=
  match name.toList with
  | [] => false
  | c :: cs => c.isAlpha && cs.all fun d => d.isAlphanum || d = '_'

inductive Factor where
  /-- A constant known to the compiler. -/
  | constant (value : Binary64)
  /-- A scalar that is bound when the kernel runs. -/
  | named (name : String)
deriving DecidableEq, Inhabited

namespace Factor

/-- Scaling by a unit costs no multiplication: it copies or changes the sign. -/
def isUnit : Factor → Bool
  | constant value => value.same .one || value.same .minusOne
  | named _ => false

/-- The name of a scalar that is bound when the kernel runs. -/
def name? : Factor → Option String
  | constant _ => none
  | named name => some name

def text : Factor → String
  | constant value => value.text
  | named name => name

/-- Equality of the values; a constant that is no number differs from itself. -/
def same : Factor → Factor → Bool
  | constant x, constant y => x.same y
  | named x, named y => x = y
  | _, _ => false

end Factor

end TensorKernel
