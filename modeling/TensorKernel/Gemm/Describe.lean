import TensorKernel.Gemm.Basic

/-!
The text of a mapping, such as `C_{ij} = A_{(il)k} B_{kj}`: fused groups in parentheses, loop
indices in brackets.
-/

namespace TensorKernel.Gemm

/-- Whether the first `width` names exist and all belong to a group. -/
def startsRun (group : Indices) (width : Nat) (names : List Char) : Bool :=
  width ≤ names.length && (names.take width).all group.contains

/-- The positions at which runs of `width` names of a group start, taken greedily from the left;
`skip` names belong to the run before. -/
def runStarts (group : Indices) (width : Nat) : Nat → Nat → List Char → List Nat
  | _, _, [] => []
  | position, skip + 1, _ :: names => runStarts group width (position + 1) skip names
  | position, 0, name :: names =>
    if startsRun group width (name :: names) then
      position :: runStarts group width (position + 1) (width - 1) names
    else runStarts group width (position + 1) 0 names

/-- The starts of the runs of a group of two or more indices. -/
def groupRuns (names : List Char) (group : Indices) : List Nat :=
  if group.size < 2 then [] else runStarts group group.size 0 0 names

def signed (groups : List Indices) (name : Char) : List Char :=
  if groups.any (·.contains name) then [name] else ['[', name, ']']

/-- The names of an operand in storage order, its groups in parentheses where they stand together,
and the names of no group in brackets. -/
def subscript (groups : List Indices) (i : Indices) : List Char :=
  let opens := groups.flatMap (groupRuns i.names)
  let closes := groups.flatMap fun group =>
    (groupRuns i.names group).map (· + (group.size - 1))
  i.names.zipIdx.flatMap fun (name, position) =>
    (if opens.contains position then ['('] else []) ++ signed groups name ++
      (if closes.contains position then [')'] else [])

def operandText (operand : String) (groups : List Indices) (i : Indices) (transposed : Bool) :
    String :=
  operand ++ (if transposed then "^T" else "") ++ "_\x7b" ++ String.ofList (subscript groups i) ++
    "\x7d"

/-- The text of a mapping; operands without indices have a question mark for a subscript. -/
def describe (g : Gemm) (c a b : Option Indices) : String :=
  let operand (name : String) (groups : List Indices) (transposed : Bool) : Option Indices → String
    | some i => operandText name groups i transposed
    | none => name ++ "_\x7b?\x7d"
  operand "C" [g.m, g.n] false c ++ " = " ++ operand "A" [g.m, g.k] g.transA a ++ " " ++
    operand "B" [g.k, g.n] g.transB b

end TensorKernel.Gemm

