import TensorKernel.Pattern.Basic
import TensorKernel.Pattern.Descriptor

/-!
Patterns of sums, products and reductions. A product pairs the entries of both operands that agree
on their shared names and projects each pair onto the output; a reduction projects single entries.
Dense operands give a dense result without a look at entries.
-/

namespace TensorKernel.Pattern

/-- The value that each name takes; of two values of one name the first counts. -/
abbrev Assignment := List (Char × Nat)

def Assignment.project (values : Assignment) (names : List Char) : Entry :=
  names.map fun name => (values.lookup name).getD 0

/-- Whether each value of `right` is the one that `left` has for the name, if it has one. -/
def Assignment.agrees (left right : Assignment) : Bool :=
  right.all fun (name, value) =>
    match left.lookup name with
    | some other => other = value
    | none => true

/-- The union of two patterns of one shape. -/
def add (a b : Pattern) : Result Pattern :=
  if a.shape ≠ b.shape then violates (.patternShapes a.shape b.shape)
  else
    match a, b with
    | masked shape left, masked _ right => .ok (masked shape (List.zipWith or left right))
    | _, _ => .ok (dense a.shape)

/-- The first name whose extent differs from the one it had before. -/
def inconsistent? (extents : Assignment) : Option Char :=
  (extents.find? fun (name, extent) => extents.lookup name ≠ some extent).map Prod.fst

/-- The entries of the product, as numbers in the shape of the output. -/
def productOffsets (d : Descriptor) (a b : Pattern) (shape : Shape) : List Nat :=
  let right := b.entries.map d.right.zip
  a.entries.flatMap fun entry =>
    let left := d.left.zip entry
    (right.filter (Assignment.agrees left)).map fun values =>
      Shape.offset shape (Assignment.project (left ++ values) d.output)

/-- The pattern of the product that a descriptor names, summed over the names that the output does
not have. -/
def einsum (descriptor : List Char) (a b : Pattern) : Result Pattern := do
  let d ← Descriptor.parse descriptor
  if d.left.length ≠ a.shape.length || d.right.length ≠ b.shape.length then
    violates (.descriptorRanks descriptor a.shape b.shape)
  else
    let extents : Assignment := d.left.zip a.shape ++ d.right.zip b.shape
    match inconsistent? extents, d.output.mapM (extents.lookup ·) with
    | some name, _ => violates (.descriptorExtents name descriptor)
    | none, none => violates (.descriptorOutput descriptor)
    | none, some shape =>
      if a.isDense && b.isDense then .ok (dense shape)
      else .ok (ofOffsets shape (productOffsets d a b shape))

/-- The pattern of the sum over the names of `source` that `target` does not have. -/
def reduce (source target : List Char) (a : Pattern) : Result Pattern :=
  if source.length ≠ a.shape.length then violates (.reductionRank source a.shape)
  else
    match target.mapM ((source.zip a.shape).lookup ·) with
    | none => violates (.reductionTarget source target)
    | some shape =>
      if a.isDense then .ok (dense shape)
      else .ok <| ofOffsets shape <| a.entries.map fun entry =>
        Shape.offset shape (Assignment.project (source.zip entry) target)

end TensorKernel.Pattern
