import TensorKernel.Error

/-!
Index sets from names and extents, and the check that two of them agree on the extents of the names
they share.
-/

namespace TensorKernel.Indices

/-- Index sets are written as names and extents, as many of one as of the other, and without a
repeated name. -/
def ofNames (names : List Char) (shape : Shape) : Result Indices :=
  if names.length ≠ shape.length then refuse (.rank names shape)
  else if names.Nodup then .ok ⟨List.zipWith Dim.mk names shape⟩
  else refuse (.repeatedIndex names)

/-- Fails unless the names that both have carry the same extents. -/
def checkAgrees (i other : Indices) : Result Unit :=
  if i.agrees other then .ok () else refuse (.extents (i.inter other) i other)

end TensorKernel.Indices
