/-!
What a user chooses about the compilation of a kernel.
-/

namespace TensorKernel

structure Config where
  /-- The vector width in reals. -/
  alignment : Nat
  /-- Align the first range of results that an operand lets vectorize. -/
  alignStride : Bool
  /-- Store every result as a whole. -/
  simpleLayouts : Bool
  /-- Map contractions onto matrix products. -/
  mapGemm : Bool
  /-- Remove copies of temporaries after lowering. -/
  eliminateCopies : Bool
deriving DecidableEq

namespace Config

def standard : Config where
  alignment := 8
  alignStride := true
  simpleLayouts := false
  mapGemm := true
  eliminateCopies := true

instance : Inhabited Config := ⟨standard⟩

end Config

def version : String := "0.1.0"

end TensorKernel
