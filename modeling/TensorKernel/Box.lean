import TensorKernel.Pattern.Basic

/-!
Ranges of indices along one dimension, and boxes with one range per dimension. The box of a pattern
is the tightest one around its non-zero entries.
-/

namespace TensorKernel

/-- The indices from `start` up to, but without, `stop`. -/
structure Range where
  start : Nat
  stop : Nat
deriving DecidableEq, Inhabited

namespace Range

/-- The number of indices; a range that ends before it starts has none. -/
def size (r : Range) : Nat := r.stop - r.start

def contains (r : Range) (index : Nat) : Bool := r.start ≤ index && index < r.stop

/-- The range widened to multiples of `width` at both ends. -/
def aligned (r : Range) (width : Nat) : Range :=
  if width ≤ 1 then r
  else ⟨r.start / width * width, (r.stop + width - 1) / width * width⟩

def text (r : Range) : String :=
  "[" ++ toString r.start ++ ", " ++ toString r.stop ++ ")"

end Range

/-- One range per dimension. -/
structure Box where
  ranges : List Range
deriving DecidableEq, Inhabited

namespace Box

def ofShape (shape : Shape) : Box := ⟨shape.map (Range.mk 0)⟩

/-- The tightest box around the non-zero entries; without any, its ranges are empty. -/
def ofPattern (p : Pattern) : Box :=
  match p.bounds? with
  | some bounds => ⟨bounds.map fun (low, high) => ⟨low, high + 1⟩⟩
  | none => ⟨p.shape.map fun _ => ⟨0, 0⟩⟩

def rank (b : Box) : Nat := b.ranges.length

def size (b : Box) : Nat := (b.ranges.map Range.size).foldr (· * ·) 1

def contains (b : Box) (entry : Entry) : Bool :=
  entry.length = b.rank && (List.zipWith Range.contains b.ranges entry).all id

/-- The box whose dimension `i` is dimension `perm[i]`. -/
def permute? (b : Box) (perm : List Nat) : Option Box :=
  (Pattern.pick? b.ranges perm).map Box.mk

/-- The box with its first range widened to multiples of `width`. -/
def alignFirst (b : Box) (width : Nat) : Box :=
  match b.ranges with
  | [] => b
  | first :: rest => ⟨first.aligned width :: rest⟩

def text (b : Box) : String := String.intercalate " x " (b.ranges.map Range.text)

end Box

end TensorKernel
