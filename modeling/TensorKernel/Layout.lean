import TensorKernel.Box

/-!
Dense storage of a box, column-major: the first dimension runs fastest. With an alignment the first
range is widened to multiples of it, so that each column starts at an aligned address.
-/

namespace TensorKernel

/-- How the values of a tensor are stored. -/
structure Layout where
  /-- The shape of the whole tensor. -/
  shape : Shape
  /-- The box before alignment, so that a permutation can align anew. -/
  unaligned : Box
  /-- The box that is stored. -/
  box : Box
  strides : List Nat
  alignment : Option Nat
deriving DecidableEq, Inhabited

namespace Layout

/-- The distance between neighbours in each dimension, when that of the first one is `stride`. -/
def stridesFrom (stride : Nat) : List Range → List Nat
  | [] => []
  | r :: rs => stride :: stridesFrom (stride * r.size) rs

def ofBox (shape : Shape) (box : Box) (alignment : Option Nat) : Layout :=
  let stored :=
    match alignment with
    | some width => box.alignFirst width
    | none => box
  { shape, unaligned := box, box := stored, strides := stridesFrom 1 stored.ranges, alignment }

/-- The layout that stores every entry. -/
def full (shape : Shape) : Layout := ofBox shape (Box.ofShape shape) none

def ofPattern (p : Pattern) (alignment : Option Nat) : Layout :=
  ofBox p.shape (Box.ofPattern p) alignment

def isAligned (l : Layout) : Bool := l.alignment.isSome

/-- The number of reals to allocate. -/
def requiredReals (l : Layout) : Nat :=
  match l.strides.getLast?, l.box.ranges.getLast? with
  | some stride, some range => stride * range.size
  | _, _ => 1

/-- The address of an entry, if it is stored. -/
def address? (l : Layout) (entry : Entry) : Option Nat :=
  if l.box.contains entry then
    let steps := List.zipWith (fun e (r : Range) => e - r.start) entry l.box.ranges
    some ((List.zipWith (· * ·) steps l.strides).foldr (· + ·) 0)
  else none

/-- The layout of the transposed tensor, whose dimension `i` is dimension `perm[i]`. -/
def permute? (l : Layout) (perm : List Nat) : Option Layout := do
  let shape ← Pattern.pick? l.shape perm
  let box ← l.unaligned.permute? perm
  pure (ofBox shape box l.alignment)

/-- Whether the stored extent of a dimension is a multiple of `width`. -/
def mayVectorize (l : Layout) (dim width : Nat) : Bool :=
  match l.box.ranges[dim]? with
  | some range => 0 < width && range.size % width = 0
  | none => false

/-- Whether dimension `j` follows dimension `i` without a gap. -/
def mayFusePair (l : Layout) (i j : Nat) : Result Bool :=
  match l.strides[i]?, l.strides[j]? with
  | some inner, some outer =>
    if j = i + 1 then do
      let range ← dimension l.box.ranges[i]?
      pure (outer = range.size * inner)
    else pure false
  | _, _ => pure false

/-- Whether the dimensions at the given positions can be addressed as one. -/
def mayFuse (l : Layout) : List Nat → Result Bool
  | i :: j :: rest => do
    if ← l.mayFusePair i j then l.mayFuse (j :: rest) else pure false
  | _ => pure true

def text (l : Layout) : String :=
  "Dense(shape=" ++ Text.numbers l.shape ++ ", bbox=" ++ l.box.text ++ ", stride=" ++
    Text.numbers l.strides ++ ")"

end Layout

end TensorKernel
