/-!
Double-precision constants, held by their 64 bits: one sign bit, eleven bits of exponent, 52 bits
of fraction. `ofDecimal` rounds a decimal to the nearest constant, a tie to the even one.
-/

namespace TensorKernel

structure Binary64 where
  bits : UInt64
deriving DecidableEq, Inhabited

namespace Binary64

def negative (x : Binary64) : Bool :=
  1 <<< 63 ≤ x.bits.toNat

/-- The bits below the sign; they order the magnitudes. -/
def magnitude (x : Binary64) : Nat :=
  x.bits.toNat % 1 <<< 63

def exponentField (x : Binary64) : Nat :=
  x.magnitude / 1 <<< 52

def fraction (x : Binary64) : Nat :=
  x.magnitude % 1 <<< 52

/-- The magnitude of a finite constant is `significand * 2 ^ (scale - 1075)`. -/
def significand (x : Binary64) : Nat :=
  if x.exponentField = 0 then x.fraction else 1 <<< 52 + x.fraction

def scale (x : Binary64) : Nat :=
  max 1 x.exponentField

/-- The magnitude of infinity; those above it are no numbers. -/
def infinite : Nat := 2047 <<< 52

def isNaN (x : Binary64) : Bool :=
  infinite < x.magnitude

def isInfinite (x : Binary64) : Bool :=
  x.magnitude = infinite

def isZero (x : Binary64) : Bool :=
  x.magnitude = 0

def ofMagnitude (negative : Bool) (magnitude : Nat) : Binary64 :=
  ⟨UInt64.ofNat ((if negative then 1 <<< 63 else 0) + magnitude)⟩

def nan : Binary64 := ofMagnitude false (infinite + 1 <<< 51)

/-- Equality of the numbers: both zeros are equal, and what is no number equals nothing. -/
def same (x y : Binary64) : Bool :=
  !x.isNaN && (x = y || x.isZero && y.isZero)

def one : Binary64 := ofMagnitude false (1023 <<< 52)

def minusOne : Binary64 := ofMagnitude true (1023 <<< 52)

/-- The quotient to the nearest integer, a half to the even neighbour. -/
def roundHalfEven (num den : Nat) : Nat :=
  let below := num / den
  let rest := 2 * (num % den)
  if rest < den || rest = den && below % 2 = 0 then below else below + 1

/-- The magnitude nearest to `num / den`. The unit in the last place is `2 ^ (scale - 1075)`, with
the least scale at which the quotient has at most 53 bits. -/
def roundedMagnitude (num den : Nat) : Nat :=
  let quotient (scale : Nat) : Nat × Nat :=
    (num * 1 <<< (1075 - scale), den * 1 <<< (scale - 1075))
  let low := max 1 (num.log2 + 1022 - den.log2)
  let (n, d) := quotient low
  let scale := if n / d < 1 <<< 53 then low else low + 1
  let (n, d) := quotient scale
  min infinite ((scale - 1) <<< 52 + roundHalfEven n d)

/-- The constant nearest to `digits * 10 ^ exponent`. Beyond the range of the format the result is
infinite or zero, whatever the digits. -/
def ofDecimal (negative : Bool) (digits : Nat) (exponent : Int) : Binary64 :=
  ofMagnitude negative <|
    if digits = 0 || exponent < -400 - (digits.log2 : Int) then 0
    else if 310 < exponent then infinite
    else roundedMagnitude (digits * Nat.pow 10 exponent.toNat) (Nat.pow 10 (-exponent).toNat)

end Binary64

end TensorKernel
