import TensorKernel.Scalar.Binary64

/-!
The text of a constant: the fewest decimal digits that read back as the same constant, and of
these the nearest to it. `shortest` finds the digits on the coarsest decimal grid that has a point
in the interval of reals that round to the constant; `text` places the point.
-/

namespace TensorKernel.Binary64

structure Quotient where
  num : Nat
  den : Nat

/-- The reals that round to a constant, in quarters of the unit in its last place. The gap below a
power of two is half as wide, and the ends belong to the interval iff the significand is even. -/
structure Interval where
  low : Nat
  middle : Nat
  high : Nat
  closed : Bool

def interval (x : Binary64) : Interval where
  low := 4 * x.significand - if x.significand = 1 <<< 52 && 1 < x.scale then 1 else 2
  middle := 4 * x.significand
  high := 4 * x.significand + 2
  closed := x.significand % 2 = 0

/-- A quarter of the unit in the last place, divided by `10 ^ exponent`. -/
def quarter (x : Binary64) (exponent : Int) : Quotient where
  num := 1 <<< (x.scale - 1077) * Nat.pow 10 (-exponent).toNat
  den := 1 <<< (1077 - x.scale) * Nat.pow 10 exponent.toNat

def digitCount (n : Nat) : Nat :=
  (Nat.toDigits 10 n).length

/-- The `p` with `10 ^ (p - 1) ≤ q < 10 ^ p`. -/
def decimalExponent (q : Quotient) : Int :=
  if q.den ≤ q.num then digitCount (q.num / q.den)
  else 1 - (digitCount ((q.den - 1) / q.num) : Int)

/-- The point of the grid of multiples of `10 ^ exponent` that is nearest to the constant and reads
back as it; of two at the same distance the upper one. -/
def gridPoint? (x : Binary64) (exponent : Int) : Option Nat :=
  let i := x.interval
  let q := x.quarter exponent
  let inside (point : Nat) : Bool :=
    if i.closed then i.low * q.num ≤ point * q.den && point * q.den ≤ i.high * q.num
    else i.low * q.num < point * q.den && point * q.den < i.high * q.num
  let below := i.middle * q.num / q.den
  let upperIsNear : Bool := q.den ≤ 2 * (i.middle * q.num % q.den)
  match inside below, inside (below + 1) with
  | true, true => some (if upperIsNear then below + 1 else below)
  | true, false => some below
  | false, true => some (below + 1)
  | false, false => none

/-- Digits `d` and exponent `e` of a finite constant other than zero: it is the constant nearest to
`d * 10 ^ e`, and no constant needs more than 17 digits. -/
def shortest (x : Binary64) : Nat × Int :=
  let unit := x.quarter 0
  let top := decimalExponent ⟨x.interval.middle * unit.num, unit.den⟩
  let grid (count : Nat) : Int := top - (count + 1 : Nat)
  ((List.range 17).findSome? fun count =>
    (x.gridPoint? (grid count)).map fun point => (point, grid count)).getD (0, 0)

/-- Digits without the zeros at their end. -/
def trimmed (digits : List Char) : List Char :=
  (digits.reverse.dropWhile (· = '0')).reverse

/-- The text of a magnitude `0.digits * 10 ^ point`: positional between `0.0001` and `10 ^ 16`, with
a digit on both sides of the point, and with an exponent elsewhere. -/
def place (digits : List Char) (point : Int) : String :=
  let zeros (count : Int) := List.replicate count.toNat '0'
  if point ≤ -4 || 17 ≤ point then
    let rest := digits.drop 1
    String.ofList (digits.take 1 ++ (if rest.isEmpty then [] else '.' :: rest)) ++ "e" ++
      toString (point - 1)
  else if point ≤ 0 then
    String.ofList ('0' :: '.' :: zeros (-point) ++ digits)
  else if (digits.length : Int) ≤ point then
    String.ofList (digits ++ zeros (point - digits.length) ++ ['.', '0'])
  else
    String.ofList (digits.take point.toNat ++ '.' :: digits.drop point.toNat)

def text (x : Binary64) : String :=
  if x.isNaN then "NaN"
  else
    let sign := if x.negative then "-" else ""
    if x.isInfinite then sign ++ "inf"
    else if x.isZero then sign ++ "0.0"
    else
      let (point, exponent) := x.shortest
      let digits := Nat.toDigits 10 point
      sign ++ place (trimmed digits) (digits.length + exponent)

end TensorKernel.Binary64
