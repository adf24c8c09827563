import ClassContract.Double.Basic

/-!
# Shortest decimals of a double

The decimal written for a double is the one with the fewest significant digits among all decimals
that round to it, and of several such decimals the one nearest to it. The search is exact: on the
grid of decimals with `n` digits only the two neighbours of the number have to be tried, for
`n = 1, 2, …, 17`, and seventeen digits always suffice.
-/

namespace ClassContract

/-- The decimal `coefficient * 10 ^ exponent`. -/
structure Decimal where
  /-- The significant digits as one number. -/
  coefficient : Nat
  /-- The power of ten of the last digit. -/
  exponent : Int
  deriving DecidableEq

/-- Which of two equally near decimals is written. -/
inductive TieRule
  | toEven
  | upward
  deriving DecidableEq

namespace Decimal

/-- Move trailing zeros of the coefficient into the exponent, at most `fuel` of them. -/
def dropZeros : Nat → Decimal → Decimal
  | 0, d => d
  | fuel + 1, d =>
    if d.coefficient % 10 = 0 then dropZeros fuel ⟨d.coefficient / 10, d.exponent + 1⟩ else d

/-- The digits of the coefficient. -/
def digits (d : Decimal) : List Char := Nat.toDigits 10 d.coefficient

/-- The power of ten of the first digit. -/
def leading (d : Decimal) : Int := d.exponent + d.digits.length - 1

end Decimal

/-- The reals that round to a number of units, as a range of quarters of a unit. The ends belong to
the range when the last kept binary digit is even. -/
structure RoundingRange where
  /-- The lower end, in quarters of a unit. -/
  low : Nat
  /-- The upper end, in quarters of a unit. -/
  high : Nat
  /-- Whether the ends round to the number too. -/
  closed : Bool

/-- The range reaches half of the gap to the neighbour on either side; below a power of two the gap
is half as wide. -/
def roundingRange (units : Nat) : RoundingRange :=
  let lost := lostBits units
  let gap := twoPow lost
  let gapBelow := if 0 < lost && units == twoPow (52 + lost) then gap / 2 else gap
  { low := 4 * units - 2 * gapBelow
    high := 4 * units + 2 * gap
    closed := units / gap % 2 == 0 }

/-- Membership of the quotient `num / den`, counted in quarters of a unit. -/
def RoundingRange.contains (r : RoundingRange) (num den : Nat) : Bool :=
  if r.closed then r.low * den ≤ num && num ≤ r.high * den
  else r.low * den < num && num < r.high * den

/-- Decimals are compared after multiplication by `10 ^ decimalScale`, which leaves more than
seventeen digits before the point of every nonzero double. -/
def decimalScale : Nat := 341

/-- A number of units multiplied by `10 ^ decimalScale`, without the fraction. -/
def scaledWhole (units : Nat) : Nat := units * tenPow decimalScale / twoPow fractionBits

/-- The number of decimal digits. -/
def decimalLength (n : Nat) : Nat := (Nat.toDigits 10 n).length

/-- The two neighbours of a number on the grid of multiples of `grid`, the nearer one first. -/
def neighbours (tie : TieRule) (units grid : Nat) : Nat × Nat :=
  let below := scaledWhole units / grid
  let twice := 2 * units * tenPow decimalScale
  let middle := (2 * below + 1) * grid * twoPow fractionBits
  let aboveFirst :=
    match tie with
    | .toEven => middle < twice || (middle == twice && below % 2 == 1)
    | .upward => middle ≤ twice
  if aboveFirst then (below + 1, below) else (below, below + 1)

/-- Whether a multiple of `grid` rounds to the number of units. -/
def standsFor (units grid c : Nat) : Bool :=
  (roundingRange units).contains (4 * c * grid * twoPow fractionBits) (tenPow decimalScale)

/-- The decimal of `n` digits that stands for a nonzero number of units, if one does; `size` is the
number of digits of the scaled number. -/
def decimalOfLength (tie : TieRule) (units size n : Nat) : Option Decimal :=
  let grid := tenPow (size - n)
  let (near, far) := neighbours tie units grid
  let place := fun c => (⟨c, (size : Int) - n - decimalScale⟩ : Decimal)
  if standsFor units grid near then some (place near)
  else if standsFor units grid far then some (place far)
  else none

/-- The shortest decimal of a number of units; zero has the coefficient zero. -/
def shortestDecimal (tie : TieRule) (units : Nat) : Decimal :=
  if units = 0 then ⟨0, 0⟩
  else
    let size := decimalLength (scaledWhole units)
    let found := (List.range 17).findSome? fun i => decimalOfLength tie units size (i + 1)
    (found.getD ⟨0, 0⟩).dropZeros 18

end ClassContract
