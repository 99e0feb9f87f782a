import ApiElements.Number.Double

/-!
This module contains the choice of decimal digits for a binary64 number: the fewest digits that
read back to it and, of those, the ones nearest to it.
-/

namespace ApiElements

namespace Double

/--
A positive decimal number, `digits * 10 ^ exponent`.
-/
structure Scientific where
  digits : Nat
  exponent : Int
deriving DecidableEq

namespace Shortest

/--
The reals that round to a number, counted in quarters of its unit: from halfway to the neighbour
below to halfway to the neighbour above. Below a power of two the neighbours are half as far apart.
-/
structure Interval where
  low : Nat
  middle : Nat
  high : Nat
  /-- Ends belong to the interval exactly when the mantissa is even. -/
  closed : Bool
  /-- The power of two of a quarter unit. -/
  exponent : Int

def Interval.of (mantissa : Nat) (exponent : Int) : Interval where
  low :=
    if mantissa = leastNormal ∧ leastExponent < exponent then 4 * mantissa - 1
    else 4 * mantissa - 2
  middle := 4 * mantissa
  high := 4 * mantissa + 2
  closed := mantissa % 2 == 0
  exponent := exponent - 2

def factors (place exponent : Int) : Nat × Nat :=
  (Nat.pow 10 place.toNat * Nat.pow 2 (-exponent).toNat,
    Nat.pow 2 exponent.toNat * Nat.pow 10 (-place).toNat)

def Interval.holds (i : Interval) (digits : Nat) (place : Int) : Bool :=
  let (f, g) := factors place i.exponent
  let x := digits * f
  if i.closed then i.low * g ≤ x && x ≤ i.high * g else i.low * g < x && x < i.high * g

/--
The decimal on the grid of `10 ^ place` that reads back, if one of the two neighbours of the number
does; the nearer one if both do, and the even one if they are equally near.
-/
def Interval.onGrid? (i : Interval) (place : Int) : Option Nat :=
  let (f, g) := factors place i.exponent
  let below := i.middle * g / f
  let above := below + 1
  match i.holds below place, i.holds above place with
  | true, true =>
    let twice := 2 * (i.middle * g)
    let sum := (below + above) * f
    if twice < sum ∨ (twice = sum ∧ below % 2 = 0) then some below else some above
  | true, false => some below
  | false, true => some above
  | false, false => none

def Interval.search (i : Interval) : Nat → Int → Option Scientific
  | 0, _ => none
  | fuel + 1, place =>
    match i.onGrid? place with
    | some digits => some ⟨digits, place⟩
    | none => i.search fuel (place - 1)

end Shortest

/--
The decimal with the fewest digits that reads back to `mantissa * 2 ^ exponent`, for a positive
mantissa. The search starts above the number, at a power of ten taken from its binary logarithm;
twenty grids always suffice, and past them the exact whole multiple would be answered.
-/
def shortest (mantissa : Nat) (exponent : Int) : Scientific :=
  let top := ((mantissa.log2 : Int) + exponent + 2) * 30103 / 100000 + 1
  match (Shortest.Interval.of mantissa exponent).search 24 top with
  | some s => s
  | none => ⟨mantissa * Nat.pow 2 exponent.toNat * Nat.pow 5 (-exponent).toNat, min exponent 0⟩

end Double

end ApiElements
