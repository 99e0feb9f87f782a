/-!
This module contains binary64 numbers, as a sign, a whole mantissa and a power of two, together
with the rounding of an exact quotient to the nearest of them.
-/

namespace ApiElements

/--
A binary64 number. A finite one is `mantissa * 2 ^ exponent`, with a mantissa below `2 ^ 53` that is
at least `2 ^ 52` unless the exponent is the least one; both zeros exist.
-/
inductive Double where
  /-- What is not a number. Two of them are one thing only if they come from one source. -/
  | nan (source : Nat)
  | infinite (negative : Bool)
  | finite (negative : Bool) (mantissa : Nat) (exponent : Int)
deriving DecidableEq

namespace Double

def leastExponent : Int := -1074

def greatestExponent : Int := 971

def leastNormal : Nat := Nat.pow 2 52

/--
The quotient rounded to a whole number, a half going to the even neighbour.
-/
def roundHalfEven (num den : Nat) : Nat :=
  let q := num / den
  let r := num % den
  if den < 2 * r ∨ (2 * r = den ∧ q % 2 = 1) then q + 1 else q

def scaled (n base : Nat) (exponent : Int) : Nat × Nat :=
  (n * Nat.pow base exponent.toNat, Nat.pow base (-exponent).toNat)

def inUnits (num den : Nat) (exponent : Int) : Nat × Nat :=
  (num * Nat.pow 2 (-exponent).toNat, den * Nat.pow 2 exponent.toNat)

/--
The exponent at which `num / den` has 53 binary digits before the point, or the least one. The
binary logarithms miss it by at most one.
-/
def unitExponent (num den : Nat) : Int :=
  let estimate : Int := (num.log2 : Int) - den.log2 - 52
  let (n, d) := inUnits num den estimate
  let exact := if n / d < leastNormal then estimate - 1 else estimate
  max exact leastExponent

/--
The number nearest to `num / den`, a tie going to the even mantissa. What rounds past the greatest
finite number is infinite.
-/
def nearest (negative : Bool) (num den : Nat) : Double :=
  if num = 0 then
    .finite negative 0 leastExponent
  else
    let exponent := unitExponent num den
    let (n, d) := inUnits num den exponent
    let rounded := roundHalfEven n d
    -- Rounding up may have carried to one binary digit more.
    let (mantissa, exponent) :=
      if rounded = 2 * leastNormal then (leastNormal, exponent + 1) else (rounded, exponent)
    if greatestExponent < exponent then .infinite negative
    else .finite negative mantissa exponent

/--
The number nearest to `digits * 10 ^ exponent`. Powers far outside the range of finite numbers are
answered without being computed.
-/
def ofScientific (negative : Bool) (digits : Nat) (exponent : Int) : Double :=
  let magnitude := exponent + (Nat.toDigits 10 digits).length
  if digits = 0 ∨ magnitude < -400 then .finite negative 0 leastExponent
  else if 400 < magnitude then .infinite negative
  else
    let (num, den) := scaled digits 10 exponent
    nearest negative num den

/--
The number nearest to a rational one; zero gets the positive sign.
-/
def ofRat (q : Rat) : Double :=
  nearest (decide (q < 0)) q.num.natAbs q.den

def toRat? : Double → Option Rat
  | .finite negative mantissa exponent =>
    let (num, den) := scaled mantissa 2 exponent
    let magnitude := mkRat num den
    some (if negative then -magnitude else magnitude)
  | _ => none

def isZero : Double → Bool
  | .finite _ mantissa _ => mantissa == 0
  | _ => false

def isNegative : Double → Bool
  | .nan _ => false
  | .infinite negative => negative
  | .finite negative _ _ => negative

def neg : Double → Double
  | .nan source => .nan source
  | .infinite negative => .infinite !negative
  | .finite negative mantissa exponent => .finite (!negative) mantissa exponent

/--
The sum, rounded once. The sum of two zeros is negative only if both are.
-/
def add (x y : Double) : Double :=
  match x.toRat?, y.toRat? with
  | some p, some q =>
    if x.isZero && y.isZero then .finite (x.isNegative && y.isNegative) 0 leastExponent
    else ofRat (p + q)
  | some _, none => y
  | none, some _ => x
  -- Infinities of different signs have no sum.
  | none, none => if x = y then x else .nan 0

def mul (x y : Double) : Double :=
  match x, y with
  | .finite negative mantissa exponent, .finite negative' mantissa' exponent' =>
    let (num, den) := scaled (mantissa * mantissa') 2 (exponent + exponent')
    nearest (negative != negative') num den
  | .nan source, _ => .nan source
  | _, .nan source => .nan source
  | x, y =>
    if x.isZero || y.isZero then .nan 0 else .infinite (x.isNegative != y.isNegative)

def ofInt? (n : Int) : Option Double :=
  match nearest (decide (n < 0)) n.natAbs 1 with
  | .finite negative mantissa exponent => some (.finite negative mantissa exponent)
  | _ => none

/--
Gives a source of its own to what is not a number.
-/
def withSource (source : Nat) : Double → Double
  | .nan _ => .nan source
  | x => x

end Double

end ApiElements
