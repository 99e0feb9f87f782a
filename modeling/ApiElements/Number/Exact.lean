import ApiElements.Number.Decimal
import ApiElements.Number.Double

/-!
This module contains the common ground on which numbers of different forms are compared: their exact
value, or one of the three that binary64 adds.
-/

namespace ApiElements

inductive Exact where
  | finite (value : Rat)
  /--
  The number `coefficient * 10 ^ exponent`, whose exponent is too far from zero to be multiplied
  out. The coefficient does not end in zero.
  -/
  | remote (coefficient exponent : Int)
  | infinite (negative : Bool)
  | nan (source : Nat)
deriving DecidableEq

namespace Exact

def scientificValue (negative : Bool) (coefficient : Nat) (exponent : Int) : Rat :=
  let (num, den) := Double.scaled coefficient 10 exponent
  let magnitude := mkRat num den
  if negative then -magnitude else magnitude

def nearLimit : Nat := 5000

def dropZeros : (fuel : Nat) → Nat → Nat × Nat
  | 0, n => (n, 0)
  | fuel + 1, n =>
    if n % 10 = 0 then
      let (n, count) := dropZeros fuel (n / 10)
      (n, count + 1)
    else (n, 0)

def ofScientific (negative : Bool) (coefficient : Nat) (exponent : Int) : Exact :=
  if coefficient = 0 then .finite 0
  else
    -- Without zeros at its end a number has one form only, so that remote ones can be compared.
    let (digits, count) := dropZeros coefficient.log2 coefficient
    let exponent := exponent + count
    if exponent.natAbs ≤ nearLimit then .finite (scientificValue negative digits exponent)
    else .remote (if negative then -(digits : Int) else digits) exponent

def ofBool (b : Bool) : Exact := .finite (if b then 1 else 0)

def ofInt (n : Int) : Exact :=
  if n.natAbs < Nat.pow 10 nearLimit then .finite n
  else ofScientific (decide (n < 0)) n.natAbs 0

def ofDouble (d : Double) : Exact :=
  match d.toRat?, d with
  | some q, _ => .finite q
  | none, .infinite negative => .infinite negative
  | none, .nan source => .nan source
  | none, _ => .nan 0

def ofDecimal : Decimal → Exact
  | .finite negative coefficient exponent => ofScientific negative coefficient exponent
  | .infinite negative => .infinite negative
  | .nan _ _ _ source => .nan source

def toRat? : Exact → Option Rat
  | .finite q => some q
  | .remote c e => some (scientificValue (decide (c < 0)) c.natAbs e)
  | _ => none

/--
The order of numbers; what is not a number is below nothing and above nothing.
-/
def lt (x y : Exact) : Bool :=
  match x.toRat?, y.toRat?, x, y with
  | some p, some q, _, _ => p < q
  | some _, none, _, .infinite negative => !negative
  | none, some _, .infinite negative, _ => negative
  | none, none, .infinite negative, .infinite negative' => negative && !negative'
  | _, _, _, _ => false

end Exact

end ApiElements
