import ApiElements.Number.Numeral
import ApiElements.Text.Digits

/-!
This module contains exact decimal numbers, which keep the places they were written with.
-/

namespace ApiElements

/--
A decimal number. A finite one is `coefficient * 10 ^ exponent`; numbers that differ in trailing
zeros are different decimals of the same value.
-/
inductive Decimal where
  | finite (negative : Bool) (coefficient : Nat) (exponent : Int)
  | infinite (negative : Bool)
  /--
  What is not a number, which may carry a number that tells why. A signaling one cannot be a key.
  Two of them are one thing only if they come from one source.
  -/
  | nan (negative signaling : Bool) (payload source : Nat)
deriving DecidableEq

namespace Decimal

/--
The greatest exponent of the first digit of a decimal.
-/
def greatestExponent : Int := Nat.pow 10 18 - 1

/--
The least exponent of the last digit of a decimal.
-/
def leastExponent : Int := 3 - 2 * Nat.pow 10 18

def leadingExponent (coefficient : Nat) (exponent : Int) : Int :=
  exponent + (Nat.toDigits 10 coefficient).length - 1

def ofNumeral? (n : Numeral) : Option Decimal :=
  if n.exponent < leastExponent ∨ greatestExponent < leadingExponent n.coefficient n.exponent then
    none
  else some (.finite n.negative n.coefficient n.exponent)

def payload? (digits : List Char) : Option Nat :=
  if digits.all Char.isDigit then some (Numeral.digitsValue digits) else none

def ofUnsigned? (source : Nat) (negative : Bool) (cs : List Char) : Option Decimal :=
  match cs.map Char.toLower with
  | 'n' :: 'a' :: 'n' :: digits => (payload? digits).map fun n => .nan negative false n source
  | 's' :: 'n' :: 'a' :: 'n' :: digits => (payload? digits).map fun n => .nan negative true n source
  | word =>
    if word = "inf".toList ∨ word = "infinity".toList then some (.infinite negative)
    else (Numeral.ofUnsigned? negative cs).bind ofNumeral?

/--
Reads a decimal between spaces. Its digits may be of any script, with underscores among them.
-/
def ofText? (source : Nat) (text : String) : Option Decimal :=
  let cs := (trimBy isAnySpace text.toList).filter (· != '_')
  let (negative, cs) := Numeral.spanSign (cs.map fun c => (asciiDigit? c).getD c)
  ofUnsigned? source negative cs

def isZero : Decimal → Bool
  | .finite _ coefficient _ => coefficient == 0
  | _ => false

/--
Whether a decimal may not be a key.
-/
def isSignaling : Decimal → Bool
  | .nan _ signaling _ _ => signaling
  | _ => false

/--
The text of a finite decimal without its sign: positional if no zero has to be added after the
digits and at most five between point and digits, with an exponent otherwise.
-/
def magnitudeText (coefficient : Nat) (exponent : Int) : List Char :=
  let digits := Nat.toDigits 10 coefficient
  let leading := leadingExponent coefficient exponent
  if exponent ≤ 0 ∧ -6 ≤ leading then
    let places := (-exponent).toNat
    let padded := List.replicate (places + 1 - digits.length) '0' ++ digits
    let whole := padded.take (padded.length - places)
    if places = 0 then whole else whole ++ '.' :: padded.drop (padded.length - places)
  else
    let fraction := digits.drop 1
    digits.take 1 ++ (if fraction.isEmpty then [] else '.' :: fraction) ++
      'E' :: (if leading < 0 then '-' else '+') :: Nat.toDigits 10 leading.natAbs

def signed (negative : Bool) (cs : List Char) : String :=
  String.ofList (if negative then '-' :: cs else cs)

def text : Decimal → String
  | .finite negative coefficient exponent => signed negative (magnitudeText coefficient exponent)
  | .infinite negative => signed negative "Infinity".toList
  | .nan negative signaling payload _ =>
    signed negative ((if signaling then "sNaN" else "NaN").toList ++
      if payload = 0 then [] else Nat.toDigits 10 payload)

end Decimal

end ApiElements
