import ApiElements.Number.Numeral
import ApiElements.Number.Shortest

/-!
This module contains the layout of number texts: whole numbers in full, binary64 numbers
positionally from `0.0001` up to sixteen digits before the point and with an exponent elsewhere.
-/

namespace ApiElements

structure NumberWords where
  nan : String
  infinity : String

namespace NumberWords

def json : NumberWords := ⟨"NaN", "Infinity"⟩

def plain : NumberWords := ⟨"nan", "inf"⟩

end NumberWords

namespace Double

/--
Digits with the point after the first `point` of them, filled up with zeros; there is always a digit
on either side of the point.
-/
def positional (digits : List Char) (point : Int) : List Char :=
  if point ≤ 0 then
    '0' :: '.' :: (List.replicate (-point).toNat '0' ++ digits)
  else
    let whole := digits.take point.toNat
    let fraction := digits.drop point.toNat
    whole ++ List.replicate (point.toNat - digits.length) '0' ++
      '.' :: (if fraction.isEmpty then ['0'] else fraction)

def exponentDigits (exponent : Int) : List Char :=
  let digits := Nat.toDigits 10 exponent.natAbs
  (if exponent < 0 then '-' else '+') :: (if digits.length < 2 then '0' :: digits else digits)

def exponential (digits : List Char) (exponent : Int) : List Char :=
  digits.take 1 ++ (if digits.length ≤ 1 then [] else '.' :: digits.drop 1) ++
    'e' :: exponentDigits exponent

def magnitudeText (mantissa : Nat) (exponent : Int) : List Char :=
  if mantissa = 0 then
    ['0', '.', '0']
  else
    let s := shortest mantissa exponent
    let digits := Nat.toDigits 10 s.digits
    let point := s.exponent + digits.length
    if -4 < point ∧ point ≤ 16 then positional digits point
    else exponential digits (point - 1)

def signed (negative : Bool) (text : String) : String :=
  if negative then "-" ++ text else text

def text (words : NumberWords) : Double → String
  | .nan _ => words.nan
  | .infinite negative => signed negative words.infinity
  | .finite negative mantissa exponent =>
    signed negative (String.ofList (magnitudeText mantissa exponent))

end Double

def wholeText (n : Int) : List Char :=
  if n < 0 then '-' :: Nat.toDigits 10 n.natAbs else Nat.toDigits 10 n.natAbs

def wholeLimit : Nat := Nat.pow 10 Numeral.digitLimit

def isShort (n : Int) : Bool :=
  n.natAbs < wholeLimit

end ApiElements
