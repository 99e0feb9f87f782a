import ApiElements.Fault
import ApiElements.Number.Double
import ApiElements.Number.Hexadecimal
import ApiElements.Number.Numeral
import ApiElements.Text.Digits
import ApiElements.Yaml.Tag

/-!
This module contains the numbers that scalars of settings files stand for.
-/

namespace ApiElements

namespace Yaml

namespace Number

def malformed {α : Type} : Except Fault α := .error .malformedNumeral

/--
A text in ASCII that spells the same number, without the spaces at its ends. Digits and spaces
beyond ASCII count like those of ASCII.
-/
def spelled (cs : List Char) : Except Fault (List Char) :=
  match cs.mapM toAscii? with
  | some cs => .ok (trimBy isAsciiSpace cs)
  | none => malformed
where
  toAscii? (c : Char) : Option Char :=
    if c.toNat < 0x80 then some c else if isForeignSpace c then some ' ' else asciiDigit? c

def digitsIn? (base : Nat) (cs : List Char) : Option Nat :=
  cs.foldlM (fun n c =>
    match Hexadecimal.digitValue? c with
    | some d => if d < base then some (base * n + d) else none
    | none => none) 0

def baseLetter (base : Nat) : Option Char :=
  if base = 2 then some 'b' else if base = 8 then some 'o' else if base = 16 then some 'x' else none

def dropBaseMark (base : Nat) (cs : List Char) : List Char :=
  match cs with
  | '0' :: letter :: rest => if baseLetter base = some letter.toLower then rest else cs
  | cs => cs

/--
The whole number that a text spells in a base: a sign, the mark of the base and digits, between
spaces. A decimal one may not have too many digits.
-/
def wholeIn (base : Nat) (cs : List Char) : Except Fault Int := do
  let (negative, cs) := Numeral.spanSign (← spelled cs)
  let digits := dropBaseMark base cs
  if digits.isEmpty then malformed
  else match digitsIn? base digits with
    | none => malformed
    | some n =>
      if base = 10 ∧ Numeral.digitLimit < digits.length then .error .numeralTooLong
      else .ok (if negative then -(n : Int) else n)

def withoutGaps (text : String) : List Char :=
  text.toList.filter (· != '_')

/--
The whole number of a scalar: binary, hexadecimal or octal by how it begins, with places counted in
sixties if it has colons, and decimal otherwise.
-/
def whole (text : String) : Except Fault Int := do
  match withoutGaps text with
  | [] => .error .noItem
  | c :: rest =>
    let unsigned := if c = '-' || c = '+' then rest else c :: rest
    let n ← match unsigned with
      | [] => .error .noItem
      | ['0'] => .ok 0
      | '0' :: 'b' :: digits => wholeIn 2 digits
      | '0' :: 'x' :: digits => wholeIn 16 digits
      | '0' :: _ => wholeIn 8 unsigned
      | _ =>
        if unsigned.contains ':' then do
          let places ← (Looks.splitColons unsigned).mapM (wholeIn 10)
          .ok (places.foldl (fun n place => 60 * n + place) 0)
        else wholeIn 10 unsigned
    .ok (if c = '-' then -n else n)

def pointed (cs : List Char) : Except Fault Double := do
  let (negative, cs) := Numeral.spanSign (← spelled cs)
  let word := String.ofList cs
  if word = "inf" ∨ word = "infinity" then .ok (.infinite negative)
  else if word = "nan" then .ok (.nan 0)
  else match Numeral.ofUnsigned? negative cs with
    | some n => .ok (Double.ofScientific n.negative n.coefficient n.exponent)
    | none => malformed

/--
The sum of places counted in sixties, the last one first. Every step is rounded, also that from one
power of sixty to the next, and no power may be too large for a binary64 number.
-/
def sumOfSixties (places : List Double) : Except Fault Double := do
  let (sum, _) ← places.foldlM (fun (sum, base) place =>
    match Double.ofInt? base with
    | some factor => .ok (sum.add (place.mul factor), 60 * base)
    | none => .error .tooWide) (Double.finite false 0 Double.leastExponent, (1 : Int))
  .ok sum

/--
The binary64 number of a scalar. What is not a number is the same wherever it is written by its own
word, and comes from the given source otherwise.
-/
def double (source : Nat) (text : String) : Except Fault Double := do
  match (withoutGaps text).map Char.toLower with
  | [] => .error .noItem
  | c :: rest =>
    let unsigned := if c = '-' || c = '+' then rest else c :: rest
    let d ←
      if unsigned = ".inf".toList then .ok (Double.infinite false)
      else if unsigned = ".nan".toList then .ok (Double.nan 0)
      else if unsigned.contains ':' then do
        let places ← (Looks.splitColons unsigned).mapM pointed
        (·.withSource source) <$> sumOfSixties places.reverse
      else (·.withSource source) <$> pointed unsigned
    .ok (if c = '-' then d.neg else d)

end Number

end Yaml

end ApiElements
