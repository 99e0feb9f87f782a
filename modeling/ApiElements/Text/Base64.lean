/-!
This module contains the reading of bytes in base 64. Characters that are no digits are skipped, and
what follows a complete padding is not looked at.
-/

namespace ApiElements

namespace Base64

def digitValue? (c : Char) : Option Nat :=
  if 'A' ≤ c ∧ c ≤ 'Z' then some (c.toNat - 'A'.toNat)
  else if 'a' ≤ c ∧ c ≤ 'z' then some (c.toNat - 'a'.toNat + 26)
  else if c.isDigit then some (c.toNat - '0'.toNat + 52)
  else if c = '+' then some 62
  else if c = '/' then some 63
  else none

/--
The bytes of the digits that are left, after `place` digits of a group of four. Of those `carry`
holds the bits that no byte has taken yet. A group may end early only after two digits, with marks
in place of those that are missing; marks are counted since the last digit.
-/
def bytesFrom (place carry marks : Nat) : List Char → Option (List UInt8)
  | [] => if place = 0 then some [] else none
  | '=' :: rest =>
    if 2 ≤ place then
      if 4 ≤ place + marks + 1 then some [] else bytesFrom place carry (marks + 1) rest
    else bytesFrom place carry marks rest
  | c :: rest =>
    match digitValue? c with
    | none => bytesFrom place carry marks rest
    | some d =>
      match place with
      | 0 => bytesFrom 1 d 0 rest
      | 1 => (UInt8.ofNat (carry * 4 + d / 16) :: ·) <$> bytesFrom 2 (d % 16) 0 rest
      | 2 => (UInt8.ofNat (carry * 16 + d / 4) :: ·) <$> bytesFrom 3 (d % 4) 0 rest
      | _ => (UInt8.ofNat (carry * 64 + d) :: ·) <$> bytesFrom 0 0 0 rest

def bytes? (text : String) : Option (List UInt8) :=
  bytesFrom 0 0 0 text.toList

end Base64

end ApiElements
