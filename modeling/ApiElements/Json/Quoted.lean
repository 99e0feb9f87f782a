import ApiElements.Number.Hexadecimal

/-!
This module contains the written form of JSON strings, which uses ASCII only: a character beyond it
is written by the 16-bit units that encode it.
-/

namespace ApiElements

namespace Json

def escapedUnit (unit : Nat) : List Char :=
  '\\' :: 'u' :: Hexadecimal.digits 4 unit

def surrogates (code : Nat) : Nat × Nat :=
  (0xD800 + (code - 0x10000) / 0x400, 0xDC00 + (code - 0x10000) % 0x400)

def escape (c : Char) : List Char :=
  if c = '"' ∨ c = '\\' then ['\\', c]
  else if c = '\n' then ['\\', 'n']
  else if c = '\r' then ['\\', 'r']
  else if c = '\t' then ['\\', 't']
  else if c = '\x08' then ['\\', 'b']
  else if c = '\x0c' then ['\\', 'f']
  else if 0x20 ≤ c.toNat ∧ c.toNat < 0x7F then [c]
  else if c.toNat < 0x10000 then escapedUnit c.toNat
  else
    let (high, low) := surrogates c.toNat
    escapedUnit high ++ escapedUnit low

def quotedChars (cs : List Char) : List Char :=
  '"' :: (cs.flatMap escape ++ ['"'])

end Json

end ApiElements
