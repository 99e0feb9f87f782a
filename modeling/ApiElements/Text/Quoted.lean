import ApiElements.Number.Hexadecimal
import ApiElements.Text.Printable

/-!
This module contains texts in quotation marks, as messages show them: printable characters stand for
themselves and all others are escaped.
-/

namespace ApiElements

namespace Quoted

def escape (mark : Char) (c : Char) : List Char :=
  if c = mark ∨ c = '\\' then ['\\', c]
  else if c = '\n' then ['\\', 'n']
  else if c = '\r' then ['\\', 'r']
  else if c = '\t' then ['\\', 't']
  else if isPrintable c then [c]
  else if c.toNat < 0x100 then '\\' :: 'x' :: Hexadecimal.digits 2 c.toNat
  else if c.toNat < 0x10000 then '\\' :: 'u' :: Hexadecimal.digits 4 c.toNat
  else '\\' :: 'U' :: Hexadecimal.digits 8 c.toNat

/--
Single marks, unless the text holds those and no double ones.
-/
def mark (cs : List Char) : Char :=
  if cs.contains '\'' && !cs.contains '"' then '"' else '\''

end Quoted

def quoted (text : String) : String :=
  let cs := text.toList
  let mark := Quoted.mark cs
  String.ofList (mark :: (cs.flatMap (Quoted.escape mark) ++ [mark]))

/--
Bytes between quotation marks, after a letter that tells them from a text. Those that are not
printable ASCII are escaped.
-/
def quotedBytes (bytes : List UInt8) : String :=
  let cs := bytes.map fun b => Char.ofNat b.toNat
  let mark := Quoted.mark cs
  String.ofList ('b' :: mark :: (cs.flatMap (escape mark) ++ [mark]))
where
  escape (mark : Char) (c : Char) : List Char :=
    if c.toNat < 0x80 then Quoted.escape mark c
    else '\\' :: 'x' :: Hexadecimal.digits 2 c.toNat

end ApiElements
