/-!
This module contains what can be wrong with a JSON text, and where.
-/

namespace ApiElements

namespace Json

inductive Problem where
  | valueExpected
  | nameExpected
  | colonExpected
  | commaExpected
  | extraData
  | unterminatedString
  | controlCharacter
  | badEscape
  | badUnicodeEscape
  | byteOrderMark
deriving DecidableEq

def Problem.message : Problem → String
  | .valueExpected => "Expecting value"
  | .nameExpected => "Expecting property name enclosed in double quotes"
  | .colonExpected => "Expecting ':' delimiter"
  | .commaExpected => "Expecting ',' delimiter"
  | .extraData => "Extra data"
  | .unterminatedString => "Unterminated string starting at"
  | .controlCharacter => "Invalid control character at"
  | .badEscape => "Invalid \\escape"
  | .badUnicodeEscape => "Invalid \\uXXXX escape"
  | .byteOrderMark => "Unexpected UTF-8 BOM (decode using utf-8-sig)"

/--
A problem with its place: the number of characters before it, and its line and column, which count
from one.
-/
structure SyntaxError where
  problem : Problem
  line : Nat
  column : Nat
  position : Nat
deriving DecidableEq

namespace SyntaxError

def of (problem : Problem) (text : List Char) (position : Nat) : SyntaxError where
  problem := problem
  line := (text.take position).count '\n' + 1
  column := ((text.take position).reverse.takeWhile (· != '\n')).length + 1
  position := position

def message (e : SyntaxError) : String :=
  e.problem.message ++ ": line " ++ toString e.line ++ " column " ++ toString e.column ++
    " (char " ++ toString e.position ++ ")"

end SyntaxError

end Json

end ApiElements
