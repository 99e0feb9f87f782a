import ApiElements.Number.Numeral
import ApiElements.Number.Hexadecimal
import ApiElements.Value.Access

/-!
This module contains the reading of JSON texts. Every reader takes the characters that are left and
returns what is left after it; a failure notes how many characters were left, which gives its
position once the whole text is known.
-/

namespace ApiElements

namespace Json

inductive Stop where
  | problem (problem : Problem) (left : Nat)
  | tooDeep
  | numeralTooLong

abbrev Reader (α : Type) := List Char → Except Stop (α × List Char)

def stopAt {α : Type} (problem : Problem) (left : List Char) : Except Stop α :=
  .error (.problem problem left.length)

def isBlank (c : Char) : Bool :=
  c = ' ' || c = '\t' || c = '\n' || c = '\r'

def skipBlank (cs : List Char) : List Char :=
  cs.dropWhile isBlank

/--
Reads the four digits of an escape, of which `u` and what follows are left. A text never ends right
after them.
-/
def readUnit (left : List Char) : Except Stop (Nat × List Char) :=
  let digits := left.drop 1
  if (digits.drop 4).isEmpty then stopAt .badUnicodeEscape left
  else match Hexadecimal.value? (digits.take 4) with
    | some unit => .ok (unit, digits.drop 4)
    | none => stopAt .badUnicodeEscape left

def isHighSurrogate (unit : Nat) : Bool := 0xD800 ≤ unit && unit < 0xDC00

def isLowSurrogate (unit : Nat) : Bool := 0xDC00 ≤ unit && unit < 0xE000

/--
The character of a unit that stands alone. Half a pair is no character and is replaced.
-/
def unitChar (unit : Nat) : Char :=
  if isHighSurrogate unit || isLowSurrogate unit then '\uFFFD' else Char.ofNat unit

/--
Reads the escape whose `u` comes next, with a second one if the two are a pair.
-/
def readUnicodeEscape : Reader Char := fun left => do
  let (unit, rest) ← readUnit left
  match rest with
  | '\\' :: 'u' :: digits =>
    if isHighSurrogate unit && !(digits.drop 4).isEmpty then
      let (low, rest') ← readUnit ('u' :: digits)
      if isLowSurrogate low then
        .ok (Char.ofNat (0x10000 + (unit - 0xD800) * 0x400 + (low - 0xDC00)), rest')
      -- An escape that does not complete the pair is left to be read by itself.
      else .ok (unitChar unit, rest)
    else .ok (unitChar unit, rest)
  | rest => .ok (unitChar unit, rest)

def simpleEscape? (c : Char) : Option Char :=
  if c = '"' then some '"'
  else if c = '\\' then some '\\'
  else if c = '/' then some '/'
  else if c = 'b' then some '\x08'
  else if c = 'f' then some '\x0c'
  else if c = 'n' then some '\n'
  else if c = 'r' then some '\r'
  else if c = 't' then some '\t'
  else none

/--
Reads one escape after its backslash. The text from the backslash on is `left`, and from the opening
quotation mark on `start`.
-/
def readEscape (start left : List Char) : Reader Char := fun rest =>
  match rest with
  | [] => stopAt .unterminatedString start
  | 'u' :: _ => readUnicodeEscape rest
  | c :: rest =>
    match simpleEscape? c with
    | some c => .ok (c, rest)
    | none => stopAt .badEscape left

def readChars (start : List Char) : Nat → Reader (List Char)
  | 0, _ => stopAt .unterminatedString start
  | fuel + 1, cs =>
    match cs with
    | [] => stopAt .unterminatedString start
    | '"' :: rest => .ok ([], rest)
    | '\\' :: rest => do
      let (c, rest) ← readEscape start cs rest
      let (others, rest) ← readChars start fuel rest
      .ok (c :: others, rest)
    | c :: rest =>
      if c.toNat < 0x20 then stopAt .controlCharacter cs
      else do
        let (others, rest) ← readChars start fuel rest
        .ok (c :: others, rest)

def readString (fuel : Nat) : Reader (List Char) := fun rest =>
  readChars ('"' :: rest) fuel rest

def readWhole (cs : List Char) : Option (List Char × List Char) :=
  match cs with
  | '0' :: rest => some (['0'], rest)
  | c :: _ => if c.isDigit then some (Numeral.spanDigits cs) else none
  | [] => none

def readFraction (cs : List Char) : Option (List Char × List Char) :=
  match cs with
  | '.' :: rest =>
    match Numeral.spanDigits rest with
    | ([], _) => none
    | found => some found
  | _ => none

def readExponent (cs : List Char) : Option (Int × List Char) :=
  match cs with
  | c :: rest =>
    if c = 'e' ∨ c = 'E' then
      let (negative, rest) := Numeral.spanSign rest
      match Numeral.spanDigits rest with
      | ([], _) => none
      | (digits, rest) =>
        let n : Int := Numeral.digitsValue digits
        some (if negative then -n else n, rest)
    else none
  | [] => none

/--
Reads a number. One with neither fraction nor exponent is whole.
-/
def readNumber : Reader Value := fun cs =>
  let (negative, unsigned) := match cs with
    | '-' :: rest => (true, rest)
    | cs => (false, cs)
  match readWhole unsigned with
  | none => stopAt .valueExpected cs
  | some (whole, rest) =>
    let fraction := readFraction rest
    let (places, afterFraction) := fraction.getD ([], rest)
    let exponent := readExponent afterFraction
    let (power, afterExponent) := exponent.getD (0, afterFraction)
    if fraction.isSome || exponent.isSome then
      let digits := Numeral.digitsValue (whole ++ places)
      .ok (.double (Double.ofScientific negative digits (power - places.length)), afterExponent)
    else if Numeral.digitLimit < whole.length then .error .numeralTooLong
    else
      let n : Int := Numeral.digitsValue whole
      .ok (.int (if negative then -n else n), rest)

def names : List (String × Value) := [
  ("null", .null), ("true", .bool true), ("false", .bool false),
  ("NaN", .double (.nan 0)), ("Infinity", .double (.infinite false)),
  ("-Infinity", .double (.infinite true))]

def readScalar : Reader Value := fun cs =>
  match names.find? fun entry => entry.1.toList.isPrefixOf cs with
  | some (name, v) => .ok (v, cs.drop name.length)
  | none => readNumber cs

def readItems (item : Reader Value) : Nat → Reader (List Value)
  | 0, cs => stopAt .valueExpected cs
  | fuel + 1, cs => do
    let (v, rest) ← item cs
    match skipBlank rest with
    | ']' :: rest => .ok ([v], rest)
    | ',' :: rest => do
      let (others, rest) ← readItems item fuel (skipBlank rest)
      .ok (v :: others, rest)
    | rest => stopAt .commaExpected rest

def readEntries (name : Reader (List Char)) (item : Reader Value) :
    Nat → Reader (List (Value × Value))
  | 0, cs => stopAt .nameExpected cs
  | fuel + 1, cs =>
    match cs with
    | '"' :: rest => do
      let (key, rest) ← name rest
      match skipBlank rest with
      | ':' :: rest => do
        let (v, rest) ← item (skipBlank rest)
        let entry := (Value.text (String.ofList key), v)
        match skipBlank rest with
        | '\x7d' :: rest => .ok ([entry], rest)
        | ',' :: rest => do
          let (others, rest) ← readEntries name item fuel (skipBlank rest)
          .ok (entry :: others, rest)
        | rest => stopAt .commaExpected rest
      | rest => stopAt .colonExpected rest
    | cs => stopAt .nameExpected cs

/--
Reads a value that may be nested `depth` levels deep, in at most `fuel` steps on each level. Of
several entries with one key the last counts, at the place of the first.
-/
def readValue (fuel depth : Nat) : Reader Value := fun cs =>
  match cs with
  | '"' :: rest => do
    let (s, rest) ← readString fuel rest
    .ok (.text (String.ofList s), rest)
  | '[' :: rest =>
    match depth with
    | 0 => .error .tooDeep
    | depth + 1 =>
      match skipBlank rest with
      | ']' :: rest => .ok (.list [], rest)
      | rest => do
        let (items, rest) ← readItems (readValue fuel depth) fuel rest
        .ok (.list items, rest)
  | '\x7b' :: rest =>
    match depth with
    | 0 => .error .tooDeep
    | depth + 1 =>
      match skipBlank rest with
      | '\x7d' :: rest => .ok (.object [], rest)
      | rest => do
        let (entries, rest) ← readEntries (readString fuel) (readValue fuel depth) fuel rest
        .ok (.object (Table.ofList entries), rest)
  | cs => readScalar cs

/--
Reads a text that holds one value and nothing else but blanks. Every step takes a character at
least.
-/
def readText (depth : Nat) (cs : List Char) : Except Stop Value := do
  let (v, rest) ← readValue (cs.length + 1) depth (skipBlank cs)
  match skipBlank rest with
  | [] => .ok v
  | rest => stopAt .extraData rest

def depthLimit : Nat := 990

def parse (text : String) : Except Fault Value :=
  let cs := text.toList
  -- A byte order mark is refused before anything is read.
  if cs.head? = some '\uFEFF' then .error (.json (.of .byteOrderMark cs 0))
  else match readText depthLimit cs with
    | .ok v => .ok v
    | .error (.problem problem left) => .error (.json (.of problem cs (cs.length - left)))
    | .error .tooDeep => .error .tooDeep
    | .error .numeralTooLong => .error .numeralTooLong

end Json

end ApiElements
