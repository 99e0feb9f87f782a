import ApiElements.Yaml.Timestamp

/-!
This module contains the tags of settings, and which of them a plain scalar has by its looks.
-/

namespace ApiElements

namespace Yaml

namespace Tag

def basic : String := "tag:yaml.org,2002:"

def null : String := basic ++ "null"
def bool : String := basic ++ "bool"
def int : String := basic ++ "int"
def float : String := basic ++ "float"
def str : String := basic ++ "str"
def binary : String := basic ++ "binary"
def timestamp : String := basic ++ "timestamp"
def seq : String := basic ++ "seq"
def map : String := basic ++ "map"
def set : String := basic ++ "set"
def omap : String := basic ++ "omap"
def pairs : String := basic ++ "pairs"
def merge : String := basic ++ "merge"
def value : String := basic ++ "value"

/-- The tag of the marks that begin tags, anchors and aliases, where one of them is a text. -/
def mark : String := basic ++ "yaml"

end Tag

namespace Looks

def boolWords : List String := [
  "yes", "Yes", "YES", "no", "No", "NO", "true", "True", "TRUE", "false", "False", "FALSE",
  "on", "On", "ON", "off", "Off", "OFF"]

def nullWords : List String := ["~", "null", "Null", "NULL", ""]

def isDigitOrGap (c : Char) : Bool := c.isDigit || c = '_'

def dropSign : List Char → List Char
  | '-' :: cs => cs
  | '+' :: cs => cs
  | cs => cs

def isExponent : List Char → Bool
  | [] => true
  | e :: sign :: digits =>
    (e = 'e' || e = 'E') && (sign = '-' || sign = '+') && !digits.isEmpty &&
      digits.all Char.isDigit
  | _ => false

def isSixtieth : List Char → Bool
  | [c] => c.isDigit
  | [c, d] => c.isDigit && c < '6' && d.isDigit
  | _ => false

def splitColons (cs : List Char) : List (List Char) :=
  cs.foldr (fun c parts =>
    match parts with
    | part :: others => if c = ':' then [] :: part :: others else (c :: part) :: others
    | [] => []) [[]]

def isGappedNumber (cs : List Char) : Bool :=
  (cs.headD ' ').isDigit && cs.all isDigitOrGap

def isSexagesimal (cs : List Char) : Bool :=
  match splitColons cs with
  | first :: second :: others => isGappedNumber first && (second :: others).all isSixtieth
  | _ => false

def isInt (cs : List Char) : Bool :=
  match dropSign cs with
  | '0' :: 'b' :: digits => !digits.isEmpty && digits.all fun c => c = '0' || c = '1' || c = '_'
  | '0' :: 'x' :: digits =>
    !digits.isEmpty && digits.all fun c =>
      isDigitOrGap c || ('a' ≤ c && c ≤ 'f') || ('A' ≤ c && c ≤ 'F')
  | '0' :: digits => digits.all fun c => ('0' ≤ c && c ≤ '7') || c = '_'
  | cs => isGappedNumber cs || isSexagesimal cs

def isPointed (signed unsigned : List Char) : Bool :=
  let whole := unsigned.takeWhile isDigitOrGap
  match unsigned.dropWhile isDigitOrGap with
  | '.' :: rest =>
    let places := rest.takeWhile isDigitOrGap
    let wellBegun :=
      if whole.isEmpty then (places.headD ' ').isDigit && (signed.headD ' ') = '.'
      else (whole.headD ' ').isDigit
    wellBegun && isExponent (rest.dropWhile isDigitOrGap)
  | _ => false

def isSexagesimalPointed (unsigned : List Char) : Bool :=
  let whole := unsigned.takeWhile (· != '.')
  match unsigned.dropWhile (· != '.') with
  | '.' :: places => isSexagesimal whole && places.all isDigitOrGap
  | _ => false

def isFloat (cs : List Char) : Bool :=
  let unsigned := dropSign cs
  isPointed cs unsigned || isSexagesimalPointed unsigned ||
    [".inf", ".Inf", ".INF"].any (fun w => w.toList = unsigned) ||
    -- Unlike the others, these words may not have a sign.
    [".nan", ".NaN", ".NAN"].any (fun w => w.toList = cs)

def isTimestamp (cs : List Char) : Bool :=
  match Timestamp.ofChars? cs with
  | some t => t.isPlain
  | none => false

end Looks

/--
The words that have looks of their own: those for truth values and for `null`, and the marks.
-/
def Looks.ofWord? (word : String) : Option String :=
  if Looks.boolWords.contains word then some Tag.bool
  else if Looks.nullWords.contains word then some Tag.null
  else if word = "<<" then some Tag.merge
  else if word = "=" then some Tag.value
  else if word = "!" ∨ word = "&" ∨ word = "*" then some Tag.mark
  else none

/--
A text without a line feed at its end, unless it holds nothing else.
-/
def Looks.dropLineFeed (cs : List Char) : List Char :=
  if cs.length ≠ 1 ∧ cs.getLast? = some '\n' then cs.dropLast else cs

/--
The tag of a plain scalar that has none written before it. A line feed at its end does not count.
-/
def Tag.ofLooks (text : String) : String :=
  let cs := Looks.dropLineFeed text.toList
  match Looks.ofWord? (String.ofList cs) with
  | some tag => tag
  | none =>
    if Looks.isFloat cs then Tag.float
    else if Looks.isInt cs then Tag.int
    else if Looks.isTimestamp cs then Tag.timestamp
    else Tag.str

end Yaml

end ApiElements
