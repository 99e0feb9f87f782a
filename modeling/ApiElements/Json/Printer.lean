import ApiElements.Json.Quoted
import ApiElements.Number.Layout
import ApiElements.Value.Access

/-!
This module contains the writing of values as JSON text, on one line or with an indented line for
every item.
-/

namespace ApiElements

namespace Json

/--
How a text is laid out: on one line, or on lines that are indented for every level, by so many
spaces or by a text.
-/
inductive Layout where
  | oneLine
  | spaces (width : Nat)
  | lines (unit : List Char)

namespace Layout

def widthLimit : Int := Nat.pow 2 63

def memoryLimit : Int := Nat.pow 2 40

def ofWidth (n : Int) : Except Fault Layout :=
  -- Widths of 64 bits are tried; the negative ones among them count as zero.
  if n < -widthLimit ∨ widthLimit ≤ n then .error .tooWide
  else if memoryLimit ≤ n then .error .tooLarge
  else .ok (.spaces n.toNat)

/--
The layout that an indentation asks for: none for `null`, so many spaces for a number, and a text
for itself.
-/
def ofIndent : Value → Except Fault Layout
  | .null => .ok .oneLine
  | .text s => .ok (.lines s.toList)
  | .int n => ofWidth n
  | .bool b => ofWidth (if b then 1 else 0)
  | _ => .error (.mismatch .badIndent)

def lineBreak (layout : Layout) (level : Nat) : List Char :=
  match layout with
  | .oneLine => []
  | .spaces width => '\n' :: List.replicate (level * width) ' '
  | .lines unit => '\n' :: (List.replicate level unit).flatten

def separator (layout : Layout) (level : Nat) : List Char :=
  match layout with
  | .oneLine => [',', ' ']
  | _ => ',' :: layout.lineBreak level

def enclose (layout : Layout) (level : Nat) (opening closing : Char) (content : List Char) :
    List Char :=
  opening :: (layout.lineBreak (level + 1) ++ content ++ layout.lineBreak level ++ [closing])

end Layout

def boolChars (b : Bool) : List Char :=
  if b then "true".toList else "false".toList

def wholeChars (n : Int) : Except Fault (List Char) :=
  if isShort n then .ok (wholeText n) else .error .numeralTooLong

/--
A key as text: beside texts, numbers and the three names can be keys.
-/
def keyChars : Value → Except Fault (List Char)
  | .text s => .ok s.toList
  | .int n => wholeChars n
  | .double d => .ok (d.text .json).toList
  | .bool b => .ok (boolChars b)
  | .null => .ok "null".toList
  | _ => .error (.mismatch .unserializableKey)

mutual

def print (layout : Layout) (level : Nat) : Value → Except Fault (List Char)
  | .null => .ok "null".toList
  | .bool b => .ok (boolChars b)
  | .int n => wholeChars n
  | .double d => .ok (d.text .json).toList
  | .text s => .ok (quotedChars s.toList)
  | .list items => printArray layout level items
  | .tuple items => printArray layout level items
  | .object [] => .ok ['\x7b', '\x7d']
  | .object (entry :: rest) => do
    let content ← printEntries layout (level + 1) (entry :: rest)
    .ok (layout.enclose level '\x7b' '\x7d' content)
  | .loop => .error .circular
  | _ => .error (.mismatch .unserializable)
termination_by structural v => v

def printArray (layout : Layout) (level : Nat) : List Value → Except Fault (List Char)
  | [] => .ok ['[', ']']
  | x :: xs => do
    let first ← print layout (level + 1) x
    let others ← printItems layout (level + 1) xs
    .ok (layout.enclose level '[' ']' (first ++ others))
termination_by structural xs => xs

def printItems (layout : Layout) (level : Nat) : List Value → Except Fault (List Char)
  | [] => .ok []
  | x :: xs => do
    let first ← print layout level x
    let others ← printItems layout level xs
    .ok (layout.separator level ++ first ++ others)
termination_by structural xs => xs

def printEntries (layout : Layout) (level : Nat) : List (Value × Value) → Except Fault (List Char)
  | [] => .ok []
  | (k, v) :: rest => do
    let key ← keyChars k
    let value ← print layout level v
    let others ← printEntries layout level rest
    let gap := if rest.isEmpty then [] else layout.separator level
    .ok (quotedChars key ++ [':', ' '] ++ value ++ gap ++ others)
termination_by structural entries => entries

end

/--
The JSON text of a value. A value that is itself a text has no use for an indentation, so that any
is accepted.
-/
def render (indent : Value) (v : Value) : Except Fault String :=
  match v with
  | .text s => .ok (String.ofList (quotedChars s.toList))
  | v => do
    let layout ← Layout.ofIndent indent
    .ok (String.ofList (← print layout 0 v))

end Json

end ApiElements
