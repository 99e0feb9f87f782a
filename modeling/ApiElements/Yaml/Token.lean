import ApiElements.Number.Numeral
import ApiElements.Number.Hexadecimal
import ApiElements.Yaml.Source

/-!
This module contains the tokens of a settings file, and the scanning of those that do not depend on
where lines are indented.
-/

namespace ApiElements

namespace Yaml

inductive Token where
  | version (major minor : Nat)
  | handle (name start : String)
  /-- A directive that means nothing here. -/
  | directive
  | documentStart
  | documentEnd
  | streamEnd
  | blockSequenceStart
  | blockMappingStart
  | blockEnd
  | flowSequenceStart
  | flowSequenceEnd
  | flowMappingStart
  | flowMappingEnd
  | blockEntry
  | flowEntry
  | key
  | value
  | alias (name : String)
  | anchor (name : String)
  | tag (handle : Option String) (suffix : String)
  /-- A scalar; one without quotation marks is plain and may stand for something else than text. -/
  | scalar (text : String) (plain : Bool)
deriving DecidableEq

/--
The tokens of a text up to a fault in it, if there is one. The fault shows only once all tokens
before it are used up.
-/
structure Tokens where
  ready : List Token
  fault : Option Fault := none

namespace Token

def scanName (s : Source) : Except Fault (String × Source) := do
  let (name, s) := s.next.span isNameChar
  let follows := isBlankOrBreakOrEnd s.peek || "?:,]\x7d%@`".toList.contains s.peek
  if name.isEmpty || !follows then fail else .ok (String.ofList name, s)

def scanHandle (s : Source) : Except Fault (String × Source) := do
  if s.peek != '!' then fail
  else
    let (name, after) := s.next.span isNameChar
    if s.peekAt 1 = ' ' then .ok ("!", s.next)
    else if after.peek = '!' then .ok ("!" ++ String.ofList name ++ "!", after.next)
    else fail

def isUriChar (c : Char) : Bool :=
  c.isAlphanum || "-;/?:@&=+$,_.!~*'()[]%".toList.contains c

def unescapeRun : List Char → Option (List UInt8 × List Char)
  | '%' :: a :: b :: rest => do
    let byte ← Hexadecimal.value? [a, b]
    let (bytes, rest) ← unescapeRun rest
    some (UInt8.ofNat byte :: bytes, rest)
  | '%' :: _ => none
  | cs => some ([], cs)

/--
The text of a run of address characters, in which a percent sign escapes a byte of a character.
-/
def unescapeUri : Nat → List Char → Option (List Char)
  | 0, _ => none
  | _, [] => some []
  | fuel + 1, '%' :: rest => do
    let (bytes, rest) ← unescapeRun ('%' :: rest)
    let text ← String.fromUTF8? ⟨bytes.toArray⟩
    (text.toList ++ ·) <$> unescapeUri fuel rest
  | fuel + 1, c :: rest => (c :: ·) <$> unescapeUri fuel rest

def scanUri (s : Source) : Except Fault (String × Source) :=
  let (run, after) := s.span isUriChar
  match unescapeUri (run.length + 1) run with
  | some [] => fail
  | some text => .ok (String.ofList text, after)
  | none => fail

/--
Reads a tag: a full one in angle brackets, a lone mark, or a suffix after a handle.
-/
def scanTag (s : Source) : Except Fault (Token × Source) := do
  let (token, after) ←
    if s.peekAt 1 = '<' then do
      let (suffix, after) ← scanUri (s.skip 2)
      if after.peek = '>' then .ok (Token.tag none suffix, after.next) else fail
    else if isBlankOrBreakOrEnd (s.peekAt 1) then .ok (Token.tag none "!", s.next)
    else do
      let word := (s.rest.drop 1).takeWhile fun c => !isSpaceOrBreakOrEnd c
      let (short, after) ← if word.contains '!' then scanHandle s else .ok ("!", s.next)
      let (suffix, after) ← scanUri after
      .ok (Token.tag (some short) suffix, after)
  if isSpaceOrBreakOrEnd after.peek then .ok (token, after) else fail

def scanNumber (s : Source) : Except Fault (Nat × Source) :=
  let (digits, after) := s.span Char.isDigit
  if digits.isEmpty then fail
  else if Numeral.digitLimit < digits.length then .error .numeralTooLong
  else .ok (Numeral.digitsValue digits, after)

def skipSpaces (s : Source) : Source := s.skipWhile (· = ' ')

def scanDirective (s : Source) : Except Fault (Token × Source) := do
  let (name, s) := s.next.span isNameChar
  if name.isEmpty || !isSpaceOrBreakOrEnd s.peek then fail
  else
    let (token, s) ←
      if name = "YAML".toList then do
        let (major, s) ← scanNumber (skipSpaces s)
        if s.peek != '.' then fail
        else
          let (minor, s) ← scanNumber s.next
          if isSpaceOrBreakOrEnd s.peek then .ok (Token.version major minor, s) else fail
      else if name = "TAG".toList then do
        let (short, s) ← scanHandle (skipSpaces s)
        if s.peek != ' ' then fail
        else
          let (start, s) ← scanUri (skipSpaces s)
          if isSpaceOrBreakOrEnd s.peek then .ok (Token.handle short start, s) else fail
      else .ok (Token.directive, s.skipWhile fun c => !isBreakOrEnd c)
    let s := (skipSpaces s).skipComment
    if isBreakOrEnd s.peek then .ok (token, s.takeBreak.2) else fail

end Token

end Yaml

end ApiElements
