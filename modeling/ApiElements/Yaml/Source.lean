import ApiElements.Fault

/-!
This module contains the text of a settings file while it is being read: what is left of it, and
where in the file that begins.
-/

namespace ApiElements

namespace Yaml

def fail {α : Type} : Except Fault α := .error .yaml

/--
The character that stands for the end of a text. No text may hold it.
-/
def endMark : Char := '\x00'

def isBreak (c : Char) : Bool :=
  c = '\n' || c = '\r' || c = '\x85' || c = '\u2028' || c = '\u2029'

def isBreakOrEnd (c : Char) : Bool := isBreak c || c = endMark

def isSpaceOrBreakOrEnd (c : Char) : Bool := c = ' ' || isBreakOrEnd c

def isBlank (c : Char) : Bool := c = ' ' || c = '\t'

def isBlankOrBreakOrEnd (c : Char) : Bool := isBlank c || isBreakOrEnd c

def isNameChar (c : Char) : Bool :=
  c.isAlphanum || c = '-' || c = '_'

/--
The characters that a text may hold: control characters are not among them.
-/
def isAllowed (c : Char) : Bool :=
  c = '\t' || c = '\n' || c = '\r' || c = '\x85' ||
    (0x20 ≤ c.toNat && c.toNat ≤ 0x7E) || (0xA0 ≤ c.toNat && c.toNat ≤ 0xFFFD) ||
    0x10000 ≤ c.toNat

/--
What is left of a text, with the number of characters before it and its line and column.
-/
structure Source where
  rest : List Char
  /-- The number of characters of the whole text, which no loop over them exceeds. -/
  size : Nat
  index : Nat := 0
  line : Nat := 0
  column : Nat := 0

namespace Source

def ofText (text : List Char) : Source := { rest := text, size := text.length }

def peek (s : Source) : Char := s.rest.headD endMark

def peekAt (s : Source) (n : Nat) : Char := (s.rest.drop n).headD endMark

/--
Moves past one character. A carriage return before a line feed does not end the line.
-/
def next (s : Source) : Source :=
  match s.rest with
  | [] => s
  | c :: rest =>
    if isBreak c && !(c = '\r' && rest.head? = some '\n') then
      { s with rest, index := s.index + 1, line := s.line + 1, column := 0 }
    else if c = '\uFEFF' then { s with rest, index := s.index + 1 }
    else { s with rest, index := s.index + 1, column := s.column + 1 }

def skip (s : Source) : Nat → Source
  | 0 => s
  | n + 1 => s.next.skip n

def span (s : Source) (p : Char → Bool) : List Char × Source :=
  let run := s.rest.takeWhile p
  (run, s.skip run.length)

def skipWhile (s : Source) (p : Char → Bool) : Source := (s.span p).2

/--
Moves past a line break, if there is one, and gives the break as it counts in a text.
-/
def takeBreak (s : Source) : List Char × Source :=
  let c := s.peek
  if c = '\r' && s.peekAt 1 = '\n' then (['\n'], s.skip 2)
  else if c = '\u2028' || c = '\u2029' then ([c], s.next)
  else if isBreak c then (['\n'], s.next)
  else ([], s)

/--
Whether one of the marks between documents comes next, on its own.
-/
def atDocumentMark (s : Source) : Bool :=
  (s.rest.take 3 = ['-', '-', '-'] || s.rest.take 3 = ['.', '.', '.']) &&
    isBlankOrBreakOrEnd (s.peekAt 3)

def skipComment (s : Source) : Source :=
  if s.peek = '#' then s.skipWhile (fun c => !isBreakOrEnd c) else s

end Source

end Yaml

end ApiElements
