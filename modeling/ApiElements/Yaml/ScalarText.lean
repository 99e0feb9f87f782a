import ApiElements.Yaml.Token

/-!
This module contains the scanning of scalars: plain ones, ones in quotation marks, and blocks of
lines. No loop takes more steps than the text has characters, and one more.
-/

namespace ApiElements

namespace Yaml

namespace ScalarText

/--
The breaks of empty lines, each of which may begin with blanks. A mark between documents may not
stand inside quotation marks.
-/
def quotedBreaks : Nat → Source → Except Fault (List Char × Source)
  | 0, s => .ok ([], s)
  | fuel + 1, s =>
    if s.atDocumentMark then fail
    else
      let s := s.skipWhile isBlank
      if isBreak s.peek then do
        let (lineBreak, s) := s.takeBreak
        let (others, s) ← quotedBreaks fuel s
        .ok (lineBreak ++ others, s)
      else .ok ([], s)

/--
What blanks and breaks within quotation marks stand for: blanks count on a line, one break counts as
a space, and of several the first does not count.
-/
def quotedSpaces (s : Source) : Except Fault (List Char × Source) := do
  let (blanks, s) := s.span isBlank
  if s.peek = endMark then fail
  else if isBreak s.peek then
    let (lineBreak, s) := s.takeBreak
    let (breaks, s) ← quotedBreaks (s.size + 1) s
    let first :=
      if lineBreak != ['\n'] then lineBreak else if breaks.isEmpty then [' '] else []
    .ok (first ++ breaks, s)
  else .ok (blanks, s)

def escapes : List (Char × Char) := [
  ('0', '\x00'), ('a', '\x07'), ('b', '\x08'), ('t', '\t'), ('\t', '\t'), ('n', '\n'),
  ('v', '\x0b'), ('f', '\x0c'), ('r', '\r'), ('e', '\x1b'), (' ', ' '), ('"', '"'),
  ('\\', '\\'), ('/', '/'), ('N', '\x85'), ('_', '\xa0'), ('L', '\u2028'), ('P', '\u2029')]

def codeWidth? (c : Char) : Option Nat :=
  if c = 'x' then some 2 else if c = 'u' then some 4 else if c = 'U' then some 8 else none

/--
The character of a code, if there is one. Half of a pair of 16-bit units is replaced.
-/
def codeChar (code : Nat) : Except Fault Char :=
  if 0x80000000 ≤ code then .error .tooWide
  else if 0x10FFFF < code then .error .noSuchCharacter
  else if 0xD800 ≤ code ∧ code < 0xE000 then .ok '\uFFFD'
  else .ok (Char.ofNat code)

def escape (s : Source) : Except Fault (List Char × Source) := do
  match escapes.find? (fun entry => entry.1 = s.peek), codeWidth? s.peek with
  | some (_, c), _ => .ok ([c], s.next)
  | none, some width =>
    let digits := (s.rest.drop 1).take width
    match Hexadecimal.value? digits with
    | some code =>
      if digits.length = width then do .ok ([← codeChar code], s.skip (width + 1)) else fail
    | none => fail
  | none, none =>
    if isBreak s.peek then quotedBreaks (s.size + 1) s.takeBreak.2 else fail

def quotedRun (double : Bool) : Nat → Source → Except Fault (List Char × Source)
  | 0, s => .ok ([], s)
  | fuel + 1, s => do
    let (run, s) := s.span fun c =>
      !(c = '\'' || c = '"' || c = '\\' || isBlankOrBreakOrEnd c)
    let c := s.peek
    -- Between single marks, two of them stand for one.
    if !double && c = '\'' && s.peekAt 1 = '\'' then
      let (others, s) ← quotedRun double fuel (s.skip 2)
      .ok (run ++ '\'' :: others, s)
    else if (double && c = '\'') || (!double && (c = '"' || c = '\\')) then
      let (others, s) ← quotedRun double fuel s.next
      .ok (run ++ c :: others, s)
    else if double && c = '\\' then
      let (chars, s) ← escape s.next
      let (others, s) ← quotedRun double fuel s
      .ok (run ++ chars ++ others, s)
    else .ok (run, s)

def quotedRest (mark : Char) : Nat → Source → Except Fault (List Char × Source)
  | 0, _ => fail
  | fuel + 1, s => do
    let (run, s) ← quotedRun (mark = '"') (s.size + 1) s
    if s.peek = mark then .ok (run, s.next)
    else
      let (spaces, s) ← quotedSpaces s
      let (others, s) ← quotedRest mark fuel s
      .ok (run ++ spaces ++ others, s)

def quoted (s : Source) : Except Fault (Token × Source) := do
  let (text, after) ← quotedRest s.peek (s.size + 1) s.next
  .ok (.scalar (String.ofList text) false, after)

/--
The run of characters of a plain scalar. It ends before a blank, before a colon that ends a key, and
within brackets before any mark of theirs.
-/
def plainRun (flow : Bool) : List Char → List Char
  | [] => []
  | c :: rest =>
    let follows := rest.headD endMark
    let marks := ",[]\x7b\x7d".toList
    if isBlankOrBreakOrEnd c then []
    else if c = ':' && (isBlankOrBreakOrEnd follows || (flow && marks.contains follows)) then []
    else if flow && (c = '?' || marks.contains c) then []
    else c :: plainRun flow rest

/--
The breaks after the first one within a plain scalar, or nothing if a mark between documents ends
it.
-/
def plainBreaks : Nat → Source → Option (List Char) × Source
  | 0, s => (some [], s)
  | fuel + 1, s =>
    let s := s.skipWhile (· = ' ')
    if isBreak s.peek then
      let (lineBreak, s) := s.takeBreak
      if s.atDocumentMark then (none, s)
      else
        let (others, s) := plainBreaks fuel s
        (others.map (lineBreak ++ ·), s)
    else (some [], s)

structure Gap where
  text : List Char
  broken : Bool
  after : Source

/--
Reads what stands between two runs of a plain scalar. It has no text if the scalar ends here.
-/
def plainGap (s : Source) : Gap :=
  let (blanks, s) := s.span (· = ' ')
  if isBreak s.peek then
    let (lineBreak, s) := s.takeBreak
    if s.atDocumentMark then ⟨[], true, s⟩
    else
      match plainBreaks (s.size + 1) s with
      | (none, s) => ⟨[], true, s⟩
      | (some breaks, s) =>
        let first :=
          if lineBreak != ['\n'] then lineBreak else if breaks.isEmpty then [' '] else []
        ⟨first ++ breaks, true, s⟩
  else ⟨blanks, false, s⟩

structure Plain where
  text : List Char := []
  /-- Whether a line ended after the last run. -/
  broken : Bool := false
  after : Source

/--
Reads the runs of a plain scalar. Outside of brackets every line of it is indented.
-/
def plainRuns (flow : Bool) (indent : Int) : Nat → List Char → Plain → Plain
  | 0, _, p => p
  | fuel + 1, spaces, p =>
    let s := p.after
    let run := if s.peek = '#' then [] else plainRun flow s.rest
    if run.isEmpty then p
    else
      let gap := plainGap (s.skip run.length)
      let p : Plain := ⟨p.text ++ spaces ++ run, gap.broken, gap.after⟩
      if gap.text.isEmpty || gap.after.peek = '#' ||
          (!flow && (gap.after.column : Int) < indent) then p
      else plainRuns flow indent fuel gap.text p

def plain (flow : Bool) (indent : Int) (s : Source) : Plain :=
  plainRuns flow (indent + 1) (s.size + 1) [] { after := s }

/--
How the breaks at the end of a block count: one of them, none, or all.
-/
inductive Chomping where
  | clip
  | strip
  | keep
deriving DecidableEq

def chomping? (c : Char) : Option Chomping :=
  if c = '+' then some .keep else if c = '-' then some .strip else none

def width? (c : Char) : Option Nat :=
  if c.isDigit then some (c.toNat - '0'.toNat) else none

def blockHeader (s : Source) : Except Fault (Chomping × Option Nat × Source) := do
  let (chomping, width, s) := match chomping? s.peek with
    | some chomping =>
      match width? s.next.peek with
      | some width => (chomping, some width, s.skip 2)
      | none => (chomping, none, s.next)
    | none =>
      match width? s.peek with
      | some width =>
        match chomping? s.next.peek with
        | some chomping => (chomping, some width, s.skip 2)
        | none => (Chomping.clip, some width, s.next)
      | none => (Chomping.clip, none, s)
  if width = some 0 || !isSpaceOrBreakOrEnd s.peek then fail
  else
    let s := (Token.skipSpaces s).skipComment
    if isBreakOrEnd s.peek then .ok (chomping, width, s.takeBreak.2) else fail

def skipIndent (indent : Nat) (s : Source) : Source :=
  s.skip ((s.rest.take (indent - s.column)).takeWhile (· = ' ')).length

def blockBreaks (indent : Nat) : Nat → Source → List Char × Source
  | 0, s => ([], s)
  | fuel + 1, s =>
    let s := skipIndent indent s
    if isBreak s.peek then
      let (lineBreak, s) := s.takeBreak
      let (others, s) := blockBreaks indent fuel s
      (lineBreak ++ others, s)
    else ([], s)

/--
The breaks of the empty lines at the start of a block, with the greatest column that spaces reach.
-/
def blockIndent : Nat → Nat → Source → List Char × Nat × Source
  | 0, widest, s => ([], widest, s)
  | fuel + 1, widest, s =>
    let s := Token.skipSpaces s
    let widest := max widest s.column
    if isBreak s.peek then
      let (lineBreak, s) := s.takeBreak
      let (others, widest, s) := blockIndent fuel widest s
      (lineBreak ++ others, widest, s)
    else ([], widest, s)

/--
Reads the lines of a block. In a folded one a single break between two lines that do not begin with
a blank counts as a space, and of several the first does not count.
-/
def blockLines (folded : Bool) (indent : Nat) :
    Nat → List Char → Source → List Char × List Char × List Char × Source
  | 0, breaks, s => ([], [], breaks, s)
  | fuel + 1, breaks, s =>
    if s.column = indent && s.peek != endMark then
      let outer := isBlank s.peek
      let (line, s) := s.span fun c => !isBreakOrEnd c
      let (lineBreak, s) := s.takeBreak
      let (after, s) := blockBreaks indent (s.size + 1) s
      let text := breaks ++ line
      if s.column = indent && s.peek != endMark then
        let joint :=
          if folded && lineBreak = ['\n'] && !outer && !isBlank s.peek then
            if after.isEmpty then [' '] else []
          else lineBreak
        let (others, last, ending, s) := blockLines folded indent fuel after s
        (text ++ joint ++ others, last, ending, s)
      else (text, lineBreak, after, s)
    else ([], [], breaks, s)

/--
Reads a block, which is indented more than what it belongs to.
-/
def block (indent : Int) (s : Source) : Except Fault (Token × Source) := do
  let folded := s.peek = '>'
  let (chomping, width, s) ← blockHeader s.next
  let least := (max 1 (indent + 1)).toNat
  let (breaks, indent, s) := match width with
    | some width =>
      let indent := least + width - 1
      let (breaks, s) := blockBreaks indent (s.size + 1) s
      (breaks, indent, s)
    | none =>
      let (breaks, widest, s) := blockIndent (s.size + 1) 0 s
      (breaks, max least widest, s)
  let (text, last, ending, s) := blockLines folded indent (s.size + 1) breaks s
  let text := text ++ (if chomping = .strip then [] else last) ++
    (if chomping = .keep then ending else [])
  .ok (.scalar (String.ofList text) false, s)

end ScalarText

end Yaml

end ApiElements
