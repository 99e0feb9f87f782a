import ApiElements.Yaml.ScalarText

/-!
This module contains the division of a settings file into tokens. Where a collection begins and ends
follows from the indentation of lines, and whether a scalar is a key is known only when a colon
comes after it, so that the mark of a key may have to be put in before tokens that were read
already.
-/

namespace ApiElements

namespace Yaml

/--
Something that turns out to be a key if a colon follows on its line, soon enough.
-/
structure PendingKey where
  /-- The number of tokens before it. -/
  place : Nat
  /-- Whether nothing else than a key can stand there. -/
  required : Bool
  source : Source

structure Scan where
  source : Source
  tokens : Array Token := #[]
  /-- The number of open brackets. -/
  flow : Nat := 0
  /-- The column of the innermost collection of lines, which is -1 if there is none. -/
  indent : Int := -1
  /-- The columns of the collections around it. -/
  outer : List Int := []
  keyAllowed : Bool := true
  /-- The pending key of each number of open brackets. -/
  pending : List (Nat × PendingKey) := []
  finished : Bool := false

namespace Scan

def push (s : Scan) (token : Token) : Scan :=
  { s with tokens := s.tokens.push token }

def pushMark (s : Scan) (token : Token) (width : Nat) : Scan :=
  { s with tokens := s.tokens.push token, source := s.source.skip width }

def pushRead (s : Scan) (token : Token) (after : Source) : Scan :=
  { s with tokens := s.tokens.push token, source := after }

def insertAt (s : Scan) (place : Nat) (tokens : List Token) : Scan :=
  { s with tokens := tokens.foldr (fun token all => all.insertIdxIfInBounds place token) s.tokens }

def inFlow (s : Scan) : Bool := s.flow != 0

/--
Ends the collections of lines that are indented further than a column.
-/
def unwind (s : Scan) (column : Int) : Scan :=
  if s.inFlow then s else go s s.outer
where
  go (s : Scan) : List Int → Scan
    | [] => s
    | indent :: outer =>
      if column < s.indent then
        go { s with tokens := s.tokens.push .blockEnd, indent, outer } outer
      else s

/--
Begins a collection of lines at a column, unless one has begun there.
-/
def indentTo (s : Scan) (column : Int) : Bool × Scan :=
  if s.indent < column then (true, { s with indent := column, outer := s.indent :: s.outer })
  else (false, s)

def dropPending (s : Scan) : Except Fault Scan :=
  match s.pending.find? fun entry => entry.1 = s.flow with
  | some (_, key) =>
    if key.required then fail
    else .ok { s with pending := s.pending.filter fun entry => entry.1 != s.flow }
  | none => .ok s

def savePending (s : Scan) : Except Fault Scan := do
  if s.keyAllowed then
    let s ← s.dropPending
    let required := !s.inFlow && s.indent = s.source.column
    .ok { s with pending := (s.flow, ⟨s.tokens.size, required, s.source⟩) :: s.pending }
  else .ok s

def keyLimit : Nat := 1024

def isStale (s : Scan) (key : PendingKey) : Bool :=
  key.source.line != s.source.line || key.source.index + keyLimit < s.source.index

def dropStale (s : Scan) : Except Fault Scan :=
  if s.pending.any fun entry => s.isStale entry.2 && entry.2.required then fail
  else .ok { s with pending := s.pending.filter fun entry => !s.isStale entry.2 }

/--
Moves past spaces, comments and breaks to the next token. A key may begin on a new line.
-/
def skipToToken (s : Scan) : Scan :=
  go (s.source.size + 1)
    (if s.source.index = 0 && s.source.peek = '\uFEFF' then { s with source := s.source.next }
     else s)
where
  go : Nat → Scan → Scan
    | 0, s => s
    | fuel + 1, s =>
      let source := (Token.skipSpaces s.source).skipComment
      if isBreak source.peek then
        go fuel { s with
          source := source.takeBreak.2
          keyAllowed := s.keyAllowed || !s.inFlow }
      else { s with source }

def closeAll (s : Scan) : Except Fault Scan := do
  let s ← (s.unwind (-1)).dropPending
  .ok { s with keyAllowed := false }

def finish (s : Scan) : Except Fault Scan := do
  let s ← s.closeAll
  .ok { s.push .streamEnd with finished := true }

def directive (s : Scan) : Except Fault Scan := do
  let s ← s.closeAll
  let (token, after) ← Token.scanDirective s.source
  .ok (s.pushRead token after)

def documentMark (s : Scan) (token : Token) : Except Fault Scan := do
  .ok ((← s.closeAll).pushMark token 3)

def openBracket (s : Scan) (token : Token) : Except Fault Scan := do
  let s ← s.savePending
  .ok { s.pushMark token 1 with flow := s.flow + 1, keyAllowed := true }

def closeBracket (s : Scan) (token : Token) : Except Fault Scan := do
  if s.inFlow then
    let s ← s.dropPending
    .ok { s.pushMark token 1 with flow := s.flow - 1, keyAllowed := false }
  else fail

def flowEntry (s : Scan) : Except Fault Scan := do
  let s ← { s with keyAllowed := true }.dropPending
  .ok (s.pushMark .flowEntry 1)

def beginLines (s : Scan) (start : Token) : Except Fault Scan :=
  if s.inFlow then .ok s
  else if s.keyAllowed then
    let (begun, s) := s.indentTo s.source.column
    .ok (if begun then s.push start else s)
  else fail

def blockEntry (s : Scan) : Except Fault Scan := do
  let s ← s.beginLines .blockSequenceStart
  let s ← { s with keyAllowed := true }.dropPending
  .ok (s.pushMark .blockEntry 1)

def keyMark (s : Scan) : Except Fault Scan := do
  let s ← s.beginLines .blockMappingStart
  let s ← { s with keyAllowed := !s.inFlow }.dropPending
  .ok (s.pushMark .key 1)

/--
A colon. It makes the pending key a key, before which a mapping may begin; without one it stands for
itself.
-/
def valueMark (s : Scan) : Except Fault Scan := do
  match s.pending.find? fun entry => entry.1 = s.flow with
  | some (_, key) =>
    let s := { s with
      pending := s.pending.filter fun entry => entry.1 != s.flow
      keyAllowed := false }
    -- The marks go in before the tokens that have been read since the key began.
    let (begun, s) := if s.inFlow then (false, s) else s.indentTo key.source.column
    let marks := if begun then [Token.blockMappingStart, .key] else [Token.key]
    .ok ((s.insertAt key.place marks).pushMark .value 1)
  | none =>
    let s ← s.beginLines .blockMappingStart
    let s ← { s with keyAllowed := !s.inFlow }.dropPending
    .ok (s.pushMark .value 1)

def simple (s : Scan) (read : Source → Except Fault (Token × Source)) : Except Fault Scan := do
  let s ← s.savePending
  let (token, after) ← read s.source
  .ok ({ s with keyAllowed := false }.pushRead token after)

def block (s : Scan) : Except Fault Scan := do
  let s ← { s with keyAllowed := true }.dropPending
  let (token, after) ← ScalarText.block s.indent s.source
  .ok (s.pushRead token after)

def plain (s : Scan) : Except Fault Scan := do
  let s ← s.savePending
  let p := ScalarText.plain s.inFlow s.indent s.source
  .ok ({ s with keyAllowed := p.broken }.pushRead (.scalar (String.ofList p.text) true) p.after)

def plainBegins (s : Scan) : Bool :=
  let c := s.source.peek
  let follows := !isBlankOrBreakOrEnd (s.source.peekAt 1)
  !(isBlankOrBreakOrEnd c || "-?:,[]\x7b\x7d#&*!|>'\"%@`".toList.contains c) ||
    (follows && (c = '-' || (!s.inFlow && (c = '?' || c = ':'))))

def step (s : Scan) : Except Fault Scan := do
  let s ← s.skipToToken.dropStale
  -- A token further to the left ends the collections that are indented more.
  let s := s.unwind s.source.column
  let source := s.source
  let c := source.peek
  let alone := isBlankOrBreakOrEnd (source.peekAt 1)
  if c = endMark then s.finish
  else if c = '%' && source.column = 0 then s.directive
  else if c = '-' && source.column = 0 && source.atDocumentMark then s.documentMark .documentStart
  else if c = '.' && source.column = 0 && source.atDocumentMark then s.documentMark .documentEnd
  else if c = '[' then s.openBracket .flowSequenceStart
  else if c = '\x7b' then s.openBracket .flowMappingStart
  else if c = ']' then s.closeBracket .flowSequenceEnd
  else if c = '\x7d' then s.closeBracket .flowMappingEnd
  else if c = ',' then s.flowEntry
  else if c = '-' && alone then s.blockEntry
  else if c = '?' && (s.inFlow || alone) then s.keyMark
  else if c = ':' && (s.inFlow || alone) then s.valueMark
  else if c = '*' then s.simple fun source => do
    let (name, after) ← Token.scanName source
    .ok (.alias name, after)
  else if c = '&' then s.simple fun source => do
    let (name, after) ← Token.scanName source
    .ok (.anchor name, after)
  else if c = '!' then s.simple Token.scanTag
  else if (c = '|' || c = '>') && !s.inFlow then s.block
  else if c = '\'' || c = '"' then s.simple ScalarText.quoted
  else if s.plainBegins then s.plain
  else fail

/--
The number of tokens before the first one that the mark of a key may still have to precede.
-/
def settled (s : Scan) : Nat :=
  s.pending.foldl (fun n (_, key) =>
    if !s.isStale key || key.required then min n key.place else n) s.tokens.size

/--
The tokens of a text in which the next step is a fault.
-/
def stop (s : Scan) (fault : Fault) : Tokens :=
  ⟨s.tokens.toList.take s.settled, some fault⟩

def run : Nat → Scan → Tokens
  | 0, s => s.stop .yaml
  | fuel + 1, s =>
    match s.step with
    | .ok s => if s.finished then ⟨s.tokens.toList, none⟩ else run fuel s
    | .error fault => s.stop fault

end Scan

def Tokens.ofText (text : List Char) : Tokens :=
  let source := Source.ofText text
  Scan.run (source.size + 2) { source }

end Yaml

end ApiElements
