import ApiElements.Yaml.Graph
import ApiElements.Yaml.Scan

/-!
This module contains the document that a settings file holds, read from its tokens.
-/

namespace ApiElements

namespace Yaml

structure Document where
  graph : Graph
  root : Nat

namespace Document

/--
Where a node stands, which decides the forms it may have.
-/
inductive Place where
  | lines
  /-- Among lines where a sequence need not be indented further. -/
  | entry
  | brackets
deriving DecidableEq

/--
The tokens that are left, with the nodes read so far, their names and the handles of tags.
-/
structure Cursor where
  tokens : Tokens
  graph : Graph := {}
  anchors : List (String × Nat) := []
  handles : List (String × String) := []

namespace Cursor

/--
The next token. The end of the file comes again and again.
-/
def head (c : Cursor) : Except Fault Token :=
  match c.tokens.ready, c.tokens.fault with
  | token :: _, _ => .ok token
  | [], some fault => .error fault
  | [], none => .ok .streamEnd

def next (c : Cursor) : Cursor :=
  { c with tokens := { c.tokens with ready := c.tokens.ready.drop 1 } }

def name (c : Cursor) (anchor : Option String) (node : Nat) : Cursor :=
  match anchor with
  | some anchor => { c with anchors := (anchor, node) :: c.anchors }
  | none => c

def named? (c : Cursor) (anchor : String) : Option Nat :=
  (c.anchors.find? fun entry => entry.1 = anchor).map (·.2)

/--
Adds a node, with the name that it has from then on.
-/
def add (c : Cursor) (anchor : Option String) (node : Node) : Nat × Cursor :=
  let place := c.graph.size
  (place, { c with graph := c.graph.push node }.name anchor place)

def addEmpty (c : Cursor) : Nat × Cursor :=
  c.add none ⟨Tag.null, .scalar ""⟩

def setContent (c : Cursor) (place : Nat) (content : Content) : Cursor :=
  { c with graph := c.graph.setContent place content }

end Cursor

abbrev Reader := Place → Cursor → Except Fault (Nat × Cursor)

def fullTag (c : Cursor) (handle : Option String) (suffix : String) : Except Fault String :=
  match handle with
  | none => .ok suffix
  | some handle =>
    match c.handles.find? fun entry => entry.1 = handle with
    | some (_, start) => .ok (start ++ suffix)
    | none => fail

/--
What may stand before a node: a name, a tag, or both in either order.
-/
structure Properties where
  anchor : Option String
  tag : Option String

def readAnchor (c : Cursor) : Except Fault (Option String × Cursor) := do
  match ← c.head with
  | .anchor name => .ok (some name, c.next)
  | _ => .ok (none, c)

def readProperties (c : Cursor) : Except Fault (Properties × Cursor) := do
  let (anchor, c) ← readAnchor c
  match ← c.head with
  | .tag handle suffix => do
    let (anchor, c) ← if anchor.isSome then .ok (anchor, c.next) else readAnchor c.next
    .ok (⟨anchor, some (← fullTag c handle suffix)⟩, c)
  | _ => .ok (⟨anchor, none⟩, c)

def ownTag (tag : Option String) (default : String) : String :=
  match tag with
  | none => default
  | some tag => if tag = "!" then default else tag

/--
The node of a scalar. A plain one, and one with a tag that says nothing, has a tag by its looks.
-/
def ofScalar (tag : Option String) (text : String) (plain : Bool) : Node :=
  match tag with
  | none => ⟨if plain then Tag.ofLooks text else Tag.str, .scalar text⟩
  | some tag => ⟨if tag = "!" then Tag.ofLooks text else tag, .scalar text⟩

/--
Reads a node, or takes an empty one if a token comes that ends its place.
-/
def readUnless (read : Reader) (place : Place) (ends : List Token) (c : Cursor) :
    Except Fault (Nat × Cursor) := do
  if ends.contains (← c.head) then .ok c.addEmpty else read place c

/--
The items of a sequence whose marks stand under each other, up to its end.
-/
def readLines (read : Reader) : Nat → Cursor → Except Fault (List Nat × Cursor)
  | 0, _ => fail
  | fuel + 1, c => do
    match ← c.head with
    | .blockEntry =>
      let (item, c) ← readUnless read .lines [.blockEntry, .blockEnd] c.next
      let (others, c) ← readLines read fuel c
      .ok (item :: others, c)
    | .blockEnd => .ok ([], c.next)
    | _ => fail

/--
The items of a sequence that is not indented further than the mapping it belongs to.
-/
def readFlushLines (read : Reader) : Nat → Cursor → Except Fault (List Nat × Cursor)
  | 0, _ => fail
  | fuel + 1, c => do
    match ← c.head with
    | .blockEntry =>
      let (item, c) ← readUnless read .lines [.blockEntry, .key, .value, .blockEnd] c.next
      let (others, c) ← readFlushLines read fuel c
      .ok (item :: others, c)
    | _ => .ok ([], c)

def readEntryValue (read : Reader) (place : Place) (ends : List Token) (c : Cursor) :
    Except Fault (Nat × Cursor) := do
  match ← c.head with
  | .value => readUnless read place ends c.next
  | _ => .ok c.addEmpty

def readEntries (read : Reader) : Nat → Cursor → Except Fault (List (Nat × Nat) × Cursor)
  | 0, _ => fail
  | fuel + 1, c => do
    let ends := [Token.key, .value, .blockEnd]
    match ← c.head with
    | .key =>
      let (key, c) ← readUnless read .entry ends c.next
      let (value, c) ← readEntryValue read .entry ends c
      let (others, c) ← readEntries read fuel c
      .ok ((key, value) :: others, c)
    | .blockEnd => .ok ([], c.next)
    | _ => fail

def readComma (first : Bool) (c : Cursor) : Except Fault Cursor := do
  if first then .ok c
  else match ← c.head with
    | .flowEntry => .ok c.next
    | _ => fail

def readFlowEntry (read : Reader) (close : Token) (c : Cursor) :
    Except Fault ((Nat × Nat) × Cursor) := do
  let (key, c) ← readUnless read .brackets [.value, .flowEntry, close] c
  let (value, c) ← readEntryValue read .brackets [.flowEntry, close] c
  .ok ((key, value), c)

/--
The items of a sequence in brackets. An entry among them is a mapping of its own.
-/
def readItems (read : Reader) : Nat → Bool → Cursor → Except Fault (List Nat × Cursor)
  | 0, _, _ => fail
  | fuel + 1, first, c => do
    if (← c.head) = .flowSequenceEnd then .ok ([], c.next)
    else
      let c ← readComma first c
      match ← c.head with
      | .flowSequenceEnd => .ok ([], c.next)
      | .key =>
        let (item, c) := c.next.add none ⟨Tag.map, .mapping []⟩
        let (entry, c) ← readFlowEntry read .flowSequenceEnd c
        let (others, c) ← readItems read fuel false (c.setContent item (.mapping [entry]))
        .ok (item :: others, c)
      | _ =>
        let (item, c) ← read .brackets c
        let (others, c) ← readItems read fuel false c
        .ok (item :: others, c)

/--
The entries of a mapping in brackets. One without a mark is a key without a value.
-/
def readFlowEntries (read : Reader) :
    Nat → Bool → Cursor → Except Fault (List (Nat × Nat) × Cursor)
  | 0, _, _ => fail
  | fuel + 1, first, c => do
    if (← c.head) = .flowMappingEnd then .ok ([], c.next)
    else
      let c ← readComma first c
      match ← c.head with
      | .flowMappingEnd => .ok ([], c.next)
      | .key =>
        let (entry, c) ← readFlowEntry read .flowMappingEnd c.next
        let (others, c) ← readFlowEntries read fuel false c
        .ok (entry :: others, c)
      | _ =>
        let (key, c) ← read .brackets c
        let (value, c) := c.addEmpty
        let (others, c) ← readFlowEntries read fuel false c
        .ok ((key, value) :: others, c)

/--
Reads a collection by a reader of what is in it, under a name that it has from its start.
-/
def readCollection {α : Type} (properties : Properties) (defaultTag : String)
    (content : List α → Content) (items : Cursor → Except Fault (List α × Cursor))
    (c : Cursor) : Except Fault (Nat × Cursor) := do
  let (node, c) := c.add properties.anchor ⟨ownTag properties.tag defaultTag, content []⟩
  let (found, c) ← items c
  .ok (node, c.setContent node (content found))

/--
Reads a node with collections nested at most `depth` deep in it, each of which has at most `steps`
entries.
-/
def read (steps : Nat) : (depth : Nat) → Reader
  | 0, _, _ => .error .tooDeep
  | depth + 1, place, c => do
    match ← c.head with
    | .alias anchor =>
      match c.named? anchor with
      | some node => .ok (node, c.next)
      | none => fail
    | _ =>
      let (properties, c) ← readProperties c
      let head ← c.head
      -- No name is given twice.
      if (properties.anchor.bind c.named?).isSome then fail
      else
        let sequence := readCollection properties Tag.seq Content.sequence
        let mapping := readCollection properties Tag.map Content.mapping
        match head, place with
        -- No token announces a sequence that is not indented further.
        | .blockEntry, .entry => sequence (readFlushLines (read steps depth) steps) c
        | .scalar text plain, _ =>
          .ok (c.next.add properties.anchor (ofScalar properties.tag text plain))
        | .flowSequenceStart, _ => sequence (readItems (read steps depth) steps true) c.next
        | .flowMappingStart, _ => mapping (readFlowEntries (read steps depth) steps true) c.next
        | .blockSequenceStart, .lines => sequence (readLines (read steps depth) steps) c.next
        | .blockSequenceStart, .entry => sequence (readLines (read steps depth) steps) c.next
        | .blockMappingStart, .lines => mapping (readEntries (read steps depth) steps) c.next
        | .blockMappingStart, .entry => mapping (readEntries (read steps depth) steps) c.next
        | _, _ =>
          -- A name or a tag alone stands for an empty scalar.
          if properties.anchor.isSome || properties.tag.isSome then
            .ok (c.add properties.anchor (ofScalar properties.tag "" true))
          else fail

def basicHandles : List (String × String) := [("!", "!"), ("!!", Tag.basic)]

/--
Reads the directives before a document: at most one version, which has to be of the first edition,
and handles, each of them once.
-/
def readDirectives : Nat → Bool → List (String × String) → Cursor →
    Except Fault (List (String × String) × Cursor)
  | 0, _, _, _ => fail
  | fuel + 1, versioned, handles, c => do
    match ← c.head with
    | .version major _ =>
      if versioned || major != 1 then fail else readDirectives fuel true handles c.next
    | .handle name start =>
      if handles.any fun entry => entry.1 = name then fail
      else readDirectives fuel versioned ((name, start) :: handles) c.next
    | .directive => readDirectives fuel versioned handles c.next
    | _ => .ok (handles, c)

def depthLimit : Nat := 490

def endsContent : Token → Bool
  | .version _ _ => true
  | .handle _ _ => true
  | .directive => true
  | .documentStart => true
  | .documentEnd => true
  | .streamEnd => true
  | _ => false

def readMarked (steps : Nat) (c : Cursor) : Except Fault (Nat × Cursor) := do
  let (handles, c) ← readDirectives steps false [] c
  if (← c.head) != .documentStart then fail
  else
    let c := { c with handles := handles ++ basicHandles }.next
    if endsContent (← c.head) then .ok c.addEmpty else read steps depthLimit .lines c

def skipEnds : Nat → Cursor → Except Fault Cursor
  | 0, c => .ok c
  | fuel + 1, c => do
    if (← c.head) = .documentEnd then skipEnds fuel c.next else .ok c

/--
What may follow a document: marks of its end, and nothing else. A second document is looked at up
to its mark.
-/
def checkEnd (steps : Nat) (c : Cursor) : Except Fault Unit := do
  let c ← skipEnds steps c
  if (← c.head) = .streamEnd then .ok ()
  else do
    let _ ← readDirectives steps false [] c
    fail

def ofTokens? (tokens : Tokens) : Except Fault (Option Document) := do
  let steps := tokens.ready.length + 1
  let c : Cursor := { tokens, handles := basicHandles }
  let first ← c.head
  if first = .streamEnd then .ok none
  else do
    let (root, c) ←
      if endsContent first && first != .documentEnd then readMarked steps c
      else read steps depthLimit .lines c
    checkEnd steps c
    .ok (some ⟨c.graph, root⟩)

/--
The number of characters that are loaded at once: more of them at the start of a text.
-/
def pieceLength (start : Bool) : Nat := if start then 8192 else 4096

def loadedBefore (place : Nat) : Nat :=
  if place < pieceLength true then 0
  else pieceLength true +
    (place - pieceLength true) / pieceLength false * pieceLength false

/--
The only document in a text, if there is one. A character that is not allowed is found when its
piece of the text is loaded, after all that comes before it has been read.
-/
def ofText? (text : List Char) : Except Fault (Option Document) := do
  let allowed := (text.takeWhile isAllowed).length
  if allowed = text.length then ofTokens? (Tokens.ofText text)
  else do
    let _ ← ofTokens? (Tokens.ofText (text.take (loadedBefore allowed)))
    fail

end Document

end Yaml

end ApiElements
