import ApiElements.Text.Base64
import ApiElements.Value.Table
import ApiElements.Yaml.Document
import ApiElements.Yaml.Merge
import ApiElements.Yaml.Number

/-!
This module contains the values of settings files. Collections are built before they are filled, so
that one may stand within itself, and are filled in the order in which they are met.
-/

namespace ApiElements

namespace Yaml

namespace Graph

/--
The text that a node stands for as a scalar: its own, or that of the entry which a mapping marks as
its value.
-/
def text (g : Graph) : (fuel place : Nat) → Except Fault String
  | 0, _ => .error .tooDeep
  | fuel + 1, place =>
    match g.content place with
    | .scalar text => .ok text
    | .mapping entries =>
      match entries.find? fun entry => g.tag entry.1 = Tag.value with
      | some (_, value) => g.text fuel value
      | none => fail
    | .sequence _ => fail

def boolOf (text : String) : Except Fault Bool :=
  let word := String.ofList (text.toList.map Char.toLower)
  if word = "yes" ∨ word = "true" ∨ word = "on" then .ok true
  else if word = "no" ∨ word = "false" ∨ word = "off" then .ok false
  else .error .noEntry

def bytesOf (text : String) : Except Fault (List UInt8) :=
  if text.toList.all fun c => c.toNat < 0x80 then
    match Base64.bytes? text with
    | some bytes => .ok bytes
    | none => fail
  else fail

/--
The moment of a node with a text. A timestamp is read from a node's own text only.
-/
def moment (g : Graph) (place : Nat) (text : String) : Except Fault Moment :=
  match g.content place with
  | .scalar _ => momentOf (Looks.dropLineFeed text.toList)
  | _ => .error (.mismatch .notText)

/--
The value of a node whose tag is not that of a collection.
-/
def scalarValue (g : Graph) (place : Nat) : Except Fault Value :=
  let tag := g.tag place
  let text := g.text (g.size + 1) place
  if tag = Tag.str then .text <$> text
  else if tag = Tag.null then (fun _ => .null) <$> text
  else if tag = Tag.bool then do .bool <$> boolOf (← text)
  else if tag = Tag.int then do .int <$> Number.whole (← text)
  else if tag = Tag.float then do .double <$> Number.double (place + 1) (← text)
  else if tag = Tag.binary then do .bytes <$> bytesOf (← text)
  else if tag = Tag.timestamp then do .moment <$> g.moment place (← text)
  else fail

end Graph

/--
What is known of the value of a node: all of it, or for a collection the nodes in it.
-/
inductive Draft where
  | complete (v : Value)
  | unfilled
  | list (items : List Nat)
  | pairs (pairs : List (Nat × Nat))
  | set (items : List Value)
  | object (entries : Table Nat)

structure Building where
  graph : Graph
  drafts : Array (Option Draft)
  /-- The collections that have to be filled, the last one first. -/
  unfilled : List Nat := []

namespace Building

/--
The tags of collections, whose form is checked when they are filled.
-/
def isCollectionTag (tag : String) : Bool :=
  [Tag.seq, Tag.map, Tag.set, Tag.omap, Tag.pairs].contains tag

def draft? (b : Building) (place : Nat) : Option Draft :=
  b.drafts.getD place none

def put (b : Building) (place : Nat) (draft : Draft) : Building :=
  { b with drafts := b.drafts.setIfInBounds place (some draft) }

def meet (b : Building) (place : Nat) : Except Fault Building := do
  if (b.draft? place).isSome then .ok b
  else if isCollectionTag (b.graph.tag place) then
    -- Filled later, so that the nodes in it may refer back to it.
    .ok { b.put place .unfilled with unfilled := place :: b.unfilled }
  else .ok (b.put place (.complete (← b.graph.scalarValue place)))

def meetAll (b : Building) (places : List Nat) : Except Fault Building :=
  places.foldlM meet b

def keyOf (b : Building) (place : Nat) : Except Fault Value :=
  match b.draft? place with
  | some (.complete v) => if v.hashable then .ok v else fail
  | _ => fail

/--
Merges into a mapping what it asks for, and meets its entries in order. Of several entries with one
key the last one counts, at the place of the first.
-/
def meetEntries (b : Building) (place : Nat) : Except Fault (Table Nat × Building) :=
  match b.graph.content place with
  | .mapping _ => do
    let b := { b with graph := ← b.graph.merge place }
    (b.graph.entries place).foldlM (fun (entries, b) (key, value) => do
      let b ← b.meet key
      let v ← b.keyOf key
      .ok (Table.put entries v value, ← b.meet value)) (([] : Table Nat), b)
  | _ => fail

/--
Meets the pairs that a sequence of mappings of one entry each stands for. Those mappings are not
values themselves, so that nothing is merged into them.
-/
def meetPairs (b : Building) (items : List Nat) : Except Fault (List (Nat × Nat) × Building) :=
  items.foldlM (fun (pairs, b) item =>
    match b.graph.content item with
    | .mapping [(key, value)] => do .ok (pairs ++ [(key, value)], ← b.meetAll [key, value])
    | _ => fail) (([] : List (Nat × Nat)), b)

def fill (b : Building) (place : Nat) : Except Fault Building := do
  let tag := b.graph.tag place
  if tag = Tag.map then
    let (entries, b) ← b.meetEntries place
    .ok (b.put place (.object entries))
  else if tag = Tag.set then
    let (entries, b) ← b.meetEntries place
    .ok (b.put place (.set entries.keys))
  else match b.graph.content place with
    | .sequence items =>
      if tag = Tag.seq then
        .ok ((← b.meetAll items).put place (.list items))
      else do
        let (pairs, b) ← b.meetPairs items
        .ok (b.put place (.pairs pairs))
    | _ => fail

/--
Fills all collections, those that are met on the way in a round of their own.
-/
def fillAll : (rounds : Nat) → Building → Except Fault Building
  | 0, b => .ok b
  | rounds + 1, b => do
    if b.unfilled.isEmpty then .ok b
    else fillAll rounds (← b.unfilled.reverse.foldlM fill { b with unfilled := [] })

abbrev Unrolled := Value × Bool

/--
The value of a node with those of the nodes in it. A collection that stands within itself is a loop
there. What holds no loop is remembered, since it is the same wherever it stands.
-/
def unroll (b : Building) : (fuel : Nat) → (around : List Nat) → (place : Nat) →
    StateM (Array (Option Value)) Unrolled
  | 0, _, _ => pure (.loop, false)
  | fuel + 1, around, place => do
    if around.contains place then pure (.loop, false)
    else match (← get).getD place none with
      | some v => pure (v, true)
      | none =>
        let unrollAll (places : List Nat) : StateM (Array (Option Value)) (List Unrolled) :=
          places.mapM (b.unroll fuel (place :: around))
        let (v, closed) ← match b.draft? place with
          | some (.complete v) => pure (v, true)
          | some (.set items) => pure (.set items, true)
          | some (.list items) => do
            let found ← unrollAll items
            pure (.list (found.map (·.1)), found.all (·.2))
          | some (.pairs pairs) => do
            let keys ← unrollAll (pairs.map (·.1))
            let values ← unrollAll (pairs.map (·.2))
            pure (.list ((keys.zip values).map fun (k, v) => .tuple [k.1, v.1]),
              keys.all (·.2) && values.all (·.2))
          | some (.object entries) => do
            let values ← unrollAll (entries.map (·.2))
            pure (.object ((entries.zip values).map fun (entry, v) => (entry.1, v.1)),
              values.all (·.2))
          | _ => pure (.null, true)
        -- Within a loop the value depends on the nodes around it.
        if closed then modify fun known => known.setIfInBounds place (some v)
        pure (v, closed)

end Building

def Document.value (d : Document) : Except Fault Value := do
  let size := d.graph.size
  let b : Building := { graph := d.graph, drafts := Array.replicate size none }
  let b ← Building.fillAll (size + 1) (← b.meet d.root)
  .ok ((b.unroll (size + 1) [] d.root).run (Array.replicate size none)).1.1

/--
The value of a settings file, `null` if it holds none.
-/
def parse (text : List Char) : Except Fault Value := do
  match ← Document.ofText? text with
  | none => .ok .null
  | some document => document.value

end Yaml

end ApiElements
