import ApiElements.Value.Order

/-!
This module contains the plain data that an element tree stands for: objects with a tag, and with
descriptive data, attributes and content where there are any.
-/

namespace ApiElements

def partEntry (name : String) (part : Option Value) : List (Value × Value) :=
  part.toList.map fun v => (.text name, v)

def encodedFields (tag : Value) (info attributes content : Option Value) : Value :=
  .object ((.text "element", tag) :: (partEntry "meta" info ++
    partEntry "attributes" attributes ++ partEntry "content" content))

def encodedMember (key : Value) (value : Option Value) : Value :=
  .object ((.text "key", key) :: partEntry "value" value)

mutual

/--
The data of an element. The content, if there is one, is a key with its value, a target, or any
other data.
-/
def Element.encode : Element → Except Fault Value
  | .mk kind info attributes content => do
    -- Tables that are empty are left out.
    let info' ← if info.truthy then some <$> Value.encode info else .ok none
    let attributes' ← if attributes.truthy then some <$> Value.encode attributes else .ok none
    let content' ← match content with
      | .null => .ok none
      | .member key value => do
        let key ← Value.encodeTree key
        let value ← if value.isNull then .ok none else some <$> Value.encodeTree value
        .ok (some (encodedMember key value))
      | .ref href => .ok (some (.object [(.text "href", href)]))
      | content => some <$> Value.encode content
    .ok (encodedFields (Element.mk kind info attributes content).tag info' attributes' content')
termination_by structural e => e

def Value.encodeTree : Value → Except Fault Value
  | .element e => Element.encode e
  | _ => .error (.noPart "element")
termination_by structural v => v

/--
Data with every element in it encoded. Tuples become lists, and so do sets, in ascending order.
-/
def Value.encode : Value → Except Fault Value
  | .element e => Element.encode e
  | .tuple items => .list <$> Value.encodeItems items
  | .list items => .list <$> Value.encodeItems items
  | .set items => do .list <$> Value.sort (← Value.encodeItems items)
  | .object entries => .object <$> Value.encodeEntries entries
  | v => .ok v
termination_by structural v => v

def Value.encodeItems : List Value → Except Fault (List Value)
  | [] => .ok []
  | x :: xs => do
    let x ← Value.encode x
    .ok (x :: (← Value.encodeItems xs))
termination_by structural xs => xs

def Value.encodeEntries : List (Value × Value) → Except Fault (List (Value × Value))
  | [] => .ok []
  | (k, v) :: rest => do
    let v ← Value.encode v
    .ok ((k, v) :: (← Value.encodeEntries rest))
termination_by structural entries => entries

end

end ApiElements
