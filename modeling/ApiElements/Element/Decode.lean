import ApiElements.Element.Kinds
import ApiElements.Value.Display

/-!
This module contains the reading of element trees from plain data.
-/

namespace ApiElements

/--
The list of names that a type attribute stands for: either it is the list, or an array element whose
items have the names as their contents. Bytes are a list of their numbers.
-/
def unwrapNames (v : Value) : Except Fault Value :=
  match v with
  | .object entries =>
    if (Value.text "array").same ((Table.get? entries (.text "element")).getD .null) then do
      let items ← ((Table.get? entries (.text "content")).getD .null).itemsOrNone
      .list <$> items.mapM fun item => item.field "content"
    else .ok v
  | .bytes data => .ok (.list (data.map fun b => .int b.toNat))
  | v => .ok v

/--
The attributes of an element. The list of type attributes is fixed as a tuple.
-/
def attributesOf (raw : Value) : Except Fault (Table Value) := do
  let attributes ← raw.entriesOrNone
  match attributes.get? (.text "typeAttributes") with
  | none => .ok attributes
  | some v =>
    match ← unwrapNames v with
    | .list names => .ok (attributes.put (.text "typeAttributes") (.tuple names))
    | .tuple names => .ok (attributes.put (.text "typeAttributes") (.tuple names))
    | _ => .ok attributes

def decodeLiteral (tag : String) (raw : Value) : Except Fault Value :=
  match raw with
  | .list _ => .error (.literalExpected tag raw.formName)
  | .object _ => .error (.literalExpected tag raw.formName)
  | raw => .ok raw

def decodeRef (raw : Value) : Except Fault Value :=
  match raw with
  | .object entries =>
    match Table.get? entries (.text "href") with
    | some href => .ok (.ref href)
    | none => .error .missingHref
  | _ => .error .missingHref

def memberContent (key : Element) (value : Except Fault (Option Element)) : Except Fault Value :=
  match key.kind with
  -- The value is only looked at under a key that is a string.
  | .string => do .ok (.member (.element key) ((← value).elim .null .element))
  | _ => .error (.keyNotString key.tag.plain)

mutual

/--
The element that an object stands for, under a table of kinds.
-/
def Value.decode (kinds : Kinds) : Value → Except Fault Element
  | .object entries =>
    match Table.get? entries (.text "element") with
    | none => .error .missingTag
    | some tag => do
      let info ← ((Table.get? entries (.text "meta")).getD .null).entriesOrNone
      let attributes ← attributesOf ((Table.get? entries (.text "attributes")).getD .null)
      let (kind, content) ← match ← kinds.shape tag with
        | .member => do .ok (Kind.member, ← Value.decodeMemberIn kinds entries)
        | .ref => do
          .ok (Kind.ref, ← decodeRef ((Table.get? entries (.text "content")).getD .null))
        | .literal kind => do
          let raw := (Table.get? entries (.text "content")).getD .null
          .ok (kind, ← decodeLiteral kind.tag raw)
        | .sequence kind => do .ok (kind, .tuple (← Value.decodeSequenceIn kinds kind.tag entries))
        | .reference => do .ok (Kind.named tag, ← Value.decodeExtensionIn kinds entries)
      .ok (.mk kind (.object info) (.object attributes) content)
  | v => .error (.notElement v.formName)
termination_by structural v => v

def Value.decodeAll (kinds : Kinds) : List Value → Except Fault (List Value)
  | [] => .ok []
  | x :: xs => do
    let x ← Value.decode kinds x
    .ok (.element x :: (← Value.decodeAll kinds xs))
termination_by structural xs => xs

def Value.decodeSequenceIn (kinds : Kinds) (tag : String) :
    List (Value × Value) → Except Fault (List Value)
  | [] => .ok []
  | (k, v) :: rest =>
    -- No lookup, as the recursion needs the content to be a part of the entries.
    if (Value.text "content").same k then
      match v with
      | .null => .ok []
      | .list items => Value.decodeAll kinds items
      | v => .error (.listExpected tag v.formName)
    else Value.decodeSequenceIn kinds tag rest
termination_by structural entries => entries

/--
The content of a reference among the entries of an object. A list holds elements; anything else is
taken as it is.
-/
def Value.decodeExtensionIn (kinds : Kinds) : List (Value × Value) → Except Fault Value
  | [] => .ok .null
  | (k, v) :: rest =>
    if (Value.text "content").same k then
      match v with
      | .list items => .tuple <$> Value.decodeAll kinds items
      | v => .ok v
    else Value.decodeExtensionIn kinds rest
termination_by structural entries => entries

def Value.decodeMemberIn (kinds : Kinds) : List (Value × Value) → Except Fault Value
  | [] => .error .missingKey
  | (k, v) :: rest =>
    if (Value.text "content").same k then
      match v with
      | .object entries => do
        match ← Value.decodeKeyIn kinds entries with
        | none => .error .missingKey
        | some key => memberContent key (Value.decodeValueIn kinds entries)
      | _ => .error .missingKey
    else Value.decodeMemberIn kinds rest
termination_by structural entries => entries

def Value.decodeKeyIn (kinds : Kinds) : List (Value × Value) → Except Fault (Option Element)
  | [] => .ok none
  | (k, v) :: rest =>
    if (Value.text "key").same k then some <$> Value.decode kinds v
    else Value.decodeKeyIn kinds rest
termination_by structural entries => entries

def Value.decodeValueIn (kinds : Kinds) : List (Value × Value) → Except Fault (Option Element)
  | [] => .ok none
  | (k, v) :: rest =>
    if (Value.text "value").same k then
      match v with
      | .null => .ok none
      | v => some <$> Value.decode kinds v
    else Value.decodeValueIn kinds rest
termination_by structural entries => entries

end

end ApiElements
