import ApiElements.Value.Access

/-!
This module contains the admission of `null` by schema documents of any origin.
-/

namespace ApiElements

namespace Value

def occursIn (part : List Char) : List Char → Bool
  | [] => part.isEmpty
  | c :: cs => part.isPrefixOf (c :: cs) || occursIn part cs

/--
Whether a value holds another one: as a key, as an item, or as a part of its text.
-/
def holds (v x : Value) : Except Fault Bool :=
  match v, x with
  | .object entries, x => do .ok (Table.has entries (← x.asKey))
  | .set items, x => do .ok ((← x.asKey).memberOf items)
  | .list items, x => .ok (x.memberOf items)
  | .tuple items, x => .ok (x.memberOf items)
  | .text s, .text part => .ok (occursIn part.toList s.toList)
  | _, _ => .error (.mismatch .notSearchable)

def keywordValue (schema : Value) (name : String) : Except Fault Value :=
  match schema with
  | .object entries =>
    match Table.get? entries (.text name) with
    | some v => .ok v
    | none => .error .noEntry
  | _ => .error (.mismatch .notIndexable)

def withKeyword (schema : Value) (name : String) (v : Value) : Value :=
  match schema with
  | .object entries => .object (Table.put entries (.text name) v)
  | schema => schema

/--
A type with `null` beside it: a list of types gets it as a further item, unless it is there already.
-/
def typeWithNull (type : Value) : Value :=
  match type with
  | .list types =>
    if (Value.text "null").memberOf types then type else .list (types ++ [.text "null"])
  | type => .list [type, .text "null"]

def choiceWithNull (choice : Value) : Except Fault Value := do
  if ← choice.holds .null then .ok choice
  else match choice with
    | .list values => .ok (.list (values ++ [.null]))
    | _ => .error (.noPart "append")

/--
The schema document that accepts `null` in addition to what a schema document accepts.
-/
def admitNull (schema : Value) : Except Fault Value := do
  if ← schema.holds (.text "type") then
    .ok (schema.withKeyword "type" (typeWithNull (← schema.keywordValue "type")))
  else if ← schema.holds (.text "enum") then
    .ok (schema.withKeyword "enum" (← choiceWithNull (← schema.keywordValue "enum")))
  else .ok schema

end Value

end ApiElements
