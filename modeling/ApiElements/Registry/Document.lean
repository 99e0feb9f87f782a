import ApiElements.Element.Decode
import ApiElements.Registry.Basic

/-!
This module contains the registry of a whole document, whose categories hold data structures.
-/

namespace ApiElements

namespace Registry

/--
Whether an item of a category is a data structure that has a content.
-/
def declares (item : Value) : Except Fault Bool := do
  if (Value.text "dataStructure").same (← item.field "element") then
    .ok (← item.field "content").truthy
  else .ok false

def declaration (kinds : Kinds) (item : Value) : Except Fault Element := do
  Value.decode kinds (← (← item.field "content").first)

def declarationsIn (kinds : Kinds) : List Value → Except Fault (List Element)
  | [] => .ok []
  | item :: rest => do
    if ← declares item then
      let e ← declaration kinds item
      .ok (e :: (← declarationsIn kinds rest))
    else declarationsIn kinds rest

def declarations (kinds : Kinds) (document : Value) : Except Fault (List Element) := do
  let categories ← (← document.field "content").itemsOrNone
  let found ← categories.mapM fun category => do
    declarationsIn kinds (← (← category.field "content").itemsOrNone)
  .ok found.flatten

def idList (r : Registry) : Except Fault String := do
  let names ← r.ids.mapM fun
    | .text s => .ok s
    | _ => .error (.mismatch .notText)
  .ok (commaSeparated names)

/--
The registry of the data structures of a document. Their identifiers are logged.
-/
def ofDocument (kinds : Kinds) (document : Value) : Logged Registry := do
  let r ← (ofElements (← (declarations kinds document : Except Fault (List Element))) :
    Except Fault Registry)
  -- The list is made whether or not the record is kept, so that an identifier may prevent it.
  let names ← (r.idList : Except Fault String)
  Logged.record .debug .registry ("Known data structures: " ++ names)
  pure r

end Registry

end ApiElements
