import ApiElements.Element.Json
import ApiElements.Registry.Document
import ApiElements.Schema.OfElement
import ApiElements.Settings.Basic

/-!
This module contains a small API description as a sample: people with time stamps, users that derive
from them, and the example body and schema of a user.
-/

namespace ApiElements

namespace Sample

def object (entries : List (String × Value)) : Value :=
  .object (entries.map fun (name, v) => (.text name, v))

/--
The data of a member whose key and value are strings. A value that is absent, and type attributes
that are, are left out.
-/
def plainMember (key value typeAttributes : Value) : Except Fault Value := do
  let literal := if value.truthy then [("content", value)] else []
  let content := object [
    ("key", object [("element", .text "string"), ("content", key)]),
    ("value", object (("element", .text "string") :: literal))]
  let attributes ←
    if typeAttributes.truthy then do
      .ok [("attributes", object [("typeAttributes", .list (← typeAttributes.items))])]
    else .ok []
  .ok (object ([("element", .text "member"), ("content", content)] ++ attributes))

def timestamps : Except Fault Value := do
  .ok (object [
    ("element", .text "object"),
    ("meta", object [("id", .text "Timestamps")]),
    ("content", .list [← plainMember (.text "created") (.text "2024-01-01T00:00:00Z") .null])])

def person : Except Fault Value := do
  .ok (object [
    ("element", .text "object"),
    ("meta", object [("id", .text "Person"), ("description", .text "Someone with a name")]),
    ("content", .list [
      ← plainMember (.text "name") (.text "Alice") (.list [.text "required"]),
      object [
        ("element", .text "ref"),
        ("content", object [("href", .text "Timestamps")])]])])

def contact (member : Value) : Value :=
  object [("element", .text "option"), ("content", .list [member])]

def user : Except Fault Value := do
  .ok (object [
    ("element", .text "Person"),
    ("meta", object [("id", .text "User")]),
    ("content", .list [
      ← plainMember (.text "nickname") .null (.list [.text "nullable"]),
      object [
        ("element", .text "select"),
        ("content", .list [
          contact (← plainMember (.text "email") (.text "a@b.c") .null),
          contact (← plainMember (.text "phone") .null .null)])]])])

def report : Except Fault String := do
  let declared ← [← timestamps, ← person, ← user].mapM (Value.decode Kinds.builtIn)
  let r ← Registry.ofElements declared
  let root ← Value.decode Kinds.builtIn (object [("element", .text "User")])
  let body ← Json.render (.int 2) (← (r.exampleOf root).result)
  let schema ← (r.schemaOf root).result
  let document ← Json.render (.int 2) (schema.document (.text draft4))
  .ok ("Declared types: " ++ (← r.idList) ++ "\n\nExample body:\n" ++ body ++
    "\n\nJSON Schema:\n" ++ document ++ "\n")

end Sample

end ApiElements
