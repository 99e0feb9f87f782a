import ApiElements.Value.Table

/-!
This module contains the schemas that describe payloads, in the part of JSON Schema draft 4 that
they need, and the documents that they are written as.
-/

namespace ApiElements

inductive SchemaType where
  | boolean
  | number
  | string
  | array
  | object
deriving DecidableEq

def SchemaType.name : SchemaType → String
  | .boolean => "boolean"
  | .number => "number"
  | .string => "string"
  | .array => "array"
  | .object => "object"

/--
A schema. A keyword that is `none`, or a list that is empty, puts no constraint.
-/
structure Schema where
  type : Option SchemaType := none
  /-- Whether `null` is accepted beside the values of the type. -/
  nullable : Bool := false
  enum : Option (List Value) := none
  default : Option Value := none
  /-- The schemas of which each item has to satisfy one. -/
  items : List Schema := []
  properties : Option (List (Value × Schema)) := none
  /-- The sets of keys that must not all be there at once. -/
  exclusive : List (List Value) := []
  required : List Value := []
  description : Option Value := none

namespace Schema

def any : Schema := {}

/--
Accepts `null` in addition. Only a type, or else a choice of values, stands in its way.
-/
def admitNull (s : Schema) : Schema :=
  match s.type, s.enum with
  | some _, _ => { s with nullable := true }
  | none, some values =>
    if Value.null.memberOf values then s else { s with enum := some (values ++ [.null]) }
  | none, none => s

def keyword (name : String) (v : Option Value) : List (Value × Value) :=
  v.toList.map fun v => (.text name, v)

/--
A list of things as the value of a keyword, which is left out if there are none.
-/
def listKeyword (name : String) (items : List Value) : List (Value × Value) :=
  if items.isEmpty then [] else [(.text name, .list items)]

def typeValue (type : SchemaType) (nullable : Bool) : Value :=
  if nullable then .list [.text type.name, .text "null"] else .text type.name

def exclusion (keys : List Value) : Value :=
  .object [(.text "not", .object [(.text "required", .list keys)])]

/--
The document of the schemas of items: the only one, or a choice.
-/
def itemsValue : List Value → Option Value
  | [] => none
  | [s] => some s
  | choice => some (.object [(.text "anyOf", .list choice)])

mutual

def toValue : Schema → Value
  | ⟨type, nullable, enum, default, items, properties, exclusive, required, description⟩ =>
    .object (
      keyword "type" (type.map fun t => typeValue t nullable) ++
      keyword "enum" (enum.map .list) ++
      keyword "default" default ++
      keyword "items" (itemsValue (toValues items)) ++
      keyword "properties" (propertiesValue properties) ++
      listKeyword "allOf" (exclusive.map exclusion) ++
      listKeyword "required" required ++
      keyword "description" description)
termination_by structural s => s

def toValues : List Schema → List Value
  | [] => []
  | s :: rest => toValue s :: toValues rest
termination_by structural schemas => schemas

def propertiesValue : Option (List (Value × Schema)) → Option Value
  | none => none
  | some properties => some (.object (propertyValues properties))
termination_by structural properties => properties

def propertyValues : List (Value × Schema) → List (Value × Value)
  | [] => []
  | (key, s) :: rest => (key, toValue s) :: propertyValues rest
termination_by structural properties => properties

end

def document (s : Schema) (dialect : Value) : Value :=
  match s.toValue with
  | .object entries => .object (Table.put entries (.text "$schema") dialect)
  | v => v

def same (s t : Schema) : Bool :=
  s.toValue.same t.toValue

end Schema

end ApiElements
