import ApiElements.Example
import ApiElements.Schema.Basic

/-!
This module contains the schemas of element trees.
-/

namespace ApiElements

namespace Schema

def ofLiteral (type : SchemaType) (e : Element) : Except Fault Schema := do
  let default ← e.attributes.field "default"
  .ok { type := some type, default := if default.isNull then none else some default }

def ofChoice (e : Element) : Except Fault Schema := do
  .ok { enum := some ((← e.content.items).map Value.contentOrNull) }

/--
The schema of an array whose items have some schemas: one for all of them if they are equal.
-/
def ofItems (schemas : List Schema) : Schema :=
  match schemas with
  | [] => { type := some .array }
  | first :: rest =>
    let folded := if rest.all fun s => s.same first then [first] else schemas
    { type := some .array, items := folded }

def describe (s : Schema) (description : Value) : Schema :=
  if description.isNull then s else { s with description := some description }

def addKey (keys : List Value) (key : Value) : List Value :=
  if key.memberOf keys then keys else keys ++ [key]

/--
What has been gathered for an object: its properties, the keys that exclude each other, and the
keys that it has to have.
-/
structure Gathered where
  properties : Table Schema := []
  exclusive : List (List Value) := []
  required : List Value := []

def Gathered.schema (g : Gathered) : Schema where
  type := some .object
  properties := some g.properties
  exclusive := g.exclusive
  required := g.required

/--
Adds the properties of an option to those gathered so far, and its keys to those of its selection.
-/
def Gathered.addOption (state : Gathered × List Value) (option : Schema) : Gathered × List Value :=
  (option.properties.getD []).foldl
    (fun (g, keys) (key, s) =>
      ({ g with properties := g.properties.put key s }, addKey keys key)) state

def Gathered.exclude (g : Gathered) (keys : List Value) : Gathered :=
  if keys.isEmpty then g else { g with exclusive := g.exclusive ++ [keys] }

def Gathered.addMember (g : Gathered) (e : Element) (key : Value) (s : Schema) :
    Except Fault Gathered := do
  let s := s.describe (← e.description)
  let attributes ← e.typeAttributes
  -- A key stays required when a later member takes its property over.
  let required :=
    if (Value.text "required").memberOf attributes then addKey g.required key else g.required
  let s := if (Value.text "nullable").memberOf attributes then s.admitNull else s
  .ok { g with properties := g.properties.put (← key.asKey) s, required := required }

end Schema

namespace Registry

mutual

/--
The schema of an element, down to a depth. A reference to a type that is not declared may be
anything.
-/
def schemaWithin (r : Registry) : Nat → Value → Logged Schema
  | 0, _ => Logged.fail .tooDeep
  | depth + 1, v =>
    match v with
    | .element e => do
      let s ← match e.kind with
        | .boolean => (Schema.ofLiteral .boolean e : Except Fault Schema)
        | .number => (Schema.ofLiteral .number e : Except Fault Schema)
        | .string => (Schema.ofLiteral .string e : Except Fault Schema)
        | .enum => (Schema.ofChoice e : Except Fault Schema)
        | .array => do
          let items ← (e.content.items : Except Fault (List Value))
          Schema.ofItems <$> items.mapM (r.schemaWithin depth)
        | .object => r.schemaOfObjectWithin depth e.content
        | .option => r.schemaOfObjectWithin depth e.content
        | .named _ => do
          match ← r.resolve e with
          | some merged => r.schemaWithin depth (.element merged)
          | none => pure Schema.any
        | _ => pure Schema.any
      -- The merged element has done this for a reference already, as it says at least as much.
      let s := s.describe (← (e.description : Except Fault Value))
      let attributes ← (e.typeAttributes : Except Fault (List Value))
      pure (if (Value.text "nullable").memberOf attributes then s.admitNull else s)
    | _ => Logged.fail (.noPart "description")
termination_by structural depth => depth

/--
The schema of the content of an object or of an option. A selection contributes the properties of
all its options and excludes that all their keys are there at once.
-/
def schemaOfObjectWithin (r : Registry) : Nat → Value → Logged Schema
  | 0, _ => Logged.fail .tooDeep
  | depth + 1, content => do
    let gathered ← walk (fun g v =>
      match v with
      | .element e =>
        match e.kind with
        | .select => do
          let options ← (e.content.items : Except Fault (List Value))
          let (g, keys) ← options.foldlM
            (fun state option => Schema.Gathered.addOption state <$> r.schemaWithin depth option)
            (g, [])
          pure (g.exclude keys)
        | .member => do
          let key ← (e.key : Except Fault Value)
          let value ← (e.value : Except Fault Value)
          let s ← if value.isNull then pure Schema.any else r.schemaWithin depth value
          (g.addMember e key s : Except Fault Schema.Gathered)
        | _ => pure g
      | _ => pure g) ({} : Schema.Gathered) (r.scan content)
    pure gathered.schema
termination_by structural depth => depth

end

def schemaOf (r : Registry) (root : Element) : Logged Schema :=
  r.schemaWithin nestingLimit (.element root)

end Registry

end ApiElements
