import ApiElements.Registry.Include

/-!
This module contains example values of element trees.
-/

namespace ApiElements

namespace Example

def boolean : Value := .bool true

def number : Value := .int 1

def string : Value := .text "Hello, world!"

def literalOr (content placeholder : Value) : Value :=
  if content.isNull then placeholder else content

end Example

/--
How deeply elements may be nested in each other, references to declared types included.
-/
def nestingLimit : Nat := 990

def Value.elementContent : Value → Except Fault Value
  | .element e => .ok e.content
  | _ => .error (.noPart "content")

namespace Registry

mutual

/--
A representative value for an element, down to a depth. It is made of literals where there are any
and of placeholders otherwise. Enumerations and selections contribute their first variant only, and
a reference to a type that is not declared has the example `null`.
-/
def exampleWithin (r : Registry) : Nat → Value → Logged Value
  | 0, _ => Logged.fail .tooDeep
  | depth + 1, v =>
    match v with
    | .element e =>
      match e.kind with
      | .boolean => pure (Example.literalOr e.content Example.boolean)
      | .number => pure (Example.literalOr e.content Example.number)
      | .string => pure (Example.literalOr e.content Example.string)
      | .enum =>
        if e.content.truthy then do
          r.exampleWithin depth (← (e.content.first : Except Fault Value))
        else pure .null
      | .array => do
        let items ← (e.content.items : Except Fault (List Value))
        .list <$> items.mapM (r.exampleWithin depth)
      | .object => .object <$> r.exampleObjectWithin depth e.content
      | .named _ => do
        match ← r.resolve e with
        | some merged => r.exampleWithin depth (.element merged)
        | none => pure .null
      -- Members, options, selections and includes stand for no value of their own.
      | _ => pure .null
    | _ => pure .null
termination_by structural depth => depth

def exampleObjectWithin (r : Registry) : Nat → Value → Logged (Table Value)
  | 0, _ => Logged.fail .tooDeep
  | depth + 1, content =>
    walk (fun entries v =>
      match v with
      | .element e =>
        match e.kind with
        | .select =>
          if e.content.truthy then do
            let variant ← (e.content.first : Except Fault Value)
            let chosen ← (variant.elementContent : Except Fault Value)
            Table.union entries <$> r.exampleObjectWithin depth chosen
          else pure entries
        | .member => do
          -- The value comes before the key, so that its fault is the one that shows.
          let value ← (e.value : Except Fault Value)
          let sample ← if value.isNull then pure .null else r.exampleWithin depth value
          let key ← (e.key : Except Fault Value)
          pure (Table.put entries (← (key.asKey : Except Fault Value)) sample)
        | _ => pure entries
      | _ => pure entries) [] (r.scan content)
termination_by structural depth => depth

end

def exampleOf (r : Registry) (root : Element) : Logged Value :=
  r.exampleWithin nestingLimit (.element root)

end Registry

end ApiElements
