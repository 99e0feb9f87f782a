import ApiElements.Text.Lowercase
import ApiElements.Value.Access

/-!
This module contains the registered kinds of elements, in the order of their registration, and the
registration of further ones.
-/

namespace ApiElements

/--
The registered kinds. Each stands under its own tag; the kind of references stands under one too,
although references are written with the name of the type that they refer to.
-/
abbrev Kinds := List Kind

namespace Kinds

def builtIn : Kinds := [.boolean, .string, .number, .enum, .array, .object, .option, .select,
  .member, .ref, .named .null]

def tags (kinds : Kinds) : List String :=
  kinds.map Kind.tag

def ofTag? (kinds : Kinds) (tag : String) : Option Kind :=
  List.find? (fun kind => kind.tag == tag) kinds

/--
The tag of a kind that is registered without one: its name in lower case, without the word that all
these names end in.
-/
def derivedTag (name : String) : String :=
  let cs := (lowercase name).toList
  let ending := "element".toList
  if ending.isSuffixOf cs then String.ofList (cs.take (cs.length - ending.length))
  else String.ofList cs

def owner (kind : Kind) : String :=
  match kind with
  | .custom name _ => "<class 'custom." ++ name ++ "'>"
  | kind => "<class 'elementdsl.nodes." ++ kind.name ++ "'>"

/--
Registers a kind of a name, under a given tag or the derived one. A tag belongs to one kind only.
-/
def register (kinds : Kinds) (name : String) (tag : Option String) : Except Fault Kinds :=
  let tag := tag.getD (derivedTag name)
  match kinds.ofTag? tag with
  | some kind => .error (.tagTaken tag (owner kind))
  | none => .ok (kinds ++ [.custom name tag])

/--
Defines a kind of a name, which may not hold the character that ends names, and registers it.
-/
def define (kinds : Kinds) (name : String) (tag : Option String) : Except Fault Kinds :=
  if name.toList.contains '\x00' then .error .forbiddenCharacter else kinds.register name tag

/--
What an element with some tag has as its content.
-/
inductive Shape where
  | member
  | ref
  | literal (kind : Kind)
  | sequence (kind : Kind)
  /-- Anything that extends a type declared elsewhere. -/
  | reference

/--
The shape that belongs to a tag. A tag that is not registered is the name of a declared type.
-/
def shape (kinds : Kinds) (tag : Value) : Except Fault Shape :=
  match tag with
  | .text "member" => .ok .member
  | .text "ref" => .ok .ref
  | .text tag =>
    match kinds.ofTag? tag with
    | none => .ok .reference
    | some (.named _) => .ok .reference
    | some kind =>
      -- Whatever else has been registered holds a sequence.
      if tag = "boolean" ∨ tag = "string" ∨ tag = "number" then .ok (.literal kind)
      else .ok (.sequence kind)
  | tag => if tag.hashable then .ok .reference else .error (.mismatch .unhashable)

end Kinds

end ApiElements
