import ApiElements.Value.Access

/-!
This module contains the parts of an element, each of which may be missing or of a wrong form.
-/

namespace ApiElements

namespace Element

def id (e : Element) : Except Fault Value :=
  e.info.field "id"

def description (e : Element) : Except Fault Value :=
  e.info.field "description"

/--
The type attributes, such as `required`, each of them once.
-/
def typeAttributes (e : Element) : Except Fault (List Value) := do
  let names ← (← e.attributes.field "typeAttributes").itemsOrNone
  .ok (Value.distinct (← names.mapM Value.asKey))

def isMember (e : Element) : Bool :=
  match e.kind with
  | .member => true
  | _ => false

/--
The key of a member. One without a key of its own has the empty text for a key.
-/
def key (e : Element) : Except Fault Value :=
  match e.content with
  | .member (.element key) _ => .ok (if key.content.truthy then key.content else .text "")
  | .member _ _ => .error (.noPart "content")
  | _ => .error (.noPart "key")

def value (e : Element) : Except Fault Value :=
  match e.content with
  | .member _ value => .ok value
  | _ => .error (.noPart "value")

def href (e : Element) : Except Fault Value :=
  match e.content with
  | .ref href => .ok href
  | _ => .error (.noPart "href")

def typeName (e : Element) : Except Fault Value :=
  match e.kind with
  | .named typeName => .ok typeName
  | _ => .error (.noPart "type_name")

end Element

namespace Value

def contentOrNull : Value → Value
  | .element e => e.content
  | _ => .null

end Value

end ApiElements
