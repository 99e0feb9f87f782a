import ApiElements.Element.Merge
import ApiElements.Log
import ApiElements.Value.Display

/-!
This module contains the registry of declared types, which maps identifiers to declarations, and the
resolution of references to them.
-/

namespace ApiElements

/--
The declared types of a document by their identifiers, in the order of their first declaration.
-/
structure Registry where
  types : Table Element

namespace Registry

/--
Adds a declaration under its identifier, in the place of an earlier one that has the same. One
without an identifier is not added.
-/
def declare (r : Registry) (e : Element) : Except Fault Registry := do
  let id ← e.id
  if id.isNull then .ok r
  else if id.hashable then .ok ⟨r.types.put id e⟩
  else .error (.mismatch .unhashable)

def ofElements (elements : List Element) : Except Fault Registry :=
  elements.foldlM declare ⟨[]⟩

def ids (r : Registry) : List Value :=
  r.types.keys

def get? (r : Registry) (id : Value) : Except Fault (Option Element) := do
  .ok (r.types.get? (← id.asKey))

def has (r : Registry) (id : Value) : Except Fault Bool :=
  Option.isSome <$> r.get? id

def get (r : Registry) (id : Value) : Except Fault Element := do
  match ← r.get? id with
  | some e => .ok e
  | none => .error .noEntry

/--
The declared type that an element refers to, extended by that element. A reference to a type that is
not declared is logged.
-/
def resolve (r : Registry) (e : Element) : Logged (Option Element) := do
  let typeName ← e.typeName
  match ← r.get? typeName with
  | none =>
    Logged.record .debug .registry ("Unresolved type reference '" ++ typeName.plain ++ "'")
    pure none
  | some declared => some <$> (declared.extendBy e : Except Fault Element)

end Registry

end ApiElements
