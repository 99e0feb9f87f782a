import ApiElements.Element.Access

/-!
This module contains the derivation of one type from another: an element that extends a declared one
is merged on top of it.
-/

namespace ApiElements

def mergeEntries (base override : Value) : Except Fault (Table Value) :=
  match base, override with
  | .object base, .object override => .ok (Table.union base override)
  | _, _ => .error (.mismatch .notMapping)

/--
The entries without the members whose key a later member has, and the keys that were met.
-/
def keepLast : List Value → Except Fault (List Value × List Value)
  | [] => .ok ([], [])
  | entry :: rest => do
    -- From the end on, so that the keys met so far are those of later members.
    let (kept, seen) ← keepLast rest
    match entry with
    | .element e =>
      if e.isMember then do
        let key ← (← e.key).asKey
        if key.memberOf seen then .ok (kept, seen) else .ok (entry :: kept, key :: seen)
      else .ok (entry :: kept, seen)
    | _ => .ok (entry :: kept, seen)

/--
Drops members whose key comes again, if the first entry is a member. Other entries stay.
-/
def dropRepeated (content : List Value) : Except Fault (List Value) :=
  match content with
  | .element e :: _ => if e.isMember then (·.1) <$> keepLast content else .ok content
  | content => .ok content

/--
Sequences are appended. Any other content of the extending element replaces that of the base, and
the base keeps its own if there is none.
-/
def mergeContent (base override : Value) : Except Fault Value :=
  match base, override with
  | base, .null => .ok base
  | .tuple xs, .tuple ys => .tuple <$> dropRepeated (xs ++ ys)
  -- Members repeated in what is put in are dropped even where nothing is appended to.
  | _, .tuple ys => .tuple <$> dropRepeated ys
  | _, override => .ok override

namespace Element

/--
Merges an extending element on top of a base. The result is of the kind of the base.
-/
def extendBy (base override : Element) : Except Fault Element := do
  let info ← mergeEntries base.info override.info
  let attributes ← mergeEntries base.attributes override.attributes
  let content ← mergeContent base.content override.content
  .ok (.mk base.kind (.object info) (.object attributes) content)

end Element

end ApiElements
