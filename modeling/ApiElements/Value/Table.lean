import ApiElements.Value.Equality

/-!
This module contains tables: entries with distinct keys, in the order in which the keys were first
put in.
-/

namespace ApiElements

/--
A table from values to things of some type. Looking up and putting in go by equality of values, so
that `1`, `1.0` and `true` are one key.
-/
abbrev Table (α : Type) := List (Value × α)

namespace Table

variable {α : Type}

def get? (t : Table α) (key : Value) : Option α :=
  (t.find? fun entry => key.same entry.1).map (·.2)

def has (t : Table α) (key : Value) : Bool :=
  t.any fun entry => key.same entry.1

/--
Puts a thing under a key. A key that is there keeps its place and its form; a new one goes to the
end.
-/
def put (t : Table α) (key : Value) (thing : α) : Table α :=
  match t with
  | [] => [(key, thing)]
  | entry :: rest =>
    if key.same entry.1 then (entry.1, thing) :: rest else entry :: put rest key thing

def union (t : Table α) (others : List (Value × α)) : Table α :=
  others.foldl (fun t entry => t.put entry.1 entry.2) t

/--
The table of a list of entries, of which the last one for a key counts.
-/
def ofList (entries : List (Value × α)) : Table α :=
  union [] entries

def keys (t : Table α) : List Value :=
  t.map (·.1)

end Table

end ApiElements
