import ApiElements.Fault
import ApiElements.Value.Table

/-!
This module contains ways into a value whose form is not known: its items, its fields, its entries.
-/

namespace ApiElements

namespace Value

/--
The items of a value: those of a list, tuple or set, the characters of a text, the numbers of bytes,
the keys of an object.
-/
def items : Value → Except Fault (List Value)
  | .list items => .ok items
  | .tuple items => .ok items
  | .set items => .ok items
  | .text s => .ok (s.toList.map fun c => .text (String.singleton c))
  | .bytes data => .ok (data.map fun b => .int b.toNat)
  | .object entries => .ok (Table.keys entries)
  | _ => .error (.mismatch .notIterable)

def itemsOrNone (v : Value) : Except Fault (List Value) :=
  if v.truthy then v.items else .ok []

/--
The first item of a value that has items in a fixed order. In an object the entry is taken whose key
is zero.
-/
def first : Value → Except Fault Value
  | .list (x :: _) => .ok x
  | .tuple (x :: _) => .ok x
  | .list [] => .error .noItem
  | .tuple [] => .error .noItem
  | .text s =>
    match s.toList with
    | c :: _ => .ok (.text (String.singleton c))
    | [] => .error .noItem
  | .bytes (b :: _) => .ok (.int b.toNat)
  | .bytes [] => .error .noItem
  | .object entries =>
    match Table.get? entries (.int 0) with
    | some v => .ok v
    | none => .error .noEntry
  | _ => .error (.mismatch .notIndexable)

/--
A field of an object, `null` if it is not there.
-/
def field (v : Value) (name : String) : Except Fault Value :=
  match v with
  | .object entries => .ok ((Table.get? entries (.text name)).getD .null)
  | _ => .error (.noPart "get")

def pair (v : Value) : Except Fault (Value × Value) := do
  match ← v.items with
  | [key, thing] => if key.hashable then .ok (key, thing) else .error (.mismatch .unhashable)
  | _ => .error .malformedPairs

/--
The entries of a value: an object's own, or those that the items of a list spell out one by one. An
absent value has none.
-/
def entriesOrNone (v : Value) : Except Fault (Table Value) :=
  if v.truthy then
    match v with
    | .object entries => .ok entries
    | v => do
      let pairs ← (← v.items).mapM pair
      .ok (Table.ofList pairs)
  else
    .ok []

def asKey (v : Value) : Except Fault Value :=
  if v.hashable then .ok v else .error (.mismatch .unhashable)

end Value

end ApiElements
