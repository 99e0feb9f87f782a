import ApiElements.Element.Encode
import ApiElements.Json.Parser
import ApiElements.Json.Printer

/-!
This module contains a text form for all values, also for those without a JSON form, which appear as
objects with a marked key.
-/

namespace ApiElements

namespace Value

def oneLine (v : Value) : Except Fault String :=
  Json.render .null v

def marked (mark : String) (v : Value) : Value :=
  .object [(.text mark, v)]

def sortByText (items : List Value) : Except Fault (List Value) := do
  let keyed ← items.mapM fun v => do .ok ((← oneLine v), v)
  .ok ((keyed.mergeSort fun x y => decide (x.1 ≤ y.1)).map (·.2))

/--
A value with its elements, contents, sets and decimals turned into marked objects, down to a depth.
-/
def annotate : Nat → Value → Except Fault Value
  | 0, _ => .error .tooDeep
  | depth + 1, v =>
    match v with
    | .element e => do marked "$element" <$> annotate depth (← e.encode)
    | .member key value => do
      .ok (marked "$member" (.list [← annotate depth key, ← annotate depth value]))
    | .ref href => marked "$ref" <$> annotate depth href
    | .set items => do
      (marked "$set" ∘ .list) <$> sortByText (← items.mapM (annotate depth))
    | .decimal d => .ok (marked "$decimal" (.text d.text))
    | .list items => .list <$> items.mapM (annotate depth)
    | .tuple items => .list <$> items.mapM (annotate depth)
    | .object entries => do
      .object <$> entries.mapM fun (k, v) => do .ok (k, ← annotate depth v)
    | v => .ok v

def annotatedText (v : Value) : Except Fault String := do
  oneLine (← annotate (3 * Json.depthLimit) v)

end Value

def Element.annotatedText (e : Element) : Except Fault String := do
  (← e.encode).annotatedText

end ApiElements
