import ApiElements.Element.Decode
import ApiElements.Element.Encode
import ApiElements.Json.Parser
import ApiElements.Json.Printer

/-!
This module contains the JSON texts of element trees.
-/

namespace ApiElements

namespace Element

def jsonText (e : Element) (indent : Value) : Except Fault String := do
  Json.render indent (← e.encode)

def ofJsonText (kinds : Kinds) (text : String) : Except Fault Element := do
  match ← Json.parse text with
  | .object entries => Value.decode kinds (.object entries)
  | v => .error (.notDocument v.formName)

end Element

end ApiElements
