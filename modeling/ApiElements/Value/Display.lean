import ApiElements.Number.Layout
import ApiElements.Text.Quoted
import ApiElements.Value.Basic

/-!
This module contains the form in which messages show a value.
-/

namespace ApiElements

def commaSeparated (parts : List String) : String :=
  ", ".intercalate parts

def braced (content : String) : String :=
  "\x7b" ++ content ++ "\x7d"

mutual

def Value.display : Value → String
  | .null => "None"
  | .bool b => if b then "True" else "False"
  | .int n => String.ofList (wholeText n)
  | .double d => d.text .plain
  | .decimal d => "Decimal('" ++ d.text ++ "')"
  | .text s => quoted s
  | .bytes data => quotedBytes data
  | .moment m => m.display
  | .list items => "[" ++ commaSeparated (Value.displayItems items) ++ "]"
  | .tuple [x] => "(" ++ Value.display x ++ ",)"
  | .tuple items => "(" ++ commaSeparated (Value.displayItems items) ++ ")"
  | .set [] => "set()"
  | .set items => braced (commaSeparated (Value.displayItems items))
  | .object entries => braced (commaSeparated (Value.displayEntries entries))
  | .element e => Element.display e
  | .member key value =>
    "MemberContent(key=" ++ Value.display key ++ ", value=" ++ Value.display value ++ ")"
  | .ref href => "RefContent(href=" ++ Value.display href ++ ")"
  | .loop => "..."
termination_by structural v => v

def Value.displayItems : List Value → List String
  | [] => []
  | x :: xs => Value.display x :: Value.displayItems xs
termination_by structural xs => xs

def Value.displayEntries : List (Value × Value) → List String
  | [] => []
  | (k, v) :: rest => (Value.display k ++ ": " ++ Value.display v) :: Value.displayEntries rest
termination_by structural entries => entries

def Element.display : Element → String
  | .mk kind info attributes content =>
    kind.name ++ "(meta=" ++ Value.display info ++ ", attributes=" ++ Value.display attributes ++
      Kind.displayTypeName kind ++ ", content=" ++ Value.display content ++ ")"
termination_by structural e => e

def Kind.displayTypeName : Kind → String
  | .named typeName => ", type_name=" ++ Value.display typeName
  | _ => ""
termination_by structural k => k

end

/--
A value as part of a message: texts, decimals and moments stand for themselves.
-/
def Value.plain : Value → String
  | .text s => s
  | .decimal d => d.text
  | .moment m => m.text
  | v => v.display

end ApiElements
