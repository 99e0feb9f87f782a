import ApiElements.Value.Access

/-!
This module contains the settings of rendering. Their values are not checked: what a setting accepts
shows when it is used.
-/

namespace ApiElements

inductive Setting where
  | examples
  | schemas
  | verbose
  | benchmark
  | indent
  | dialect
deriving DecidableEq

namespace Setting

def all : List Setting := [.examples, .schemas, .verbose, .benchmark, .indent, .dialect]

def name : Setting → String
  | .examples => "examples"
  | .schemas => "schemas"
  | .verbose => "verbose"
  | .benchmark => "benchmark"
  | .indent => "indent"
  | .dialect => "schema_dialect"

def named? (v : Value) : Option Setting :=
  all.find? fun s => (Value.text s.name).same v

end Setting

def draft4 : String := "http://json-schema.org/draft-04/schema#"

/--
A value for every setting.
-/
structure Settings where
  examples : Value := .bool true
  schemas : Value := .bool true
  /-- Whether an element that cannot be rendered is shown in the log. -/
  verbose : Value := .bool false
  /-- Whether the time that decoration takes is logged. -/
  benchmark : Value := .bool false
  indent : Value := .int 2
  /-- The dialect that a schema document names. -/
  dialect : Value := .text draft4

namespace Settings

def get (s : Settings) : Setting → Value
  | .examples => s.examples
  | .schemas => s.schemas
  | .verbose => s.verbose
  | .benchmark => s.benchmark
  | .indent => s.indent
  | .dialect => s.dialect

def set (s : Settings) (setting : Setting) (v : Value) : Settings :=
  match setting with
  | .examples => { s with examples := v }
  | .schemas => { s with schemas := v }
  | .verbose => { s with verbose := v }
  | .benchmark => { s with benchmark := v }
  | .indent => { s with indent := v }
  | .dialect => { s with dialect := v }

/--
The settings after some entries are put in, each of which names a setting.
-/
def update (s : Settings) (entries : Table Value) : Except Fault Settings :=
  entries.foldlM (fun s (name, v) =>
    match Setting.named? name with
    | some setting => .ok (s.set setting v)
    | none => .error (.mismatch .unknownSetting)) s

end Settings

end ApiElements
