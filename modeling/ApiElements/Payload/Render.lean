import ApiElements.Element.Json
import ApiElements.Schema.OfElement
import ApiElements.Settings.Basic

/-!
This module contains the rendering of an element as texts: the example body of a payload and its
schema. Each of the two is made on its own, so that the failure of one leaves the other untouched.
-/

namespace ApiElements

namespace Payload

/--
The texts of a payload. One is `none` if it is switched off, cannot be made or has nothing to show.
-/
structure Rendered where
  body : Option String := none
  schema : Option String := none
deriving DecidableEq

inductive Target where
  | schema
  | body
deriving DecidableEq

def Target.name : Target → String
  | .schema => "schema"
  | .body => "example"

/--
Whether a fault means that an element cannot be rendered: a value that does not fit, or nesting
without end. Other faults are not expected and end the whole rendering.
-/
def isRenderFault (fault : Fault) : Bool :=
  match fault.category with
  | .type => true
  | .value => true
  | .recursion => true
  | _ => false

def logIndent : Value := .int 2

def reportElement (root : Element) : Logged Unit :=
  match root.jsonText logIndent with
  | .ok text => Logged.record .debug .payloads ("Offending element:\n" ++ text)
  | .error fault =>
    if isRenderFault fault then
      Logged.record .debug .payloads "Offending element could not be serialized"
    else Logged.fail fault

def reportFailure (target : Target) (root : Element) (fault : Fault) (settings : Settings) :
    Logged Unit := do
  Logged.record .warning .payloads ("Could not render " ++ target.name ++ " for '" ++
    root.tag.plain ++ "': " ++ fault.description)
  if settings.verbose.truthy then reportElement root

def orLog (target : Target) (root : Element) (settings : Settings) (text : Logged (Option String)) :
    Logged (Option String) := do
  match ← text.attempt with
  | .ok text => pure text
  | .error fault =>
    if isRenderFault fault then do
      reportFailure target root fault settings
      pure none
    else Logged.fail fault

def schemaText (r : Registry) (root : Element) (settings : Settings) : Logged (Option String) := do
  let s ← r.schemaOf root
  some <$> (Json.render settings.indent (s.document settings.dialect) : Except Fault String)

def bodyText (r : Registry) (root : Element) (settings : Settings) : Logged (Option String) := do
  let v ← r.exampleOf root
  if v.isNull then pure none
  else some <$> (Json.render settings.indent v : Except Fault String)

def render (r : Registry) (root : Element) (settings : Settings) : Logged Rendered := do
  -- The schema first: the order shows in the log.
  let schema ← if settings.schemas.truthy then
      orLog .schema root settings (schemaText r root settings)
    else pure none
  let body ← if settings.examples.truthy then
      orLog .body root settings (bodyText r root settings)
    else pure none
  pure { body, schema }

end Payload

end ApiElements
