import ApiElements.Payload.Render
import ApiElements.Registry.Document

/-!
This module contains the decoration of a parsed API: every payload that carries data structures gets
the texts rendered for them. The payloads are found in the examples of actions, within resources
within groups.
-/

namespace ApiElements

namespace Payload

/--
How far a change got: what the thing looks like now, what was logged, and the fault that stopped the
change if one did.
-/
structure Change (α : Type) where
  now : α
  log : List Log.Record := []
  stopped : Option Fault := none

namespace Change

variable {α β : Type}

def map (f : α → β) (c : Change α) : Change β :=
  ⟨f c.now, c.log, c.stopped⟩

def andThen (c : Change α) (f : α → Change α) : Change α :=
  match c.stopped with
  | some _ => c
  | none =>
    let next := f c.now
    ⟨next.now, c.log ++ next.log, next.stopped⟩

def stop (now : α) (log : List Log.Record) (fault : Fault) : Change α :=
  ⟨now, log, some fault⟩

def after (now : α) (x : Logged β) (f : β → Change α) : Change α :=
  match x.result with
  | .error fault => stop now x.log fault
  | .ok b =>
    let next := f b
    ⟨next.now, x.log ++ next.log, next.stopped⟩

def each (change : α → Change α) : List α → Change (List α)
  | [] => ⟨[], [], none⟩
  | x :: xs =>
    let first := change x
    match first.stopped with
    -- What was changed before the fault stays so.
    | some fault => ⟨first.now :: xs, first.log, some fault⟩
    | none =>
      let others := each change xs
      ⟨first.now :: others.now, first.log ++ others.log, others.stopped⟩

end Change

/--
Changes the items of a value. Those of a list are changed in place; the items of anything else are
only gone through.
-/
def changeItems (change : Value → Change Value) (v : Value) : Change Value :=
  if v.truthy then
    match v with
    | .list items => (Change.each change items).map .list
    | v =>
      match v.items with
      | .error fault => .stop v [] fault
      | .ok items =>
        let changed := Change.each change items
        ⟨v, changed.log, changed.stopped⟩
  else ⟨v, [], none⟩

def changeField (name : String) (change : Value → Change Value) (v : Value) : Change Value :=
  match v with
  | .object entries =>
    match Table.get? entries (.text name) with
    | none => ⟨v, [], none⟩
    | some field =>
      (changeItems change field).map fun field => .object (Table.put entries (.text name) field)
  | v => .stop v [] (.noPart "get")

def withText (payload : Value) (name : String) (text : Option String) : Value :=
  match payload, text with
  | .object entries, some text => .object (Table.put entries (.text name) (.text text))
  | payload, _ => payload

/--
Whether a fault means that a data structure is malformed, so that it is skipped.
-/
def isDecodeFault (fault : Fault) : Bool :=
  match fault.category with
  | .key => true
  | .value => true
  | _ => false

/--
The element of a data structure, or nothing if it is malformed, which is logged.
-/
def decodeItem (kinds : Kinds) (item : Value) : Logged (Option Element) :=
  match Registry.declaration kinds item with
  | .ok root => pure (some root)
  | .error fault =>
    if isDecodeFault fault then do
      Logged.record .warning .payloads
        ("Could not decode payload data structure: " ++ fault.description)
      pure none
    else Logged.fail fault

/--
Puts the texts of one item of its content into a payload. A schema that is there stays.
-/
def decorateItem (kinds : Kinds) (r : Registry) (settings : Settings) (payload item : Value) :
    Change Value :=
  .after payload (Registry.declares item : Except Fault Bool) fun declares =>
    if declares then
      .after payload (decodeItem kinds item) fun
        | none => ⟨payload, [], none⟩
        | some root =>
          .after payload (schemaWanted payload) fun wanted =>
            .after payload (Payload.render r root { settings with schemas := .bool wanted })
              fun rendered =>
                ⟨withText (withText payload "schema" rendered.schema) "body" rendered.body, [],
                  none⟩
    else ⟨payload, [], none⟩
where
  schemaWanted (payload : Value) : Except Fault Bool := do
    if settings.schemas.truthy then .ok !(← payload.field "schema").truthy else .ok false

def decoratePayload (kinds : Kinds) (r : Registry) (settings : Settings) (payload : Value) :
    Change Value :=
  let items : Except Fault (List Value) := do (← payload.field "content").itemsOrNone
  .after payload items fun items =>
    -- Each item sees the texts that those before it have put in.
    items.foldl (fun change item =>
      change.andThen fun payload => decorateItem kinds r settings payload item)
      ⟨payload, [], none⟩

/--
Decorates the payloads of an example, requests first.
-/
def decorateExample (decorate : Value → Change Value) (v : Value) : Change Value :=
  (changeField "requests" decorate v).andThen (changeField "responses" decorate)

def decorateAll (decorate : Value → Change Value) (api : Value) : Change Value :=
  changeField "resourceGroups"
    (changeField "resources" (changeField "actions" (changeField "examples"
      (decorateExample decorate)))) api

/--
The outcome of a decoration: the API as far as it was changed, and the registry of its declared
types unless a fault stopped the decoration.
-/
structure Decorated where
  api : Value
  log : List Log.Record
  result : Except Fault Registry

/--
Decorates an API. The time that it took, which is logged on request, is given as a text.
-/
def decorate (kinds : Kinds) (settings : Settings) (elapsed : String) (api : Value) : Decorated :=
  let registry := Registry.ofDocument kinds api
  match registry.result with
  | .error fault => ⟨api, registry.log, .error fault⟩
  | .ok r =>
    let changed := decorateAll (decoratePayload kinds r settings) api
    let log := registry.log ++ changed.log
    match changed.stopped with
    | some fault => ⟨changed.now, log, .error fault⟩
    | none =>
      let timing : List Log.Record :=
        if settings.benchmark.truthy then
          [⟨.info, .payloads, "decorate payloads: " ++ elapsed⟩]
        else []
      ⟨changed.now, log ++ timing, .ok r⟩

end Payload

end ApiElements
