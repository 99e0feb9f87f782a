import ApiElements.Registry.Basic

/-!
This module contains the expansion of sequences: an include is replaced by the content of the type
that it names, whose own includes are replaced in turn.
-/

namespace ApiElements

/--
What is met when a sequence is gone through: an entry, an include of a type that is not declared, or
an include that cannot be followed.
-/
inductive Step where
  | entry (v : Value)
  | unresolved (href : Value)
  | fault (fault : Fault)

namespace Registry

def scanEntry (included : Value → List Step) (v : Value) : List Step :=
  match v with
  | .element (.mk .ref _ _ content) =>
    match content with
    | .ref href => if href.hashable then included href else [.fault (.mismatch .unhashable)]
    | _ => [.fault (.noPart "href")]
  | v => [.entry v]

def entriesOf (content : Value) : List Value :=
  match content with
  | .tuple items => items
  | _ => []

def included (r : Registry) : Nat → Value → List Step
  | 0, _ => [.fault .endless]
  | depth + 1, href =>
    match r.types.get? href with
    | none => [.unresolved href]
    | some e => (entriesOf e.content).flatMap (scanEntry (r.included depth))

/--
The steps of a content. Unless types include each other in a circle, a chain of includes passes each
declared type at most once, and ends with one that may not be declared. A longer chain has no end.
-/
def scan (r : Registry) (content : Value) : List Step :=
  (entriesOf content).flatMap (scanEntry (r.included (r.types.length + 1)))

/--
Goes through steps from an initial state. Unresolved includes are logged and otherwise passed over.
-/
def walk {σ : Type} (visit : σ → Value → Logged σ) : σ → List Step → Logged σ
  | state, [] => pure state
  | state, .entry v :: rest => do
    let state ← visit state v
    walk visit state rest
  | state, .unresolved href :: rest => do
    Logged.record .debug .registry ("Unresolved include '" ++ href.plain ++ "'")
    walk visit state rest
  | _, .fault fault :: _ => Logged.fail fault

def expand (r : Registry) (content : Value) : Logged (List Value) :=
  walk (fun entries v => pure (entries ++ [v])) [] (r.scan content)

end Registry

end ApiElements
