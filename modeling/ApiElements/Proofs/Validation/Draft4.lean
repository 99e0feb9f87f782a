import ApiElements.Value.Table

/-!
This module contains the validation of values against schema documents of draft 4, as far as it
concerns the keywords that schemas of elements have.
-/

namespace ApiElements

namespace Draft4

/--
The type of a JSON value. Numbers are finite, and truth values are none.
-/
def typeName? : Value → Option String
  | .null => some "null"
  | .bool _ => some "boolean"
  | .int _ => some "number"
  | .double (.finite _ _ _) => some "number"
  | .decimal (.finite _ _ _) => some "number"
  | .text _ => some "string"
  | .list _ => some "array"
  | .object _ => some "object"
  | _ => none

def hasType (type v : Value) : Bool :=
  match typeName? v with
  | some name => (Value.text name).same type
  | none => false

theorem hasType_text {name : String} {v : Value}
    : hasType (.text name) v = true ↔ typeName? v = some name := by
  unfold hasType
  split
  . next h => simp [h, Value.same]
  . next h => simp [h]

def typeHolds (type v : Value) : Bool :=
  match type with
  | .list types => types.any fun type => hasType type v
  | type => hasType type v

/--
Whether a value equals a literal. A truth value equals no number.
-/
def equalsLiteral (literal v : Value) : Bool :=
  match literal, v with
  | .bool b, .bool c => b == c
  | .bool _, _ => false
  | _, .bool _ => false
  | literal, v => literal.same v

def enumHolds (choice v : Value) : Bool :=
  match choice with
  | .list literals => literals.any fun literal => equalsLiteral literal v
  | _ => true

/--
Whether an object has all of some keys. What is no object need not have any.
-/
def requiredHolds (keys v : Value) : Bool :=
  match v with
  | .object entries =>
    match keys with
    | .list keys => keys.all fun key => Table.has entries key
    | _ => true
  | _ => true

mutual

def accepts : Value → Value → Bool
  | .object keywords, v => acceptsKeywords keywords v
  | _, _ => true
termination_by structural schema => schema

def acceptsKeywords : List (Value × Value) → Value → Bool
  | [], _ => true
  | (keyword, argument) :: rest, v =>
    (match keyword with
    | .text "type" => typeHolds argument v
    | .text "enum" => enumHolds argument v
    | .text "items" =>
      match v with
      | .list items => items.all fun item => accepts argument item
      | _ => true
    | .text "anyOf" =>
      match argument with
      | .list schemas => acceptsSome schemas v
      | _ => true
    | .text "allOf" =>
      match argument with
      | .list schemas => acceptsAll schemas v
      | _ => true
    | .text "not" => !accepts argument v
    | .text "properties" =>
      match v with
      | .object entries =>
        match argument with
        | .object properties => acceptsProperties properties entries
        | _ => true
      | _ => true
    | .text "required" => requiredHolds argument v
    | _ => true) && acceptsKeywords rest v
termination_by structural keywords => keywords

def acceptsSome : List Value → Value → Bool
  | [], _ => false
  | schema :: rest, v => accepts schema v || acceptsSome rest v
termination_by structural schemas => schemas

def acceptsAll : List Value → Value → Bool
  | [], _ => true
  | schema :: rest, v => accepts schema v && acceptsAll rest v
termination_by structural schemas => schemas

def acceptsProperties : List (Value × Value) → List (Value × Value) → Bool
  | [], _ => true
  | (key, schema) :: rest, entries =>
    (match Table.get? entries key with
    | some thing => accepts schema thing
    | none => true) && acceptsProperties rest entries
termination_by structural properties => properties

end

def keywordHolds (keyword argument v : Value) : Bool :=
  match keyword with
  | .text "type" => typeHolds argument v
  | .text "enum" => enumHolds argument v
  | .text "items" =>
    match v with
    | .list items => items.all fun item => accepts argument item
    | _ => true
  | .text "anyOf" =>
    match argument with
    | .list schemas => schemas.any fun schema => accepts schema v
    | _ => true
  | .text "allOf" =>
    match argument with
    | .list schemas => schemas.all fun schema => accepts schema v
    | _ => true
  | .text "not" => !accepts argument v
  | .text "properties" =>
    match v with
    | .object entries =>
      match argument with
      | .object properties =>
        properties.all fun property =>
          (Table.get? entries property.1).all fun thing => accepts property.2 thing
      | _ => true
    | _ => true
  | .text "required" => requiredHolds argument v
  | _ => true

theorem acceptsSome_eq (schemas : List Value) (v : Value)
    : acceptsSome schemas v = schemas.any fun schema => accepts schema v := by
  induction schemas with
  | nil => rfl
  | cons schema rest ih => rw [acceptsSome, List.any_cons, ih]

theorem acceptsAll_eq (schemas : List Value) (v : Value)
    : acceptsAll schemas v = schemas.all fun schema => accepts schema v := by
  induction schemas with
  | nil => rfl
  | cons schema rest ih => rw [acceptsAll, List.all_cons, ih]

theorem acceptsProperties_eq (properties entries : List (Value × Value))
    : acceptsProperties properties entries
        =
      properties.all fun property =>
        (Table.get? entries property.1).all fun thing => accepts property.2 thing := by
  induction properties with
  | nil => rfl
  | cons property rest ih =>
    rw [acceptsProperties, List.all_cons, ih]
    cases Table.get? entries property.1 with
    | _ => rfl

theorem acceptsKeywords_cons (keyword argument v : Value) (rest : List (Value × Value))
    : acceptsKeywords ((keyword, argument) :: rest) v
        =
      (keywordHolds keyword argument v && acceptsKeywords rest v) := by
  conv => lhs; unfold acceptsKeywords
  congr 1
  unfold keywordHolds
  simp only [acceptsSome_eq, acceptsAll_eq, acceptsProperties_eq]

theorem accepts_object (keywords : List (Value × Value)) (v : Value)
    : accepts (.object keywords) v
        =
      keywords.all fun entry => keywordHolds entry.1 entry.2 v := by
  rw [accepts]
  induction keywords with
  | nil => rfl
  | cons entry rest ih => rw [acceptsKeywords_cons, List.all_cons, ih]

end Draft4

end ApiElements
