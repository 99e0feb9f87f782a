import ApiElements.Proofs.Validation.Draft4
import ApiElements.Proofs.Value.Keyed

/-!
This module contains validation under any equality of literals, of which the one that schemas are
validated by is a case.
-/

namespace ApiElements

namespace Draft4

mutual

/--
Whether a value is valid against a schema document, if literals are compared by some equality.
-/
def acceptsBy (equal : Value → Value → Bool) : Value → Value → Bool
  | .object keywords, v => acceptsKeywordsBy equal keywords v
  | _, _ => true
termination_by structural schema => schema

def acceptsKeywordsBy (equal : Value → Value → Bool) : List (Value × Value) → Value → Bool
  | [], _ => true
  | (keyword, argument) :: rest, v =>
    (match keyword with
    | .text "enum" =>
      match argument with
      | .list literals => literals.any fun literal => equal literal v
      | _ => true
    | .text "items" =>
      match v with
      | .list items => items.all fun item => acceptsBy equal argument item
      | _ => true
    | .text "anyOf" =>
      match argument with
      | .list schemas => acceptsSomeBy equal schemas v
      | _ => true
    | .text "allOf" =>
      match argument with
      | .list schemas => acceptsAllBy equal schemas v
      | _ => true
    | .text "not" => !acceptsBy equal argument v
    | .text "properties" =>
      match v with
      | .object entries =>
        match argument with
        | .object properties => acceptsPropertiesBy equal properties entries
        | _ => true
      | _ => true
    | keyword => keywordHolds keyword argument v) && acceptsKeywordsBy equal rest v
termination_by structural keywords => keywords

def acceptsSomeBy (equal : Value → Value → Bool) : List Value → Value → Bool
  | [], _ => false
  | schema :: rest, v => acceptsBy equal schema v || acceptsSomeBy equal rest v
termination_by structural schemas => schemas

def acceptsAllBy (equal : Value → Value → Bool) : List Value → Value → Bool
  | [], _ => true
  | schema :: rest, v => acceptsBy equal schema v && acceptsAllBy equal rest v
termination_by structural schemas => schemas

def acceptsPropertiesBy (equal : Value → Value → Bool) :
    List (Value × Value) → List (Value × Value) → Bool
  | [], _ => true
  | (key, schema) :: rest, entries =>
    (match Table.get? entries key with
    | some thing => acceptsBy equal schema thing
    | none => true) && acceptsPropertiesBy equal rest entries
termination_by structural properties => properties

end

section Accepts

variable {equal : Value → Value → Bool}

def keywordHoldsBy (equal : Value → Value → Bool) (keyword argument v : Value) : Bool :=
  match keyword with
  | .text "enum" =>
    match argument with
    | .list literals => literals.any fun literal => equal literal v
    | _ => true
  | .text "items" =>
    match v with
    | .list items => items.all fun item => acceptsBy equal argument item
    | _ => true
  | .text "anyOf" =>
    match argument with
    | .list schemas => schemas.any fun schema => acceptsBy equal schema v
    | _ => true
  | .text "allOf" =>
    match argument with
    | .list schemas => schemas.all fun schema => acceptsBy equal schema v
    | _ => true
  | .text "not" => !acceptsBy equal argument v
  | .text "properties" =>
    match v with
    | .object entries =>
      match argument with
      | .object properties =>
        properties.all fun property =>
          (Table.get? entries property.1).all fun thing => acceptsBy equal property.2 thing
      | _ => true
    | _ => true
  | keyword => keywordHolds keyword argument v

theorem acceptsSomeBy_eq (schemas : List Value) (v : Value)
    : acceptsSomeBy equal schemas v = schemas.any fun schema => acceptsBy equal schema v := by
  induction schemas with
  | nil => rfl
  | cons schema rest ih => rw [acceptsSomeBy, List.any_cons, ih]

theorem acceptsAllBy_eq (schemas : List Value) (v : Value)
    : acceptsAllBy equal schemas v = schemas.all fun schema => acceptsBy equal schema v := by
  induction schemas with
  | nil => rfl
  | cons schema rest ih => rw [acceptsAllBy, List.all_cons, ih]

theorem acceptsPropertiesBy_eq (properties entries : List (Value × Value))
    : acceptsPropertiesBy equal properties entries
        =
      properties.all fun property =>
        (Table.get? entries property.1).all fun thing => acceptsBy equal property.2 thing := by
  induction properties with
  | nil => rfl
  | cons property rest ih =>
    rw [acceptsPropertiesBy, List.all_cons, ih]
    cases Table.get? entries property.1 with
    | _ => rfl

theorem acceptsKeywordsBy_cons (keyword argument v : Value) (rest : List (Value × Value))
    : acceptsKeywordsBy equal ((keyword, argument) :: rest) v
        =
      (keywordHoldsBy equal keyword argument v && acceptsKeywordsBy equal rest v) := by
  conv => lhs; unfold acceptsKeywordsBy
  congr 1
  unfold keywordHoldsBy
  simp only [acceptsSomeBy_eq, acceptsAllBy_eq, acceptsPropertiesBy_eq]

theorem acceptsBy_object (keywords : List (Value × Value)) (v : Value)
    : acceptsBy equal (.object keywords) v
        =
      keywords.all fun entry => keywordHoldsBy equal entry.1 entry.2 v := by
  rw [acceptsBy]
  induction keywords with
  | nil => rfl
  | cons entry rest ih => rw [acceptsKeywordsBy_cons, List.all_cons, ih]

theorem matched_self {α : Type} (xs : List α) : Matched Eq xs xs := by
  exact ⟨fun x hx => ⟨x, hx, rfl⟩, fun x hx => ⟨x, hx, rfl⟩⟩

theorem keywordHoldsBy_equalsLiteral {argument : Value} (keyword v : Value)
    (ih : ∀ schema : Value, sizeOf schema ≤ sizeOf argument → ∀ v,
      acceptsBy equalsLiteral schema v = accepts schema v)
    : keywordHoldsBy equalsLiteral keyword argument v = keywordHolds keyword argument v := by
  -- The schemas in a list are smaller than the list, as the argument of every keyword is smaller.
  have hlist : ∀ schemas, argument = .list schemas → ∀ schema ∈ schemas,
      acceptsBy equalsLiteral schema v = accepts schema v := by
    rintro schemas rfl schema hmem
    have hsize := List.sizeOf_lt_of_mem hmem
    exact ih schema (by rw [Value.list.sizeOf_spec]; omega) v
  unfold keywordHoldsBy
  split
  . rfl
  . simp only [ih argument (Nat.le_refl _)]
    rfl
  . cases argument with
    | list schemas =>
      apply (matched_self schemas).any_eq
      rintro schema hmem _ _ rfl
      exact hlist schemas rfl schema hmem
    | _ => rfl
  . cases argument with
    | list schemas =>
      apply (matched_self schemas).all_eq
      rintro schema hmem _ _ rfl
      exact hlist schemas rfl schema hmem
    | _ => rfl
  . simp only [keywordHolds, ih argument (Nat.le_refl _)]
  . cases v with
    | object entries =>
      cases argument with
      | object properties =>
        apply (matched_self properties).all_eq
        rintro property hmem _ _ rfl
        have hsize := List.sizeOf_lt_of_mem hmem
        rw [Prod.mk.sizeOf_spec] at hsize
        simp only [ih property.2 (by rw [Value.object.sizeOf_spec]; omega)]
      | _ => rfl
    | _ => rfl
  . rfl

/--
Only the equality of literals is exchanged: with the one that tells truth values from numbers among
literals, but not within them, validation is as it was.
-/
theorem acceptsBy_equalsLiteral (schema v : Value)
    : acceptsBy equalsLiteral schema v = accepts schema v := by
  induction hn : sizeOf schema using Nat.strongRecOn generalizing schema v with
  | ind n ih =>
    subst hn
    cases schema with
    | object keywords =>
      rw [acceptsBy_object, accepts_object]
      apply (matched_self keywords).all_eq
      rintro keyword hmem _ _ rfl
      have hsize := List.sizeOf_lt_of_mem hmem
      rw [Prod.mk.sizeOf_spec] at hsize
      apply keywordHoldsBy_equalsLiteral
      intro schema hschema v
      exact ih _ (by rw [Value.object.sizeOf_spec]; omega) schema v rfl
    | _ => rfl

end Accepts

end Draft4

end ApiElements
