import ApiElements.Proofs.Alike.Schemas
import ApiElements.Proofs.Recast.Merged

/-!
This module contains that trees which differ in the collections of their type attributes only are
compiled in step, to answers that differ in nothing else, except that the items of an array may be
folded in one of two schemas only.
-/

namespace ApiElements

open Outcome (matches_of_eq)

abbrev Value.AlikeRecast : Value → Value → Prop :=
  Value.Alike Value.Recast False

/--
Two schemas are made up in the same way. Elements that stand in them may differ in the collections of
type attributes. The items of an array are those of two lists of such schemas, each of them folded if
all in it are equal.
-/
abbrev Schema.CloseRecast : Schema → Schema → Prop :=
  Schema.Close Value.Recast False

namespace Registry

variable {r : Registry} {n : Nat} {e e' : Element} {v v' content content' : Value}

section Examples

theorem exampleWithin_of_other (hv : ∀ e, v ≠ .element e)
    : r.exampleWithin (n + 1) v = pure .null := by
  cases v with
  | element e => exact absurd rfl (hv e)
  | _ => rfl

theorem alike_literal_recast (h : v.Recast v') (placeholder : Value)
    : (Example.literalOr v placeholder).AlikeRecast (Example.literalOr v' placeholder) := by
  exact Value.alike_literalOr (.refl placeholder) h h.isNull_eq

structure ExamplesMatch (r : Registry) (n : Nat) : Prop where
  value : ∀ v v', v.Recast v' →
    (r.exampleWithin n v).Matches Value.AlikeRecast (r.exampleWithin n v')
  content : ∀ content content', content.Recast content' →
    (r.exampleObjectWithin n content).Matches (Table.Linked False Value.AlikeRecast)
      (r.exampleObjectWithin n content')

theorem matches_property (e : Element) {x y : Value} (h : x.AlikeRecast y)
    : Logged.Matches (Table.Linked False Value.AlikeRecast)
        (do
          let key ← (e.key : Except Fault Value)
          pure [(← (key.asKey : Except Fault Value), x)])
        (do
          let key ← (e.key : Except Fault Value)
          pure [(← (key.asKey : Except Fault Value), y)]) := by
  apply (Logged.matches_liftM (matches_of_eq rfl)).bind
  rintro key _ rfl
  cases hkey : key.asKey with
  | error fault => exact Logged.matches_fail fault
  | ok k =>
    obtain ⟨hhashable, rfl⟩ := Value.asKey_eq_ok.1 hkey
    exact Logged.matches_pure (Table.linked_singleton hhashable h)

theorem ExamplesMatch.entry (h : r.ExamplesMatch n) (hv : v.Recast v')
    : (r.exampleEntries n v).Matches (Table.Linked False Value.AlikeRecast)
        (r.exampleEntries n v') := by
  rcases hv.element_or_other with ⟨e, e', rfl, rfl, he⟩ | ⟨hother, hother'⟩
  . unfold exampleEntries
    dsimp only
    rw [← he.kind_eq]
    cases e.kind with
    | select =>
      dsimp only
      rw [← he.content.truthy_eq]
      split
      . apply (Logged.matches_liftM he.content.first).bind
        intro variant variant' hvariant
        apply (Logged.matches_liftM hvariant.elementContent).bind
        exact h.content
      . exact Logged.matches_pure Table.linked_nil
    | member =>
      dsimp only
      rw [← he.key_eq]
      apply (Logged.matches_liftM he.value).bind
      intro value value' hvalue
      rw [← hvalue.isNull_eq]
      split
      . exact (Logged.matches_pure (.leaf (.refl .null))).bind fun x y => matches_property e
      . exact (h.value value value' hvalue).bind fun x y => matches_property e
    | _ => exact Logged.matches_pure Table.linked_nil
  . rw [exampleEntries_passedOver (passedOver_of_other hother),
      exampleEntries_passedOver (passedOver_of_other hother')]
    exact Logged.matches_pure Table.linked_nil

theorem ExamplesMatch.kind (h : r.ExamplesMatch n) (he : e.Recast e')
    : (r.exampleWithin (n + 1) (.element e)).Matches Value.AlikeRecast
        (r.exampleWithin (n + 1) (.element e')) := by
  have hnull : Value.null.AlikeRecast .null := .leaf (.refl .null)
  rw [exampleWithin, exampleWithin, ← he.kind_eq]
  cases e.kind with
  | boolean => exact Logged.matches_pure (alike_literal_recast he.content _)
  | number => exact Logged.matches_pure (alike_literal_recast he.content _)
  | string => exact Logged.matches_pure (alike_literal_recast he.content _)
  | enum =>
    dsimp only
    rw [← he.content.truthy_eq]
    split
    . exact (Logged.matches_liftM he.content.first).bind h.value
    . exact Logged.matches_pure hnull
  | array =>
    apply (Logged.matches_liftM he.content.items).bind
    intro items items' hitems
    exact (Logged.matches_mapM hitems h.value).map fun xs ys => Value.alike_list
  | object => exact (h.content _ _ he.content).map fun t u => Value.alike_object
  | named name =>
    apply (resolve_recast he).bind
    intro found found' hfound
    cases hfound with
    | none => exact Logged.matches_pure hnull
    | some hmerged => exact h.value _ _ hmerged.toValue
  | _ => exact Logged.matches_pure hnull

theorem examplesMatch (r : Registry) (n : Nat) : r.ExamplesMatch n := by
  induction n with
  | zero =>
    constructor
    . exact fun v v' _ => Logged.matches_fail .tooDeep
    . exact fun content content' _ => Logged.matches_fail .tooDeep
  | succ n ih =>
    constructor
    . intro v v' hv
      rcases hv.element_or_other with ⟨e, e', rfl, rfl, he⟩ | ⟨hother, hother'⟩
      . exact ih.kind he
      . rw [exampleWithin_of_other hother, exampleWithin_of_other hother']
        exact Logged.matches_pure (.leaf (.refl .null))
    . intro content content' hcontent
      rw [exampleObjectWithin_eq, exampleObjectWithin_eq]
      apply (matches_additions (scan_recast hcontent) fun v v' => ih.entry).map
      exact fun ts us hts => Table.linked_foldl_union Table.linked_nil hts

end Examples

section Schemas

open Schema (Gathered)

variable {s s' : Schema}

theorem memberOf_of_same {names names' : List Value} (h : ∀ x, x ∈ names ↔ x ∈ names') (s : String)
    : (Value.text s).memberOf names = (Value.text s).memberOf names' := by
  rw [Bool.eq_iff_iff, Value.text_memberOf_iff, Value.text_memberOf_iff, h]

theorem closeRecast_admitNull_if (h : s.CloseRecast s') (nullable : Bool)
    : (if nullable then s.admitNull else s).CloseRecast (if nullable then s'.admitNull else s') := by
  split
  . exact h.admitNull (.refl _) fun v v' hv => hv.null_same_eq
  . exact h

theorem matches_attribute (h : s.CloseRecast s') (he : e.Recast e')
    : Outcome.Matches Schema.CloseRecast (s.attribute e) (s'.attribute e') := by
  unfold Schema.attribute
  rw [← he.description_eq]
  apply (matches_of_eq rfl).bind
  rintro d _ rfl
  apply he.typeAttributes.bind
  intro names names' hnames
  rw [← memberOf_of_same hnames]
  exact .ok (closeRecast_admitNull_if (h.describe d) _)

theorem matches_addMember (h : s.CloseRecast s') (he : e.Recast e') (key : Value)
    : Outcome.Matches (Gathered.Near False (Table.Feeds False Schema.CloseRecast))
        (({} : Gathered).addMember e key s) (({} : Gathered).addMember e' key s') := by
  unfold Gathered.addMember
  rw [← he.description_eq]
  apply (matches_of_eq rfl).bind
  rintro d _ rfl
  apply he.typeAttributes.bind
  intro names names' hnames
  rw [← memberOf_of_same hnames, ← memberOf_of_same hnames]
  cases hkey : key.asKey with
  | error fault => exact .error fault
  | ok k =>
    obtain ⟨hhashable, rfl⟩ := Value.asKey_eq_ok.1 hkey
    apply Outcome.Matches.ok
    have hproperty := closeRecast_admitNull_if (h.describe d)
      ((Value.text "nullable").memberOf names)
    exact ⟨(Table.linked_singleton hhashable hproperty).feeds, .nil, fun _ => rfl, rfl⟩

theorem matches_ofLiteral (type : SchemaType) (he : e.Recast e')
    : Outcome.Matches Schema.CloseRecast (Schema.ofLiteral type e) (Schema.ofLiteral type e') := by
  unfold Schema.ofLiteral
  rw [← he.attributes.field_eq (by decide)]
  apply (matches_of_eq rfl).bind
  rintro default _ rfl
  exact .ok (Schema.close_of_simple rfl rfl rfl rfl .none)

theorem matches_ofChoice (he : e.Recast e')
    : Outcome.Matches Schema.CloseRecast (Schema.ofChoice e) (Schema.ofChoice e') := by
  unfold Schema.ofChoice
  apply he.content.items.bind
  intro variants variants' hvariants
  apply Outcome.Matches.ok
  apply Schema.close_of_simple rfl rfl rfl rfl
  apply Option.Rel.some
  rw [List.forall₂_map_left_iff, List.forall₂_map_right_iff]
  exact hvariants.imp fun v v' hv => hv.contentOrNull

theorem schemaWithin_of_other (hv : ∀ e, v ≠ .element e)
    : r.schemaWithin (n + 1) v = Logged.fail (.noPart "description") := by
  cases v with
  | element e => exact absurd rfl (hv e)
  | _ => rfl

structure SchemasMatch (r : Registry) (n : Nat) : Prop where
  value : ∀ v v', v.Recast v' →
    (r.schemaWithin n v).Matches Schema.CloseRecast (r.schemaWithin n v')
  content : ∀ content content', content.Recast content' →
    (r.schemaOfObjectWithin n content).Matches Schema.CloseRecast (r.schemaOfObjectWithin n content')

theorem SchemasMatch.entry (h : r.SchemasMatch n) (hv : v.Recast v')
    : (r.schemaEntries n v).Matches (Gathered.Near False (Table.Feeds False Schema.CloseRecast))
        (r.schemaEntries n v') := by
  rcases hv.element_or_other with ⟨e, e', rfl, rfl, he⟩ | ⟨hother, hother'⟩
  . unfold schemaEntries
    dsimp only
    rw [← he.kind_eq]
    cases e.kind with
    | select =>
      apply (Logged.matches_liftM he.content.items).bind
      intro options options' hoptions
      exact (Logged.matches_mapM hoptions h.value).map fun ss ss' => Gathered.near_ofOptions
    | member =>
      dsimp only
      rw [← he.key_eq]
      apply (Logged.matches_liftM (matches_of_eq rfl)).bind
      rintro key _ rfl
      apply (Logged.matches_liftM he.value).bind
      intro value value' hvalue
      have hadded := fun (s s' : Schema) (hs : s.CloseRecast s') =>
        Logged.matches_liftM (matches_addMember hs he key)
      rw [← hvalue.isNull_eq]
      split
      . exact (Logged.matches_pure Schema.close_any).bind hadded
      . exact (h.value value value' hvalue).bind hadded
    | _ => exact Logged.matches_pure Gathered.near_empty
  . rw [schemaEntries_passedOver (passedOver_of_other hother),
      schemaEntries_passedOver (passedOver_of_other hother')]
    exact Logged.matches_pure Gathered.near_empty

theorem SchemasMatch.kind (h : r.SchemasMatch n) (he : e.Recast e')
    : (r.schemaOfKind n e).Matches Schema.CloseRecast (r.schemaOfKind n e') := by
  unfold schemaOfKind
  rw [← he.kind_eq]
  cases e.kind with
  | boolean => exact Logged.matches_liftM (matches_ofLiteral .boolean he)
  | number => exact Logged.matches_liftM (matches_ofLiteral .number he)
  | string => exact Logged.matches_liftM (matches_ofLiteral .string he)
  | enum => exact Logged.matches_liftM (matches_ofChoice he)
  | array =>
    apply (Logged.matches_liftM he.content.items).bind
    intro items items' hitems
    exact (Logged.matches_mapM hitems h.value).map fun ss ss' => Schema.close_ofItems
  | object => exact h.content _ _ he.content
  | option => exact h.content _ _ he.content
  | named name =>
    apply (resolve_recast he).bind
    intro found found' hfound
    cases hfound with
    | none => exact Logged.matches_pure Schema.close_any
    | some hmerged => exact h.value _ _ hmerged.toValue
  | _ => exact Logged.matches_pure Schema.close_any

theorem schemasMatch (r : Registry) (n : Nat) : r.SchemasMatch n := by
  induction n with
  | zero =>
    constructor
    . exact fun v v' _ => Logged.matches_fail .tooDeep
    . exact fun content content' _ => Logged.matches_fail .tooDeep
  | succ n ih =>
    constructor
    . intro v v' hv
      rcases hv.element_or_other with ⟨e, e', rfl, rfl, he⟩ | ⟨hother, hother'⟩
      . rw [schemaWithin_element, schemaWithin_element]
        apply (ih.kind he).bind
        exact fun s s' hs => Logged.matches_liftM (matches_attribute hs he)
      . rw [schemaWithin_of_other hother, schemaWithin_of_other hother']
        exact Logged.matches_fail _
    . intro content content' hcontent
      rw [schemaOfObjectWithin_eq, schemaOfObjectWithin_eq]
      apply (matches_additions (scan_recast hcontent) fun v v' => ih.entry).map
      intro gs gs' hgs
      apply Gathered.Near.schema
      exact Gathered.near_foldl_add ⟨Table.linked_nil, .nil, fun _ => rfl, rfl⟩ hgs

end Schemas

end Registry

end ApiElements
