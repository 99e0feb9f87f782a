import ApiElements.Proofs.Compile.Visit
import ApiElements.Proofs.Validation.Regular

/-!
This module contains what a schema asks of a value, in terms of the schema and not of its document,
and that attributes of an element only widen the schema of its kind.
-/

namespace ApiElements

namespace Schema

/--
What a schema asks of a value.
-/
structure Satisfied (s : Schema) (v : Value) : Prop where
  type : ∀ t, s.type = some t → Draft4.typeHolds (typeValue t s.nullable) v = true
  enum : ∀ vs, s.enum = some vs → ∃ literal ∈ vs, Draft4.equalsLiteral literal v = true
  items : s.items ≠ [] → ∀ xs, v = .list xs →
    ∀ x ∈ xs, ∃ t ∈ s.items, Draft4.accepts t.toValue x = true
  properties : ∀ ps, s.properties = some ps → ∀ es, v = .object es →
    ∀ p ∈ ps, ∀ x, Table.get? es p.1 = some x → Draft4.accepts p.2.toValue x = true
  exclusive : ∀ ks ∈ s.exclusive, ∃ es, v = .object es ∧ ∃ k ∈ ks, Table.has es k = false
  required : ∀ es, v = .object es → ∀ k ∈ s.required, Table.has es k = true

section Keywords

open Draft4

variable {v argument : Value}

theorem holds_items {ts : List Schema} (h : itemsValue (ts.map toValue) = some argument)
    : keywordHolds (.text "items") argument v = true
        ↔
      ∀ xs, v = .list xs → ∀ x ∈ xs, ∃ t ∈ ts, accepts t.toValue x = true := by
  have hchoice : ∀ x, accepts argument x = true ↔ ∃ t ∈ ts, accepts t.toValue x = true := by
    intro x
    unfold itemsValue at h
    split at h
    . contradiction
    . next heq =>
      injection h with h
      subst h
      obtain ⟨t, rfl, rfl⟩ := List.map_eq_singleton_iff.1 heq
      simp
    . next choice _ _ =>
      injection h with h
      subst h
      rw [accepts_object]
      simp [keywordHolds]
  cases v with
  | list xs => simp [keywordHolds, hchoice]
  | _ => simp [keywordHolds]

theorem holds_properties {ps : List (Value × Schema)}
    : keywordHolds (.text "properties") (.object (ps.map fun p => (p.1, p.2.toValue))) v = true
        ↔
      ∀ es, v = .object es →
        ∀ p ∈ ps, ∀ x, Table.get? es p.1 = some x → accepts p.2.toValue x = true := by
  cases v with
  | object es => simp [keywordHolds, Option.all_eq_true]
  | _ => simp [keywordHolds]

theorem holds_exclusion {ks : List Value}
    : accepts (exclusion ks) v = true
        ↔
      ∃ es, v = .object es ∧ ∃ k ∈ ks, Table.has es k = false := by
  rw [exclusion, accepts_object, List.all_cons, List.all_nil, Bool.and_true]
  cases v with
  | object es => simp [keywordHolds, accepts_object, requiredHolds]
  | _ => simp [keywordHolds, accepts_object, requiredHolds]

theorem holds_required {ks : List Value}
    : keywordHolds (.text "required") (.list ks) v = true
        ↔
      ∀ es, v = .object es → ∀ k ∈ ks, Table.has es k = true := by
  cases v with
  | object es => simp [keywordHolds, requiredHolds]
  | _ => simp [keywordHolds, requiredHolds]

/--
A value is valid against the document of a schema if it does what the schema asks.
-/
theorem accepts_toValue_iff {s : Schema} : accepts s.toValue v = true ↔ s.Satisfied v := by
  rw [accepts_toValue]
  constructor
  . intro h
    constructor
    . intro t ht
      exact h "type" (typeValue t s.nullable) (by simp [arguments, ht])
    . intro vs hvs
      have hholds := h "enum" (.list vs) (by simp [arguments, hvs])
      simpa [keywordHolds, enumHolds] using hholds
    . intro hitems
      cases hvalue : itemsValue (s.items.map toValue) with
      | none =>
        unfold itemsValue at hvalue
        split at hvalue
        . next hempty => exact absurd (List.map_eq_nil_iff.1 hempty) hitems
        . contradiction
        . contradiction
      | some argument =>
        exact (holds_items hvalue).1 (h "items" argument (by simp [arguments, hvalue]))
    . intro ps hps
      exact holds_properties.1 (h "properties" _ (by simp [arguments, hps]))
    . intro ks hks
      have hexclusive : s.exclusive ≠ [] := List.ne_nil_of_mem hks
      have hholds := h "allOf" (.list (s.exclusive.map exclusion)) (by
        simp [arguments, hexclusive])
      rw [← holds_exclusion]
      simp only [keywordHolds, List.all_eq_true] at hholds
      exact hholds _ (List.mem_map_of_mem hks)
    . by_cases hrequired : s.required = []
      . simp [hrequired]
      . exact holds_required.1 (h "required" (.list s.required) (by simp [arguments, hrequired]))
  . intro h name argument hmem
    simp only [arguments, List.mem_cons, List.not_mem_nil, Prod.mk.injEq, or_false] at hmem
    rcases hmem with ⟨rfl, htype⟩ | ⟨rfl, henum⟩ | ⟨rfl, -⟩ | ⟨rfl, hitems⟩ | ⟨rfl, hproperties⟩
      | ⟨rfl, hexclusive⟩ | ⟨rfl, hrequired⟩ | ⟨rfl, -⟩
    . obtain ⟨t, ht, rfl⟩ := Option.map_eq_some_iff.1 htype.symm
      exact h.type t ht
    . obtain ⟨vs, hvs, rfl⟩ := Option.map_eq_some_iff.1 henum.symm
      have hliteral := h.enum vs hvs
      simpa [keywordHolds, enumHolds] using hliteral
    . rfl
    . rw [holds_items hitems.symm]
      apply h.items
      intro hempty
      rw [hempty] at hitems
      contradiction
    . obtain ⟨ps, hps, rfl⟩ := Option.map_eq_some_iff.1 hproperties.symm
      exact holds_properties.2 (h.properties ps hps)
    . split at hexclusive
      . contradiction
      . injection hexclusive with hexclusive
        subst hexclusive
        simp only [keywordHolds, List.all_eq_true]
        intro t ht
        obtain ⟨ks, hks, rfl⟩ := List.mem_map.1 ht
        exact holds_exclusion.2 (h.exclusive ks hks)
    . split at hrequired
      . contradiction
      . injection hrequired with hrequired
        subst hrequired
        exact holds_required.2 h.required
    . rfl

end Keywords

theorem Regular.enum_literal {s : Schema} (h : s.Regular)
    : ∀ vs, s.enum = some vs → ∀ v ∈ vs, v.hashable = true ∧ ∀ b, v ≠ .bool b := by
  cases h with
  | mk enum_literal => exact enum_literal

theorem Regular.of_frames {s s' : Schema} (h : s.Regular) (hframes : s'.Frames s)
    (henum : ∀ vs, s'.enum = some vs → ∀ v ∈ vs, v.hashable = true ∧ ∀ b, v ≠ .bool b)
    : s'.Regular := by
  cases h with
  | mk _ items keyed properties exclusive required =>
    rw [← hframes.items] at items
    rw [← hframes.properties] at keyed properties
    rw [← hframes.exclusive] at exclusive
    rw [← hframes.required] at required
    exact ⟨henum, items, keyed, properties, exclusive, required⟩

/--
A schema that accepts at least what another one does, and has the same properties.
-/
structure Widens (s' s : Schema) : Prop where
  properties : s'.properties = s.properties
  regular : s.Regular → s'.Regular
  satisfied : ∀ v, s.Satisfied v → s'.Satisfied v

theorem Widens.trans {s s' s'' : Schema} (h : s''.Widens s') (h' : s'.Widens s)
    : s''.Widens s where
  properties := h.properties.trans h'.properties
  regular := fun hs => h.regular (h'.regular hs)
  satisfied := fun v hv => h.satisfied v (h'.satisfied v hv)

theorem widens_describe (s : Schema) (description : Value)
    : (s.describe description).Widens s := by
  unfold describe
  split
  . exact ⟨rfl, id, fun _ => id⟩
  . constructor
    . rfl
    . exact fun h => h.of_frames ⟨rfl, rfl, rfl, rfl⟩ h.enum_literal
    . exact fun v h => ⟨h.type, h.enum, h.items, h.properties, h.exclusive, h.required⟩

theorem typeHolds_of_typeName? {t : SchemaType} {v : Value} (h : Draft4.typeName? v = some t.name)
    : Draft4.typeHolds (typeValue t false) v = true := by
  exact Draft4.hasType_text.2 h

theorem typeHolds_nullable {t : SchemaType} {nullable : Bool} {v : Value}
    (h : Draft4.typeHolds (typeValue t nullable) v = true)
    : Draft4.typeHolds (typeValue t true) v = true := by
  cases nullable with
  | true => exact h
  | false =>
    have htype : Draft4.hasType (.text t.name) v = true := h
    simp [typeValue, Draft4.typeHolds, htype]

theorem widens_admitNull (s : Schema) : s.admitNull.Widens s := by
  unfold admitNull
  split
  . constructor
    . rfl
    . exact fun h => h.of_frames ⟨rfl, rfl, rfl, rfl⟩ h.enum_literal
    . intro v h
      refine ⟨?_, h.enum, h.items, h.properties, h.exclusive, h.required⟩
      exact fun t ht => typeHolds_nullable (h.type t ht)
  . next values htype henum =>
    split
    . exact ⟨rfl, id, fun _ => id⟩
    . constructor
      . rfl
      . intro h
        refine h.of_frames ⟨rfl, rfl, rfl, rfl⟩ ?_
        rintro vs hvs v hv
        injection hvs with hvs
        subst hvs
        rcases List.mem_append.1 hv with hv | hv
        . exact h.enum_literal values henum v hv
        . rw [List.mem_singleton] at hv
          subst hv
          exact ⟨rfl, by simp⟩
      . intro v h
        refine ⟨h.type, ?_, h.items, h.properties, h.exclusive, h.required⟩
        rintro vs hvs
        injection hvs with hvs
        subst hvs
        obtain ⟨literal, hmem, hliteral⟩ := h.enum values henum
        exact ⟨literal, List.mem_append_left _ hmem, hliteral⟩
  . exact ⟨rfl, id, fun _ => id⟩

theorem widens_attribute {s s' : Schema} {e : Element} (h : s.attribute e = .ok s')
    : s'.Widens s := by
  unfold Schema.attribute at h
  simp only [Outcome.bind_eq_ok] at h
  obtain ⟨description, -, attributes, -, h⟩ := h
  injection h with h
  subst h
  split
  . exact (widens_admitNull _).trans (widens_describe s description)
  . exact widens_describe s description

end Schema

end ApiElements
