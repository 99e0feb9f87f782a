import ApiElements.Proofs.Validation.Fair
import ApiElements.Schema.Basic

/-!
This module contains the documents of schemas keyword by keyword: what it takes for a value to be
valid against one, and for which schemas equal documents accept the same values.
-/

namespace ApiElements

namespace Schema

def arguments (s : Schema) : List (String × Option Value) := [
  ("type", s.type.map fun t => typeValue t s.nullable),
  ("enum", s.enum.map .list),
  ("default", s.default),
  ("items", itemsValue (s.items.map toValue)),
  ("properties", s.properties.map fun ps => .object (ps.map fun p => (p.1, p.2.toValue))),
  ("allOf", if s.exclusive.isEmpty then none else some (.list (s.exclusive.map exclusion))),
  ("required", if s.required.isEmpty then none else some (.list s.required)),
  ("description", s.description)]

theorem toValues_eq (schemas : List Schema) : toValues schemas = schemas.map toValue := by
  induction schemas with
  | nil => rfl
  | cons s rest ih => rw [toValues, ih, List.map_cons]

theorem propertyValues_eq (properties : List (Value × Schema))
    : propertyValues properties = properties.map fun p => (p.1, p.2.toValue) := by
  induction properties with
  | nil => rfl
  | cons p rest ih => rw [propertyValues, ih, List.map_cons]

theorem listKeyword_eq (name : String) (items : List Value)
    : listKeyword name items
        =
      keyword name (if items.isEmpty then none else some (.list items)) := by
  unfold listKeyword keyword
  split
  . rfl
  . rfl

theorem toValue_eq (s : Schema)
    : s.toValue = .object (s.arguments.flatMap fun argument => keyword argument.1 argument.2) := by
  cases s with
  | mk type nullable enum default items properties exclusive required description =>
    have hproperties : propertiesValue properties
        = properties.map fun ps => .object (ps.map fun p => (p.1, p.2.toValue)) := by
      cases properties with
      | none => rfl
      | some ps => rw [propertiesValue, propertyValues_eq, Option.map_some]
    rw [toValue, hproperties]
    simp only [arguments, toValues_eq, listKeyword_eq, List.flatMap_cons, List.flatMap_nil,
      List.append_nil, List.append_assoc, List.isEmpty_map]

theorem mem_keywords {arguments : List (String × Option Value)} {k v : Value}
    : (k, v) ∈ arguments.flatMap (fun argument => keyword argument.1 argument.2)
        ↔
      ∃ name, k = .text name ∧ (name, some v) ∈ arguments := by
  simp only [List.mem_flatMap, keyword, List.mem_map, Option.mem_toList]
  constructor
  . rintro ⟨⟨name, argument⟩, hmem, w, hw, heq⟩
    injection heq with hk hv
    subst hk hv
    dsimp only at hw
    rw [hw] at hmem
    exact ⟨name, rfl, hmem⟩
  . rintro ⟨name, rfl, hmem⟩
    exact ⟨(name, some v), hmem, v, rfl, rfl⟩

theorem text_mem_keywords {arguments : List (String × Option Value)} {name : String} {v : Value}
    : (.text name, v) ∈ arguments.flatMap (fun argument => keyword argument.1 argument.2)
        ↔
      (name, some v) ∈ arguments := by
  rw [mem_keywords]
  constructor
  . rintro ⟨name', heq, hmem⟩
    injection heq with heq
    rw [heq]
    exact hmem
  . exact fun hmem => ⟨name, rfl, hmem⟩

section Given

variable {s : Schema} {v : Value}

def given (s : Schema) : List (String × Value) :=
  s.arguments.filterMap fun argument => argument.2.map (argument.1, ·)

theorem mem_given {name : String} : (name, v) ∈ s.given ↔ (name, some v) ∈ s.arguments := by
  unfold given
  rw [List.mem_filterMap]
  constructor
  . rintro ⟨⟨name', argument⟩, hmem, h⟩
    obtain ⟨w, hw, heq⟩ := Option.map_eq_some_iff.1 h
    injection heq with hname hv
    dsimp only at hname hw
    subst hname hv
    rw [← hw]
    exact hmem
  . intro hmem
    exact ⟨_, hmem, rfl⟩

theorem type_mem_given
    : ("type", v) ∈ s.given ↔ ∃ t, s.type = some t ∧ typeValue t s.nullable = v := by
  simp [mem_given, arguments, @eq_comm _ (some v)]

theorem enum_mem_given : ("enum", v) ∈ s.given ↔ ∃ vs, s.enum = some vs ∧ .list vs = v := by
  simp [mem_given, arguments, @eq_comm _ (some v)]

theorem itemsValue_of_mem_given (h : ("items", v) ∈ s.given)
    : itemsValue (s.items.map toValue) = some v := by
  simpa [mem_given, arguments, @eq_comm _ (some v)] using h

theorem properties_mem_given
    : ("properties", v) ∈ s.given
        ↔
      ∃ ps, s.properties = some ps ∧ .object (ps.map fun p => (p.1, p.2.toValue)) = v := by
  simp [mem_given, arguments, @eq_comm _ (some v)]

theorem exclusive_mem_given
    : ("allOf", v) ∈ s.given ↔ s.exclusive ≠ [] ∧ v = .list (s.exclusive.map exclusion) := by
  simp [mem_given, arguments]

theorem required_mem_given
    : ("required", v) ∈ s.given ↔ s.required ≠ [] ∧ v = .list s.required := by
  simp [mem_given, arguments]

theorem description_mem_given : ("description", v) ∈ s.given ↔ s.description = some v := by
  simp [mem_given, arguments, @eq_comm _ (some v)]

end Given

theorem keyed_keywords {arguments : List (String × Option Value)}
    (hnodup : (arguments.map (·.1)).Nodup)
    : Table.Keyed (arguments.flatMap fun argument => keyword argument.1 argument.2) where
  hashable := by
    rintro ⟨k, v⟩ hmem
    obtain ⟨name, rfl, -⟩ := mem_keywords.1 hmem
    rfl
  distinct := by
    induction arguments with
    | nil => exact .nil
    | cons argument rest ih =>
      rw [List.map_cons, List.nodup_cons] at hnodup
      rw [List.flatMap_cons, List.pairwise_append]
      refine ⟨?_, ih hnodup.2, ?_⟩
      . cases argument.2 with
        | none => exact .nil
        | some v => exact List.pairwise_singleton _ _
      . intro x hx y hy
        obtain ⟨v, -, rfl⟩ := List.mem_map.1 hx
        obtain ⟨name, hname, hmem⟩ := mem_keywords.1 hy
        rw [hname, Value.text_same_text, beq_eq_false_iff_ne]
        rintro rfl
        exact hnodup.1 (List.mem_map.2 ⟨_, hmem, rfl⟩)

theorem get?_keyword (name other : String) (v : Option Value)
    : Table.get? (keyword name v) (.text other) = if other = name then v else none := by
  cases v with
  | none => simp [keyword]
  | some v => simp [keyword, Table.get?_cons]

theorem under?_items (s : Schema)
    : s.toValue.under? "items" = itemsValue (s.items.map toValue) := by
  rw [toValue_eq, Value.under?_object]
  simp [arguments, Table.get?_append, get?_keyword]

theorem under?_required (s : Schema)
    : s.toValue.under? "required"
        = if s.required.isEmpty then none else some (.list s.required) := by
  rw [toValue_eq, Value.under?_object]
  simp [arguments, Table.get?_append, get?_keyword]

theorem under?_enum (s : Schema) : s.toValue.under? "enum" = s.enum.map .list := by
  rw [toValue_eq, Value.under?_object]
  simp [arguments, Table.get?_append, get?_keyword]

theorem under?_properties (s : Schema)
    : s.toValue.under? "properties"
        = s.properties.map fun ps => .object (ps.map fun p => (p.1, p.2.toValue)) := by
  rw [toValue_eq, Value.under?_object]
  simp [arguments, Table.get?_append, get?_keyword]

theorem under?_allOf {s : Schema} (h : s.exclusive ≠ [])
    : s.toValue.under? "allOf" = some (.list (s.exclusive.map exclusion)) := by
  rw [toValue_eq, Value.under?_object]
  simp [arguments, Table.get?_append, get?_keyword, h]

/--
A value is valid against the document of a schema if all keywords with an argument hold.
-/
theorem accepts_toValue {s : Schema} {v : Value}
    : Draft4.accepts s.toValue v = true
        ↔
      ∀ name argument, (name, some argument) ∈ s.arguments →
        Draft4.keywordHolds (.text name) argument v = true := by
  rw [toValue_eq, Draft4.accepts_object, List.all_eq_true]
  constructor
  . intro h name argument hmem
    exact h (.text name, argument) (mem_keywords.2 ⟨name, rfl, hmem⟩)
  . rintro h ⟨k, argument⟩ hmem
    obtain ⟨name, rfl, hargument⟩ := mem_keywords.1 hmem
    exact h name argument hargument

/--
A schema whose keys, in all its parts, can be told apart, and that does not choose among truth
values.
-/
inductive Regular : Schema → Prop where
  | mk {s : Schema}
    (enum_literal : ∀ vs, s.enum = some vs → ∀ v ∈ vs, v.hashable = true ∧ ∀ b, v ≠ .bool b)
    (items_regular : ∀ t ∈ s.items, Regular t)
    (properties_keyed : ∀ ps, s.properties = some ps → Table.Keyed ps)
    (properties_regular : ∀ ps, s.properties = some ps → ∀ p ∈ ps, Regular p.2)
    (exclusive_hashable : ∀ ks ∈ s.exclusive, ∀ k ∈ ks, k.hashable = true)
    (required_hashable : ∀ k ∈ s.required, k.hashable = true) : Regular s

section Fair

open Draft4

theorem keyed_singleton (name : String) (v : Value) : Table.Keyed [(.text name, v)] where
  hashable := by
    simp [Value.hashable]
  distinct := List.pairwise_singleton _ _

theorem keyed_map {α β : Type} {t : Table α} (h : t.Keyed) (f : α → β)
    : Table.Keyed (t.map fun entry => (entry.1, f entry.2)) where
  hashable := by
    intro entry hmem
    obtain ⟨e, he, rfl⟩ := List.mem_map.1 hmem
    exact h.hashable e he
  distinct := List.pairwise_map.2 h.distinct

theorem fair_required {ks : List Value} (h : ∀ k ∈ ks, k.hashable = true)
    : Fair (.object [(.text "required", .list ks)]) := by
  apply Fair.mk (keyed_singleton _ _)
  all_goals simp
  exact h

theorem fair_not {s : Value} (h : Fair s) : Fair (.object [(.text "not", s)]) := by
  apply Fair.mk (keyed_singleton _ _)
  all_goals simp
  . exact h
  . rintro name ss rfl - (h' | h')
    . contradiction
    . contradiction

theorem fair_anyOf {ss : List Value} (h : ∀ s ∈ ss, Fair s)
    : Fair (.object [(.text "anyOf", .list ss)]) := by
  apply Fair.mk (keyed_singleton _ _)
  all_goals simp
  exact h

theorem fair_itemsValue {ss : List Value} {t : Value} (ht : itemsValue ss = some t)
    (h : ∀ s ∈ ss, Fair s) : Fair t := by
  unfold itemsValue at ht
  split at ht
  . contradiction
  . injection ht with ht
    subst ht
    exact h _ (by simp)
  . injection ht with ht
    subst ht
    exact fair_anyOf h

theorem Regular.fair {s : Schema} (h : s.Regular) : Fair s.toValue := by
  induction h with
  | @mk s enum_literal _ properties_keyed _ exclusive_hashable required_hashable ih_items
    ih_properties =>
    rw [toValue_eq]
    apply Fair.mk
    . apply keyed_keywords
      simp [arguments]
    . intro name t hmem hname
      rw [text_mem_keywords, ← mem_given] at hmem
      rcases hname with rfl | rfl
      . apply fair_itemsValue (itemsValue_of_mem_given hmem)
        simpa using ih_items
      . simp [mem_given, arguments] at hmem
    . intro name ts hmem hname
      rw [text_mem_keywords, ← mem_given] at hmem
      rcases hname with rfl | rfl
      . simp [mem_given, arguments] at hmem
      . obtain ⟨-, ⟨⟩⟩ := exclusive_mem_given.1 hmem
        intro t ht
        obtain ⟨ks, hks, rfl⟩ := List.mem_map.1 ht
        exact fair_not (fair_required (exclusive_hashable ks hks))
    . intro ps hmem
      rw [text_mem_keywords, ← mem_given, properties_mem_given] at hmem
      obtain ⟨qs, hqs, ⟨⟩⟩ := hmem
      exact keyed_map (properties_keyed qs hqs) toValue
    . intro ps hmem p hp
      rw [text_mem_keywords, ← mem_given, properties_mem_given] at hmem
      obtain ⟨qs, hqs, ⟨⟩⟩ := hmem
      obtain ⟨q, hq, rfl⟩ := List.mem_map.1 hp
      exact ih_properties qs hqs q hq
    . intro vs hmem
      rw [text_mem_keywords, ← mem_given, enum_mem_given] at hmem
      obtain ⟨ws, hws, ⟨⟩⟩ := hmem
      exact enum_literal vs hws
    . intro ks hmem
      rw [text_mem_keywords, ← mem_given, required_mem_given] at hmem
      obtain ⟨-, ⟨⟩⟩ := hmem
      exact required_hashable

end Fair

end Schema

end ApiElements
