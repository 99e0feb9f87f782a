import ApiElements.Proofs.Compile.Visit
import ApiElements.Proofs.Validation.Regular

/-!
This module contains which schema documents are valid in draft 4, and a condition on schemas under
which their documents are.
-/

namespace ApiElements

def KeysFrom (names : List String) (ks : List Value) : Prop :=
  ∃ chosen : List String, ks = chosen.map Value.text ∧ chosen.Nodup ∧ ∀ name ∈ chosen, name ∈ names

section KeysFrom

variable {names names' : List String} {ks : List Value} {name : String}

theorem KeysFrom.nil : KeysFrom names [] := by
  exact ⟨[], rfl, by simp, by simp⟩

theorem KeysFrom.mono (h : KeysFrom names ks) (hsub : ∀ name ∈ names, name ∈ names')
    : KeysFrom names' ks := by
  obtain ⟨chosen, rfl, hnodup, hmem⟩ := h
  exact ⟨chosen, rfl, hnodup, fun name hname => hsub name (hmem name hname)⟩

theorem text_memberOf {chosen : List String}
    : (Value.text name).memberOf (chosen.map .text) = true ↔ name ∈ chosen := by
  simp [Value.memberOf, Value.text_same_text]

theorem KeysFrom.addKey (h : KeysFrom names ks) (hname : name ∈ names)
    : KeysFrom names (Schema.addKey ks (.text name)) := by
  obtain ⟨chosen, rfl, hnodup, hmem⟩ := h
  unfold Schema.addKey
  split
  . exact ⟨chosen, rfl, hnodup, hmem⟩
  . next hnew =>
    rw [text_memberOf] at hnew
    refine ⟨chosen ++ [name], by simp, ?_, ?_⟩
    . rw [List.nodup_append]
      refine ⟨hnodup, by simp, ?_⟩
      rintro x hx y hy rfl
      rw [List.mem_singleton] at hy
      exact hnew (hy ▸ hx)
    . intro name' hname'
      rcases List.mem_append.1 hname' with hname' | hname'
      . exact hmem name' hname'
      . rw [List.mem_singleton] at hname'
        rw [hname']
        exact hname

end KeysFrom

namespace Draft4

def keywordNames : List String :=
  ["type", "enum", "default", "items", "properties", "allOf", "required", "description"]

/--
A list of at least one key, all different, of the properties among some keywords.
-/
def KeyList (keywords : List (String × Value)) (v : Value) : Prop :=
  ∃ (ps : List (String × Value)) (ks : List Value),
    ("properties", .object (Table.ofFields ps)) ∈ keywords ∧ v = .list ks ∧ ks ≠ []
      ∧ KeysFrom (ps.map (·.1)) ks

/--
A document that draft 4 takes for a schema, and so all schemas within it. The values that it may
choose among are different by some notion of equality.
-/
inductive Valid (equal : Value → Value → Bool) : Value → Prop where
  | mk {keywords : List (String × Value)} (distinct : (keywords.map (·.1)).Nodup)
    (known : ∀ keyword ∈ keywords, keyword.1 ∈ keywordNames)
    (type : ∀ v, ("type", v) ∈ keywords → ∃ t : SchemaType,
      v = .text t.name ∨ v = .list [.text t.name, .text "null"])
    (enum : ∀ v, ("enum", v) ∈ keywords → ∃ vs, v = .list vs ∧ vs ≠ [] ∧
      vs.Pairwise fun x y => equal x y = false)
    (item : ∀ v, ("items", v) ∈ keywords →
      (∀ ss, v ≠ .object (Table.ofFields [("anyOf", .list ss)])) → Valid equal v)
    (choice_length : ∀ ss,
      ("items", .object (Table.ofFields [("anyOf", .list ss)])) ∈ keywords → 2 ≤ ss.length)
    (choice : ∀ ss, ("items", .object (Table.ofFields [("anyOf", .list ss)])) ∈ keywords →
      ∀ s ∈ ss, Valid equal s)
    (properties : ∀ v, ("properties", v) ∈ keywords → ∃ ps : List (String × Value),
      v = .object (Table.ofFields ps) ∧ (ps.map (·.1)).Nodup)
    (property : ∀ ps, ("properties", .object (Table.ofFields ps)) ∈ keywords →
      ∀ p ∈ ps, Valid equal p.2)
    (required : ∀ v, ("required", v) ∈ keywords → KeyList keywords v)
    (exclusive : ∀ v, ("allOf", v) ∈ keywords → ∃ ss, v = .list ss ∧ ss ≠ [] ∧ ∀ s ∈ ss, ∃ ks,
      s = .object (Table.ofFields [("not", .object (Table.ofFields [("required", ks)]))]) ∧
        KeyList keywords ks)
    (description : ∀ v, ("description", v) ∈ keywords → ∃ text : String, v = .text text)
    : Valid equal (.object (Table.ofFields keywords))

end Draft4

namespace Schema

variable {equal : Value → Value → Bool} {s s' : Schema}

inductive Proper (equal : Value → Value → Bool) : Schema → Prop where
  | mk {s : Schema}
    (enum : ∀ vs, s.enum = some vs → vs ≠ [] ∧ vs.Pairwise fun x y => equal x y = false)
    (items : ∀ t ∈ s.items, Proper equal t)
    (properties : ∀ ps, s.properties = some ps →
      ∃ fields, ps = Table.ofFields fields ∧ (fields.map (·.1)).Nodup)
    (property : ∀ fields, s.properties = some (Table.ofFields fields) →
      ∀ field ∈ fields, Proper equal field.2)
    (exclusive : ∀ ks ∈ s.exclusive, ks ≠ [] ∧ ∃ fields,
      s.properties = some (Table.ofFields fields) ∧ KeysFrom (fields.map (·.1)) ks)
    (required : s.required ≠ [] → ∃ fields,
      s.properties = some (Table.ofFields fields) ∧ KeysFrom (fields.map (·.1)) s.required)
    (description : ∀ v, s.description = some v → ∃ text : String, v = .text text)
    : Proper equal s

theorem toValue_eq_ofFields (s : Schema) : s.toValue = .object (Table.ofFields s.given) := by
  rw [toValue_eq, given]
  congr 1
  generalize s.arguments = arguments
  induction arguments with
  | nil => rfl
  | cons argument rest ih =>
    obtain ⟨name, v⟩ := argument
    rw [List.flatMap_cons, ih]
    cases v with
    | none => rfl
    | some v => rfl

theorem names_given (s : Schema) : (s.given.map (·.1)).Sublist Draft4.keywordNames := by
  have hnames : s.arguments.map (·.1) = Draft4.keywordNames := rfl
  rw [← hnames, given]
  generalize s.arguments = arguments
  induction arguments with
  | nil => exact .slnil
  | cons argument rest ih =>
    obtain ⟨name, v⟩ := argument
    cases v with
    | none => exact ih.cons _
    | some v => exact ih.cons_cons _

theorem not_choice (s : Schema) (ss : List Value)
    : s.toValue ≠ .object (Table.ofFields [("anyOf", .list ss)]) := by
  intro h
  rw [toValue_eq_ofFields, Value.object.injEq] at h
  have hgiven := Table.ofFields_injective h
  have hmem := (names_given s).subset (a := "anyOf") (by simp [hgiven])
  simp [Draft4.keywordNames] at hmem

section Given

variable {v : Value}

theorem items_mem_given (h : ("items", v) ∈ s.given)
    : (∃ t ∈ s.items, v = t.toValue)
      ∨ v = .object (Table.ofFields [("anyOf", .list (s.items.map toValue))]) ∧ 2 ≤ s.items.length := by
  have hitems := itemsValue_of_mem_given h
  revert hitems
  generalize s.items = schemas
  intro hitems
  cases schemas with
  | nil => contradiction
  | cons t rest =>
    cases rest with
    | nil =>
      injection hitems with hitems
      exact .inl ⟨t, by simp, hitems.symm⟩
    | cons =>
      injection hitems with hitems
      exact .inr ⟨hitems.symm, by simp⟩

theorem choice_of_mem_given {ss : List Value}
    (h : ("items", .object (Table.ofFields [("anyOf", .list ss)])) ∈ s.given)
    : ss = s.items.map toValue ∧ 2 ≤ s.items.length := by
  rcases items_mem_given h with ⟨t, -, ht⟩ | ⟨heq, hlength⟩
  . exact absurd ht.symm (not_choice t ss)
  . injection heq with heq
    have hsame := Table.ofFields_injective heq
    simp only [List.cons.injEq, Prod.mk.injEq, Value.list.injEq, true_and, and_true] at hsame
    exact ⟨hsame, hlength⟩

end Given

theorem object_ofFields (fields : List (String × Schema))
    : Value.object ((Table.ofFields fields).map fun p => (p.1, p.2.toValue))
        =
      .object (Table.ofFields (fields.map fun field => (field.1, field.2.toValue))) := by
  simp [Table.ofFields]

theorem properties_given {fields : List (String × Schema)}
    (h : s.properties = some (Table.ofFields fields))
    : ("properties", .object (Table.ofFields (fields.map fun field => (field.1, field.2.toValue))))
        ∈ s.given := by
  rw [properties_mem_given]
  exact ⟨_, h, object_ofFields fields⟩

theorem keyList_given {fields : List (String × Schema)} {ks : List Value}
    (h : s.properties = some (Table.ofFields fields)) (hne : ks ≠ [])
    (hks : KeysFrom (fields.map (·.1)) ks) : Draft4.KeyList s.given (.list ks) := by
  refine ⟨_, ks, properties_given h, rfl, hne, ?_⟩
  rw [List.map_map]
  exact hks

/--
The document of a proper schema is valid.
-/
theorem Proper.valid (h : s.Proper equal) : Draft4.Valid equal s.toValue := by
  induction h with
  | @mk s enum items properties property exclusive required description ih_items ih_property =>
    rw [toValue_eq_ofFields]
    have hnames := names_given s
    constructor
    case distinct => exact hnames.nodup (by decide)
    case known =>
      intro keyword hmem
      exact hnames.subset (List.mem_map_of_mem hmem)
    case type =>
      intro v hmem
      obtain ⟨t, -, rfl⟩ := type_mem_given.1 hmem
      refine ⟨t, ?_⟩
      unfold typeValue
      split
      . exact .inr rfl
      . exact .inl rfl
    case enum =>
      intro v hmem
      obtain ⟨vs, hvs, rfl⟩ := enum_mem_given.1 hmem
      exact ⟨vs, rfl, enum vs hvs⟩
    case item =>
      intro v hmem hchoice
      rcases items_mem_given hmem with ⟨t, ht, rfl⟩ | ⟨rfl, -⟩
      . exact ih_items t ht
      . exact absurd rfl (hchoice _)
    case choice_length =>
      intro ss hmem
      rw [(choice_of_mem_given hmem).1, List.length_map]
      exact (choice_of_mem_given hmem).2
    case choice =>
      intro ss hmem t ht
      rw [(choice_of_mem_given hmem).1] at ht
      obtain ⟨t', ht', rfl⟩ := List.mem_map.1 ht
      exact ih_items t' ht'
    case properties =>
      intro v hmem
      obtain ⟨ps, hps, rfl⟩ := properties_mem_given.1 hmem
      obtain ⟨fields, rfl, hnodup⟩ := properties ps hps
      refine ⟨_, object_ofFields fields, ?_⟩
      rw [List.map_map]
      exact hnodup
    case property =>
      intro ps hmem p hp
      obtain ⟨qs, hqs, heq⟩ := properties_mem_given.1 hmem
      obtain ⟨fields, rfl, -⟩ := properties qs hqs
      rw [object_ofFields, Value.object.injEq] at heq
      rw [← Table.ofFields_injective heq] at hp
      obtain ⟨field, hfield, rfl⟩ := List.mem_map.1 hp
      exact ih_property fields hqs field hfield
    case required =>
      intro v hmem
      obtain ⟨hne, rfl⟩ := required_mem_given.1 hmem
      obtain ⟨fields, hfields, hks⟩ := required hne
      exact keyList_given hfields hne hks
    case exclusive =>
      intro v hmem
      obtain ⟨hne, rfl⟩ := exclusive_mem_given.1 hmem
      refine ⟨_, rfl, by simpa using hne, ?_⟩
      intro t ht
      obtain ⟨ks, hks, rfl⟩ := List.mem_map.1 ht
      obtain ⟨hkeys, fields, hfields, hfrom⟩ := exclusive ks hks
      exact ⟨.list ks, rfl, keyList_given hfields hkeys hfrom⟩
    case description =>
      intro v hmem
      exact description v (description_mem_given.1 hmem)

end Schema

end ApiElements
