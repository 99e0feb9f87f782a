import ApiElements.Proofs.Alike.Values
import ApiElements.Proofs.Matches
import ApiElements.Proofs.Validation.Nullable

/-!
This module contains trees whose type attributes have been recast: wherever they are a collection of
texts, this may have become a tuple. What is read off such a tree is the same, apart from the
elements in it.
-/

namespace ApiElements

inductive Value.Collects (names : List String) : Value → Prop where
  | list : Collects names (.list (names.map .text))
  | tuple : Collects names (.tuple (names.map .text))
  | set : Collects names (.set (names.map .text))

/--
A collection of texts has become a tuple of the same texts, perhaps in another order.
-/
def Value.NamesRecast (v v' : Value) : Prop :=
  ∃ names names' : List String, v.Collects names ∧ v' = .tuple (names'.map .text) ∧ names.Perm names'

inductive Value.AttributesRecast : Value → Value → Prop where
  | refl (v : Value) : AttributesRecast v v
  | object {t u : Table Value} (alike : t.Alike (Table.SameBut ["typeAttributes"] NamesRecast) u)
    : AttributesRecast (.object t) (.object u)

/--
Values that differ at most in the collections of the type attributes of the elements in them.
-/
inductive Value.Recast : Value → Value → Prop where
  | refl (v : Value) : Recast v v
  | tuple {xs ys : List Value} (items : List.Forall₂ Recast xs ys) : Recast (.tuple xs) (.tuple ys)
  | member {kind : Kind} {info attributes attributes' content value value' : Value}
    (key_recast : attributes.AttributesRecast attributes') (value_recast : Recast value value')
    : Recast (.member (.element (.mk kind info attributes content)) value)
        (.member (.element (.mk kind info attributes' content)) value')
  | element {kind : Kind} {info attributes attributes' content content' : Value}
    (attributes_recast : attributes.AttributesRecast attributes')
    (content_recast : Recast content content')
    : Recast (.element (.mk kind info attributes content))
        (.element (.mk kind info attributes' content'))

structure Element.Recast (e e' : Element) : Prop where
  kind_eq : e.kind = e'.kind
  info_eq : e.info = e'.info
  attributes : e.attributes.AttributesRecast e'.attributes
  content : e.content.Recast e'.content

namespace Value

variable {v v' : Value} {names : List String}

section Names

theorem Collects.items (h : v.Collects names) : v.items = .ok (names.map .text) := by
  cases h with
  | _ => rfl

theorem text_memberOf_iff (s : String) (items : List Value)
    : (Value.text s).memberOf items = true ↔ .text s ∈ items := by
  unfold memberOf
  rw [List.any_eq_true]
  constructor
  . rintro ⟨x, hx, hsame⟩
    rw [← text_same.1 hsame]
    exact hx
  . exact fun h => ⟨_, h, by simp⟩

theorem mem_distinct_texts {x : Value}
    : x ∈ distinct (names.map .text) ↔ x ∈ names.map .text := by
  refine ⟨mem_of_mem_distinct, fun h => ?_⟩
  have hfold : ∀ kept : List Value, x ∈ kept ∨ x ∈ names.map .text →
      x ∈ (names.map .text).foldl
        (fun kept x => if x.memberOf kept then kept else kept ++ [x]) kept := by
    clear h
    induction names with
    | nil => simp
    | cons s rest ih =>
      intro kept h
      rw [List.map_cons, List.foldl_cons]
      apply ih
      split
      . next hagain =>
        rw [text_memberOf_iff] at hagain
        rcases h with hkept | hx
        . exact .inl hkept
        . rcases List.mem_cons.1 hx with rfl | hx
          . exact .inl hagain
          . exact .inr hx
      . rw [List.map_cons, List.mem_cons] at h
        rw [List.mem_append, List.mem_singleton]
        tauto
  exact hfold [] (.inr h)

theorem AttributesRecast.field_names (h : v.AttributesRecast v')
    : v.field "typeAttributes" = v'.field "typeAttributes"
        ∨ ∃ w w', v.field "typeAttributes" = .ok w ∧ v'.field "typeAttributes" = .ok w'
            ∧ w.NamesRecast w' := by
  cases h with
  | refl => exact .inl rfl
  | object alike =>
    rw [field, field]
    rcases alike.get?_text "typeAttributes" with ⟨ht, hu⟩ | ⟨w, w', ht, hu, rfl | ⟨-, hnames⟩⟩
    . rw [ht, hu]
      exact .inl rfl
    . rw [ht, hu]
      exact .inl rfl
    . rw [ht, hu]
      exact .inr ⟨w, w', rfl, rfl, hnames⟩

theorem AttributesRecast.field_eq (h : v.AttributesRecast v') {name : String}
    (hname : name ≠ "typeAttributes") : v.field name = v'.field name := by
  cases h with
  | refl => rfl
  | object alike => rw [field, field, alike.get?_eq (by simpa using hname)]

end Names

section Access

theorem recast_items (xs : List Value) : List.Forall₂ Recast xs xs := by
  rw [List.forall₂_same]
  exact fun x _ => .refl x

theorem Recast.isNull_eq (h : v.Recast v') : v.isNull = v'.isNull := by
  cases h with
  | _ => rfl

theorem Recast.truthy_eq (h : v.Recast v') : v.truthy = v'.truthy := by
  cases h with
  | tuple items =>
    cases items with
    | nil => rfl
    | cons => rfl
  | _ => rfl

theorem Recast.null_same_eq (h : v.Recast v') : Value.null.same v = Value.null.same v' := by
  cases h with
  | _ => rfl

theorem Recast.items (h : v.Recast v')
    : Outcome.Matches (List.Forall₂ Recast) v.items v'.items := by
  cases h with
  | refl => exact Outcome.matches_self recast_items _
  | tuple items => exact .ok items
  | _ => exact .error _

theorem Recast.first (h : v.Recast v') : Outcome.Matches Recast v.first v'.first := by
  cases h with
  | refl => exact Outcome.matches_self .refl _
  | tuple items =>
    cases items with
    | nil => exact .error _
    | cons related _ => exact .ok related
  | _ => exact .error _

theorem Recast.entriesOf (h : v.Recast v')
    : List.Forall₂ Recast (Registry.entriesOf v) (Registry.entriesOf v') := by
  cases h with
  | refl => exact recast_items _
  | tuple items => exact items
  | _ => exact .nil

theorem Recast.element_or_other (h : v.Recast v')
    : (∃ e e', v = .element e ∧ v' = .element e' ∧ e.Recast e')
        ∨ (∀ e, v ≠ .element e) ∧ ∀ e, v' ≠ .element e := by
  cases h with
  | refl =>
    cases v with
    | element e => exact .inl ⟨e, e, rfl, rfl, rfl, rfl, .refl _, .refl _⟩
    | _ => exact .inr (by simp)
  | element hattributes hcontent =>
    exact .inl ⟨_, _, rfl, rfl, rfl, rfl, hattributes, hcontent⟩
  | _ => exact .inr (by simp)

theorem Recast.contentOrNull (h : v.Recast v') : v.contentOrNull.Recast v'.contentOrNull := by
  cases h with
  | element _ hcontent => exact hcontent
  | _ => exact .refl _

theorem Recast.elementContent (h : v.Recast v')
    : Outcome.Matches Recast v.elementContent v'.elementContent := by
  cases h with
  | refl => exact Outcome.matches_self .refl _
  | element _ hcontent => exact .ok hcontent
  | _ => exact .error _

theorem Recast.eq_of_bare (h : v.Recast v') (hv : v.Bare) : v = v' := by
  induction hn : sizeOf v using Nat.strongRecOn generalizing v v' with
  | ind n ih =>
    cases h with
    | refl => rfl
    | @tuple xs ys items =>
      congr 1
      apply eq_of_forall₂ items
      intro x hx y hxy
      have := List.sizeOf_lt_of_mem hx
      rw [Value.tuple.sizeOf_spec] at hn
      exact ih (sizeOf x) (by omega) hxy (fun e he => hv e (.tuple hx he)) rfl
    | member => exact absurd (.memberKey (.self _)) (hv _)
    | element => exact absurd (.self _) (hv _)

end Access

end Value

namespace Element

variable {e e' : Element}

theorem Recast.toValue (h : e.Recast e') : Value.Recast (.element e) (.element e') := by
  obtain ⟨kind, info, attributes, content⟩ := e
  obtain ⟨kind', info', attributes', content'⟩ := e'
  obtain ⟨hkind, hinfo, hattributes, hcontent⟩ := h
  rw [Element.kind, Element.kind] at hkind
  rw [Element.info, Element.info] at hinfo
  rw [hkind, hinfo]
  exact .element hattributes hcontent

theorem Recast.description_eq (h : e.Recast e') : e.description = e'.description := by
  unfold Element.description
  rw [h.info_eq]

theorem typeAttributes_of_collects {v : Value} {names : List String}
    (hv : e.attributes.field "typeAttributes" = .ok v) (h : v.Collects names)
    : e.typeAttributes = .ok (Value.distinct (names.map .text)) := by
  rw [typeAttributes_eq_ok]
  exact ⟨v, _, hv, Value.itemsOrNone_eq_items h.items, by simp [Value.hashable], rfl⟩

theorem Recast.typeAttributes (h : e.Recast e')
    : Outcome.Matches (fun names names' : List Value => ∀ x, x ∈ names ↔ x ∈ names')
        e.typeAttributes e'.typeAttributes := by
  rcases h.attributes.field_names with heq | ⟨v, v', hv, hv', names, names', hcollects, rfl, hperm⟩
  . unfold Element.typeAttributes
    rw [heq]
    exact Outcome.matches_self (fun _ _ => Iff.rfl) _
  . rw [typeAttributes_of_collects hv hcollects, typeAttributes_of_collects hv' .tuple]
    apply Outcome.Matches.ok
    intro x
    rw [Value.mem_distinct_texts, Value.mem_distinct_texts]
    exact (hperm.map Value.text).mem_iff

theorem Recast.value (h : e.Recast e') : Outcome.Matches Value.Recast e.value e'.value := by
  have hcontent := h.content
  unfold Element.value
  generalize e.content = c, e'.content = c' at hcontent
  cases hcontent with
  | refl => exact Outcome.matches_self .refl _
  | member _ hvalue => exact .ok hvalue
  | _ => exact .error _

theorem Recast.key_eq (h : e.Recast e') : e.key = e'.key := by
  -- A key may have its attributes recast, but never its content.
  have hcontent := h.content
  unfold Element.key
  generalize e.content = c, e'.content = c' at hcontent
  cases hcontent with
  | _ => rfl

end Element

end ApiElements
