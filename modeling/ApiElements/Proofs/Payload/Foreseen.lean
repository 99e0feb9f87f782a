import ApiElements.Payload.Decorate
import ApiElements.Proofs.Codec.Reads
import ApiElements.Proofs.Compile.Visit

/-!
This module contains that the reading of data only fails as foreseen where payloads are decorated,
unless the tag, the descriptive data or the attributes of an element in it are malformed.
-/

namespace ApiElements

open Outcome (FailsAs failsAs_ok failsAs_error failsAs_mapM)
open Payload (isDecodeFault)

def Value.Optional (v : Value) : Prop :=
  v.truthy = false ∨ ∃ t, v = .object t

/--
If names are the contents of the items of an array element, these items are objects.
-/
def Value.Unwraps (names : Value) : Prop :=
  ∀ t : Table Value, names = .object t → t.get? (.text "element") = some (.text "array") →
    t.content = .null ∨ ∃ items, t.content = .list items ∧ ∀ x ∈ items, ∃ u, x = .object u

/--
What an object says of an element before its content: a tag that may be the name of a type, and
descriptive data and attributes that are objects if they are there.
-/
structure Table.Headed (t : Table Value) : Prop where
  tag : ∀ tag, t.get? (.text "element") = some tag → tag.hashable = true
  info : Value.Optional ((t.get? (.text "meta")).getD .null)
  attributes : Value.Optional ((t.get? (.text "attributes")).getD .null)
  names : ∀ (attributes : Table Value) (names : Value),
    (t.get? (.text "attributes")).getD .null = .object attributes →
    attributes.get? (.text "typeAttributes") = some names → names.Unwraps

/--
Data is read on the way when other data is read as an element.
-/
inductive Value.Parses : Value → Value → Prop where
  | self (d : Value) : Parses d d
  | item {t : Table Value} {items : List Value} {x d : Value} (content : t.content = .list items)
    (mem : x ∈ items) (parses : Parses x d) : Parses (.object t) d
  | field {t fields : Table Value} {name : String} {x d : Value}
    (content : t.content = .object fields) (found : fields.get? (.text name) = some x)
    (parses : Parses x d) : Parses (.object t) d

namespace Value

variable {kinds : Kinds} {v d : Value} {t : Table Value}

theorem foreseen_entriesOrNone (h : v.Optional) : FailsAs isDecodeFault v.entriesOrNone := by
  unfold entriesOrNone
  rcases h with h | ⟨t, rfl⟩
  . rw [h]
    exact failsAs_ok _
  . split
    . exact failsAs_ok _
    . exact failsAs_ok _

theorem foreseen_unwrapNames (h : v.Unwraps) : FailsAs isDecodeFault (unwrapNames v) := by
  unfold unwrapNames
  split
  . next t =>
    split
    . next harray =>
      rw [text_same] at harray
      have htag : Table.get? t (.text "element") = some (.text "array") := by
        cases htag : Table.get? t (.text "element") with
        | none => simp [htag] at harray
        | some tag => simpa [htag] using harray
      rcases h t rfl htag with hcontent | ⟨items, hcontent, hitems⟩
      . unfold Table.content at hcontent
        rw [hcontent]
        exact failsAs_ok _
      . unfold Table.content at hcontent
        rw [hcontent, itemsOrNone_eq_items rfl, Outcome.ok_bind]
        apply (failsAs_mapM ?_).map
        intro x hx
        obtain ⟨u, rfl⟩ := hitems x hx
        exact failsAs_ok _
    . exact failsAs_ok _
  . exact failsAs_ok _
  . exact failsAs_ok _

theorem foreseen_attributesOf (h : v.Optional)
    (hnames : ∀ (attributes : Table Value) (names : Value), v = .object attributes →
      attributes.get? (.text "typeAttributes") = some names → names.Unwraps)
    : FailsAs isDecodeFault (attributesOf v) := by
  unfold attributesOf
  apply (foreseen_entriesOrNone h).bind
  intro attributes hattributes
  split
  . exact failsAs_ok _
  . next names hfound =>
    -- There are type attributes, so that the attributes are not absent.
    have hv : v = .object attributes := by
      unfold entriesOrNone at hattributes
      rcases h with h | ⟨t, rfl⟩
      . rw [h] at hattributes
        injection hattributes with hattributes
        rw [← hattributes] at hfound
        contradiction
      . split at hattributes
        . injection hattributes with hattributes
          rw [hattributes]
        . injection hattributes with hattributes
          rw [← hattributes] at hfound
          contradiction
    apply (foreseen_unwrapNames (hnames attributes names hv hfound)).bind
    intro names _
    split
    . exact failsAs_ok _
    . exact failsAs_ok _
    . exact failsAs_ok _

theorem foreseen_shape {tag : Value} (h : tag.hashable = true)
    : FailsAs isDecodeFault (kinds.shape tag) := by
  unfold Kinds.shape
  split
  . exact failsAs_ok _
  . exact failsAs_ok _
  . split
    . exact failsAs_ok _
    . exact failsAs_ok _
    . split
      . exact failsAs_ok _
      . exact failsAs_ok _
  . rw [if_pos h]
    exact failsAs_ok _

theorem foreseen_decodeAll {items : List Value}
    (h : ∀ x ∈ items, FailsAs isDecodeFault (Value.decode kinds x))
    : FailsAs isDecodeFault (Value.decodeAll kinds items) := by
  induction items with
  | nil => exact failsAs_ok _
  | cons x xs ih =>
    rw [Value.decodeAll]
    apply (h x (by simp)).bind
    intro e _
    apply (ih fun x hmem => h x (List.mem_cons_of_mem _ hmem)).bind
    exact fun vs _ => failsAs_ok _

theorem foreseen_memberContent {key : Element} {value : Except Fault (Option Element)}
    (h : FailsAs isDecodeFault value) : FailsAs isDecodeFault (memberContent key value) := by
  unfold memberContent
  split
  . exact h.bind fun _ _ => failsAs_ok _
  . exact failsAs_error rfl

theorem foreseen_decodeMemberIn
    (hfields : ∀ (fields : Table Value) (name : String) (x : Value), t.content = .object fields →
      fields.get? (.text name) = some x → FailsAs isDecodeFault (Value.decode kinds x))
    : FailsAs isDecodeFault (Value.decodeMemberIn kinds t) := by
  rw [decodeMemberIn_eq]
  split
  . next fields hcontent =>
    apply FailsAs.bind
    . rw [decodeKeyIn_eq]
      split
      . exact failsAs_ok _
      . next x hx => exact (hfields fields "key" x hcontent hx).map _
    . intro key _
      split
      . exact failsAs_error rfl
      . apply foreseen_memberContent
        rw [decodeValueIn_eq]
        split
        . exact failsAs_ok _
        . next hnull =>
          cases hx : Table.get? fields (.text "value") with
          | none => simp [hx] at hnull
          | some x => exact (hfields fields "value" x hcontent hx).map _
  . exact failsAs_error rfl

theorem foreseen_contentOf
    (hitems : ∀ items, t.content = .list items →
      ∀ x ∈ items, FailsAs isDecodeFault (Value.decode kinds x))
    (hfields : ∀ (fields : Table Value) (name : String) (x : Value), t.content = .object fields →
      fields.get? (.text name) = some x → FailsAs isDecodeFault (Value.decode kinds x))
    (shape : Kinds.Shape) : FailsAs isDecodeFault (contentOf kinds t shape) := by
  cases shape with
  | member => exact foreseen_decodeMemberIn hfields
  | ref =>
    simp only [contentOf, decodeRef]
    split
    . split
      . exact failsAs_ok _
      . exact failsAs_error rfl
    . exact failsAs_error rfl
  | literal kind =>
    simp only [contentOf, decodeLiteral]
    split
    . exact failsAs_error rfl
    . exact failsAs_error rfl
    . exact failsAs_ok _
  | sequence kind =>
    simp only [contentOf, decodeSequenceIn_eq]
    apply FailsAs.map
    split
    . exact failsAs_ok _
    . next items hcontent => exact foreseen_decodeAll (hitems items hcontent)
    . exact failsAs_error rfl
  | reference =>
    simp only [contentOf, decodeExtensionIn_eq]
    split
    . next items hcontent => exact (foreseen_decodeAll (hitems items hcontent)).map _
    . exact failsAs_ok _

/--
Whatever is wrong with the contents of elements in data is among what is foreseen.
-/
theorem foreseen_decode (h : ∀ t : Table Value, d.Parses (.object t) → t.Headed)
    : FailsAs isDecodeFault (Value.decode kinds d) := by
  -- As when data is read, the parts that are read in turn are smaller than the object.
  induction hn : sizeOf d using Nat.strongRecOn generalizing d with
  | ind n ih =>
    subst hn
    cases d with
    | object t =>
      have hhead := h t (.self _)
      rw [decode_object]
      split
      . exact failsAs_error rfl
      . next tag htag =>
        apply (foreseen_entriesOrNone hhead.info).bind
        intro info _
        apply (foreseen_attributesOf hhead.attributes hhead.names).bind
        intro attributes _
        apply (foreseen_shape (hhead.tag tag htag)).bind
        intro shape _
        refine FailsAs.bind (foreseen_contentOf ?_ ?_ shape) fun _ _ => failsAs_ok _
        . intro items hcontent x hx
          have hsmall := sizeOf_content (by simp [hcontent] : Table.content t ≠ .null)
          have hmem := List.sizeOf_lt_of_mem hx
          rw [hcontent, Value.list.sizeOf_spec] at hsmall
          refine ih _ ?_ (fun u hu => h u (.item hcontent hx hu)) rfl
          rw [Value.object.sizeOf_spec]
          omega
        . intro fields name x hcontent hx
          have hsmall := sizeOf_content (by simp [hcontent] : Table.content t ≠ .null)
          have hmem := sizeOf_get? hx
          rw [hcontent, Value.object.sizeOf_spec] at hsmall
          refine ih _ ?_ (fun u hu => h u (.field hcontent hx hu)) rfl
          rw [Value.object.sizeOf_spec]
          omega
    | _ => exact failsAs_error rfl

end Value

end ApiElements
