import ApiElements.Payload.Render
import ApiElements.Proofs.Compile.Entries

/-!
This module contains operations whose failures, if there are any, are all foreseen where payloads
are rendered, and that the parts of elements are read by such operations.
-/

namespace ApiElements

open Payload (isRenderFault)

/--
A failure, if there is one, only means that an element cannot be rendered.
-/
abbrev Outcome.Caught {α : Type} (x : Except Fault α) : Prop :=
  Outcome.FailsAs isRenderFault x

open Outcome

section Access

variable {v : Value}

theorem caught_items : Caught v.items := by
  cases v with
  | _ => first | exact failsAs_ok _ | exact failsAs_error (by decide)

theorem caught_itemsOrNone : Caught v.itemsOrNone := by
  unfold Value.itemsOrNone
  split
  . exact caught_items
  . exact failsAs_ok _

theorem caught_asKey : Caught v.asKey := by
  unfold Value.asKey
  split
  . exact failsAs_ok _
  . exact failsAs_error (by decide)

/--
Something that counts as present has a first item or cannot have any, unless it is an object, where
no entry needs to have zero for its key.
-/
theorem caught_first (htruthy : v.truthy = true)
    (hobject : ∀ t, v = .object t → Table.has t (.int 0) = true) : Caught v.first := by
  cases v with
  | list xs =>
    cases xs with
    | nil => contradiction
    | cons x xs => exact failsAs_ok _
  | tuple xs =>
    cases xs with
    | nil => contradiction
    | cons x xs => exact failsAs_ok _
  | bytes data =>
    cases data with
    | nil => contradiction
    | cons b data => exact failsAs_ok _
  | text s =>
    unfold Value.first
    dsimp only
    split
    . exact failsAs_ok _
    . next hnil =>
      rw [Value.truthy, String.toList_eq_nil_iff.1 hnil] at htruthy
      contradiction
  | object t =>
    have hfound := hobject t rfl
    rw [has_eq_isSome_get?, Option.isSome_iff_exists] at hfound
    obtain ⟨w, hw⟩ := hfound
    unfold Value.first
    dsimp only
    rw [hw]
    exact failsAs_ok _
  | _ => exact failsAs_error (by decide)

end Access

structure Element.Proper (e : Element) : Prop where
  info : ∃ t, e.info = .object t
  attributes : ∃ t, e.attributes = .object t

namespace Element.Proper

variable {e : Element} (h : e.Proper)

include h

theorem caught_field {name : String} : Caught (e.attributes.field name) := by
  obtain ⟨t, ht⟩ := h.attributes
  rw [ht]
  exact failsAs_ok _

theorem caught_description : Caught e.description := by
  obtain ⟨t, ht⟩ := h.info
  unfold Element.description
  rw [ht]
  exact failsAs_ok _

theorem caught_typeAttributes : Caught e.typeAttributes := by
  unfold Element.typeAttributes
  apply h.caught_field.bind
  intro raw _
  apply caught_itemsOrNone.bind
  intro names _
  apply (failsAs_mapM fun _ _ => caught_asKey).bind
  intro keys _
  exact failsAs_ok _

theorem caught_ofLiteral {type : SchemaType} : Caught (Schema.ofLiteral type e) := by
  unfold Schema.ofLiteral
  apply h.caught_field.bind
  intro default _
  exact failsAs_ok _

theorem caught_attribute {s : Schema} : Caught (s.attribute e) := by
  unfold Schema.attribute
  apply h.caught_description.bind
  intro description _
  apply h.caught_typeAttributes.bind
  intro names _
  exact failsAs_ok _

theorem caught_addMember {g : Schema.Gathered} {key : Value} {s : Schema}
    : Caught (g.addMember e key s) := by
  unfold Schema.Gathered.addMember
  apply h.caught_description.bind
  intro description _
  apply h.caught_typeAttributes.bind
  intro names _
  apply caught_asKey.bind
  intro key _
  exact failsAs_ok _

end Element.Proper

namespace Registry

variable {α : Type}

theorem caught_additions {added : Value → Logged α} {steps : List Step}
    (hentry : ∀ v, .entry v ∈ steps → Caught (added v).result)
    (hfault : ∀ fault, .fault fault ∈ steps → isRenderFault fault = true)
    : Caught (additions added steps).result := by
  induction steps with
  | nil => exact failsAs_ok _
  | cons step rest ih =>
    have hrest := ih (fun v hmem => hentry v (List.mem_cons_of_mem _ hmem))
      (fun fault hmem => hfault fault (List.mem_cons_of_mem _ hmem))
    cases step with
    | entry v =>
      rw [additions, Logged.result_bind]
      apply (hentry v (by simp)).bind
      intro a _
      rw [Logged.result_map]
      exact hrest.map _
    | unresolved href =>
      rw [additions_unresolved]
      exact hrest
    | fault fault => exact failsAs_error (hfault fault (by simp))

end Registry

end ApiElements
