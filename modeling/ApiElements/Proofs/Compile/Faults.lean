import ApiElements.Proofs.Compile.Settles
import ApiElements.Proofs.Inheritance.Merge

/-!
This module contains what the parts of the compilers that do not recurse over elements can fail
with: never that something is nested too deeply.
-/

namespace ApiElements

open Outcome

section Access

variable {v : Value}

theorem shallow_items : Shallow v.items := by
  cases v with
  | _ => first | exact shallow_ok _ | exact shallow_error (by decide)

theorem shallow_itemsOrNone : Shallow v.itemsOrNone := by
  unfold Value.itemsOrNone
  split
  . exact shallow_items
  . exact shallow_ok _

theorem shallow_first : Shallow v.first := by
  unfold Value.first
  repeat' split
  all_goals first | exact shallow_ok _ | exact shallow_error (by decide)

theorem shallow_field {name : String} : Shallow (v.field name) := by
  cases v with
  | _ => first | exact shallow_ok _ | exact shallow_error (by decide)

theorem shallow_asKey : Shallow v.asKey := by
  unfold Value.asKey
  split
  . exact shallow_ok _
  . exact shallow_error (by decide)

theorem shallow_elementContent : Shallow v.elementContent := by
  cases v with
  | _ => first | exact shallow_ok _ | exact shallow_error (by decide)

end Access

section Parts

variable {e : Element}

theorem shallow_description : Shallow e.description := by
  exact shallow_field

theorem shallow_typeAttributes : Shallow e.typeAttributes := by
  unfold Element.typeAttributes
  apply shallow_field.bind
  intro raw _
  apply shallow_itemsOrNone.bind
  intro names _
  apply (shallow_mapM fun _ _ => shallow_asKey).bind
  intro keys _
  exact shallow_ok _

theorem shallow_key : Shallow e.key := by
  unfold Element.key
  repeat' split
  all_goals first | exact shallow_ok _ | exact shallow_error (by decide)

theorem shallow_value : Shallow e.value := by
  unfold Element.value
  split
  . exact shallow_ok _
  . exact shallow_error (by decide)

theorem shallow_typeName : Shallow e.typeName := by
  unfold Element.typeName
  split
  . exact shallow_ok _
  . exact shallow_error (by decide)

end Parts

section Merge

theorem shallow_mergeEntries {base override : Value} : Shallow (mergeEntries base override) := by
  unfold mergeEntries
  split
  . exact shallow_ok _
  . exact shallow_error (by decide)

theorem shallow_mergeContent {base override : Value} : Shallow (mergeContent base override) := by
  rw [shallow_iff_failsAs]
  apply failsAs_mergeContent
  . exact fun v => shallow_iff_failsAs.1 shallow_asKey
  . exact fun e _ _ => shallow_iff_failsAs.1 shallow_key

theorem shallow_extendBy {base override : Element} : Shallow (base.extendBy override) := by
  unfold Element.extendBy
  apply shallow_mergeEntries.bind
  intro info _
  apply shallow_mergeEntries.bind
  intro attributes _
  apply shallow_mergeContent.bind
  intro content _
  exact shallow_ok _

end Merge

section Schemas

variable {e : Element}

theorem shallow_ofLiteral {type : SchemaType} : Shallow (Schema.ofLiteral type e) := by
  unfold Schema.ofLiteral
  apply shallow_field.bind
  intro default _
  exact shallow_ok _

theorem shallow_ofChoice : Shallow (Schema.ofChoice e) := by
  unfold Schema.ofChoice
  apply shallow_items.bind
  intro variants _
  exact shallow_ok _

theorem shallow_attribute {s : Schema} : Shallow (s.attribute e) := by
  unfold Schema.attribute
  apply shallow_description.bind
  intro description _
  apply shallow_typeAttributes.bind
  intro attributes _
  exact shallow_ok _

theorem shallow_addMember {g : Schema.Gathered} {key : Value} {s : Schema}
    : Shallow (g.addMember e key s) := by
  unfold Schema.Gathered.addMember
  apply shallow_description.bind
  intro description _
  apply shallow_typeAttributes.bind
  intro attributes _
  apply shallow_asKey.bind
  intro key _
  exact shallow_ok _

end Schemas

theorem shallow_resolve {r : Registry} {e : Element} : Shallow (r.resolve e).result := by
  unfold Registry.resolve
  rw [Logged.result_bind]
  apply shallow_typeName.bind
  intro name _
  rw [Logged.result_bind]
  have hget : Shallow (r.get? name) := shallow_asKey.bind fun _ _ => shallow_ok _
  apply hget.bind
  intro found _
  cases found with
  | none => exact shallow_ok _
  | some declared =>
    rw [Logged.result_map]
    exact shallow_extendBy.map _

end ApiElements
