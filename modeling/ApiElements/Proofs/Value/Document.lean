import ApiElements.Proofs.Codec.Data

/-!
This module contains the values that JSON texts hold, and when two objects among them are equal:
objects do not depend on the order of their entries, so that it is enough to look every text up.
-/

namespace ApiElements

/--
A value that a JSON text holds. The keys of an object are different texts.
-/
inductive Value.IsJson : Value → Prop where
  | null : IsJson .null
  | bool (b : Bool) : IsJson (.bool b)
  | int (n : Int) : IsJson (.int n)
  | double (d : Double) : IsJson (.double d)
  | text (s : String) : IsJson (.text s)
  | list {items : List Value} (items_json : ∀ v ∈ items, IsJson v) : IsJson (.list items)
  | object {fields : List (String × Value)} (nodup : (fields.map (·.1)).Nodup)
    (values_json : ∀ field ∈ fields, IsJson field.2) : IsJson (.object (Table.ofFields fields))

def Table.IsJson (t : Table Value) : Prop :=
  ∃ fields, t = ofFields fields ∧ (fields.map (·.1)).Nodup ∧ ∀ field ∈ fields, field.2.IsJson

namespace Value

variable {v : Value} {t : Table Value}

theorem isJson_list {items : List Value} : (Value.list items).IsJson ↔ ∀ v ∈ items, v.IsJson := by
  constructor
  . intro h
    cases h with
    | list h => exact h
  . exact IsJson.list

theorem isJson_object : (Value.object t).IsJson ↔ t.IsJson := by
  constructor
  . intro h
    cases h with
    | object nodup h => exact ⟨_, rfl, nodup, h⟩
  . rintro ⟨fields, rfl, nodup, h⟩
    exact .object nodup h

theorem IsJson.data (h : v.IsJson) : v.Data := by
  induction h with
  | null => exact .null
  | bool b => exact .bool b
  | int n => exact .int n
  | double d => exact .double d
  | text s => exact .text s
  | list _ ih => exact .list ih
  | object _ _ ih =>
    rw [data_object]
    intro entry hmem
    obtain ⟨field, hfield, rfl⟩ := List.mem_map.1 hmem
    exact ⟨.text _, ih field hfield⟩

end Value

namespace Table

variable {t u : Table Value}

theorem IsJson.data (h : t.IsJson) : t.Data := by
  exact Value.data_object.1 (Value.isJson_object.2 h).data

theorem IsJson.get? (h : t.IsJson) {key v : Value} (hv : t.get? key = some v) : v.IsJson := by
  obtain ⟨fields, rfl, -, hfields⟩ := h
  obtain ⟨k, hmem, -⟩ := mem_of_get? hv
  obtain ⟨field, hfield, heq⟩ := List.mem_map.1 hmem
  injection heq with _ heq
  exact heq ▸ hfields field hfield

theorem IsJson.getD (h : t.IsJson) (key : Value) : ((t.get? key).getD .null).IsJson := by
  cases hv : t.get? key with
  | none => exact .null
  | some v => exact h.get? hv

theorem isSome_get?_ofFields {α : Type} (fields : List (String × α)) (s : String)
    : ((ofFields fields).get? (.text s)).isSome = true ↔ s ∈ fields.map (·.1) := by
  induction fields with
  | nil => simp [ofFields]
  | cons field rest ih =>
    rw [ofFields, List.map_cons, ← ofFields, get?_cons, Value.text_same_text, List.map_cons,
      List.mem_cons]
    split
    . next h => simp [beq_iff_eq.1 h]
    . next h =>
      rw [ih]
      simp only [beq_iff_eq] at h
      simp [h]

theorem get?_ofFields_of_mem {α : Type} {fields : List (String × α)}
    (hnodup : (fields.map (·.1)).Nodup) {field : String × α} (h : field ∈ fields)
    : (ofFields fields).get? (.text field.1) = some field.2 := by
  induction fields with
  | nil => contradiction
  | cons first rest ih =>
    rw [List.map_cons, List.nodup_cons] at hnodup
    rw [ofFields, List.map_cons, ← ofFields, get?_cons, Value.text_same_text]
    rcases List.mem_cons.1 h with rfl | h
    . simp
    . rw [if_neg, ih hnodup.2 h]
      simp only [beq_iff_eq]
      rintro heq
      exact hnodup.1 (heq ▸ List.mem_map_of_mem h)

theorem entriesWithin_of_get? (h : ∀ entry ∈ t, ∃ w, u.get? entry.1 = some w
    ∧ entry.2.same w = true) : Value.entriesWithin t u = true := by
  induction t with
  | nil => rfl
  | cons entry rest ih =>
    obtain ⟨w, hw, hsame⟩ := h entry (by simp)
    obtain ⟨found, hfound, rfl⟩ := Option.map_eq_some_iff.1 hw
    rw [Value.entriesWithin, hfound, Bool.and_eq_true]
    exact ⟨hsame, ih fun e hmem => h e (List.mem_cons_of_mem _ hmem)⟩

/--
Objects with texts for keys are equal if they have equal things, or none, under every text.
-/
theorem same_object_of_get? {fields fields' : List (String × Value)}
    (hnodup : (fields.map (·.1)).Nodup) (hnodup' : (fields'.map (·.1)).Nodup)
    (h : ∀ s, Option.Rel (fun x y => x.same y = true) ((ofFields fields).get? (.text s))
      ((ofFields fields').get? (.text s)))
    : (Value.object (ofFields fields)).same (.object (ofFields fields')) = true := by
  have hnames : ∀ s, s ∈ fields.map (·.1) ↔ s ∈ fields'.map (·.1) := by
    intro s
    rw [← isSome_get?_ofFields, ← isSome_get?_ofFields]
    have hrel := h s
    generalize (ofFields fields).get? (.text s) = found at hrel
    generalize (ofFields fields').get? (.text s) = found' at hrel
    cases hrel with
    | _ => simp
  have hlength := ((List.perm_ext_iff_of_nodup hnodup hnodup').2 hnames).length_eq
  rw [Value.same, Bool.and_eq_true, beq_iff_eq]
  constructor
  . simpa [ofFields] using hlength
  . apply entriesWithin_of_get?
    intro entry hmem
    obtain ⟨field, hfield, rfl⟩ := List.mem_map.1 hmem
    have hrel := h field.1
    rw [get?_ofFields_of_mem hnodup hfield] at hrel
    dsimp only
    generalize (ofFields fields').get? (.text field.1) = found at hrel ⊢
    cases hrel with
    | some hsame => exact ⟨_, rfl, hsame⟩

end Table

namespace Value

variable {v : Value}

theorem sameItems_self {items : List Value} (h : ∀ v ∈ items, v.same v = true)
    : Value.sameItems items items = true := by
  induction items with
  | nil => rfl
  | cons x xs ih =>
    rw [Value.sameItems, Bool.and_eq_true]
    exact ⟨h x (by simp), ih fun v hmem => h v (List.mem_cons_of_mem _ hmem)⟩

theorem IsJson.same_self (h : v.IsJson) : v.same v = true := by
  induction h with
  | list _ ih => exact sameItems_self ih
  | @object fields nodup _ ih =>
    apply Table.same_object_of_get? nodup nodup
    intro s
    cases hv : (Table.ofFields fields).get? (.text s) with
    | none => exact .none
    | some v =>
      obtain ⟨k, hmem, -⟩ := Table.mem_of_get? hv
      obtain ⟨field, hfield, heq⟩ := List.mem_map.1 hmem
      injection heq with _ heq
      exact .some (heq ▸ ih field hfield)
  | _ => simp [Value.same, Value.number?]

end Value

end ApiElements
