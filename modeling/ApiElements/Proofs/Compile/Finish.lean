import ApiElements.Proofs.Compile.Visit
import ApiElements.Proofs.Inheritance.Parts
import ApiElements.Proofs.Validation.Regular
import ApiElements.Schema.Nullable

/-!
This module contains the finishing of schemas: the description of an element is put into the schema
of its kind and content, which is opened to null if the element is nullable. To do this in place, on
the document of the schema, comes to the same, and to do it again changes nothing.
-/

namespace ApiElements

namespace Value

variable {v : Value} {vs : List Value} {rest : Table Value}

theorem holds_object_text (t : Table Value) (name : String)
    : (Value.object t).holds (.text name) = .ok (t.has (.text name)) := by
  rfl

theorem admitNull_of_type
    : (Value.object ((.text "type", v) :: rest)).admitNull
        = .ok (.object ((.text "type", typeWithNull v) :: rest)) := by
  unfold admitNull
  rw [holds_object_text]
  simp [Table.has, keywordValue, withKeyword, Table.get?_cons, Table.put_cons]

theorem admitNull_of_enum (h : Table.has rest (.text "type") = false)
    : (Value.object ((.text "enum", .list vs) :: rest)).admitNull
        = .ok (.object ((.text "enum", .list (if Value.null.memberOf vs then vs else vs ++ [.null]))
            :: rest)) := by
  have htype : Table.has ((.text "enum", .list vs) :: rest) (.text "type") = false := by
    simpa [Table.has] using h
  have hchoice : choiceWithNull (.list vs)
      = .ok (.list (if Value.null.memberOf vs then vs else vs ++ [.null])) := by
    unfold choiceWithNull
    rw [holds, Outcome.ok_bind]
    split
    . rfl
    . rfl
  unfold admitNull
  rw [holds_object_text, holds_object_text, htype]
  simp [Table.has, keywordValue, withKeyword, Table.get?_cons, Table.put_cons, hchoice]

theorem admitNull_of_none (h : Table.has rest (.text "type") = false)
    (h' : Table.has rest (.text "enum") = false)
    : (Value.object rest).admitNull = .ok (.object rest) := by
  unfold admitNull
  rw [holds_object_text, holds_object_text, h, h']
  rfl

end Value

def Element.finish (e : Element) (document : Value) : Except Fault Value := do
  let description ← e.description
  let document :=
    if description.isNull then document else document.withKeyword "description" description
  let names ← e.typeAttributes
  if (Value.text "nullable").memberOf names then document.admitNull else .ok document

namespace Schema

variable {s s' : Schema} {e : Element} {type : SchemaType} {vs : List Value}

theorem has_keywords (arguments : List (String × Option Value)) (name : String)
    : Table.has (arguments.flatMap fun argument => keyword argument.1 argument.2) (.text name)
        = arguments.any fun argument => argument.1 == name && argument.2.isSome := by
  induction arguments with
  | nil => rfl
  | cons argument rest ih =>
    rw [List.flatMap_cons, List.any_cons, ← ih, Table.has, List.any_append]
    congr 1
    cases argument.2 with
    | none => simp [keyword]
    | some v => simp [keyword, eq_comm]

theorem toValue_of_type (h : s.type = some type)
    : s.toValue = .object ((.text "type", typeValue type s.nullable)
        :: s.arguments.tail.flatMap fun argument => keyword argument.1 argument.2) := by
  rw [toValue_eq, arguments, h]
  rfl

theorem toValue_of_enum (h : s.type = none) (h' : s.enum = some vs)
    : s.toValue = .object ((.text "enum", .list vs)
        :: (s.arguments.drop 2).flatMap fun argument => keyword argument.1 argument.2) := by
  rw [toValue_eq, arguments, h, h']
  rfl

theorem typeWithNull_typeValue (type : SchemaType) (nullable : Bool)
    : Value.typeWithNull (typeValue type nullable) = typeValue type true := by
  cases nullable with
  | false => rfl
  | true =>
    cases type with
    | _ => rfl

/--
Opening a schema to null is what is done in place to its document.
-/
theorem admitNull_toValue (s : Schema) : s.toValue.admitNull = .ok s.admitNull.toValue := by
  cases htype : s.type with
  | some type =>
    have hopen : s.admitNull.type = some type := by
      rw [admitNull_of_type htype, ← htype]
    rw [toValue_of_type htype, toValue_of_type hopen, Value.admitNull_of_type,
      typeWithNull_typeValue, admitNull_of_type htype]
    rfl
  | none =>
    cases henum : s.enum with
    | some vs =>
      have habsent : Table.has ((s.arguments.drop 2).flatMap fun argument =>
          keyword argument.1 argument.2) (.text "type") = false := by
        rw [has_keywords]
        rfl
      rw [toValue_of_enum htype henum, Value.admitNull_of_enum habsent,
        admitNull_of_enum htype henum]
      split
      . rw [toValue_of_enum htype henum]
      . rw [toValue_of_enum (by exact htype) rfl]
        rfl
    | none =>
      have habsent : ∀ name, name = "type" ∨ name = "enum" →
          Table.has (s.arguments.flatMap fun argument => keyword argument.1 argument.2) (.text name)
            = false := by
        intro name hname
        rw [has_keywords, arguments, htype, henum]
        rcases hname with rfl | rfl
        . rfl
        . rfl
      rw [admitNull_of_none htype henum, toValue_eq]
      exact Value.admitNull_of_none (habsent _ (.inl rfl)) (habsent _ (.inr rfl))

theorem describe_toValue (s : Schema) (d : Value)
    : (s.describe d).toValue
        = if d.isNull then s.toValue else s.toValue.withKeyword "description" d := by
  unfold describe
  split
  . rfl
  . have hlast : s.arguments = s.arguments.dropLast ++ [("description", s.description)] := rfl
    have hdescribed : ({ s with description := some d } : Schema).arguments
        = s.arguments.dropLast ++ [("description", some d)] := rfl
    have hothers : ∀ entry ∈ s.arguments.dropLast.flatMap fun argument =>
        keyword argument.1 argument.2, ¬ (Value.text "description").same entry.1 := by
      rintro ⟨k, v⟩ hmem
      obtain ⟨name, rfl, hname⟩ := mem_keywords.1 hmem
      rw [Value.text_same_text, beq_iff_eq]
      rintro rfl
      simp [arguments] at hname
    rw [toValue_eq s, hlast, List.flatMap_append, Value.withKeyword,
      Table.put_append_of_not_same hothers, toValue_eq, hdescribed, List.flatMap_append]
    cases s.description with
    | none => rfl
    | some old => rfl

theorem admitNull_admitNull (s : Schema) : s.admitNull.admitNull = s.admitNull := by
  cases htype : s.type with
  | some type =>
    rw [admitNull_of_type htype]
    exact admitNull_of_type (by exact htype)
  | none =>
    cases henum : s.enum with
    | some vs =>
      rw [admitNull_of_enum htype henum]
      split
      . next hmember => rw [admitNull_of_enum htype henum, if_pos hmember]
      . have hmember : Value.null.memberOf (vs ++ [.null]) = true := by
          simp [Value.memberOf, Value.same]
        rw [admitNull_of_enum (by exact htype) rfl, if_pos hmember]
    | none => rw [admitNull_of_none htype henum, admitNull_of_none htype henum]

theorem description_admitNull (s : Schema) : s.admitNull.description = s.description := by
  unfold admitNull
  split
  . rfl
  . split
    . rfl
    . rfl
  . rfl

theorem describe_of_description {d : Value} (h : d.isNull = true ∨ s.description = some d)
    : s.describe d = s := by
  unfold describe
  split
  . rfl
  . next hnull =>
    have hdescription := h.resolve_left hnull
    cases s
    exact congrArg _ hdescription.symm

/--
A schema that has the description of an element, if there is one, and is open to null if the element
is nullable.
-/
def Finished (s : Schema) (e : Element) : Prop :=
  ∃ d names, e.description = .ok d ∧ e.typeAttributes = .ok names
    ∧ (d.isNull = true ∨ s.description = some d)
    ∧ ((Value.text "nullable").memberOf names = true → s.admitNull = s)

theorem finished_of_attribute (h : s.attribute e = .ok s') : s'.Finished e := by
  obtain ⟨d, names, hd, hnames, rfl⟩ := attribute_eq_ok.1 h
  refine ⟨d, names, hd, hnames, ?_, ?_⟩
  . by_cases hnull : d.isNull = true
    . exact .inl hnull
    . have hdescribed : (s.describe d).description = some d := by
        rw [describe, if_neg hnull]
      apply Or.inr
      split
      . rw [description_admitNull, hdescribed]
      . exact hdescribed
  . intro hnullable
    rw [if_pos hnullable, admitNull_admitNull]

theorem attribute_eq_self : s.attribute e = .ok s ↔ s.Finished e := by
  constructor
  . exact finished_of_attribute
  . rintro ⟨d, names, hd, hnames, hdescribed, hopen⟩
    rw [attribute_eq_ok]
    refine ⟨d, names, hd, hnames, ?_⟩
    rw [describe_of_description hdescribed]
    split
    . next hnullable => exact (hopen hnullable).symm
    . rfl

theorem attribute_attribute (h : s.attribute e = .ok s') : s'.attribute e = .ok s' := by
  rw [attribute_eq_self]
  exact finished_of_attribute h

theorem Finished.of_saysNoMore {e' : Element} (h : s.Finished e) (hless : e'.SaysNoMore e)
    : s.Finished e' := by
  obtain ⟨d, names, hd, hnames, hdescribed, hopen⟩ := h
  have hdescription' : ∃ d', e'.description = .ok d'
      ∧ (d'.isNull = true ∨ s.description = some d') := by
    rcases hless.description with hnone | hsame
    . exact ⟨.null, hnone, .inl rfl⟩
    . exact ⟨d, hsame.trans hd, hdescribed⟩
  have hnames' : ∃ names', e'.typeAttributes = .ok names'
      ∧ ((Value.text "nullable").memberOf names' = true → s.admitNull = s) := by
    rcases hless.typeAttributes with hnil | hsame
    . refine ⟨[], hnil, ?_⟩
      intro hnullable
      contradiction
    . exact ⟨names, hsame.trans hnames, hopen⟩
  obtain ⟨d', hd', hdescribed'⟩ := hdescription'
  obtain ⟨names', hnames', hopen'⟩ := hnames'
  exact ⟨d', names', hd', hnames', hdescribed', hopen'⟩

theorem attribute_of_saysNoMore {e' : Element} (h : s.attribute e = .ok s) (hless : e'.SaysNoMore e)
    : s.attribute e' = .ok s := by
  rw [attribute_eq_self] at h ⊢
  exact h.of_saysNoMore hless

/--
A document is finished in place as its schema is.
-/
theorem finish_toValue (e : Element) (s : Schema)
    : e.finish s.toValue = toValue <$> s.attribute e := by
  unfold Element.finish Schema.attribute
  cases e.description with
  | error fault => rfl
  | ok d =>
    rw [Outcome.ok_bind, Outcome.ok_bind, ← describe_toValue]
    cases e.typeAttributes with
    | error fault => rfl
    | ok names =>
      rw [Outcome.ok_bind, Outcome.ok_bind, Outcome.map_ok]
      split
      . rw [admitNull_toValue]
      . rfl

end Schema

end ApiElements
