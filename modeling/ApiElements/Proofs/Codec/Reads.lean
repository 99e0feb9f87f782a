import ApiElements.Proofs.Codec.Data

/-!
This module contains what reading an element takes, as a relation between data and elements: one
rule for every shape of content. The relation says the same as the reading function does.
-/

namespace ApiElements

open Kinds (Shape)

def Kinds.Shape.kindOf (tag : Value) : Shape → Kind
  | .member => .member
  | .ref => .ref
  | .literal kind => kind
  | .sequence kind => kind
  | .reference => .named tag

def Kinds.Shape.HasItems : Shape → Prop
  | .sequence _ => True
  | .reference => True
  | _ => False

def Kinds.Shape.Takes (raw : Value) : Shape → Prop
  | .literal _ => (∀ items, raw ≠ .list items) ∧ ∀ entries, raw ≠ .object entries
  | .reference => ∀ items, raw ≠ .list items
  | _ => False

namespace Table

def content (entries : Table Value) : Value :=
  (entries.get? (.text "content")).getD .null

/--
The parts that all objects with a tag have, whatever their content is.
-/
structure Heads (kinds : Kinds) (entries : Table Value) (tag : Value) (shape : Shape)
    (info attributes : Table Value) : Prop where
  tag_eq : entries.get? (.text "element") = some tag
  shape_eq : kinds.shape tag = .ok shape
  info_eq : ((entries.get? (.text "meta")).getD .null).entriesOrNone = .ok info
  attributes_eq : attributesOf ((entries.get? (.text "attributes")).getD .null) = .ok attributes

end Table

/--
An object stands for an element.
-/
inductive Value.Reads (kinds : Kinds) : Value → Element → Prop where
  | member {entries fields info attributes : Table Value} {tag key : Value} {keyElement : Element}
    (heads : entries.Heads kinds tag .member info attributes)
    (content_eq : entries.content = .object fields)
    (key_eq : fields.get? (.text "key") = some key)
    (key_reads : Reads kinds key keyElement) (key_kind : keyElement.kind = .string)
    (value_eq : (fields.get? (.text "value")).getD .null = .null)
    : Reads kinds (.object entries)
      (.mk .member (.object info) (.object attributes) (.member (.element keyElement) .null))
  | memberWithValue {entries fields info attributes : Table Value} {tag key value : Value}
    {keyElement valueElement : Element}
    (heads : entries.Heads kinds tag .member info attributes)
    (content_eq : entries.content = .object fields)
    (key_eq : fields.get? (.text "key") = some key)
    (key_reads : Reads kinds key keyElement) (key_kind : keyElement.kind = .string)
    (value_eq : fields.get? (.text "value") = some value)
    (value_reads : Reads kinds value valueElement)
    : Reads kinds (.object entries)
      (.mk .member (.object info) (.object attributes)
        (.member (.element keyElement) (.element valueElement)))
  | ref {entries fields info attributes : Table Value} {tag href : Value}
    (heads : entries.Heads kinds tag .ref info attributes)
    (content_eq : entries.content = .object fields)
    (href_eq : fields.get? (.text "href") = some href)
    : Reads kinds (.object entries) (.mk .ref (.object info) (.object attributes) (.ref href))
  | raw {entries info attributes : Table Value} {tag : Value} {shape : Shape}
    (heads : entries.Heads kinds tag shape info attributes) (takes : shape.Takes entries.content)
    : Reads kinds (.object entries)
      (.mk (shape.kindOf tag) (.object info) (.object attributes) entries.content)
  | empty {entries info attributes : Table Value} {tag : Value} {kind : Kind}
    (heads : entries.Heads kinds tag (.sequence kind) info attributes)
    (content_eq : entries.content = .null)
    : Reads kinds (.object entries) (.mk kind (.object info) (.object attributes) (.tuple []))
  | items {entries info attributes : Table Value} {tag : Value} {shape : Shape}
    {items : List Value} {elements : List Element}
    (heads : entries.Heads kinds tag shape info attributes) (has_items : shape.HasItems)
    (content_eq : entries.content = .list items) (length_eq : items.length = elements.length)
    (items_read : ∀ pair ∈ items.zip elements, Reads kinds pair.1 pair.2)
    : Reads kinds (.object entries)
      (.mk (shape.kindOf tag) (.object info) (.object attributes)
        (.tuple (elements.map .element)))

namespace Value

variable {kinds : Kinds}

theorem decodeAll_eq_ok {items vs : List Value}
    : Value.decodeAll kinds items = .ok vs
        ↔
      ∃ elements, items.mapM (Value.decode kinds) = .ok elements ∧ vs = elements.map .element := by
  induction items generalizing vs with
  | nil => simp [Value.decodeAll, pure, Except.pure, eq_comm]
  | cons x xs ih =>
    rw [Value.decodeAll]
    simp only [Outcome.bind_eq_ok, ih, Outcome.mapM_cons_eq_ok, Except.ok.injEq]
    constructor
    . rintro ⟨e, he, _, ⟨es, hes, rfl⟩, rfl⟩
      exact ⟨e :: es, ⟨e, es, he, hes, rfl⟩, rfl⟩
    . rintro ⟨_, ⟨e, es, he, hes, rfl⟩, rfl⟩
      exact ⟨e, he, es.map .element, ⟨es, hes, rfl⟩, rfl⟩

theorem decodeSequenceIn_eq (tag : String) (entries : Table Value)
    : Value.decodeSequenceIn kinds tag entries
        =
      match entries.content with
      | .null => .ok []
      | .list items => Value.decodeAll kinds items
      | v => .error (.listExpected tag v.formName) := by
  unfold Table.content
  induction entries with
  | nil => rfl
  | cons entry rest ih =>
    unfold Value.decodeSequenceIn
    rw [Table.get?_cons]
    split
    . cases entry.2 with
      | _ => rfl
    . exact ih

theorem decodeExtensionIn_eq (entries : Table Value)
    : Value.decodeExtensionIn kinds entries
        =
      match entries.content with
      | .list items => .tuple <$> Value.decodeAll kinds items
      | v => .ok v := by
  unfold Table.content
  induction entries with
  | nil => rfl
  | cons entry rest ih =>
    unfold Value.decodeExtensionIn
    rw [Table.get?_cons]
    split
    . cases entry.2 with
      | _ => rfl
    . exact ih

theorem decodeKeyIn_eq (fields : Table Value)
    : Value.decodeKeyIn kinds fields
        =
      match fields.get? (.text "key") with
      | none => .ok none
      | some v => some <$> Value.decode kinds v := by
  induction fields with
  | nil => rfl
  | cons entry rest ih =>
    unfold Value.decodeKeyIn
    rw [Table.get?_cons]
    split
    . rfl
    . exact ih

theorem decodeValueIn_eq (fields : Table Value)
    : Value.decodeValueIn kinds fields
        =
      match (fields.get? (.text "value")).getD .null with
      | .null => .ok none
      | v => some <$> Value.decode kinds v := by
  induction fields with
  | nil => rfl
  | cons entry rest ih =>
    unfold Value.decodeValueIn
    rw [Table.get?_cons]
    split
    . cases entry.2 with
      | _ => rfl
    . exact ih

theorem decodeMemberIn_eq (entries : Table Value)
    : Value.decodeMemberIn kinds entries
        =
      match entries.content with
      | .object fields => do
        match ← Value.decodeKeyIn kinds fields with
        | none => .error .missingKey
        | some key => memberContent key (Value.decodeValueIn kinds fields)
      | _ => .error .missingKey := by
  unfold Table.content
  induction entries with
  | nil => rfl
  | cons entry rest ih =>
    unfold Value.decodeMemberIn
    rw [Table.get?_cons]
    split
    . cases entry.2 with
      | _ => rfl
    . exact ih

def contentOf (kinds : Kinds) (entries : Table Value) : Shape → Except Fault Value
  | .member => Value.decodeMemberIn kinds entries
  | .ref => decodeRef entries.content
  | .literal kind => decodeLiteral kind.tag entries.content
  | .sequence kind => .tuple <$> Value.decodeSequenceIn kinds kind.tag entries
  | .reference => Value.decodeExtensionIn kinds entries

theorem decode_object (entries : Table Value)
    : Value.decode kinds (.object entries)
        =
      (match entries.get? (.text "element") with
      | none => .error .missingTag
      | some tag => do
        let info ← ((entries.get? (.text "meta")).getD .null).entriesOrNone
        let attributes ← attributesOf ((entries.get? (.text "attributes")).getD .null)
        let shape ← kinds.shape tag
        let content ← contentOf kinds entries shape
        .ok (.mk (shape.kindOf tag) (.object info) (.object attributes) content)) := by
  unfold Value.decode
  cases entries.get? (.text "element") with
  | none => rfl
  | some tag =>
    dsimp only
    congr 1
    funext info
    congr 1
    funext attributes
    congr 1
    funext shape
    cases shape with
    | sequence kind =>
      dsimp only [contentOf]
      cases Value.decodeSequenceIn kinds kind.tag entries with
      | ok items => rfl
      | error fault => rfl
    | _ => rfl

theorem decode_object_eq_ok {entries : Table Value} {e : Element}
    : Value.decode kinds (.object entries) = .ok e
        ↔
      ∃ tag shape info attributes content,
        entries.Heads kinds tag shape info attributes
          ∧ contentOf kinds entries shape = .ok content
          ∧ .mk (shape.kindOf tag) (.object info) (.object attributes) content = e := by
  rw [decode_object]
  constructor
  . intro h
    split at h
    . contradiction
    . next tag htag =>
      simp only [Outcome.bind_eq_ok, Except.ok.injEq] at h
      obtain ⟨info, hinfo, attributes, hattributes, shape, hshape, content, hcontent, h⟩ := h
      exact ⟨tag, shape, info, attributes, content, ⟨htag, hshape, hinfo, hattributes⟩, hcontent, h⟩
  . rintro ⟨tag, shape, info, attributes, content, heads, hcontent, h⟩
    simp [heads.tag_eq, heads.info_eq, heads.attributes_eq, heads.shape_eq, hcontent, h]

theorem decode_of_reads {d : Value} {e : Element} (h : d.Reads kinds e)
    : Value.decode kinds d = .ok e := by
  induction h with
  | member heads content_eq key_eq _ key_kind value_eq ih =>
    refine decode_object_eq_ok.2 ⟨_, _, _, _, _, heads, ?_, rfl⟩
    simp [contentOf, decodeMemberIn_eq, content_eq, decodeKeyIn_eq, key_eq, ih, memberContent,
      key_kind, decodeValueIn_eq, value_eq]
  | @memberWithValue _ fields _ _ _ _ value _ valueElement heads content_eq key_eq _ key_kind
    value_eq value_reads ih ih' =>
    refine decode_object_eq_ok.2 ⟨_, _, _, _, _, heads, ?_, rfl⟩
    -- A value of null counts as absent, but no element is read from it.
    have hvalue : value ≠ .null := by
      rintro rfl
      cases value_reads
    have hdecoded : decodeValueIn kinds fields = .ok (some valueElement) := by
      rw [decodeValueIn_eq, value_eq, Option.getD_some]
      split
      . contradiction
      . rw [ih', Outcome.map_ok]
    simp [contentOf, decodeMemberIn_eq, content_eq, decodeKeyIn_eq, key_eq, ih, memberContent,
      key_kind, hdecoded]
  | ref heads content_eq href_eq =>
    refine decode_object_eq_ok.2 ⟨_, _, _, _, _, heads, ?_, rfl⟩
    simp [contentOf, content_eq, decodeRef, href_eq]
  | @raw entries _ _ _ shape heads takes =>
    refine decode_object_eq_ok.2 ⟨_, _, _, _, _, heads, ?_, rfl⟩
    cases shape with
    | literal kind =>
      rw [contentOf]
      unfold decodeLiteral
      split
      . next h => exact absurd h (takes.1 _)
      . next h => exact absurd h (takes.2 _)
      . rfl
    | reference =>
      rw [contentOf, decodeExtensionIn_eq]
      split
      . next h => exact absurd h (takes _)
      . rfl
    | _ => exact takes.elim
  | empty heads content_eq =>
    refine decode_object_eq_ok.2 ⟨_, _, _, _, _, heads, ?_, rfl⟩
    simp [contentOf, decodeSequenceIn_eq, content_eq]
  | @items _ _ _ _ shape items elements heads has_items content_eq length_eq _ ih =>
    refine decode_object_eq_ok.2 ⟨_, _, _, _, _, heads, ?_, rfl⟩
    have hdecoded : decodeAll kinds items = .ok (elements.map .element) := by
      rw [decodeAll_eq_ok]
      refine ⟨elements, ?_, rfl⟩
      rw [Outcome.mapM_eq_ok, List.forall₂_iff_zip]
      exact ⟨length_eq, fun hmem => ih _ hmem⟩
    cases shape with
    | sequence kind => simp [contentOf, decodeSequenceIn_eq, content_eq, hdecoded]
    | reference => simp [contentOf, decodeExtensionIn_eq, content_eq, hdecoded]
    | _ => exact has_items.elim

theorem sizeOf_get? {entries : Table Value} {key v : Value} (h : entries.get? key = some v)
    : sizeOf v < sizeOf entries := by
  obtain ⟨k, hmem, -⟩ := Table.mem_of_get? h
  have := List.sizeOf_lt_of_mem hmem
  rw [Prod.mk.sizeOf_spec] at this
  omega

theorem sizeOf_content {entries : Table Value} (h : entries.content ≠ .null)
    : sizeOf entries.content < sizeOf entries := by
  unfold Table.content at h ⊢
  cases hv : entries.get? (.text "content") with
  | none => simp [hv] at h
  | some v => exact sizeOf_get? hv

theorem decodeKeyIn_eq_ok {fields : Table Value} {keyElement : Element}
    : Value.decodeKeyIn kinds fields = .ok (some keyElement)
        ↔
      ∃ key, fields.get? (.text "key") = some key ∧ Value.decode kinds key = .ok keyElement := by
  rw [decodeKeyIn_eq]
  cases fields.get? (.text "key") with
  | none => simp
  | some key => simp [Outcome.map_eq_ok]

theorem decodeValueIn_eq_ok {fields : Table Value} {found : Option Element}
    (h : Value.decodeValueIn kinds fields = .ok found)
    : ((fields.get? (.text "value")).getD .null = .null ∧ found = none)
        ∨ ∃ value valueElement, fields.get? (.text "value") = some value
            ∧ Value.decode kinds value = .ok valueElement ∧ found = some valueElement := by
  rw [decodeValueIn_eq] at h
  split at h
  . next hnull =>
    injection h with h
    exact .inl ⟨hnull, h.symm⟩
  . next hnull =>
    rw [Outcome.map_eq_ok] at h
    obtain ⟨valueElement, hvalue, rfl⟩ := h
    cases hv : fields.get? (.text "value") with
    | none => simp [hv] at hnull
    | some value =>
      rw [hv, Option.getD_some] at hvalue
      exact .inr ⟨value, valueElement, rfl, hvalue, rfl⟩

theorem decodeMemberIn_eq_ok {entries : Table Value} {content : Value}
    (h : Value.decodeMemberIn kinds entries = .ok content)
    : ∃ fields keyElement found, entries.content = .object fields
        ∧ Value.decodeKeyIn kinds fields = .ok (some keyElement) ∧ keyElement.kind = .string
        ∧ Value.decodeValueIn kinds fields = .ok found
        ∧ content = .member (.element keyElement) (found.elim .null .element) := by
  rw [decodeMemberIn_eq] at h
  split at h
  . next fields hfields =>
    rw [Outcome.bind_eq_ok] at h
    obtain ⟨foundKey, hkey, h⟩ := h
    split at h
    . contradiction
    . next keyElement =>
      unfold memberContent at h
      split at h
      . next hkind =>
        rw [Outcome.bind_eq_ok] at h
        obtain ⟨found, hfound, h⟩ := h
        injection h with h
        exact ⟨fields, keyElement, found, hfields, hkey, hkind, hfound, h.symm⟩
      . contradiction
  . contradiction

theorem items_of_mapM {entries info attributes : Table Value} {tag : Value} {shape : Shape}
    {items : List Value} {elements : List Element}
    (ih : ∀ m < sizeOf (Value.object entries), ∀ {d : Value} {e : Element},
      Value.decode kinds d = .ok e → sizeOf d = m → d.Reads kinds e)
    (heads : entries.Heads kinds tag shape info attributes) (has_items : shape.HasItems)
    (hitems : entries.content = .list items)
    (hmapM : items.mapM (Value.decode kinds) = .ok elements)
    : Value.Reads kinds (.object entries)
        (.mk (shape.kindOf tag) (.object info) (.object attributes)
          (.tuple (elements.map .element))) := by
  rw [Outcome.mapM_eq_ok, List.forall₂_iff_zip] at hmapM
  have hne : Table.content entries ≠ .null := by simp [hitems]
  have hsmall := sizeOf_content hne
  rw [hitems, Value.list.sizeOf_spec] at hsmall
  refine .items heads has_items hitems hmapM.1 ?_
  intro pair hmem
  have := List.sizeOf_lt_of_mem (List.of_mem_zip hmem).1
  refine ih _ ?_ (hmapM.2 hmem) rfl
  rw [Value.object.sizeOf_spec]
  omega

theorem reads_of_decode {d : Value} {e : Element} (h : Value.decode kinds d = .ok e)
    : d.Reads kinds e := by
  -- The parts that are read in turn are smaller than the object; no case looks further down.
  induction hn : sizeOf d using Nat.strongRecOn generalizing d e with
  | ind n ih =>
    subst hn
    cases d with
    | object entries =>
      have size : sizeOf (Value.object entries) = 1 + sizeOf entries := by simp
      rw [decode_object_eq_ok] at h
      obtain ⟨tag, shape, info, attributes, content, heads, hcontent, rfl⟩ := h
      cases shape with
      | member =>
        obtain ⟨fields, keyElement, found, hfields, hkey, hkind, hfound, rfl⟩ :=
          decodeMemberIn_eq_ok hcontent
        have hne : Table.content entries ≠ .null := by simp [hfields]
        have hsmall := sizeOf_content hne
        rw [hfields, Value.object.sizeOf_spec] at hsmall
        obtain ⟨key, key_eq, hkey⟩ := decodeKeyIn_eq_ok.1 hkey
        have hkeysize := sizeOf_get? key_eq
        have key_reads := ih _ (by omega) hkey rfl
        rcases decodeValueIn_eq_ok hfound with ⟨value_eq, rfl⟩ | ⟨value, e, value_eq, hvalue, rfl⟩
        . exact .member heads hfields key_eq key_reads hkind value_eq
        . have hvaluesize := sizeOf_get? value_eq
          have value_reads := ih _ (by omega) hvalue rfl
          exact .memberWithValue heads hfields key_eq key_reads hkind value_eq value_reads
      | ref =>
        simp only [contentOf, decodeRef] at hcontent
        split at hcontent
        . next fields hfields =>
          split at hcontent
          . next href href_eq =>
            injection hcontent with hcontent
            subst hcontent
            exact .ref heads hfields href_eq
          . contradiction
        . contradiction
      | literal kind =>
        simp only [contentOf, decodeLiteral] at hcontent
        split at hcontent
        . contradiction
        . contradiction
        . next hlist hobject =>
          injection hcontent with hcontent
          subst hcontent
          exact .raw heads ⟨hlist, hobject⟩
      | sequence kind =>
        simp only [contentOf, decodeSequenceIn_eq, Outcome.map_eq_ok] at hcontent
        obtain ⟨vs, hvs, rfl⟩ := hcontent
        split at hvs
        . next hnull =>
          injection hvs with hvs
          subst hvs
          exact .empty heads hnull
        . next items hitems =>
          rw [decodeAll_eq_ok] at hvs
          obtain ⟨elements, hmapM, rfl⟩ := hvs
          exact items_of_mapM ih heads trivial hitems hmapM
        . contradiction
      | reference =>
        simp only [contentOf, decodeExtensionIn_eq] at hcontent
        split at hcontent
        . next items hitems =>
          rw [Outcome.map_eq_ok] at hcontent
          obtain ⟨vs, hvs, rfl⟩ := hcontent
          rw [decodeAll_eq_ok] at hvs
          obtain ⟨elements, hmapM, rfl⟩ := hvs
          exact items_of_mapM ih heads trivial hitems hmapM
        . next hlist =>
          injection hcontent with hcontent
          subst hcontent
          exact .raw heads hlist
    | _ => simp [Value.decode] at h

theorem decode_eq_ok_iff {d : Value} {e : Element}
    : Value.decode kinds d = .ok e ↔ d.Reads kinds e := by
  constructor
  . exact reads_of_decode
  . exact decode_of_reads

end Value

end ApiElements
