import ApiElements.Proofs.Codec.Grammar
import ApiElements.Proofs.Json.RoundTrip
import ApiElements.Proofs.Value.Document

/-!
This module contains the canonical documents, that is, the one spelling that writing has for every
element. Reading and writing such a document gives it back, and whatever was read is written as one.
-/

namespace ApiElements

open Kinds (Shape literalTags)

def Table.HasOnly (t : Table Value) (names : List String) : Prop :=
  ∀ entry ∈ t, ∃ name ∈ names, entry.1 = .text name

/--
Attributes that are spelled as they are written: the type attributes are no array element.
-/
structure Table.CanonicalAttributes (t : Table Value) : Prop where
  data : t.Data
  names : ∀ names : Table Value, t.get? (.text "typeAttributes") = some (.object names) →
    names.get? (.text "element") ≠ some (.text "array")

/--
An object has no other entries than an element is written with, a text for a tag, and no empty
descriptive data or attributes.
-/
structure Table.CanonicalHead (t : Table Value) (tag : String) : Prop where
  only : t.HasOnly ["element", "meta", "attributes", "content"]
  tag_eq : t.get? (.text "element") = some (.text tag)
  info : ∃ info : Table Value, info.Data ∧ t.get? (.text "meta") = info.part
  attributes : ∃ attributes : Table Value, attributes.CanonicalAttributes
    ∧ t.get? (.text "attributes") = attributes.part

inductive Value.Scalar : Value → Prop where
  | bool (b : Bool) : Scalar (.bool b)
  | int (n : Int) : Scalar (.int n)
  | double (d : Double) : Scalar (.double d)
  | text (s : String) : Scalar (.text s)

/--
Data is spelled as the data of an element is written, at every depth.
-/
inductive Value.Canonical (kinds : Kinds) : Value → Prop where
  | absent {t : Table Value} {tag : String} (head : t.CanonicalHead tag)
    (optional : tag ∈ literalTags ∨ kinds.ReferenceTag tag)
    (content : t.get? (.text "content") = none) : Canonical kinds (.object t)
  | literal {t : Table Value} {tag : String} {v : Value} (head : t.CanonicalHead tag)
    (literal : tag ∈ literalTags) (content : t.get? (.text "content") = some v) (scalar : v.Scalar)
    : Canonical kinds (.object t)
  | items {t : Table Value} {tag : String} {items : List Value} (head : t.CanonicalHead tag)
    (nests : kinds.SequenceTag tag ∨ kinds.ReferenceTag tag)
    (content : t.get? (.text "content") = some (.list items))
    (items_canonical : ∀ x ∈ items, Canonical kinds x) : Canonical kinds (.object t)
  | extension {t : Table Value} {tag : String} {v : Value} (head : t.CanonicalHead tag)
    (reference : kinds.ReferenceTag tag) (content : t.get? (.text "content") = some v)
    (json : v.IsJson) (not_null : v ≠ .null) (no_list : ∀ items, v ≠ .list items)
    : Canonical kinds (.object t)
  | ref {t : Table Value} {href : Value} (head : t.CanonicalHead "ref")
    (content : t.get? (.text "content") = some (.object [(.text "href", href)]))
    (json : href.IsJson) : Canonical kinds (.object t)
  | member {t fields : Table Value} {key : Value} (head : t.CanonicalHead "member")
    (content : t.get? (.text "content") = some (.object fields)) (only : fields.HasOnly ["key"])
    (key_eq : fields.get? (.text "key") = some key) (key_canonical : Canonical kinds key)
    (key_tag : key.under? "element" = some (.text "string")) : Canonical kinds (.object t)
  | memberWithValue {t fields : Table Value} {key value : Value} (head : t.CanonicalHead "member")
    (content : t.get? (.text "content") = some (.object fields))
    (only : fields.HasOnly ["key", "value"]) (key_eq : fields.get? (.text "key") = some key)
    (key_canonical : Canonical kinds key) (key_tag : key.under? "element" = some (.text "string"))
    (value_eq : fields.get? (.text "value") = some value) (value_canonical : Canonical kinds value)
    : Canonical kinds (.object t)

namespace Table

variable {t fields : Table Value} {names : List String}

theorem HasOnly.get?_eq_none (h : t.HasOnly names) {s : String} (hs : s ∉ names)
    : t.get? (.text s) = none := by
  cases hv : t.get? (.text s) with
  | none => rfl
  | some v =>
    obtain ⟨k, hmem, hsame⟩ := mem_of_get? hv
    obtain ⟨name, hname, heq⟩ := h _ hmem
    dsimp only at heq
    rw [heq, Value.text_same_text, beq_iff_eq] at hsame
    exact absurd (hsame ▸ hname) hs

theorem hasOnly_partEntry (name : String) (part : Option Value)
    : HasOnly (partEntry name part) [name] := by
  cases part with
  | none => simp [partEntry, HasOnly]
  | some v => simp [partEntry, HasOnly]

theorem HasOnly.mono {names' : List String} (h : t.HasOnly names) (hsub : names ⊆ names')
    : t.HasOnly names' := by
  intro entry hmem
  obtain ⟨name, hname, heq⟩ := h entry hmem
  exact ⟨name, hsub hname, heq⟩

section Encoded

variable {tag key : Value} {info attributes content value : Option Value}

theorem hasOnly_encoded
    : (encoded tag info attributes content).HasOnly ["element", "meta", "attributes", "content"] := by
  intro entry hmem
  rw [encoded, List.mem_cons, List.mem_append, List.mem_append] at hmem
  rcases hmem with rfl | (hmem | hmem) | hmem
  . exact ⟨"element", by simp, rfl⟩
  . exact (hasOnly_partEntry "meta" info).mono (by simp) entry hmem
  . exact (hasOnly_partEntry "attributes" attributes).mono (by simp) entry hmem
  . exact (hasOnly_partEntry "content" content).mono (by simp) entry hmem

theorem get?_encoded_content
    : (encoded tag info attributes content).get? (.text "content") = content := by
  simp [encoded, get?_cons, get?_append, get?_partEntry]

theorem exists_fields_encoded
    : ∃ fields, encoded tag info attributes content = ofFields fields
        ∧ (fields.map (·.1)).Nodup := by
  refine ⟨("element", tag) :: (Json.partFields "meta" info ++ Json.partFields "attributes" attributes
    ++ Json.partFields "content" content), ?_, ?_⟩
  . simp only [encoded, Json.partEntry_eq, ofFields, List.map_cons, List.map_append]
  . cases info with
    | _ => cases attributes with
      | _ => cases content with
        | _ => simp [Json.partFields]

def SamePart (x y : Option Value) : Prop :=
  Option.Rel (fun v w => v.same w = true) x y

theorem samePart_self {x : Option Value} (h : ∀ v, x = some v → v.IsJson) : SamePart x x := by
  cases x with
  | none => exact .none
  | some v => exact .some (h v rfl).same_self

theorem same_encoded (ht : t.IsJson) {tag : String} (head : t.CanonicalHead tag)
    (hcontent : SamePart content (t.get? (.text "content")))
    : (Value.object (encoded (.text tag) (t.get? (.text "meta")) (t.get? (.text "attributes"))
        content)).same (.object t) = true := by
  have hself : ∀ s, SamePart (t.get? (.text s)) (t.get? (.text s)) :=
    fun s => samePart_self fun v => ht.get?
  obtain ⟨fields, rfl, hnodup, -⟩ := ht
  obtain ⟨fields', heq, hnodup'⟩ := @exists_fields_encoded (.text tag)
    ((ofFields fields).get? (.text "meta")) ((ofFields fields).get? (.text "attributes")) content
  rw [heq]
  apply same_object_of_get? hnodup' hnodup
  intro s
  rw [← heq]
  by_cases hs : s ∈ ["element", "meta", "attributes", "content"]
  . simp only [List.mem_cons, List.not_mem_nil, or_false] at hs
    rcases hs with rfl | rfl | rfl | rfl
    . rw [get?_encoded_element, ← head.tag_eq]
      exact hself "element"
    . rw [get?_encoded_meta]
      exact hself "meta"
    . rw [get?_encoded_attributes]
      exact hself "attributes"
    . rw [get?_encoded_content]
      exact hcontent
  . rw [hasOnly_encoded.get?_eq_none hs, head.only.get?_eq_none hs]
    exact .none

theorem same_encodedMember (hfields : fields.IsJson) (only : fields.HasOnly ["key", "value"])
    (hkey : SamePart (some key) (fields.get? (.text "key")))
    (hvalue : SamePart value (fields.get? (.text "value")))
    : (encodedMember key value).same (.object fields) = true := by
  obtain ⟨fields, rfl, hnodup, -⟩ := hfields
  have heq : ((.text "key", key) :: partEntry "value" value)
      = ofFields (("key", key) :: Json.partFields "value" value) := by
    rw [Json.partEntry_eq]
    rfl
  have honly : HasOnly ((.text "key", key) :: partEntry "value" value) ["key", "value"] := by
    intro entry hmem
    rcases List.mem_cons.1 hmem with rfl | hmem
    . exact ⟨"key", by simp, rfl⟩
    . exact (hasOnly_partEntry "value" value).mono (by simp) entry hmem
  rw [encodedMember, heq]
  apply same_object_of_get? ?_ hnodup
  . intro s
    rw [← heq]
    by_cases hs : s ∈ ["key", "value"]
    . simp only [List.mem_cons, List.not_mem_nil, or_false] at hs
      rcases hs with rfl | rfl
      . simpa [get?_cons, SamePart] using hkey
      . simpa [get?_cons, get?_partEntry, SamePart] using hvalue
    . rw [honly.get?_eq_none hs, only.get?_eq_none hs]
      exact .none
  . cases value with
    | _ => simp [Json.partFields]

end Encoded

end Table

namespace Value

variable {kinds : Kinds} {t : Table Value} {d : Value} {e : Element} {tag : String} {shape : Shape}

section Lossless

theorem isJson_of_part {raw : Table Value} {key : Value} (h : t.IsJson) (hraw : t.get? key = raw.part)
    : raw.IsJson := by
  cases raw with
  | nil => exact ⟨[], rfl, by simp, by simp⟩
  | cons entry rest => exact isJson_object.1 (h.get? hraw)

theorem exists_attributesOf_part {raw : Table Value} (hjson : raw.IsJson)
    (h : raw.CanonicalAttributes)
    : ∃ attributes, attributesOf (raw.part.getD .null) = .ok attributes
        ∧ Value.encodeEntries attributes = .ok raw := by
  cases hempty : raw with
  | nil => exact ⟨[], rfl, rfl⟩
  | cons entry rest =>
    have hne : raw ≠ [] := by simp [hempty]
    rw [← hempty, Table.getD_part_of_ne_nil hne, attributesOf_object hne]
    split
    . exact ⟨raw, rfl, h.data.encodeEntries⟩
    . next v hv =>
      have hunwrap : unwrapNames v = .ok v := by
        have hbytes : ∀ data, v ≠ .bytes data := by
          rintro data rfl
          cases hjson.get? hv
        apply unwrapNames_of_ne_array hbytes
        rintro names rfl
        exact h.names names hv
      rw [hunwrap, Outcome.ok_bind]
      have hvdata := h.data.get? hv
      split
      . next names =>
        refine ⟨_, rfl, ?_⟩
        have hencode : (Value.tuple names).encode = .ok (.list names) := hvdata.encode
        rw [encodeEntries_put h.data hencode, Table.put_of_get? hv]
      . cases hvdata
      . exact ⟨raw, rfl, h.data.encodeEntries⟩

theorem exists_encode_same (ht : t.IsJson) (head : t.CanonicalHead tag)
    (hshape : kinds.shape (.text tag) = .ok shape)
    : ∃ info attributes, t.Heads kinds (.text tag) shape info attributes
        ∧ ∀ content content', Element.encodeContent content = .ok content' →
            Table.SamePart content' (t.get? (.text "content")) →
            ∃ d', Element.encode (.mk (shape.kindOf (.text tag)) (.object info) (.object attributes)
                content) = .ok d'
              ∧ d'.same (.object t) = true := by
  obtain ⟨info, hinfodata, hinfo⟩ := head.info
  obtain ⟨raw, hraw, hattributes⟩ := head.attributes
  obtain ⟨attributes, hread, hwrite⟩ := exists_attributesOf_part (isJson_of_part ht hattributes) hraw
  refine ⟨info, attributes, ⟨head.tag_eq, hshape, ?_, ?_⟩, ?_⟩
  . rw [hinfo]
    exact Table.entriesOrNone_part info
  . rw [hattributes]
    exact hread
  . intro content content' hcontent hsame
    refine ⟨_, Element.encode_mk hinfodata.encodeEntries hwrite hcontent, ?_⟩
    rw [Kinds.tag_of_shape hshape, ← hinfo, ← hattributes]
    exact Table.same_encoded ht head hsame

theorem exists_encodeItems_same {items : List Value}
    (h : ∀ x ∈ items, ∃ e, x.Reads kinds e ∧ ∃ d', e.encode = .ok d' ∧ d'.same x = true)
    : ∃ elements : List Element, items.length = elements.length
        ∧ (∀ pair ∈ items.zip elements, pair.1.Reads kinds pair.2)
        ∧ ∃ items', Value.encodeItems (elements.map .element) = .ok items'
            ∧ Value.sameItems items' items = true := by
  induction items with
  | nil => exact ⟨[], rfl, by simp, [], rfl, rfl⟩
  | cons x rest ih =>
    obtain ⟨e, hreads, d', hencode, hsame⟩ := h x (by simp)
    obtain ⟨elements, hlength, hread, items', hitems, hsameitems⟩ :=
      ih fun y hy => h y (List.mem_cons_of_mem _ hy)
    refine ⟨e :: elements, by simpa using hlength, ?_, d' :: items', ?_, ?_⟩
    . intro pair hmem
      rw [List.zip_cons_cons, List.mem_cons] at hmem
      rcases hmem with rfl | hmem
      . exact hreads
      . exact hread pair hmem
    . simp [Value.encodeItems, Value.encode, hencode, hitems]
    . rw [Value.sameItems, hsame, hsameitems, Bool.and_self]

theorem Scalar.takes {v : Value} {kind : Kind} (h : v.Scalar) : (Shape.literal kind).Takes v := by
  cases h with
  | _ => simp [Kinds.Shape.Takes]

theorem content_of_get? {v : Value} (h : t.get? (.text "content") = some v) : t.content = v := by
  rw [Table.content, h, Option.getD_some]

theorem content_of_get?_eq_none (h : t.get? (.text "content") = none) : t.content = .null := by
  rw [Table.content, h, Option.getD_none]

theorem isJson_fields {fields : Table Value} (h : t.IsJson) (hcontent : t.content = .object fields)
    : fields.IsJson := by
  have hfields := h.getD (.text "content")
  rwa [← Table.content, hcontent, isJson_object] at hfields

theorem IsJson.encodeContent {v : Value} (h : v.IsJson) (hnull : v ≠ .null)
    : Element.encodeContent v = .ok (some v) := by
  obtain ⟨content', hcontent, hgetD⟩ := exists_encodeContent_of_data h.data
  cases content' with
  | none => exact absurd hgetD.symm hnull
  | some w =>
    rw [Option.getD_some] at hgetD
    rw [hcontent, hgetD]

theorem encodeContent_content (ht : t.IsJson) (hnull : t.get? (.text "content") ≠ some .null)
    : Element.encodeContent t.content = .ok (t.get? (.text "content")) := by
  cases hv : t.get? (.text "content") with
  | none =>
    rw [content_of_get?_eq_none hv]
    rfl
  | some v =>
    rw [content_of_get? hv]
    apply (ht.get? hv).encodeContent
    rintro rfl
    exact hnull hv

theorem exists_reads_raw (ht : t.IsJson) (head : t.CanonicalHead tag)
    (hshape : kinds.shape (.text tag) = .ok shape) (takes : shape.Takes t.content)
    (hnull : t.get? (.text "content") ≠ some .null)
    : ∃ e, (Value.object t).Reads kinds e ∧ ∃ d', e.encode = .ok d' ∧ d'.same (.object t) = true := by
  obtain ⟨info, attributes, heads, hencode⟩ := exists_encode_same ht head hshape
  refine ⟨_, .raw heads takes, hencode _ _ (encodeContent_content ht hnull) ?_⟩
  exact Table.samePart_self fun v => ht.get?

theorem exists_reads_sequence (ht : t.IsJson) (head : t.CanonicalHead tag)
    (hshape : kinds.shape (.text tag) = .ok shape) (has_items : shape.HasItems) {items : List Value}
    (content : t.get? (.text "content") = some (.list items))
    (h : ∀ x ∈ items, ∃ e, x.Reads kinds e ∧ ∃ d', e.encode = .ok d' ∧ d'.same x = true)
    : ∃ e, (Value.object t).Reads kinds e ∧ ∃ d', e.encode = .ok d' ∧ d'.same (.object t) = true := by
  obtain ⟨info, attributes, heads, hencode⟩ := exists_encode_same ht head hshape
  obtain ⟨elements, hlength, hread, items', hencoded, hsame⟩ := exists_encodeItems_same h
  have hcontent := Element.encodeContent_items hencoded
  refine ⟨_, .items heads has_items (content_of_get? content) hlength hread,
    hencode _ _ hcontent ?_⟩
  rw [content]
  exact .some hsame

/--
A canonical document is read as an element that is written as an equal document.
-/
theorem Canonical.exists_reads (hkinds : kinds.Registered) (h : d.Canonical kinds) (hd : d.IsJson)
    : ∃ e, d.Reads kinds e ∧ ∃ d', e.encode = .ok d' ∧ d'.same d = true := by
  induction h with
  | @absent t tag head optional content =>
    rw [isJson_object] at hd
    have hcontent := content_of_get?_eq_none content
    rcases optional with literal | reference
    . obtain ⟨kind, hshape⟩ := hkinds.exists_literal literal
      apply exists_reads_raw hd head hshape
      . simp [hcontent, Kinds.Shape.Takes]
      . simp [content]
    . apply exists_reads_raw hd head (hkinds.shape_reference reference)
      . simp [hcontent, Kinds.Shape.Takes]
      . simp [content]
  | @literal t tag v head literal content scalar =>
    rw [isJson_object] at hd
    obtain ⟨kind, hshape⟩ := hkinds.exists_literal literal
    apply exists_reads_raw hd head hshape
    . rw [content_of_get? content]
      exact scalar.takes
    . rw [content]
      rintro ⟨⟩
      cases scalar
  | @items t tag items head nests content _ ih =>
    rw [isJson_object] at hd
    have hitems := isJson_list.1 (hd.get? content)
    have hread := fun x hx => ih x hx (hitems x hx)
    rcases nests with sequence | reference
    . obtain ⟨kind, hshape⟩ := hkinds.exists_sequence sequence
      exact exists_reads_sequence hd head hshape trivial content hread
    . exact exists_reads_sequence hd head (hkinds.shape_reference reference) trivial content hread
  | @extension t tag v head reference content _ not_null no_list =>
    rw [isJson_object] at hd
    apply exists_reads_raw hd head (hkinds.shape_reference reference)
    . rw [content_of_get? content]
      exact no_list
    . rw [content]
      rintro ⟨⟩
      exact not_null rfl
  | @ref t href head content json =>
    rw [isJson_object] at hd
    obtain ⟨info, attributes, heads, hencode⟩ := exists_encode_same hd head kinds.shape_ref
    refine ⟨_, .ref heads (content_of_get? content) rfl, ?_⟩
    apply hencode _ _ rfl
    rw [content]
    exact .some (hd.get? content).same_self
  | @member t fields key head content only key_eq _ key_tag ih =>
    rw [isJson_object] at hd
    have hfields := isJson_object.1 (hd.get? content)
    obtain ⟨info, attributes, heads, hencode⟩ := exists_encode_same hd head kinds.shape_member
    obtain ⟨keyElement, key_reads, key', hkey, hsame⟩ := ih (hfields.get? key_eq)
    have hvalue : fields.get? (.text "value") = none := only.get?_eq_none (by simp)
    have hnull : (fields.get? (.text "value")).getD .null = .null := by rw [hvalue, Option.getD_none]
    refine ⟨_, .member heads (content_of_get? content) key_eq key_reads
      (kind_of_tag hkinds key_reads key_tag) hnull, ?_⟩
    have hcontent := Element.encodeContent_member hkey
    apply hencode _ _ hcontent
    rw [content]
    refine .some (Table.same_encodedMember hfields (only.mono (by simp)) ?_ ?_)
    . rw [key_eq]
      exact .some hsame
    . rw [hvalue]
      exact .none
  | @memberWithValue t fields key value head content only key_eq _ key_tag value_eq _ ih ih' =>
    rw [isJson_object] at hd
    have hfields := isJson_object.1 (hd.get? content)
    obtain ⟨info, attributes, heads, hencode⟩ := exists_encode_same hd head kinds.shape_member
    obtain ⟨keyElement, key_reads, key', hkey, hsame⟩ := ih (hfields.get? key_eq)
    obtain ⟨valueElement, value_reads, value', hvalue, hsame'⟩ := ih' (hfields.get? value_eq)
    refine ⟨_, .memberWithValue heads (content_of_get? content) key_eq key_reads
      (kind_of_tag hkinds key_reads key_tag) value_eq value_reads, ?_⟩
    have hcontent := Element.encodeContent_memberWithValue hkey hvalue
    apply hencode _ _ hcontent
    rw [content]
    refine .some (Table.same_encodedMember hfields only ?_ ?_)
    . rw [key_eq]
      exact .some hsame
    . rw [value_eq]
      exact .some hsame'

end Lossless

section Normal

theorem exists_list_of_unwrapNames {names : Table Value} {v : Value}
    (harray : names.get? (.text "element") = some (.text "array"))
    (h : unwrapNames (.object names) = .ok v) : ∃ items, v = .list items := by
  unfold unwrapNames at h
  dsimp only at h
  rw [harray, Option.getD_some, if_pos (by simp)] at h
  simp only [Outcome.bind_eq_ok, Outcome.map_eq_ok] at h
  obtain ⟨-, -, items, -, rfl⟩ := h
  exact ⟨items, rfl⟩

theorem exists_canonicalAttributes {raw : Value} {attributes : Table Value} (hraw : raw.Data)
    (h : attributesOf raw = .ok attributes)
    : ∃ attributes' : Table Value, Value.encodeEntries attributes = .ok attributes'
        ∧ attributes'.CanonicalAttributes := by
  obtain ⟨entries, hentries, hread⟩ := attributesOf_eq_ok hraw h
  have hdata := hraw.entriesOrNone hentries
  rcases hread with ⟨rfl, hagain⟩ | ⟨v, names, hv, hnames, rfl⟩
  . refine ⟨attributes, hdata.encodeEntries, hdata, ?_⟩
    -- An array element would have been replaced by the tuple of its names.
    intro names hfound harray
    have hne : attributes ≠ [] := by
      rintro rfl
      simp at hfound
    rw [Table.getD_part_of_ne_nil hne, attributesOf_object hne, hfound] at hagain
    obtain ⟨v, hv, hput⟩ := Outcome.bind_eq_ok.1 hagain
    obtain ⟨items, rfl⟩ := exists_list_of_unwrapNames harray hv
    injection hput with hput
    rw [← hput, Table.get?_put_text] at hfound
    injection hfound with hfound
    contradiction
  . have hnamesdata := ((hdata.get? hv).unwrapNames hnames).1
    have hencode : (Value.tuple names).encode = .ok (.list names) := hnamesdata.encode
    refine ⟨_, encodeEntries_put hdata hencode, hdata.put (.text _) hnamesdata, ?_⟩
    intro names' hfound
    rw [Table.get?_put_text] at hfound
    injection hfound with hfound
    contradiction

def TextTagged (v : Value) : Prop :=
  ∀ e, v.Holds e → ∃ tag : String, e.tag = .text tag

theorem TextTagged.of_content {x : Element} (h : (Value.element e).TextTagged)
    (hx : e.content.Holds x) : (Value.element x).TextTagged := by
  exact fun y hy => h y (.content (hx.trans hy))

/--
An element that was read is written with a canonical head. It is written as a canonical document if
its content is, under every tag that suits the content.
-/
theorem exists_encode_canonical_of_head {info attributes : Table Value} {v content : Value}
    {kind : Kind} {content' : Option Value} (hkinds : kinds.Registered) (ht : t.Data)
    (htags : (Value.element (.mk kind (.object info) (.object attributes) content)).TextTagged)
    (heads : t.Heads kinds v shape info attributes) (hkind : kind = shape.kindOf v)
    (hcontent : Element.encodeContent content = .ok content')
    (h : ∀ (tag : String) (t' : Table Value), shape.Suits kinds tag → t'.CanonicalHead tag →
      t'.get? (.text "content") = content' → (Value.object t').Canonical kinds)
    : ∃ d', Element.encode (.mk kind (.object info) (.object attributes) content) = .ok d'
        ∧ d'.Canonical kinds
        ∧ d'.under? "element"
            = some (Element.mk kind (.object info) (.object attributes) content).tag := by
  subst hkind
  obtain ⟨tag, htag⟩ := htags _ (.self _)
  have htageq := @Kinds.tag_of_shape _ _ (.object info) (.object attributes) content _ heads.shape_eq
  rw [htageq] at htag ⊢
  subst htag
  have hinfo := ht.getD.entriesOrNone heads.info_eq
  -- The attributes may have been spelled otherwise where they were read, hence another object.
  obtain ⟨attributes', hwrite, hcanonical⟩ := exists_canonicalAttributes ht.getD heads.attributes_eq
  have hencode : Element.encode (.mk (shape.kindOf (.text tag)) (.object info) (.object attributes)
      content) = _ := Element.encode_mk hinfo.encodeEntries hwrite hcontent
  rw [htageq] at hencode
  refine ⟨_, hencode, ?_, Table.get?_encoded_element⟩
  apply h tag _ (hkinds.suits_of_shape heads.shape_eq)
  . exact ⟨Table.hasOnly_encoded, Table.get?_encoded_element,
      ⟨info, hinfo, Table.get?_encoded_meta⟩,
      ⟨attributes', hcanonical, Table.get?_encoded_attributes⟩⟩
  . exact Table.get?_encoded_content

theorem tag_of_kind (h : e.kind = .string) : some e.tag = some (.text "string") := by
  unfold Element.tag
  rw [h]
  rfl

theorem scalar_of_takes {v : Value} {kind : Kind} (hv : v.IsJson) (hnull : v ≠ .null)
    (h : (Shape.literal kind).Takes v) : v.Scalar := by
  cases hv with
  | null => contradiction
  | bool b => exact .bool b
  | int n => exact .int n
  | double d => exact .double d
  | text s => exact .text s
  | list _ => exact absurd rfl (h.1 _)
  | object _ _ => exact absurd rfl (h.2 _)

theorem exists_encode_canonical_raw {info attributes : Table Value} {v : Value}
    (hkinds : kinds.Registered) (ht : t.IsJson)
    (htags : (Value.element (.mk (shape.kindOf v) (.object info) (.object attributes)
      t.content)).TextTagged)
    (heads : t.Heads kinds v shape info attributes) (takes : shape.Takes t.content)
    : ∃ d', Element.encode (.mk (shape.kindOf v) (.object info) (.object attributes) t.content)
          = .ok d'
        ∧ d'.Canonical kinds
        ∧ d'.under? "element" = some (Element.mk (shape.kindOf v) (.object info)
            (.object attributes) t.content).tag := by
  have hjson : t.content.IsJson := ht.getD _
  -- A content that is null is not written at all, and the tag alone is left.
  by_cases hnull : t.content = .null
  . rw [hnull] at takes htags ⊢
    apply exists_encode_canonical_of_head hkinds ht.data htags heads rfl rfl
    intro tag t' hsuits head content
    cases shape with
    | literal kind => exact .absent head (.inl hsuits) content
    | reference => exact .absent head (.inr hsuits) content
    | _ => exact takes.elim
  . apply exists_encode_canonical_of_head hkinds ht.data htags heads rfl
      (hjson.encodeContent hnull)
    intro tag t' hsuits head content
    cases shape with
    | literal kind => exact .literal head hsuits content (scalar_of_takes hjson hnull takes)
    | reference => exact .extension head hsuits content hjson hnull takes
    | _ => exact takes.elim

/--
What was read from a JSON value is written as a canonical document, under the tag that it has.
-/
theorem Reads.exists_encode_canonical (hkinds : kinds.Registered) (h : d.Reads kinds e)
    (hd : d.IsJson) (htags : (Value.element e).TextTagged)
    : ∃ d', e.encode = .ok d' ∧ d'.Canonical kinds ∧ d'.under? "element" = some e.tag := by
  induction h with
  | @member t fields info attributes v key keyElement heads content_eq key_eq _ key_kind _ ih =>
    rw [isJson_object] at hd
    have hfields := isJson_fields hd content_eq
    obtain ⟨key', hkey, hcanonical, htag⟩ :=
      ih (hfields.get? key_eq) (htags.of_content (.memberKey (.self _)))
    have hcontent := Element.encodeContent_member hkey
    apply exists_encode_canonical_of_head hkinds hd.data htags heads rfl hcontent
    intro tag t' hsuits head content
    obtain rfl : tag = "member" := hsuits
    refine .member head content ?_ ?_ hcanonical (htag.trans (tag_of_kind key_kind))
    . simp [Table.HasOnly, partEntry]
    . simp [Table.get?_cons]
  | @memberWithValue t fields info attributes v key value keyElement valueElement heads content_eq
    key_eq _ key_kind value_eq _ ih ih' =>
    rw [isJson_object] at hd
    have hfields := isJson_fields hd content_eq
    obtain ⟨key', hkey, hcanonical, htag⟩ :=
      ih (hfields.get? key_eq) (htags.of_content (.memberKey (.self _)))
    obtain ⟨value', hvalue, hcanonical', -⟩ :=
      ih' (hfields.get? value_eq) (htags.of_content (.memberValue (.self _)))
    have hcontent := Element.encodeContent_memberWithValue hkey hvalue
    apply exists_encode_canonical_of_head hkinds hd.data htags heads rfl hcontent
    intro tag t' hsuits head content
    obtain rfl : tag = "member" := hsuits
    refine .memberWithValue head content ?_ ?_ hcanonical (htag.trans (tag_of_kind key_kind)) ?_
      hcanonical'
    . simp [Table.HasOnly, partEntry]
    . simp [Table.get?_cons]
    . simp [Table.get?_cons, partEntry]
  | @ref t fields info attributes v href heads content_eq href_eq =>
    rw [isJson_object] at hd
    have hfields := isJson_fields hd content_eq
    have hcontent : Element.encodeContent (.ref href)
        = .ok (some (.object [(.text "href", href)])) := by
      rfl
    apply exists_encode_canonical_of_head hkinds hd.data htags heads rfl hcontent
    intro tag t' hsuits head content
    obtain rfl : tag = "ref" := hsuits
    exact .ref head content (hfields.get? href_eq)
  | @raw t info attributes v shape heads takes =>
    rw [isJson_object] at hd
    exact exists_encode_canonical_raw hkinds hd htags heads takes
  | @empty t info attributes v kind heads content_eq =>
    rw [isJson_object] at hd
    apply exists_encode_canonical_of_head hkinds hd.data htags heads rfl rfl
    intro tag t' hsuits head content
    exact .items head (.inl hsuits) content (by simp)
  | @items t info attributes v shape items elements heads has_items content_eq length_eq _ ih =>
    rw [isJson_object] at hd
    have hitems := hd.getD (.text "content")
    rw [← Table.content, content_eq, isJson_list] at hitems
    obtain ⟨items', hencoded, hcanonical⟩ := exists_encoded_all (Canonical kinds) length_eq (by
      intro pair hmem
      obtain ⟨hitem, helement⟩ := List.of_mem_zip hmem
      obtain ⟨d', hencode, hcanonical, -⟩ := ih pair hmem (hitems _ hitem)
        (htags.of_content (.tuple (List.mem_map_of_mem helement) (.self _)))
      exact ⟨d', hencode, hcanonical⟩)
    have hcontent := Element.encodeContent_items hencoded
    apply exists_encode_canonical_of_head hkinds hd.data htags heads rfl hcontent
    intro tag t' hsuits head content
    cases shape with
    | sequence kind => exact .items head (.inl hsuits) content hcanonical
    | reference => exact .items head (.inr hsuits) content hcanonical
    | _ => exact has_items.elim

/--
Reading and writing a canonical document gives an equal document; what was read from a JSON value is
written as a canonical document, if texts are the tags of all its elements.
-/
theorem normalize_canonical (hkinds : kinds.Registered)
    : (∀ d : Value, d.IsJson → d.Canonical kinds →
          ∃ d', d.normalize kinds = .ok d' ∧ d'.same d = true)
        ∧ ∀ (d : Value) (e : Element), d.IsJson → Value.decode kinds d = .ok e →
            (Value.element e).TextTagged → ∃ d', d.normalize kinds = .ok d' ∧ d'.Canonical kinds := by
  constructor
  . intro d hd hcanonical
    obtain ⟨e, hreads, d', hencode, hsame⟩ := hcanonical.exists_reads hkinds hd
    exact ⟨d', normalize_eq_ok.2 ⟨e, decode_of_reads hreads, hencode⟩, hsame⟩
  . intro d e hd hdecode htags
    obtain ⟨d', hencode, hcanonical, -⟩ :=
      (reads_of_decode hdecode).exists_encode_canonical hkinds hd htags
    exact ⟨d', normalize_eq_ok.2 ⟨e, hdecode, hencode⟩, hcanonical⟩

end Normal

section Record

theorem isJson_tagged (tag : String) {content : Value} (h : content.IsJson)
    : (tagged tag content).IsJson := by
  rw [tagged, isJson_object]
  refine ⟨[("element", .text tag), ("content", content)], rfl, by simp, ?_⟩
  simpa using ⟨.text tag, h⟩

theorem canonicalHead_tagged (tag : String) (content : Value)
    : Table.CanonicalHead [(.text "element", .text tag), (.text "content", content)] tag where
  only := by simp [Table.HasOnly]
  tag_eq := by simp [Table.get?_cons]
  info := ⟨[], by simp [Table.Data], by simp [Table.get?_cons, Table.part]⟩
  attributes := by
    refine ⟨[], ⟨by simp [Table.Data], by simp⟩, ?_⟩
    simp [Table.get?_cons, Table.part]

def record (fields : List (Value × Value)) : Value :=
  tagged "object" (.list [tagged "member" (.object fields)])

def titleWithoutValue : List (Value × Value) :=
  title ++ [(.text "value", .null)]

def titleRecord : Element :=
  .mk .object (.object []) (.object []) (.tuple [.element (.mk .member (.object []) (.object [])
    (.member (.element (.mk .string (.object []) (.object []) (.text "title"))) .null))])

theorem isJson_record {fields : Table Value} (h : fields.IsJson) : (record fields).IsJson := by
  apply isJson_tagged
  rw [isJson_list]
  simpa using isJson_tagged "member" (isJson_object.2 h)

theorem canonical_record_title : (record title).Canonical Kinds.builtIn := by
  apply Canonical.items (canonicalHead_tagged _ _) (.inl (by decide)) rfl
  intro x hx
  rw [List.mem_singleton] at hx
  rw [hx]
  apply Canonical.member (canonicalHead_tagged _ _) rfl (by simp [title, Table.HasOnly]) rfl ?_ rfl
  exact .literal (canonicalHead_tagged _ _) (by decide) rfl (.text _)

theorem textTagged_titleRecord : (Value.element titleRecord).TextTagged := by
  intro e he
  simp only [titleRecord, holds_element, Element.content, holds_tuple, List.mem_singleton,
    exists_eq_left, holds_member, not_holds_null, not_holds_text, or_false] at he
  rcases he with rfl | rfl | rfl
  . exact ⟨"object", rfl⟩
  . exact ⟨"member", rfl⟩
  . exact ⟨"string", rfl⟩

theorem normalize_canonical_record
    : Kinds.builtIn.Registered ∧ (record title).IsJson ∧ (record title).Canonical Kinds.builtIn
        ∧ (∃ d', (record title).normalize Kinds.builtIn = .ok d' ∧ d'.same (record title) = true)
        ∧ (record titleWithoutValue).IsJson
        ∧ Value.decode Kinds.builtIn (record titleWithoutValue) = .ok titleRecord
        ∧ (Value.element titleRecord).TextTagged
        ∧ ∃ d', (record titleWithoutValue).normalize Kinds.builtIn = .ok d'
            ∧ d'.Canonical Kinds.builtIn := by
  have hkey : (tagged "string" (.text "title")).IsJson := isJson_tagged _ (.text _)
  have htitle : (record title).IsJson :=
    isJson_record ⟨[("key", tagged "string" (.text "title"))], rfl, by simp, by simpa using hkey⟩
  have hwithout : (record titleWithoutValue).IsJson :=
    isJson_record ⟨[("key", tagged "string" (.text "title")), ("value", .null)], rfl, by simp,
      by simpa using ⟨hkey, .null⟩⟩
  have hdecode : Value.decode Kinds.builtIn (record titleWithoutValue) = .ok titleRecord := by rfl
  have hnormal := @normalize_canonical Kinds.builtIn .start
  exact ⟨.start, htitle, canonical_record_title, hnormal.1 _ htitle canonical_record_title,
    hwithout, hdecode, textTagged_titleRecord,
    hnormal.2 _ _ hwithout hdecode textTagged_titleRecord⟩

end Record

end Value

end ApiElements
