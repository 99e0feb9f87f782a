import ApiElements.Proofs.Codec.Reads

/-!
This module contains the round trip of element trees through plain data: what was read is written
as data that is read as the same element, under every table of kinds.
-/

namespace ApiElements

open Kinds (Shape)

variable {kinds : Kinds}

namespace Table

/--
A table as a part of an object, which is left out if it is empty.
-/
def part (t : Table Value) : Option Value :=
  if t.isEmpty then none else some (.object t)

theorem getD_part_of_ne_nil {t : Table Value} (h : t ≠ []) : t.part.getD .null = .object t := by
  cases t with
  | nil => contradiction
  | cons entry rest => rfl

theorem entriesOrNone_part (t : Table Value) : (t.part.getD .null).entriesOrNone = .ok t := by
  cases t with
  | nil => rfl
  | cons entry rest => rfl

end Table

namespace Element

def encodeContent : Value → Except Fault (Option Value)
  | .null => .ok none
  | .member key value => do
    let key ← Value.encodeTree key
    let value ← if value.isNull then .ok none else some <$> Value.encodeTree value
    .ok (some (encodedMember key value))
  | .ref href => .ok (some (.object [(.text "href", href)]))
  | content => some <$> Value.encode content

theorem encodeContent_member {key : Element} {key' : Value} (h : key.encode = .ok key')
    : encodeContent (.member (.element key) .null) = .ok (some (encodedMember key' none)) := by
  simp [encodeContent, Value.encodeTree, h, Value.isNull]

theorem encodeContent_memberWithValue {key value : Element} {key' value' : Value}
    (h : key.encode = .ok key') (h' : value.encode = .ok value')
    : encodeContent (.member (.element key) (.element value))
        = .ok (some (encodedMember key' (some value'))) := by
  simp [encodeContent, Value.encodeTree, h, h', Value.isNull]

theorem encodeContent_items {elements : List Element} {items : List Value}
    (h : Value.encodeItems (elements.map .element) = .ok items)
    : encodeContent (.tuple (elements.map .element)) = .ok (some (.list items)) := by
  simp [encodeContent, Value.encode, h]

def encodePart (v : Value) : Except Fault (Option Value) :=
  if v.truthy then some <$> Value.encode v else .ok none

theorem encode_eq (kind : Kind) (info attributes content : Value)
    : Element.encode (.mk kind info attributes content)
        =
      (do
        let info' ← encodePart info
        let attributes' ← encodePart attributes
        let content' ← encodeContent content
        .ok (encodedFields (Element.mk kind info attributes content).tag info' attributes'
          content')) := by
  unfold Element.encode encodePart encodeContent
  cases content with
  | _ => simp only [Outcome.ite_bind, Outcome.ok_bind, bind_assoc]

theorem encodePart_object {entries entries' : Table Value}
    (h : Value.encodeEntries entries = .ok entries')
    : encodePart (.object entries) = .ok entries'.part := by
  have hlength : entries.length = entries'.length := by
    rw [Value.encodeEntries_eq, Outcome.mapM_eq_ok] at h
    exact h.length_eq
  unfold encodePart
  cases entries with
  | nil =>
    rw [List.length_nil, eq_comm, List.length_eq_zero_iff] at hlength
    subst hlength
    rfl
  | cons entry rest =>
    cases entries' with
    | nil => simp at hlength
    | cons entry' rest' => simp [Value.truthy, Value.encode, h, Table.part]

theorem encode_mk {kind : Kind} {info info' attributes attributes' : Table Value} {content : Value}
    {content' : Option Value} (hinfo : Value.encodeEntries info = .ok info')
    (hattributes : Value.encodeEntries attributes = .ok attributes')
    (hcontent : encodeContent content = .ok content')
    : Element.encode (.mk kind (.object info) (.object attributes) content)
        =
      .ok (encodedFields (Element.mk kind (.object info) (.object attributes) content).tag
        info'.part attributes'.part content') := by
  rw [encode_eq, encodePart_object hinfo, encodePart_object hattributes, hcontent]
  rfl

end Element

namespace Kinds

/--
The shapes that a tag can have. A tag that is not registered, or only for references, is taken for
the name of a type.
-/
inductive Shaped : Value → Shape → Prop where
  | member : Shaped (.text "member") .member
  | ref : Shaped (.text "ref") .ref
  | reference (tag : Value) : Shaped tag .reference
  | literal {kind : Kind} (not_named : ∀ name, kind ≠ .named name)
    (is_literal : kind.tag = "boolean" ∨ kind.tag = "string" ∨ kind.tag = "number")
    : Shaped (.text kind.tag) (.literal kind)
  | sequence {kind : Kind} (not_named : ∀ name, kind ≠ .named name)
    (not_member : kind.tag ≠ "member") (not_ref : kind.tag ≠ "ref")
    : Shaped (.text kind.tag) (.sequence kind)

theorem shaped_of_shape {tag : Value} {shape : Shape} (h : kinds.shape tag = .ok shape)
    : Shaped tag shape := by
  unfold Kinds.shape at h
  split at h
  . cases h
    exact .member
  . cases h
    exact .ref
  . next tag hmember href =>
    split at h
    . cases h
      exact .reference _
    . cases h
      exact .reference _
    . next kind hnamed hfound =>
      obtain rfl : kind.tag = tag := by simpa using List.find?_some hfound
      split at h
      . next hliteral =>
        cases h
        exact .literal hnamed hliteral
      . cases h
        exact .sequence hnamed (fun heq => hmember (heq ▸ rfl)) (fun heq => href (heq ▸ rfl))
  . split at h
    . cases h
      exact .reference _
    . contradiction

theorem tag_of_not_named {kind : Kind} {info attributes content : Value}
    (h : ∀ name, kind ≠ .named name)
    : (Element.mk kind info attributes content).tag = .text kind.tag := by
  unfold Element.tag
  split
  . next name hnamed => exact absurd hnamed (h name)
  . rfl

theorem tag_of_shape {tag info attributes content : Value} {shape : Shape}
    (h : kinds.shape tag = .ok shape)
    : (Element.mk (shape.kindOf tag) info attributes content).tag = tag := by
  cases shaped_of_shape h with
  | literal not_named => exact tag_of_not_named not_named
  | sequence not_named => exact tag_of_not_named not_named
  | _ => rfl

end Kinds

namespace Table

def encoded (tag : Value) (info attributes content : Option Value) : Table Value :=
  (.text "element", tag) :: (partEntry "meta" info ++ partEntry "attributes" attributes ++
    partEntry "content" content)

variable {tag : Value} {info attributes content : Option Value}

theorem get?_partEntry (name other : String) (part : Option Value)
    : get? (partEntry name part) (.text other) = if other = name then part else none := by
  cases part with
  | none => simp [partEntry]
  | some v => simp [partEntry, get?_cons]

theorem get?_encoded_element : (encoded tag info attributes content).get? (.text "element") = tag := by
  simp [encoded, get?_cons]

theorem get?_encoded_meta : (encoded tag info attributes content).get? (.text "meta") = info := by
  simp [encoded, get?_cons, get?_append, get?_partEntry]

theorem get?_encoded_attributes
    : (encoded tag info attributes content).get? (.text "attributes") = attributes := by
  simp [encoded, get?_cons, get?_append, get?_partEntry]

theorem content_encoded : (encoded tag info attributes content).content = content.getD .null := by
  simp [Table.content, encoded, get?_cons, get?_append, get?_partEntry]

theorem heads_encoded {shape : Shape} {info info' attributes attributes' : Table Value}
    (hshape : kinds.shape tag = .ok shape) (hinfo : (info'.part.getD .null).entriesOrNone = .ok info)
    (hattributes : attributesOf (attributes'.part.getD .null) = .ok attributes)
    : (encoded tag info'.part attributes'.part content).Heads kinds tag shape info attributes where
  tag_eq := get?_encoded_element
  shape_eq := hshape
  info_eq := by
    rw [get?_encoded_meta]
    exact hinfo
  attributes_eq := by
    rw [get?_encoded_attributes]
    exact hattributes

theorem Data.encodeEntries {t : Table Value} (h : t.Data) : Value.encodeEntries t = .ok t := by
  apply Value.encodeEntries_of_fixed
  intro entry hmem
  exact (h entry hmem).2.encode

end Table

namespace Value

theorem Data.unwrapNames {v w : Value} (h : v.Data) (hw : unwrapNames v = .ok w)
    : w.Data ∧ (w = v ∨ ∃ names, w = .list names) := by
  unfold ApiElements.unwrapNames at hw
  split at hw
  . next entries =>
    rw [data_object] at h
    split at hw
    . simp only [Outcome.bind_eq_ok, Outcome.map_eq_ok] at hw
      obtain ⟨items, hitems, names, hnames, rfl⟩ := hw
      refine ⟨?_, .inr ⟨names, rfl⟩⟩
      rw [data_list]
      intro name hmem
      obtain ⟨item, hitem, hfield⟩ := Outcome.exists_of_mem_mapM hnames hmem
      exact (h.getD.itemsOrNone hitems item hitem).field hfield
    . injection hw with hw
      subst hw
      exact ⟨data_object.2 h, .inl rfl⟩
  . next data =>
    injection hw with hw
    subst hw
    exact ⟨data_list.2 (h.items rfl), .inr ⟨_, rfl⟩⟩
  . injection hw with hw
    subst hw
    exact ⟨h, .inl rfl⟩

theorem encodeEntries_put {t : Table Value} {key v w : Value} (h : t.Data) (hv : v.encode = .ok w)
    : Value.encodeEntries (t.put key v) = .ok (t.put key w) := by
  induction t with
  | nil => simp [Table.put, Value.encodeEntries, hv]
  | cons entry rest ih =>
    have hrest : Table.Data rest := fun e hmem => h e (List.mem_cons_of_mem _ hmem)
    have hentry := (h entry (by simp)).2.encode
    rw [Table.put_cons, Table.put_cons]
    split
    . simp [Value.encodeEntries, hv, hrest.encodeEntries]
    . simp [Value.encodeEntries, hentry, ih hrest]

theorem attributesOf_object {entries : Table Value} (h : entries ≠ [])
    : attributesOf (.object entries)
        =
      (match entries.get? (.text "typeAttributes") with
      | none => .ok entries
      | some v => do
        match ← unwrapNames v with
        | .list names => .ok (entries.put (.text "typeAttributes") (.tuple names))
        | .tuple names => .ok (entries.put (.text "typeAttributes") (.tuple names))
        | _ => .ok entries) := by
  have htruthy : (Value.object entries).truthy = true := by
    cases entries with
    | nil => contradiction
    | cons entry rest => rfl
  unfold attributesOf Value.entriesOrNone
  rw [if_pos htruthy]
  rfl

/--
Attributes are the entries as they are, or with a list of names fixed as a tuple.
-/
theorem attributesOf_eq_ok {raw : Value} {attributes : Table Value} (hraw : raw.Data)
    (h : attributesOf raw = .ok attributes)
    : ∃ entries, raw.entriesOrNone = .ok entries
        ∧ ((attributes = entries ∧ attributesOf (entries.part.getD .null) = .ok entries)
          ∨ ∃ v names, entries.get? (.text "typeAttributes") = some v
              ∧ unwrapNames v = .ok (.list names)
              ∧ attributes = entries.put (.text "typeAttributes") (.tuple names)) := by
  unfold attributesOf at h
  rw [Outcome.bind_eq_ok] at h
  obtain ⟨entries, hentries, h⟩ := h
  refine ⟨entries, hentries, ?_⟩
  split at h
  . next hnone =>
    injection h with h
    subst h
    refine .inl ⟨rfl, ?_⟩
    cases entries with
    | nil => rfl
    | cons entry rest =>
      rw [Table.getD_part_of_ne_nil (by simp), attributesOf_object (by simp), hnone]
  . next v hv =>
    rw [Outcome.bind_eq_ok] at h
    obtain ⟨w, hw, h⟩ := h
    obtain ⟨hwdata, -⟩ := ((hraw.entriesOrNone hentries).get? hv).unwrapNames hw
    split at h
    . next names =>
      injection h with h
      exact .inr ⟨v, names, hv, hw, h.symm⟩
    . cases hwdata
    . next hlist htuple =>
      injection h with h
      subst h
      refine .inl ⟨rfl, ?_⟩
      have hne : entries ≠ [] := by
        rintro rfl
        simp at hv
      rw [Table.getD_part_of_ne_nil hne, attributesOf_object hne, hv]
      simp only [hw, Outcome.ok_bind]

/--
Attributes are written so that reading gives the same attributes again: a tuple of names has become
a list, which becomes the tuple.
-/
theorem exists_encoded_attributes {raw : Value} {attributes : Table Value} (hraw : raw.Data)
    (h : attributesOf raw = .ok attributes)
    : ∃ attributes' : Table Value, Value.encodeEntries attributes = .ok attributes'
        ∧ attributesOf (attributes'.part.getD .null) = .ok attributes := by
  obtain ⟨entries, hentries, h⟩ := attributesOf_eq_ok hraw h
  have hdata := hraw.entriesOrNone hentries
  rcases h with ⟨rfl, hread⟩ | ⟨v, names, hv, hnames, rfl⟩
  . exact ⟨_, hdata.encodeEntries, hread⟩
  . have hencode : (Value.tuple names).encode = .ok (.list names) :=
      ((hdata.get? hv).unwrapNames hnames).1.encode
    refine ⟨_, encodeEntries_put hdata hencode, ?_⟩
    have hne := Table.put_ne_nil entries (.text "typeAttributes") (.list names)
    rw [Table.getD_part_of_ne_nil hne, attributesOf_object hne, Table.get?_put_text]
    simp [unwrapNames, Table.put_put]

theorem exists_encoded_of_parts {info attributes written read : Table Value} {tag content : Value}
    {shape : Shape} {content' : Option Value} (hshape : kinds.shape tag = .ok shape)
    (hinfo : Value.encodeEntries info = .ok info)
    (hattributes : Value.encodeEntries attributes = .ok written)
    (hread : attributesOf (written.part.getD .null) = .ok read)
    (hcontent : Element.encodeContent content = .ok content')
    : ∃ entries : Table Value,
        Element.encode (.mk (shape.kindOf tag) (.object info) (.object attributes) content)
            = .ok (.object entries)
          ∧ entries.Heads kinds tag shape info read ∧ entries.content = content'.getD .null := by
  refine ⟨Table.encoded tag info.part written.part content', ?_, ?_, Table.content_encoded⟩
  . rw [Element.encode_mk hinfo hattributes hcontent, Kinds.tag_of_shape hshape]
    rfl
  . exact Table.heads_encoded hshape (Table.entriesOrNone_part info) hread

theorem exists_encoded {entries info attributes : Table Value} {tag content : Value} {shape : Shape}
    {content' : Option Value} (hdata : entries.Data)
    (heads : entries.Heads kinds tag shape info attributes)
    (hcontent : Element.encodeContent content = .ok content')
    : ∃ entries' : Table Value,
        Element.encode (.mk (shape.kindOf tag) (.object info) (.object attributes) content)
            = .ok (.object entries')
          ∧ entries'.Heads kinds tag shape info attributes
          ∧ entries'.content = content'.getD .null := by
  have hinfo := (hdata.getD.entriesOrNone heads.info_eq).encodeEntries
  obtain ⟨attributes', hattributes, hread⟩ :=
    exists_encoded_attributes hdata.getD heads.attributes_eq
  exact exists_encoded_of_parts heads.shape_eq hinfo hattributes hread hcontent

theorem exists_encodeContent_of_data {content : Value} (h : content.Data)
    : ∃ content', Element.encodeContent content = .ok content' ∧ content'.getD .null = content := by
  cases h with
  | null => exact ⟨none, rfl, rfl⟩
  | list hitems =>
    have := (Value.Data.list hitems).encode
    exact ⟨some _, by simp [Element.encodeContent, this], rfl⟩
  | object hkeys hvalues =>
    have := (Value.Data.object hkeys hvalues).encode
    exact ⟨some _, by simp [Element.encodeContent, this], rfl⟩
  | _ => exact ⟨some _, rfl, rfl⟩

theorem content_data {entries : Table Value} (h : entries.Data) : entries.content.Data := by
  exact h.getD

theorem exists_encoded_items (p : Value → Element → Prop) {items : List Value}
    {elements : List Element} (hlength : items.length = elements.length)
    (h : ∀ pair ∈ items.zip elements, ∃ d, pair.2.encode = .ok d ∧ p d pair.2)
    : ∃ items', Value.encodeItems (elements.map .element) = .ok items'
        ∧ items'.length = elements.length ∧ ∀ pair ∈ items'.zip elements, p pair.1 pair.2 := by
  induction elements generalizing items with
  | nil => exact ⟨[], rfl, rfl, by simp⟩
  | cons e es ih =>
    cases items with
    | nil => simp at hlength
    | cons x xs =>
      obtain ⟨d, hencode, hd⟩ := h (x, e) (by simp)
      obtain ⟨items', hitems, hlength', hrest⟩ := ih (by simpa using hlength) (by
        intro pair hmem
        exact h pair (List.mem_cons_of_mem _ hmem))
      refine ⟨d :: items', ?_, by simpa using hlength', ?_⟩
      . simp [Value.encodeItems, Value.encode, hencode, hitems]
      . intro pair hmem
        rw [List.zip_cons_cons, List.mem_cons] at hmem
        rcases hmem with rfl | hmem
        . exact hd
        . exact hrest pair hmem

theorem exists_encoded_all (p : Value → Prop) {items : List Value} {elements : List Element}
    (hlength : items.length = elements.length)
    (h : ∀ pair ∈ items.zip elements, ∃ d, pair.2.encode = .ok d ∧ p d)
    : ∃ items', Value.encodeItems (elements.map .element) = .ok items' ∧ ∀ d ∈ items', p d := by
  obtain ⟨items', hitems, hlength', hall⟩ := exists_encoded_items (fun d _ => p d) hlength h
  refine ⟨items', hitems, fun d hd => ?_⟩
  rw [← List.map_fst_zip (Nat.le_of_eq hlength'), List.mem_map] at hd
  obtain ⟨pair, hmem, rfl⟩ := hd
  exact hall pair hmem

theorem exists_encode_of_reads {d : Value} {e : Element} (h : d.Reads kinds e) (hd : d.Data)
    : ∃ d', e.encode = .ok d' ∧ d'.Reads kinds e := by
  induction h with
  | @member entries fields _ _ _ _ keyElement heads content_eq key_eq _ key_kind _ ih =>
    rw [data_object] at hd
    have hfields := content_data hd
    rw [content_eq, data_object] at hfields
    obtain ⟨key', hkey, hkeyreads⟩ := ih (hfields.get? key_eq)
    have hcontent := Element.encodeContent_member hkey
    obtain ⟨entries', hencode, heads', content_eq'⟩ := exists_encoded hd heads hcontent
    refine ⟨_, hencode, .member heads' content_eq' ?_ hkeyreads key_kind ?_⟩
    . simp [Table.get?_cons]
    . simp [Table.get?_cons, partEntry]
  | @memberWithValue entries fields _ _ _ _ _ keyElement valueElement heads content_eq key_eq _
    key_kind value_eq _ ih ih' =>
    rw [data_object] at hd
    have hfields := content_data hd
    rw [content_eq, data_object] at hfields
    obtain ⟨key', hkey, hkeyreads⟩ := ih (hfields.get? key_eq)
    obtain ⟨value', hvalue, hvaluereads⟩ := ih' (hfields.get? value_eq)
    have hcontent := Element.encodeContent_memberWithValue hkey hvalue
    obtain ⟨entries', hencode, heads', content_eq'⟩ := exists_encoded hd heads hcontent
    refine ⟨_, hencode, .memberWithValue heads' content_eq' ?_ hkeyreads key_kind ?_ hvaluereads⟩
    . simp [Table.get?_cons]
    . simp [Table.get?_cons, partEntry]
  | @ref _ _ _ _ _ href heads _ _ =>
    rw [data_object] at hd
    have hcontent : Element.encodeContent (.ref href)
        = .ok (some (.object [(.text "href", href)])) := by
      rfl
    obtain ⟨entries', hencode, heads', content_eq'⟩ := exists_encoded hd heads hcontent
    refine ⟨_, hencode, .ref heads' content_eq' ?_⟩
    simp [Table.get?_cons]
  | @raw entries _ _ _ shape heads takes =>
    rw [data_object] at hd
    obtain ⟨content', hcontent, hgetD⟩ := exists_encodeContent_of_data (content_data hd)
    obtain ⟨entries', hencode, heads', content_eq'⟩ := exists_encoded hd heads hcontent
    rw [hgetD] at content_eq'
    rw [← content_eq'] at takes hencode ⊢
    exact ⟨_, hencode, .raw heads' takes⟩
  | empty heads _ =>
    rw [data_object] at hd
    have hcontent : Element.encodeContent (.tuple []) = .ok (some (.list [])) := by
      rfl
    obtain ⟨entries', hencode, heads', content_eq'⟩ := exists_encoded hd heads hcontent
    -- The empty content is written as an empty list, and is read as a sequence from then on.
    have hreads := @Value.Reads.items kinds entries' _ _ _ _ [] [] heads' trivial content_eq' rfl
      (by simp)
    exact ⟨_, hencode, hreads⟩
  | @items entries _ _ _ shape items elements heads has_items content_eq length_eq _ ih =>
    rw [data_object] at hd
    have hitems := content_data hd
    rw [content_eq, data_list] at hitems
    obtain ⟨items', hencoded, hlength, hreads⟩ := exists_encoded_items (Reads kinds) length_eq (by
      intro pair hmem
      exact ih pair hmem (hitems _ (List.of_mem_zip hmem).1))
    have hcontent := Element.encodeContent_items hencoded
    obtain ⟨entries', hencode, heads', content_eq'⟩ := exists_encoded hd heads hcontent
    exact ⟨_, hencode, .items heads' has_items content_eq' hlength hreads⟩

/--
The data that is written for the element that some data stands for.
-/
def normalize (kinds : Kinds) (d : Value) : Except Fault Value := do
  (← Value.decode kinds d).encode

theorem normalize_eq_ok {d d' : Value}
    : d.normalize kinds = .ok d' ↔ ∃ e, Value.decode kinds d = .ok e ∧ e.encode = .ok d' := by
  rw [normalize, Outcome.bind_eq_ok]

/--
An element that was read from plain data is written, what is written is read as the same element,
and is its own normal form.
-/
theorem decode_encode {d : Value} {e : Element} (hd : d.Data) (h : Value.decode kinds d = .ok e)
    : ∃ d', e.encode = .ok d' ∧ Value.decode kinds d' = .ok e ∧ d'.normalize kinds = .ok d' := by
  obtain ⟨d', hencode, hreads⟩ := exists_encode_of_reads (reads_of_decode h) hd
  have hdecode := decode_of_reads hreads
  exact ⟨d', hencode, hdecode, normalize_eq_ok.2 ⟨e, hdecode, hencode⟩⟩

/--
A page with its identifier in a list of pairs and its type attributes in an array element.
-/
def wrappedPage : Value :=
  .object [(.text "element", .text "page"),
    (.text "meta", .list [.list [.text "id", .text "Start"]]),
    (.text "attributes", .object [(.text "typeAttributes", .object [
      (.text "element", .text "array"),
      (.text "content", .list [.object [(.text "content", .text "required")]])])]),
    (.text "content", .list [.object [(.text "element", .text "User")]])]

def page : Element :=
  .mk (.custom "PageElement" "page") (.object [(.text "id", .text "Start")])
    (.object [(.text "typeAttributes", .tuple [.text "required"])])
    (.tuple [.element (.mk (.named (.text "User")) (.object []) (.object []) .null)])

theorem decode_encode_wrappedPage
    : wrappedPage.Data
        ∧ Value.decode (Kinds.builtIn ++ [.custom "PageElement" "page"]) wrappedPage = .ok page
        ∧ ∃ d', page.encode = .ok d'
            ∧ Value.decode (Kinds.builtIn ++ [.custom "PageElement" "page"]) d' = .ok page
            ∧ d'.normalize (Kinds.builtIn ++ [.custom "PageElement" "page"]) = .ok d' := by
  have hdata : wrappedPage.Data := by
    simp [wrappedPage, data_object, data_list, Table.Data, Data.text]
  have hdecode :
      Value.decode (Kinds.builtIn ++ [.custom "PageElement" "page"]) wrappedPage = .ok page := by
    rfl
  exact ⟨hdata, hdecode, decode_encode hdata hdecode⟩

end Value

end ApiElements
