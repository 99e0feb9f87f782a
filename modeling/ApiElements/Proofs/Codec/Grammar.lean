import ApiElements.Proofs.Codec.Registered
import ApiElements.Proofs.Codec.RoundTrip
import ApiElements.Proofs.Payload.Foreseen

/-!
This module contains the grammar of the data that stands for elements, tag by tag, and that reading
accepts exactly this data and fails in a foreseen way on all other data.
-/

namespace ApiElements

open Kinds (Shape literalTags)

/--
Data is that of an element, by its tag and what it has as its content.
-/
inductive Value.Grammatical (kinds : Kinds) : Value → Prop where
  | member {t fields : Table Value} {key : Value}
    (tag : t.get? (.text "element") = some (.text "member")) (content : t.content = .object fields)
    (key_eq : fields.get? (.text "key") = some key) (key_grammatical : Grammatical kinds key)
    (key_tag : key.under? "element" = some (.text "string"))
    (value : (fields.get? (.text "value")).getD .null = .null) : Grammatical kinds (.object t)
  | memberWithValue {t fields : Table Value} {key value : Value}
    (tag : t.get? (.text "element") = some (.text "member")) (content : t.content = .object fields)
    (key_eq : fields.get? (.text "key") = some key) (key_grammatical : Grammatical kinds key)
    (key_tag : key.under? "element" = some (.text "string"))
    (value_eq : fields.get? (.text "value") = some value)
    (value_grammatical : Grammatical kinds value) : Grammatical kinds (.object t)
  | ref {t fields : Table Value} {href : Value}
    (tag : t.get? (.text "element") = some (.text "ref")) (content : t.content = .object fields)
    (href_eq : fields.get? (.text "href") = some href) : Grammatical kinds (.object t)
  | literal {t : Table Value} {tag : String} (tag_eq : t.get? (.text "element") = some (.text tag))
    (literal : tag ∈ literalTags) (no_list : ∀ items, t.content ≠ .list items)
    (no_object : ∀ fields, t.content ≠ .object fields) : Grammatical kinds (.object t)
  | empty {t : Table Value} {tag : String} (tag_eq : t.get? (.text "element") = some (.text tag))
    (sequence : kinds.SequenceTag tag) (content : t.content = .null) : Grammatical kinds (.object t)
  | items {t : Table Value} {tag : String} {items : List Value}
    (tag_eq : t.get? (.text "element") = some (.text tag))
    (nests : kinds.SequenceTag tag ∨ kinds.ReferenceTag tag) (content : t.content = .list items)
    (items_grammatical : ∀ x ∈ items, Grammatical kinds x) : Grammatical kinds (.object t)
  | extension {t : Table Value} {tag : String}
    (tag_eq : t.get? (.text "element") = some (.text tag)) (reference : kinds.ReferenceTag tag)
    (no_list : ∀ items, t.content ≠ .list items) : Grammatical kinds (.object t)

/--
An object has a text for a tag if it has one, descriptive data and attributes that are objects if
they are there, and type attributes that are not spelled out as an array element.
-/
structure Table.Ordinary (t : Table Value) : Prop where
  tag : ∀ tag, t.get? (.text "element") = some tag → ∃ s : String, tag = .text s
  info : (t.get? (.text "meta")).getD .null = .null
    ∨ ∃ info, (t.get? (.text "meta")).getD .null = .object info
  attributes : (t.get? (.text "attributes")).getD .null = .null
    ∨ ∃ attributes, (t.get? (.text "attributes")).getD .null = .object attributes
  names : ∀ attributes names : Table Value,
    (t.get? (.text "attributes")).getD .null = .object attributes →
    attributes.get? (.text "typeAttributes") = some (.object names) →
    names.get? (.text "element") ≠ some (.text "array")

namespace Value

variable {kinds : Kinds} {t : Table Value} {v d : Value} {e : Element}

theorem optional_of_object (h : v = .null ∨ ∃ u, v = .object u) : v.Optional := by
  rcases h with rfl | h
  . exact .inl rfl
  . exact .inr h

end Value

theorem Table.Ordinary.headed {t : Table Value} (h : t.Ordinary) : t.Headed where
  tag := by
    intro tag htag
    obtain ⟨s, rfl⟩ := h.tag tag htag
    rfl
  info := Value.optional_of_object h.info
  attributes := Value.optional_of_object h.attributes
  names := by
    rintro attributes names hattributes hnames u rfl harray
    exact absurd harray (h.names attributes u hattributes hnames)

namespace Value

variable {kinds : Kinds} {t fields : Table Value} {d : Value} {e : Element}

def AllOrdinary (d : Value) : Prop :=
  ∀ t : Table Value, d.Parses (.object t) → t.Ordinary

theorem AllOrdinary.self (h : (Value.object t).AllOrdinary) : t.Ordinary := by
  exact h t (.self _)

theorem AllOrdinary.item (h : (Value.object t).AllOrdinary) {items : List Value}
    (hcontent : t.content = .list items) {x : Value} (hx : x ∈ items) : x.AllOrdinary := by
  exact fun u hu => h u (.item hcontent hx hu)

theorem AllOrdinary.field (h : (Value.object t).AllOrdinary) (hcontent : t.content = .object fields)
    {name : String} {x : Value} (hx : fields.get? (.text name) = some x) : x.AllOrdinary := by
  exact fun u hu => h u (.field hcontent hx hu)

section Sound

variable {info attributes : Table Value} {tag : Value} {shape : Shape}

theorem exists_tag (hkinds : kinds.Registered) (ht : t.Ordinary)
    (heads : t.Heads kinds tag shape info attributes)
    : ∃ s : String, t.get? (.text "element") = some (.text s) ∧ shape.Suits kinds s := by
  obtain ⟨s, rfl⟩ := ht.tag tag heads.tag_eq
  exact ⟨s, heads.tag_eq, hkinds.suits_of_shape heads.shape_eq⟩

theorem tag_of_string (h : d.Reads kinds e) (hkind : e.kind = .string)
    : d.under? "element" = some (.text "string") := by
  have hheads : ∀ {t info attributes : Table Value} {tag : Value} {shape : Shape},
      t.Heads kinds tag shape info attributes → shape.kindOf tag = .string →
      (Value.object t).under? "element" = some (.text "string") := by
    intro t info attributes tag shape heads hkind
    have htag := @Kinds.tag_of_shape _ _ .null .null .null _ heads.shape_eq
    rw [hkind] at htag
    rw [under?_object, heads.tag_eq, ← htag]
    rfl
  cases h with
  | raw heads takes => exact hheads heads hkind
  | empty heads _ => exact hheads heads hkind
  | items heads _ _ _ _ => exact hheads heads hkind
  | _ => contradiction

theorem grammatical_of_reads (hkinds : kinds.Registered) (h : d.Reads kinds e) (hd : d.AllOrdinary)
    : d.Grammatical kinds := by
  induction h with
  | member heads content_eq key_eq key_reads key_kind value_eq ih =>
    obtain ⟨s, htag, rfl⟩ := exists_tag hkinds hd.self heads
    exact .member htag content_eq key_eq (ih (hd.field content_eq key_eq))
      (tag_of_string key_reads key_kind) value_eq
  | memberWithValue heads content_eq key_eq key_reads key_kind value_eq _ ih ih' =>
    obtain ⟨s, htag, rfl⟩ := exists_tag hkinds hd.self heads
    exact .memberWithValue htag content_eq key_eq (ih (hd.field content_eq key_eq))
      (tag_of_string key_reads key_kind) value_eq (ih' (hd.field content_eq value_eq))
  | ref heads content_eq href_eq =>
    obtain ⟨s, htag, rfl⟩ := exists_tag hkinds hd.self heads
    exact .ref htag content_eq href_eq
  | @raw _ _ _ _ shape heads takes =>
    obtain ⟨s, htag, hsuits⟩ := exists_tag hkinds hd.self heads
    cases shape with
    | literal kind => exact .literal htag hsuits takes.1 takes.2
    | reference => exact .extension htag hsuits takes
    | _ => exact takes.elim
  | empty heads content_eq =>
    obtain ⟨s, htag, hsuits⟩ := exists_tag hkinds hd.self heads
    exact .empty htag hsuits content_eq
  | @items _ _ _ _ shape items elements heads has_items content_eq length_eq _ ih =>
    obtain ⟨s, htag, hsuits⟩ := exists_tag hkinds hd.self heads
    have hnests : kinds.SequenceTag s ∨ kinds.ReferenceTag s := by
      cases shape with
      | sequence kind => exact .inl hsuits
      | reference => exact .inr hsuits
      | _ => exact has_items.elim
    refine .items htag hnests content_eq ?_
    intro x hx
    obtain ⟨i, hi, rfl⟩ := List.getElem_of_mem hx
    have hi' : i < elements.length := length_eq ▸ hi
    have hmem : (items[i], elements[i]) ∈ items.zip elements := by
      rw [List.mem_iff_getElem]
      exact ⟨i, by rw [List.length_zip]; omega, List.getElem_zip⟩
    exact ih _ hmem (hd.item content_eq hx)

end Sound

section Complete

theorem exists_entriesOrNone {v : Value} (h : v = .null ∨ ∃ u, v = .object u)
    : ∃ entries, v.entriesOrNone = .ok entries := by
  rcases h with rfl | ⟨u, rfl⟩
  . exact ⟨[], rfl⟩
  . unfold entriesOrNone
    split
    . exact ⟨_, rfl⟩
    . exact ⟨_, rfl⟩

theorem unwrapNames_of_ne_array {v : Value} (hbytes : ∀ data, v ≠ .bytes data)
    (h : ∀ names : Table Value, v = .object names →
      names.get? (.text "element") ≠ some (.text "array")) : unwrapNames v = .ok v := by
  unfold unwrapNames
  split
  . next names =>
    rw [if_neg]
    rw [text_same]
    intro harray
    apply h names rfl
    cases hfound : Table.get? names (.text "element") with
    | none => simp [hfound] at harray
    | some tag => simpa [hfound] using harray
  . next data => exact absurd rfl (hbytes data)
  . rfl

theorem exists_attributesOf (h : t.Ordinary)
    : ∃ attributes, attributesOf ((t.get? (.text "attributes")).getD .null) = .ok attributes := by
  rcases h.attributes with hnull | ⟨raw, hraw⟩
  . rw [hnull]
    exact ⟨[], rfl⟩
  . have hnames := h.names raw
    rw [hraw] at hnames ⊢
    cases hempty : raw with
    | nil => exact ⟨[], rfl⟩
    | cons entry rest =>
      rw [← hempty, attributesOf_object (by simp [hempty])]
      split
      . exact ⟨_, rfl⟩
      . next v hv =>
        have hunwrap : ∃ w, unwrapNames v = .ok w := by
          by_cases hbytes : ∃ data, v = .bytes data
          . obtain ⟨data, rfl⟩ := hbytes
            exact ⟨_, rfl⟩
          . refine ⟨v, unwrapNames_of_ne_array (fun data heq => hbytes ⟨data, heq⟩) ?_⟩
            rintro names rfl
            exact hnames names rfl hv
        obtain ⟨w, hw⟩ := hunwrap
        rw [hw, Outcome.ok_bind]
        split
        . exact ⟨_, rfl⟩
        . exact ⟨_, rfl⟩
        . exact ⟨_, rfl⟩

theorem exists_heads (ht : t.Ordinary) {tag : String} {shape : Shape}
    (htag : t.get? (.text "element") = some (.text tag)) (hshape : kinds.shape (.text tag) = .ok shape)
    : ∃ info attributes, t.Heads kinds (.text tag) shape info attributes := by
  obtain ⟨info, hinfo⟩ := exists_entriesOrNone ht.info
  obtain ⟨attributes, hattributes⟩ := exists_attributesOf ht
  exact ⟨info, attributes, htag, hshape, hinfo, hattributes⟩

theorem kind_of_tag (hkinds : kinds.Registered) (h : d.Reads kinds e)
    (htag : d.under? "element" = some (.text "string")) : e.kind = .string := by
  have hheads : ∀ {t info attributes : Table Value} {tag : Value} {shape : Shape},
      t.Heads kinds tag shape info attributes →
      (Value.object t).under? "element" = some (.text "string") → shape = .literal .string := by
    intro t info attributes tag shape heads htag
    rw [under?_object, heads.tag_eq, Option.some.injEq] at htag
    have hshape := heads.shape_eq
    rw [htag, hkinds.shape_string, Except.ok.injEq] at hshape
    exact hshape.symm
  cases h with
  | raw heads takes =>
    rw [hheads heads htag]
    rfl
  | items heads has_items _ _ _ =>
    rw [hheads heads htag] at has_items
    contradiction
  | member heads => exact absurd (hheads heads htag) (by simp)
  | memberWithValue heads => exact absurd (hheads heads htag) (by simp)
  | ref heads => exact absurd (hheads heads htag) (by simp)
  | empty heads => exact absurd (hheads heads htag) (by simp)

theorem exists_reads_items {items : List Value} (h : ∀ x ∈ items, ∃ e, x.Reads kinds e)
    : ∃ elements : List Element, items.length = elements.length
        ∧ ∀ pair ∈ items.zip elements, pair.1.Reads kinds pair.2 := by
  induction items with
  | nil => exact ⟨[], rfl, by simp⟩
  | cons x rest ih =>
    obtain ⟨e, he⟩ := h x (by simp)
    obtain ⟨elements, hlength, hread⟩ := ih fun y hy => h y (List.mem_cons_of_mem _ hy)
    refine ⟨e :: elements, by simpa using hlength, ?_⟩
    intro pair hmem
    rw [List.zip_cons_cons, List.mem_cons] at hmem
    rcases hmem with rfl | hmem
    . exact he
    . exact hread pair hmem

theorem exists_reads_of_grammatical (hkinds : kinds.Registered) (h : d.Grammatical kinds)
    (hd : d.AllOrdinary) : ∃ e, d.Reads kinds e := by
  induction h with
  | member tag content key_eq _ key_tag value ih =>
    obtain ⟨info, attributes, heads⟩ := exists_heads hd.self tag kinds.shape_member
    obtain ⟨key, hkey⟩ := ih (hd.field content key_eq)
    exact ⟨_, .member heads content key_eq hkey (kind_of_tag hkinds hkey key_tag) value⟩
  | memberWithValue tag content key_eq _ key_tag value_eq _ ih ih' =>
    obtain ⟨info, attributes, heads⟩ := exists_heads hd.self tag kinds.shape_member
    obtain ⟨key, hkey⟩ := ih (hd.field content key_eq)
    obtain ⟨value, hvalue⟩ := ih' (hd.field content value_eq)
    exact ⟨_, .memberWithValue heads content key_eq hkey (kind_of_tag hkinds hkey key_tag) value_eq
      hvalue⟩
  | ref tag content href_eq =>
    obtain ⟨info, attributes, heads⟩ := exists_heads hd.self tag kinds.shape_ref
    exact ⟨_, .ref heads content href_eq⟩
  | literal tag_eq literal no_list no_object =>
    obtain ⟨kind, hshape⟩ := hkinds.exists_literal literal
    obtain ⟨info, attributes, heads⟩ := exists_heads hd.self tag_eq hshape
    exact ⟨_, .raw heads ⟨no_list, no_object⟩⟩
  | empty tag_eq sequence content =>
    obtain ⟨kind, hshape⟩ := hkinds.exists_sequence sequence
    obtain ⟨info, attributes, heads⟩ := exists_heads hd.self tag_eq hshape
    exact ⟨_, .empty heads content⟩
  | items tag_eq nests content _ ih =>
    obtain ⟨elements, hlength, hread⟩ :=
      exists_reads_items fun x hx => ih x hx (hd.item content hx)
    rcases nests with sequence | reference
    . obtain ⟨kind, hshape⟩ := hkinds.exists_sequence sequence
      obtain ⟨info, attributes, heads⟩ := exists_heads hd.self tag_eq hshape
      exact ⟨_, .items heads trivial content hlength hread⟩
    . obtain ⟨info, attributes, heads⟩ :=
        exists_heads hd.self tag_eq (hkinds.shape_reference reference)
      exact ⟨_, .items heads trivial content hlength hread⟩
  | extension tag_eq reference no_list =>
    obtain ⟨info, attributes, heads⟩ :=
      exists_heads hd.self tag_eq (hkinds.shape_reference reference)
    exact ⟨_, .raw heads no_list⟩

end Complete

theorem category_of_isDecodeFault {fault : Fault} (h : Payload.isDecodeFault fault = true)
    : fault.category = .key ∨ fault.category = .value := by
  unfold Payload.isDecodeFault at h
  split at h
  . next hkey => exact .inl hkey
  . next hvalue => exact .inr hvalue
  . contradiction

/--
Data whose objects are ordinary is read as an element exactly if it is grammatical; reading any
other such data fails because an entry is missing or a value is malformed.
-/
theorem decode_grammatical (hkinds : kinds.Registered) (hd : d.AllOrdinary)
    : ((∃ e, Value.decode kinds d = .ok e) ↔ d.Grammatical kinds)
        ∧ (¬ d.Grammatical kinds → ∃ fault, Value.decode kinds d = .error fault
            ∧ (fault.category = .key ∨ fault.category = .value)) := by
  have hiff : (∃ e, Value.decode kinds d = .ok e) ↔ d.Grammatical kinds := by
    simp only [decode_eq_ok_iff]
    constructor
    . rintro ⟨e, he⟩
      exact grammatical_of_reads hkinds he hd
    . intro h
      exact exists_reads_of_grammatical hkinds h hd
  refine ⟨hiff, ?_⟩
  intro hnot
  cases hdecode : Value.decode kinds d with
  | ok e => exact absurd (hiff.1 ⟨e, hdecode⟩) hnot
  | error fault =>
    have hforeseen := foreseen_decode (fun t ht => (hd t ht).headed) fault hdecode
    exact ⟨fault, rfl, category_of_isDecodeFault hforeseen⟩

section Chapter

theorem allOrdinary_object (ht : t.Ordinary)
    (hitems : ∀ items, t.content = .list items → ∀ x ∈ items, x.AllOrdinary)
    (hfields : ∀ fields : Table Value, t.content = .object fields →
      ∀ entry ∈ fields, entry.2.AllOrdinary) : (Value.object t).AllOrdinary := by
  intro u hu
  cases hu with
  | self => exact ht
  | item hcontent hx hparses => exact hitems _ hcontent _ hx u hparses
  | field hcontent hx hparses =>
    obtain ⟨k, hmem, -⟩ := Table.mem_of_get? hx
    exact hfields _ hcontent _ hmem u hparses

def tagged (tag : String) (content : Value) : Value :=
  .object [(.text "element", .text tag), (.text "content", content)]

theorem allOrdinary_tagged (tag : String) {content : Value}
    (hitems : ∀ items, content = .list items → ∀ x ∈ items, x.AllOrdinary)
    (hfields : ∀ fields, content = .object fields → ∀ entry ∈ fields, entry.2.AllOrdinary)
    : (tagged tag content).AllOrdinary := by
  have hcontent : Table.content [(.text "element", .text tag), (.text "content", content)]
      = content := by
    simp [Table.content, Table.get?_cons]
  apply allOrdinary_object
  . constructor
    all_goals simp [Table.get?_cons]
  . rw [hcontent]
    exact hitems
  . rw [hcontent]
    exact hfields

def chapter (fields : List (Value × Value)) : Value :=
  tagged "chapter" (.list [tagged "member" (.object fields)])

def title : List (Value × Value) :=
  [(.text "key", tagged "string" (.text "title"))]

theorem allOrdinary_chapter {fields : List (Value × Value)}
    (h : ∀ entry ∈ fields, entry.2.AllOrdinary) : (chapter fields).AllOrdinary := by
  have hmember : (tagged "member" (.object fields)).AllOrdinary := by
    apply allOrdinary_tagged
    . simp
    . rintro _ ⟨⟩
      exact h
  apply allOrdinary_tagged
  . rintro items ⟨⟩ x hx
    rw [List.mem_singleton] at hx
    rw [hx]
    exact hmember
  . simp

def chapterKinds : Kinds :=
  Kinds.builtIn ++ [.custom "ChapterElement" "chapter"]

theorem decode_grammatical_chapter
    : chapterKinds.Registered ∧ (chapter title).AllOrdinary ∧ (chapter []).AllOrdinary
        ∧ (chapter title).Grammatical chapterKinds ∧ ¬ (chapter []).Grammatical chapterKinds
        ∧ ∃ fault, Value.decode chapterKinds (chapter []) = .error fault
            ∧ (fault.category = .key ∨ fault.category = .value) := by
  have hkinds : chapterKinds.Registered := by
    exact @Kinds.Registered.register _ _ "ChapterElement" (some "chapter") .start rfl
  have htitle : (chapter title).AllOrdinary := by
    apply allOrdinary_chapter
    intro entry hentry
    rw [title, List.mem_singleton] at hentry
    rw [hentry]
    exact allOrdinary_tagged "string" (by simp) (by simp)
  have hempty : (chapter []).AllOrdinary := allOrdinary_chapter (by simp)
  have hgrammatical := (decode_grammatical hkinds htitle).1.1 ⟨_, rfl⟩
  have hnot : ¬ (chapter []).Grammatical chapterKinds := by
    intro h
    obtain ⟨e, he⟩ := (decode_grammatical hkinds hempty).1.2 h
    have herror : Value.decode chapterKinds (chapter []) = .error .missingKey := by rfl
    rw [herror] at he
    contradiction
  exact ⟨hkinds, htitle, hempty, hgrammatical, hnot, (decode_grammatical hkinds hempty).2 hnot⟩

end Chapter

end Value

end ApiElements
