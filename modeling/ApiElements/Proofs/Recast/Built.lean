import ApiElements.Proofs.Codec.Registered
import ApiElements.Proofs.Codec.RoundTrip
import ApiElements.Proofs.Compile.Termination
import ApiElements.Proofs.Recast.Compiled
import ApiElements.Proofs.Value.Sorted

/-!
This module contains trees that are put together by hand from the built-in kinds, and their round trip
through plain data: what is read back has tuples for the collections of type attributes, and is
compiled to the same answers, except that elements in these have tuples, too, and that equal schemas
of the items of an array may be folded into one where they were not before, or the other way round.
-/

namespace ApiElements

open Kinds (Shape)

/--
Attributes that are put together by hand: plain data, apart from the type attributes, which are a
collection of texts.
-/
structure Table.BuiltAttributes (t : Table Value) : Prop where
  keys_nodup : t.keys.Nodup
  names : ∀ entry ∈ t, entry.1 = .text "typeAttributes" → ∃ names, entry.2.Collects names
  others : ∀ entry ∈ t, entry.1 ≠ .text "typeAttributes" → entry.1.Data ∧ entry.2.Data

/--
A tree that is put together by hand from the built-in kinds. The tags of references are not those of
other kinds in a table of kinds.
-/
inductive Element.Built (kinds : Kinds) : Element → Prop where
  | literal {kind : Kind} {info attributes : Table Value} {content : Value} (info_data : info.Data)
    (attributes_built : attributes.BuiltAttributes)
    (kind_eq : kind = .boolean ∨ kind = .string ∨ kind = .number) (content_data : content.Data)
    (no_list : ∀ items, content ≠ .list items) (no_object : ∀ entries, content ≠ .object entries)
    : Built kinds (.mk kind (.object info) (.object attributes) content)
  | sequence {kind : Kind} {info attributes : Table Value} {items : List Element}
    (info_data : info.Data) (attributes_built : attributes.BuiltAttributes)
    (kind_eq : kind = .enum ∨ kind = .array ∨ kind = .object ∨ kind = .option ∨ kind = .select)
    (items_built : ∀ x ∈ items, Built kinds x)
    : Built kinds (.mk kind (.object info) (.object attributes) (.tuple (items.map .element)))
  | member {info attributes : Table Value} {key : Element} (info_data : info.Data)
    (attributes_built : attributes.BuiltAttributes) (key_built : Built kinds key)
    (key_kind : key.kind = .string)
    : Built kinds (.mk .member (.object info) (.object attributes) (.member (.element key) .null))
  | memberWithValue {info attributes : Table Value} {key value : Element} (info_data : info.Data)
    (attributes_built : attributes.BuiltAttributes) (key_built : Built kinds key)
    (key_kind : key.kind = .string) (value_built : Built kinds value)
    : Built kinds
      (.mk .member (.object info) (.object attributes) (.member (.element key) (.element value)))
  | ref {info attributes : Table Value} {href : Value} (info_data : info.Data)
    (attributes_built : attributes.BuiltAttributes) (href_data : href.Data)
    : Built kinds (.mk .ref (.object info) (.object attributes) (.ref href))
  | reference {name : String} {info attributes : Table Value} {content : Value}
    (info_data : info.Data) (attributes_built : attributes.BuiltAttributes)
    (name_free : kinds.ReferenceTag name) (content_data : content.Data)
    (no_list : ∀ items, content ≠ .list items)
    : Built kinds (.mk (.named (.text name)) (.object info) (.object attributes) content)
  | extension {name : String} {info attributes : Table Value} {items : List Element}
    (info_data : info.Data) (attributes_built : attributes.BuiltAttributes)
    (name_free : kinds.ReferenceTag name) (items_built : ∀ x ∈ items, Built kinds x)
    : Built kinds
      (.mk (.named (.text name)) (.object info) (.object attributes) (.tuple (items.map .element)))

section Names

namespace Value

variable {v : Value} {names : List String}

theorem Collects.exists_encode (h : v.Collects names)
    : ∃ names' : List String, v.encode = .ok (.list (names'.map .text)) ∧ names.Perm names' := by
  have hitems : Value.encodeItems (names.map .text) = .ok (names.map .text) := by
    apply encodeItems_of_fixed
    intro x hx
    obtain ⟨s, -, rfl⟩ := List.mem_map.1 hx
    rfl
  cases h with
  | list => exact ⟨names, by rw [Value.encode, hitems, Outcome.map_ok], .refl _⟩
  | tuple => exact ⟨names, by rw [Value.encode, hitems, Outcome.map_ok], .refl _⟩
  | set =>
    obtain ⟨names', hsort, hperm, -⟩ := exists_sort names
    exact ⟨names', by rw [Value.encode, hitems, Outcome.ok_bind, hsort, Outcome.map_ok], hperm⟩

end Value

end Names

section Heads

variable {kinds : Kinds} {info attributes : Table Value}

theorem Table.BuiltAttributes.data_or_put (h : attributes.BuiltAttributes)
    : (attributes.Data ∧ attributes.get? (.text "typeAttributes") = none)
        ∨ ∃ (base : Table Value) (v : Value) (names : List String), base.Data ∧ v.Collects names
            ∧ attributes = base.put (.text "typeAttributes") v := by
  induction attributes with
  | nil => exact .inl ⟨by simp [Table.Data], rfl⟩
  | cons entry rest ih =>
    obtain ⟨hnodup, hnames, hothers⟩ := h
    rw [Table.keys_cons, List.nodup_cons] at hnodup
    have hrest : Table.BuiltAttributes rest :=
      ⟨hnodup.2, fun e he => hnames e (List.mem_cons_of_mem _ he),
        fun e he => hothers e (List.mem_cons_of_mem _ he)⟩
    by_cases hkey : entry.1 = .text "typeAttributes"
    . obtain ⟨names, hcollects⟩ := hnames entry (by simp) hkey
      -- Keys are distinct, so that all that comes later is plain data.
      have hdata : Table.Data rest := by
        intro e he
        apply hothers e (List.mem_cons_of_mem _ he)
        intro heq
        exact hnodup.1 (hkey ▸ heq ▸ List.mem_map_of_mem he)
      refine .inr ⟨(entry.1, .null) :: rest, entry.2, names, ?_, hcollects, ?_⟩
      . intro e he
        rcases List.mem_cons.1 he with rfl | he
        . exact ⟨hkey ▸ .text _, .null⟩
        . exact hdata e he
      . rw [Table.put_cons, if_pos (Value.text_same.2 hkey)]
    . have hentry := hothers entry (by simp) hkey
      rcases ih hrest with ⟨hdata, hget⟩ | ⟨base, v, names, hbase, hcollects, heq⟩
      . refine .inl ⟨List.forall_mem_cons.2 ⟨hentry, hdata⟩, ?_⟩
        rw [Table.get?_cons, if_neg (mt Value.text_same.1 hkey), hget]
      . refine .inr ⟨entry :: base, v, names, List.forall_mem_cons.2 ⟨hentry, hbase⟩, hcollects, ?_⟩
        rw [Table.put_cons, if_neg (mt Value.text_same.1 hkey), heq]

theorem Table.BuiltAttributes.exists_encoded (h : attributes.BuiltAttributes)
    : ∃ written read : Table Value, Value.encodeEntries attributes = .ok written
        ∧ attributesOf (written.part.getD .null) = .ok read
        ∧ (Value.object attributes).AttributesRecast (.object read) := by
  rcases h.data_or_put with ⟨hdata, hget⟩ | ⟨base, v, names, hbase, hcollects, rfl⟩
  . refine ⟨attributes, attributes, hdata.encodeEntries, ?_, .refl _⟩
    cases attributes with
    | nil => rfl
    | cons entry rest =>
      rw [Table.getD_part_of_ne_nil (by simp), Value.attributesOf_object (by simp), hget]
  . obtain ⟨names', hencode, hperm⟩ := hcollects.exists_encode
    have hne := Table.put_ne_nil base (.text "typeAttributes") (.list (names'.map .text))
    refine ⟨_, base.put (.text "typeAttributes") (.tuple (names'.map .text)),
      Value.encodeEntries_put hbase hencode, ?_, .object ?_⟩
    . rw [Table.getD_part_of_ne_nil hne, Value.attributesOf_object hne, Table.get?_put_text]
      simp [unwrapNames, Table.put_put]
    . apply (Table.alike_self (fun _ _ => .inl rfl) base).put Table.stable_sameBut
      exact .inr ⟨⟨_, by simp, rfl⟩, names, names', hcollects, rfl, hperm⟩

theorem exists_encoded_head {tag content : Value} {shape : Shape} {content' : Option Value}
    (hshape : kinds.shape tag = .ok shape) (hinfo : info.Data)
    (hattributes : attributes.BuiltAttributes)
    (hcontent : Element.encodeContent content = .ok content')
    : ∃ entries read : Table Value,
        Element.encode (.mk (shape.kindOf tag) (.object info) (.object attributes) content)
            = .ok (.object entries)
          ∧ entries.Heads kinds tag shape info read ∧ entries.content = content'.getD .null
          ∧ (Value.object attributes).AttributesRecast (.object read) := by
  obtain ⟨written, read, hwritten, hread, hrecast⟩ := hattributes.exists_encoded
  obtain ⟨entries, hencode, heads, content_eq⟩ :=
    Value.exists_encoded_of_parts hshape hinfo.encodeEntries hwritten hread hcontent
  exact ⟨entries, read, hencode, heads, content_eq, hrecast⟩

end Heads

section Shapes

variable {kinds : Kinds} {kind : Kind}

theorem Kinds.Registered.shape_literal (h : kinds.Registered)
    (hkind : kind = .boolean ∨ kind = .string ∨ kind = .number)
    : kinds.shape (.text kind.tag) = .ok (.literal kind) := by
  have hfound : kinds.ofTag? kind.tag = some kind := by
    rcases hkind with rfl | rfl | rfl
    all_goals exact h.ofTag?_eq rfl
  rcases hkind with rfl | rfl | rfl
  all_goals simp_all [Kinds.shape, Kind.tag]

theorem Kinds.Registered.shape_sequence (h : kinds.Registered)
    (hkind : kind = .enum ∨ kind = .array ∨ kind = .object ∨ kind = .option ∨ kind = .select)
    : kinds.shape (.text kind.tag) = .ok (.sequence kind) := by
  have hfound : kinds.ofTag? kind.tag = some kind := by
    rcases hkind with rfl | rfl | rfl | rfl | rfl
    all_goals exact h.ofTag?_eq rfl
  rcases hkind with rfl | rfl | rfl | rfl | rfl
  all_goals simp_all [Kinds.shape, Kind.tag]

end Shapes

section Reading

variable {kinds : Kinds} {e key key' : Element} {v v' value value' : Value}

theorem Value.Recast.eq_of_data (h : v.Recast v') (hv : v.Data) : v = v' := by
  cases h with
  | refl => rfl
  | _ => cases hv

theorem Element.Built.data_of_string (h : key.Built kinds) (hkind : key.kind = .string)
    : key.content.Data := by
  cases h with
  | literal _ _ _ content_data => exact content_data
  | sequence _ _ kind_eq =>
    rw [Element.kind] at hkind
    subst hkind
    simp at kind_eq
  | _ => simp [Element.kind] at hkind

theorem recast_member (hkey : key.Recast key') (hdata : key.content.Data)
    (hvalue : value.Recast value')
    : Value.Recast (.member (.element key) value) (.member (.element key') value') := by
  obtain ⟨kind, info, attributes, content⟩ := key
  obtain ⟨kind', info', attributes', content'⟩ := key'
  obtain ⟨hkind, hinfo, hattributes, hcontent⟩ := hkey
  have heq : content = content' := hcontent.eq_of_data hdata
  rw [Element.kind, Element.kind] at hkind
  rw [Element.info, Element.info] at hinfo
  rw [hkind, hinfo, heq]
  exact .member hattributes hvalue

theorem exists_encodeItems_recast {items : List Element}
    (h : ∀ x ∈ items, ∃ d x', x.encode = .ok d ∧ d.Reads kinds x' ∧ x.Recast x')
    : ∃ (written : List Value) (read : List Element),
        Value.encodeItems (items.map .element) = .ok written ∧ written.length = read.length
          ∧ (∀ pair ∈ written.zip read, pair.1.Reads kinds pair.2)
          ∧ List.Forall₂ Value.Recast (items.map .element) (read.map .element) := by
  induction items with
  | nil => exact ⟨[], [], rfl, rfl, by simp, .nil⟩
  | cons x rest ih =>
    rw [List.forall_mem_cons] at h
    obtain ⟨⟨d, x', hencode, hreads, hrecast⟩, hrest⟩ := h
    obtain ⟨written, read, hwritten, hlength, hread, hrecasts⟩ := ih hrest
    refine ⟨d :: written, x' :: read, ?_, by simpa using hlength, ?_, ?_⟩
    . simp [Value.encodeItems, Value.encode, hencode, hwritten]
    . intro pair hmem
      rw [List.zip_cons_cons, List.mem_cons] at hmem
      rcases hmem with rfl | hmem
      . exact hreads
      . exact hread pair hmem
    . exact .cons hrecast.toValue hrecasts

section Head

variable {kind : Kind} {tag : Value} {shape : Kinds.Shape} {info attributes : Table Value}

theorem exists_reads_of_takes {content : Value} (hshape : kinds.shape tag = .ok shape)
    (hkind : kind = shape.kindOf tag) (hinfo : info.Data) (hattributes : attributes.BuiltAttributes)
    (hcontent : content.Data) (takes : shape.Takes content)
    : ∃ d e', Element.encode (.mk kind (.object info) (.object attributes) content) = .ok d
        ∧ d.Reads kinds e'
        ∧ Element.Recast (.mk kind (.object info) (.object attributes) content) e' := by
  subst hkind
  obtain ⟨content', hencoded, hgetD⟩ := Value.exists_encodeContent_of_data hcontent
  obtain ⟨entries, read, hencode, heads, content_eq, hrecast⟩ :=
    exists_encoded_head hshape hinfo hattributes hencoded
  rw [hgetD] at content_eq
  refine ⟨_, _, hencode, .raw heads (content_eq ▸ takes), rfl, rfl, hrecast, ?_⟩
  rw [Element.content, Element.content, content_eq]
  exact .refl _

theorem exists_reads_of_hasItems {items : List Element} (hshape : kinds.shape tag = .ok shape)
    (hkind : kind = shape.kindOf tag) (hinfo : info.Data) (hattributes : attributes.BuiltAttributes)
    (has_items : shape.HasItems)
    (h : ∀ x ∈ items, ∃ d x', x.encode = .ok d ∧ d.Reads kinds x' ∧ x.Recast x')
    : ∃ d e', Element.encode
          (.mk kind (.object info) (.object attributes) (.tuple (items.map .element))) = .ok d
        ∧ d.Reads kinds e'
        ∧ Element.Recast
            (.mk kind (.object info) (.object attributes) (.tuple (items.map .element))) e' := by
  subst hkind
  obtain ⟨written, items', hwritten, hlength, hread, hitems⟩ := exists_encodeItems_recast h
  obtain ⟨entries, read, hencode, heads, content_eq, hrecast⟩ :=
    exists_encoded_head hshape hinfo hattributes (Element.encodeContent_items hwritten)
  exact ⟨_, _, hencode, .items heads has_items content_eq hlength hread, rfl, rfl, hrecast,
    .tuple hitems⟩

end Head

/--
A tree that is put together by hand is written as data that is read as the same tree, with the type
attributes recast.
-/
theorem Element.Built.exists_reads (hkinds : kinds.Registered) (he : e.Built kinds)
    : ∃ d e', e.encode = .ok d ∧ d.Reads kinds e' ∧ e.Recast e' := by
  induction he with
  | literal info_data attributes_built kind_eq content_data no_list no_object =>
    exact exists_reads_of_takes (hkinds.shape_literal kind_eq) rfl info_data attributes_built
      content_data ⟨no_list, no_object⟩
  | sequence info_data attributes_built kind_eq _ ih =>
    exact exists_reads_of_hasItems (hkinds.shape_sequence kind_eq) rfl info_data attributes_built
      trivial ih
  | member info_data attributes_built key_built key_kind ih =>
    obtain ⟨d, key', hkey, hkeyreads, hkeyrecast⟩ := ih
    obtain ⟨entries, read, hencode, heads, content_eq, hrecast⟩ :=
      exists_encoded_head (Kinds.shape_member kinds) info_data attributes_built
        (Element.encodeContent_member hkey)
    refine ⟨_, _, hencode, .member heads content_eq ?_ hkeyreads (hkeyrecast.kind_eq ▸ key_kind) ?_,
      rfl, rfl, hrecast, recast_member hkeyrecast (key_built.data_of_string key_kind) (.refl _)⟩
    . simp [Table.get?_cons]
    . simp [Table.get?_cons, partEntry]
  | memberWithValue info_data attributes_built key_built key_kind _ ih ih' =>
    obtain ⟨d, key', hkey, hkeyreads, hkeyrecast⟩ := ih
    obtain ⟨d', value', hvalue, hvaluereads, hvaluerecast⟩ := ih'
    obtain ⟨entries, read, hencode, heads, content_eq, hrecast⟩ :=
      exists_encoded_head (Kinds.shape_member kinds) info_data attributes_built
        (Element.encodeContent_memberWithValue hkey hvalue)
    have hcontent := recast_member hkeyrecast (key_built.data_of_string key_kind) hvaluerecast.toValue
    refine ⟨_, _, hencode, .memberWithValue heads content_eq ?_ hkeyreads
      (hkeyrecast.kind_eq ▸ key_kind) ?_ hvaluereads, rfl, rfl, hrecast, hcontent⟩
    . simp [Table.get?_cons]
    . simp [Table.get?_cons, partEntry]
  | @ref _ _ href info_data attributes_built _ =>
    have hcontent : Element.encodeContent (.ref href)
        = .ok (some (.object [(.text "href", href)])) := rfl
    obtain ⟨entries, read, hencode, heads, content_eq, hrecast⟩ :=
      exists_encoded_head (Kinds.shape_ref kinds) info_data attributes_built hcontent
    refine ⟨_, _, hencode, .ref heads content_eq ?_, rfl, rfl, hrecast, .refl _⟩
    simp [Table.get?_cons]
  | reference info_data attributes_built name_free content_data no_list =>
    exact exists_reads_of_takes (hkinds.shape_reference name_free) rfl info_data attributes_built
      content_data no_list
  | extension info_data attributes_built name_free _ ih =>
    exact exists_reads_of_hasItems (hkinds.shape_reference name_free) rfl info_data attributes_built
      trivial ih

end Reading

namespace Registry

open Element (Built)

variable {kinds : Kinds} {e : Element}

/--
A tree that is put together by hand can be written and read back. What is read has the same kinds and
the same type attributes everywhere, and is compiled in step with the tree, whatever types are
declared: to the same faults, or to answers that differ at most in collections of type attributes in
elements that stand in them, and in what items of an array are folded for that. Answers in which no
element stands are the same.
-/
theorem answers_of_built (hkinds : kinds.Registered) (he : e.Built kinds)
    : ∃ d e', e.encode = .ok d ∧ Value.decode kinds d = .ok e' ∧ e.Recast e'
        ∧ Outcome.Matches (fun names names' : List Value => ∀ x, x ∈ names ↔ x ∈ names')
            e.typeAttributes e'.typeAttributes
        ∧ ∀ (r : Registry) (n : Nat),
            (r.exampleWithin n (.element e)).Matches
                (fun x x' => x.AlikeRecast x' ∧ (x.Bare → x = x')) (r.exampleWithin n (.element e'))
              ∧ (r.schemaWithin n (.element e)).Matches
                (fun s s' => s.CloseRecast s' ∧ (s.toValue.Bare → s = s'))
                (r.schemaWithin n (.element e')) := by
  obtain ⟨d, e', hencode, hreads, hrecast⟩ := he.exists_reads hkinds
  refine ⟨d, e', hencode, Value.decode_of_reads hreads, hrecast, hrecast.typeAttributes, ?_⟩
  intro r n
  constructor
  . apply ((r.examplesMatch n).value _ _ hrecast.toValue).mono
    intro x x' halike
    exact ⟨halike, fun hbare => (halike.mono hbare fun v v' hv => hv.eq_of_bare).eq⟩
  . apply ((r.schemasMatch n).value _ _ hrecast.toValue).mono
    intro s s' hclose
    refine ⟨hclose, fun hbare => ?_⟩
    have hequal : s.Close Eq False s' :=
      hclose.mono_of_bare hbare False.elim fun v v' hv hbare _ => hv.eq_of_bare hbare
    exact hequal.eq

section Samples

theorem attributes_nil : Table.BuiltAttributes [] where
  keys_nodup := .nil
  names := by simp
  others := by simp

theorem attributes_names {v : Value} {names : List String} (h : v.Collects names)
    : Table.BuiltAttributes [(.text "typeAttributes", v)] where
  keys_nodup := by simp [Table.keys]
  names := by simpa using ⟨names, h⟩
  others := by simp

theorem built_sequence {kind : Kind} (items : List Element)
    (hkind : kind = .enum ∨ kind = .array ∨ kind = .object ∨ kind = .option ∨ kind = .select)
    (h : ∀ x ∈ items, x.Built kinds)
    : (plainElement kind (.tuple (items.map .element))).Built kinds := by
  exact .sequence (by simp [Table.Data]) attributes_nil hkind h

theorem built_string {content : Value} {t : Table Value}
    (hcontent : content = .null ∨ ∃ s, content = .text s) (ht : t.BuiltAttributes)
    : (Element.mk .string (.object []) (.object t) content).Built kinds := by
  rcases hcontent with rfl | ⟨s, rfl⟩
  . exact .literal (by simp [Table.Data]) ht (by simp) .null (by simp) (by simp)
  . exact .literal (by simp [Table.Data]) ht (by simp) (.text s) (by simp) (by simp)

def badge (names : Value) : Element :=
  plainElement .object (.tuple ([.mk .member (.object []) (.object [(.text "typeAttributes", names)])
    (.member (.element (plainElement .string (.text "name")))
      (.element (plainElement .string .null)))].map .element))

def builtBadge : Element :=
  badge (.set [.text "required", .text "nullable"])

def readBadge : Element :=
  badge (.tuple [.text "nullable", .text "required"])

theorem built_badge {v : Value} {names : List String} (h : v.Collects names)
    : (badge v).Built Kinds.builtIn := by
  apply built_sequence _ (by simp)
  rw [List.forall_mem_singleton]
  exact .memberWithValue (by simp [Table.Data]) (attributes_names h)
    (built_string (.inr ⟨_, rfl⟩) attributes_nil) rfl (built_string (.inl rfl) attributes_nil)

/--
A set of names is read back as a tuple, in alphabetical order, and the schema does not show it.
-/
theorem answers_of_built_badge
    : builtBadge.Built Kinds.builtIn
        ∧ ∃ d, builtBadge.encode = .ok d ∧ Value.decode Kinds.builtIn d = .ok readBadge
            ∧ builtBadge.Recast readBadge
            ∧ ((⟨[]⟩ : Registry).schemaOf builtBadge).Matches Schema.CloseRecast
              ((⟨[]⟩ : Registry).schemaOf readBadge) := by
  have hbuilt : builtBadge.Built Kinds.builtIn := @built_badge _ ["required", "nullable"] .set
  obtain ⟨d, e', hencode, hdecode, hrecast, -, hanswers⟩ := answers_of_built .start hbuilt
  have hread : (Value.decode Kinds.builtIn <$> builtBadge.encode) = .ok (.ok readBadge) := rfl
  rw [hencode, Outcome.map_ok, hdecode, Except.ok.injEq, Except.ok.injEq] at hread
  subst hread
  obtain ⟨-, hschemas⟩ := hanswers ⟨[]⟩ nestingLimit
  exact ⟨hbuilt, d, hencode, hdecode, hrecast, hschemas.mono fun s s' hs => hs.1⟩

def flagged (names : Value) : Element :=
  plainElement (.named (.text "Kind")) (.tuple ([plainElement .array (.tuple
    ([.mk .string (.object []) (.object [(.text "typeAttributes", names)]) .null].map
      .element))].map .element))

def flaggedPair (names names' : Value) : Element :=
  plainElement .array (.tuple ([flagged names, flagged names'].map .element))

def mixedPair : Element :=
  flaggedPair (.list [.text "required"]) (.tuple [.text "required"])

def declaredKind : Registry where
  types := [(.text "Kind", .mk .enum (.object [(.text "id", .text "Kind")]) (.object []) (.tuple []))]

theorem built_flagged {v : Value} {names : List String} (h : v.Collects names)
    : (flagged v).Built Kinds.builtIn := by
  refine .extension (by simp [Table.Data]) attributes_nil (.inl (by decide)) ?_
  rw [List.forall_mem_singleton]
  apply built_sequence _ (by simp)
  rw [List.forall_mem_singleton]
  exact built_string (.inl rfl) (attributes_names h)

/--
Two schemas that choose from tuples of elements are different as long as the type attributes of these
are in a list and in a tuple. After the round trip they are equal, and the items have one schema.
-/
theorem not_answers_of_built
    : mixedPair.Built Kinds.builtIn
        ∧ ∃ d e' s s', mixedPair.encode = .ok d ∧ Value.decode Kinds.builtIn d = .ok e'
            ∧ (declaredKind.schemaOf mixedPair).result = .ok s
            ∧ (declaredKind.schemaOf e').result = .ok s'
            ∧ s.items.length = 2 ∧ s'.items.length = 1 := by
  refine ⟨?_, _, flaggedPair (.tuple [.text "required"]) (.tuple [.text "required"]), _, _, rfl, rfl,
    rfl, rfl, rfl, rfl⟩
  apply built_sequence _ (by simp)
  rw [List.forall_mem_cons, List.forall_mem_singleton]
  exact ⟨@built_flagged _ ["required"] .list, @built_flagged _ ["required"] .tuple⟩

end Samples

end Registry

end ApiElements
