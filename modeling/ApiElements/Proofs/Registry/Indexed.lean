import ApiElements.Proofs.Registry.Declared
import ApiElements.Registry.Document

/-!
This module contains what the registry of a document has: the first elements of its data structures
under their identifiers, the last one under each, in the order in which the identifiers are first met.
Nothing else in the document has an influence.
-/

namespace ApiElements

open Outcome (mapM_eq_ok)

namespace Value

variable {v : Value} {name : String}

def contentItems (v : Value) : List Value :=
  match v.under? "content" with
  | some (.list items) => items
  | _ => []

def Contentless (v : Value) : Prop :=
  ((v.under? "content").getD .null).truthy = false

theorem contentItems_of_contentless (h : v.Contentless) : v.contentItems = [] := by
  unfold Contentless at h
  unfold contentItems
  split
  . next items hitems =>
    rw [hitems, Option.getD_some, truthy] at h
    simpa using h
  . rfl

theorem field_of_object (h : ∃ t, v = .object t) (name : String)
    : v.field name = .ok ((v.under? name).getD .null) := by
  obtain ⟨t, rfl⟩ := h
  rfl

end Value

namespace Registry

variable {kinds : Kinds} {item category document : Value} {items categories : List Value}

def declared? (kinds : Kinds) (item : Value) : Option Element :=
  match item.under? "element", item.contentItems with
  | some (.text "dataStructure"), first :: _ => (Value.decode kinds first).toOption
  | _, _ => none

def documentItems (document : Value) : List Value :=
  document.contentItems.flatMap Value.contentItems

def documentEntries (kinds : Kinds) (document : Value) : List (Value × Element) :=
  ((documentItems document).filterMap (declared? kinds)).filterMap Element.entry?

/--
An item of a category: if it is a data structure, it has no content or its first element can be
declared.
-/
structure ItemForm (kinds : Kinds) (item : Value) : Prop where
  object : ∃ t, item = .object t
  declarable : item.under? "element" = some (.text "dataStructure") →
    item.Contentless ∨ ∃ first rest e, item.under? "content" = some (.list (first :: rest))
      ∧ Value.decode kinds first = .ok e ∧ e.Declarable

structure CategoryForm (kinds : Kinds) (category : Value) : Prop where
  object : ∃ t, category = .object t
  content : category.Contentless ∨ ∃ items, category.under? "content" = some (.list items)
    ∧ ∀ item ∈ items, ItemForm kinds item

def DocumentForm (kinds : Kinds) (document : Value) : Prop :=
  ∃ categories, document.under? "content" = some (.list categories)
    ∧ ∀ category ∈ categories, CategoryForm kinds category

theorem ItemForm.declares_cases (h : ItemForm kinds item)
    : (declares item = .ok false ∧ declared? kinds item = none)
        ∨ ∃ e, declares item = .ok true ∧ declaration kinds item = .ok e
            ∧ declared? kinds item = some e ∧ e.Declarable := by
  have hfield := Value.field_of_object h.object
  unfold declares declaration
  rw [hfield, hfield, Outcome.ok_bind, Outcome.ok_bind]
  by_cases hstructure : item.under? "element" = some (.text "dataStructure")
  . rw [hstructure, Option.getD_some, if_pos (Value.text_same.2 rfl)]
    rcases h.declarable hstructure with hnone | ⟨first, rest, e, hcontent, hdecode, he⟩
    . rw [hnone]
      refine .inl ⟨rfl, ?_⟩
      rw [declared?, hstructure, Value.contentItems_of_contentless hnone]
      rfl
    . rw [hcontent]
      refine .inr ⟨e, rfl, hdecode, ?_, he⟩
      rw [declared?, hstructure, Value.contentItems, hcontent]
      exact congrArg Except.toOption hdecode
  . refine .inl ⟨?_, ?_⟩
    . rw [if_neg]
      intro hsame
      rw [Value.text_same] at hsame
      apply hstructure
      cases hunder : item.under? "element" with
      | none =>
        rw [hunder] at hsame
        contradiction
      | some v => rw [← hsame, hunder, Option.getD_some]
    . unfold declared?
      split
      . next heq _ => exact absurd heq hstructure
      . rfl

theorem declarationsIn_eq (h : ∀ item ∈ items, ItemForm kinds item)
    : declarationsIn kinds items = .ok (items.filterMap (declared? kinds)) := by
  induction items with
  | nil => rfl
  | cons item rest ih =>
    obtain ⟨hitem, hrest⟩ := List.forall_mem_cons.1 h
    rw [declarationsIn]
    rcases hitem.declares_cases with ⟨hdeclares, hnone⟩ | ⟨e, hdeclares, hdeclaration, hsome, -⟩
    . rw [hdeclares, Outcome.ok_bind, ih hrest, List.filterMap_cons_none hnone]
      rfl
    . rw [hdeclares, Outcome.ok_bind, hdeclaration, ih hrest, List.filterMap_cons_some hsome]
      rfl

theorem CategoryForm.forall_items (h : CategoryForm kinds category)
    : ∀ item ∈ category.contentItems, ItemForm kinds item := by
  rcases h.content with hnone | ⟨items, hitems, hforms⟩
  . rw [Value.contentItems_of_contentless hnone]
    simp
  . rw [Value.contentItems, hitems]
    exact hforms

theorem CategoryForm.itemsOrNone_eq (h : CategoryForm kinds category)
    : ((category.under? "content").getD .null).itemsOrNone = .ok category.contentItems := by
  rcases h.content with hnone | ⟨items, hitems, -⟩
  . rw [Value.contentItems_of_contentless hnone, Value.itemsOrNone, hnone]
    rfl
  . rw [Value.contentItems, hitems]
    exact Value.itemsOrNone_eq_items rfl

theorem DocumentForm.declarations_eq (h : DocumentForm kinds document)
    : declarations kinds document = .ok ((documentItems document).filterMap (declared? kinds))
        ∧ ∀ e ∈ (documentItems document).filterMap (declared? kinds), e.Declarable := by
  obtain ⟨categories, hcategories, hforms⟩ := h
  have hobject : ∃ t, document = .object t := by
    cases document with
    | object t => exact ⟨t, rfl⟩
    | _ => contradiction
  have hitems : documentItems document = categories.flatMap Value.contentItems := by
    rw [documentItems, Value.contentItems, hcategories]
  rw [hitems]
  constructor
  . have hfound : (categories.mapM fun category => do
        declarationsIn kinds (← (← category.field "content").itemsOrNone))
        = .ok (categories.map fun category =>
            category.contentItems.filterMap (declared? kinds)) := by
      rw [mapM_eq_ok, List.forall₂_map_right_iff, List.forall₂_same]
      intro category hcategory
      have hform := hforms category hcategory
      rw [Value.field_of_object hform.object, Outcome.ok_bind, hform.itemsOrNone_eq,
        Outcome.ok_bind, declarationsIn_eq hform.forall_items]
    rw [declarations, Value.field_of_object hobject, Outcome.ok_bind, hcategories,
      Option.getD_some, Value.itemsOrNone_eq_items rfl, Outcome.ok_bind, hfound, Outcome.ok_bind,
      List.filterMap_flatMap, List.flatMap_def]
  . intro e he
    obtain ⟨item, hitem, hdeclared⟩ := List.mem_filterMap.1 he
    obtain ⟨category, hcategory, hitem⟩ := List.mem_flatMap.1 hitem
    have hform := (hforms category hcategory).forall_items item hitem
    rcases hform.declares_cases with ⟨-, hnone⟩ | ⟨e', -, -, hsome, he'⟩
    . rw [hnone] at hdeclared
      contradiction
    . rw [hsome, Option.some.injEq] at hdeclared
      exact hdeclared ▸ he'

section Identifiers

variable {r : Registry} {names : List String} {t : Table Element}

def idText (id : Value) : Except Fault String :=
  match id with
  | .text s => .ok s
  | _ => .error (.mismatch .notText)

theorem idList_eq (r : Registry) : r.idList = commaSeparated <$> r.ids.mapM idText := by
  rw [map_eq_pure_bind]
  rfl

theorem mapM_idText_map (names : List String) : (names.map Value.text).mapM idText = .ok names := by
  rw [mapM_eq_ok, List.forall₂_map_left_iff, List.forall₂_same]
  exact fun _ _ => rfl

theorem mapM_idText_eq_error (h : ¬ t.TextKeyed)
    : t.keys.mapM idText = .error (.mismatch .notText) := by
  induction t with
  | nil => simp [Table.TextKeyed] at h
  | cons entry rest ih =>
    obtain ⟨key, e⟩ := entry
    rw [Table.textKeyed_cons, not_and_or] at h
    rw [Table.keys_cons, List.mapM_cons]
    cases key with
    | text s =>
      rw [ih (h.resolve_left (by simp))]
      rfl
    | _ => rfl

end Identifiers

section Registries

variable {id : Value}

def ofEntries (entries : List (Value × Element)) : Registry :=
  ⟨Table.ofList entries⟩

theorem get?_ofEntries {entries : List (Value × Element)}
    (hentries : ∀ entry ∈ entries, entry.1.hashable = true) (hid : id.hashable = true)
    : (ofEntries entries).get? id
        = .ok ((entries.reverse.find? fun entry => id.same entry.1).map (·.2)) := by
  rw [get?, Value.asKey_eq_ok.2 ⟨hid, rfl⟩, Outcome.ok_bind]
  exact congrArg _ (Table.get?_ofList hentries hid)

theorem has_ofEntries {entries : List (Value × Element)}
    (hentries : ∀ entry ∈ entries, entry.1.hashable = true) (hid : id.hashable = true)
    : (ofEntries entries).has id = .ok (entries.any fun entry => id.same entry.1) := by
  rw [has, get?_ofEntries hentries hid, Outcome.map_ok, Option.isSome_map, List.isSome_find?,
    List.any_reverse]

def knownRecord (names : List String) : Log.Record :=
  ⟨.debug, .registry, "Known data structures: " ++ commaSeparated names⟩

theorem DocumentForm.ofDocument_eq (h : DocumentForm kinds document)
    : ofDocument kinds document
        =
      (do
        let names ← (idList (ofEntries (documentEntries kinds document)) : Except Fault String)
        Logged.record .debug .registry ("Known data structures: " ++ names)
        pure (ofEntries (documentEntries kinds document))) := by
  obtain ⟨hdeclarations, hdeclarable⟩ := h.declarations_eq
  rw [ofDocument, hdeclarations, Logged.liftM_ok, pure_bind, ofElements_eq hdeclarable,
    Logged.liftM_ok, pure_bind]
  rfl

theorem DocumentForm.exists_ofDocument_eq (h : DocumentForm kinds document)
    (htexts : Table.TextKeyed (documentEntries kinds document))
    : ∃ names : List String, (ofEntries (documentEntries kinds document)).ids = names.map .text
        ∧ ofDocument kinds document
          = ⟨[knownRecord names], .ok (ofEntries (documentEntries kinds document))⟩ := by
  obtain ⟨fields, hfields⟩ := htexts.exists_ofFields
  obtain ⟨fields', hofList, -, -⟩ := Table.exists_ofList_ofFields fields
  have hids : (ofEntries (documentEntries kinds document)).ids
      = (fields'.map (·.1)).map .text := by
    rw [ids, ofEntries, hfields, hofList, Table.keys, Table.ofFields, List.map_map, List.map_map]
    rfl
  refine ⟨fields'.map (·.1), hids, ?_⟩
  rw [h.ofDocument_eq, idList_eq, hids, mapM_idText_map]
  rfl

theorem DocumentForm.ofDocument_eq_error (h : DocumentForm kinds document)
    (htexts : ¬ Table.TextKeyed (documentEntries kinds document))
    : ofDocument kinds document = Logged.fail (.mismatch .notText) := by
  have hofList : ¬ Table.TextKeyed (Table.ofList (documentEntries kinds document)) := by
    exact fun hall => htexts hall.of_union.2
  rw [h.ofDocument_eq, idList_eq, ids, ofEntries, mapM_idText_eq_error hofList]
  rfl

/--
A document has one registry for its entries: an identifier is there if some entry has it, with the
last element that has it, and the identifiers stand in the order of their first occurrence. If they
are texts, the registry is given out and they are logged; otherwise they cannot be listed for the log,
which fails. Documents with the same entries come to the same.
-/
theorem ofDocument_of_form (h : DocumentForm kinds document)
    : ∃ r : Registry,
        (∀ id : Value, id.hashable = true →
          r.has id = .ok ((documentEntries kinds document).any fun entry => id.same entry.1)
          ∧ r.get? id
            = .ok (((documentEntries kinds document).reverse.find? fun entry =>
                id.same entry.1).map (·.2)))
        ∧ r.ids = Value.distinct (Table.keys (documentEntries kinds document))
        ∧ (Table.TextKeyed (documentEntries kinds document) →
            ∃ names : List String, r.ids = names.map .text
              ∧ ofDocument kinds document = ⟨[knownRecord names], .ok r⟩)
        ∧ (¬ Table.TextKeyed (documentEntries kinds document) →
            ofDocument kinds document = Logged.fail (.mismatch .notText))
        ∧ ∀ other, DocumentForm kinds other →
            documentEntries kinds other = documentEntries kinds document →
            ofDocument kinds other = ofDocument kinds document := by
  have hhashable := hashable_entries h.declarations_eq.2
  refine ⟨ofEntries (documentEntries kinds document), ?_, Table.keys_ofList _, h.exists_ofDocument_eq,
    h.ofDocument_eq_error, ?_⟩
  . intro id hid
    exact ⟨has_ofEntries hhashable hid, get?_ofEntries hhashable hid⟩
  . intro other hother hentries
    rw [hother.ofDocument_eq, h.ofDocument_eq, hentries]

end Registries

section Samples

def objectType (id : Value) (description : String) : Value :=
  .object [(.text "element", .text "object"),
    (.text "meta", .object [(.text "id", id), (.text "description", .text description)])]

def structureOf (v : Value) : Value :=
  .object [(.text "element", .text "dataStructure"), (.text "content", .list [v])]

def documentOf (items : List Value) : Value :=
  .object [(.text "content", .list [.object [], .object [(.text "content", .list items)]])]

def objectOf (id : Value) (description : String) : Element :=
  .mk .object (.object [(.text "id", id), (.text "description", .text description)]) (.object [])
    (.tuple [])

theorem itemForm_structureOf {id : Value} (hid : id = .null ∨ id.hashable = true) (description : String)
    : ItemForm Kinds.builtIn (structureOf (objectType id description)) where
  object := ⟨_, rfl⟩
  declarable := fun _ => .inr ⟨_, _, objectOf id description, rfl, rfl, id, rfl, hid⟩

theorem documentForm_documentOf (h : ∀ item ∈ items, ItemForm kinds item)
    : DocumentForm kinds (documentOf items) := by
  refine ⟨_, rfl, ?_⟩
  simp only [List.forall_mem_cons, List.not_mem_nil, false_implies, implies_true, and_true]
  exact ⟨⟨⟨_, rfl⟩, .inl rfl⟩, ⟨_, rfl⟩, .inr ⟨items, rfl, h⟩⟩

/--
A type that is declared twice, one that is declared in between, one without an identifier, and an item
that declares nothing.
-/
def library : Value :=
  documentOf [
    structureOf (objectType (.text "Book") "Something to read"),
    .object [(.text "element", .text "copy"), (.text "content", .text "All about books")],
    structureOf (objectType (.text "Loan") "Who has it"),
    structureOf (objectType .null "Nothing to refer to"),
    structureOf (objectType (.text "Book") "Something to lend")]

theorem documentForm_library : DocumentForm Kinds.builtIn library := by
  apply documentForm_documentOf
  simp only [List.forall_mem_cons, List.not_mem_nil, false_implies, implies_true, and_true]
  exact ⟨itemForm_structureOf (.inr rfl) _, ⟨⟨_, rfl⟩, by simp [Table.get?]⟩,
    itemForm_structureOf (.inr rfl) _, itemForm_structureOf (.inl rfl) _,
    itemForm_structureOf (.inr rfl) _⟩

theorem ofDocument_of_form_library
    : DocumentForm Kinds.builtIn library
        ∧ ∃ r : Registry, r.ids = [.text "Book", .text "Loan"]
          ∧ r.get? (.text "Book") = .ok (some (objectOf (.text "Book") "Something to lend"))
          ∧ r.has (.text "Page") = .ok false
          ∧ ∃ names, ofDocument Kinds.builtIn library = ⟨[knownRecord names], .ok r⟩ := by
  obtain ⟨r, hanswers, hids, hgiven, -, -⟩ := ofDocument_of_form documentForm_library
  have hentries : documentEntries Kinds.builtIn library = [
      (.text "Book", objectOf (.text "Book") "Something to read"),
      (.text "Loan", objectOf (.text "Loan") "Who has it"),
      (.text "Book", objectOf (.text "Book") "Something to lend")] := rfl
  rw [hentries] at hanswers hids hgiven
  obtain ⟨names, -, hdocument⟩ := hgiven (by simp [Table.TextKeyed])
  exact ⟨documentForm_library, r, hids, (hanswers (.text "Book") rfl).2,
    (hanswers (.text "Page") rfl).1, names, hdocument⟩

def rooms : Value :=
  documentOf [structureOf (objectType (.int 1) "A room")]

/--
There is no registry for a document with an identifier that is not text.
-/
theorem not_ofDocument_of_form
    : DocumentForm Kinds.builtIn rooms
        ∧ ofDocument Kinds.builtIn rooms = Logged.fail (.mismatch .notText)
        ∧ ∀ r, (ofDocument Kinds.builtIn rooms).result ≠ .ok r := by
  refine ⟨documentForm_documentOf ?_, rfl, ?_⟩
  . rw [List.forall_mem_singleton]
    exact itemForm_structureOf (.inr rfl) _
  . intro r h
    have hfails : (ofDocument Kinds.builtIn rooms).result = .error (.mismatch .notText) := rfl
    rw [hfails] at h
    contradiction

end Samples

end Registry

end ApiElements
