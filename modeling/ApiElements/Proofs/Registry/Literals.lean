import ApiElements.Proofs.Codec.Canonical
import ApiElements.Proofs.Registry.Indexed

/-!
This module contains what becomes of a document in which some entries hold a literal, such as a text,
beside those that hold lists of items. Such an entry declares nothing, but only if its literal is empty
does it get in nobody's way: from any other no items can be taken, so that there is no registry at all.
-/

namespace ApiElements

namespace Value

variable {v : Value}

def holdsLiteral (v : Value) : Bool :=
  match v.under? "content" with
  | none => false
  | some (.list _) => false
  | some _ => true

def holdsPresentLiteral (v : Value) : Bool :=
  v.holdsLiteral && ((v.under? "content").getD .null).truthy

theorem contentItems_of_holdsLiteral (h : v.holdsLiteral = true) : v.contentItems = [] := by
  unfold holdsLiteral at h
  unfold contentItems
  split at h
  . contradiction
  . contradiction
  . next hlist hcontent =>
    split
    . next hitems =>
      rw [hcontent, Option.some.injEq] at hitems
      exact absurd hitems (hlist _)
    . rfl

end Value

namespace Registry

variable {kinds : Kinds} {entry document : Value} {entries : List Value}

/--
An entry of a document has a list of items, a literal, or nothing for its content.
-/
structure EntryForm (kinds : Kinds) (entry : Value) : Prop where
  object : ∃ t, entry = .object t
  content : entry.under? "content" = none
    ∨ (∃ items, entry.under? "content" = some (.list items) ∧ ∀ item ∈ items, ItemForm kinds item)
    ∨ ∃ v, entry.under? "content" = some v ∧ (v = .null ∨ v.Scalar)

/--
A document has a list of entries, and the declarations in it have texts for identifiers, if any.
-/
structure MixedForm (kinds : Kinds) (document : Value) (entries : List Value) : Prop where
  content : document.under? "content" = some (.list entries)
  forms : ∀ entry ∈ entries, EntryForm kinds entry
  texts : Table.TextKeyed (documentEntries kinds document)

/--
What it fails with to take items from a literal: a text has characters, which have no fields, and
nothing else can be gone through.
-/
def literalFault (entry : Value) : Fault :=
  match entry.under? "content" with
  | some (.text _) => .noPart "get"
  | _ => .mismatch .notIterable

theorem EntryForm.category (h : EntryForm kinds entry) (hnone : entry.holdsPresentLiteral = false)
    : CategoryForm kinds entry where
  object := h.object
  content := by
    rcases h.content with hcontent | ⟨items, hcontent, hitems⟩ | ⟨v, hcontent, hv⟩
    . left
      rw [Value.Contentless, hcontent]
      rfl
    . exact .inr ⟨items, hcontent, hitems⟩
    . left
      rw [Value.Contentless, hcontent, Option.getD_some]
      rw [Value.holdsPresentLiteral, Value.holdsLiteral, hcontent] at hnone
      rcases hv with rfl | hv
      . rfl
      . cases hv with
        | _ => exact hnone

theorem declarationsIn_text {s : String} (h : (Value.text s).truthy = true)
    : (do declarationsIn kinds (← (Value.text s).itemsOrNone)) = .error (.noPart "get") := by
  rw [Value.itemsOrNone, if_pos h, Value.items, Outcome.ok_bind]
  cases hs : s.toList with
  | nil =>
    rw [Value.truthy, ← String.ofList_toList (s := s), hs] at h
    contradiction
  | cons c cs => rfl

theorem EntryForm.declarations_eq_error (h : EntryForm kinds entry)
    (hsome : entry.holdsPresentLiteral = true)
    : (do declarationsIn kinds (← (← entry.field "content").itemsOrNone))
        = .error (literalFault entry) := by
  rw [Value.holdsPresentLiteral, Bool.and_eq_true] at hsome
  obtain ⟨hliteral, htruthy⟩ := hsome
  rw [Value.field_of_object h.object, Outcome.ok_bind]
  rcases h.content with hcontent | ⟨items, hcontent, -⟩ | ⟨v, hcontent, hv⟩
  . rw [Value.holdsLiteral, hcontent] at hliteral
    contradiction
  . rw [Value.holdsLiteral, hcontent] at hliteral
    contradiction
  . rw [hcontent, Option.getD_some] at htruthy ⊢
    rw [literalFault, hcontent]
    rcases hv with rfl | hv
    . contradiction
    . cases hv with
      | text s => exact declarationsIn_text htruthy
      | _ =>
        rw [Value.itemsOrNone, if_pos htruthy]
        rfl

theorem MixedForm.documentForm (h : MixedForm kinds document entries)
    (hnone : ∀ entry ∈ entries, entry.holdsPresentLiteral = false) : DocumentForm kinds document := by
  exact ⟨entries, h.content, fun entry hmem => (h.forms entry hmem).category (hnone entry hmem)⟩

theorem flatMap_contentItems_filter (entries : List Value)
    : (entries.filter fun entry => !entry.holdsLiteral).flatMap Value.contentItems
        = entries.flatMap Value.contentItems := by
  induction entries with
  | nil => rfl
  | cons entry rest ih =>
    rw [List.flatMap_cons, ← ih]
    cases hliteral : entry.holdsLiteral with
    | true => simp [hliteral, Value.contentItems_of_holdsLiteral hliteral]
    | false => simp [hliteral]

theorem documentEntries_of_content (h : document.under? "content" = some (.list entries))
    : documentEntries kinds document
        = ((entries.flatMap Value.contentItems).filterMap (declared? kinds)).filterMap
            Element.entry? := by
  rw [documentEntries, documentItems, Value.contentItems, h]

/--
Without entries that hold literals a document comes to the same registry.
-/
theorem MixedForm.ofDocument_filter (h : MixedForm kinds document entries)
    (hnone : ∀ entry ∈ entries, entry.holdsPresentLiteral = false) {other : Value}
    (hother : other.under? "content"
      = some (.list (entries.filter fun entry => !entry.holdsLiteral)))
    : ofDocument kinds other = ofDocument kinds document := by
  have hform : DocumentForm kinds other := by
    refine ⟨_, hother, fun entry hmem => ?_⟩
    have hmem' := List.mem_of_mem_filter hmem
    exact (h.forms entry hmem').category (hnone entry hmem')
  rw [hform.ofDocument_eq, (h.documentForm hnone).ofDocument_eq, documentEntries_of_content hother,
    documentEntries_of_content h.content, flatMap_contentItems_filter]

/--
The first literal that counts as present ends the reading of a document.
-/
theorem MixedForm.ofDocument_eq_fail (h : MixedForm kinds document entries)
    (hfirst : entries.find? Value.holdsPresentLiteral = some entry)
    : ofDocument kinds document = Logged.fail (literalFault entry) := by
  obtain ⟨hpresent, before, after, rfl, hbefore⟩ := List.find?_eq_some_iff_append.1 hfirst
  have hobject : ∃ t, document = .object t := by
    cases document with
    | object t => exact ⟨t, rfl⟩
    | _ => exact absurd h.content (by simp [Value.under?])
  have hread : ∃ found, (before.mapM fun category => do
      declarationsIn kinds (← (← category.field "content").itemsOrNone)) = .ok found := by
    refine ⟨before.map fun category => category.contentItems.filterMap (declared? kinds), ?_⟩
    rw [Outcome.mapM_eq_ok, List.forall₂_map_right_iff, List.forall₂_same]
    intro category hmem
    have hform := (h.forms category (List.mem_append_left _ hmem)).category
      (by simpa using hbefore category hmem)
    rw [Value.field_of_object hform.object, Outcome.ok_bind, hform.itemsOrNone_eq, Outcome.ok_bind,
      declarationsIn_eq hform.forall_items]
  obtain ⟨found, hfound⟩ := hread
  have hfails := (h.forms entry (by simp)).declarations_eq_error hpresent
  have hdeclarations : declarations kinds document = .error (literalFault entry) := by
    rw [declarations, Value.field_of_object hobject, Outcome.ok_bind, h.content, Option.getD_some,
      Value.itemsOrNone_eq_items rfl, Outcome.ok_bind, List.mapM_append, hfound, Outcome.ok_bind,
      List.mapM_cons, hfails]
    rfl
  rw [ofDocument, hdeclarations]
  rfl

/--
A document in which some entries hold literals has a registry exactly if none of these counts as
present. Then the entries that hold them do not matter. Otherwise it fails at the first of them.
-/
theorem ofDocument_of_mixed (h : MixedForm kinds document entries)
    : ((∃ r, (ofDocument kinds document).result = .ok r)
          ↔ ∀ entry ∈ entries, entry.holdsPresentLiteral = false)
        ∧ ((∀ entry ∈ entries, entry.holdsPresentLiteral = false) →
          (∃ (r : Registry) (names : List String), r.ids = names.map .text
            ∧ ofDocument kinds document = ⟨[knownRecord names], .ok r⟩)
          ∧ ∀ other : Value, other.under? "content"
              = some (.list (entries.filter fun entry => !entry.holdsLiteral)) →
              ofDocument kinds other = ofDocument kinds document)
        ∧ ∀ entry, entries.find? Value.holdsPresentLiteral = some entry →
            ofDocument kinds document = Logged.fail (literalFault entry) := by
  have hreturns : (∀ entry ∈ entries, entry.holdsPresentLiteral = false) →
      ∃ (r : Registry) (names : List String), r.ids = names.map .text
        ∧ ofDocument kinds document = ⟨[knownRecord names], .ok r⟩ := by
    intro hnone
    obtain ⟨names, hids, hdocument⟩ := (h.documentForm hnone).exists_ofDocument_eq h.texts
    exact ⟨_, names, hids, hdocument⟩
  refine ⟨⟨?_, ?_⟩, ?_, fun entry => h.ofDocument_eq_fail⟩
  . rintro ⟨r, hr⟩
    cases hfirst : entries.find? Value.holdsPresentLiteral with
    | none => simpa using List.find?_eq_none.1 hfirst
    | some entry =>
      rw [h.ofDocument_eq_fail hfirst] at hr
      contradiction
  . intro hnone
    obtain ⟨r, names, -, hdocument⟩ := hreturns hnone
    exact ⟨r, by rw [hdocument]⟩
  . exact fun hnone => ⟨hreturns hnone, fun other => h.ofDocument_filter hnone⟩

section Samples

def note (text : String) : Value :=
  .object [(.text "element", .text "annotation"), (.text "content", .text text)]

def annotated (text : String) : List Value :=
  [note text, .object [(.text "element", .text "category"),
    (.text "content", .list [structureOf (objectType (.text "Book") "Something to read")])]]

def annotatedDocument (text : String) : Value :=
  .object [(.text "content", .list (annotated text))]

theorem mixedForm_annotated (text : String)
    : MixedForm Kinds.builtIn (annotatedDocument text) (annotated text) where
  content := rfl
  forms := by
    simp only [annotated, List.forall_mem_cons, List.not_mem_nil, false_implies, implies_true, and_true]
    refine ⟨⟨⟨_, rfl⟩, .inr (.inr ⟨.text text, rfl, .inr (.text text)⟩)⟩, ⟨_, rfl⟩, .inr (.inl ?_)⟩
    refine ⟨_, rfl, ?_⟩
    rw [List.forall_mem_singleton]
    exact itemForm_structureOf (.inr rfl) _
  texts := by
    have hentries : documentEntries Kinds.builtIn (annotatedDocument text)
        = [(.text "Book", objectOf (.text "Book") "Something to read")] := rfl
    rw [hentries]
    simp [Table.TextKeyed]

/--
An empty annotation does no harm; one that says something leaves the document without a registry.
-/
theorem ofDocument_of_mixed_annotated
    : MixedForm Kinds.builtIn (annotatedDocument "") (annotated "")
        ∧ (∃ r names, ofDocument Kinds.builtIn (annotatedDocument "") = ⟨[knownRecord names], .ok r⟩)
        ∧ MixedForm Kinds.builtIn (annotatedDocument "For readers") (annotated "For readers")
        ∧ ofDocument Kinds.builtIn (annotatedDocument "For readers") = Logged.fail (.noPart "get") := by
  obtain ⟨-, hempty, -⟩ := ofDocument_of_mixed (mixedForm_annotated "")
  obtain ⟨⟨r, names, -, hr⟩, -⟩ := hempty (by decide)
  obtain ⟨-, -, hfails⟩ := ofDocument_of_mixed (mixedForm_annotated "For readers")
  exact ⟨mixedForm_annotated "", ⟨r, names, hr⟩, mixedForm_annotated "For readers",
    hfails (note "For readers") rfl⟩

end Samples

end Registry

end ApiElements
