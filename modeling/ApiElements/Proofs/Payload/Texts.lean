import ApiElements.Proofs.Payload.Isolation
import ApiElements.Proofs.Payload.Walk

/-!
This module contains what the decoration of a payload comes to. Its data structures hand their texts
to it one by one: a schema only while it has none, a body always. So it ends up with the first
schema and the last body that can be made.
-/

namespace ApiElements

variable {α : Type}

namespace Table

def besides (names : List String) (t : Table α) : Table α :=
  t.filter fun entry => !names.any fun name => (Value.text name).same entry.1

theorem besides_put {names : List String} {s : String} (h : s ∈ names) (t : Table α) (x : α)
    : (t.put (.text s) x).besides names = t.besides names := by
  have hs : ∀ key : Value, (Value.text s).same key = true →
      (names.any fun name => (Value.text name).same key) = true :=
    fun key hkey => List.any_eq_true.2 ⟨s, h, hkey⟩
  induction t with
  | nil => simp [put, besides, h]
  | cons entry rest ih =>
    rw [put_cons]
    unfold besides at ih ⊢
    split
    . next hsame => simp [hs entry.1 hsame]
    . rw [List.filter_cons, List.filter_cons, ih]

end Table

namespace Json

theorem render_object_ne_empty {indent : Value} {t : Table Value} {text : String}
    (h : render indent (.object t) = .ok text) : text.isEmpty = false := by
  unfold render at h
  simp only [Outcome.bind_eq_ok, Except.ok.injEq] at h
  obtain ⟨layout, -, chars, hchars, rfl⟩ := h
  cases t with
  | nil =>
    injection hchars with hchars
    subst hchars
    rfl
  | cons entry rest =>
    rw [print, Outcome.bind_eq_ok] at hchars
    obtain ⟨content, -, hchars⟩ := hchars
    injection hchars with hchars
    subst hchars
    simp [Layout.enclose]

end Json

namespace Payload

variable {kinds : Kinds} {r : Registry} {settings : Settings} {payload item w : Value}
variable {root : Element}

def hasSchema (payload : Value) : Bool :=
  ((payload.under? "schema").getD .null).truthy

def schemaMade (r : Registry) (settings : Settings) (root : Element) : Option String :=
  if settings.schemas.truthy then madeText (schemaText r root settings) else none

def bodyMade (r : Registry) (settings : Settings) (root : Element) : Option String :=
  if settings.examples.truthy then madeText (bodyText r root settings) else none

def readItem (kinds : Kinds) (item : Value) : Option Element :=
  match Registry.declares item, Registry.declaration kinds item with
  | .ok true, .ok root => some root
  | _, _ => none

def dataStructures (kinds : Kinds) (payload : Value) : List Element :=
  match payload.field "content" >>= Value.itemsOrNone with
  | .ok items => items.filterMap (readItem kinds)
  | .error _ => []

/--
The payload with the texts of a data structure: the schema only if there was none.
-/
def receive (r : Registry) (settings : Settings) (payload : Value) (root : Element) : Value :=
  withText
    (withText payload "schema" (if hasSchema payload then none else schemaMade r settings root))
    "body" (bodyMade r settings root)

section Rendering

variable {target : Target} {text : Logged (Option String)} {rendered : Rendered}

theorem eq_madeText_of_orLog {made : Option String}
    (h : (orLog target root settings text).result = .ok made) : made = madeText text := by
  unfold orLog Logged.attempt at h
  unfold madeText
  rw [Logged.result_bind, Outcome.ok_bind] at h
  cases hresult : text.result with
  | ok made' =>
    rw [hresult] at h
    injection h with h
    exact h.symm
  | error fault =>
    rw [hresult] at h
    dsimp only at h
    split at h
    . rw [Logged.result_bind, Outcome.bind_eq_ok] at h
      obtain ⟨_, -, h⟩ := h
      injection h with h
      exact h.symm
    . contradiction

theorem render_eq_ok
    : (render r root settings).result = .ok rendered
        ↔
      (if settings.schemas.truthy then
          (orLog .schema root settings (schemaText r root settings)).result
        else .ok none) = .ok rendered.schema
        ∧ (if settings.examples.truthy then
            (orLog .body root settings (bodyText r root settings)).result
          else .ok none) = .ok rendered.body := by
  have hrendered : ∀ body schema, (⟨body, schema⟩ : Rendered) = rendered
      ↔ rendered.schema = schema ∧ rendered.body = body := by
    intro body schema
    constructor
    . rintro rfl
      exact ⟨rfl, rfl⟩
    . rintro ⟨rfl, rfl⟩
      rfl
  unfold render
  cases settings.schemas.truthy with
  | true =>
    cases settings.examples.truthy with
    | true =>
      simp only [if_true, Logged.result_bind, Outcome.bind_eq_ok, Logged.pure_result,
        Except.ok.injEq, hrendered]
      grind
    | false =>
      simp only [if_true, Bool.false_eq_true, if_false, Logged.result_bind, Outcome.bind_eq_ok,
        Logged.pure_result, Except.ok.injEq, hrendered]
      grind
  | false =>
    cases settings.examples.truthy with
    | true =>
      simp only [if_true, Bool.false_eq_true, if_false, Logged.result_bind, Outcome.bind_eq_ok,
        Logged.pure_result, Except.ok.injEq, hrendered]
      grind
    | false =>
      simp only [Bool.false_eq_true, if_false, Logged.result_bind, Outcome.bind_eq_ok,
        Logged.pure_result, Except.ok.injEq, hrendered]
      grind

theorem eq_of_asked {asked : Bool} {made : Option String}
    (h : (if asked then (orLog target root settings text).result else .ok none) = .ok made)
    : made = if asked then madeText text else none := by
  cases asked with
  | true => exact eq_madeText_of_orLog h
  | false =>
    injection h with h
    exact h.symm

theorem rendered_eq (h : (render r root settings).result = .ok rendered)
    : rendered = ⟨bodyMade r settings root, schemaMade r settings root⟩ := by
  obtain ⟨hschema, hbody⟩ := render_eq_ok.1 h
  have hschema' := eq_of_asked hschema
  have hbody' := eq_of_asked hbody
  obtain ⟨body, schema⟩ := rendered
  exact Rendered.mk.injEq .. ▸ ⟨hbody', hschema'⟩

theorem bodyMade_of_schemas (r : Registry) (settings : Settings) (v : Value) (root : Element)
    : bodyMade r { settings with schemas := v } root = bodyMade r settings root := by
  rfl

theorem schemaMade_of_wanted (r : Registry) (settings : Settings) (there : Bool) (root : Element)
    : schemaMade r { settings with schemas := .bool (settings.schemas.truthy && !there) } root
        =
      if there then none else schemaMade r settings root := by
  cases there with
  | true =>
    unfold schemaMade
    rw [Bool.not_true, Bool.and_false]
    rfl
  | false =>
    unfold schemaMade
    rw [Bool.not_false, Bool.and_true]
    rfl

theorem exists_rendered_of_less {wanted wanted' : Bool} (hle : wanted' = true → wanted = true)
    (h : (render r root { settings with schemas := .bool wanted }).result = .ok rendered)
    : ∃ rendered', (render r root { settings with schemas := .bool wanted' }).result
        = .ok rendered' := by
  cases wanted' with
  | true =>
    rw [hle rfl] at h
    exact ⟨rendered, h⟩
  | false =>
    obtain ⟨-, hbody⟩ := render_eq_ok.1 h
    exact ⟨⟨rendered.body, none⟩, render_eq_ok.2 ⟨rfl, hbody⟩⟩

theorem schemaMade_ne_empty {schema : String} (h : schemaMade r settings root = some schema)
    : schema.isEmpty = false := by
  unfold schemaMade madeText at h
  split at h
  . split at h
    . next made hmade =>
      subst h
      unfold schemaText at hmade
      simp only [Logged.result_bind, Logged.result_map, Logged.result_liftM, Outcome.bind_eq_ok,
        Outcome.map_eq_ok, Option.some.injEq] at hmade
      obtain ⟨s, -, text, htext, rfl⟩ := hmade
      obtain ⟨t, ht⟩ : ∃ t, s.document settings.dialect = .object t := by
        unfold Schema.document
        cases s
        exact ⟨_, rfl⟩
      rw [ht] at htext
      exact Json.render_object_ne_empty htext
    . contradiction
  . contradiction

end Rendering

section Item

theorem result_decodeItem {found : Option Element}
    (h : (decodeItem kinds item).result = .ok found) (hdeclares : Registry.declares item = .ok true)
    : found = readItem kinds item := by
  unfold decodeItem at h
  unfold readItem
  rw [hdeclares]
  cases hdeclaration : Registry.declaration kinds item with
  | ok root =>
    rw [hdeclaration] at h
    injection h with h
    exact h.symm
  | error fault =>
    rw [hdeclaration] at h
    dsimp only at h
    split at h
    . injection h with h
      exact h.symm
    . contradiction

theorem schemaWanted_eq_ok {wanted : Bool}
    (h : decorateItem.schemaWanted settings payload = .ok wanted)
    : wanted = (settings.schemas.truthy && !hasSchema payload) := by
  unfold decorateItem.schemaWanted at h
  split at h
  . next hschemas =>
    rw [Outcome.bind_eq_ok] at h
    obtain ⟨schema, hschema, h⟩ := h
    cases payload with
    | object t =>
      injection hschema with hschema
      injection h with h
      rw [← h, ← hschema, hschemas, Bool.true_and, hasSchema, Value.under?_object]
    | _ => contradiction
  . next hschemas =>
    injection h with h
    simp [← h, hschemas]

/--
Unless it is stopped, an item gives its texts to the payload if it can be read, and else nothing.
-/
theorem reached_decorateItem (h : (decorateItem kinds r settings payload item).reached = some w)
    : w = ((readItem kinds item).map (receive r settings payload)).getD payload := by
  unfold decorateItem at h
  rw [Change.reached_after_eq_some] at h
  obtain ⟨declares, hdeclares, h⟩ := h
  rw [Logged.result_liftM] at hdeclares
  split at h
  . next htrue =>
    rw [htrue] at hdeclares
    rw [Change.reached_after_eq_some] at h
    obtain ⟨found, hfound, h⟩ := h
    have hread := result_decodeItem hfound hdeclares
    subst hread
    cases hroot : readItem kinds item with
    | none =>
      rw [hroot] at h
      exact (Change.reached_eq_some.1 h).2.symm
    | some root =>
      simp only [hroot, Change.reached_after_eq_some, Logged.result_liftM] at h
      obtain ⟨wanted, hwanted, rendered, hrendered, h⟩ := h
      have hwanted' := schemaWanted_eq_ok hwanted
      have htexts := rendered_eq hrendered
      subst hwanted' htexts
      rw [← (Change.reached_eq_some.1 h).2, bodyMade_of_schemas, schemaMade_of_wanted]
      rfl
  . next hfalse =>
    have hread : readItem kinds item = none := by
      unfold readItem
      rw [hdeclares]
      simp [hfalse]
    rw [hread]
    exact (Change.reached_eq_some.1 h).2.symm

end Item

section Run

variable {items : List Value}

theorem reached_decoratePayload
    : (decoratePayload kinds r settings payload).reached = some w
        ↔
      ∃ items, payload.field "content" >>= Value.itemsOrNone = .ok items
        ∧ items.foldlM (fun payload item => (decorateItem kinds r settings payload item).reached)
            payload = some w := by
  unfold decoratePayload
  rw [Change.reached_after_eq_some]
  simp only [Logged.result_liftM, Change.reached_foldl]
  rfl

theorem eq_foldl_receive
    (h : items.foldlM (fun payload item => (decorateItem kinds r settings payload item).reached)
      payload = some w)
    : w = (items.filterMap (readItem kinds)).foldl (receive r settings) payload := by
  induction items generalizing payload with
  | nil =>
    injection h with h
    exact h.symm
  | cons item rest ih =>
    rw [List.foldlM_cons, Option.bind_eq_bind, Option.bind_eq_some_iff] at h
    obtain ⟨next, hnext, hrest⟩ := h
    rw [ih hrest, reached_decorateItem hnext]
    cases hread : readItem kinds item with
    | none => simp [hread]
    | some root => simp [hread]

/--
Unless it is stopped, a payload has received the texts of each of its data structures.
-/
theorem now_decoratePayload (h : (decoratePayload kinds r settings payload).reached = some w)
    : w = (dataStructures kinds payload).foldl (receive r settings) payload := by
  obtain ⟨items, hitems, hrun⟩ := reached_decoratePayload.1 h
  rw [eq_foldl_receive hrun, dataStructures, hitems]

end Run

section Receives

variable {roots : List Element} {p q : Value} {given given' : Rendered}

/--
The texts that a payload gets: the schema of the first data structure that has one, unless it came
with a schema, and the body of the last that has one.
-/
def texts (kinds : Kinds) (r : Registry) (settings : Settings) (payload : Value) : Rendered where
  schema :=
    if hasSchema payload then none
    else (dataStructures kinds payload).findSome? (schemaMade r settings)
  body := (dataStructures kinds payload).reverse.findSome? (bodyMade r settings)

/--
The second payload is the first one with some texts put in; all other entries are the same.
-/
structure Receives (given : Rendered) (p q : Value) : Prop where
  others : ∃ t u, p = .object t ∧ q = .object u
    ∧ Table.besides ["schema", "body"] u = Table.besides ["schema", "body"] t
  schema : q.under? "schema" = (given.schema.map Value.text).or (p.under? "schema")
  body : q.under? "body" = (given.body.map Value.text).or (p.under? "body")

theorem receives_self (t : Table Value) : Receives {} (.object t) (.object t) := by
  exact ⟨⟨t, t, rfl, rfl, rfl⟩, rfl, rfl⟩

theorem Receives.trans {w : Value} (h : Receives given p q) (h' : Receives given' q w)
    : Receives ⟨given'.body.or given.body, given'.schema.or given.schema⟩ p w where
  others := by
    obtain ⟨t, u, rfl, rfl, heq⟩ := h.others
    obtain ⟨u', x, hu', rfl, heq'⟩ := h'.others
    injection hu' with hu'
    subst hu'
    exact ⟨t, x, rfl, rfl, heq'.trans heq⟩
  schema := by rw [h'.schema, h.schema, Option.map_or, Option.or_assoc]
  body := by rw [h'.body, h.body, Option.map_or, Option.or_assoc]

theorem receives_schema (t : Table Value) (text : Option String)
    : Receives ⟨none, text⟩ (.object t) (withText (.object t) "schema" text) := by
  cases text with
  | none => exact receives_self t
  | some text =>
    constructor
    . exact ⟨t, _, rfl, rfl, Table.besides_put (by simp) t _⟩
    . exact Table.get?_put_text t _
    . exact Table.get?_put_text_of_ne t (by decide) _

theorem receives_body (t : Table Value) (text : Option String)
    : Receives ⟨text, none⟩ (.object t) (withText (.object t) "body" text) := by
  cases text with
  | none => exact receives_self t
  | some text =>
    constructor
    . exact ⟨t, _, rfl, rfl, Table.besides_put (by simp) t _⟩
    . exact Table.get?_put_text_of_ne t (by decide) _
    . exact Table.get?_put_text t _

theorem receives_receive (t : Table Value) (root : Element)
    : Receives
        ⟨bodyMade r settings root,
          if hasSchema (.object t) then none else schemaMade r settings root⟩
        (.object t) (receive r settings (.object t) root) := by
  have hschema := receives_schema t
    (if hasSchema (.object t) then none else schemaMade r settings root)
  obtain ⟨_, u, -, hu, -⟩ := hschema.others
  have hbody := receives_body u (bodyMade r settings root)
  rw [← hu] at hbody
  have hboth := hschema.trans hbody
  rwa [Option.or_none, Option.none_or] at hboth

theorem Receives.hasSchema_eq (h : Receives given p q)
    (hgiven : ∀ schema, given.schema = some schema → schema.isEmpty = false)
    : hasSchema q = (given.schema.isSome || hasSchema p) := by
  unfold hasSchema
  rw [h.schema]
  cases hschema : given.schema with
  | none => rfl
  | some schema => simp [Value.truthy, hgiven schema hschema]

theorem hasSchema_receive (t : Table Value) (root : Element)
    : hasSchema (receive r settings (.object t) root)
        = ((schemaMade r settings root).isSome || hasSchema (.object t)) := by
  rw [(receives_receive t root).hasSchema_eq]
  . cases hasSchema (.object t) with
    | true => simp
    | false => rfl
  . intro schema h
    split at h
    . contradiction
    . exact schemaMade_ne_empty h

/--
Of the schemas that are handed over the first one is received, of the bodies the last one.
-/
theorem receives_foldl (roots : List Element) (t : Table Value)
    : Receives
        ⟨roots.reverse.findSome? (bodyMade r settings),
          if hasSchema (.object t) then none else roots.findSome? (schemaMade r settings)⟩
        (.object t) (roots.foldl (receive r settings) (.object t)) := by
  induction roots generalizing t with
  | nil => simpa using receives_self t
  | cons root rest ih =>
    have hfirst := @receives_receive r settings t root
    have hthere := @hasSchema_receive r settings t root
    obtain ⟨_, u, -, hu, -⟩ := hfirst.others
    have hrest := ih u
    rw [← hu] at hrest
    have hboth := hfirst.trans hrest
    have hbody : (root :: rest).reverse.findSome? (bodyMade r settings)
        = (rest.reverse.findSome? (bodyMade r settings)).or (bodyMade r settings root) := by
      rw [List.reverse_cons, List.findSome?_append]
      cases hmade : bodyMade r settings root with
      | none => simp [hmade]
      | some body => simp [hmade]
    rw [hthere] at hboth
    rw [List.foldl_cons, hbody, List.findSome?_cons]
    cases hmade : schemaMade r settings root with
    | none => simpa [hmade] using hboth
    | some schema => simpa [hmade] using hboth

theorem receives_texts (h : (decoratePayload kinds r settings payload).reached = some w)
    : Receives (texts kinds r settings payload) payload w := by
  obtain ⟨t, rfl⟩ : ∃ t, payload = .object t := by
    obtain ⟨items, hitems, -⟩ := reached_decoratePayload.1 h
    cases payload with
    | object t => exact ⟨t, rfl⟩
    | _ => contradiction
  rw [now_decoratePayload h]
  exact receives_foldl (dataStructures kinds (.object t)) t

end Receives

end Payload

end ApiElements
