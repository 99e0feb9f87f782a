import ApiElements.Proofs.Payload.Decorated

/-!
This module contains that a decoration which is repeated changes nothing: what a payload has got
from its data structures the first time is what it gets from them the second time.
-/

namespace ApiElements

variable {α : Type}

namespace Table

theorem get?_besides {names : List String} {s : String} (h : s ∉ names) (t : Table α)
    : (t.besides names).get? (.text s) = t.get? (.text s) := by
  unfold besides
  induction t with
  | nil => rfl
  | cons entry rest ih =>
    rw [List.filter_cons, get?_cons]
    split
    . rw [get?_cons, ih]
    . next hamong =>
      rw [ih, if_neg]
      intro hsame
      rw [Value.text_same] at hsame
      apply hamong
      rw [hsame]
      simpa using fun name hname => ne_of_mem_of_not_mem hname h

end Table

namespace Payload

open Change (Idle)

variable {kinds : Kinds} {r : Registry} {settings : Settings} {elapsed elapsed' : String}
variable {api item w : Value} {t u : Table Value} {items : List Value} {roots : List Element}

theorem Receives.field_eq {given : Rendered} {p q : Value} (h : Receives given p q) {name : String}
    (hname : name ∉ ["schema", "body"]) : q.field name = p.field name := by
  obtain ⟨t, u, rfl, rfl, hothers⟩ := h.others
  rw [Value.field, Value.field, ← Table.get?_besides hname u, hothers, Table.get?_besides hname]

theorem schemaWanted_object (settings : Settings) (t : Table Value)
    : decorateItem.schemaWanted settings (.object t)
        = .ok (settings.schemas.truthy && !hasSchema (.object t)) := by
  unfold decorateItem.schemaWanted
  split
  . next hschemas => simp [Value.field, hschemas, hasSchema]
  . next hschemas => simp [hschemas]

/--
An item that does not stop the decoration of a payload does not stop that of another one either, if
this one has a schema whenever the first one has.
-/
theorem exists_reached_decorateItem
    (hle : hasSchema (.object t) = true → hasSchema (.object u) = true)
    (h : (decorateItem kinds r settings (.object t) item).reached = some w)
    : ∃ w', (decorateItem kinds r settings (.object u) item).reached = some w' := by
  unfold decorateItem at h ⊢
  obtain ⟨declares, hdeclares, h⟩ := Change.reached_after_eq_some.1 h
  rw [Change.reached_after_of_ok hdeclares]
  split at h
  . next htrue =>
    obtain ⟨found, hfound, h⟩ := Change.reached_after_eq_some.1 h
    rw [if_pos htrue, Change.reached_after_of_ok hfound]
    cases found with
    | none => exact ⟨_, rfl⟩
    | some root =>
      simp only [Change.reached_after_eq_some, schemaWanted_object, Logged.result_liftM] at h
      obtain ⟨wanted, hwanted, rendered, hrendered, -⟩ := h
      injection hwanted with hwanted
      obtain ⟨rendered', hrendered'⟩ := @exists_rendered_of_less r settings root rendered wanted
        (settings.schemas.truthy && !hasSchema (.object u)) (by grind) hrendered
      dsimp only
      rw [schemaWanted_object, Change.reached_after_of_ok (Logged.result_liftM _),
        Change.reached_after_of_ok hrendered']
      exact ⟨_, rfl⟩
  . next hfalse =>
    rw [if_neg hfalse]
    exact ⟨_, rfl⟩

theorem exists_object_receive (t : Table Value) (root : Element)
    : ∃ u, receive r settings (.object t) root = .object u := by
  obtain ⟨_, u, -, hu, -⟩ := (@receives_receive r settings t root).others
  exact ⟨u, hu⟩

theorem exists_object_of_reached
    (h : (decorateItem kinds r settings (.object t) item).reached = some w)
    : ∃ u, w = .object u ∧ (hasSchema (.object t) = true → hasSchema w = true) := by
  rw [reached_decorateItem h]
  cases readItem kinds item with
  | none => exact ⟨t, rfl, id⟩
  | some root =>
    obtain ⟨u, hu⟩ := @exists_object_receive r settings t root
    refine ⟨u, hu, ?_⟩
    intro hschema
    simp [hasSchema_receive, hschema]

theorem hasSchema_of_reached
    (h : items.foldlM (fun payload item => (decorateItem kinds r settings payload item).reached)
      (.object t) = some w) : hasSchema (.object t) = true → hasSchema w = true := by
  induction items generalizing t with
  | nil =>
    injection h with h
    exact h ▸ id
  | cons item rest ih =>
    rw [List.foldlM_cons, Option.bind_eq_bind, Option.bind_eq_some_iff] at h
    obtain ⟨next, hnext, hrest⟩ := h
    obtain ⟨t', rfl, hkept⟩ := exists_object_of_reached hnext
    exact fun ht => ih hrest (hkept ht)

theorem exists_reached_items
    (h : items.foldlM (fun payload item => (decorateItem kinds r settings payload item).reached)
      (.object t) = some w)
    (hle : hasSchema w = true → hasSchema (.object u) = true)
    : ∃ w', items.foldlM
        (fun payload item => (decorateItem kinds r settings payload item).reached) (.object u)
        = some w' := by
  induction items generalizing t u with
  | nil => exact ⟨.object u, rfl⟩
  | cons item rest ih =>
    rw [List.foldlM_cons, Option.bind_eq_bind, Option.bind_eq_some_iff] at h
    obtain ⟨next, hnext, hrest⟩ := h
    obtain ⟨t', rfl, hkept⟩ := exists_object_of_reached hnext
    have hle' := hasSchema_of_reached hrest
    obtain ⟨next', hnext'⟩ := exists_reached_decorateItem (fun ht => hle (hle' (hkept ht))) hnext
    obtain ⟨u', rfl, hkept'⟩ := exists_object_of_reached hnext'
    rw [List.foldlM_cons, Option.bind_eq_bind, hnext', Option.bind_some]
    exact ih hrest fun hw => hkept' (hle hw)

theorem withText_withText (payload : Value) (name : String) (text text' : Option String)
    : withText (withText payload name text) name text' = withText payload name (text'.or text) := by
  cases text' with
  | none => cases payload <;> cases text <;> rfl
  | some text' =>
    cases payload with
    | object t =>
      cases text with
      | none => rfl
      | some text => exact congrArg Value.object (Table.put_put t _ _)
    | _ => rfl

theorem withText_of_under? {payload : Value} {name : String} {text : Option String}
    (h : ∀ s, text = some s → payload.under? name = some (.text s))
    : withText payload name text = payload := by
  cases payload with
  | object t =>
    cases text with
    | none => rfl
    | some s => exact congrArg Value.object (Table.put_of_get? (h s rfl))
  | _ => rfl

/--
A payload has no schema to receive if it has one or none can be made.
-/
def Settled (r : Registry) (settings : Settings) (roots : List Element) (payload : Value) : Prop :=
  hasSchema payload = true ∨ ∀ root ∈ roots, schemaMade r settings root = none

theorem receive_of_settled {payload : Value} {root : Element}
    (h : Settled r settings [root] payload)
    : receive r settings payload root = withText payload "body" (bodyMade r settings root) := by
  have hnone : (if hasSchema payload then none else schemaMade r settings root) = none := by
    rcases h with h | h
    . rw [if_pos h]
    . rw [h root (by simp), ite_self]
  rw [receive, hnone]
  cases payload <;> rfl

theorem foldl_receive_of_settled (h : Settled r settings roots (.object t))
    : roots.foldl (receive r settings) (.object t)
        =
      withText (.object t) "body" (roots.reverse.findSome? (bodyMade r settings)) := by
  induction roots generalizing t with
  | nil => rfl
  | cons root rest ih =>
    have hfirst : Settled r settings [root] (.object t) := by
      exact h.imp_right fun h => by simpa using h root (by simp)
    obtain ⟨u, hu⟩ := @exists_object_receive r settings t root
    have hrest : Settled r settings rest (.object u) := by
      rcases h with h | h
      . exact .inl (by simp [← hu, hasSchema_receive, h])
      . exact .inr fun root hroot => h root (List.mem_cons_of_mem _ hroot)
    rw [List.foldl_cons, hu, ih hrest, ← hu, receive_of_settled hfirst, withText_withText,
      List.reverse_cons, List.findSome?_append]
    congr 1
    cases hmade : bodyMade r settings root with
    | none => simp [hmade]
    | some body => simp [hmade]

theorem settled_of_receives {payload : Value} {roots : List Element} {body : Option String}
    (h : Receives
      ⟨body, if hasSchema payload then none else roots.findSome? (schemaMade r settings)⟩ payload w)
    : Settled r settings roots w := by
  by_cases hthere : hasSchema payload = true
  . rw [if_pos hthere] at h
    exact .inl ((h.hasSchema_eq (by simp)).trans hthere)
  . rw [if_neg hthere] at h
    cases hfirst : roots.findSome? (schemaMade r settings) with
    | none => exact .inr (List.findSome?_eq_none_iff.1 hfirst)
    | some schema =>
      rw [hfirst] at h
      obtain ⟨root, -, hmade⟩ := List.exists_of_findSome?_eq_some hfirst
      refine .inl ((h.hasSchema_eq ?_).trans (by simp))
      rintro _ ⟨⟩
      exact schemaMade_ne_empty hmade

/--
A decorated payload is left as it is when it is decorated again.
-/
theorem idle_decoratePayload {payload : Value}
    (h : (decoratePayload kinds r settings payload).reached = some w)
    : Idle (decoratePayload kinds r settings) w := by
  have hreceives := receives_texts h
  obtain ⟨items, hitems, hrun⟩ := reached_decoratePayload.1 h
  obtain ⟨t, u, rfl, rfl, -⟩ := hreceives.others
  have hitems' : (Value.object u).field "content" >>= Value.itemsOrNone = .ok items := by
    rw [hreceives.field_eq (by decide), hitems]
  -- The second time the items are the same and no schema is missing that could be made.
  obtain ⟨w', hrun'⟩ := exists_reached_items hrun id
  have hstructures : dataStructures kinds (.object u) = dataStructures kinds (.object t) := by
    rw [dataStructures, dataStructures, hitems, hitems']
  have hsettled : Settled r settings (dataStructures kinds (.object t)) (.object u) :=
    settled_of_receives hreceives
  have hreached := reached_decoratePayload.2 ⟨items, hitems', hrun'⟩
  have hnow := now_decoratePayload hreached
  rw [hstructures, foldl_receive_of_settled hsettled, withText_of_under?] at hnow
  . rw [Idle, hreached, hnow]
  . intro body hbody
    rw [hreceives.body, texts, hbody]
    rfl

/--
Decorating an API that has been decorated returns as before and changes nothing.
-/
theorem decorate_decorate (h : (decorate kinds settings elapsed api).result = .ok r)
    : (decorate kinds settings elapsed' (decorate kinds settings elapsed api).api).result = .ok r
        ∧ (decorate kinds settings elapsed' (decorate kinds settings elapsed api).api).api
            = (decorate kinds settings elapsed api).api := by
  obtain ⟨hregistry, hreached⟩ := decorate_eq_ok.1 h
  have hwalks := walks_decorateAll (decoratePayload kinds r settings)
  have hidle := hwalks.idle _ _ hreached fun payload hpayload =>
    idle_decoratePayload (reached_of_decorate h payload hpayload)
  have hregistry' : (Registry.ofDocument kinds (decorate kinds settings elapsed api).api).result
      = .ok r := by
    rw [hwalks.now _ _ hreached, ofDocument_mapPayloads, hregistry]
  have hagain : (decorate kinds settings elapsed' (decorate kinds settings elapsed api).api).api
      = (decorate kinds settings elapsed api).api :=
    api_of_reached hregistry' hidle
  refine ⟨decorate_eq_ok.2 ⟨hregistry', ?_⟩, hagain⟩
  rw [hagain, hidle]

theorem decorate_decorate_answers
    : (decorate Kinds.builtIn {} "" answers).result = .ok ⟨[]⟩
        ∧ (decorate Kinds.builtIn {} "" (decorate Kinds.builtIn {} "" answers).api).result
            = .ok ⟨[]⟩
        ∧ (decorate Kinds.builtIn {} "" (decorate Kinds.builtIn {} "" answers).api).api
            = (decorate Kinds.builtIn {} "" answers).api := by
  exact ⟨decorate_answers, decorate_decorate decorate_answers⟩

end Payload

end ApiElements
