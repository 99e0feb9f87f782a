import ApiElements.Proofs.Payload.Skipping
import ApiElements.Proofs.Payload.Texts

/-!
This module contains what the decoration of an API comes to: the texts that a payload gets depend on
that payload alone, and nothing but texts of payloads changes.
-/

namespace ApiElements

namespace Payload

variable {kinds : Kinds} {r : Registry} {settings : Settings} {elapsed : String} {api : Value}

theorem api_of_reached {api' : Value} (hregistry : (Registry.ofDocument kinds api).result = .ok r)
    (h : (decorateAll (decoratePayload kinds r settings) api).reached = some api')
    : (decorate kinds settings elapsed api).api = api' := by
  rw [Change.reached_eq_some] at h
  unfold decorate
  simp only [hregistry, h]

theorem decorate_eq_ok
    : (decorate kinds settings elapsed api).result = .ok r
        ↔
      (Registry.ofDocument kinds api).result = .ok r
        ∧ (decorateAll (decoratePayload kinds r settings) api).reached
            = some (decorate kinds settings elapsed api).api := by
  constructor
  . intro h
    have hregistry : (Registry.ofDocument kinds api).result = .ok r := by
      unfold decorate at h
      cases hregistry : (Registry.ofDocument kinds api).result with
      | error fault => simp [hregistry] at h
      | ok r' =>
        simp only [hregistry] at h
        split at h
        . contradiction
        . exact h
    unfold decorate at h ⊢
    simp only [hregistry] at h ⊢
    rw [Change.reached_eq_some]
    cases hstopped : (decorateAll (decoratePayload kinds r settings) api).stopped with
    | some fault => simp [hstopped] at h
    | none => exact ⟨trivial, rfl, rfl⟩
  . rintro ⟨hregistry, hreached⟩
    unfold decorate
    simp only [hregistry, (Change.reached_eq_some.1 hreached).1]

theorem reached_of_decorate (h : (decorate kinds settings elapsed api).result = .ok r)
    : ∀ payload ∈ payloads api, (decoratePayload kinds r settings payload).reached
        = some (decoratePayload kinds r settings payload).now := by
  obtain ⟨-, hreached⟩ := decorate_eq_ok.1 h
  intro payload hpayload
  rw [Change.reached_eq_some]
  exact ⟨(walks_decorateAll _).stopped _ _ hreached payload hpayload, rfl⟩

theorem ofDocument_mapPayloads (kinds : Kinds) (f : Value → Value) (api : Value)
    : Registry.ofDocument kinds (mapPayloads f api) = Registry.ofDocument kinds api := by
  unfold Registry.ofDocument Registry.declarations mapPayloads
  rw [Value.field_mapListed_of_ne (by decide)]

/--
The API that a decoration leaves is the one before with other payloads. Each payload has the same
entries as before, but for the texts that it gets, which depend on nothing else than itself, the
declared types and the settings. A schema that is there stays, and so does a body if no bodies are
asked for. The types are those that the API declared at first.
-/
theorem decorate_framed (h : (decorate kinds settings elapsed api).result = .ok r)
    : (Registry.ofDocument kinds api).result = .ok r
        ∧ (decorate kinds settings elapsed api).api
            = mapPayloads (fun payload => (decoratePayload kinds r settings payload).now) api
        ∧ ∀ payload ∈ payloads api,
            let payload' := (decoratePayload kinds r settings payload).now
            Receives (texts kinds r settings payload) payload payload'
              ∧ (hasSchema payload = true → payload'.under? "schema" = payload.under? "schema")
              ∧ (settings.examples.truthy = false →
                  payload'.under? "body" = payload.under? "body") := by
  obtain ⟨hregistry, hreached⟩ := decorate_eq_ok.1 h
  refine ⟨hregistry, (walks_decorateAll _).now _ _ hreached, ?_⟩
  intro payload hpayload payload'
  have hreceives := receives_texts (reached_of_decorate h payload hpayload)
  refine ⟨hreceives, ?_, ?_⟩
  . intro hschema
    rw [hreceives.schema, texts, if_pos hschema]
    rfl
  . intro hexamples
    have hnone : ∀ root, bodyMade r settings root = none := by
      intro root
      rw [bodyMade, hexamples]
      rfl
    rw [hreceives.body, texts, List.findSome?_eq_none_iff.2 fun root _ => hnone root]
    rfl

def answering (payloads : List Value) : Value :=
  enclose "resourceGroups" <| enclose "resources" <| enclose "actions" <| enclose "examples" <|
    .object [(.text "responses", .list payloads)]

def anyText : Value :=
  .object [(.text "element", .text "string")]

def answers : Value :=
  answering [
    .object [(.text "content",
      .list [dataStructure seven, dataStructure keyless, dataStructure anyText])],
    .object [(.text "schema", .text "a number"), (.text "content", .list [dataStructure seven])]]

theorem decorate_answers : (decorate Kinds.builtIn {} "" answers).result = .ok ⟨[]⟩ := by
  have hregistry : (Registry.ofDocument Kinds.builtIn answers).result = .ok ⟨[]⟩ := rfl
  have hstopped : (decorateAll (decoratePayload Kinds.builtIn ⟨[]⟩ {}) answers).stopped.isNone
      = true := by decide +kernel
  unfold decorate
  simp only [hregistry, Option.isNone_iff_eq_none.1 hstopped]

theorem decorate_framed_answers
    : (decorate Kinds.builtIn {} "" answers).result = .ok ⟨[]⟩
        ∧ (Registry.ofDocument Kinds.builtIn answers).result = .ok ⟨[]⟩
        ∧ (decorate Kinds.builtIn {} "" answers).api
            = mapPayloads
                (fun payload => (decoratePayload Kinds.builtIn ⟨[]⟩ {} payload).now) answers
        ∧ ∀ payload ∈ payloads answers,
            let payload' := (decoratePayload Kinds.builtIn ⟨[]⟩ {} payload).now
            Receives (texts Kinds.builtIn ⟨[]⟩ {} payload) payload payload'
              ∧ (hasSchema payload = true → payload'.under? "schema" = payload.under? "schema")
              ∧ ((Settings.examples {}).truthy = false →
                  payload'.under? "body" = payload.under? "body") := by
  exact ⟨decorate_answers, decorate_framed decorate_answers⟩

def FirstText (made : Element → Option String) (roots : List Element) (root : Element)
    (text : Value) : Prop :=
  ∃ before after s, roots = before ++ root :: after ∧ (∀ e ∈ before, made e = none)
    ∧ made root = some s ∧ text = .text s

theorem exists_firstText {made : Element → Option String} {roots : List Element} {text : Value}
    (h : (roots.findSome? made).map Value.text = some text)
    : ∃ root, FirstText made roots root text := by
  rw [Option.map_eq_some_iff] at h
  obtain ⟨s, hs, rfl⟩ := h
  obtain ⟨before, root, after, rfl, hmade, hbefore⟩ := List.findSome?_eq_some_iff.1 hs
  exact ⟨root, before, after, s, rfl, hbefore, hmade, rfl⟩

/--
If a payload that had neither gets both a schema and a body, then they are those of the first data
structure that gives a schema and of the last one that gives a body. So they belong to the same data
structure if no other one gives a body, as when there is only one.
-/
theorem decorate_paired (h : (decorate kinds settings elapsed api).result = .ok r)
    : List.Forall₂ (fun payload payload' =>
        payload.under? "schema" = none → payload.under? "body" = none →
          ∀ schema body,
            payload'.under? "schema" = some schema → payload'.under? "body" = some body →
            ∃ first last,
              FirstText (schemaMade r settings) (dataStructures kinds payload) first schema
                ∧ FirstText (bodyMade r settings) (dataStructures kinds payload).reverse last body
                ∧ ((∀ root ∈ dataStructures kinds payload,
                      root ≠ first → bodyMade r settings root = none) → last = first))
      (payloads api) (payloads (decorate kinds settings elapsed api).api) := by
  obtain ⟨-, hreached⟩ := decorate_eq_ok.1 h
  rw [(walks_decorateAll _).now _ _ hreached, payloads_mapPayloads, List.forall₂_map_right_iff,
    List.forall₂_same]
  intro payload hpayload hschema hbody schema body hschema' hbody'
  have hreceives := receives_texts (reached_of_decorate h payload hpayload)
  have hthere : hasSchema payload = false := by
    rw [hasSchema, hschema]
    rfl
  rw [hreceives.schema, hschema, Option.or_none, texts, hthere] at hschema'
  rw [hreceives.body, hbody, Option.or_none] at hbody'
  obtain ⟨first, hfirst⟩ := exists_firstText hschema'
  obtain ⟨last, hlast⟩ := exists_firstText hbody'
  refine ⟨first, last, hfirst, hlast, ?_⟩
  intro hothers
  obtain ⟨before, after, s, hroots, -, hmade, -⟩ := hlast
  have hmem : last ∈ dataStructures kinds payload := by
    rw [← List.mem_reverse, hroots]
    simp
  by_contra hne
  simp [hothers last hmem hne] at hmade

theorem decorate_paired_answers
    : (decorate Kinds.builtIn {} "" answers).result = .ok ⟨[]⟩
        ∧ List.Forall₂ (fun payload payload' =>
            payload.under? "schema" = none → payload.under? "body" = none →
              ∀ schema body,
                payload'.under? "schema" = some schema → payload'.under? "body" = some body →
                  ∃ first last,
                    FirstText (schemaMade ⟨[]⟩ {}) (dataStructures Kinds.builtIn payload) first
                        schema
                      ∧ FirstText (bodyMade ⟨[]⟩ {})
                          (dataStructures Kinds.builtIn payload).reverse last body
                      ∧ ((∀ root ∈ dataStructures Kinds.builtIn payload,
                            root ≠ first → bodyMade ⟨[]⟩ {} root = none) → last = first))
            (payloads answers) (payloads (decorate Kinds.builtIn {} "" answers).api) := by
  exact ⟨decorate_answers, decorate_paired decorate_answers⟩

end Payload

end ApiElements
