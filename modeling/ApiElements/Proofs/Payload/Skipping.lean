import ApiElements.Proofs.Payload.Change
import ApiElements.Proofs.Payload.Foreseen

/-!
This module contains that data structures which are malformed are skipped: without them an API is
decorated in the same way, but for the warnings about them.
-/

namespace ApiElements

open Value (Listwise Within)

namespace Payload

structure Malformed (kinds : Kinds) (item : Value) : Prop where
  declares : Registry.declares item = .ok true
  fails : ∃ fault, Registry.declaration kinds item = .error fault ∧ isDecodeFault fault = true

def IsSkipWarning (record : Log.Record) : Prop :=
  ∃ fault, isDecodeFault fault = true
    ∧ record
        = ⟨.warning, .payloads, "Could not decode payload data structure: " ++ fault.description⟩

/--
Two payloads are the same, but for malformed data structures that only the first one has.
-/
def Leaner (kinds : Kinds) (payload payload' : Value) : Prop :=
  Within ["content"] (fun v w => ∃ items items', v = .list items ∧ w = .list items'
    ∧ Thinned (Malformed kinds) items items') payload payload'

def LeanerApi (kinds : Kinds) : Value → Value → Prop :=
  Within ["resourceGroups"] <| Listwise <|
    Within ["resources"] <| Listwise <|
      Within ["actions"] <| Listwise <|
        Within ["examples"] <| Listwise <|
          Within ["requests", "responses"] <| Listwise <| Leaner kinds

variable {kinds : Kinds} {r : Registry} {settings : Settings} {payload payload' item : Value}

theorem malformed_of_decode {t : Table Value} {d : Value} {rest : List Value} {fault : Fault}
    (htag : t.get? (.text "element") = some (.text "dataStructure"))
    (hcontent : t.get? (.text "content") = some (.list (d :: rest)))
    (hdecode : Value.decode kinds d = .error fault) (hfault : isDecodeFault fault = true)
    : Malformed kinds (.object t) := by
  have htag' : (Value.object t).field "element" = .ok (.text "dataStructure") := by
    rw [Value.field, htag, Option.getD_some]
  have hcontent' : (Value.object t).field "content" = .ok (.list (d :: rest)) := by
    rw [Value.field, hcontent, Option.getD_some]
  constructor
  . unfold Registry.declares
    rw [htag', hcontent']
    rfl
  . refine ⟨fault, ?_, hfault⟩
    unfold Registry.declaration
    rw [hcontent', Outcome.ok_bind]
    exact hdecode

theorem malformed_of_headed {t : Table Value} {d : Value} {rest : List Value}
    (htag : t.get? (.text "element") = some (.text "dataStructure"))
    (hcontent : t.get? (.text "content") = some (.list (d :: rest)))
    (hdecode : ∀ e, Value.decode kinds d ≠ .ok e)
    (hheaded : ∀ u : Table Value, d.Parses (.object u) → u.Headed) : Malformed kinds (.object t) := by
  cases hd : Value.decode kinds d with
  | ok e => exact absurd hd (hdecode e)
  | error fault =>
    exact malformed_of_decode htag hcontent hd (Value.foreseen_decode hheaded fault hd)

theorem decorateItem_malformed (h : Malformed kinds item) (payload : Value)
    : ∃ record, IsSkipWarning record
        ∧ decorateItem kinds r settings payload item = ⟨payload, [record], none⟩ := by
  obtain ⟨fault, hdeclaration, hfault⟩ := h.fails
  refine ⟨_, ⟨fault, hfault, rfl⟩, ?_⟩
  have hdecode : decodeItem kinds item
      = ⟨[⟨.warning, .payloads,
          "Could not decode payload data structure: " ++ fault.description⟩], .ok none⟩ := by
    unfold decodeItem
    rw [hdeclaration]
    dsimp only
    rw [if_pos hfault]
    rfl
  unfold decorateItem
  rw [h.declares, hdecode]
  rfl

theorem Leaner.withText (h : Leaner kinds payload payload') (name : String) (text : Option String)
    : Leaner kinds (withText payload name text) (Payload.withText payload' name text) := by
  rcases h with rfl | ⟨t, u, rfl, rfl, hentries⟩
  . exact .inl rfl
  . cases text with
    | none => exact .inr ⟨t, u, rfl, rfl, hentries⟩
    | some text => exact .put hentries (.inl rfl)

theorem related_decorateItem (h : Leaner kinds payload payload') (item : Value)
    : (decorateItem kinds r settings payload item).Related IsSkipWarning (Leaner kinds)
        (decorateItem kinds r settings payload' item) := by
  unfold decorateItem
  apply Change.related_after h
  intro declares _
  split
  . apply Change.related_after h
    intro root _
    cases root with
    | none => exact ⟨h, .nil, rfl⟩
    | some root =>
      -- Only the schema of a payload counts here, and malformed data structures are not in it.
      have hwanted : decorateItem.schemaWanted settings payload
          = decorateItem.schemaWanted settings payload' := by
        unfold decorateItem.schemaWanted
        rw [Within.field_eq h (by decide)]
      dsimp only
      rw [hwanted]
      apply Change.related_after h
      intro wanted _
      apply Change.related_after h
      intro rendered _
      exact ⟨(h.withText _ _).withText _ _, .nil, rfl⟩
  . exact ⟨h, .nil, rfl⟩

theorem related_foldl {items items' : List Value} (hitems : Thinned (Malformed kinds) items items')
    {c d : Change Value} (h : c.Related IsSkipWarning (Leaner kinds) d)
    : (items.foldl (fun change item =>
          change.andThen fun payload => decorateItem kinds r settings payload item) c).Related
        IsSkipWarning (Leaner kinds)
        (items'.foldl (fun change item =>
          change.andThen fun payload => decorateItem kinds r settings payload item) d) := by
  induction hitems generalizing c d with
  | nil => exact h
  | keep item _ ih => exact ih (h.andThen fun _ _ hnow => related_decorateItem hnow item)
  | drop hmalformed _ ih => exact ih (h.andThen_skip (decorateItem_malformed hmalformed c.now))

theorem related_decoratePayload (h : Leaner kinds payload payload')
    : (decoratePayload kinds r settings payload).Related IsSkipWarning (Leaner kinds)
        (decoratePayload kinds r settings payload') := by
  have hbase : Change.Related IsSkipWarning (Leaner kinds) ⟨payload, [], none⟩
      ⟨payload', [], none⟩ := ⟨h, .nil, rfl⟩
  rcases h with rfl | ⟨t, u, rfl, rfl, hentries⟩
  . exact Change.related_self (fun _ => .inl rfl) _
  . unfold decoratePayload
    dsimp only [Value.field]
    rcases hentries.get?_text "content" with ⟨ht, hu⟩ | ⟨x, y, ht, hu, hxy⟩
    . rw [ht, hu]
      apply Change.related_after hbase.now
      exact fun items _ => related_foldl (.refl items) hbase
    . rw [ht, hu]
      rcases hxy with rfl | ⟨-, items, items', rfl, rfl, hitems⟩
      . apply Change.related_after hbase.now
        exact fun items _ => related_foldl (.refl items) hbase
      . rw [Option.getD_some, Option.getD_some, Outcome.ok_bind, Outcome.ok_bind,
          Value.itemsOrNone_eq_items rfl, Value.itemsOrNone_eq_items rfl, Logged.liftM_ok,
          Logged.liftM_ok, Change.after_ok, Change.after_ok]
        exact related_foldl hitems hbase

theorem related_decorateExample {decorate : Value → Change Value} {example₁ example₂ : Value}
    (h : Within ["requests", "responses"] (Listwise (Leaner kinds)) example₁ example₂)
    (hdecorate : ∀ x y, Leaner kinds x y →
      (decorate x).Related IsSkipWarning (Leaner kinds) (decorate y))
    : (decorateExample decorate example₁).Related IsSkipWarning
        (Within ["requests", "responses"] (Listwise (Leaner kinds)))
        (decorateExample decorate example₂) := by
  apply (related_changeField "requests" h hdecorate).andThen
  exact fun _ _ hnow => related_changeField "responses" hnow hdecorate

theorem related_decorateAll {decorate : Value → Change Value} {api api' : Value}
    (h : LeanerApi kinds api api')
    (hdecorate : ∀ x y, Leaner kinds x y →
      (decorate x).Related IsSkipWarning (Leaner kinds) (decorate y))
    : (decorateAll decorate api).Related IsSkipWarning (LeanerApi kinds)
        (decorateAll decorate api') := by
  apply related_changeField "resourceGroups" h
  intro _ _ hgroup
  apply related_changeField "resources" hgroup
  intro _ _ hresource
  apply related_changeField "actions" hresource
  intro _ _ haction
  apply related_changeField "examples" haction
  exact fun _ _ hexample => related_decorateExample hexample hdecorate

theorem ofDocument_of_leaner {api api' : Value} (h : LeanerApi kinds api api')
    : Registry.ofDocument kinds api = Registry.ofDocument kinds api' := by
  unfold Registry.ofDocument Registry.declarations
  rw [Within.field_eq h (by decide)]

/--
An API with malformed data structures in its payloads is decorated as it is without them: the
outcome is the same, also if it is a failure, every payload is the same but for these data
structures, and so is the log but for the warnings about them.
-/
theorem decorate_of_leaner {api api' : Value} (h : LeanerApi kinds api api') (settings : Settings)
    (elapsed : String)
    : (decorate kinds settings elapsed api).result = (decorate kinds settings elapsed api').result
        ∧ LeanerApi kinds (decorate kinds settings elapsed api).api
            (decorate kinds settings elapsed api').api
        ∧ Thinned IsSkipWarning (decorate kinds settings elapsed api).log
            (decorate kinds settings elapsed api').log := by
  unfold decorate
  rw [ofDocument_of_leaner h]
  generalize Registry.ofDocument kinds api' = registry
  obtain ⟨log, result⟩ := registry
  cases result with
  | error fault => exact ⟨rfl, h, .refl log⟩
  | ok r =>
    -- The types are declared outside of payloads, so that both have the same registry.
    have hchanged := @related_decorateAll kinds (decoratePayload kinds r settings) api api' h
      fun _ _ hpayload => related_decoratePayload hpayload
    have hlog := (Thinned.refl log).append hchanged.log
    dsimp only
    rw [hchanged.stopped]
    split
    . exact ⟨rfl, hchanged.now, hlog⟩
    . exact ⟨rfl, hchanged.now, hlog.append (.refl _)⟩

def enclose (name : String) (v : Value) : Value :=
  .object [(.text name, .list [v])]

theorem within_enclose {names : List String} {R : Value → Value → Prop} {name : String}
    (hname : name ∈ names) {v w : Value} (h : R v w)
    : Within names (Listwise R) (enclose name v) (enclose name w) := by
  refine .inr ⟨_, _, rfl, rfl, .cons ⟨rfl, .inr ⟨⟨name, hname, rfl⟩, ?_⟩⟩ .nil⟩
  exact ⟨[v], [w], rfl, rfl, .cons h .nil⟩

def responding (items : List Value) : Value :=
  enclose "resourceGroups" <| enclose "resources" <| enclose "actions" <| enclose "examples" <|
    enclose "responses" <| .object [(.text "content", .list items)]

def dataStructure (d : Value) : Value :=
  .object [(.text "element", .text "dataStructure"), (.text "content", .list [d])]

def keyless : Value :=
  .object [(.text "element", .text "member"), (.text "content", .object [])]

def seven : Value :=
  .object [(.text "element", .text "number"), (.text "content", .int 7)]

theorem malformed_keyless : Malformed Kinds.builtIn (dataStructure keyless) :=
  malformed_of_decode rfl rfl (show Value.decode Kinds.builtIn keyless = .error .missingKey from rfl)
    rfl

theorem leanerApi_responding {items items' : List Value}
    (h : Thinned (Malformed Kinds.builtIn) items items')
    : LeanerApi Kinds.builtIn (responding items) (responding items') := by
  unfold LeanerApi responding
  apply within_enclose (by simp)
  apply within_enclose (by simp)
  apply within_enclose (by simp)
  apply within_enclose (by simp)
  apply within_enclose (by simp)
  refine .inr ⟨_, _, rfl, rfl, .cons ⟨rfl, .inr ⟨⟨"content", by simp, rfl⟩, ?_⟩⟩ .nil⟩
  exact ⟨items, items', rfl, rfl, h⟩

theorem decorate_of_leaner_keyless
    : let api := responding [dataStructure keyless, dataStructure seven]
      let api' := responding [dataStructure seven]
      LeanerApi Kinds.builtIn api api'
        ∧ (decorate Kinds.builtIn {} "" api).result = (decorate Kinds.builtIn {} "" api').result
        ∧ LeanerApi Kinds.builtIn (decorate Kinds.builtIn {} "" api).api
            (decorate Kinds.builtIn {} "" api').api
        ∧ Thinned IsSkipWarning (decorate Kinds.builtIn {} "" api).log
            (decorate Kinds.builtIn {} "" api').log := by
  have hleaner := leanerApi_responding (.drop malformed_keyless (.refl [dataStructure seven]))
  exact ⟨hleaner, decorate_of_leaner hleaner {} ""⟩

end Payload

end ApiElements
