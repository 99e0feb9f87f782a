import ApiElements.Proofs.Payload.Formed
import Mathlib.Logic.Relation

/-!
This module contains what the two compilers come across on their way through a root that was read
from plain data, and that they only fail as foreseen unless this holds an enumeration whose content
is an object or an array whose items are no elements, or types include each other in a circle.
-/

namespace ApiElements

open Outcome (Caught FailsAs failsAs_ok failsAs_error failsAs_mapM)
open Payload (isRenderFault)

/--
What a compiler works on: a value as a whole, or a content entry by entry.
-/
inductive Task where
  | whole (v : Value)
  | entries (content : Value)

namespace Registry

/--
A task leads to a further one, for the example or for the schema.
-/
inductive Visits (r : Registry) : Task → Task → Prop where
  | resolved {e merged : Element} {name : Value} (kind : e.kind = .named name)
    (found : (r.resolve e).result = .ok (some merged))
    : Visits r (.whole (.element e)) (.whole (.element merged))
  | variant {e : Element} {v : Value} (kind : e.kind = .enum) (first : e.content.first = .ok v)
    : Visits r (.whole (.element e)) (.whole v)
  | item {e : Element} {items : List Value} {v : Value} (kind : e.kind = .array)
    (content : e.content.items = .ok items) (mem : v ∈ items)
    : Visits r (.whole (.element e)) (.whole v)
  | content {e : Element} (kind : e.kind = .object ∨ e.kind = .option)
    : Visits r (.whole (.element e)) (.entries e.content)
  | value {content v : Value} {m : Element} (mem : .entry (.element m) ∈ r.scan content)
    (kind : m.kind = .member) (value : m.value = .ok v) : Visits r (.entries content) (.whole v)
  | option {content v : Value} {s : Element} {options : List Value}
    (mem : .entry (.element s) ∈ r.scan content) (kind : s.kind = .select)
    (found : s.content.items = .ok options) (option : v ∈ options)
    : Visits r (.entries content) (.whole v)
  | chosen {content chosen v : Value} {s : Element} (mem : .entry (.element s) ∈ r.scan content)
    (kind : s.kind = .select) (first : s.content.first = .ok v)
    (held : v.elementContent = .ok chosen) : Visits r (.entries content) (.entries chosen)

/--
The compilation of a root comes to a task.
-/
def Met (r : Registry) (root : Element) (task : Task) : Prop :=
  Relation.ReflTransGen r.Visits (.whole (.element root)) task

end Registry

/--
The content of an element is not of a form that its kind cannot be compiled with: an enumeration
has no object for its content, unless there is an entry for zero, and all items of an array are
elements.
-/
structure Element.Compilable (e : Element) : Prop where
  enum : e.kind = .enum → ∀ t, e.content = .object t → t = [] ∨ Table.has t (.int 0) = true
  array : e.kind = .array → ∀ items, e.content.items = .ok items →
    ∀ v ∈ items, ∃ x, v = .element x

theorem compilable_of_kind {e : Element} (h : e.kind ≠ .enum ∧ e.kind ≠ .array) : e.Compilable where
  enum := fun hkind => absurd hkind h.1
  array := fun hkind => absurd hkind h.2

namespace Registry

variable {r : Registry} {root e : Element} {depth : Nat} {content v : Value} {rank : Value → Nat}

section Kinds

def AllTask (p : Element → Prop) : Task → Prop
  | .whole v => v.All p
  | .entries content => content.All p

variable {p : Kind → Prop} {task task' : Task}
variable (hr : ∀ entry ∈ r.types, (Value.element entry.2).All fun e => p e.kind)

include hr

theorem kinds_of_scan (hcontent : content.All fun e => p e.kind) (hv : .entry v ∈ r.scan content)
    : v.All fun e => p e.kind := by
  refine all_of_scan (S := fun _ => True) (fun _ _ _ _ _ => True.intro) ?_ hcontent hv
  intro name declared _ hget
  obtain ⟨id, hmem, -⟩ := Table.mem_of_get? hget
  exact (hr _ hmem).content

theorem kinds_of_visits (hvisits : r.Visits task task') (h : AllTask (fun e => p e.kind) task)
    : AllTask (fun e => p e.kind) task' := by
  cases hvisits with
  | resolved kind found =>
    obtain ⟨-, ⟨-, hnone⟩ | ⟨declared, merged, hget, hextend, heq⟩⟩ := resolve_eq_ok r kind found
    . contradiction
    . injection heq with heq
      subst heq
      obtain ⟨id, hmem, -⟩ := Table.mem_of_get? hget
      obtain ⟨hkind, hcontent⟩ := extendBy_eq_ok hextend
      refine Value.all_element (p := fun e => p e.kind) (hkind ▸ (hr _ hmem).self) ?_
      intro x hx
      rcases holds_of_mergeContent hcontent hx with hx | hx
      . exact (hr _ hmem).content x hx
      . exact h.content x hx
  | variant _ first => exact h.content.first first
  | item _ content mem => exact h.content.items content _ mem
  | content => exact h.content
  | value mem _ value => exact (kinds_of_scan hr h mem).value value
  | option mem _ found option => exact (kinds_of_scan hr h mem).content.items found _ option
  | @chosen _ _ v _ mem _ first held =>
    have hv := (kinds_of_scan hr h mem).content.first first
    cases v with
    | element e =>
      injection held with held
      exact held ▸ hv.content
    | _ => contradiction

/--
No kinds are met but those of the elements in the root and in the declared types.
-/
theorem kinds_of_met (hroot : (Value.element root).All fun e => p e.kind) (h : r.Met root task)
    : AllTask (fun e => p e.kind) task := by
  induction h with
  | refl => exact hroot
  | tail _ hvisits ih => exact kinds_of_visits hr hvisits ih

end Kinds

section Example

/--
Down to a depth the example of all that is met is made, or fails as foreseen.
-/
structure CaughtExamples (r : Registry) (root : Element) (depth : Nat) : Prop where
  whole : ∀ v, r.Met root (.whole v) → (∀ e, v = .element e → e.Whole) →
    Caught (r.exampleWithin depth v).result
  entries : ∀ content, r.Met root (.entries content) → content.All Element.Formed →
    Caught (r.exampleObjectWithin depth content).result

theorem whole_of_first (h : content.All Element.Formed) (hv : content.first = .ok v)
    : ∀ e, v = .element e → e.Whole := by
  rintro e rfl
  exact whole_of_all (h.first hv)

theorem whole_of_item (h : content.All Element.Formed) {items : List Value}
    (hitems : content.items = .ok items) (hv : v ∈ items) : ∀ e, v = .element e → e.Whole := by
  rintro e rfl
  exact whole_of_all (h.items hitems _ hv)

theorem caught_exampleEntries (h : r.CaughtExamples root depth) (hmet : r.Met root (.entries content))
    (hmem : .entry v ∈ r.scan content) (hv : v.All Element.Formed)
    : Caught (r.exampleEntries depth v).result := by
  rcases select_or_member_or_passedOver v with ⟨s, rfl, hselect⟩ | ⟨m, rfl, hmember⟩ | hpassed
  . obtain ⟨options, hoptions⟩ := hv.self.select hselect
    unfold exampleEntries
    simp only [hselect]
    split
    . next htruthy =>
      cases options with
      | nil =>
        rw [hoptions] at htruthy
        contradiction
      | cons option rest =>
        have hfirst : s.content.first = .ok (.element option) := by
          rw [hoptions]
          rfl
        rw [hfirst, Logged.liftM_ok, pure_bind]
        apply h.entries option.content (hmet.tail (.chosen hmem hselect hfirst rfl))
        exact (hv.content.first hfirst).content
    . exact failsAs_ok _
  . obtain ⟨value, hvalue, -⟩ := value_of_formed hv.self hmember
    obtain ⟨key, hkey⟩ := key_of_formed hv.self hmember
    unfold exampleEntries
    simp only [hmember, hvalue, hkey, Logged.liftM_ok, pure_bind]
    split
    . rw [Logged.result_bind]
      exact caught_asKey.bind fun key _ => failsAs_ok _
    . rw [Logged.result_bind]
      apply FailsAs.bind
      . apply h.whole value (hmet.tail (.value hmem hmember hvalue))
        rintro e rfl
        exact whole_of_all (hv.value hvalue)
      . intro sample _
        rw [Logged.result_bind]
        exact caught_asKey.bind fun key _ => failsAs_ok _
  . rw [exampleEntries_passedOver hpassed]
    exact failsAs_ok _

theorem caught_of_steps (hr : r.Formed) (hdescends : Descends (fun _ => True) rank r) {α : Type}
    {added : Value → Logged α} (hcontent : content.All Element.Formed)
    (hadded : ∀ v, .entry v ∈ r.scan content → v.All Element.Formed → Caught (added v).result)
    : Caught (additions added (r.scan content)).result := by
  have hsound := sound_scan hr hdescends hcontent
  apply caught_additions
  . exact fun v hmem => hadded v hmem (hsound _ hmem)
  . exact fun fault hmem => hsound _ hmem

theorem caughtExamples (hr : r.Formed) (hdescends : Descends (fun _ => True) rank r)
    (hmet : ∀ e, r.Met root (.whole (.element e)) → e.Compilable) (depth : Nat)
    : r.CaughtExamples root depth := by
  induction depth with
  | zero =>
    constructor
    . exact fun _ _ _ => failsAs_error rfl
    . exact fun _ _ _ => failsAs_error rfl
  | succ depth ih =>
    constructor
    . intro v hv hwhole
      cases v with
      | element e =>
        have he := hwhole e rfl
        rw [exampleWithin]
        cases hkind : e.kind with
        | enum =>
          dsimp only
          split
          . next htruthy =>
            rw [Logged.result_bind, Logged.result_liftM]
            apply FailsAs.bind
            . apply caught_first htruthy
              intro t ht
              apply ((hmet e hv).enum hkind t ht).resolve_left
              rintro rfl
              rw [ht] at htruthy
              contradiction
            . intro variant hfirst
              apply ih.whole variant (hv.tail (.variant hkind hfirst))
              exact whole_of_first he.content hfirst
          . exact failsAs_ok _
        | array =>
          rw [Logged.result_bind, Logged.result_liftM]
          apply caught_items.bind
          intro items hitems
          rw [Logged.result_map, Logged.result_mapM]
          apply (failsAs_mapM ?_).map
          intro item hitem
          apply ih.whole item (hv.tail (.item hkind hitems hitem))
          exact whole_of_item he.content hitems hitem
        | object =>
          rw [Logged.result_map]
          exact (ih.entries e.content (hv.tail (.content (.inl hkind))) he.content).map _
        | named name =>
          rw [Logged.result_bind]
          apply (caught_resolve hr he hkind).bind
          intro found hfound
          cases found with
          | none => exact failsAs_ok _
          | some merged =>
            apply ih.whole (.element merged) (hv.tail (.resolved hkind hfound))
            rintro _ ⟨⟩
            exact whole_of_resolve hr he hkind hfound
        | _ => exact failsAs_ok _
      | _ => exact failsAs_ok _
    . intro content hcontent hall
      rw [exampleObjectWithin_eq, Logged.result_map]
      apply (caught_of_steps hr hdescends hall ?_).map
      exact fun v hmem hv => caught_exampleEntries ih hcontent hmem hv

end Example

section Schemas

structure CaughtSchemas (r : Registry) (root : Element) (depth : Nat) : Prop where
  whole : ∀ e, r.Met root (.whole (.element e)) → e.Whole →
    Caught (r.schemaWithin depth (.element e)).result
  entries : ∀ content, r.Met root (.entries content) → content.All Element.Formed →
    Caught (r.schemaOfObjectWithin depth content).result

theorem caught_schemaEntries (h : r.CaughtSchemas root depth) (hmet : r.Met root (.entries content))
    (hmem : .entry v ∈ r.scan content) (hv : v.All Element.Formed)
    : Caught (r.schemaEntries depth v).result := by
  rcases select_or_member_or_passedOver v with ⟨s, rfl, hselect⟩ | ⟨m, rfl, hmember⟩ | hpassed
  . obtain ⟨options, hoptions⟩ := hv.self.select hselect
    have hitems : s.content.items = .ok (options.map .element) := by
      rw [hoptions]
      rfl
    unfold schemaEntries
    simp only [hselect, hitems, Logged.liftM_ok, pure_bind]
    rw [Logged.result_map, Logged.result_mapM]
    apply (failsAs_mapM ?_).map
    intro option hoption
    obtain ⟨e, he, rfl⟩ := List.mem_map.1 hoption
    apply h.whole e (hmet.tail (.option hmem hselect hitems hoption))
    exact whole_of_all (hv.content.items hitems _ hoption)
  . obtain ⟨value, hvalue, hform⟩ := value_of_formed hv.self hmember
    obtain ⟨key, hkey⟩ := key_of_formed hv.self hmember
    unfold schemaEntries
    simp only [hmember, hvalue, hkey, Logged.liftM_ok, pure_bind]
    split
    . exact hv.self.proper.caught_addMember
    . next hnull =>
      rw [Logged.result_bind]
      apply FailsAs.bind
      . rcases hform with rfl | ⟨e, rfl⟩
        . contradiction
        . apply h.whole e (hmet.tail (.value hmem hmember hvalue))
          exact whole_of_all (hv.value hvalue)
      . exact fun s _ => hv.self.proper.caught_addMember
  . rw [schemaEntries_passedOver hpassed]
    exact failsAs_ok _

theorem caughtSchemas (hr : r.Formed) (hdescends : Descends (fun _ => True) rank r)
    (hmet : ∀ e, r.Met root (.whole (.element e)) → e.Compilable) (depth : Nat)
    : r.CaughtSchemas root depth := by
  induction depth with
  | zero =>
    constructor
    . exact fun _ _ _ => failsAs_error rfl
    . exact fun _ _ _ => failsAs_error rfl
  | succ depth ih =>
    constructor
    . intro e he hwhole
      rw [schemaWithin_element, Logged.result_bind]
      apply FailsAs.bind ?_ fun s _ => hwhole.proper.caught_attribute
      unfold schemaOfKind
      cases hkind : e.kind with
      | boolean => exact hwhole.proper.caught_ofLiteral
      | number => exact hwhole.proper.caught_ofLiteral
      | string => exact hwhole.proper.caught_ofLiteral
      | enum =>
        apply caught_items.bind
        exact fun variants _ => failsAs_ok _
      | array =>
        rw [Logged.result_bind, Logged.result_liftM]
        apply caught_items.bind
        intro items hitems
        rw [Logged.result_map, Logged.result_mapM]
        apply (failsAs_mapM ?_).map
        intro item hitem
        -- What is no element has an example, but no schema.
        obtain ⟨x, rfl⟩ := (hmet e he).array hkind items hitems item hitem
        apply ih.whole x (he.tail (.item hkind hitems hitem))
        exact whole_of_item hwhole.content hitems hitem x rfl
      | object => exact ih.entries e.content (he.tail (.content (.inl hkind))) hwhole.content
      | option => exact ih.entries e.content (he.tail (.content (.inr hkind))) hwhole.content
      | named name =>
        rw [Logged.result_bind]
        apply (caught_resolve hr hwhole hkind).bind
        intro found hfound
        cases found with
        | none => exact failsAs_ok _
        | some merged =>
          apply ih.whole merged (he.tail (.resolved hkind hfound))
          exact whole_of_resolve hr hwhole hkind hfound
      | _ => exact failsAs_ok _
    . intro content hcontent hall
      rw [schemaOfObjectWithin_eq, Logged.result_map]
      apply (caught_of_steps hr hdescends hall ?_).map
      exact fun v hmem hv => caught_schemaEntries ih hcontent hmem hv

end Schemas

end Registry

end ApiElements
