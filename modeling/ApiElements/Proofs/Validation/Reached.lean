import ApiElements.Proofs.Validation.Draft4
import ApiElements.Proofs.Validation.Members
import Mathlib.Logic.Relation

/-!
This module contains which elements the compilation of a root reaches, and what has to hold of them
for examples to be valid against schemas.
-/

namespace ApiElements

/--
Neither a truth value nor a number that is infinite or undefined.
-/
def Value.isFiniteNumber : Value → Bool
  | .int _ => true
  | .double (.finite _ _ _) => true
  | .decimal (.finite _ _ _) => true
  | _ => false

inductive Kind.HasLiteral : Kind → Value → Prop where
  | boolean (b : Bool) : HasLiteral .boolean (.bool b)
  | string (s : String) : HasLiteral .string (.text s)
  | number {v : Value} (finite : v.isFiniteNumber = true) : HasLiteral .number v

/--
The content of an element is of the form that its kind asks for.
-/
structure Element.WellFormed (e : Element) : Prop where
  literal : e.kind = .boolean ∨ e.kind = .number ∨ e.kind = .string →
    e.content = .null ∨ e.kind.HasLiteral e.content
  variants : e.kind = .enum → ∃ variants, e.content.items = .ok variants ∧ variants ≠ [] ∧
    ∀ v ∈ variants, ∃ x, v = .element x ∧ (x.kind = .string ∨ x.kind = .number) ∧
      x.kind.HasLiteral x.content
  sequence : e.kind = .array ∨ e.kind = .object ∨ e.kind = .option ∨ e.kind = .select →
    ∃ items, e.content = .tuple items

/--
An element and where the compilation meets it: as a whole value, or only as an entry of an object or
an option of a selection.
-/
structure Place where
  element : Element
  whole : Bool

/--
The places that an entry of an object or of an option stands for: itself, the value of a member, and
the options of a selection.
-/
inductive Element.Opens (x : Element) : Place → Prop where
  | self : Opens x ⟨x, false⟩
  | value {y : Element} (member : x.kind = .member) (value : x.value = .ok (.element y))
    : Opens x ⟨y, true⟩
  | option {options : List Value} {y : Element} (select : x.kind = .select)
    (content : x.content.items = .ok options) (mem : .element y ∈ options) : Opens x ⟨y, false⟩

namespace Registry

inductive Leads (r : Registry) : Place → Place → Prop where
  | resolved {e merged : Element} {name : Value} {whole : Bool} (kind : e.kind = .named name)
    (found : (r.resolve e).result = .ok (some merged)) : Leads r ⟨e, whole⟩ ⟨merged, whole⟩
  | item {e x : Element} {items : List Value} {whole : Bool} (kind : e.kind = .array)
    (content : e.content.items = .ok items) (mem : .element x ∈ items)
    : Leads r ⟨e, whole⟩ ⟨x, true⟩
  | entry {e x : Element} {entries : List Value} {whole : Bool} {q : Place}
    (kind : e.kind = .object ∨ e.kind = .option)
    (expanded : (r.expand e.content).result = .ok entries) (mem : .element x ∈ entries)
    (opens : x.Opens q) : Leads r ⟨e, whole⟩ q

def Reached (r : Registry) (root : Element) (p : Place) : Prop :=
  Relation.ReflTransGen r.Leads ⟨root, true⟩ p

section Throughout

variable {r : Registry} {P : Place → Prop} {e : Element} {whole : Bool}

/--
All places that a place leads to, step by step, have some property, and itself too.
-/
def Throughout (r : Registry) (P : Place → Prop) (p : Place) : Prop :=
  ∀ q, Relation.ReflTransGen r.Leads p q → P q

theorem throughout_of_leads {p : Place} (hp : P p) (h : ∀ q, r.Leads p q → r.Throughout P q)
    : r.Throughout P p := by
  intro q hq
  rcases hq.cases_head with rfl | ⟨q', hleads, hq'⟩
  . exact hp
  . exact h q' hleads q hq'

theorem throughout_leaf (hp : P ⟨e, whole⟩) (hnamed : ∀ name, e.kind ≠ .named name)
    (harray : e.kind ≠ .array) (hobject : ¬ (e.kind = .object ∨ e.kind = .option))
    : r.Throughout P ⟨e, whole⟩ := by
  apply throughout_of_leads hp
  intro q h
  cases h with
  | resolved kind => exact absurd kind (hnamed _)
  | item kind => exact absurd kind harray
  | entry kind => exact absurd kind hobject

theorem throughout_named {name : Value} {merged : Element} (hp : P ⟨e, whole⟩)
    (hkind : e.kind = .named name) (hmerged : (r.resolve e).result = .ok (some merged))
    (h : r.Throughout P ⟨merged, whole⟩) : r.Throughout P ⟨e, whole⟩ := by
  apply throughout_of_leads hp
  intro q hleads
  cases hleads with
  | resolved _ found =>
    rw [hmerged] at found
    injection found with found
    injection found with found
    rw [← found]
    exact h
  | item kind =>
    rw [hkind] at kind
    contradiction
  | entry kind =>
    rw [hkind] at kind
    simp at kind

theorem throughout_object {entries : List Value} (hp : P ⟨e, whole⟩)
    (hkind : e.kind = .object ∨ e.kind = .option)
    (hentries : (r.expand e.content).result = .ok entries)
    (h : ∀ x, .element x ∈ entries → ∀ q, x.Opens q → r.Throughout P q)
    : r.Throughout P ⟨e, whole⟩ := by
  apply throughout_of_leads hp
  intro q hleads
  cases hleads with
  | resolved kind => simp [kind] at hkind
  | item kind => simp [kind] at hkind
  | entry _ expanded mem opens =>
    rw [hentries] at expanded
    injection expanded with expanded
    subst expanded
    exact h _ mem q opens

end Throughout

/--
All that the compilation of a root reaches is well-formed, and options only stand in selections.
-/
structure WellFormed (r : Registry) (root : Element) : Prop where
  element : ∀ p, r.Reached root p → p.element.WellFormed
  option : ∀ e, r.Reached root ⟨e, true⟩ → e.kind ≠ .option

/--
The examples of one value are valid against the schemas of another one.
-/
def Fits (r : Registry) (v v' : Value) : Prop :=
  ∀ n n' x s, (r.exampleWithin n v).result = .ok x → (r.schemaWithin n' v').result = .ok s →
    Draft4.accepts s.toValue x = true

/--
The example and the schema of an object agree on its selections. Where several members have one key,
the schema keeps the last one, and the example the last one among those it takes: their values are
the same, or at least fit. And of the keys that the options of a selection have, at least one is not
in the example.
-/
structure Agrees (r : Registry) (e : Element) : Prop where
  shared : ∀ n n' ms ms', (r.taken n e.content).result = .ok ms →
    (r.offeredIn n' e.content).result = .ok ms' → ∀ k, k.hashable = true →
    ∀ m m', lastWith ms k = some m → lastWith ms' k = some m' →
    ∀ v v', m.value = .ok v → m'.value = .ok v' → v = v' ∨ r.Fits v v'
  spared : ∀ n n' ms entries, (r.taken n e.content).result = .ok ms →
    (r.expand e.content).result = .ok entries → ∀ s, .element s ∈ entries → s.kind = .select →
    ∀ ms', (r.offeredBy n' s).result = .ok ms' → ms' ≠ [] →
    ∃ m ∈ ms', ∃ k, m.key = .ok k ∧ lastWith ms k = none

end Registry

end ApiElements
