import ApiElements.Proofs.Inheritance.Layered
import ApiElements.Proofs.Inheritance.Resolution
import Mathlib.Data.List.Chain
import Mathlib.Data.List.Induction

/-!
This module contains that a chain of derived types means the same whichever way it is merged: type
by type from the declared object on, or from the last reference down to it, as a compiler does.
-/

namespace ApiElements

open Element (Layer Layered Sums)

namespace Registry

def Extends (r : Registry) (declared e : Element) : Prop :=
  ∃ name, e.kind = .named name ∧ r.types.get? name = some declared

section Steps

variable {r : Registry} {declared e : Element} {x : Value} {s : Schema}

theorem Extends.resolve (h : r.Extends declared e) {found : Option Element}
    (hfound : (r.resolve e).result = .ok found)
    : ∃ merged, found = some merged ∧ declared.extendBy e = .ok merged := by
  obtain ⟨name, hkind, hget⟩ := h
  obtain ⟨-, ⟨hnone, -⟩ | ⟨declared', merged, hget', hmerged, rfl⟩⟩ := resolve_eq_ok r hkind hfound
  . rw [hget] at hnone
    contradiction
  . rw [hget, Option.some.injEq] at hget'
    exact ⟨merged, rfl, hget' ▸ hmerged⟩

theorem Extends.exists_example (h : r.Extends declared e)
    (hx : ∃ n, (r.exampleWithin n (.element e)).result = .ok x)
    : ∃ merged, declared.extendBy e = .ok merged
        ∧ ∃ n, (r.exampleWithin n (.element merged)).result = .ok x := by
  obtain ⟨name, hkind, -⟩ := id h
  obtain ⟨n, hx⟩ := hx
  cases n with
  | zero => contradiction
  | succ n =>
    rw [exampleWithin] at hx
    simp only [hkind, Logged.result_bind, Outcome.bind_eq_ok] at hx
    obtain ⟨found, hfound, hx⟩ := hx
    obtain ⟨merged, rfl, hmerged⟩ := h.resolve hfound
    exact ⟨merged, hmerged, n, hx⟩

theorem Extends.exists_schema (h : r.Extends declared e) (hdeclared : declared.Layer) (he : e.Layer)
    (hs : ∃ n, (r.schemaWithin n (.element e)).result = .ok s)
    : ∃ merged, declared.extendBy e = .ok merged
        ∧ ∃ n, (r.schemaWithin n (.element merged)).result = .ok s := by
  obtain ⟨name, hkind, -⟩ := id h
  obtain ⟨n, hs⟩ := hs
  cases n with
  | zero => contradiction
  | succ n =>
    obtain ⟨found, hfound⟩ : ∃ found, (r.resolve e).result = .ok found := by
      rw [schemaWithin_element, schemaOfKind] at hs
      simp only [hkind, Logged.result_bind, Outcome.bind_eq_ok] at hs
      obtain ⟨inner, ⟨found, hfound, -⟩, -⟩ := hs
      exact ⟨found, hfound⟩
    obtain ⟨merged, rfl, hmerged⟩ := h.resolve hfound
    have hless := hdeclared.keyedParts.saysNoMore_override he.keyedParts hmerged
    rw [schemaWithin_resolve hfound hless] at hs
    exact ⟨merged, hmerged, n, hs⟩

end Steps

section Chain

variable {r : Registry} {n m : Nat} {base e root merged x y : Element} {derived es : List Element}

theorem Extends.of_kind (h : r.Extends x e) (hkind : merged.kind = e.kind)
    : r.Extends x merged := by
  obtain ⟨name, hname, hget⟩ := h
  exact ⟨name, hkind.trans hname, hget⟩

theorem extends_of_isChain {d e : Element} (h : List.IsChain r.Extends (es ++ [d] ++ [e]))
    : r.Extends d e ∧ ∀ merged : Element, merged.kind = d.kind →
        List.IsChain r.Extends (es ++ [merged]) := by
  obtain ⟨hchain, -, hlast⟩ := List.isChain_append.1 h
  obtain ⟨hes, -, hbetween⟩ := List.isChain_append.1 hchain
  refine ⟨hlast d (by simp) e (by simp), ?_⟩
  intro merged hkind
  refine List.isChain_append.2 ⟨hes, List.isChain_singleton merged, ?_⟩
  rintro x hx _ ⟨⟩
  exact (hbetween x hx d (by simp)).of_kind hkind

/--
What holds of a reference, and with it of the merge of its type with it, also holds of the merge of
all the types that it is derived from, in the order in which they are resolved.
-/
theorem exists_layered_of_chain {p : Element → Prop}
    (hstep : ∀ declared e, r.Extends declared e → declared.Layer → e.Layer → p e →
      ∃ merged, declared.extendBy e = .ok merged ∧ p merged)
    (hchain : List.IsChain r.Extends (base :: derived ++ [e]))
    (hlayers : ∀ d ∈ base :: derived, d.Layer) (he : e.Layer) (hes : Layered es e) (h : p e)
    : ∃ whole, Layered (base :: derived ++ es) whole ∧ p whole := by
  induction derived using List.reverseRecOn generalizing e es with
  | nil =>
    obtain ⟨hextends, -⟩ := @extends_of_isChain r [] base e hchain
    obtain ⟨merged, hmerged, hp⟩ := hstep base e hextends (hlayers base (by simp)) he h
    exact ⟨merged, .extend (.single base) hes hmerged, hp⟩
  | append_singleton derived d ih =>
    -- The last type and the reference merge to a reference to the type before.
    obtain ⟨hextends, hbefore⟩ := @extends_of_isChain r (base :: derived) d e hchain
    obtain ⟨hlayers', hd⟩ := List.forall_mem_append.1 (List.cons_append ▸ hlayers)
    rw [List.forall_mem_singleton] at hd
    obtain ⟨merged, hmerged, hp⟩ := hstep d e hextends hd he h
    obtain ⟨whole, hwhole, hpwhole⟩ := ih (hbefore merged (extendBy_eq_ok hmerged).1) hlayers'
      (hd.extendBy he hmerged) (.extend (.single d) hes hmerged) hp
    refine ⟨whole, ?_, hpwhole⟩
    simpa using hwhole

/--
Two objects that have been made of the same layers have examples with the same entries and schemas
that are alike, if they have any.
-/
theorem agrees_of_layered (hlayers : ∀ d ∈ es, d.Layer) (hx : Layered es x) (hy : Layered es y)
    (hobject : x.kind = .object)
    : (∀ v w, (r.exampleWithin n (.element x)).result = .ok v →
        (r.exampleWithin m (.element y)).result = .ok w →
        ∃ t u, v = .object t ∧ w = .object u ∧ Table.Agrees t u)
      ∧ ∀ s s', (r.schemaWithin n (.element x)).result = .ok s →
          (r.schemaWithin m (.element y)).result = .ok s' →
          (s.type = s'.type ∧ s.nullable = s'.nullable ∧ s.description = s'.description)
            ∧ (∃ t u, s.properties = some t ∧ s'.properties = some u ∧ Table.Agrees t u)
            ∧ s.exclusive = s'.exclusive := by
  have hobject' : y.kind = .object := by
    have hkinds := hx.head?.symm.trans hy.head?
    rw [hobject, Option.some.injEq] at hkinds
    exact hkinds.symm
  have hsums := hx.sums hlayers
  have hsums' := hy.sums hlayers
  have hentries := hsums.entries.trans hsums'.entries.symm
  constructor
  . intro v w hv hw
    obtain ⟨k, t, ht, rfl⟩ := exists_example_of_object hobject hv
    obtain ⟨k', u, hu, rfl⟩ := exists_example_of_object hobject' hw
    exact ⟨t, u, rfl, rfl, agrees_example_of_interchangeable hentries ht hu⟩
  . intro s s' hs hs'
    obtain ⟨k, own, hown, hattribute⟩ := exists_schema_of_object (.inl hobject) hs
    obtain ⟨k', own', hown', hattribute'⟩ := exists_schema_of_object (.inl hobject') hs'
    obtain ⟨hproperties, hexclusive⟩ := agrees_schema_of_interchangeable hentries hown hown'
    obtain ⟨g, rfl, -⟩ := exists_gathered hown
    obtain ⟨g', rfl, -⟩ := exists_gathered hown'
    have hframes := Schema.frames_attribute hattribute
    have hframes' := Schema.frames_attribute hattribute'
    rw [hframes.properties, hframes'.properties, hframes.exclusive, hframes'.exclusive]
    exact ⟨hsums.attribute_congr hsums' hattribute hattribute', hproperties, hexclusive⟩

/--
A chain of types, each but the first a reference that extends the one before, and a reference to the
last one. What the reference is compiled to is what the merge is compiled to that starts with the
declared object and puts the others on top one by one: the examples have the same entries, and the
schemas have the same type and description, the same properties, and exclude the same keys.
-/
theorem agrees_of_chain (hchain : List.IsChain r.Extends (base :: derived ++ [root]))
    (hobject : base.kind = .object) (hlayers : ∀ d ∈ base :: derived ++ [root], d.Layer)
    (hfold : (derived ++ [root]).foldlM Element.extendBy base = .ok merged)
    : (∀ v w, (r.exampleWithin n (.element root)).result = .ok v →
        (r.exampleWithin m (.element merged)).result = .ok w →
        ∃ t u, v = .object t ∧ w = .object u ∧ Table.Agrees t u)
      ∧ ∀ s s', (r.schemaWithin n (.element root)).result = .ok s →
          (r.schemaWithin m (.element merged)).result = .ok s' →
          (s.type = s'.type ∧ s.nullable = s'.nullable ∧ s.description = s'.description)
            ∧ (∃ t u, s.properties = some t ∧ s'.properties = some u ∧ Table.Agrees t u)
            ∧ s.exclusive = s'.exclusive := by
  have hmerged : Layered (base :: derived ++ [root]) merged :=
    (Layered.single base).foldlM hfold
  obtain ⟨hderived, hroot⟩ := List.forall_mem_append.1 hlayers
  rw [List.forall_mem_singleton] at hroot
  -- A compiler comes to a merge of the same elements, only in another order of the merges.
  constructor
  . intro v w hv hw
    obtain ⟨whole, hwhole, k, hk⟩ := exists_layered_of_chain
      (p := fun e => ∃ k, (r.exampleWithin k (.element e)).result = .ok v)
      (fun _ _ hextends _ _ => hextends.exists_example) hchain hderived hroot
      (.single root) ⟨n, hv⟩
    have hkind := hwhole.kind.trans hobject
    exact (agrees_of_layered hlayers hwhole hmerged hkind).1 v w hk hw
  . intro s s' hs hs'
    obtain ⟨whole, hwhole, k, hk⟩ := exists_layered_of_chain
      (p := fun e => ∃ k, (r.schemaWithin k (.element e)).result = .ok s)
      (fun _ _ hextends hdeclared he => hextends.exists_schema hdeclared he) hchain hderived hroot
      (.single root) ⟨n, hs⟩
    have hkind := hwhole.kind.trans hobject
    exact (agrees_of_layered hlayers hwhole hmerged hkind).2 s s' hk hs'

/--
An object whose first entry is no member, so that merging others on top of it drops nothing.
-/
def person : Element :=
  plainElement .object (.tuple [
    .element (plainElement .select (.tuple [
      .element (plainElement .option (.tuple [.element (plainMember "alias" .null)]))])),
    .element (plainMember "name" (.element (plainElement .string .null)))])

def employee : Element :=
  .mk (.named (.text "Person")) (.object [(.text "description", .text "Someone with a salary")])
    (.object [(.text "typeAttributes", .tuple [.text "nullable"])])
    (.tuple [
      .element (plainMember "name" .null),
      .element (plainMember "salary" (.element (plainElement .number .null)))])

def manager : Element :=
  plainElement (.named (.text "Employee")) .null

def staff : Registry where
  types := [(.text "Person", person), (.text "Employee", employee), (.text "Manager", manager)]

def director : Element :=
  plainElement (.named (.text "Manager")) (.tuple [
    .element (plainMember "name" (.element (plainElement .string (.text "Ann")))),
    .element (plainMember "salary" (.element (plainElement .number (.int 10))))])

theorem layer_plainElement {kind : Kind} {content : Value} (h : Sequential content)
    : (plainElement kind content).Layer where
  info := by
    rintro _ ⟨⟩
    exact Table.keyed_nil
  attributes := by
    rintro _ ⟨⟩
    exact Table.keyed_nil
  content := h

theorem layer_employee : employee.Layer where
  info := by
    rintro _ ⟨⟩
    exact ⟨by simp [Value.hashable], by simp⟩
  attributes := by
    rintro _ ⟨⟩
    exact ⟨by simp [Value.hashable], by simp⟩
  content := .inr ⟨_, rfl⟩

theorem agrees_of_chain_director
    : ∃ merged t u s s',
        [employee, manager, director].foldlM Element.extendBy person = .ok merged
        ∧ (staff.exampleOf director).result = .ok (.object t)
        ∧ (staff.exampleOf merged).result = .ok (.object u) ∧ Table.Agrees t u
        ∧ (staff.schemaOf director).result = .ok s ∧ (staff.schemaOf merged).result = .ok s'
        ∧ (s.type = s'.type ∧ s.nullable = s'.nullable ∧ s.description = s'.description)
        ∧ (∃ t u, s.properties = some t ∧ s'.properties = some u ∧ Table.Agrees t u)
        ∧ s.exclusive = s'.exclusive := by
  obtain ⟨x, hx⟩ : ∃ x, (staff.exampleOf director).result = .ok x := ⟨_, rfl⟩
  obtain ⟨s, hs⟩ : ∃ s, (staff.schemaOf director).result = .ok s := ⟨_, rfl⟩
  obtain ⟨merged, hfold, ⟨y, hy⟩, s', hs'⟩ : ∃ merged,
      [employee, manager, director].foldlM Element.extendBy person = .ok merged
        ∧ (∃ y, (staff.exampleOf merged).result = .ok y)
        ∧ ∃ s', (staff.schemaOf merged).result = .ok s' := ⟨_, rfl, ⟨_, rfl⟩, _, rfl⟩
  have hlayers : ∀ d ∈ [person, employee, manager, director], d.Layer := by
    simp only [List.forall_mem_cons]
    exact ⟨layer_plainElement (.inr ⟨_, rfl⟩), layer_employee, layer_plainElement (.inl rfl),
      layer_plainElement (.inr ⟨_, rfl⟩), by simp⟩
  have hchain : List.IsChain staff.Extends [person, employee, manager, director] := by
    simp only [List.isChain_cons_cons, List.isChain_singleton, and_true]
    exact ⟨⟨_, rfl, rfl⟩, ⟨_, rfl, rfl⟩, _, rfl, rfl⟩
  obtain ⟨hexamples, hschemas⟩ :=
    @agrees_of_chain staff nestingLimit nestingLimit person director merged [employee, manager]
      hchain rfl hlayers hfold
  obtain ⟨t, u, rfl, rfl, hagrees⟩ := hexamples x y hx hy
  exact ⟨merged, t, u, s, s', hfold, hx, hy, hagrees, hs, hs', hschemas s s' hs hs'⟩

end Chain

end Registry

end ApiElements
