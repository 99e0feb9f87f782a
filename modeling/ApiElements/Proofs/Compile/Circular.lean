import ApiElements.Proofs.Inheritance.Parts
import ApiElements.Proofs.Inheritance.Shadow

/-!
This module contains that types which lead to each other in a circle cannot be compiled, however deep
the elements may be nested: each type refers to the next one, or has a member that does. The element
that a reference is resolved to leads on just as the type does that it has been merged from, as long
as the reference has no content of its own.
-/

namespace ApiElements

namespace Logged

variable {α β : Type}

theorem fail_bind (fault : Fault) (f : α → Logged β)
    : (fail fault : Logged α) >>= f = fail fault := by
  rfl

end Logged

namespace Element

variable {declared e y : Element} {next : Value} {s : Schema}

/--
Descriptive data and attributes are objects, and the type attributes, if there are any, are texts.
-/
structure Readable (e : Element) : Prop where
  info : ∃ t, e.info = .object t ∧ Table.Keyed t
  attributes : ∃ t, e.attributes = .object t ∧ Table.Keyed t
  names : e.attributes.under? "typeAttributes" = none
    ∨ ∃ names : List String,
        e.attributes.under? "typeAttributes" = some (.tuple (names.map .text))

theorem Readable.keyedParts (h : e.Readable) : e.KeyedParts where
  info := by
    obtain ⟨u, hu, hkeyed⟩ := h.info
    rw [hu]
    rintro _ ⟨⟩
    exact hkeyed
  attributes := by
    obtain ⟨u, hu, hkeyed⟩ := h.attributes
    rw [hu]
    rintro _ ⟨⟩
    exact hkeyed

theorem Readable.exists_description (h : e.Readable) : ∃ d, e.description = .ok d := by
  obtain ⟨t, ht, -⟩ := h.info
  exact ⟨_, by rw [description, ht, Value.field]⟩

theorem Readable.exists_typeAttributes (h : e.Readable) : ∃ names, e.typeAttributes = .ok names := by
  obtain ⟨t, ht, -⟩ := h.attributes
  have hfield : e.attributes.field "typeAttributes"
      = .ok ((e.attributes.under? "typeAttributes").getD .null) := by
    rw [ht, Value.field, Value.under?_object]
  rcases h.names with hnone | ⟨names, hnames⟩
  . refine ⟨[], ?_⟩
    rw [typeAttributes, hfield, hnone]
    rfl
  . have hkeys : (names.map Value.text).mapM Value.asKey = .ok (names.map Value.text) := by
      rw [Outcome.mapM_eq_ok, List.forall₂_same]
      intro v hv
      obtain ⟨name, -, rfl⟩ := List.mem_map.1 hv
      rfl
    refine ⟨Value.distinct (names.map .text), ?_⟩
    rw [typeAttributes, hfield, hnames, Outcome.ok_bind, Option.getD_some,
      Value.itemsOrNone_eq_items rfl, Outcome.ok_bind, hkeys]
    rfl

theorem Readable.exists_attribute (h : e.Readable) (s : Schema) : ∃ s', s.attribute e = .ok s' := by
  obtain ⟨d, hd⟩ := h.exists_description
  obtain ⟨names, hnames⟩ := h.exists_typeAttributes
  exact ⟨_, Schema.attribute_eq_ok.2 ⟨d, names, hd, hnames, rfl⟩⟩

theorem Readable.exists_ofLiteral (h : e.Readable) (type : SchemaType)
    : ∃ s, Schema.ofLiteral type e = .ok s := by
  obtain ⟨t, ht, -⟩ := h.attributes
  exact ⟨_, by rw [Schema.ofLiteral, ht, Value.field, Outcome.ok_bind]⟩

theorem Readable.exists_addMember (h : e.Readable) {key : Value} (hkey : key.hashable = true)
    (g : Schema.Gathered) (s : Schema) : ∃ g', g.addMember e key s = .ok g' := by
  obtain ⟨d, hd⟩ := h.exists_description
  obtain ⟨names, hnames⟩ := h.exists_typeAttributes
  simp only [Schema.Gathered.addMember, hd, hnames, Value.asKey_eq_ok.2 ⟨hkey, rfl⟩,
    Outcome.ok_bind, Except.ok.injEq, exists_eq']

theorem Readable.exists_extendBy (hdeclared : declared.Readable) (he : e.Readable)
    (hcontent : e.content = .null)
    : ∃ merged, declared.extendBy e = .ok merged ∧ merged.Readable ∧ merged.kind = declared.kind
        ∧ merged.content = declared.content := by
  obtain ⟨t, ht, htkeyed⟩ := hdeclared.info
  obtain ⟨u, hu, hukeyed⟩ := he.info
  obtain ⟨t', ht', htkeyed'⟩ := hdeclared.attributes
  obtain ⟨u', hu', hukeyed'⟩ := he.attributes
  have hmerged : declared.extendBy e = .ok (.mk declared.kind (.object (Table.union t u))
      (.object (Table.union t' u')) declared.content) := by
    rw [extendBy, ht, hu, ht', hu', hcontent]
    rfl
  have hnames := (hdeclared.keyedParts.under?_extendBy he.keyedParts hmerged "typeAttributes").2
  refine ⟨_, hmerged, ?_, rfl, rfl⟩
  refine ⟨⟨_, rfl, htkeyed.union hukeyed⟩, ⟨_, rfl, htkeyed'.union hukeyed'⟩, ?_⟩
  rw [hnames]
  -- The names of the reference stand in the place of those of the type, which are kept if it has none.
  rcases he.names with hnone | ⟨names, hnames⟩
  . rw [hnone, Option.none_or]
    exact hdeclared.names
  . rw [hnames, Option.some_or]
    exact .inr ⟨names, rfl⟩

structure Refers (e : Element) (name : Value) : Prop where
  kind : e.kind = .named name
  content : e.content = .null
  readable : e.Readable

structure Primitive (e : Element) : Prop where
  kind : e.kind = .boolean ∨ e.kind = .number ∨ e.kind = .string
  readable : e.Readable

structure Holds (m : Element) (p : Element → Prop) : Prop where
  kind : m.kind = .member
  readable : m.Readable
  key : ∃ key, m.key = .ok key ∧ key.hashable = true
  value : ∃ y, m.value = .ok (.element y) ∧ p y

/--
An element that leads to a declared type: it is a reference to it, or an object with a member that
has such a reference as its value, after members that have literals.
-/
inductive LeadsTo (e : Element) (next : Value) : Prop where
  | reference (refers : e.Refers next)
  | object {before after : List Element} {m : Element} (kind : e.kind = .object)
    (readable : e.Readable) (content : e.content = .tuple ((before ++ m :: after).map .element))
    (literals : ∀ m' ∈ before, m'.Holds Primitive) (onward : m.Holds fun y => y.Refers next)

theorem LeadsTo.readable (h : e.LeadsTo next) : e.Readable := by
  cases h with
  | reference refers => exact refers.readable
  | object _ readable => exact readable

theorem LeadsTo.exists_extendBy (h : declared.LeadsTo next) (he : e.Readable)
    (hcontent : e.content = .null)
    : ∃ merged, declared.extendBy e = .ok merged ∧ merged.LeadsTo next := by
  obtain ⟨merged, hmerged, hreadable, hkind, hsame⟩ := h.readable.exists_extendBy he hcontent
  refine ⟨merged, hmerged, ?_⟩
  cases h with
  | reference refers =>
    exact .reference ⟨hkind.trans refers.kind, hsame.trans refers.content, hreadable⟩
  | object kind _ content literals onward =>
    exact .object (hkind.trans kind) hreadable (hsame.trans content) literals onward

end Element

namespace Registry

open Element (Readable Refers Primitive Holds LeadsTo)

variable {r : Registry} {depth : Nat} {e m y : Element} {name : Value} {p : Value → Prop}

/--
Each of some names is declared and leads to one of them.
-/
def Circular (r : Registry) (p : Value → Prop) : Prop :=
  ∀ name, p name →
    ∃ declared next, r.get? name = .ok (some declared) ∧ declared.LeadsTo next ∧ p next

/--
A reference to a type that leads onward is resolved to an element that does so, too.
-/
theorem Circular.exists_resolve (h : r.Circular p) (hname : p name) (he : e.Refers name)
    : ∃ merged next, r.resolve e = pure (some merged) ∧ merged.LeadsTo next ∧ p next := by
  obtain ⟨declared, next, hget, hleads, hnext⟩ := h name hname
  obtain ⟨merged, hmerged, honward⟩ := hleads.exists_extendBy he.readable he.content
  exact ⟨merged, next, resolve_eq_pure r he.kind hget hmerged, honward, hnext⟩

section Members

variable {α : Type} {added : Value → Logged α} {before after : List Element}

theorem scan_content (hbefore : ∀ m ∈ before, m.kind = .member) (hkind : m.kind = .member)
    : ∃ steps, r.scan (.tuple ((before ++ m :: after).map .element))
        = before.map (fun m => .entry (.element m)) ++ .entry (.element m) :: steps := by
  unfold scan entriesOf
  induction before with
  | nil =>
    refine ⟨(after.map Value.element).flatMap (scanEntry (r.included (r.types.length + 1))), ?_⟩
    rw [List.nil_append, List.map_cons, List.flatMap_cons, scanEntry_member hkind]
    rfl
  | cons m' others ih =>
    obtain ⟨steps, hsteps⟩ := ih fun m hmem => hbefore m (List.mem_cons_of_mem _ hmem)
    refine ⟨steps, ?_⟩
    rw [List.cons_append, List.map_cons, List.flatMap_cons, scanEntry_member (hbefore m' (by simp))]
    exact congrArg _ hsteps

theorem additions_eq_fail {fault : Fault} {steps : List Step}
    (hbefore : ∀ m ∈ before,
      added (.element m) = Logged.fail fault ∨ ∃ a, added (.element m) = pure a)
    (hfails : added (.element m) = Logged.fail fault)
    : additions added (before.map (fun m => .entry (.element m)) ++ .entry (.element m) :: steps)
        = Logged.fail fault := by
  induction before with
  | nil =>
    rw [List.map_nil, List.nil_append, additions, hfails]
    rfl
  | cons m' others ih =>
    have hothers := ih fun m hmem => hbefore m (List.mem_cons_of_mem _ hmem)
    rw [List.map_cons, List.cons_append, additions, hothers]
    rcases hbefore m' (by simp) with hfail | ⟨a, ha⟩
    . rw [hfail]
      rfl
    . rw [ha]
      rfl

end Members

section Literals

theorem exampleEntries_value (hkind : m.kind = .member) (hvalue : m.value = .ok (.element y))
    : r.exampleEntries depth (.element m)
        =
      (do
        let sample ← r.exampleWithin depth (.element y)
        let key ← (m.key : Except Fault Value)
        pure [(← (key.asKey : Except Fault Value), sample)]) := by
  simp only [exampleEntries, hkind, hvalue, Logged.liftM_ok, pure_bind]
  rfl

theorem schemaEntries_value {key : Value} (hkind : m.kind = .member) (hkey : m.key = .ok key)
    (hvalue : m.value = .ok (.element y))
    : r.schemaEntries depth (.element m)
        =
      (do
        let s ← r.schemaWithin depth (.element y)
        (({} : Schema.Gathered).addMember m key s : Except Fault Schema.Gathered)) := by
  simp only [schemaEntries, hkind, hkey, hvalue, Logged.liftM_ok, pure_bind]
  rfl

theorem exampleWithin_primitive (h : y.Primitive) (depth : Nat)
    : r.exampleWithin depth (.element y) = Logged.fail .tooDeep
        ∨ ∃ x, r.exampleWithin depth (.element y) = pure x := by
  cases depth with
  | zero => exact .inl rfl
  | succ depth =>
    apply Or.inr
    rw [exampleWithin]
    rcases h.kind with hkind | hkind | hkind
    . exact ⟨_, by rw [hkind]⟩
    . exact ⟨_, by rw [hkind]⟩
    . exact ⟨_, by rw [hkind]⟩

theorem schemaWithin_primitive (h : y.Primitive) (depth : Nat)
    : r.schemaWithin depth (.element y) = Logged.fail .tooDeep
        ∨ ∃ s, r.schemaWithin depth (.element y) = pure s := by
  cases depth with
  | zero => exact .inl rfl
  | succ depth =>
    apply Or.inr
    have hown : ∃ own, r.schemaOfKind depth y = pure own := by
      unfold schemaOfKind
      rcases h.kind with hkind | hkind | hkind
      . obtain ⟨own, hown⟩ := h.readable.exists_ofLiteral .boolean
        exact ⟨own, by rw [hkind, hown, Logged.liftM_ok]⟩
      . obtain ⟨own, hown⟩ := h.readable.exists_ofLiteral .number
        exact ⟨own, by rw [hkind, hown, Logged.liftM_ok]⟩
      . obtain ⟨own, hown⟩ := h.readable.exists_ofLiteral .string
        exact ⟨own, by rw [hkind, hown, Logged.liftM_ok]⟩
    obtain ⟨own, hown⟩ := hown
    obtain ⟨s, hs⟩ := h.readable.exists_attribute own
    exact ⟨s, by rw [schemaWithin_element, hown, pure_bind, hs, Logged.liftM_ok]⟩

theorem exampleEntries_primitive (h : m.Holds Primitive) (depth : Nat)
    : r.exampleEntries depth (.element m) = Logged.fail .tooDeep
        ∨ ∃ t, r.exampleEntries depth (.element m) = pure t := by
  obtain ⟨key, hkey, hhashable⟩ := h.key
  obtain ⟨y, hy, hprimitive⟩ := h.value
  rw [exampleEntries_value h.kind hy]
  rcases exampleWithin_primitive hprimitive depth with hfail | ⟨x, hx⟩
  . exact .inl (by rw [hfail, Logged.fail_bind])
  . refine .inr ⟨[(key, x)], ?_⟩
    rw [hx, pure_bind, hkey, Logged.liftM_ok, pure_bind, Value.asKey_eq_ok.2 ⟨hhashable, rfl⟩,
      Logged.liftM_ok, pure_bind]

theorem schemaEntries_primitive (h : m.Holds Primitive) (depth : Nat)
    : r.schemaEntries depth (.element m) = Logged.fail .tooDeep
        ∨ ∃ g, r.schemaEntries depth (.element m) = pure g := by
  obtain ⟨key, hkey, hhashable⟩ := h.key
  obtain ⟨y, hy, hprimitive⟩ := h.value
  rw [schemaEntries_value h.kind hkey hy]
  rcases schemaWithin_primitive hprimitive depth with hfail | ⟨s, hs⟩
  . exact .inl (by rw [hfail, Logged.fail_bind])
  . obtain ⟨g, hg⟩ := h.readable.exists_addMember hhashable {} s
    exact .inr ⟨g, by rw [hs, pure_bind, hg, Logged.liftM_ok]⟩

end Literals

section Circles

/--
At no depth is there an example of an element that leads into a circle.
-/
theorem Circular.exampleWithin_eq (h : r.Circular p) (hname : p name) (he : e.LeadsTo name)
    (depth : Nat) : r.exampleWithin depth (.element e) = Logged.fail .tooDeep := by
  -- What a reference is resolved to is one level further down, and the member of an object is two
  -- levels down: both lead on into the circle, with less depth left.
  induction depth using Nat.strongRecOn generalizing e name with
  | ind depth ih =>
    cases depth with
    | zero => rfl
    | succ depth =>
      rw [exampleWithin]
      cases he with
      | reference refers =>
        obtain ⟨merged, next, hresolve, honward, hnext⟩ := h.exists_resolve hname refers
        simp only [refers.kind, hresolve, pure_bind]
        exact ih depth (by omega) hnext honward
      | @object before after m kind _ content literals onward =>
        simp only [kind]
        cases depth with
        | zero => rfl
        | succ depth =>
          obtain ⟨y, hy, hrefers⟩ := onward.value
          have hfails : r.exampleEntries depth (.element m) = Logged.fail .tooDeep := by
            rw [exampleEntries_value onward.kind hy, ih depth (by omega) hname (.reference hrefers),
              Logged.fail_bind]
          obtain ⟨steps, hsteps⟩ := @scan_content r m before after
            (fun m' hm' => (literals m' hm').kind) onward.kind
          rw [exampleObjectWithin_eq, content, hsteps, additions_eq_fail
            (fun m' hm' => exampleEntries_primitive (literals m' hm') depth) hfails]
          rfl

theorem Circular.schemaWithin_eq (h : r.Circular p) (hname : p name) (he : e.LeadsTo name)
    (depth : Nat) : r.schemaWithin depth (.element e) = Logged.fail .tooDeep := by
  induction depth using Nat.strongRecOn generalizing e name with
  | ind depth ih =>
    cases depth with
    | zero => rfl
    | succ depth =>
      rw [schemaWithin_element, schemaOfKind]
      cases he with
      | reference refers =>
        obtain ⟨merged, next, hresolve, honward, hnext⟩ := h.exists_resolve hname refers
        simp only [refers.kind, hresolve, pure_bind]
        rw [ih depth (by omega) hnext honward, Logged.fail_bind]
      | @object before after m kind _ content literals onward =>
        simp only [kind]
        cases depth with
        | zero => rfl
        | succ depth =>
          obtain ⟨key, hkey, -⟩ := onward.key
          obtain ⟨y, hy, hrefers⟩ := onward.value
          have hfails : r.schemaEntries depth (.element m) = Logged.fail .tooDeep := by
            rw [schemaEntries_value onward.kind hkey hy,
              ih depth (by omega) hname (.reference hrefers), Logged.fail_bind]
          obtain ⟨steps, hsteps⟩ := @scan_content r m before after
            (fun m' hm' => (literals m' hm').kind) onward.kind
          rw [schemaOfObjectWithin_eq, content, hsteps, additions_eq_fail
            (fun m' hm' => schemaEntries_primitive (literals m' hm') depth) hfails]
          rfl

end Circles

end Registry

end ApiElements
