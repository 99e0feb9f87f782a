import ApiElements.Proofs.Compile.Entries
import ApiElements.Proofs.Compile.Termination
import ApiElements.Proofs.Validation.Nullable

/-!
This module contains where the properties of schemas come from, member by member, and what becomes
of the schemas of elements and of members that are nullable.
-/

namespace ApiElements

namespace Registry

variable {r : Registry} {depth : Nat} {v content : Value} {e m : Element} {s : Schema}
variable {g : Schema.Gathered} {ms : List Element} {t : Table Schema}

def HasProperty (r : Registry) (m : Element) (s : Schema) : Prop :=
  ∃ depth, (r.propertyWithin depth m).result = .ok s

/--
The properties of schemas down to a depth are those of the members that are collected for them.
-/
def Offers (r : Registry) (depth : Nat) : Prop :=
  ∀ v s, (r.schemaWithin depth v).result = .ok s →
    ∃ ms, (r.offered depth v).result = .ok ms ∧ Tracks r.HasProperty ms (s.properties.getD [])

theorem exists_offered_of_options (hoffers : r.Offers depth) {options : List Value}
    {schemas : List Schema} (h : options.mapM (fun v => (r.schemaWithin depth v).result) = .ok schemas)
    (ht : Tracks r.HasProperty ms t)
    : ∃ xss, options.mapM (fun v => (r.offered depth v).result) = .ok xss
        ∧ Tracks r.HasProperty (ms ++ xss.flatten)
            (t.union (schemas.flatMap fun s => s.properties.getD [])) := by
  induction options generalizing schemas ms t with
  | nil =>
    injection h with h
    subst h
    refine ⟨[], rfl, ?_⟩
    rw [List.flatten_nil, List.append_nil]
    exact ht
  | cons option rest ih =>
    obtain ⟨s, others, hs, hothers, rfl⟩ := Outcome.mapM_cons_eq_ok.1 h
    obtain ⟨xs, hxs, htracks⟩ := hoffers option s hs
    obtain ⟨xss, hxss, hrest⟩ := ih hothers (ht.union htracks)
    refine ⟨xs :: xss, Outcome.mapM_cons_eq_ok.2 ⟨xs, xss, hxs, hxss, rfl⟩, ?_⟩
    rw [List.flatten_cons, ← List.append_assoc, List.flatMap_cons, Table.union_append]
    exact hrest

theorem exists_collect_of_schemaEntries (hoffers : r.Offers depth)
    (h : (r.schemaEntries depth v).result = .ok g) (ht : Tracks r.HasProperty ms t)
    : ∃ ms', (collectVisit (r.offeredBy depth) ms v).result = .ok ms'
        ∧ Tracks r.HasProperty ms' (t.union g.properties) := by
  rcases select_or_member_or_passedOver v with ⟨e, rfl, hselect⟩ | ⟨e, rfl, hmember⟩ | hpassed
  . obtain ⟨options, schemas, hoptions, hschemas, rfl⟩ := schemaEntries_select_eq_ok hselect h
    obtain ⟨xss, hxss, htracks⟩ := exists_offered_of_options hoffers hschemas ht
    refine ⟨ms ++ xss.flatten, ?_, htracks⟩
    rw [collectVisit_select hselect, offeredBy, Logged.result_map, Logged.result_bind,
      Logged.result_liftM, hoptions, Outcome.ok_bind, Logged.result_map, Logged.result_mapM, hxss]
    rfl
  . obtain ⟨key, s, hkey, hhashable, hproperties, -, hproperty⟩ :=
      schemaEntries_member_eq_ok hmember h
    rw [collectVisit_member hmember, hproperties]
    exact ⟨ms ++ [e], rfl, ht.put hkey hhashable ⟨depth, hproperty⟩⟩
  . rw [schemaEntries_passedOver hpassed] at h
    injection h with h
    subst h
    rw [collectVisit_passedOver hpassed]
    exact ⟨ms, rfl, ht⟩

def OffersIn (r : Registry) (depth : Nat) : Prop :=
  ∀ content s, (r.schemaOfObjectWithin depth content).result = .ok s →
    ∃ ms, (r.offeredIn depth content).result = .ok ms
      ∧ Tracks r.HasProperty ms (s.properties.getD [])

theorem offersIn_succ (hoffers : r.Offers depth) : r.OffersIn (depth + 1) := by
  intro content s h
  rw [schemaOfObjectWithin_succ, Logged.result_bind, Outcome.bind_eq_ok] at h
  obtain ⟨g, hwalk, h⟩ := h
  injection h with h
  subst h
  rw [offeredIn_succ]
  apply walk_simulates (R := fun g ms => Tracks r.HasProperty ms g.properties) ?_ Tracks.nil hwalk
  intro v _ g ms g' htracks hvisit
  rw [schemaVisit_eq, Logged.result_map, Outcome.map_eq_ok] at hvisit
  obtain ⟨added, hadded, rfl⟩ := hvisit
  exact exists_collect_of_schemaEntries hoffers hadded htracks

theorem exists_offered_of_origin (hoffers : r.Offers depth) (hoffersIn : r.OffersIn depth)
    (h : r.Origin depth e s)
    : ∃ ms, (r.offered (depth + 1) (.element e)).result = .ok ms
        ∧ Tracks r.HasProperty ms (s.properties.getD []) := by
  cases h with
  | literal kind made =>
    rw [offered_of_no_properties kind]
    exact ⟨[], rfl, tracks_of_none (regular_ofLiteral made).2⟩
  | choice kind made =>
    rw [offered_of_no_properties (by rw [kind]; rfl)]
    exact ⟨[], rfl, tracks_of_none (properties_ofChoice made)⟩
  | items kind =>
    rw [offered_of_no_properties (by rw [kind]; rfl)]
    exact ⟨[], rfl, tracks_of_none (properties_ofItems _)⟩
  | object kind made =>
    rw [offered_of_object kind]
    exact hoffersIn e.content s made
  | merged kind found made =>
    rw [result_offered_of_merged kind found]
    exact hoffers _ s made
  | undeclared kind found =>
    rw [result_offered_of_undeclared kind found]
    exact ⟨[], rfl, tracks_of_none rfl⟩
  | unconstrained kind =>
    rw [offered_of_no_properties kind]
    exact ⟨[], rfl, tracks_of_none rfl⟩

theorem offers_succ (hoffers : r.Offers depth) (hoffersIn : r.OffersIn depth)
    : r.Offers (depth + 1) := by
  intro v s h
  obtain ⟨e, own, rfl, horigin, hattribute⟩ := exists_origin h
  rw [(Schema.frames_attribute hattribute).properties]
  exact exists_offered_of_origin hoffers hoffersIn horigin

/--
Each property of a schema is that of the last member with its key.
-/
theorem offers (r : Registry) (depth : Nat) : r.Offers depth ∧ r.OffersIn depth := by
  induction depth with
  | zero =>
    constructor
    . intro v s h
      contradiction
    . intro content s h
      contradiction
  | succ depth ih => exact ⟨offers_succ ih.1 ih.2, offersIn_succ ih.1⟩

section Nullable

theorem single_of_valueSchemaWithin {value : Value}
    (h : (r.valueSchemaWithin depth value).result = .ok s) : s.Single := by
  unfold valueSchemaWithin at h
  split at h
  . injection h with h
    exact .inl (by rw [← h]; rfl)
  . exact single_of_schemaWithin h

/--
What a schema becomes by being made nullable: it accepts `null` unless it excludes keys, and besides
`null` the same values as another schema.
-/
structure Widened (s s' : Schema) : Prop where
  null : Draft4.accepts s.toValue .null = true ↔ s.exclusive = []
  other : ∀ v, v ≠ .null → Draft4.accepts s.toValue v = Draft4.accepts s'.toValue v

theorem accepts_null_of_nullable {t : Schema} (ht : t.Single) (hnullable : e.Nullable)
    (h : t.attribute e = .ok s) : Draft4.accepts s.toValue .null = true ↔ s.exclusive = [] := by
  obtain ⟨description, names, -, hnames, rfl⟩ := Schema.attribute_eq_ok.1 h
  obtain ⟨names', hnames', hmember⟩ := hnullable
  rw [hnames, Except.ok.injEq] at hnames'
  subst hnames'
  rw [if_pos hmember, Schema.accepts_null_admitNull (ht.describe description),
    (Schema.frames_admitNull _).exclusive]

theorem alike_of_typeAttributes {names : List Value} (h : e.typeAttributes = .ok names)
    : e.Alike e.notNullable := by
  obtain ⟨v, items, hv, -⟩ := Element.typeAttributes_eq_ok.1 h
  unfold Value.field at hv
  split at hv
  . next t ht => exact Element.alike_notNullable ht
  . contradiction

theorem exists_widened_property (hnullable : m.Nullable)
    (h : (r.propertyWithin depth m).result = .ok s)
    : ∃ s', (r.propertyWithin depth m.notNullable).result = .ok s' ∧ Widened s s' := by
  obtain ⟨value, t, hvalue, ht, hattribute⟩ := propertyWithin_eq_ok.1 h
  obtain ⟨names, hnames, hmember⟩ := hnullable
  have halike := alike_of_typeAttributes hnames
  obtain ⟨s', hs', hstrict⟩ := Schema.exists_attribute_of_alike halike rfl hattribute
  have hvalue' : m.notNullable.value = .ok value := by
    unfold Element.value at hvalue ⊢
    rw [halike.content]
    exact hvalue
  refine ⟨s', propertyWithin_eq_ok.2 ⟨value, t, hvalue', ht, hs'⟩, ?_, ?_⟩
  . apply accepts_null_of_nullable (single_of_valueSchemaWithin ht) ?_ hattribute
    exact ⟨names, hnames, hmember⟩
  . exact fun v hv => Schema.accepts_congr_of_strict hstrict hv

theorem exists_widened_schema (hnullable : e.Nullable)
    (h : (r.schemaWithin depth (.element e)).result = .ok s)
    : ∃ s', (r.schemaWithin depth (.element e.notNullable)).result = .ok s' ∧ Widened s s' := by
  obtain ⟨names, hnames, hmember⟩ := hnullable
  obtain ⟨s', hs', hstrict⟩ := exists_schema_of_alike (alike_of_typeAttributes hnames) h
  refine ⟨s', hs', ?_, fun v hv => Schema.accepts_congr_of_strict hstrict hv⟩
  cases depth with
  | zero => contradiction
  | succ depth =>
    obtain ⟨_, own, ⟨⟩, horigin, hattribute⟩ := exists_origin h
    apply accepts_null_of_nullable ?_ ⟨names, hnames, hmember⟩ hattribute
    exact single_of_origin (fun _ _ => single_of_schemaWithin) horigin

/--
A nullable element has the schema that it has without that attribute, but for `null`: that is
accepted unless a selection makes the schema exclude keys. The same holds for each nullable member
and the property that it stands for in the schema of an element.
-/
theorem nullable_widens (h : (r.schemaWithin depth (.element e)).result = .ok s)
    : (e.Nullable → ∃ s', (r.schemaWithin depth (.element e.notNullable)).result = .ok s'
          ∧ Widened s s')
        ∧ ∃ ms, (r.offered depth (.element e)).result = .ok ms
            ∧ ∀ key x, key.hashable = true → Table.get? (s.properties.getD []) key = some x →
                ∃ m d, lastWith ms key = some m ∧ (r.propertyWithin d m).result = .ok x
                  ∧ (m.Nullable → ∃ x', (r.propertyWithin d m.notNullable).result = .ok x'
                      ∧ Widened x x') := by
  constructor
  . exact fun hnullable => exists_widened_schema hnullable h
  . obtain ⟨ms, hms, htracks⟩ := (offers r depth).1 (.element e) s h
    refine ⟨ms, hms, ?_⟩
    intro key x hkey hx
    obtain ⟨m, hm, d, hd⟩ := htracks.exists_of_get? hkey hx
    exact ⟨m, d, hm, hd, fun hnullable => exists_widened_property hnullable hd⟩

def asNullable (e : Element) : Element :=
  .mk e.kind e.info (.object [(.text "typeAttributes", .tuple [.text "nullable"])]) e.content

def cardName : Element :=
  asNullable (plainMember "name" (.element (plainElement .string .null)))

def card : Element :=
  asNullable (plainElement .object (.tuple [
    .element cardName,
    .element (plainElement .select (.tuple [
      .element (plainElement .option (.tuple [.element (plainMember "mail" .null)])),
      .element (plainElement .option (.tuple [.element (plainMember "phone" .null)]))]))]))

def nothingDeclared : Registry where
  types := []

theorem nullable_widens_card
    : card.Nullable ∧ cardName.Nullable ∧ ∃ s s', (nothingDeclared.schemaOf card).result = .ok s
        ∧ (nothingDeclared.schemaOf card.notNullable).result = .ok s' ∧ Widened s s'
        ∧ Draft4.accepts s.toValue .null = false
        ∧ ∃ x x' d, Table.get? (s.properties.getD []) (.text "name") = some x
            ∧ (nothingDeclared.propertyWithin d cardName.notNullable).result = .ok x'
            ∧ Widened x x' := by
  have hcard : card.Nullable := ⟨_, rfl, rfl⟩
  have hname : cardName.Nullable := ⟨_, rfl, rfl⟩
  obtain ⟨s, hs, hexclusive, x, hx⟩ : ∃ s, (nothingDeclared.schemaOf card).result = .ok s
      ∧ s.exclusive = [[.text "mail", .text "phone"]]
      ∧ ∃ x, Table.get? (s.properties.getD []) (.text "name") = some x := ⟨_, rfl, rfl, _, rfl⟩
  obtain ⟨hroot, ms, hms, hproperties⟩ := nullable_widens hs
  obtain ⟨s', hs', hwidened⟩ := hroot hcard
  obtain ⟨m, d, hm, -, hmember⟩ := hproperties (.text "name") x rfl hx
  obtain rfl : m = cardName := by
    obtain ⟨ms', hms', hlast⟩ : ∃ ms',
        (nothingDeclared.offered nestingLimit (.element card)).result = .ok ms'
          ∧ lastWith ms' (.text "name") = some cardName := ⟨_, rfl, rfl⟩
    rw [hms', Except.ok.injEq] at hms
    rw [← hms, hlast, Option.some.injEq] at hm
    exact hm.symm
  obtain ⟨x', hx', hwidened'⟩ := hmember hname
  refine ⟨hcard, hname, s, s', hs, hs', hwidened, ?_, x, x', d, hx, hx', hwidened'⟩
  rw [Bool.eq_false_iff, ne_eq, hwidened.null, hexclusive]
  simp

end Nullable

end Registry

end ApiElements
