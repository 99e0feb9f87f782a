import ApiElements.Proofs.Compile.Entries

/-!
This module contains that the properties of a schema of an element can be told apart, and so at every
depth within it.
-/

namespace ApiElements

/--
A schema whose properties, at every depth, can be told apart.
-/
inductive Schema.Tabled : Schema → Prop where
  | mk {s : Schema} (items : ∀ t ∈ s.items, Tabled t)
    (keyed : ∀ ps, s.properties = some ps → Table.Keyed ps)
    (property : ∀ ps, s.properties = some ps → ∀ p ∈ ps, Tabled p.2) : Tabled s

namespace Table

variable {α : Type} {t others : Table α} {P : α → Prop}

theorem forall_put (h : ∀ entry ∈ t, P entry.2) {x : α} (hx : P x) (key : Value)
    : ∀ entry ∈ t.put key x, P entry.2 := by
  induction t with
  | nil => simpa [put] using hx
  | cons first rest ih =>
    rw [List.forall_mem_cons] at h
    rw [put_cons]
    split
    . exact List.forall_mem_cons.2 ⟨hx, h.2⟩
    . exact List.forall_mem_cons.2 ⟨h.1, ih h.2⟩

theorem forall_union (h : ∀ entry ∈ t, P entry.2) (hothers : ∀ entry ∈ others, P entry.2)
    : ∀ entry ∈ t.union others, P entry.2 := by
  unfold Table.union
  induction others generalizing t with
  | nil => exact h
  | cons entry rest ih =>
    rw [List.forall_mem_cons] at hothers
    exact ih (forall_put h hothers.1 entry.1) hothers.2

theorem forall_foldl_union {β : Type} {entries : β → Table α} {bs : List β}
    (h : ∀ b ∈ bs, ∀ entry ∈ entries b, P entry.2) (ht : ∀ entry ∈ t, P entry.2)
    : ∀ entry ∈ bs.foldl (fun t b => t.union (entries b)) t, P entry.2 := by
  induction bs generalizing t with
  | nil => exact ht
  | cons b rest ih =>
    rw [List.forall_mem_cons] at h
    exact ih h.2 (forall_union ht h.1)

end Table

namespace Schema

variable {s s' : Schema}

theorem Tabled.of_frames (h : s.Tabled) (hframes : s'.Frames s) : s'.Tabled := by
  cases h with
  | mk items keyed property =>
    constructor
    . rw [hframes.items]
      exact items
    . rw [hframes.properties]
      exact keyed
    . rw [hframes.properties]
      exact property

theorem tabled_of_no_parts (hitems : s.items = []) (hproperties : s.properties = none) : s.Tabled := by
  constructor
  . simp [hitems]
  . simp [hproperties]
  . simp [hproperties]

theorem tabled_any : Schema.any.Tabled := by
  exact tabled_of_no_parts rfl rfl

theorem Tabled.property (h : s.Tabled) : ∀ p ∈ s.properties.getD [], p.2.Tabled := by
  cases h with
  | mk items keyed property =>
    cases hps : s.properties with
    | none => simp
    | some ps => exact property ps hps

end Schema

namespace Registry

variable {r : Registry} {depth : Nat} {v : Value} {s : Schema} {e : Element}
variable {g : Schema.Gathered}

theorem tabled_ofLiteral {type : SchemaType} (h : Schema.ofLiteral type e = .ok s) : s.Tabled := by
  obtain ⟨default, -, rfl⟩ := Schema.ofLiteral_eq_ok.1 h
  exact Schema.tabled_of_no_parts rfl rfl

theorem tabled_of_schemaEntries
    (hvalue : ∀ v s, (r.schemaWithin depth v).result = .ok s → s.Tabled)
    (h : (r.schemaEntries depth v).result = .ok g) : ∀ p ∈ g.properties, p.2.Tabled := by
  rcases select_or_member_or_passedOver v with ⟨e, rfl, hselect⟩ | ⟨e, rfl, hmember⟩ | hpassed
  . obtain ⟨options, schemas, -, hschemas, rfl⟩ := schemaEntries_select_eq_ok hselect h
    intro p hp
    obtain ⟨s, hs, hp⟩ := List.mem_flatMap.1 hp
    obtain ⟨option, -, hoption⟩ := Outcome.exists_of_mem_mapM hschemas hs
    exact (hvalue option s hoption).property p hp
  . obtain ⟨key, s, -, -, hproperties, -, hproperty⟩ := schemaEntries_member_eq_ok hmember h
    obtain ⟨value, t, -, ht, hattribute⟩ := propertyWithin_eq_ok.1 hproperty
    have htabled : t.Tabled := by
      unfold valueSchemaWithin at ht
      split at ht
      . injection ht with ht
        rw [← ht]
        exact Schema.tabled_any
      . exact hvalue value t ht
    rw [hproperties, List.forall_mem_singleton]
    exact htabled.of_frames (Schema.frames_attribute hattribute)
  . rw [schemaEntries_passedOver hpassed] at h
    injection h with h
    simp [← h]

theorem tabled_of_origin (hvalue : ∀ v s, (r.schemaWithin depth v).result = .ok s → s.Tabled)
    (hobject : ∀ content s, (r.schemaOfObjectWithin depth content).result = .ok s → s.Tabled)
    (h : r.Origin depth e s) : s.Tabled := by
  cases h with
  | literal _ made => exact tabled_ofLiteral made
  | choice _ made =>
    obtain ⟨variants, -, rfl⟩ := Schema.ofChoice_eq_ok.1 made
    exact Schema.tabled_of_no_parts rfl rfl
  | @items _ schemas _ _ made =>
    obtain ⟨kept, heq, hkept, -⟩ := ofItems_eq schemas
    rw [heq]
    constructor
    . intro t ht
      obtain ⟨item, -, hitem⟩ := Outcome.exists_of_mem_mapM made (hkept t ht)
      exact hvalue item t hitem
    . simp
    . simp
  | object _ made => exact hobject _ s made
  | merged _ _ made => exact hvalue _ s made
  | undeclared => exact Schema.tabled_any
  | unconstrained => exact Schema.tabled_any

theorem tabled_of_schema (r : Registry) (depth : Nat)
    : (∀ v s, (r.schemaWithin depth v).result = .ok s → s.Tabled)
        ∧ ∀ content s, (r.schemaOfObjectWithin depth content).result = .ok s → s.Tabled := by
  induction depth with
  | zero =>
    constructor
    . intro v s h
      contradiction
    . intro content s h
      contradiction
  | succ depth ih =>
    constructor
    . intro v s h
      obtain ⟨e, own, rfl, horigin, hattribute⟩ := exists_origin h
      exact (tabled_of_origin ih.1 ih.2 horigin).of_frames (Schema.frames_attribute hattribute)
    . intro content s h
      have hkeyed := (keyed_of_schema r (depth + 1)).2 content s h
      rw [schemaOfObjectWithin_eq, Logged.result_map, Outcome.map_eq_ok] at h
      obtain ⟨added, hadded, rfl⟩ := h
      have htabled : ∀ p ∈ (added.foldl Schema.Gathered.add {}).properties, p.2.Tabled := by
        rw [properties_foldl_add]
        apply Table.forall_foldl_union (P := Schema.Tabled) (t := []) ?_ (by simp)
        intro later hmem
        obtain ⟨v, -, hv⟩ := exists_of_mem_additions hadded later hmem
        exact tabled_of_schemaEntries ih.1 hv
      constructor
      . simp [Schema.Gathered.schema]
      . rintro _ ⟨⟩
        exact hkeyed
      . rintro _ ⟨⟩
        exact htabled

end Registry

end ApiElements
