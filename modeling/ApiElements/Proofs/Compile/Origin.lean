import ApiElements.Proofs.Compile.Visit

/-!
This module contains where the schema of an element comes from. A statement about all schemas is shown
by going through these origins, and not through the kinds of elements again.
-/

namespace ApiElements

def Kind.hasProperties : Kind → Bool
  | .object => true
  | .option => true
  | .named _ => true
  | _ => false

namespace Registry

/--
The origin of a schema that an element has by its kind: what it says itself, or the schemas of its
parts, which are one level down.
-/
inductive Origin (r : Registry) (depth : Nat) (e : Element) : Schema → Prop where
  | literal {type : SchemaType} {s : Schema} (kind : e.kind.hasProperties = false)
    (made : Schema.ofLiteral type e = .ok s) : Origin r depth e s
  | choice {s : Schema} (kind : e.kind = .enum) (made : Schema.ofChoice e = .ok s) : Origin r depth e s
  | items {items : List Value} {schemas : List Schema} (kind : e.kind = .array)
    (content : e.content.items = .ok items)
    (made : items.mapM (fun item => (r.schemaWithin depth item).result) = .ok schemas)
    : Origin r depth e (Schema.ofItems schemas)
  | object {s : Schema} (kind : e.kind = .object ∨ e.kind = .option)
    (made : (r.schemaOfObjectWithin depth e.content).result = .ok s) : Origin r depth e s
  | merged {name : Value} {merged : Element} {s : Schema} (kind : e.kind = .named name)
    (found : (r.resolve e).result = .ok (some merged))
    (made : (r.schemaWithin depth (.element merged)).result = .ok s) : Origin r depth e s
  | undeclared {name : Value} (kind : e.kind = .named name)
    (found : (r.resolve e).result = .ok none) : Origin r depth e Schema.any
  | unconstrained (kind : e.kind.hasProperties = false) : Origin r depth e Schema.any

variable {r : Registry} {depth : Nat} {v : Value} {e : Element} {s : Schema}

theorem origin_of_schemaOfKind (h : (r.schemaOfKind depth e).result = .ok s) : r.Origin depth e s := by
  unfold schemaOfKind at h
  cases hkind : e.kind with
  | boolean =>
    simp only [hkind] at h
    exact .literal (by rw [hkind]; rfl) h
  | number =>
    simp only [hkind] at h
    exact .literal (by rw [hkind]; rfl) h
  | string =>
    simp only [hkind] at h
    exact .literal (by rw [hkind]; rfl) h
  | enum =>
    simp only [hkind] at h
    exact .choice hkind h
  | array =>
    simp only [hkind, Logged.result_bind, Logged.result_liftM, Logged.result_map,
      Logged.result_mapM, Outcome.bind_eq_ok, Outcome.map_eq_ok] at h
    obtain ⟨items, hitems, schemas, hschemas, rfl⟩ := h
    exact .items hkind hitems hschemas
  | object =>
    simp only [hkind] at h
    exact .object (.inl hkind) h
  | option =>
    simp only [hkind] at h
    exact .object (.inr hkind) h
  | named name =>
    simp only [hkind, Logged.result_bind, Outcome.bind_eq_ok] at h
    obtain ⟨found, hfound, h⟩ := h
    cases found with
    | some merged => exact .merged hkind hfound h
    | none =>
      injection h with h
      rw [← h]
      exact .undeclared hkind hfound
  | _ =>
    simp only [hkind] at h
    injection h with h
    rw [← h]
    exact .unconstrained (by rw [hkind]; rfl)

/--
Whatever has a schema is an element, whose attributes are added to what it has by its kind.
-/
theorem exists_origin (h : (r.schemaWithin (depth + 1) v).result = .ok s)
    : ∃ e own, v = .element e ∧ r.Origin depth e own ∧ own.attribute e = .ok s := by
  cases v with
  | element e =>
    rw [schemaWithin_element, Logged.result_bind, Outcome.bind_eq_ok] at h
    obtain ⟨own, hown, hattribute⟩ := h
    exact ⟨e, own, rfl, origin_of_schemaOfKind hown, hattribute⟩
  | _ => contradiction

end Registry

end ApiElements
