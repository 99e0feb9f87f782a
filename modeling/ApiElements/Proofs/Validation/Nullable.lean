import ApiElements.Proofs.Compile.Origin
import ApiElements.Proofs.Validation.Satisfied

/-!
This module contains what it means for an element to be nullable: which schemas accept `null` then,
and that on all other values its schema does not differ from the one without that attribute.
-/

namespace ApiElements

namespace Draft4

theorem typeHolds_nullable_of_ne {t : SchemaType} {v : Value} (hv : v ≠ .null) (nullable : Bool)
    : typeHolds (Schema.typeValue t nullable) v = typeHolds (Schema.typeValue t false) v := by
  cases nullable with
  | false => rfl
  | true =>
    have hnull : hasType (.text "null") v = false := by
      rw [Bool.eq_false_iff, ne_eq, hasType_text]
      cases v with
      | null => contradiction
      | double d => cases d <;> simp [typeName?]
      | decimal d => cases d <;> simp [typeName?]
      | _ => simp [typeName?]
    simp [Schema.typeValue, typeHolds, hnull]

theorem equalsLiteral_null {v : Value} (hv : v ≠ .null) : equalsLiteral .null v = false := by
  cases v with
  | null => contradiction
  | _ => simp [equalsLiteral, Value.same, Value.number?]

theorem typeHolds_null {t : SchemaType} {nullable : Bool}
    : typeHolds (Schema.typeValue t nullable) .null = nullable := by
  cases nullable with
  | true => cases t <;> rfl
  | false => cases t <;> rfl

theorem literal_equals_null {literal : Value}
    : equalsLiteral literal .null = true ↔ literal = .null := by
  cases literal with
  | _ => simp [equalsLiteral, Value.same, Value.number?]

end Draft4

theorem Value.null_memberOf {vs : List Value} : Value.null.memberOf vs = true ↔ Value.null ∈ vs := by
  simp only [Value.memberOf, List.any_eq_true]
  constructor
  . rintro ⟨x, hx, hsame⟩
    cases x with
    | null => exact hx
    | _ => simp [Value.same, Value.number?] at hsame
  . exact fun hx => ⟨.null, hx, rfl⟩

namespace Schema

variable {s s' : Schema} {v : Value}

/--
The schema without what it says about `null`: neither the type nor the values to choose from have it.
-/
def strict (s : Schema) : Schema :=
  { s with nullable := false, enum := s.enum.map fun vs => vs.filter fun v => !v.isNull }

theorem strict_admitNull (s : Schema) : s.admitNull.strict = s.strict := by
  unfold admitNull
  split
  . rfl
  . next values htype henum =>
    split
    . rfl
    . simp [strict, henum, Value.isNull]
  . rfl

theorem strict_describe (s : Schema) (description : Value)
    : (s.describe description).strict = s.strict.describe description := by
  unfold describe
  split
  . rfl
  . rfl

theorem accepts_strict (hv : v ≠ .null)
    : Draft4.accepts s.strict.toValue v = Draft4.accepts s.toValue v := by
  rw [Bool.eq_iff_iff, accepts_toValue_iff, accepts_toValue_iff]
  have henum : (∀ vs, s.strict.enum = some vs → ∃ literal ∈ vs, Draft4.equalsLiteral literal v = true)
      ↔ ∀ vs, s.enum = some vs → ∃ literal ∈ vs, Draft4.equalsLiteral literal v = true := by
    cases hs : s.enum with
    | none => simp [strict, hs]
    | some vs =>
      simp only [strict, hs, Option.map_some, Option.some.injEq, forall_eq', List.mem_filter]
      constructor
      . rintro ⟨literal, ⟨hmem, -⟩, hliteral⟩
        exact ⟨literal, hmem, hliteral⟩
      . rintro ⟨literal, hmem, hliteral⟩
        refine ⟨literal, ⟨hmem, ?_⟩, hliteral⟩
        by_contra hnull
        rw [Bool.not_eq_true, Bool.not_eq_false'] at hnull
        rw [Value.isNull_iff.1 hnull, Draft4.equalsLiteral_null hv] at hliteral
        contradiction
  constructor
  . intro h
    refine ⟨?_, henum.1 h.enum, h.items, h.properties, h.exclusive, h.required⟩
    intro t ht
    rw [Draft4.typeHolds_nullable_of_ne hv]
    exact h.type t ht
  . intro h
    refine ⟨?_, henum.2 h.enum, h.items, h.properties, h.exclusive, h.required⟩
    intro t ht
    have htype := h.type t ht
    rw [Draft4.typeHolds_nullable_of_ne hv] at htype
    exact htype

theorem accepts_congr_of_strict (h : s.strict = s'.strict) (hv : v ≠ .null)
    : Draft4.accepts s.toValue v = Draft4.accepts s'.toValue v := by
  rw [← accepts_strict hv, h, accepts_strict hv]

/--
Only a type, or else a choice of values, says which values there may be.
-/
def Single (s : Schema) : Prop :=
  s.type = none ∨ s.enum = none

theorem Single.describe (h : s.Single) (description : Value) : (s.describe description).Single := by
  unfold Schema.describe
  split
  . exact h
  . exact h

theorem Single.admitNull (h : s.Single) : s.admitNull.Single := by
  unfold Schema.admitNull
  split
  . exact h
  . next htype _ =>
    split
    . exact h
    . exact .inl htype
  . exact h

theorem accepts_null_iff
    : Draft4.accepts s.toValue .null = true
        ↔
      (∀ t, s.type = some t → s.nullable = true)
        ∧ (∀ vs, s.enum = some vs → Value.null.memberOf vs = true) ∧ s.exclusive = [] := by
  rw [accepts_toValue_iff]
  constructor
  . intro h
    refine ⟨?_, ?_, ?_⟩
    . intro t ht
      have htype := h.type t ht
      rw [Draft4.typeHolds_null] at htype
      exact htype
    . intro vs hvs
      obtain ⟨literal, hmem, hliteral⟩ := h.enum vs hvs
      rw [Draft4.literal_equals_null] at hliteral
      exact Value.null_memberOf.2 (hliteral ▸ hmem)
    . rw [List.eq_nil_iff_forall_not_mem]
      intro ks hks
      obtain ⟨es, hes, -⟩ := h.exclusive ks hks
      contradiction
  . rintro ⟨hnullable, hchoice, hexclusive⟩
    constructor
    . intro t ht
      rw [Draft4.typeHolds_null]
      exact hnullable t ht
    . exact fun vs hvs => ⟨.null, Value.null_memberOf.1 (hchoice vs hvs), rfl⟩
    . simp
    . simp
    . simp [hexclusive]
    . simp

/--
A schema that admits `null` accepts it unless it also excludes that keys are there at once: what is
no object meets no such constraint.
-/
theorem accepts_null_admitNull (h : s.Single)
    : Draft4.accepts s.admitNull.toValue .null = true ↔ s.exclusive = [] := by
  rw [accepts_null_iff, (frames_admitNull s).exclusive]
  unfold admitNull
  split
  . next t htype =>
    have henum : s.enum = none := h.resolve_left (by simp [htype])
    simp [henum]
  . next vs htype henum =>
    split
    . next hmember => simp [htype, henum, hmember]
    . simp [htype, Value.memberOf, Value.same]
  . next htype henum => simp [htype, henum]

end Schema

section Removal

namespace Value

def removing (v : Value) (name : String) : Value :=
  match v with
  | .list items => .list (items.filter fun x => !(Value.text name).same x)
  | .tuple items => .tuple (items.filter fun x => !(Value.text name).same x)
  | .set items => .set (items.filter fun x => !(Value.text name).same x)
  | .object entries => .object (entries.filter fun entry => !(Value.text name).same entry.1)
  | v => v

theorem itemsOrNone_removing {v : Value} {items : List Value} {name : String}
    (hname : name.length ≠ 1) (h : v.itemsOrNone = .ok items)
    : (v.removing name).itemsOrNone = .ok (items.filter fun x => !(Value.text name).same x) := by
  have hself : v.removing name = v → (∀ x ∈ items, (Value.text name).same x = false) →
      (v.removing name).itemsOrNone = .ok (items.filter fun x => !(Value.text name).same x) := by
    intro hv hitems
    rw [hv, h, List.filter_eq_self.2]
    exact fun x hx => by rw [hitems x hx]; rfl
  cases v with
  | list xs =>
    rw [itemsOrNone_eq_items rfl, Except.ok.injEq] at h
    rw [← h]
    exact itemsOrNone_eq_items rfl
  | tuple xs =>
    rw [itemsOrNone_eq_items rfl, Except.ok.injEq] at h
    rw [← h]
    exact itemsOrNone_eq_items rfl
  | set xs =>
    rw [itemsOrNone_eq_items rfl, Except.ok.injEq] at h
    rw [← h]
    exact itemsOrNone_eq_items rfl
  | object entries =>
    rw [itemsOrNone_eq_items rfl, Except.ok.injEq] at h
    rw [← h, Table.keys, List.filter_map]
    exact itemsOrNone_eq_items rfl
  | text s =>
    apply hself rfl
    rw [itemsOrNone_eq_items rfl, Except.ok.injEq] at h
    rw [← h]
    intro x hx
    obtain ⟨c, -, rfl⟩ := List.mem_map.1 hx
    rw [text_same_text, beq_eq_false_iff_ne]
    rintro rfl
    simp at hname
  | bytes data =>
    apply hself rfl
    rw [itemsOrNone_eq_items rfl, Except.ok.injEq] at h
    rw [← h]
    intro x hx
    obtain ⟨b, -, rfl⟩ := List.mem_map.1 hx
    rfl
  | _ =>
    apply hself rfl
    unfold itemsOrNone at h
    split at h
    . contradiction
    . injection h with h
      simp [← h]

theorem mem_of_mem_distinct {items : List Value} {x : Value} (h : x ∈ distinct items) : x ∈ items := by
  have hfold : ∀ kept, x ∈ items.foldl (fun kept x => if x.memberOf kept then kept else kept ++ [x]) kept →
      x ∈ kept ∨ x ∈ items := by
    clear h
    induction items with
    | nil => exact fun kept h => .inl h
    | cons y rest ih =>
      intro kept h
      rcases ih _ h with hkept | hrest
      . dsimp only at hkept
        split at hkept
        . exact .inl hkept
        . rcases List.mem_append.1 hkept with hkept | hy
          . exact .inl hkept
          . rw [List.mem_singleton] at hy
            exact .inr (by simp [hy])
      . exact .inr (List.mem_cons_of_mem _ hrest)
  exact (hfold [] h).resolve_left (by simp)

end Value

namespace Element

variable {e e' : Element} {s s' : Schema} {t t' : Table Value} {names : List Value}

theorem typeAttributes_eq_ok
    : e.typeAttributes = .ok names
        ↔
      ∃ v items, e.attributes.field "typeAttributes" = .ok v ∧ v.itemsOrNone = .ok items
        ∧ (∀ x ∈ items, x.hashable = true) ∧ names = Value.distinct items := by
  unfold typeAttributes
  simp only [Outcome.bind_eq_ok, Value.mapM_asKey_eq_ok, Except.ok.injEq]
  constructor
  . rintro ⟨v, hv, items, hitems, _, ⟨hhashable, rfl⟩, rfl⟩
    exact ⟨v, items, hv, hitems, hhashable, rfl⟩
  . rintro ⟨v, items, hv, hitems, hhashable, rfl⟩
    exact ⟨v, hv, items, hitems, items, ⟨hhashable, rfl⟩, rfl⟩

def Nullable (e : Element) : Prop :=
  ∃ names, e.typeAttributes = .ok names ∧ (Value.text "nullable").memberOf names = true

def removingNullable (entry : Value × Value) : Value × Value :=
  if (Value.text "typeAttributes").same entry.1 then (entry.1, entry.2.removing "nullable")
  else entry

def notNullable (e : Element) : Element :=
  match e with
  | .mk kind info (.object entries) content =>
    .mk kind info (.object (entries.map removingNullable)) content
  | e => e

/--
Two elements are the same, but for `nullable` among the type attributes.
-/
structure Alike (e e' : Element) : Prop where
  kind : e'.kind = e.kind
  info : e'.info = e.info
  attributes : ∃ t t', e.attributes = .object t ∧ e'.attributes = .object t'
    ∧ Table.Alike (Table.SameBut ["typeAttributes"] fun v w => w = v.removing "nullable") t t'
  content : e'.content = e.content

theorem alike_notNullable (h : e.attributes = .object t) : e.Alike e.notNullable := by
  cases e with
  | mk kind info attributes content =>
    rw [Element.attributes] at h
    subst h
    refine ⟨rfl, rfl, ⟨t, t.map removingNullable, rfl, rfl, ?_⟩, rfl⟩
    unfold Table.Alike
    rw [List.forall₂_map_right_iff, List.forall₂_same]
    intro entry _
    unfold removingNullable
    split
    . next h => exact ⟨rfl, .inr ⟨⟨_, by simp, Value.text_same.1 h⟩, rfl⟩⟩
    . exact ⟨rfl, .inl rfl⟩

theorem get?_removingNullable (t : Table Value)
    : Table.get? (t.map removingNullable) (.text "typeAttributes")
        =
      (t.get? (.text "typeAttributes")).map fun v => v.removing "nullable" := by
  induction t with
  | nil => rfl
  | cons entry rest ih =>
    rw [List.map_cons, Table.get?_cons, Table.get?_cons, removingNullable]
    split
    . rfl
    . exact ih

theorem not_nullable_notNullable (h : e.typeAttributes = .ok names) : ¬ e.notNullable.Nullable := by
  obtain ⟨v, items, hv, hitems, -, rfl⟩ := typeAttributes_eq_ok.1 h
  rintro ⟨names', hnames', hmember⟩
  obtain ⟨v', items', hv', hitems', -, rfl⟩ := typeAttributes_eq_ok.1 hnames'
  cases e with
  | mk kind info attributes content =>
    cases attributes with
    | object t =>
      have heq : v' = v.removing "nullable" := by
        rw [notNullable, Element.attributes, Value.field, get?_removingNullable,
          Except.ok.injEq] at hv'
        rw [Element.attributes, Value.field, Except.ok.injEq] at hv
        rw [← hv', ← hv]
        cases Table.get? t (.text "typeAttributes") with
        | none => rfl
        | some v => rfl
      rw [heq, Value.itemsOrNone_removing (by decide) hitems, Except.ok.injEq] at hitems'
      obtain ⟨x, hx, hsame⟩ := List.any_eq_true.1 hmember
      have hx' := Value.mem_of_mem_distinct hx
      rw [← hitems', List.mem_filter, hsame] at hx'
      exact absurd hx'.2 (by simp)
    | _ => contradiction

section Alike

variable (h : e.Alike e')

include h

theorem Alike.description : e'.description = e.description := by
  unfold Element.description
  rw [h.info]

theorem Alike.field {name : String} (hname : name ≠ "typeAttributes")
    : e'.attributes.field name = e.attributes.field name := by
  obtain ⟨t, t', ht, ht', hentries⟩ := h.attributes
  rw [ht, ht', Value.field, Value.field, hentries.get?_eq (by simpa using hname)]

theorem Alike.exists_typeAttributes (hnames : e.typeAttributes = .ok names)
    : ∃ names', e'.typeAttributes = .ok names' := by
  obtain ⟨t, t', ht, ht', hentries⟩ := h.attributes
  obtain ⟨v, items, hv, hitems, hhashable, rfl⟩ := typeAttributes_eq_ok.1 hnames
  rw [ht, Value.field, Except.ok.injEq] at hv
  have hv' : e'.attributes.field "typeAttributes" = .ok v
      ∨ e'.attributes.field "typeAttributes" = .ok (v.removing "nullable") := by
    rw [ht', Value.field]
    rcases hentries.get?_text "typeAttributes" with ⟨hx, hy⟩ | ⟨x, y, hx, hy, hxy⟩
    . rw [hx] at hv
      rw [hy]
      exact .inl (congrArg _ hv)
    . rw [hx, Option.getD_some] at hv
      rw [hy, ← hv]
      rcases hxy with rfl | ⟨-, rfl⟩
      . exact .inl rfl
      . exact .inr rfl
  rcases hv' with hv' | hv'
  . exact ⟨_, typeAttributes_eq_ok.2 ⟨v, items, hv', hitems, hhashable, rfl⟩⟩
  . refine ⟨_, typeAttributes_eq_ok.2
      ⟨_, _, hv', Value.itemsOrNone_removing (by decide) hitems, ?_, rfl⟩⟩
    exact fun x hx => hhashable x (List.mem_filter.1 hx).1

theorem Alike.exists_extendBy {base merged : Element} (hmerged : base.extendBy e = .ok merged)
    : ∃ merged', base.extendBy e' = .ok merged' ∧ merged.Alike merged' := by
  obtain ⟨t, t', ht, ht', hentries⟩ := h.attributes
  unfold extendBy at hmerged ⊢
  simp only [Outcome.bind_eq_ok] at hmerged
  obtain ⟨info, hinfo, attributes, hattributes, content, hcontent, hmerged⟩ := hmerged
  injection hmerged with hmerged
  subst hmerged
  rw [h.info, hinfo, h.content, hcontent, ht']
  rw [ht] at hattributes
  unfold mergeEntries at hattributes
  split at hattributes
  . next b others hb hothers =>
    injection hattributes with hattributes
    injection hothers with hothers
    subst hattributes hothers
    rw [hb]
    refine ⟨_, rfl, rfl, rfl, ⟨_, _, rfl, rfl, ?_⟩, rfl⟩
    exact (Table.alike_self (fun _ _ => .inl rfl) b).union Table.stable_sameBut hentries
  . contradiction

end Alike

end Element

namespace Schema

theorem strict_attribute {s s' : Schema} {e : Element} (h : s.attribute e = .ok s')
    : ∃ description, e.description = .ok description ∧ s'.strict = s.strict.describe description := by
  obtain ⟨description, names, hdescription, -, rfl⟩ := attribute_eq_ok.1 h
  refine ⟨description, hdescription, ?_⟩
  split
  . rw [strict_admitNull, strict_describe]
  . exact strict_describe s description

theorem exists_attribute_of_alike {s s' t : Schema} {e e' : Element} (halike : e.Alike e')
    (hs : s.strict = s'.strict) (h : s.attribute e = .ok t)
    : ∃ t', s'.attribute e' = .ok t' ∧ t.strict = t'.strict := by
  obtain ⟨description, names, hdescription, hnames, -⟩ := attribute_eq_ok.1 h
  obtain ⟨names', hnames'⟩ := halike.exists_typeAttributes hnames
  have hdescription' : e'.description = .ok description := halike.description.trans hdescription
  obtain ⟨t', ht'⟩ : ∃ t', s'.attribute e' = .ok t' :=
    ⟨_, attribute_eq_ok.2 ⟨description, names', hdescription', hnames', rfl⟩⟩
  refine ⟨t', ht', ?_⟩
  obtain ⟨d, hd, hstrict⟩ := strict_attribute h
  obtain ⟨d', hd', hstrict'⟩ := strict_attribute ht'
  rw [halike.description, hd, Except.ok.injEq] at hd'
  rw [hstrict, hstrict', hs, hd']

theorem Single.attribute {s s' : Schema} {e : Element} (hs : s.Single) (h : s.attribute e = .ok s')
    : s'.Single := by
  obtain ⟨description, names, -, -, rfl⟩ := attribute_eq_ok.1 h
  split
  . exact (hs.describe description).admitNull
  . exact hs.describe description

end Schema

namespace Registry

variable {r : Registry} {depth : Nat} {e e' : Element} {s : Schema}

theorem exists_resolve_of_alike {name : Value} (hkind : e.kind = .named name) (halike : e.Alike e')
    {found : Option Element} (h : (r.resolve e).result = .ok found)
    : ∃ found', (r.resolve e').result = .ok found' ∧ Option.Rel Element.Alike found found' := by
  rw [result_resolve r hkind, Outcome.bind_eq_ok] at h
  rw [result_resolve r (halike.kind.trans hkind)]
  obtain ⟨declared?, hdeclared, h⟩ := h
  rw [hdeclared]
  cases declared? with
  | none =>
    injection h with h
    subst h
    exact ⟨none, rfl, .none⟩
  | some declared =>
    obtain ⟨merged, hmerged, rfl⟩ := Outcome.map_eq_ok.1 h
    obtain ⟨merged', hmerged', hmergedAlike⟩ := halike.exists_extendBy hmerged
    refine ⟨some merged', ?_, .some hmergedAlike⟩
    exact Outcome.map_eq_ok.2 ⟨merged', hmerged', rfl⟩

theorem ofLiteral_of_alike (halike : e.Alike e') (type : SchemaType)
    : Schema.ofLiteral type e' = Schema.ofLiteral type e := by
  unfold Schema.ofLiteral
  rw [halike.field (by decide)]

/--
The schemas of elements that differ in `nullable` only differ at most in what they say about `null`.
-/
theorem exists_schema_of_alike (halike : e.Alike e')
    (h : (r.schemaWithin depth (.element e)).result = .ok s)
    : ∃ s', (r.schemaWithin depth (.element e')).result = .ok s' ∧ s.strict = s'.strict := by
  induction depth generalizing e e' s with
  | zero => contradiction
  | succ depth ih =>
    rw [schemaWithin_element, Logged.result_bind, Outcome.bind_eq_ok] at h
    rw [schemaWithin_element, Logged.result_bind]
    obtain ⟨t, ht, hattribute⟩ := h
    have hkind : ∃ t', (r.schemaOfKind depth e').result = .ok t' ∧ t.strict = t'.strict := by
      cases hkind : e.kind with
      | named name =>
        unfold schemaOfKind at ht ⊢
        simp only [hkind, halike.kind, Logged.result_bind, Outcome.bind_eq_ok] at ht ⊢
        obtain ⟨found, hfound, ht⟩ := ht
        obtain ⟨found', hfound', hrel⟩ := exists_resolve_of_alike hkind halike hfound
        cases hrel with
        | none => exact ⟨t, ⟨none, hfound', ht⟩, rfl⟩
        | some hmerged =>
          obtain ⟨t', ht', hstrict⟩ := ih hmerged ht
          exact ⟨t', ⟨_, hfound', ht'⟩, hstrict⟩
      | _ =>
        -- No other kind has a schema that depends on the type attributes.
        refine ⟨t, ?_, rfl⟩
        rw [← ht]
        unfold schemaOfKind Schema.ofChoice
        simp only [hkind, halike.kind, halike.content, ofLiteral_of_alike halike]
    obtain ⟨t', ht', hstrict⟩ := hkind
    rw [ht', Outcome.ok_bind, Logged.result_liftM]
    exact Schema.exists_attribute_of_alike halike hstrict hattribute

theorem single_of_ofLiteral {type : SchemaType} (h : Schema.ofLiteral type e = .ok s)
    : s.Single := by
  obtain ⟨default, -, rfl⟩ := Schema.ofLiteral_eq_ok.1 h
  exact .inr rfl

theorem single_of_schemaOfObjectWithin {content : Value}
    (h : (r.schemaOfObjectWithin depth content).result = .ok s) : s.Single := by
  cases depth with
  | zero => contradiction
  | succ depth =>
    rw [schemaOfObjectWithin_succ, Logged.result_bind, Outcome.bind_eq_ok] at h
    obtain ⟨g, -, h⟩ := h
    injection h with h
    exact .inr (by rw [← h]; rfl)

theorem single_ofItems (schemas : List Schema) : (Schema.ofItems schemas).Single := by
  unfold Schema.ofItems
  split
  . exact .inr rfl
  . exact .inr rfl

theorem single_of_origin (hvalue : ∀ v s, (r.schemaWithin depth v).result = .ok s → s.Single)
    (h : r.Origin depth e s) : s.Single := by
  cases h with
  | literal _ made => exact single_of_ofLiteral made
  | choice _ made =>
    obtain ⟨variants, -, rfl⟩ := Schema.ofChoice_eq_ok.1 made
    exact .inl rfl
  | @items _ schemas => exact single_ofItems schemas
  | object _ made => exact single_of_schemaOfObjectWithin made
  | merged _ _ made => exact hvalue _ s made
  | undeclared => exact .inl rfl
  | unconstrained => exact .inl rfl

theorem single_of_schemaWithin {v : Value} (h : (r.schemaWithin depth v).result = .ok s)
    : s.Single := by
  induction depth generalizing v s with
  | zero => contradiction
  | succ depth ih =>
    obtain ⟨e, own, rfl, horigin, hattribute⟩ := exists_origin h
    exact (single_of_origin (fun _ _ => ih) horigin).attribute hattribute

end Registry

end Removal

end ApiElements
