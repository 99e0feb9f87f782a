import ApiElements.Proofs.Value.Access
import ApiElements.Schema.OfElement

/-!
This module contains the steps of the two compilers by name: what an entry of an object adds to its
example and to its schema, and what an element of each kind has as its schema before its own
attributes are looked at.
-/

namespace ApiElements

def Schema.attribute (s : Schema) (e : Element) : Except Fault Schema := do
  let s := s.describe (← e.description)
  let attributes ← e.typeAttributes
  .ok (if (Value.text "nullable").memberOf attributes then s.admitNull else s)

namespace Schema

theorem attribute_eq_ok {s s' : Schema} {e : Element}
    : s.attribute e = .ok s'
        ↔
      ∃ description names, e.description = .ok description ∧ e.typeAttributes = .ok names
        ∧ s' = if (Value.text "nullable").memberOf names then (s.describe description).admitNull
            else s.describe description := by
  unfold Schema.attribute
  simp only [Outcome.bind_eq_ok, Except.ok.injEq]
  constructor
  . rintro ⟨description, hdescription, names, hnames, h⟩
    exact ⟨description, names, hdescription, hnames, h.symm⟩
  . rintro ⟨description, names, hdescription, hnames, h⟩
    exact ⟨description, hdescription, names, hnames, h.symm⟩

theorem ofLiteral_eq_ok {s : Schema} {type : SchemaType} {e : Element}
    : ofLiteral type e = .ok s
        ↔
      ∃ default, e.attributes.field "default" = .ok default
        ∧ s = { type := some type, default := if default.isNull then none else some default } := by
  unfold ofLiteral
  simp only [Outcome.bind_eq_ok, Except.ok.injEq, @eq_comm Schema s]

theorem ofChoice_eq_ok {s : Schema} {e : Element}
    : ofChoice e = .ok s
        ↔
      ∃ variants, e.content.items = .ok variants
        ∧ s = { enum := some (variants.map Value.contentOrNull) } := by
  unfold ofChoice
  simp only [Outcome.bind_eq_ok, Except.ok.injEq, @eq_comm Schema s]

theorem admitNull_of_type {s : Schema} {type : SchemaType} (h : s.type = some type)
    : s.admitNull = { s with nullable := true } := by
  unfold admitNull
  rw [h]

theorem admitNull_of_enum {s : Schema} {vs : List Value} (h : s.type = none) (h' : s.enum = some vs)
    : s.admitNull
        = if Value.null.memberOf vs then s else { s with enum := some (vs ++ [.null]) } := by
  unfold admitNull
  rw [h, h']

theorem admitNull_of_none {s : Schema} (h : s.type = none) (h' : s.enum = none)
    : s.admitNull = s := by
  unfold admitNull
  rw [h, h']

/--
The constraints that are about the parts of a value are those of another schema.
-/
structure Frames (s' s : Schema) : Prop where
  items : s'.items = s.items
  properties : s'.properties = s.properties
  exclusive : s'.exclusive = s.exclusive
  required : s'.required = s.required

theorem frames_describe (s : Schema) (description : Value) : (s.describe description).Frames s := by
  unfold describe
  split
  . constructor <;> rfl
  . constructor <;> rfl

theorem frames_admitNull (s : Schema) : s.admitNull.Frames s := by
  unfold admitNull
  split
  . constructor <;> rfl
  . split
    . constructor <;> rfl
    . constructor <;> rfl
  . constructor <;> rfl

theorem Frames.trans {s s' s'' : Schema} (h : s''.Frames s') (h' : s'.Frames s) : s''.Frames s where
  items := h.items.trans h'.items
  properties := h.properties.trans h'.properties
  exclusive := h.exclusive.trans h'.exclusive
  required := h.required.trans h'.required

theorem frames_attribute {s s' : Schema} {e : Element} (h : s.attribute e = .ok s')
    : s'.Frames s := by
  obtain ⟨description, attributes, -, -, rfl⟩ := attribute_eq_ok.1 h
  split
  . exact (frames_admitNull _).trans (frames_describe s description)
  . exact frames_describe s description

end Schema

theorem Element.isMember_iff {e : Element} : e.isMember = true ↔ e.kind = .member := by
  unfold isMember
  split
  . next h => simp [h]
  . next h => simpa using h

namespace Registry

variable (r : Registry)

theorem get?_eq_ok {id : Value} {found : Option Element} (h : r.get? id = .ok found)
    : id.hashable ∧ found = r.types.get? id := by
  unfold get? at h
  rw [Outcome.bind_eq_ok] at h
  obtain ⟨key, hkey, h⟩ := h
  obtain ⟨hhashable, rfl⟩ := Value.asKey_eq_ok.1 hkey
  injection h with h
  exact ⟨hhashable, h.symm⟩

theorem result_resolve {e : Element} {name : Value} (h : e.kind = .named name)
    : (r.resolve e).result
        =
      (do
        match ← r.get? name with
        | none => .ok none
        | some declared => some <$> declared.extendBy e) := by
  unfold resolve Element.typeName
  rw [h]
  dsimp only
  rw [Logged.liftM_ok, pure_bind, Logged.result_bind, Logged.result_liftM]
  congr 1
  funext found
  cases found with
  | none => rfl
  | some declared => rw [Logged.result_map, Logged.result_liftM]

/--
A reference is resolved to nothing, or to the declaration of its name with itself on top.
-/
theorem resolve_eq_ok {e : Element} {name : Value} (h : e.kind = .named name)
    {found : Option Element} (hfound : (r.resolve e).result = .ok found)
    : name.hashable ∧ ((r.types.get? name = none ∧ found = none)
        ∨ ∃ declared merged, r.types.get? name = some declared ∧ declared.extendBy e = .ok merged
            ∧ found = some merged) := by
  rw [result_resolve r h, Outcome.bind_eq_ok] at hfound
  obtain ⟨declared?, hget, hfound⟩ := hfound
  obtain ⟨hhashable, rfl⟩ := get?_eq_ok r hget
  refine ⟨hhashable, ?_⟩
  split at hfound
  . next hnone =>
    injection hfound with hfound
    exact .inl ⟨hnone, hfound.symm⟩
  . next declared hdeclared =>
    rw [Outcome.map_eq_ok] at hfound
    obtain ⟨merged, hmerged, rfl⟩ := hfound
    exact .inr ⟨declared, merged, hdeclared, hmerged, rfl⟩

theorem resolve_eq_pure {e declared merged : Element} {name : Value} (h : e.kind = .named name)
    (hget : r.get? name = .ok (some declared)) (hmerged : declared.extendBy e = .ok merged)
    : r.resolve e = pure (some merged) := by
  rw [resolve, Element.typeName, h]
  dsimp only
  rw [Logged.liftM_ok, pure_bind, hget, Logged.liftM_ok, pure_bind]
  dsimp only
  rw [hmerged]
  rfl

def exampleVisit (depth : Nat) (entries : Table Value) (v : Value) : Logged (Table Value) :=
  match v with
  | .element e =>
    match e.kind with
    | .select =>
      if e.content.truthy then do
        let variant ← (e.content.first : Except Fault Value)
        let chosen ← (variant.elementContent : Except Fault Value)
        Table.union entries <$> r.exampleObjectWithin depth chosen
      else pure entries
    | .member => do
      let value ← (e.value : Except Fault Value)
      let sample ← if value.isNull then pure .null else r.exampleWithin depth value
      let key ← (e.key : Except Fault Value)
      pure (Table.put entries (← (key.asKey : Except Fault Value)) sample)
    | _ => pure entries
  | _ => pure entries

theorem exampleObjectWithin_succ (depth : Nat) (content : Value)
    : r.exampleObjectWithin (depth + 1) content
        =
      walk (r.exampleVisit depth) [] (r.scan content) := by
  rfl

def schemaVisit (depth : Nat) (g : Schema.Gathered) (v : Value) : Logged Schema.Gathered :=
  match v with
  | .element e =>
    match e.kind with
    | .select => do
      let options ← (e.content.items : Except Fault (List Value))
      let (g, keys) ← options.foldlM
        (fun state option => Schema.Gathered.addOption state <$> r.schemaWithin depth option)
        (g, [])
      pure (g.exclude keys)
    | .member => do
      let key ← (e.key : Except Fault Value)
      let value ← (e.value : Except Fault Value)
      let s ← if value.isNull then pure Schema.any else r.schemaWithin depth value
      (g.addMember e key s : Except Fault Schema.Gathered)
    | _ => pure g
  | _ => pure g

theorem schemaOfObjectWithin_succ (depth : Nat) (content : Value)
    : r.schemaOfObjectWithin (depth + 1) content
        =
      (do
        let gathered ← walk (r.schemaVisit depth) {} (r.scan content)
        pure gathered.schema) := by
  rfl

def schemaOfKind (depth : Nat) (e : Element) : Logged Schema :=
  match e.kind with
  | .boolean => (Schema.ofLiteral .boolean e : Except Fault Schema)
  | .number => (Schema.ofLiteral .number e : Except Fault Schema)
  | .string => (Schema.ofLiteral .string e : Except Fault Schema)
  | .enum => (Schema.ofChoice e : Except Fault Schema)
  | .array => do
    let items ← (e.content.items : Except Fault (List Value))
    Schema.ofItems <$> items.mapM (r.schemaWithin depth)
  | .object => r.schemaOfObjectWithin depth e.content
  | .option => r.schemaOfObjectWithin depth e.content
  | .named _ => do
    match ← r.resolve e with
    | some merged => r.schemaWithin depth (.element merged)
    | none => pure Schema.any
  | _ => pure Schema.any

theorem schemaWithin_element (depth : Nat) (e : Element)
    : r.schemaWithin (depth + 1) (.element e)
        =
      (do
        let s ← r.schemaOfKind depth e
        (s.attribute e : Except Fault Schema)) := by
  rw [schemaWithin]
  unfold schemaOfKind Schema.attribute
  cases e.kind with
  | named typeName =>
    simp only [Logged.liftM_bind, Logged.liftM_ok, bind_assoc]
    congr 1
    funext found
    cases found with
    | _ => rfl
  | _ => simp only [Logged.liftM_bind, Logged.liftM_ok, bind_assoc]

end Registry

end ApiElements
