import ApiElements.Proofs.Validation.Traces

/-!
This module contains the two compilers of objects in another form: what an entry adds does not
depend on what was there before, so that an object is compiled by putting together what each of its
entries adds by itself, in order.
-/

namespace ApiElements

namespace Schema.Gathered

def add (g later : Gathered) : Gathered where
  properties := g.properties.union later.properties
  exclusive := g.exclusive ++ later.exclusive
  required := later.required.foldl addKey g.required

def ofOptions (schemas : List Schema) : Gathered :=
  let properties := schemas.flatMap fun s => s.properties.getD []
  { properties, exclusive := if (addKeys [] properties).isEmpty then [] else [addKeys [] properties] }

theorem add_empty (g : Gathered) : g.add {} = g := by
  simp [add, Table.union]

theorem addKeys_append (keys : List Value) (t u : Table Schema)
    : addKeys keys (t ++ u) = addKeys (addKeys keys t) u := by
  exact List.foldl_append

theorem foldl_addOption (g : Gathered) (keys : List Value) (schemas : List Schema)
    : schemas.foldl addOption (g, keys)
        =
      ({ g with properties := g.properties.union (schemas.flatMap fun s => s.properties.getD []) },
        addKeys keys (schemas.flatMap fun s => s.properties.getD [])) := by
  induction schemas generalizing g keys with
  | nil => rfl
  | cons s rest ih =>
    rw [List.foldl_cons, addOption_eq, ih, List.flatMap_cons, Table.union_append, addKeys_append]

theorem exclude_options (g : Gathered) (schemas : List Schema)
    : (schemas.foldl addOption (g, [])).1.exclude (schemas.foldl addOption (g, [])).2
        =
      g.add (ofOptions schemas) := by
  rw [foldl_addOption]
  unfold exclude add ofOptions
  split
  . next h => simp [h]
  . next h => simp [h]

theorem addMember_eq_add (g : Gathered) (e : Element) (key : Value) (s : Schema)
    : g.addMember e key s = g.add <$> ({} : Gathered).addMember e key s := by
  unfold addMember
  cases e.description with
  | error fault => rfl
  | ok description =>
    cases e.typeAttributes with
    | error fault => rfl
    | ok attributes =>
      cases key.asKey with
      | error fault => rfl
      | ok k =>
        simp only [Outcome.ok_bind, Outcome.map_ok, add, List.append_nil]
        congr 2
        split
        . rfl
        . rfl

end Schema.Gathered

namespace Registry

variable (r : Registry) {α σ : Type}

def exampleEntries (depth : Nat) (v : Value) : Logged (Table Value) :=
  match v with
  | .element e =>
    match e.kind with
    | .select =>
      if e.content.truthy then do
        let variant ← (e.content.first : Except Fault Value)
        let chosen ← (variant.elementContent : Except Fault Value)
        r.exampleObjectWithin depth chosen
      else pure []
    | .member => do
      let value ← (e.value : Except Fault Value)
      let sample ← if value.isNull then pure .null else r.exampleWithin depth value
      let key ← (e.key : Except Fault Value)
      pure [(← (key.asKey : Except Fault Value), sample)]
    | _ => pure []
  | _ => pure []

def valueSchemaWithin (depth : Nat) (value : Value) : Logged Schema :=
  if value.isNull then pure Schema.any else r.schemaWithin depth value

def propertyWithin (depth : Nat) (m : Element) : Logged Schema := do
  let value ← (m.value : Except Fault Value)
  let s ← r.valueSchemaWithin depth value
  (s.attribute m : Except Fault Schema)

def schemaEntries (depth : Nat) (v : Value) : Logged Schema.Gathered :=
  match v with
  | .element e =>
    match e.kind with
    | .select => do
      let options ← (e.content.items : Except Fault (List Value))
      Schema.Gathered.ofOptions <$> options.mapM (r.schemaWithin depth)
    | .member => do
      let key ← (e.key : Except Fault Value)
      let value ← (e.value : Except Fault Value)
      let s ← if value.isNull then pure Schema.any else r.schemaWithin depth value
      (({} : Schema.Gathered).addMember e key s : Except Fault Schema.Gathered)
    | _ => pure {}
  | _ => pure {}

theorem exampleVisit_eq (depth : Nat) (t : Table Value) (v : Value)
    : r.exampleVisit depth t v = t.union <$> r.exampleEntries depth v := by
  cases v with
  | element e =>
    unfold exampleVisit exampleEntries
    dsimp only
    cases e.kind with
    | select =>
      dsimp only
      split
      . simp only [map_bind]
      . rfl
    | member =>
      simp only [map_bind]
      congr 1
      funext value
      split
      . simp only [map_bind, map_pure]
        rfl
      . simp only [map_bind, map_pure]
        rfl
    | _ => rfl
  | _ => rfl

theorem foldlM_map {f : σ → α → σ} {g : Value → Logged α} (xs : List Value) (s : σ)
    : (xs.foldlM (fun s x => f s <$> g x) s) = (fun as => as.foldl f s) <$> xs.mapM g := by
  induction xs generalizing s with
  | nil => rfl
  | cons x xs ih =>
    rw [List.foldlM_cons, List.mapM_cons, bind_map_left]
    simp only [ih, map_bind, map_pure, List.foldl_cons]
    congr 1

theorem schemaVisit_eq (depth : Nat) (g : Schema.Gathered) (v : Value)
    : r.schemaVisit depth g v = g.add <$> r.schemaEntries depth v := by
  cases v with
  | element e =>
    unfold schemaVisit schemaEntries
    dsimp only
    cases e.kind with
    | select =>
      simp only [foldlM_map, map_bind, bind_map_left, Functor.map_map]
      congr 1
      funext options
      rw [map_eq_pure_bind]
      simp only [Schema.Gathered.exclude_options]
    | member =>
      simp only [map_bind, Schema.Gathered.addMember_eq_add g e]
      congr 1
      funext key
      congr 1
      funext value
      split
      . simp only [map_bind, Logged.liftM_map]
      . simp only [map_bind, Logged.liftM_map]
    | _ => exact congrArg pure (Schema.Gathered.add_empty g).symm
  | _ => exact congrArg pure (Schema.Gathered.add_empty g).symm

def additions (added : Value → Logged α) : List Step → Logged (List α)
  | [] => pure []
  | .entry v :: rest => do
    let a ← added v
    (a :: ·) <$> additions added rest
  | .unresolved href :: rest => do
    Logged.record .debug .registry ("Unresolved include '" ++ href.plain ++ "'")
    additions added rest
  | .fault fault :: _ => Logged.fail fault

/--
A walk whose visits add something to the state puts together what the entries add.
-/
theorem walk_eq_additions {visit : σ → Value → Logged σ} {add : σ → α → σ}
    {added : Value → Logged α} (h : ∀ s v, visit s v = add s <$> added v) (steps : List Step) (s : σ)
    : walk visit s steps = (fun as => as.foldl add s) <$> additions added steps := by
  induction steps generalizing s with
  | nil => rfl
  | cons step rest ih =>
    cases step with
    | entry v =>
      rw [walk, additions, h]
      simp only [ih, map_bind, bind_map_left, Functor.map_map, List.foldl_cons]
    | unresolved href =>
      rw [walk, additions]
      simp only [ih, map_bind]
    | fault fault => rfl

theorem exampleObjectWithin_eq (depth : Nat) (content : Value)
    : r.exampleObjectWithin (depth + 1) content
        =
      (fun added => added.foldl Table.union []) <$>
        additions (r.exampleEntries depth) (r.scan content) := by
  rw [exampleObjectWithin_succ, walk_eq_additions (r.exampleVisit_eq depth)]

theorem schemaOfObjectWithin_eq (depth : Nat) (content : Value)
    : r.schemaOfObjectWithin (depth + 1) content
        =
      (fun added => (added.foldl Schema.Gathered.add {}).schema) <$>
        additions (r.schemaEntries depth) (r.scan content) := by
  rw [schemaOfObjectWithin_succ, walk_eq_additions (r.schemaVisit_eq depth)]
  simp only [map_eq_pure_bind, bind_assoc, pure_bind]

section Additions

variable {r} {added : Value → Logged α} {steps steps' : List Step} {as : List α} {v : Value}

theorem additions_entry_eq_ok
    : (additions added (.entry v :: steps)).result = .ok as
        ↔
      ∃ a rest, (added v).result = .ok a ∧ (additions added steps).result = .ok rest
        ∧ as = a :: rest := by
  simp only [additions, Logged.result_bind, Logged.result_map, Outcome.bind_eq_ok,
    Outcome.map_eq_ok]
  constructor
  . rintro ⟨a, ha, rest, hrest, rfl⟩
    exact ⟨a, rest, ha, hrest, rfl⟩
  . rintro ⟨a, rest, ha, hrest, rfl⟩
    exact ⟨a, ha, rest, hrest, rfl⟩

theorem additions_unresolved (added : Value → Logged α) (href : Value) (steps : List Step)
    : (additions added (.unresolved href :: steps)).result = (additions added steps).result := by
  rw [additions, Logged.result_bind, Logged.result_record, Outcome.ok_bind]

theorem additions_append_eq_ok
    : (additions added (steps ++ steps')).result = .ok as
        ↔
      ∃ xs ys, (additions added steps).result = .ok xs ∧ (additions added steps').result = .ok ys
        ∧ as = xs ++ ys := by
  induction steps generalizing as with
  | nil => simp [additions]
  | cons step rest ih =>
    rw [List.cons_append]
    cases step with
    | entry v =>
      simp only [additions_entry_eq_ok, ih]
      constructor
      . rintro ⟨a, _, ha, ⟨xs, ys, hxs, hys, rfl⟩, rfl⟩
        exact ⟨a :: xs, ys, ⟨a, xs, ha, hxs, rfl⟩, hys, rfl⟩
      . rintro ⟨_, ys, ⟨a, xs, ha, hxs, rfl⟩, hys, rfl⟩
        exact ⟨a, xs ++ ys, ha, ⟨xs, ys, hxs, hys, rfl⟩, rfl⟩
    | unresolved href => simp only [additions_unresolved, ih]
    | fault fault => simp [additions]

theorem exists_of_mem_additions (h : (additions added steps).result = .ok as)
    : ∀ a ∈ as, ∃ v, .entry v ∈ steps ∧ (added v).result = .ok a := by
  induction steps generalizing as with
  | nil =>
    injection h with h
    subst h
    simp
  | cons step rest ih =>
    cases step with
    | entry v =>
      obtain ⟨a, as, ha, hrest, rfl⟩ := additions_entry_eq_ok.1 h
      intro a' ha'
      rcases List.mem_cons.1 ha' with rfl | ha'
      . exact ⟨v, by simp, ha⟩
      . obtain ⟨w, hw, haw⟩ := ih hrest a' ha'
        exact ⟨w, List.mem_cons_of_mem _ hw, haw⟩
    | unresolved href =>
      rw [additions_unresolved] at h
      intro a ha
      obtain ⟨w, hw, haw⟩ := ih h a ha
      exact ⟨w, List.mem_cons_of_mem _ hw, haw⟩
    | fault fault => contradiction

theorem exists_mem_of_additions (h : (additions added steps).result = .ok as)
    (hv : .entry v ∈ steps) : ∃ a ∈ as, (added v).result = .ok a := by
  obtain ⟨pre, post, rfl⟩ := List.append_of_mem hv
  obtain ⟨xs, ys, -, hys, rfl⟩ := additions_append_eq_ok.1 h
  obtain ⟨a, rest, ha, -, rfl⟩ := additions_entry_eq_ok.1 hys
  exact ⟨a, by simp, ha⟩

theorem not_fault_of_additions (h : (additions added steps).result = .ok as) (fault : Fault)
    : .fault fault ∉ steps := by
  induction steps generalizing as with
  | nil => simp
  | cons step rest ih =>
    cases step with
    | entry v =>
      obtain ⟨a, as, -, hrest, -⟩ := additions_entry_eq_ok.1 h
      simpa using ih hrest
    | unresolved href =>
      rw [additions_unresolved] at h
      simpa using ih h
    | fault fault => contradiction

end Additions

section Keys

variable {r} {depth : Nat} {v content : Value} {t : Table Value} {s : Schema}
variable {g : Schema.Gathered}

theorem exampleEntries_passedOver (h : PassedOver v) : r.exampleEntries depth v = pure [] := by
  unfold exampleEntries
  split
  . next e =>
    obtain ⟨hselect, hmember⟩ := h e rfl
    split
    . contradiction
    . contradiction
    . rfl
  . rfl

theorem schemaEntries_passedOver (h : PassedOver v) : r.schemaEntries depth v = pure {} := by
  unfold schemaEntries
  split
  . next e =>
    obtain ⟨hselect, hmember⟩ := h e rfl
    split
    . contradiction
    . contradiction
    . rfl
  . rfl

theorem exampleEntries_select_eq_ok {e : Element} (hkind : e.kind = .select)
    (h : (r.exampleEntries depth (.element e)).result = .ok t)
    : t = [] ∨ ∃ variant chosen, e.content.first = .ok variant ∧ variant.elementContent = .ok chosen
        ∧ (r.exampleObjectWithin depth chosen).result = .ok t := by
  unfold exampleEntries at h
  simp only [hkind] at h
  split at h
  . simp only [Logged.result_bind, Logged.result_liftM, Outcome.bind_eq_ok] at h
    obtain ⟨variant, hvariant, chosen, hchosen, h⟩ := h
    exact .inr ⟨variant, chosen, hvariant, hchosen, h⟩
  . injection h with h
    exact .inl h.symm

theorem schemaEntries_select_eq_ok {e : Element} (hkind : e.kind = .select)
    (h : (r.schemaEntries depth (.element e)).result = .ok g)
    : ∃ options schemas, e.content.items = .ok options
        ∧ options.mapM (fun option => (r.schemaWithin depth option).result) = .ok schemas
        ∧ g = Schema.Gathered.ofOptions schemas := by
  unfold schemaEntries at h
  simp only [hkind, Logged.result_bind, Logged.result_liftM, Logged.result_map,
    Logged.result_mapM, Outcome.bind_eq_ok, Outcome.map_eq_ok] at h
  obtain ⟨options, hoptions, schemas, hschemas, rfl⟩ := h
  exact ⟨options, schemas, hoptions, hschemas, rfl⟩

theorem exampleEntries_member_eq_ok {e : Element} (hkind : e.kind = .member)
    (h : (r.exampleEntries depth (.element e)).result = .ok t)
    : ∃ key x, e.key = .ok key ∧ key.hashable = true ∧ t = [(key, x)] := by
  unfold exampleEntries at h
  simp only [hkind, Logged.result_bind, Logged.result_liftM, Outcome.bind_eq_ok] at h
  obtain ⟨value, -, h⟩ := h
  have hadded : ∃ (x key k : Value), e.key = .ok key ∧ key.asKey = .ok k ∧ [(k, x)] = t := by
    split at h
    . simp only [Logged.result_bind, Logged.result_liftM, Logged.pure_result, Outcome.bind_eq_ok,
        Except.ok.injEq] at h
      obtain ⟨x, -, key, hkey, k, hk, h⟩ := h
      exact ⟨x, key, k, hkey, hk, h⟩
    . simp only [Logged.result_bind, Logged.result_liftM, Logged.pure_result, Outcome.bind_eq_ok,
        Except.ok.injEq] at h
      obtain ⟨x, -, key, hkey, k, hk, h⟩ := h
      exact ⟨x, key, k, hkey, hk, h⟩
  obtain ⟨x, key, k, hkey, hk, rfl⟩ := hadded
  obtain ⟨hhashable, rfl⟩ := Value.asKey_eq_ok.1 hk
  exact ⟨key, x, hkey, hhashable, rfl⟩

theorem propertyWithin_eq_ok {m : Element}
    : (r.propertyWithin depth m).result = .ok s
        ↔
      ∃ value t, m.value = .ok value ∧ (r.valueSchemaWithin depth value).result = .ok t
        ∧ t.attribute m = .ok s := by
  unfold propertyWithin
  simp only [Logged.result_bind, Logged.result_liftM, Outcome.bind_eq_ok]
  constructor
  . rintro ⟨value, hvalue, t, ht, h⟩
    exact ⟨value, t, hvalue, ht, h⟩
  . rintro ⟨value, t, hvalue, ht, h⟩
    exact ⟨value, hvalue, t, ht, h⟩

theorem exists_addMember_of_schemaEntries {e : Element} (hkind : e.kind = .member)
    (h : (r.schemaEntries depth (.element e)).result = .ok g)
    : ∃ key value t, e.key = .ok key ∧ e.value = .ok value
        ∧ (r.valueSchemaWithin depth value).result = .ok t
        ∧ ({} : Schema.Gathered).addMember e key t = .ok g := by
  unfold schemaEntries at h
  simp only [hkind, Logged.result_bind, Logged.result_liftM, Outcome.bind_eq_ok] at h
  obtain ⟨key, hkey, value, hvalue, h⟩ := h
  refine ⟨key, value, ?_⟩
  unfold valueSchemaWithin
  split at h
  . next hnull =>
    rw [if_pos hnull]
    exact ⟨Schema.any, hkey, hvalue, rfl, h⟩
  . next hnull =>
    simp only [Logged.result_bind, Logged.result_liftM, Outcome.bind_eq_ok] at h
    obtain ⟨t, ht, hadded⟩ := h
    rw [if_neg hnull]
    exact ⟨t, hkey, hvalue, ht, hadded⟩

theorem schemaEntries_member_eq_ok {e : Element} (hkind : e.kind = .member)
    (h : (r.schemaEntries depth (.element e)).result = .ok g)
    : ∃ key s, e.key = .ok key ∧ key.hashable = true ∧ g.properties = [(key, s)]
        ∧ g.exclusive = [] ∧ (r.propertyWithin depth e).result = .ok s := by
  obtain ⟨key, value, t, hkey, hvalue, ht, hadded⟩ := exists_addMember_of_schemaEntries hkind h
  obtain ⟨s, hattribute, hhashable, hproperties, hexclusive, -⟩ := addMember_eq_ok hadded
  exact ⟨key, s, hkey, hhashable, hproperties, hexclusive,
    propertyWithin_eq_ok.2 ⟨value, t, hvalue, ht, hattribute⟩⟩

theorem keyed_foldl_union {β : Type} {entries : α → Table β} {as : List α} {t : Table β}
    (h : ∀ a ∈ as, ∀ entry ∈ entries a, entry.1.hashable = true) (ht : t.Keyed)
    : (as.foldl (fun t a => t.union (entries a)) t).Keyed := by
  induction as generalizing t with
  | nil => exact ht
  | cons a as ih =>
    apply ih fun a hmem => h a (List.mem_cons_of_mem _ hmem)
    exact ht.union_of_hashable (h a (by simp))

theorem hashable_of_exampleEntries
    (hobject : ∀ content t, (r.exampleObjectWithin depth content).result = .ok t → t.Keyed)
    (h : (r.exampleEntries depth v).result = .ok t) : ∀ entry ∈ t, entry.1.hashable = true := by
  rcases select_or_member_or_passedOver v with ⟨e, rfl, hselect⟩ | ⟨e, rfl, hmember⟩ | hpassed
  . rcases exampleEntries_select_eq_ok hselect h with rfl | ⟨variant, chosen, -, -, h⟩
    . simp
    . exact (hobject chosen t h).hashable
  . obtain ⟨key, x, -, hhashable, rfl⟩ := exampleEntries_member_eq_ok hmember h
    simpa using hhashable
  . rw [exampleEntries_passedOver hpassed] at h
    injection h with h
    subst h
    simp

theorem keyed_of_exampleObjectWithin (h : (r.exampleObjectWithin depth content).result = .ok t)
    : t.Keyed := by
  induction depth generalizing content t with
  | zero => contradiction
  | succ depth ih =>
    rw [exampleObjectWithin_eq, Logged.result_map, Outcome.map_eq_ok] at h
    obtain ⟨added, hadded, rfl⟩ := h
    apply @keyed_foldl_union _ _ id _ _ ?_ Table.keyed_nil
    intro entries hmem
    obtain ⟨v, -, hv⟩ := exists_of_mem_additions hadded entries hmem
    exact hashable_of_exampleEntries (fun _ _ => ih) hv

theorem properties_foldl_add (added : List Schema.Gathered) (g : Schema.Gathered)
    : (added.foldl Schema.Gathered.add g).properties
        =
      added.foldl (fun t later => t.union later.properties) g.properties := by
  induction added generalizing g with
  | nil => rfl
  | cons later rest ih => exact ih (g.add later)

theorem exclusive_foldl_add (added : List Schema.Gathered) (g : Schema.Gathered)
    : (added.foldl Schema.Gathered.add g).exclusive
        =
      g.exclusive ++ added.flatMap Schema.Gathered.exclusive := by
  induction added generalizing g with
  | nil => simp
  | cons later rest ih =>
    rw [List.foldl_cons, ih, List.flatMap_cons, ← List.append_assoc]
    rfl

theorem hashable_of_schemaEntries
    (hvalue : ∀ v s, (r.schemaWithin depth v).result = .ok s →
      Table.Keyed (s.properties.getD []))
    (h : (r.schemaEntries depth v).result = .ok g)
    : ∀ entry ∈ g.properties, entry.1.hashable = true := by
  rcases select_or_member_or_passedOver v with ⟨e, rfl, hselect⟩ | ⟨e, rfl, hmember⟩ | hpassed
  . obtain ⟨options, schemas, -, hschemas, rfl⟩ := schemaEntries_select_eq_ok hselect h
    intro entry hmem
    obtain ⟨s, hs, hentry⟩ := List.mem_flatMap.1 hmem
    obtain ⟨option, -, hoption⟩ := Outcome.exists_of_mem_mapM hschemas hs
    exact (hvalue option s hoption).hashable entry hentry
  . obtain ⟨key, s, -, hhashable, hproperties, -⟩ := schemaEntries_member_eq_ok hmember h
    rw [hproperties]
    simpa using hhashable
  . rw [schemaEntries_passedOver hpassed] at h
    injection h with h
    subst h
    simp

theorem keyed_of_origin {e : Element}
    (hvalue : ∀ v s, (r.schemaWithin depth v).result = .ok s → Table.Keyed (s.properties.getD []))
    (hobject : ∀ content s, (r.schemaOfObjectWithin depth content).result = .ok s →
      Table.Keyed (s.properties.getD []))
    (h : r.Origin depth e s) : Table.Keyed (s.properties.getD []) := by
  have hnone : s.properties = none → Table.Keyed (s.properties.getD []) := by
    intro hproperties
    rw [hproperties]
    exact Table.keyed_nil
  cases h with
  | literal _ made => exact hnone (regular_ofLiteral made).2
  | choice _ made => exact hnone (properties_ofChoice made)
  | items => exact hnone (properties_ofItems _)
  | object _ made => exact hobject _ s made
  | merged _ _ made => exact hvalue _ s made
  | undeclared => exact hnone rfl
  | unconstrained => exact hnone rfl

theorem keyed_of_schema (r : Registry) (depth : Nat)
    : (∀ v s, (r.schemaWithin depth v).result = .ok s → Table.Keyed (s.properties.getD []))
        ∧ ∀ content s, (r.schemaOfObjectWithin depth content).result = .ok s →
            Table.Keyed (s.properties.getD []) := by
  induction depth with
  | zero =>
    constructor
    . intro v s h
      contradiction
    . intro content s h
      contradiction
  | succ depth ih =>
    obtain ⟨hvalue, hobject⟩ := ih
    constructor
    . intro v s h
      obtain ⟨e, own, rfl, horigin, hattribute⟩ := exists_origin h
      rw [(Schema.widens_attribute hattribute).properties]
      exact keyed_of_origin hvalue hobject horigin
    . intro content s h
      rw [schemaOfObjectWithin_eq, Logged.result_map, Outcome.map_eq_ok] at h
      obtain ⟨added, hadded, rfl⟩ := h
      rw [Schema.Gathered.schema, properties_foldl_add]
      apply keyed_foldl_union ?_ Table.keyed_nil
      intro later hmem
      obtain ⟨v, -, hv⟩ := exists_of_mem_additions hadded later hmem
      exact hashable_of_schemaEntries hvalue hv

end Keys

end Registry

end ApiElements
