import ApiElements.Proofs.Compile.Entries
import ApiElements.Proofs.Inheritance.Inclusion
import ApiElements.Proofs.Inheritance.Kept
import ApiElements.Proofs.Registry.Flattening
import ApiElements.Proofs.Validation.Regular
import ApiElements.Proofs.Validation.Soundness

/-!
This module contains that the two compilers of objects go through the same members in the same order:
without selections, the keys of the example and the properties of the schema are the keys of the
members, in the order of their first occurrence. Of a selection the example has one option only, and
the schema has all of them.
-/

namespace ApiElements

namespace Table

variable {α : Type} {t : Table α} {key other : Value}

theorem has_iff : t.has key = true ↔ ∃ entry ∈ t, key.same entry.1 = true := by
  simp [has]

theorem has_put (ht : ∀ entry ∈ t, entry.1.hashable = true) (hkey : key.hashable = true)
    (hother : other.hashable = true) (x : α)
    : (t.put key x).has other = (t.has other || other.same key) := by
  rw [has_eq_isSome_get?, has_eq_isSome_get?, get?_put ht hkey hother]
  split
  . next hsame => rw [hsame, Bool.or_true, Option.isSome_some]
  . next hsame => rw [Bool.eq_false_iff.2 hsame, Bool.or_false]

theorem has_union {entries : List (Value × α)} (ht : t.Keyed)
    (hentries : ∀ entry ∈ entries, entry.1.hashable = true) (hkey : key.hashable = true)
    : (t.union entries).has key = (t.has key || has entries key) := by
  unfold Table.union
  induction entries generalizing t with
  | nil => exact (Bool.or_false _).symm
  | cons entry rest ih =>
    have hentry := hentries entry (by simp)
    have hrest := ih (ht.put hentry entry.2) fun e hmem => hentries e (List.mem_cons_of_mem _ hmem)
    rw [List.foldl_cons, hrest, has_put ht.hashable hentry hkey, Bool.or_assoc]
    rfl

theorem has_foldl_union {β : Type} {entries : β → Table α} {bs : List β} (ht : t.Keyed)
    (hentries : ∀ b ∈ bs, ∀ entry ∈ entries b, entry.1.hashable = true) (hkey : key.hashable = true)
    : (bs.foldl (fun t b => t.union (entries b)) t).has key
        = (t.has key || bs.any fun b => (entries b).has key) := by
  have hhashable : ∀ entry ∈ bs.flatMap entries, entry.1.hashable = true := by
    intro entry hmem
    obtain ⟨b, hb, hentry⟩ := List.mem_flatMap.1 hmem
    exact hentries b hb entry hentry
  rw [foldl_union_flatMap, has_union ht hhashable hkey, has, has, List.any_flatMap]
  rfl

theorem keys_foldl_union {β : Type} (entries : β → Table α) (bs : List β)
    : Table.keys (bs.foldl (fun t b => Table.union t (entries b)) [])
        = Value.distinct (bs.flatMap fun b => (entries b).keys) := by
  have hofList : Table.union [] (bs.flatMap entries) = ofList (bs.flatMap entries) := rfl
  rw [foldl_union_flatMap, hofList, keys_ofList, keys, List.map_flatMap]
  rfl

theorem has_eq_memberOf_keys (t : Table α) (key : Value) : t.has key = key.memberOf t.keys := by
  unfold has Value.memberOf keys
  rw [List.any_map]
  rfl

end Table

namespace Registry

variable {α : Type} {r : Registry} {n m : Nat} {e x : Element} {v k content : Value}
variable {s : Schema} {t : Table Value}

section Expansion

variable {added : Value → Logged α} {as : List α} {entries : List Value}

theorem expand_eq (r : Registry) (content : Value)
    : r.expand content = additions pure (r.scan content) := by
  have happend : ∀ vs before : List Value, vs.foldl (fun es v => es ++ [v]) before = before ++ vs := by
    intro vs
    induction vs with
    | nil => simp
    | cons v rest ih => simp [ih]
  have hvisit : ∀ (es : List Value) (v : Value),
      (pure (es ++ [v]) : Logged (List Value)) = (fun v => es ++ [v]) <$> pure v := fun _ _ => rfl
  rw [expand, walk_eq_additions hvisit]
  simp [happend]

theorem expand_of_additions (h : (additions added (r.scan content)).result = .ok as)
    : (r.expand content).result = .ok ((r.scan content).filterMap Step.entry?) := by
  rw [expand, walk_gather_of_sound (not_fault_of_additions h)]
  rfl

theorem mem_scan_of_expand (h : (r.expand content).result = .ok entries) (hv : v ∈ entries)
    : .entry v ∈ r.scan content := by
  rw [expand_eq] at h
  obtain ⟨w, hw, hwv⟩ := exists_of_mem_additions h v hv
  injection hwv with hwv
  exact hwv ▸ hw

end Expansion

theorem has_example_of_additions {ts : List (Table Value)}
    (h : (additions (r.exampleEntries n) (r.scan content)).result = .ok ts) (hk : k.hashable = true)
    : Table.has (ts.foldl Table.union []) k = ts.any fun t => t.has k := by
  have hhashable : ∀ t ∈ ts, ∀ entry ∈ id t, entry.1.hashable = true := by
    intro t ht
    obtain ⟨v, -, hv⟩ := exists_of_mem_additions h t ht
    exact hashable_of_exampleEntries (fun _ _ => keyed_of_exampleObjectWithin) hv
  exact (Table.has_foldl_union Table.keyed_nil hhashable hk).trans (Bool.false_or _)

theorem has_properties_of_additions {gs : List Schema.Gathered}
    (h : (additions (r.schemaEntries m) (r.scan content)).result = .ok gs) (hk : k.hashable = true)
    : Table.has (gs.foldl Schema.Gathered.add {}).properties k
        = gs.any fun g => g.properties.has k := by
  have hhashable : ∀ g ∈ gs, ∀ p ∈ g.properties, p.1.hashable = true := by
    intro g hg
    obtain ⟨v, -, hv⟩ := exists_of_mem_additions h g hg
    exact hashable_of_schemaEntries (keyed_of_schema r m).1 hv
  rw [properties_foldl_add]
  exact (Table.has_foldl_union Table.keyed_nil hhashable hk).trans (Bool.false_or _)

def Covered (r : Registry) (n : Nat) (k content : Value) : Prop :=
  ∀ m t s, (r.exampleObjectWithin n content).result = .ok t →
    (r.schemaOfObjectWithin m content).result = .ok s → t.has k = true →
    Table.has (s.properties.getD []) k = true

theorem has_property_of_selection {g : Schema.Gathered} (hselect : x.kind = .select)
    (hoption : ∀ options o, x.content.items = .ok options → o ∈ options →
      ∃ y, o = .element y ∧ (y.kind = .object ∨ y.kind = .option) ∧ r.Covered n k y.content)
    (ht : (r.exampleEntries n (.element x)).result = .ok t)
    (hg : (r.schemaEntries m (.element x)).result = .ok g) (hhas : t.has k = true)
    : g.properties.has k = true := by
  obtain ⟨options, schemas, hitems, hschemas, rfl⟩ := schemaEntries_select_eq_ok hselect hg
  rcases exampleEntries_select_eq_ok hselect ht with rfl | ⟨variant, chosen, hfirst, hchosen, ht⟩
  . contradiction
  . have helement : ∀ o ∈ options, ∃ y, o = .element y := by
      intro o ho
      obtain ⟨y, rfl, -⟩ := hoption options o hitems ho
      exact ⟨y, rfl⟩
    have hmem := mem_items_of_first hitems helement hfirst
    obtain ⟨y, rfl, hkind, hcovers⟩ := hoption options variant hitems hmem
    injection hchosen with hchosen
    subst hchosen
    obtain ⟨s, hs, hschema⟩ := Outcome.exists_mem_of_mapM hschemas hmem
    obtain ⟨depth, own, hown, hattribute⟩ := exists_schema_of_object hkind hschema
    have hproperty := hcovers depth t own ht hown hhas
    rw [← (Schema.frames_attribute hattribute).properties, Table.has_iff] at hproperty
    obtain ⟨p, hp, hsame⟩ := hproperty
    exact Table.has_iff.2 ⟨p, List.mem_flatMap.2 ⟨s, hs, hp⟩, hsame⟩

theorem has_property_of_entry {g : Schema.Gathered}
    (hoption : ∀ x options o, v = .element x → x.kind = .select → x.content.items = .ok options →
      o ∈ options →
      ∃ y, o = .element y ∧ (y.kind = .object ∨ y.kind = .option) ∧ r.Covered n k y.content)
    (ht : (r.exampleEntries n v).result = .ok t) (hg : (r.schemaEntries m v).result = .ok g)
    (hhas : t.has k = true) : g.properties.has k = true := by
  rcases select_or_member_or_passedOver v with ⟨x, rfl, hselect⟩ | ⟨x, rfl, hmember⟩ | hpassed
  . exact has_property_of_selection hselect (fun options o => hoption x options o rfl hselect)
      ht hg hhas
  . obtain ⟨key, y, hkey, -, rfl⟩ := exampleEntries_member_eq_ok hmember ht
    obtain ⟨key', s, hkey', -, hproperties, -⟩ := schemaEntries_member_eq_ok hmember hg
    rw [hkey, Except.ok.injEq] at hkey'
    subst hkey'
    rw [hproperties]
    exact hhas
  . rw [exampleEntries_passedOver hpassed] at ht
    injection ht with ht
    subst ht
    contradiction

/--
A content is found within another one by going into selections, the included ones among them, and
into their options.
-/
inductive Reaches (r : Registry) : Value → Value → Prop where
  | here {content : Value} : Reaches r content content
  | option {content c : Value} {x y : Element} {entries options : List Value}
    (expanded : (r.expand content).result = .ok entries) (select : .element x ∈ entries)
    (kind : x.kind = .select) (items : x.content.items = .ok options) (mem : .element y ∈ options)
    (rest : Reaches r y.content c) : Reaches r content c

/--
All options of the selections that a content reaches are objects or options.
-/
def SelectsObjects (r : Registry) (content : Value) : Prop :=
  ∀ c entries x options o, r.Reaches content c → (r.expand c).result = .ok entries →
    .element x ∈ entries → x.kind = .select → x.content.items = .ok options → o ∈ options →
    ∃ y, o = .element y ∧ (y.kind = .object ∨ y.kind = .option)

theorem selectsObjects_iff
    : r.SelectsObjects content
        ↔
      ∀ entries x options o, (r.expand content).result = .ok entries → .element x ∈ entries →
        x.kind = .select → x.content.items = .ok options → o ∈ options →
        ∃ y, o = .element y ∧ (y.kind = .object ∨ y.kind = .option) ∧ r.SelectsObjects y.content := by
  constructor
  . intro h entries x options o hexpand hx hselect hitems ho
    obtain ⟨y, rfl, hkind⟩ := h content entries x options o .here hexpand hx hselect hitems ho
    refine ⟨y, rfl, hkind, ?_⟩
    intro c entries' x' options' o' hreaches
    exact h c entries' x' options' o' (.option hexpand hx hselect hitems ho hreaches)
  . intro h c entries x options o hreaches
    cases hreaches with
    | here =>
      intro hexpand hx hselect hitems ho
      obtain ⟨y, rfl, hkind, -⟩ := h entries x options o hexpand hx hselect hitems ho
      exact ⟨y, rfl, hkind⟩
    | option hexpand hx hselect hitems ho rest =>
      obtain ⟨y, heq, -, hy⟩ := h _ _ _ _ hexpand hx hselect hitems ho
      injection heq with heq
      subst heq
      exact hy c entries x options o rest

theorem covered_of_selectsObjects (h : r.SelectsObjects content) (hk : k.hashable = true)
    : r.Covered n k content := by
  induction n generalizing content with
  | zero =>
    intro m t s ht
    contradiction
  | succ n ih =>
    intro m t s ht hs hhas
    cases m with
    | zero => contradiction
    | succ m =>
      rw [exampleObjectWithin_eq, Logged.result_map, Outcome.map_eq_ok] at ht
      rw [schemaOfObjectWithin_eq, Logged.result_map, Outcome.map_eq_ok] at hs
      obtain ⟨ts, hts, rfl⟩ := ht
      obtain ⟨gs, hgs, rfl⟩ := hs
      -- The entry that has put the key into the example has put it into the schema, too.
      rw [has_example_of_additions hts hk, List.any_eq_true] at hhas
      obtain ⟨u, hu, hfound⟩ := hhas
      obtain ⟨v, hv, hentries⟩ := exists_of_mem_additions hts u hu
      obtain ⟨g, hg, hgathered⟩ := exists_mem_of_additions hgs hv
      rw [Schema.Gathered.schema, Option.getD_some, has_properties_of_additions hgs hk,
        List.any_eq_true]
      refine ⟨g, hg, has_property_of_entry ?_ hentries hgathered hfound⟩
      rintro x options o rfl hselect hitems ho
      obtain ⟨y, rfl, hkind, hy⟩ := selectsObjects_iff.1 h _ x options o (expand_of_additions hgs)
        (List.mem_filterMap.2 ⟨_, hv, rfl⟩) hselect hitems ho
      exact ⟨y, rfl, hkind, ih hy⟩

section Order

def Unselective (v : Value) : Prop :=
  ∀ x, v = .element x → x.kind ≠ .select

theorem keys_exampleEntries (hv : Unselective v) (h : (r.exampleEntries n v).result = .ok t)
    : (membersOf [v]).mapM Element.key = .ok t.keys := by
  rcases select_or_member_or_passedOver v with ⟨x, rfl, hselect⟩ | ⟨x, rfl, hmember⟩ | hpassed
  . exact absurd hselect (hv x rfl)
  . obtain ⟨key, y, hkey, -, rfl⟩ := exampleEntries_member_eq_ok hmember h
    rw [membersOf_cons_of_member hmember, Outcome.mapM_cons_eq_ok]
    exact ⟨key, [], hkey, rfl, rfl⟩
  . rw [exampleEntries_passedOver hpassed] at h
    injection h with h
    rw [← h, membersOf_cons_of_other fun e he => (hpassed e he).2]
    rfl

theorem keys_schemaEntries {g : Schema.Gathered} (hv : Unselective v)
    (h : (r.schemaEntries n v).result = .ok g)
    : (membersOf [v]).mapM Element.key = .ok g.properties.keys := by
  rcases select_or_member_or_passedOver v with ⟨x, rfl, hselect⟩ | ⟨x, rfl, hmember⟩ | hpassed
  . exact absurd hselect (hv x rfl)
  . obtain ⟨key, s, hkey, -, hproperties, -⟩ := schemaEntries_member_eq_ok hmember h
    rw [membersOf_cons_of_member hmember, Outcome.mapM_cons_eq_ok, hproperties]
    exact ⟨key, [], hkey, rfl, rfl⟩
  . rw [schemaEntries_passedOver hpassed] at h
    injection h with h
    rw [← h, membersOf_cons_of_other fun e he => (hpassed e he).2]
    rfl

/--
If each entry adds the keys of the members that it is, all of them together add the keys of all the
members.
-/
theorem keys_of_additions {added : Value → Logged α} {keysOf : α → List Value}
    {steps : List Step} {as : List α}
    (hentry : ∀ v a, .entry v ∈ steps → (added v).result = .ok a →
      (membersOf [v]).mapM Element.key = .ok (keysOf a))
    (h : (additions added steps).result = .ok as)
    : (membersOf (steps.filterMap Step.entry?)).mapM Element.key = .ok (as.flatMap keysOf) := by
  induction steps generalizing as with
  | nil =>
    injection h with h
    subst h
    rfl
  | cons step rest ih =>
    have hlater := fun v a hmem => hentry v a (List.mem_cons_of_mem step hmem)
    cases step with
    | entry v =>
      obtain ⟨a, others, ha, hothers, rfl⟩ := additions_entry_eq_ok.1 h
      have hsplit : membersOf ((Step.entry v :: rest).filterMap Step.entry?)
          = membersOf [v] ++ membersOf (rest.filterMap Step.entry?) :=
        membersOf_append [v] (rest.filterMap Step.entry?)
      rw [hsplit, List.mapM_append, hentry v a (by simp) ha, ih hlater hothers]
      rfl
    | unresolved href =>
      rw [additions_unresolved] at h
      exact ih hlater h
    | fault fault => contradiction

theorem keys_example (hcontent : ∀ v, .entry v ∈ r.scan content → Unselective v)
    (h : (r.exampleObjectWithin n content).result = .ok t)
    : ∃ keys, (membersOf ((r.scan content).filterMap Step.entry?)).mapM Element.key = .ok keys
        ∧ t.keys = Value.distinct keys := by
  cases n with
  | zero => contradiction
  | succ n =>
    rw [exampleObjectWithin_eq, Logged.result_map, Outcome.map_eq_ok] at h
    obtain ⟨ts, hts, rfl⟩ := h
    refine ⟨ts.flatMap Table.keys, ?_, Table.keys_foldl_union id ts⟩
    exact keys_of_additions (fun v t hv ht => keys_exampleEntries (hcontent v hv) ht) hts

theorem keys_properties (hcontent : ∀ v, .entry v ∈ r.scan content → Unselective v)
    (h : (r.schemaOfObjectWithin n content).result = .ok s)
    : ∃ keys, (membersOf ((r.scan content).filterMap Step.entry?)).mapM Element.key = .ok keys
        ∧ Table.keys (s.properties.getD []) = Value.distinct keys := by
  cases n with
  | zero => contradiction
  | succ n =>
    rw [schemaOfObjectWithin_eq, Logged.result_map, Outcome.map_eq_ok] at h
    obtain ⟨gs, hgs, rfl⟩ := h
    refine ⟨gs.flatMap fun g => g.properties.keys, ?_, ?_⟩
    . exact keys_of_additions (fun v g hv hg => keys_schemaEntries (hcontent v hv) hg) hgs
    . rw [Schema.Gathered.schema, Option.getD_some, properties_foldl_add]
      exact Table.keys_foldl_union Schema.Gathered.properties gs

/--
The members of an object are seen in the same order by both compilers. Without selections, the keys of
its example and the names of the properties of its schema are the keys of its members, included ones
among them, in the order of their first occurrence. If there are selections, whose options are objects
or options as far as they go, a key of the example is the name of a property.
-/
theorem keys_of_object (hkind : e.kind = .object)
    (hx : (r.exampleWithin n (.element e)).result = .ok v)
    (hs : (r.schemaWithin m (.element e)).result = .ok s)
    : ∃ (entries : List Value) (t ps : Table Value), (r.expand e.content).result = .ok entries
        ∧ v = .object t ∧ s.toValue.under? "properties" = some (.object ps)
        ∧ ((∀ x, .element x ∈ entries → x.kind ≠ .select) →
            ∃ keys, (membersOf entries).mapM Element.key = .ok keys
              ∧ t.keys = Value.distinct keys ∧ ps.keys = Value.distinct keys)
        ∧ (r.SelectsObjects e.content → ∀ k ∈ t.keys, k.memberOf ps.keys = true) := by
  obtain ⟨n, t, ht, rfl⟩ := exists_example_of_object hkind hx
  obtain ⟨m, own, hown, hattribute⟩ := exists_schema_of_object (.inl hkind) hs
  obtain ⟨g, rfl, -⟩ := exists_gathered hown
  -- The attributes of the object leave its properties alone.
  have hproperties : s.properties = some g.properties := (Schema.frames_attribute hattribute).properties
  have hkeys : Table.keys (g.properties.map fun p => (p.1, p.2.toValue)) = g.properties.keys := by
    rw [Table.keys, List.map_map]
    rfl
  refine ⟨(r.scan e.content).filterMap Step.entry?, t, g.properties.map fun p => (p.1, p.2.toValue),
    ?_, rfl, ?_, ?_, ?_⟩
  . cases n with
    | zero => contradiction
    | succ n =>
      rw [exampleObjectWithin_eq, Logged.result_map, Outcome.map_eq_ok] at ht
      obtain ⟨ts, hts, -⟩ := ht
      exact expand_of_additions hts
  . rw [Schema.under?_properties, hproperties]
    rfl
  . intro hselect
    have hcontent : ∀ v, .entry v ∈ r.scan e.content → Unselective v := by
      rintro v hv x rfl
      exact hselect x (List.mem_filterMap.2 ⟨_, hv, rfl⟩)
    -- Both orders are those of the members as they are expanded, which are the same for both.
    obtain ⟨keys, hmembers, hexample⟩ := keys_example hcontent ht
    obtain ⟨keys', hmembers', hschema⟩ := keys_properties hcontent hown
    rw [hmembers, Except.ok.injEq] at hmembers'
    subst hmembers'
    exact ⟨keys, hmembers, hexample, hkeys.trans hschema⟩
  . intro hselects k hk
    obtain ⟨entry, hentry, rfl⟩ := List.mem_map.1 hk
    have hhashable := (keyed_of_exampleObjectWithin ht).hashable entry hentry
    have hhas : t.has entry.1 = true := Table.has_iff.2 ⟨entry, hentry, Value.same_self hhashable⟩
    rw [hkeys, ← Table.has_eq_memberOf_keys]
    exact covered_of_selectsObjects hselects hhashable m t _ ht hown hhas

end Order

section Samples

def stamped : Registry where
  types := [(.text "Stamp", plainSequence .object [bareMember "created" .string, bareMember "id" .number])]

def memo : Element :=
  plainSequence .object [includeOf "Stamp", bareMember "title" .string, bareMember "created" .string]

def reachable : Element :=
  plainSequence .option [bareMember "phone" .number, bareMember "hours" .string]

def sender : Element :=
  plainSequence .object [bareMember "name" .string, plainSequence .select [memo, reachable]]

theorem selectsObjects_of_unselective {entries : List Value}
    (hexpand : (r.expand content).result = .ok entries)
    (h : ∀ x, .element x ∈ entries → x.kind ≠ .select) : r.SelectsObjects content := by
  rw [selectsObjects_iff]
  intro entries' x options o hexpand' hx hselect
  rw [hexpand, Except.ok.injEq] at hexpand'
  exact absurd hselect (h x (hexpand' ▸ hx))

theorem selectsObjects_sender : stamped.SelectsObjects sender.content := by
  rw [selectsObjects_iff]
  intro entries x options o hexpand hx hselect hitems ho
  have hentries : (stamped.expand sender.content).result = .ok
      [.element (bareMember "name" .string), .element (plainSequence .select [memo, reachable])] := rfl
  rw [hentries, Except.ok.injEq] at hexpand
  subst hexpand
  simp only [List.mem_cons, Value.element.injEq, List.not_mem_nil, or_false] at hx
  rcases hx with rfl | rfl
  . contradiction
  . injection hitems with hitems
    subst hitems
    simp only [List.map_cons, List.map_nil, List.mem_cons, List.not_mem_nil, or_false] at ho
    rcases ho with rfl | rfl
    . refine ⟨memo, rfl, .inl rfl, selectsObjects_of_unselective rfl ?_⟩
      simp [plainElement, Element.kind]
    . refine ⟨reachable, rfl, .inr rfl, selectsObjects_of_unselective rfl ?_⟩
      simp [plainElement, Element.kind]

theorem keys_of_object_memo
    : memo.kind = .object ∧ sender.kind = .object
        ∧ (∃ s t ps, (stamped.exampleOf memo).result = .ok (.object t)
          ∧ (stamped.schemaOf memo).result = .ok s
          ∧ s.toValue.under? "properties" = some (.object ps)
          ∧ Table.keys t = [.text "created", .text "id", .text "title"]
          ∧ Table.keys ps = [.text "created", .text "id", .text "title"])
        ∧ ∃ s t ps, (stamped.exampleOf sender).result = .ok (.object t)
          ∧ (stamped.schemaOf sender).result = .ok s
          ∧ s.toValue.under? "properties" = some (.object ps)
          ∧ stamped.SelectsObjects sender.content
          ∧ Table.keys t = [.text "name", .text "created", .text "id", .text "title"]
          ∧ ∀ k ∈ Table.keys t, k.memberOf (Table.keys ps) = true := by
  refine ⟨rfl, rfl, ?_, ?_⟩
  . obtain ⟨x, hx⟩ : ∃ x, (stamped.exampleOf memo).result = .ok x := ⟨_, rfl⟩
    obtain ⟨s, hs⟩ : ∃ s, (stamped.schemaOf memo).result = .ok s := ⟨_, rfl⟩
    obtain ⟨entries, t, ps, hentries, rfl, hproperties, hkeys, -⟩ := keys_of_object rfl hx hs
    obtain ⟨all, hall, hmembers, hselect⟩ : ∃ all, (stamped.expand memo.content).result = .ok all
        ∧ (membersOf all).mapM Element.key
          = .ok [.text "created", .text "id", .text "title", .text "created"]
        ∧ ∀ x, .element x ∈ all → x.kind ≠ .select :=
      ⟨_, rfl, rfl, by simp [plainElement, Element.kind]⟩
    rw [hentries, Except.ok.injEq] at hall
    subst hall
    obtain ⟨keys, hkeysOf, ht, hps⟩ := hkeys hselect
    rw [hmembers, Except.ok.injEq] at hkeysOf
    subst hkeysOf
    exact ⟨s, t, ps, hx, hs, hproperties, ht, hps⟩
  . obtain ⟨x, t, hx, rfl, ht⟩ : ∃ x t, (stamped.exampleOf sender).result = .ok x ∧ x = .object t
        ∧ Table.keys t = [.text "name", .text "created", .text "id", .text "title"] :=
      ⟨_, _, rfl, rfl, rfl⟩
    obtain ⟨s, hs⟩ : ∃ s, (stamped.schemaOf sender).result = .ok s := ⟨_, rfl⟩
    obtain ⟨-, t', ps, -, heq, hproperties, -, hkeys⟩ := keys_of_object rfl hx hs
    injection heq with heq
    subst heq
    exact ⟨s, t, ps, hx, hs, hproperties, selectsObjects_sender, ht, hkeys selectsObjects_sender⟩

end Samples

end Registry

end ApiElements
