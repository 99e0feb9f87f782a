import ApiElements.Proofs.Compile.Depth
import ApiElements.Proofs.Compile.Termination
import ApiElements.Proofs.Inheritance.Shadow

/-!
This module contains that extending a declared object is the same as including it in front: both
give the same example entries and the same properties, whatever the order of their keys.
-/

namespace ApiElements

open Outcome (Shallow shallow_ok)

namespace Registry

variable {r : Registry} {depth n m : Nat} {name : Value}

section Scan

theorem included_succ (h : .fault .endless ∉ r.included n name)
    : r.included (n + 1) name = r.included n name := by
  induction n generalizing name with
  | zero => simp [included] at h
  | succ n ih =>
    rw [included] at h ⊢
    conv => rhs; rw [included]
    cases hget : r.types.get? name with
    | none => rfl
    | some declared =>
      rw [hget] at h
      dsimp only at h ⊢
      apply List.flatMap_congr
      intro v hmem
      have hv : .fault .endless ∉ scanEntry (r.included n) v := by
        exact fun hfault => h (List.mem_flatMap.2 ⟨v, hmem, hfault⟩)
      unfold scanEntry at hv ⊢
      split
      . split
        . split
          . next hhashable =>
            simp only [hhashable, if_true] at hv
            exact ih hv
          . rfl
        . rfl
      . rfl

variable {declared ref : Element} {content : List Value}

theorem scanEntry_ref {included : Value → List Step} (hkind : ref.kind = .ref)
    (hhref : ref.content = .ref name) (hname : name.hashable = true)
    : scanEntry included (.element ref) = included name := by
  cases ref with
  | mk kind info attributes content =>
    rw [Element.kind] at hkind
    rw [Element.content] at hhref
    subst hkind hhref
    simp [scanEntry, hname]

theorem scan_include (hget : r.types.get? name = some declared) (hkind : ref.kind = .ref)
    (hhref : ref.content = .ref name) (hname : name.hashable = true)
    (hsteps : .fault .endless ∉ r.scan (.tuple (.element ref :: content)))
    : r.scan (.tuple (.element ref :: content))
        = r.scan (.tuple (entriesOf declared.content ++ content)) := by
  have hincluded : r.included (r.types.length + 2) name = r.included (r.types.length + 1) name := by
    apply included_succ
    intro hfault
    apply hsteps
    rw [scan, entriesOf, List.flatMap_cons, scanEntry_ref hkind hhref hname]
    exact List.mem_append_left _ hfault
  rw [included, hget] at hincluded
  dsimp only at hincluded
  rw [scan, scan, entriesOf, entriesOf, List.flatMap_cons, List.flatMap_append,
    scanEntry_ref hkind hhref hname]
  exact congrArg (· ++ _) hincluded.symm

end Scan

section Objects

variable {content kept seen : List Value} {t : Table Value} {s : Schema}

theorem not_fault_of_exampleObjectWithin {content : Value}
    (h : (r.exampleObjectWithin depth content).result = .ok t) (fault : Fault)
    : .fault fault ∉ r.scan content := by
  cases depth with
  | zero => contradiction
  | succ depth =>
    rw [exampleObjectWithin_eq, Logged.result_map, Outcome.map_eq_ok] at h
    obtain ⟨added, hadded, -⟩ := h
    exact not_fault_of_additions hadded fault

theorem not_fault_of_schemaOfObjectWithin {content : Value}
    (h : (r.schemaOfObjectWithin depth content).result = .ok s) (fault : Fault)
    : .fault fault ∉ r.scan content := by
  cases depth with
  | zero => contradiction
  | succ depth =>
    rw [schemaOfObjectWithin_eq, Logged.result_map, Outcome.map_eq_ok] at h
    obtain ⟨added, hadded, -⟩ := h
    exact not_fault_of_additions hadded fault

theorem agrees_example_of_keepLast
    (h : (r.exampleObjectWithin depth (.tuple content)).result = .ok t)
    (hkept : keepLast content = .ok (kept, seen))
    : ∃ u, (r.exampleObjectWithin depth (.tuple kept)).result = .ok u ∧ t.Agrees u := by
  cases depth with
  | zero => contradiction
  | succ depth =>
    rw [exampleObjectWithin_eq, Logged.result_map, Outcome.map_eq_ok] at h
    obtain ⟨added, hadded, rfl⟩ := h
    have hmember : ∀ e t, e.kind = .member → (r.exampleEntries depth (.element e)).result = .ok t →
        True ∧ ∃ key x, e.key = .ok key ∧ key.hashable = true ∧ id t = [(key, x)] := by
      exact fun e t hkind ht => ⟨trivial, exampleEntries_member_eq_ok hkind ht⟩
    obtain ⟨fewer, hfewer, hshadowed, -⟩ := exists_shadowed_of_keepLast hmember hadded hkept
    refine ⟨fewer.foldl Table.union [], ?_, ?_⟩
    . rw [exampleObjectWithin_eq, Logged.result_map, Outcome.map_eq_ok]
      exact ⟨fewer, hfewer, rfl⟩
    . apply hshadowed.agrees ?_ Table.keyed_nil Table.keyed_nil fun _ _ _ => rfl
      intro entries hmem
      obtain ⟨v, -, hv⟩ := exists_of_mem_additions hadded entries hmem
      exact hashable_of_exampleEntries (fun _ _ => keyed_of_exampleObjectWithin) hv

theorem agrees_example_of_dropRepeated
    (h : (r.exampleObjectWithin depth (.tuple content)).result = .ok t)
    (hkept : dropRepeated content = .ok kept)
    : ∃ u, (r.exampleObjectWithin depth (.tuple kept)).result = .ok u ∧ t.Agrees u := by
  rcases dropRepeated_eq_ok hkept with rfl | ⟨seen, hlast⟩
  . exact ⟨t, h, (keyed_of_exampleObjectWithin h).agrees_self⟩
  . exact agrees_example_of_keepLast h hlast

/--
The schema of an object content says no more of an object than what has been gathered.
-/
theorem exists_gathered {content : Value}
    (h : (r.schemaOfObjectWithin depth content).result = .ok s)
    : ∃ g : Schema.Gathered, s = g.schema ∧ g.properties.Keyed := by
  have hkeyed := (keyed_of_schema r depth).2 content s h
  cases depth with
  | zero => contradiction
  | succ depth =>
    rw [schemaOfObjectWithin_eq, Logged.result_map, Outcome.map_eq_ok] at h
    obtain ⟨added, -, rfl⟩ := h
    exact ⟨_, rfl, hkeyed⟩

theorem exists_fewer_of_keepLast {added : List Schema.Gathered}
    (h : (additions (r.schemaEntries depth) (r.scan (.tuple content))).result = .ok added)
    (hkept : keepLast content = .ok (kept, seen))
    : ∃ fewer, (additions (r.schemaEntries depth) (r.scan (.tuple kept))).result = .ok fewer
        ∧ Shadowed Schema.Gathered.properties (fun g => g.exclusive = []) added fewer := by
  have hmember : ∀ e g, e.kind = .member → (r.schemaEntries depth (.element e)).result = .ok g →
      g.exclusive = []
        ∧ ∃ key s, e.key = .ok key ∧ key.hashable = true ∧ g.properties = [(key, s)] := by
    intro e g hkind hg
    obtain ⟨key, s, hkey, hhashable, hproperties, hexclusive, -⟩ :=
      schemaEntries_member_eq_ok hkind hg
    exact ⟨hexclusive, key, s, hkey, hhashable, hproperties⟩
  obtain ⟨fewer, hfewer, hshadowed, -⟩ := exists_shadowed_of_keepLast hmember h hkept
  exact ⟨fewer, hfewer, hshadowed⟩

theorem agrees_schema_of_keepLast
    (h : (r.schemaOfObjectWithin depth (.tuple content)).result = .ok s)
    (hkept : keepLast content = .ok (kept, seen))
    : ∃ s' t u, (r.schemaOfObjectWithin depth (.tuple kept)).result = .ok s'
        ∧ s.properties = some t ∧ s'.properties = some u ∧ Table.Agrees t u
        ∧ s.exclusive = s'.exclusive := by
  cases depth with
  | zero => contradiction
  | succ depth =>
    rw [schemaOfObjectWithin_eq, Logged.result_map, Outcome.map_eq_ok] at h
    obtain ⟨added, hadded, rfl⟩ := h
    obtain ⟨fewer, hfewer, hshadowed⟩ := exists_fewer_of_keepLast hadded hkept
    refine ⟨(fewer.foldl Schema.Gathered.add {}).schema, _, _, ?_, rfl, rfl, ?_, ?_⟩
    . rw [schemaOfObjectWithin_eq, Logged.result_map, Outcome.map_eq_ok]
      exact ⟨fewer, hfewer, rfl⟩
    . rw [properties_foldl_add, properties_foldl_add]
      apply hshadowed.agrees ?_ Table.keyed_nil Table.keyed_nil fun _ _ _ => rfl
      intro g hmem
      obtain ⟨v, -, hv⟩ := exists_of_mem_additions hadded g hmem
      exact hashable_of_schemaEntries (keyed_of_schema r depth).1 hv
    . have hexclusive : added.flatMap Schema.Gathered.exclusive
          = fewer.flatMap Schema.Gathered.exclusive := by
        exact hshadowed.flatMap_eq fun g _ hg => hg
      simp only [Schema.Gathered.schema, exclusive_foldl_add, hexclusive]

theorem agrees_schema_of_dropRepeated
    (h : (r.schemaOfObjectWithin depth (.tuple content)).result = .ok s)
    (hkept : dropRepeated content = .ok kept)
    : ∃ s' t u, (r.schemaOfObjectWithin depth (.tuple kept)).result = .ok s'
        ∧ s.properties = some t ∧ s'.properties = some u ∧ Table.Agrees t u
        ∧ s.exclusive = s'.exclusive := by
  rcases dropRepeated_eq_ok hkept with rfl | ⟨seen, hlast⟩
  . obtain ⟨g, rfl, hkeyed⟩ := exists_gathered h
    exact ⟨g.schema, _, _, h, rfl, rfl, hkeyed.agrees_self, rfl⟩
  . exact agrees_schema_of_keepLast h hlast

theorem exists_example_of_object {e : Element} {x : Value} (h : e.kind = .object)
    (hx : (r.exampleWithin n (.element e)).result = .ok x)
    : ∃ k t, (r.exampleObjectWithin k e.content).result = .ok t ∧ x = .object t := by
  cases n with
  | zero => contradiction
  | succ n =>
    rw [exampleWithin] at hx
    simp only [h, Logged.result_map, Outcome.map_eq_ok] at hx
    obtain ⟨t, ht, rfl⟩ := hx
    exact ⟨n, t, ht, rfl⟩

theorem exists_schema_of_object {e : Element} (h : e.kind = .object ∨ e.kind = .option)
    (hs : (r.schemaWithin n (.element e)).result = .ok s)
    : ∃ k own, (r.schemaOfObjectWithin k e.content).result = .ok own
        ∧ own.attribute e = .ok s := by
  cases n with
  | zero => contradiction
  | succ n =>
    have hkind : r.schemaOfKind n e = r.schemaOfObjectWithin n e.content := by
      unfold schemaOfKind
      rcases h with h | h
      . rw [h]
      . rw [h]
    rw [schemaWithin_element, hkind, Logged.result_bind, Outcome.bind_eq_ok] at hs
    obtain ⟨own, hown, hs⟩ := hs
    exact ⟨n, own, hown, hs⟩

end Objects

section Inclusion

variable {declared extending including ref : Element} {items content : List Value} {x y : Value}
variable {s : Schema}

section Extending

variable (hget : r.types.get? name = some declared) (hobject : declared.kind = .object)
variable (hitems : declared.content = .tuple items)
variable (hnamed : extending.kind = .named name) (hcontent : extending.content = .tuple content)

include hget hobject hitems hnamed hcontent

theorem exists_merged {found : Option Element} (h : (r.resolve extending).result = .ok found)
    : name.hashable = true ∧ ∃ merged kept, found = some merged ∧ merged.kind = .object
        ∧ merged.content = .tuple kept ∧ dropRepeated (items ++ content) = .ok kept := by
  obtain ⟨hname, ⟨hnone, -⟩ | ⟨declared', merged, hget', hmerged, rfl⟩⟩ := resolve_eq_ok r hnamed h
  . rw [hget] at hnone
    contradiction
  . rw [hget, Option.some.injEq] at hget'
    subst hget'
    obtain ⟨hkind, hmerge⟩ := extendBy_eq_ok hmerged
    rw [hitems, hcontent] at hmerge
    obtain ⟨kept, hkept, hmerge⟩ := Outcome.map_eq_ok.1 hmerge
    exact ⟨hname, merged, kept, rfl, hkind.trans hobject, hmerge.symm, hkept⟩

theorem exists_example_of_extending (h : (r.exampleWithin n (.element extending)).result = .ok x)
    : name.hashable = true ∧ ∃ kept depth t, dropRepeated (items ++ content) = .ok kept
        ∧ (r.exampleObjectWithin depth (.tuple kept)).result = .ok t ∧ x = .object t := by
  cases n with
  | zero => contradiction
  | succ n =>
    rw [exampleWithin] at h
    simp only [hnamed, Logged.result_bind, Outcome.bind_eq_ok] at h
    obtain ⟨found, hfound, h⟩ := h
    obtain ⟨hname, merged, kept, rfl, hkind, hkept, hdrop⟩ :=
      exists_merged hget hobject hitems hnamed hcontent hfound
    obtain ⟨depth, t, ht, rfl⟩ := exists_example_of_object hkind h
    exact ⟨hname, kept, depth, t, hdrop, hkept ▸ ht, rfl⟩

theorem exists_schema_of_extending (h : (r.schemaWithin n (.element extending)).result = .ok s)
    : name.hashable = true ∧ ∃ kept depth s', dropRepeated (items ++ content) = .ok kept
        ∧ (r.schemaOfObjectWithin depth (.tuple kept)).result = .ok s' ∧ s.Frames s' := by
  cases n with
  | zero => contradiction
  | succ n =>
    rw [schemaWithin_element, schemaOfKind] at h
    simp only [hnamed, Logged.result_bind, Logged.result_liftM, Outcome.bind_eq_ok] at h
    obtain ⟨outer, ⟨found, hfound, h⟩, houter⟩ := h
    obtain ⟨hname, merged, kept, rfl, hkind, hkept, hdrop⟩ :=
      exists_merged hget hobject hitems hnamed hcontent hfound
    obtain ⟨depth, inner, hinner, h⟩ := exists_schema_of_object (.inl hkind) h
    exact ⟨hname, kept, depth, inner, hdrop, hkept ▸ hinner,
      (Schema.frames_attribute houter).trans (Schema.frames_attribute h)⟩

end Extending

section Including

variable (hget : r.types.get? name = some declared)
variable (hincluding : including.kind = .object)
variable (hentries : including.content = .tuple (.element ref :: content))
variable (href : ref.kind = .ref) (hhref : ref.content = .ref name)

include hget hincluding hentries href hhref

theorem exists_example_of_including (hname : name.hashable = true)
    (h : (r.exampleWithin n (.element including)).result = .ok y)
    : ∃ depth t,
        (r.exampleObjectWithin depth (.tuple (entriesOf declared.content ++ content))).result = .ok t
          ∧ y = .object t := by
  obtain ⟨depth, t, ht, rfl⟩ := exists_example_of_object hincluding h
  rw [hentries] at ht
  refine ⟨depth, t, ?_, rfl⟩
  have hsteps := not_fault_of_exampleObjectWithin ht .endless
  cases depth with
  | zero => contradiction
  | succ depth =>
    rw [exampleObjectWithin_eq, scan_include hget href hhref hname hsteps] at ht
    rw [exampleObjectWithin_eq, ht]

theorem exists_schema_of_including (hname : name.hashable = true)
    (h : (r.schemaWithin n (.element including)).result = .ok s)
    : ∃ depth s',
        (r.schemaOfObjectWithin depth (.tuple (entriesOf declared.content ++ content))).result
            = .ok s'
          ∧ s.Frames s' := by
  obtain ⟨depth, s', hs', h⟩ := exists_schema_of_object (.inl hincluding) h
  rw [hentries] at hs'
  refine ⟨depth, s', ?_, Schema.frames_attribute h⟩
  have hsteps := not_fault_of_schemaOfObjectWithin hs' .endless
  cases depth with
  | zero => contradiction
  | succ depth =>
    rw [schemaOfObjectWithin_eq, scan_include hget href hhref hname hsteps] at hs'
    rw [schemaOfObjectWithin_eq, hs']

end Including

/--
An element that extends a declared object, and an object that includes it before the same entries:
if they have examples, these are objects with the same entries, and if they have schemas, these have
the same properties and exclude the same keys.
-/
theorem agrees_of_inclusion (hget : r.types.get? name = some declared)
    (hobject : declared.kind = .object) (hitems : declared.content = .tuple items)
    (hnamed : extending.kind = .named name) (hcontent : extending.content = .tuple content)
    (hincluding : including.kind = .object)
    (hentries : including.content = .tuple (.element ref :: content)) (href : ref.kind = .ref)
    (hhref : ref.content = .ref name)
    : (∀ x y, (r.exampleWithin n (.element extending)).result = .ok x →
        (r.exampleWithin m (.element including)).result = .ok y →
        ∃ t u, x = .object t ∧ y = .object u ∧ Table.Agrees t u)
      ∧ ∀ s s', (r.schemaWithin n (.element extending)).result = .ok s →
          (r.schemaWithin m (.element including)).result = .ok s' →
          (∃ t u, s.properties = some t ∧ s'.properties = some u ∧ Table.Agrees t u)
            ∧ s.exclusive = s'.exclusive := by
  constructor
  -- Both sides come down to the entries of the type and the own ones, one of them without the members
  -- that are repeated.
  . intro x y hx hy
    obtain ⟨hname, kept, k, t, hkept, ht, rfl⟩ :=
      exists_example_of_extending hget hobject hitems hnamed hcontent hx
    obtain ⟨k', u, hu, rfl⟩ :=
      exists_example_of_including hget hincluding hentries href hhref hname hy
    rw [hitems, entriesOf] at hu
    obtain ⟨t', ht', hagrees⟩ := agrees_example_of_dropRepeated hu hkept
    rw [eq_of_exampleObjectWithin ht' ht] at hagrees
    exact ⟨t, u, rfl, rfl, hagrees.symm⟩
  . intro s s' hs hs'
    obtain ⟨hname, kept, k, extended, hkept, hextended, hframes⟩ :=
      exists_schema_of_extending hget hobject hitems hnamed hcontent hs
    obtain ⟨k', included, hincluded, hframes'⟩ :=
      exists_schema_of_including hget hincluding hentries href hhref hname hs'
    rw [hitems, entriesOf] at hincluded
    obtain ⟨extended', u, t, hextended', hu, ht, hagrees, hexclusive⟩ :=
      agrees_schema_of_dropRepeated hincluded hkept
    rw [eq_of_schemaOfObjectWithin hextended' hextended] at ht hexclusive
    constructor
    . exact ⟨t, u, hframes.properties.trans ht, hframes'.properties.trans hu, hagrees.symm⟩
    . rw [hframes.exclusive, hframes'.exclusive, hexclusive]

/--
An object whose own members repeat a key, with an include and a selection in between.
-/
def order : Element :=
  plainElement .object (.tuple [
    .element (plainMember "total" .null),
    .element (plainElement .ref (.ref (.text "Stamp"))),
    .element (plainElement .select (.tuple [
      .element (plainElement .option (.tuple [.element (plainMember "card" .null)]))])),
    .element (plainMember "total" (.element (plainElement .number .null)))])

def stamp : Element :=
  plainElement .object (.tuple [.element (plainMember "made" (.element (plainElement .string .null)))])

def orders : Registry where
  types := [(.text "Order", order), (.text "Stamp", stamp)]

def orderEntries : List Value :=
  [.element (plainMember "card" (.element (plainElement .boolean .null))),
    .element (plainMember "made" .null),
    .element (plainElement .ref (.ref (.text "Stamp"))),
    .element (plainMember "total" (.element (plainElement .number (.int 5))))]

def extendedOrder : Element :=
  plainElement (.named (.text "Order")) (.tuple orderEntries)

def orderRef : Element :=
  plainElement .ref (.ref (.text "Order"))

def includedOrder : Element :=
  plainElement .object (.tuple (.element orderRef :: orderEntries))

theorem agrees_of_inclusion_order
    : ∃ t u s s', (orders.exampleOf extendedOrder).result = .ok (.object t)
        ∧ (orders.exampleOf includedOrder).result = .ok (.object u) ∧ Table.Agrees t u
        ∧ (orders.schemaOf extendedOrder).result = .ok s
        ∧ (orders.schemaOf includedOrder).result = .ok s'
        ∧ (∃ t u, s.properties = some t ∧ s'.properties = some u ∧ Table.Agrees t u)
        ∧ s.exclusive = s'.exclusive := by
  obtain ⟨x, hx⟩ : ∃ x, (orders.exampleOf extendedOrder).result = .ok x := ⟨_, rfl⟩
  obtain ⟨y, hy⟩ : ∃ y, (orders.exampleOf includedOrder).result = .ok y := ⟨_, rfl⟩
  obtain ⟨s, hs⟩ : ∃ s, (orders.schemaOf extendedOrder).result = .ok s := ⟨_, rfl⟩
  obtain ⟨s', hs'⟩ : ∃ s', (orders.schemaOf includedOrder).result = .ok s' := ⟨_, rfl⟩
  obtain ⟨hexamples, hschemas⟩ :=
    @agrees_of_inclusion orders nestingLimit nestingLimit (.text "Order") order extendedOrder
      includedOrder orderRef _ orderEntries rfl rfl rfl rfl rfl rfl rfl rfl rfl
  obtain ⟨t, u, rfl, rfl, hagrees⟩ := hexamples x y hx hy
  exact ⟨t, u, s, s', hx, hy, hagrees, hs, hs', hschemas s s' hs hs'⟩

end Inclusion

end Registry

end ApiElements
