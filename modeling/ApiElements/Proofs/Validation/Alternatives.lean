import ApiElements.Proofs.Inheritance.Derived
import ApiElements.Proofs.Validation.Folding
import ApiElements.Proofs.Validation.Keys

/-!
This module contains that a selection admits each of its options, as long as there is another option
whose keys are left out: the constraint of the selection is about the keys of all options together.
-/

namespace ApiElements

namespace Schema.Gathered

variable {schemas : List Schema} {s : Schema}

def keysOf (schemas : List Schema) : List Value :=
  addKeys [] (schemas.flatMap fun s => s.properties.getD [])

theorem hashable_properties (h : ∀ s ∈ schemas, Table.Keyed (s.properties.getD []))
    : ∀ p ∈ schemas.flatMap fun s => s.properties.getD [], p.1.hashable = true := by
  intro p hp
  obtain ⟨s, hs, hp⟩ := List.mem_flatMap.1 hp
  exact (h s hs).hashable p hp

theorem memberOf_keysOf (h : ∀ s ∈ schemas, Table.Keyed (s.properties.getD []))
    (hs : s ∈ schemas) {p : Value × Schema} (hp : p ∈ s.properties.getD [])
    : p.1.memberOf (keysOf schemas) = true := by
  have hmem : p ∈ schemas.flatMap fun s => s.properties.getD [] := List.mem_flatMap.2 ⟨s, hs, hp⟩
  have hkey := hashable_properties h p hmem
  rw [keysOf, memberOf_addKeys (hashable_properties h) hkey, Bool.or_eq_true, Table.has_iff]
  exact .inr ⟨p, hmem, Value.same_self hkey⟩

theorem hashable_keysOf (h : ∀ s ∈ schemas, Table.Keyed (s.properties.getD []))
    : ∀ k ∈ keysOf schemas, k.hashable = true := by
  exact hashable_addKeys (by simp) (hashable_properties h)

theorem exclusive_ofOptions (h : keysOf schemas ≠ [])
    : (ofOptions schemas).exclusive = [keysOf schemas] := by
  unfold ofOptions
  exact if_neg (by simpa [keysOf] using h)

end Schema.Gathered

namespace Registry

open Schema.Gathered (keysOf memberOf_keysOf hashable_keysOf exclusive_ofOptions)

variable {r : Registry} {n m depth : Nat} {e x : Element} {o v k content : Value}
variable {options : List Value} {pre post : List Step} {s s' : Schema} {t : Table Value}

/--
A key of an option: its schema has a property of this name, or the example of its content has an
entry.
-/
inductive Supplies (r : Registry) (o k : Value) : Prop where
  | property {depth : Nat} {s : Schema} (hashable : k.hashable = true)
    (schema : (r.schemaWithin depth o).result = .ok s)
    (has : Table.has (s.properties.getD []) k = true)
  | sample {depth : Nat} {chosen : Value} {t : Table Value} (hashable : k.hashable = true)
    (content : o.elementContent = .ok chosen)
    (entries : (r.exampleObjectWithin depth chosen).result = .ok t) (has : t.has k = true)

/--
A key of an entry of an object: the entry puts a property of this name into the schema, or an entry
into the example.
-/
inductive Contributes (r : Registry) (v k : Value) : Prop where
  | property {depth : Nat} {g : Schema.Gathered} (hashable : k.hashable = true)
    (gathered : (r.schemaEntries depth v).result = .ok g) (has : g.properties.has k = true)
  | sample {depth : Nat} {t : Table Value} (hashable : k.hashable = true)
    (entries : (r.exampleEntries depth v).result = .ok t) (has : t.has k = true)

section Nested

/--
All selections among the entries of a content hold options, in which it is the same.
-/
inductive OptionsOnly (r : Registry) : Value → Prop where
  | mk {content : Value}
    (option : ∀ x options o, .entry (.element x) ∈ r.scan content → x.kind = .select →
      x.content.items = .ok options → o ∈ options → ∃ y, o = .element y ∧ y.kind = .option)
    (nested : ∀ x options y, .entry (.element x) ∈ r.scan content → x.kind = .select →
      x.content.items = .ok options → .element y ∈ options → OptionsOnly r y.content)
    : OptionsOnly r content

theorem optionsOnly_of_no_selection
    (h : ∀ x, .entry (.element x) ∈ r.scan content → x.kind ≠ .select) : r.OptionsOnly content := by
  constructor
  . exact fun x _ _ hx hselect => absurd hselect (h x hx)
  . exact fun x _ _ hx hselect => absurd hselect (h x hx)

theorem OptionsOnly.selectsObjects (h : r.OptionsOnly content) : r.SelectsObjects content := by
  induction h with
  | mk option _ ih =>
    rw [selectsObjects_iff]
    intro entries x options o hexpand hx hselect hitems ho
    have hscan := mem_scan_of_expand hexpand hx
    obtain ⟨y, rfl, hkind⟩ := option x options o hscan hselect hitems ho
    exact ⟨y, rfl, .inr hkind, ih x options y hscan hselect hitems ho⟩

/--
A key has a property in the schema of a content if it has an entry in its example.
-/
def Covers (r : Registry) (k content : Value) : Prop :=
  ∀ n m t s, (r.exampleObjectWithin n content).result = .ok t →
    (r.schemaOfObjectWithin m content).result = .ok s → t.has k = true →
    Table.has (s.properties.getD []) k = true

/--
The keys of an example are among the properties of the schema, if selections hold options only.
-/
theorem covers_of_optionsOnly (h : r.OptionsOnly content) (hk : k.hashable = true)
    : r.Covers k content := by
  intro n
  exact covered_of_selectsObjects h.selectsObjects hk

/--
The keys of an option are the properties of its schema, if the selections in it hold options only.
-/
theorem supplies_iff (hkind : x.kind = .option) (honly : r.OptionsOnly x.content)
    (hs : (r.schemaWithin n (.element x)).result = .ok s)
    : r.Supplies (.element x) k ↔ k.hashable = true ∧ Table.has (s.properties.getD []) k = true := by
  constructor
  . intro h
    cases h with
    | property hashable schema has =>
      rw [eq_of_schemaWithin schema hs] at has
      exact ⟨hashable, has⟩
    | sample hashable content entries has =>
      injection content with content
      subst content
      obtain ⟨m, own, hown, hattribute⟩ := exists_schema_of_object (.inr hkind) hs
      rw [(Schema.frames_attribute hattribute).properties]
      exact ⟨hashable, covers_of_optionsOnly honly hashable _ m _ own entries hown has⟩
  . rintro ⟨hhashable, hhas⟩
    exact .property hhashable hs hhas

end Nested

section Choice

/--
A content has a selection whose options each have some key, and share none with each other or with
another entry of the content.
-/
structure Alternatives (r : Registry) (content : Value) (pre : List Step) (x : Element)
    (post : List Step) (options : List Value) : Prop where
  scan : r.scan content = pre ++ .entry (.element x) :: post
  select : x.kind = .select
  items : x.content.items = .ok options
  keyed : ∀ o ∈ options, ∃ depth s, (r.schemaWithin depth o).result = .ok s
    ∧ s.properties.getD [] ≠ []
  apart : options.Pairwise fun o o' => ∀ k, r.Supplies o k → ¬ r.Supplies o' k
  others : ∀ o ∈ options, ∀ v, .entry v ∈ pre ∨ .entry v ∈ post →
    ∀ k, r.Supplies o k → ¬ r.Contributes v k

/--
An object has no keys but those of an option and of the entries beside the selection.
-/
def Picks (r : Registry) (pre post : List Step) (o : Value) (t : Table Value) : Prop :=
  ∀ k, k.hashable = true → t.has k = true →
    r.Supplies o k ∨ ∃ v, (.entry v ∈ pre ∨ .entry v ∈ post) ∧ r.Contributes v k

/--
The constraint that not all of some keys are there is what a selection adds to the schema of an
object, between what the entries before it and those after it add.
-/
def Excludes (r : Registry) (pre : List Step) (x : Element) (post : List Step) (keys : List Value)
    (s : Schema) : Prop :=
  ∃ depth before g after, (additions (r.schemaEntries depth) pre).result = .ok before
    ∧ (r.schemaEntries depth (.element x)).result = .ok g
    ∧ (additions (r.schemaEntries depth) post).result = .ok after
    ∧ g.exclusive = [keys]
    ∧ s.toValue.under? "allOf" = some (.list
        ((before.flatMap (·.exclusive) ++ keys :: after.flatMap (·.exclusive)).map Schema.exclusion))

theorem exists_related {α : Type} {R : α → α → Prop} {xs : List α} {a : α}
    (hsymm : ∀ a b, R a b → R b a) (h : xs.Pairwise R) (hlength : 2 ≤ xs.length) (ha : a ∈ xs)
    : ∃ b ∈ xs, R a b := by
  match xs with
  | [] | [_] => simp at hlength
  | first :: second :: rest =>
    rw [List.pairwise_cons] at h
    rcases List.mem_cons.1 ha with rfl | ha
    . exact ⟨second, by simp, h.1 second (by simp)⟩
    . exact ⟨first, by simp, hsymm first a (h.1 a ha)⟩

namespace Alternatives

variable {schemas : List Schema}

theorem exists_apart (h : r.Alternatives content pre x post options) (hlength : 2 ≤ options.length)
    (ho : o ∈ options) : ∃ o' ∈ options, ∀ k, r.Supplies o k → ¬ r.Supplies o' k := by
  exact exists_related (fun _ _ h k hk hk' => h k hk' hk) h.apart hlength ho

theorem keyed_schemas
    (hschemas : options.mapM (fun o => (r.schemaWithin depth o).result) = .ok schemas)
    : ∀ s ∈ schemas, Table.Keyed (s.properties.getD []) := by
  intro s hs
  obtain ⟨o, -, ho⟩ := Outcome.exists_of_mem_mapM hschemas hs
  exact (keyed_of_schema r depth).1 o s ho

theorem exists_key (h : r.Alternatives content pre x post options)
    (hschemas : options.mapM (fun o => (r.schemaWithin depth o).result) = .ok schemas)
    (ho : o ∈ options) : ∃ k ∈ keysOf schemas, r.Supplies o k := by
  have hkeyed := keyed_schemas hschemas
  obtain ⟨s, hs, hschema⟩ := Outcome.exists_mem_of_mapM hschemas ho
  obtain ⟨depth', s', hs', hne⟩ := h.keyed o ho
  rw [eq_of_schemaWithin hs' hschema] at hne
  obtain ⟨p, rest, hproperties⟩ := List.exists_cons_of_ne_nil hne
  have hp : p ∈ s.properties.getD [] := by simp [hproperties]
  obtain ⟨k, hk, hsame⟩ := List.any_eq_true.1 (memberOf_keysOf hkeyed hs hp)
  have hhashable := hashable_keysOf hkeyed k hk
  refine ⟨k, hk, .property hhashable hschema ?_⟩
  rw [Table.has_iff]
  refine ⟨p, hp, ?_⟩
  rwa [Value.same_comm hhashable ((hkeyed s hs).hashable p hp)]

theorem accepts_of_picks (h : r.Alternatives content pre x post options)
    (hlength : 2 ≤ options.length)
    (hschemas : options.mapM (fun o => (r.schemaWithin depth o).result) = .ok schemas)
    (ho : o ∈ options) (ht : r.Picks pre post o t)
    : Draft4.accepts (Schema.exclusion (keysOf schemas)) (.object t) = true := by
  obtain ⟨o', ho', hapart⟩ := h.exists_apart hlength ho
  obtain ⟨k, hk, hsupplies⟩ := h.exists_key hschemas ho'
  refine Schema.holds_exclusion.2 ⟨t, rfl, k, hk, ?_⟩
  rw [Bool.eq_false_iff]
  intro hhas
  rcases ht k (hashable_keysOf (keyed_schemas hschemas) k hk) hhas with hown | ⟨v, hv, hother⟩
  . exact hapart k hown hsupplies
  . exact h.others o' ho' v hv k hsupplies hother

theorem exists_supplies (h : r.Alternatives content pre x post options) (hne : options ≠ [])
    (ht : (r.exampleEntries n (.element x)).result = .ok t)
    : ∃ o ∈ options, ∀ k, k.hashable = true → t.has k = true → r.Supplies o k := by
  rcases exampleEntries_select_eq_ok h.select ht with rfl | ⟨o, chosen, hfirst, hchosen, ht⟩
  . obtain ⟨first, rest, hoptions⟩ := List.exists_cons_of_ne_nil hne
    exact ⟨first, by simp [hoptions], by simp [Table.has]⟩
  . have helement : ∀ o ∈ options, ∃ y, o = .element y := by
      intro o ho
      obtain ⟨depth, s, hs, -⟩ := h.keyed o ho
      exact exists_element_of_schemaWithin hs
    exact ⟨o, mem_items_of_first h.items helement hfirst,
      fun k hk hhas => .sample hk hchosen ht hhas⟩

/--
The example picks an option: the keys that it has beside those of the other entries are keys of one.
-/
theorem exists_picks (h : r.Alternatives content pre x post options) (hne : options ≠ [])
    (ht : (r.exampleObjectWithin n content).result = .ok t)
    : ∃ o ∈ options, r.Picks pre post o t := by
  cases n with
  | zero => contradiction
  | succ n =>
    rw [exampleObjectWithin_eq, Logged.result_map, Outcome.map_eq_ok] at ht
    obtain ⟨ts, hts, rfl⟩ := ht
    have hsplit := hts
    rw [h.scan] at hsplit
    obtain ⟨before, later, hbefore, hlater, rfl⟩ := additions_append_eq_ok.1 hsplit
    obtain ⟨u, after, hu, hafter, rfl⟩ := additions_entry_eq_ok.1 hlater
    obtain ⟨o, ho, hsupplies⟩ := h.exists_supplies hne hu
    refine ⟨o, ho, ?_⟩
    intro k hk hhas
    rw [has_example_of_additions hts hk, List.any_eq_true] at hhas
    obtain ⟨w, hw, hhas⟩ := hhas
    rcases List.mem_append.1 hw with hw | hw
    . obtain ⟨v, hv, hentries⟩ := exists_of_mem_additions hbefore w hw
      exact .inr ⟨v, .inl hv, .sample hk hentries hhas⟩
    . rcases List.mem_cons.1 hw with rfl | hw
      . exact .inl (hsupplies k hk hhas)
      . obtain ⟨v, hv, hentries⟩ := exists_of_mem_additions hafter w hw
        exact .inr ⟨v, .inr hv, .sample hk hentries hhas⟩

theorem exists_excludes (h : r.Alternatives content pre x post options) (hne : options ≠ [])
    (hs : (r.schemaOfObjectWithin n content).result = .ok s) (hframes : s'.Frames s)
    : ∃ depth schemas, options.mapM (fun o => (r.schemaWithin depth o).result) = .ok schemas
        ∧ r.Excludes pre x post (keysOf schemas) s' := by
  cases n with
  | zero => contradiction
  | succ n =>
    rw [schemaOfObjectWithin_eq, Logged.result_map, Outcome.map_eq_ok] at hs
    obtain ⟨gs, hgs, rfl⟩ := hs
    rw [h.scan] at hgs
    obtain ⟨before, later, hbefore, hlater, rfl⟩ := additions_append_eq_ok.1 hgs
    obtain ⟨g, after, hg, hafter, rfl⟩ := additions_entry_eq_ok.1 hlater
    obtain ⟨options', schemas, hitems, hschemas, rfl⟩ := schemaEntries_select_eq_ok h.select hg
    rw [h.items, Except.ok.injEq] at hitems
    subst hitems
    obtain ⟨o, rest, hoptions⟩ := List.exists_cons_of_ne_nil hne
    obtain ⟨k, hk, -⟩ := h.exists_key hschemas (o := o) (by simp [hoptions])
    have hkeys := exclusive_ofOptions (List.ne_nil_of_mem hk)
    have hexclusive : s'.exclusive = before.flatMap (·.exclusive) ++
        keysOf schemas :: after.flatMap (·.exclusive) := by
      rw [hframes.exclusive, Schema.Gathered.schema, exclusive_foldl_add, List.flatMap_append,
        List.flatMap_cons, hkeys]
      rfl
    refine ⟨n, schemas, hschemas, n, before, _, after, hbefore, hg, hafter, hkeys, ?_⟩
    rw [Schema.under?_allOf (by simp [hexclusive]), hexclusive]

end Alternatives

/--
A selection of two or more options admits each of them: an object with the keys of one option and of
the other entries, such as the example, is not rejected by the constraint that the selection adds.
-/
theorem accepts_alternative (hkind : e.kind = .object)
    (hs : (r.schemaWithin n (.element e)).result = .ok s)
    (h : r.Alternatives e.content pre x post options) (hlength : 2 ≤ options.length)
    : ∃ keys, r.Excludes pre x post keys s
        ∧ (∀ o ∈ options, ∀ t, r.Picks pre post o t →
            Draft4.accepts (Schema.exclusion keys) (.object t) = true)
        ∧ ∀ m v, (r.exampleWithin m (.element e)).result = .ok v →
            Draft4.accepts (Schema.exclusion keys) v = true := by
  have hne : options ≠ [] := by
    rintro rfl
    simp at hlength
  obtain ⟨m, own, hown, hattribute⟩ := exists_schema_of_object (.inl hkind) hs
  obtain ⟨depth, schemas, hschemas, hexcludes⟩ :=
    h.exists_excludes hne hown (Schema.frames_attribute hattribute)
  have hpicks : ∀ o ∈ options, ∀ t, r.Picks pre post o t →
      Draft4.accepts (Schema.exclusion (keysOf schemas)) (.object t) = true := by
    exact fun o ho t ht => h.accepts_of_picks hlength hschemas ho ht
  refine ⟨keysOf schemas, hexcludes, hpicks, ?_⟩
  intro m' v hv
  obtain ⟨depth', t, ht, rfl⟩ := exists_example_of_object hkind hv
  obtain ⟨o, ho, hpicked⟩ := h.exists_picks hne ht
  exact hpicks o ho t hpicked

section Samples

variable {kind : Kind} {name : String}

def optionOf (name : String) (kind : Kind) : Element :=
  plainSequence .option [bareMember name kind]

theorem optionsOnly_optionOf : r.OptionsOnly (optionOf name kind).content := by
  apply optionsOnly_of_no_selection
  intro x hx
  have hscan : r.scan (optionOf name kind).content = [.entry (.element (bareMember name kind))] := by
    rfl
  rw [hscan, List.mem_singleton] at hx
  injection hx with hx
  injection hx with hx
  subst hx
  exact Kind.noConfusion

theorem supplies_optionOf {p : Schema}
    (hs : (r.schemaWithin n (.element (optionOf name kind))).result = .ok s)
    (hproperties : s.properties = some [(.text name, p)])
    : r.Supplies (.element (optionOf name kind)) k ↔ k = .text name := by
  rw [supplies_iff rfl optionsOnly_optionOf hs, hproperties]
  simp only [Option.getD_some, Table.has, List.any_cons, List.any_nil, Bool.or_false, Value.same_text]
  constructor
  . exact fun h => h.2
  . rintro rfl
    exact ⟨rfl, rfl⟩

theorem eq_of_contributes_member (hkind : e.kind = .member) (hkey : e.key = .ok (.text name))
    (h : r.Contributes (.element e) k) : k = .text name := by
  cases h with
  | property hashable gathered has =>
    obtain ⟨key, s, hkey', -, hproperties, -⟩ := schemaEntries_member_eq_ok hkind gathered
    rw [hkey, Except.ok.injEq] at hkey'
    subst hkey'
    rw [hproperties] at has
    simpa [Table.has, Value.same_text] using has
  | sample hashable entries has =>
    obtain ⟨key, y, hkey', -, rfl⟩ := exampleEntries_member_eq_ok hkind entries
    rw [hkey, Except.ok.injEq] at hkey'
    subst hkey'
    simpa [Table.has, Value.same_text] using has

def oneProperty (name : String) (type : SchemaType) : Schema where
  type := some .object
  properties := some [(.text name, { type := some type })]

theorem alternatives_oneOption
    : noTypes.Alternatives oneOption.content [] (plainSequence .select [optionOf "a" .string]) []
        [.element (optionOf "a" .string)] := by
  constructor
  . rfl
  . rfl
  . rfl
  . intro o ho
    rw [List.mem_singleton] at ho
    subst ho
    exact ⟨4, oneProperty "a" .string, rfl, List.cons_ne_nil _ _⟩
  . exact List.pairwise_singleton _ _
  . simp

/--
A selection with a single option excludes that its keys are there.
-/
theorem not_accepts_alternative
    : ∃ s keys t, (noTypes.schemaOf oneOption).result = .ok s
        ∧ noTypes.Alternatives oneOption.content [] (plainSequence .select [optionOf "a" .string]) []
            [.element (optionOf "a" .string)]
        ∧ noTypes.Excludes [] (plainSequence .select [optionOf "a" .string]) [] keys s
        ∧ noTypes.Picks [] [] (.element (optionOf "a" .string)) t
        ∧ (noTypes.exampleOf oneOption).result = .ok (.object t)
        ∧ Draft4.accepts (Schema.exclusion keys) (.object t) = false := by
  refine ⟨{ oneProperty "a" .string with exclusive := [[.text "a"]] }, [.text "a"],
    [(.text "a", Example.string)], rfl, alternatives_oneOption, ?_, ?_, rfl, rfl⟩
  . exact ⟨4, [], Schema.Gathered.ofOptions [oneProperty "a" .string], [], rfl, rfl, rfl, rfl, rfl⟩
  . intro k hk hhas
    rw [supplies_optionOf (n := 4) (s := oneProperty "a" .string) rfl rfl]
    simpa [Table.has, Value.same_text] using hhas

theorem supplies_mail
    : statusOnly.Supplies (.element (optionOf "mail" .string)) k ↔ k = .text "mail" := by
  exact supplies_optionOf (n := 4) (s := oneProperty "mail" .string) rfl rfl

theorem supplies_phone
    : statusOnly.Supplies (.element (optionOf "phone" .number)) k ↔ k = .text "phone" := by
  exact supplies_optionOf (n := 4) (s := oneProperty "phone" .number) rfl rfl

theorem alternatives_account
    : statusOnly.Alternatives account.content [.entry (.element statusMember)] contact []
        [.element (optionOf "mail" .string), .element (optionOf "phone" .number)] := by
  constructor
  . rfl
  . rfl
  . rfl
  . simp only [List.forall_mem_cons, List.not_mem_nil, false_implies, implies_true, and_true]
    exact ⟨⟨4, oneProperty "mail" .string, rfl, List.cons_ne_nil _ _⟩,
      4, oneProperty "phone" .number, rfl, List.cons_ne_nil _ _⟩
  . rw [List.pairwise_pair]
    intro k hmail hphone
    rw [supplies_mail] at hmail
    rw [supplies_phone, hmail] at hphone
    simp at hphone
  . intro o ho v hv k hsupplies hcontributes
    simp only [List.mem_singleton, Step.entry.injEq, List.not_mem_nil, or_false] at hv
    subst hv
    have hstatus : k = .text "status" := eq_of_contributes_member rfl rfl hcontributes
    simp only [List.mem_cons, List.not_mem_nil, or_false] at ho
    rcases ho with rfl | rfl
    . rw [supplies_mail, hstatus] at hsupplies
      simp at hsupplies
    . rw [supplies_phone, hstatus] at hsupplies
      simp at hsupplies

theorem accepts_alternative_account
    : account.kind = .object
        ∧ statusOnly.Alternatives account.content [.entry (.element statusMember)] contact []
            [.element (optionOf "mail" .string), .element (optionOf "phone" .number)]
        ∧ ∃ s, (statusOnly.schemaOf account).result = .ok s
          ∧ ∃ keys, statusOnly.Excludes [.entry (.element statusMember)] contact [] keys s
            ∧ Draft4.accepts (Schema.exclusion keys)
                (.object [(.text "status", .text "off"), (.text "phone", .int 7)]) = true
            ∧ Draft4.accepts (Schema.exclusion keys)
                (.object [(.text "status", .text "on"), (.text "mail", Example.string)]) = true := by
  obtain ⟨s, hs⟩ : ∃ s, (statusOnly.schemaOf account).result = .ok s := ⟨_, rfl⟩
  obtain ⟨keys, hexcludes, hpicks, hexample⟩ :=
    accepts_alternative rfl hs alternatives_account (by decide)
  have hentries : (statusOnly.exampleEntries 4 (.element statusMember)).result
      = .ok [(.text "status", .text "on")] := by
    rfl
  have hstatus : statusOnly.Contributes (.element statusMember) (.text "status") :=
    .sample rfl hentries rfl
  refine ⟨rfl, alternatives_account, s, hs, keys, hexcludes, ?_, hexample nestingLimit _ rfl⟩
  apply hpicks (.element (optionOf "phone" .number)) (by simp)
  intro k hk hhas
  simp only [Table.has, List.any_cons, List.any_nil, Bool.or_false, Bool.or_eq_true,
    Value.same_text] at hhas
  rcases hhas with rfl | rfl
  . exact .inr ⟨.element statusMember, .inl (by simp), hstatus⟩
  . exact .inl (supplies_phone.2 rfl)

end Samples

end Choice

end Registry

end ApiElements
