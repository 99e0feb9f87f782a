import ApiElements.Proofs.Compile.Termination
import ApiElements.Proofs.Validation.Nullable
import ApiElements.Proofs.Validation.Traces
import ApiElements.Proofs.Validation.Valid

/-!
This module contains that the schemas of elements are valid documents of draft 4, as long as the
elements that they are made from are described by texts, have texts for keys and choose among
different values.
-/

namespace ApiElements

def Element.PlainlyDescribed (e : Element) : Prop :=
  ∀ d, e.description = .ok d → d = .null ∨ ∃ text : String, d = .text text

namespace Schema

variable {equal : Value → Value → Bool} {s s' : Schema}

theorem Proper.of_frames (h : s.Proper equal) (hframes : s'.Frames s)
    (henum : ∀ vs, s'.enum = some vs → vs ≠ [] ∧ vs.Pairwise fun x y => equal x y = false)
    (hdescription : ∀ v, s'.description = some v → ∃ text : String, v = .text text)
    : s'.Proper equal := by
  cases h with
  | mk enum items properties property exclusive required description =>
    constructor
    . exact henum
    . rw [hframes.items]
      exact items
    . rw [hframes.properties]
      exact properties
    . rw [hframes.properties]
      exact property
    . rw [hframes.exclusive, hframes.properties]
      exact exclusive
    . rw [hframes.required, hframes.properties]
      exact required
    . exact hdescription

theorem Proper.describe (h : s.Proper equal) {d : Value}
    (hd : d = .null ∨ ∃ text : String, d = .text text) : (s.describe d).Proper equal := by
  have hframes := frames_describe s d
  cases h with
  | mk enum items properties property exclusive required description =>
    apply Proper.of_frames ⟨enum, items, properties, property, exclusive, required, description⟩
      hframes
    . unfold Schema.describe
      split
      . exact enum
      . exact enum
    . unfold Schema.describe
      split
      . exact description
      . next hnull =>
        intro v hv
        injection hv with hv
        rw [← hv]
        apply hd.resolve_left
        rintro rfl
        exact hnull rfl

theorem Proper.admitNull (hequal : ∀ v, equal v .null = true → v = .null) (h : s.Proper equal)
    : s.admitNull.Proper equal := by
  have hframes := frames_admitNull s
  cases h with
  | mk enum items properties property exclusive required description =>
    apply Proper.of_frames ⟨enum, items, properties, property, exclusive, required, description⟩
      hframes
    . unfold Schema.admitNull
      split
      . exact enum
      . next values htype henum =>
        split
        . exact enum
        . next hnew =>
          intro vs hvs
          injection hvs with hvs
          subst hvs
          refine ⟨by simp, ?_⟩
          rw [List.pairwise_append]
          refine ⟨(enum values henum).2, List.pairwise_singleton _ _, ?_⟩
          intro x hx y hy
          rw [List.mem_singleton] at hy
          subst hy
          -- Null is put in only if it is not there, and nothing else is equal to it.
          rw [Bool.eq_false_iff]
          intro hnull
          rw [hequal x hnull] at hx
          exact hnew (Value.null_memberOf.2 hx)
      . exact enum
    . unfold Schema.admitNull
      split
      . exact description
      . split
        . exact description
        . exact description
      . exact description

theorem Proper.attribute (hequal : ∀ v, equal v .null = true → v = .null) (h : s.Proper equal)
    {e : Element} (he : e.PlainlyDescribed) (hs' : s.attribute e = .ok s') : s'.Proper equal := by
  obtain ⟨d, names, hd, -, rfl⟩ := attribute_eq_ok.1 hs'
  have hdescribe := h.describe (he d hd)
  split
  . exact hdescribe.admitNull hequal
  . exact hdescribe

theorem proper_any : Schema.any.Proper equal := by
  constructor
  all_goals simp [Schema.any]

theorem proper_ofLiteral {type : SchemaType} {e : Element} (h : ofLiteral type e = .ok s)
    : s.Proper equal := by
  obtain ⟨default, -, rfl⟩ := ofLiteral_eq_ok.1 h
  constructor
  all_goals simp

theorem proper_ofItems {schemas : List Schema} (h : ∀ t ∈ schemas, t.Proper equal)
    : (ofItems schemas).Proper equal := by
  obtain ⟨items, hitems, hmem, -⟩ := Registry.ofItems_eq schemas
  rw [hitems]
  constructor
  case items => exact fun t ht => h t (hmem t ht)
  all_goals simp

namespace Gathered

/--
What has been gathered is proper, with properties of some names.
-/
structure Proper (equal : Value → Value → Bool) (g : Gathered) (fields : List (String × Schema)) :
    Prop where
  properties : g.properties = Table.ofFields fields
  nodup : (fields.map (·.1)).Nodup
  property : ∀ field ∈ fields, field.2.Proper equal
  exclusive : ∀ ks ∈ g.exclusive, ks ≠ [] ∧ KeysFrom (fields.map (·.1)) ks
  required : KeysFrom (fields.map (·.1)) g.required

variable {g g' : Gathered} {fields : List (String × Schema)} {ks ks' : List Value}

theorem Proper.schema (h : g.Proper equal fields) : g.schema.Proper equal := by
  have hproperties : g.schema.properties = some (Table.ofFields fields) := by
    rw [← h.properties]
    rfl
  constructor
  . simp [Gathered.schema]
  . simp [Gathered.schema]
  . intro ps hps
    rw [hproperties, Option.some.injEq] at hps
    exact ⟨fields, hps.symm, h.nodup⟩
  . intro fields' hfields'
    rw [hproperties, Option.some.injEq] at hfields'
    rw [← Table.ofFields_injective hfields']
    exact h.property
  . intro ks hks
    obtain ⟨hne, hfrom⟩ := h.exclusive ks hks
    exact ⟨hne, fields, hproperties, hfrom⟩
  . exact fun _ => ⟨fields, hproperties, h.required⟩
  . simp [Gathered.schema]

theorem Proper.put (h : g.Proper equal fields) (hs : s.Proper equal) (name : String)
    : ∃ fields',
        ({ g with properties := g.properties.put (.text name) s } : Gathered).Proper equal fields'
          ∧ name ∈ fields'.map (·.1) ∧ ∀ x ∈ fields.map (·.1), x ∈ fields'.map (·.1) := by
  obtain ⟨fields', hput, hnames, hmem⟩ := Table.keys_put_ofFields fields name s
  have hname : name ∈ fields'.map (·.1) := by
    rw [hnames]
    split
    . assumption
    . simp
  have hsub : ∀ x ∈ fields.map (·.1), x ∈ fields'.map (·.1) := by
    intro x hx
    rw [hnames]
    split
    . exact hx
    . exact List.mem_append_left _ hx
  refine ⟨fields', ⟨?_, ?_, ?_, ?_, ?_⟩, hname, hsub⟩
  . rw [← hput, ← h.properties]
  . rw [hnames]
    split
    . exact h.nodup
    . next hnew =>
      rw [List.nodup_append]
      refine ⟨h.nodup, by simp, ?_⟩
      rintro x hx y hy rfl
      rw [List.mem_singleton] at hy
      exact hnew (hy ▸ hx)
  . intro field hfield
    rcases hmem field hfield with hfield | rfl
    . exact h.property field hfield
    . exact hs
  . intro ks hks
    obtain ⟨hne, hfrom⟩ := h.exclusive ks hks
    exact ⟨hne, hfrom.mono hsub⟩
  . exact h.required.mono hsub

theorem Proper.addOption (h : g.Proper equal fields) (hks : KeysFrom (fields.map (·.1)) ks)
    (hs : s.Proper equal) (hstate : addOption (g, ks) s = (g', ks'))
    : ∃ fields', g'.Proper equal fields' ∧ KeysFrom (fields'.map (·.1)) ks' := by
  obtain ⟨added, hadded, hproper⟩ : ∃ added, s.properties.getD [] = Table.ofFields added
      ∧ ∀ field ∈ added, field.2.Proper equal := by
    cases hs with
    | mk enum items properties property exclusive required description =>
      cases hps : s.properties with
      | none => exact ⟨[], rfl, by simp⟩
      | some ps =>
        obtain ⟨added, rfl, -⟩ := properties ps hps
        exact ⟨added, rfl, property added hps⟩
  unfold Gathered.addOption Table.ofFields at *
  rw [hadded, List.foldl_map] at hstate
  clear hadded
  induction added generalizing g ks fields with
  | nil =>
    injection hstate with hg hks'
    rw [← hg, ← hks']
    exact ⟨fields, h, hks⟩
  | cons field rest ih =>
    obtain ⟨fields', hput, hname, hsub⟩ := h.put (hproper field (by simp)) field.1
    exact ih hput ((hks.mono hsub).addKey hname) hstate
      fun other hmem => hproper other (List.mem_cons_of_mem _ hmem)

theorem Proper.exclude (h : g.Proper equal fields) (hks : KeysFrom (fields.map (·.1)) ks)
    : (g.exclude ks).Proper equal fields := by
  unfold Gathered.exclude
  split
  . exact h
  . next hne =>
    refine ⟨h.properties, h.nodup, h.property, ?_, h.required⟩
    intro ks' hks'
    rcases List.mem_append.1 hks' with hks' | hks'
    . exact h.exclusive ks' hks'
    . rw [List.mem_singleton] at hks'
      subst hks'
      exact ⟨by simpa using hne, hks⟩

theorem Proper.addMember (hequal : ∀ v, equal v .null = true → v = .null) (h : g.Proper equal fields)
    (hs : s.Proper equal) {m : Element} (hm : m.PlainlyDescribed) {name : String}
    (hadd : g.addMember m (.text name) s = .ok g') : ∃ fields', g'.Proper equal fields' := by
  obtain ⟨s', hs', -, hproperties, hexclusive, hrequired⟩ := Registry.addMember_eq_ok hadd
  obtain ⟨fields', hput, hname, -⟩ := h.put (hs.attribute hequal hm hs') name
  refine ⟨fields', ?_, hput.nodup, hput.property, ?_, ?_⟩
  . rw [hproperties]
    exact hput.properties
  . rw [hexclusive]
    exact hput.exclusive
  . rcases hrequired with hrequired | hrequired
    . rw [hrequired]
      exact hput.required
    . rw [hrequired]
      exact hput.required.addKey hname

end Gathered

end Schema

namespace Registry

/--
The schema of an element is made from that of another one: what a reference is resolved to, the
items of an array, and for an object or an option the values of the members and the options of the
selections among its entries.
-/
inductive Uses (r : Registry) : Element → Element → Prop where
  | resolved {e merged : Element} {name : Value} (kind : e.kind = .named name)
    (found : (r.resolve e).result = .ok (some merged)) : Uses r e merged
  | item {e x : Element} {items : List Value} (kind : e.kind = .array)
    (content : e.content.items = .ok items) (mem : .element x ∈ items) : Uses r e x
  | value {e m x : Element} {entries : List Value} (kind : e.kind = .object ∨ e.kind = .option)
    (expanded : (r.expand e.content).result = .ok entries) (mem : .element m ∈ entries)
    (member : m.kind = .member) (value : m.value = .ok (.element x)) : Uses r e x
  | option {e s x : Element} {entries options : List Value}
    (kind : e.kind = .object ∨ e.kind = .option)
    (expanded : (r.expand e.content).result = .ok entries) (mem : .element s ∈ entries)
    (select : s.kind = .select) (content : s.content.items = .ok options)
    (option : .element x ∈ options) : Uses r e x

def Used (r : Registry) (root e : Element) : Prop :=
  Relation.ReflTransGen r.Uses root e

/--
The elements that the schema of a root is made from are described by texts, their members have texts
for keys, and their enumerations choose among values that are different by some notion of equality.
-/
structure Presentable (equal : Value → Value → Bool) (r : Registry) (root : Element) : Prop where
  described : ∀ e, r.Used root e → e.PlainlyDescribed
  variants : ∀ e variants, r.Used root e → e.kind = .enum → e.content.items = .ok variants →
    variants ≠ [] ∧ (variants.map Value.contentOrNull).Pairwise fun x y => equal x y = false
  members : ∀ e entries m, r.Used root e → e.kind = .object ∨ e.kind = .option →
    (r.expand e.content).result = .ok entries → .element m ∈ entries → m.kind = .member →
    m.PlainlyDescribed ∧ ∀ k, m.key = .ok k → ∃ name : String, k = .text name

section Emitted

variable {r : Registry} {root e m : Element} {equal : Value → Value → Bool} {depth : Nat}
variable {s : Schema} {g g' : Schema.Gathered} {fields : List (String × Schema)}

/--
The schemas of the elements that the schema of a root is made from are proper, down to a depth.
-/
def Emits (equal : Value → Value → Bool) (r : Registry) (root : Element) (depth : Nat) : Prop :=
  ∀ e s, r.Used root e → (r.schemaWithin depth (.element e)).result = .ok s → s.Proper equal

theorem Emits.options (hemits : r.Emits equal root depth) {options : List Value}
    (hused : ∀ x, .element x ∈ options → r.Used root x) {ks ks' : List Value}
    (hg : g.Proper equal fields) (hks : KeysFrom (fields.map (·.1)) ks)
    (h : (options.foldlM (fun state option =>
      Schema.Gathered.addOption state <$> r.schemaWithin depth option) (g, ks)).result
        = .ok (g', ks'))
    : ∃ fields', g'.Proper equal fields' ∧ KeysFrom (fields'.map (·.1)) ks' := by
  induction options generalizing g ks fields with
  | nil =>
    injection h with h
    injection h with hg' hks'
    rw [← hg', ← hks']
    exact ⟨fields, hg, hks⟩
  | cons option rest ih =>
    rw [List.foldlM_cons, Logged.result_bind, Logged.result_map, Outcome.bind_eq_ok] at h
    obtain ⟨⟨g'', ks''⟩, hstate, h⟩ := h
    obtain ⟨s, hs, hadd⟩ := Outcome.map_eq_ok.1 hstate
    obtain ⟨x, rfl⟩ := exists_element_of_schemaWithin hs
    obtain ⟨fields', hg'', hks''⟩ := hg.addOption hks (hemits x s (hused x (by simp)) hs) hadd
    exact ih (fun y hy => hused y (List.mem_cons_of_mem _ hy)) hg'' hks'' h

theorem Emits.select (hemits : r.Emits equal root depth) (hkind : e.kind = .select)
    (hused : ∀ options x, e.content.items = .ok options → .element x ∈ options → r.Used root x)
    (hg : g.Proper equal fields) (h : (r.schemaVisit depth g (.element e)).result = .ok g')
    : ∃ fields', g'.Proper equal fields' := by
  unfold schemaVisit at h
  simp only [hkind, Logged.result_bind, Logged.result_liftM, Outcome.bind_eq_ok] at h
  obtain ⟨options, hoptions, ⟨g'', ks⟩, hfold, h⟩ := h
  injection h with h
  rw [← h]
  obtain ⟨fields', hg'', hks⟩ := hemits.options (hused options · hoptions) hg .nil hfold
  exact ⟨fields', hg''.exclude hks⟩

theorem Emits.member (hequal : ∀ v, equal v .null = true → v = .null)
    (hemits : r.Emits equal root depth) (hkind : m.kind = .member)
    (hused : ∀ x, m.value = .ok (.element x) → r.Used root x) (hm : m.PlainlyDescribed)
    (hkey : ∀ k, m.key = .ok k → ∃ name : String, k = .text name) (hg : g.Proper equal fields)
    (h : (r.schemaVisit depth g (.element m)).result = .ok g')
    : ∃ fields', g'.Proper equal fields' := by
  unfold schemaVisit at h
  simp only [hkind, Logged.result_bind, Logged.result_liftM, Outcome.bind_eq_ok] at h
  obtain ⟨key, hk, v, hv, h⟩ := h
  obtain ⟨name, rfl⟩ := hkey key hk
  split at h
  . exact hg.addMember hequal Schema.proper_any hm h
  . rw [Logged.result_bind, Outcome.bind_eq_ok] at h
    obtain ⟨s, hs, h⟩ := h
    obtain ⟨x, rfl⟩ := exists_element_of_schemaWithin hs
    exact hg.addMember hequal (hemits x s (hused x hv) hs) hm h

theorem Emits.object (hequal : ∀ v, equal v .null = true → v = .null)
    (h : r.Presentable equal root) (hemits : r.Emits equal root depth) (he : r.Used root e)
    (hkind : e.kind = .object ∨ e.kind = .option)
    (hs : (r.schemaOfObjectWithin (depth + 1) e.content).result = .ok s) : s.Proper equal := by
  rw [schemaOfObjectWithin_succ, Logged.result_bind, Outcome.bind_eq_ok] at hs
  obtain ⟨g, hwalk, hs⟩ := hs
  injection hs with hs
  rw [← hs]
  obtain ⟨entries, hentries, hscan⟩ := exists_expand hwalk
  have hempty : ({} : Schema.Gathered).Proper equal [] := by
    refine ⟨rfl, by simp, by simp, by simp, .nil⟩
  obtain ⟨fields, hg⟩ : ∃ fields, g.Proper equal fields := by
    apply walk_preserves ?_ ⟨[], hempty⟩ hwalk
    rintro v hmem before after ⟨fields, hg⟩ hvisit
    have hentry := hscan v hmem
    rcases select_or_member_or_passedOver v with ⟨x, rfl, hselect⟩ | ⟨x, rfl, hmember⟩ | hpassed
    . apply hemits.select hselect ?_ hg hvisit
      intro options y hoptions hy
      exact he.tail (.option hkind hentries hentry hselect hoptions hy)
    . obtain ⟨hdescribed, hkey⟩ := h.members e entries x he hkind hentries hentry hmember
      apply hemits.member hequal hmember ?_ hdescribed hkey hg hvisit
      exact fun y hy => he.tail (.value hkind hentries hentry hmember hy)
    . rw [schemaVisit_passedOver hpassed] at hvisit
      injection hvisit with hvisit
      rw [← hvisit]
      exact ⟨fields, hg⟩
  exact hg.schema

theorem proper_ofChoice (h : r.Presentable equal root) (he : r.Used root e) (hkind : e.kind = .enum)
    (hs : Schema.ofChoice e = .ok s) : s.Proper equal := by
  obtain ⟨variants, hvariants, rfl⟩ := Schema.ofChoice_eq_ok.1 hs
  obtain ⟨hne, hdistinct⟩ := h.variants e variants he hkind hvariants
  constructor
  case enum =>
    intro vs hvs
    injection hvs with hvs
    rw [← hvs]
    exact ⟨by simpa using hne, hdistinct⟩
  all_goals simp

theorem Emits.origin (h : r.Presentable equal root) (hemits : r.Emits equal root depth)
    (hobject : e.kind = .object ∨ e.kind = .option →
      (r.schemaOfObjectWithin depth e.content).result = .ok s → s.Proper equal)
    (he : r.Used root e) (hs : r.Origin depth e s) : s.Proper equal := by
  cases hs with
  | literal _ made => exact Schema.proper_ofLiteral made
  | choice kind made => exact proper_ofChoice h he kind made
  | items kind content made =>
    apply Schema.proper_ofItems
    intro t ht
    obtain ⟨v, hv, ht⟩ := Outcome.exists_of_mem_mapM made ht
    obtain ⟨x, rfl⟩ := exists_element_of_schemaWithin ht
    exact hemits x t (he.tail (.item kind content hv)) ht
  | object kind made => exact hobject kind made
  | merged kind found made => exact hemits _ s (he.tail (.resolved kind found)) made
  | undeclared => exact Schema.proper_any
  | unconstrained => exact Schema.proper_any

theorem emits (hequal : ∀ v, equal v .null = true → v = .null) (h : r.Presentable equal root)
    (depth : Nat)
    : r.Emits equal root depth ∧ ∀ e s, r.Used root e → e.kind = .object ∨ e.kind = .option →
        (r.schemaOfObjectWithin depth e.content).result = .ok s → s.Proper equal := by
  -- An element needs the objects one level down, and an object the elements: both go together.
  induction depth with
  | zero =>
    constructor
    . intro e s _ hs
      contradiction
    . intro e s _ _ hs
      contradiction
  | succ depth ih =>
    obtain ⟨hemits, hobject⟩ := ih
    constructor
    . intro e s he hs
      obtain ⟨_, s', ⟨⟩, horigin, hattribute⟩ := exists_origin hs
      have hproper := hemits.origin h (hobject e s' he) he horigin
      exact hproper.attribute hequal (h.described e he) hattribute
    . exact fun e s he hkind hs => hemits.object hequal h he hkind hs

/--
The schema of a root is a valid document if the elements that it is made from are presentable.
-/
theorem valid_schema (hequal : ∀ v, equal v .null = true → v = .null)
    (h : r.Presentable equal root) (hs : (r.schemaWithin depth (.element root)).result = .ok s)
    : Draft4.Valid equal s.toValue := by
  exact ((emits hequal h depth).1 root s .refl hs).valid

end Emitted

section Colors

def colors : Element :=
  .mk .enum (.object [(.text "description", .text "What is in stock")])
    (.object [(.text "typeAttributes", .tuple [.text "nullable"])])
    (.tuple [
      .element (plainElement .string (.text "red")),
      .element (plainElement .string (.text "blue"))])

def colorMember : Element :=
  .mk .member (.object []) (.object [(.text "typeAttributes", .tuple [.text "required"])])
    (.member (.element (plainElement .string (.text "color"))) (.element colors))

def colored : Element :=
  plainElement .object (.tuple [.element colorMember])

theorem expand_colored
    : (expand ⟨[]⟩ colored.content).result = .ok [.element colorMember] := by
  rfl

theorem used_colored {e : Element} (h : Used ⟨[]⟩ colored e) : e = colored ∨ e = colors := by
  induction h with
  | refl => exact .inl rfl
  | tail _ huses ih =>
    rcases ih with rfl | rfl
    . cases huses with
      | resolved kind => contradiction
      | item kind => contradiction
      | value _ expanded mem member value =>
        rw [expand_colored, Except.ok.injEq] at expanded
        subst expanded
        rw [List.mem_singleton, Value.element.injEq] at mem
        subst mem
        injection value with value
        injection value with value
        exact .inr value.symm
      | option _ expanded mem select =>
        rw [expand_colored, Except.ok.injEq] at expanded
        subst expanded
        rw [List.mem_singleton, Value.element.injEq] at mem
        subst mem
        contradiction
    . cases huses with
      | resolved kind => contradiction
      | item kind => contradiction
      | value kind => simp [colors, Element.kind] at kind
      | option kind => simp [colors, Element.kind] at kind

theorem presentable_colored : Presentable Value.same ⟨[]⟩ colored where
  described := by
    intro e he d hd
    rcases used_colored he with rfl | rfl
    . injection hd with hd
      exact .inl hd.symm
    . injection hd with hd
      exact .inr ⟨_, hd.symm⟩
  variants := by
    intro e variants he hkind hvariants
    rcases used_colored he with rfl | rfl
    . contradiction
    . injection hvariants with hvariants
      subst hvariants
      exact ⟨by simp, by decide⟩
  members := by
    intro e entries m he hkind hentries hmem hmember
    rcases used_colored he with rfl | rfl
    . rw [expand_colored, Except.ok.injEq] at hentries
      subst hentries
      rw [List.mem_singleton, Value.element.injEq] at hmem
      subst hmem
      constructor
      . intro d hd
        injection hd with hd
        exact .inl hd.symm
      . intro k hk
        injection hk with hk
        exact ⟨_, hk.symm⟩
    . simp [colors, Element.kind] at hkind

theorem valid_schema_colored
    : (∀ v, Value.same v .null = true → v = .null) ∧ Presentable Value.same ⟨[]⟩ colored
        ∧ ∃ s, (schemaOf ⟨[]⟩ colored).result = .ok s ∧ s.required = [.text "color"]
            ∧ Draft4.Valid Value.same s.toValue := by
  have hequal : ∀ v, Value.same v .null = true → v = .null := by
    intro v hv
    cases v with
    | null => rfl
    | _ => simp [Value.same, Value.number?] at hv
  have hcompiles : ∃ s, (schemaOf ⟨[]⟩ colored).result = .ok s ∧ s.required = [.text "color"] :=
    ⟨_, rfl, rfl⟩
  obtain ⟨s, hs, hrequired⟩ := hcompiles
  exact ⟨hequal, presentable_colored, s, hs, hrequired, valid_schema hequal presentable_colored hs⟩

end Colors

end Registry

end ApiElements
