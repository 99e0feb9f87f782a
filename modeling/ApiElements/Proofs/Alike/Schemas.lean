import ApiElements.Proofs.Alike.Values
import ApiElements.Proofs.Validation.Nullable
import ApiElements.Proofs.Validation.Valid

/-!
This module contains schemas that are made up in the same way of related parts, where the second one
may ask for further keys, and what is gathered for such schemas of objects.
-/

namespace ApiElements

structure SameKeys (ks ks' : List Value) : Prop where
  hashable_left : ∀ k ∈ ks, k.hashable = true
  hashable_right : ∀ k ∈ ks', k.hashable = true
  memberOf_eq : ∀ k : Value, k.hashable = true → k.memberOf ks = k.memberOf ks'

/--
Two schemas are made up in the same way, but the second one may ask for further keys. Lists of keys
are the same as long as no entry has been moved. The items of an array are those of two lists of
such schemas, each of them folded if all in it are equal.
-/
inductive Schema.Close (leaf : Value → Value → Prop) (moved : Prop) : Schema → Schema → Prop where
  | mk {s s' : Schema} {ts ts' : List Schema} (type_eq : s.type = s'.type)
    (nullable_eq : s.nullable = s'.nullable) (default_eq : s.default = s'.default)
    (description_eq : s.description = s'.description)
    (enum : Option.Rel (List.Forall₂ leaf) s.enum s'.enum)
    (items_left : s.items = (ofItems ts).items) (items_right : s'.items = (ofItems ts').items)
    (length_eq : ts.length = ts'.length)
    (items : ∀ t t', (t, t') ∈ ts.zip ts' → Close leaf moved t t')
    (properties_iff : s.properties.isSome = s'.properties.isSome)
    (keyed_left : Table.Keyed (s.properties.getD []))
    (keyed_right : Table.Keyed (s'.properties.getD []))
    (keys_eq : ¬ moved → Table.keys (s.properties.getD []) = Table.keys (s'.properties.getD []))
    (same_keys : ∀ k, k.hashable = true →
      (Table.get? (s.properties.getD []) k).isSome = (Table.get? (s'.properties.getD []) k).isSome)
    (properties : ∀ k t t', k.hashable = true → Table.get? (s.properties.getD []) k = some t →
      Table.get? (s'.properties.getD []) k = some t' → Close leaf moved t t')
    (exclusive : List.Forall₂ SameKeys s.exclusive s'.exclusive)
    (exclusive_eq : ¬ moved → s.exclusive = s'.exclusive)
    (required : ∀ k : Value, k.hashable = true → k.memberOf s.required = true →
      k.memberOf s'.required = true)
    (required_eq : ¬ moved → s.required = s'.required) : Close leaf moved s s'

section SameKeys

variable {ks ks' : List Value} {k : Value}

theorem memberOf_of_mem (hk : k.hashable = true) (h : k ∈ ks) : k.memberOf ks = true := by
  exact List.any_eq_true.2 ⟨k, h, Value.same_self hk⟩

theorem isEmpty_of_memberOf (h : ∀ k ∈ ks, k.hashable = true)
    (hmember : ∀ k : Value, k.hashable = true → k.memberOf ks = true → k.memberOf ks' = true)
    (hempty : ks'.isEmpty = true) : ks.isEmpty = true := by
  rw [List.isEmpty_iff] at hempty
  subst hempty
  cases ks with
  | nil => rfl
  | cons k ks =>
    have hk := h k (by simp)
    have hnil := hmember k hk (memberOf_of_mem hk (by simp))
    contradiction

theorem SameKeys.isEmpty_eq (h : SameKeys ks ks') : ks.isEmpty = ks'.isEmpty := by
  rw [Bool.eq_iff_iff]
  constructor
  . exact isEmpty_of_memberOf h.hashable_right fun k hk hmem => (h.memberOf_eq k hk).trans hmem
  . exact isEmpty_of_memberOf h.hashable_left fun k hk hmem => (h.memberOf_eq k hk).symm.trans hmem

variable {α β : Type} {moved : Prop} {S : α → β → Prop} {t : Table α} {u : Table β}

theorem Table.Feeds.sameKeys (h : Table.Feeds moved S t u) : SameKeys (addKeys [] t) (addKeys [] u) where
  hashable_left := hashable_addKeys (by simp) h.hashable_left
  hashable_right := hashable_addKeys (by simp) h.hashable_right
  memberOf_eq := by
    intro k hk
    rw [memberOf_addKeys h.hashable_left hk, memberOf_addKeys h.hashable_right hk, h.has_eq k hk]

end SameKeys

namespace Schema

variable {leaf leaf' : Value → Value → Prop} {moved : Prop} {s s' t t' : Schema}

section Close

theorem Close.linked (h : s.Close leaf moved s')
    : Table.Linked moved (Close leaf moved) (s.properties.getD []) (s'.properties.getD []) := by
  cases h with
  | mk _ _ _ _ _ _ _ _ _ _ keyed_left keyed_right keys_eq same_keys properties =>
    exact Table.linked_of_related keyed_left keyed_right keys_eq same_keys properties

theorem Close.of_frames (h : s.Close leaf moved s') (ht : t.Frames s) (ht' : t'.Frames s')
    (type_eq : t.type = t'.type) (nullable_eq : t.nullable = t'.nullable)
    (default_eq : t.default = t'.default) (description_eq : t.description = t'.description)
    (enum : Option.Rel (List.Forall₂ leaf) t.enum t'.enum) : t.Close leaf moved t' := by
  cases h with
  | mk _ _ _ _ _ items_left items_right length_eq items properties_iff keyed_left keyed_right keys_eq
    same_keys properties exclusive exclusive_eq required required_eq =>
    rw [← ht.items] at items_left
    rw [← ht'.items] at items_right
    rw [← ht.properties, ← ht'.properties] at properties_iff keys_eq same_keys properties
    rw [← ht.properties] at keyed_left
    rw [← ht'.properties] at keyed_right
    rw [← ht.exclusive, ← ht'.exclusive] at exclusive exclusive_eq
    rw [← ht.required, ← ht'.required] at required required_eq
    exact .mk type_eq nullable_eq default_eq description_eq enum items_left items_right length_eq items
      properties_iff keyed_left keyed_right keys_eq same_keys properties exclusive exclusive_eq
      required required_eq

theorem close_of_simple (hitems : s.items = []) (hproperties : s.properties = none)
    (hexclusive : s.exclusive = []) (hrequired : s.required = []) {enum : Option (List Value)}
    (henum : Option.Rel (List.Forall₂ leaf) s.enum enum)
    : s.Close leaf moved { s with enum := enum } := by
  have hnil : s.items = (ofItems []).items := hitems
  refine Close.mk rfl rfl rfl rfl henum hnil hnil rfl ?_ rfl ?_ ?_ ?_ ?_ ?_ ?_ ?_ ?_ ?_
  all_goals simp [hproperties, hexclusive, hrequired, Table.keyed_nil]

theorem close_any : Schema.any.Close leaf moved .any := by
  exact close_of_simple rfl rfl rfl rfl .none

theorem Close.describe (h : s.Close leaf moved s') (d : Value)
    : (s.describe d).Close leaf moved (s'.describe d) := by
  have hframes := frames_describe s d
  have hframes' := frames_describe s' d
  unfold Schema.describe at *
  split
  . exact h
  . next hnull =>
    rw [if_neg hnull] at hframes hframes'
    have hclose := h
    cases hclose with
    | mk type_eq nullable_eq default_eq _ enum =>
      exact h.of_frames hframes hframes' type_eq nullable_eq default_eq rfl enum

theorem null_memberOf_congr {vs vs' : List Value}
    (hleaf : ∀ v v', leaf v v' → Value.null.same v = Value.null.same v')
    (h : List.Forall₂ leaf vs vs') : Value.null.memberOf vs = Value.null.memberOf vs' := by
  unfold Value.memberOf
  induction h with
  | nil => rfl
  | cons hv _ ih => rw [List.any_cons, List.any_cons, ih, hleaf _ _ hv]

theorem Close.admitNull (hnull : leaf .null .null)
    (hleaf : ∀ v v', leaf v v' → Value.null.same v = Value.null.same v') (h : s.Close leaf moved s')
    : s.admitNull.Close leaf moved s'.admitNull := by
  have hclose := h
  cases hclose with
  | mk type_eq nullable_eq default_eq description_eq enum =>
    cases htype : s.type with
    | some type =>
      rw [admitNull_of_type htype, admitNull_of_type (type_eq ▸ htype)]
      exact h.of_frames ⟨rfl, rfl, rfl, rfl⟩ ⟨rfl, rfl, rfl, rfl⟩ type_eq rfl default_eq
        description_eq enum
    | none =>
      generalize hvs : s.enum = vs?, hvs' : s'.enum = vs'? at enum
      cases enum with
      | none =>
        rw [admitNull_of_none htype hvs, admitNull_of_none (type_eq ▸ htype) hvs']
        exact h
      | some hvalues =>
        rw [admitNull_of_enum htype hvs, admitNull_of_enum (type_eq ▸ htype) hvs',
          null_memberOf_congr hleaf hvalues]
        split
        . exact h
        . refine Close.of_frames h ?_ ?_ type_eq nullable_eq default_eq description_eq ?_
          . exact ⟨rfl, rfl, rfl, rfl⟩
          . exact ⟨rfl, rfl, rfl, rfl⟩
          . exact .some (List.rel_append hvalues (.cons hnull .nil))

theorem close_ofItems {ts ts' : List Schema} (h : List.Forall₂ (Close leaf moved) ts ts')
    : (ofItems ts).Close leaf moved (ofItems ts') := by
  obtain ⟨items, hitems, -⟩ := Registry.ofItems_eq ts
  obtain ⟨items', hitems', -⟩ := Registry.ofItems_eq ts'
  rw [List.forall₂_iff_zip] at h
  have hkept : items = (ofItems ts).items := by rw [hitems]
  have hkept' : items' = (ofItems ts').items := by rw [hitems']
  rw [hitems, hitems']
  refine Close.mk rfl rfl rfl rfl .none hkept hkept' h.1 (fun t t' => h.2) rfl ?_ ?_ ?_ ?_ ?_ ?_ ?_ ?_ ?_
  all_goals simp [Table.keyed_nil]

end Close

section Gathered

variable {g g' : Gathered}

/--
The same has been gathered for two objects, as far as keys that exclude each other and keys that an
object has to have are concerned. The properties are in a given relation.
-/
structure Gathered.Near (moved : Prop) (related : Table Schema → Table Schema → Prop)
    (g g' : Gathered) : Prop where
  properties : related g.properties g'.properties
  exclusive : List.Forall₂ SameKeys g.exclusive g'.exclusive
  exclusive_eq : ¬ moved → g.exclusive = g'.exclusive
  required_eq : g.required = g'.required

namespace Gathered

theorem near_empty : Near moved (Table.Feeds moved (Close leaf moved)) {} {} where
  properties := Table.linked_nil.feeds
  exclusive := .nil
  exclusive_eq := fun _ => rfl
  required_eq := rfl

theorem feeds_properties {ss ss' : List Schema} (h : List.Forall₂ (Close leaf moved) ss ss')
    : Table.Feeds moved (Close leaf moved) (ss.flatMap fun s => s.properties.getD [])
        (ss'.flatMap fun s => s.properties.getD []) := by
  induction h with
  | nil => exact Table.linked_nil.feeds
  | cons hclose _ ih => exact hclose.linked.feeds.append ih

theorem near_ofOptions {ss ss' : List Schema} (h : List.Forall₂ (Close leaf moved) ss ss')
    : Near moved (Table.Feeds moved (Close leaf moved)) (ofOptions ss) (ofOptions ss') := by
  have hfeeds := feeds_properties h
  have hkeys := hfeeds.sameKeys
  have hempty := hkeys.isEmpty_eq
  refine ⟨hfeeds, ?_, ?_, rfl⟩
  . unfold ofOptions
    dsimp only
    rw [← hempty]
    split
    . exact .nil
    . exact .cons hkeys .nil
  . intro hmoved
    unfold ofOptions
    dsimp only
    rw [addKeys_eq, addKeys_eq, hfeeds.keys_eq hmoved]

theorem near_foldl_add {gs gs' : List Gathered}
    (h : Near moved (Table.Linked moved (Close leaf moved)) g g')
    (hs : List.Forall₂ (Near moved (Table.Feeds moved (Close leaf moved))) gs gs')
    : Near moved (Table.Linked moved (Close leaf moved)) (gs.foldl add g) (gs'.foldl add g') := by
  induction hs generalizing g g' with
  | nil => exact h
  | @cons later later' _ _ hlater _ ih =>
    apply ih
    constructor
    . exact hlater.properties.union _ _ h.properties
    . exact List.rel_append h.exclusive hlater.exclusive
    . intro hmoved
      rw [add, add, h.exclusive_eq hmoved, hlater.exclusive_eq hmoved]
    . rw [add, add, h.required_eq, hlater.required_eq]

theorem Near.schema (h : Near moved (Table.Linked moved (Close leaf moved)) g g')
    : g.schema.Close leaf moved g'.schema := by
  have hitems : [] = (ofItems []).items := rfl
  have hnone : ∀ t t', (t, t') ∈ ([] : List Schema).zip [] → t.Close leaf moved t' := by simp
  have hrequired : g.schema.required = g'.schema.required := h.required_eq
  exact Close.mk rfl rfl rfl rfl .none hitems hitems rfl hnone rfl h.properties.keyed_left
    h.properties.keyed_right h.properties.keys_eq h.properties.same_keys h.properties.related
    h.exclusive h.exclusive_eq (fun k _ hk => hrequired ▸ hk) fun _ => hrequired

end Gathered

end Gathered

section Bare

variable {x : Element}

theorem holds_of_given {name : String} {v : Value} (h : (name, v) ∈ s.given) (hx : v.Holds x)
    : s.toValue.Holds x := by
  rw [toValue_eq_ofFields]
  exact .entryValue (List.mem_map_of_mem h) hx

theorem bare_of_enum {vs : List Value} {v : Value} (hs : s.toValue.Bare) (h : s.enum = some vs)
    (hv : v ∈ vs) : v.Bare := by
  intro x hx
  exact hs x (holds_of_given (enum_mem_given.2 ⟨vs, h, rfl⟩) (.list hv hx))

theorem exists_items_given (h : t ∈ s.items)
    : ∃ v, ("items", v) ∈ s.given ∧ ∀ x, t.toValue.Holds x → v.Holds x := by
  simp only [mem_given, arguments]
  revert h
  generalize s.items = items
  intro h
  cases items with
  | nil => contradiction
  | cons first rest =>
    cases rest with
    | nil =>
      rw [List.mem_singleton] at h
      exact ⟨first.toValue, by simp [itemsValue], fun x hx => h ▸ hx⟩
    | cons second rest =>
      refine ⟨.object (Table.ofFields [("anyOf", .list ((first :: second :: rest).map toValue))]),
        by simp [itemsValue, Table.ofFields], ?_⟩
      intro x hx
      exact .entryValue (List.mem_singleton_self _) (.list (List.mem_map_of_mem h) hx)

theorem bare_of_items {ts : List Schema} (hs : s.toValue.Bare) (hitems : s.items = (ofItems ts).items)
    (ht : t ∈ ts) : t.toValue.Bare := by
  obtain ⟨items, heq, -, hall⟩ := Registry.ofItems_eq ts
  rw [heq] at hitems
  have hkept : ∀ t ∈ items, t.toValue.Bare := by
    intro t ht x hx
    obtain ⟨v, hv, hholds⟩ := exists_items_given (hitems ▸ ht : t ∈ s.items)
    exact hs x (holds_of_given hv (hholds x hx))
  rcases hall t ht with ht | ⟨t', ht', hsame⟩
  . exact hkept t ht
  . intro x hx
    obtain ⟨y, hy⟩ := hx.exists_of_same hsame
    exact hkept t' ht' y hy

theorem bare_of_get? {k : Value} (hs : s.toValue.Bare)
    (h : Table.get? (s.properties.getD []) k = some t) : t.toValue.Bare := by
  obtain ⟨key, hmem, -⟩ := Table.mem_of_get? h
  cases hproperties : s.properties with
  | none =>
    rw [hproperties] at hmem
    contradiction
  | some ps =>
    rw [hproperties, Option.getD_some] at hmem
    intro x hx
    apply hs x (holds_of_given (properties_mem_given.2 ⟨ps, hproperties, rfl⟩) ?_)
    exact .entryValue (List.mem_map_of_mem hmem) hx

/--
Parts that no element stands in may be related more closely. Whether any stand in the second schema
need not be known.
-/
theorem Close.mono_of_bare {known : Prop} (h : s.Close leaf moved s') (hs : s.toValue.Bare)
    (hs' : known → s'.toValue.Bare)
    (hleaf : ∀ v v', leaf v v' → v.Bare → (known → v'.Bare) → leaf' v v')
    : s.Close leaf' moved s' := by
  induction h with
  | @mk s s' ts ts' type_eq nullable_eq default_eq description_eq enum items_left items_right length_eq
    _ properties_iff keyed_left keyed_right keys_eq same_keys _ exclusive exclusive_eq required
    required_eq ih_items ih_properties =>
    refine Close.mk type_eq nullable_eq default_eq description_eq ?_ items_left items_right length_eq ?_
      properties_iff keyed_left keyed_right keys_eq same_keys ?_ exclusive exclusive_eq required
      required_eq
    . generalize hvs : s.enum = vs?, hvs' : s'.enum = vs'? at enum
      cases enum with
      | none => exact .none
      | some hvalues =>
        rw [List.forall₂_iff_zip] at hvalues
        refine .some (List.forall₂_iff_zip.2 ⟨hvalues.1, fun {v v'} hmem => ?_⟩)
        obtain ⟨hv, hv'⟩ := List.of_mem_zip hmem
        exact hleaf v v' (hvalues.2 hmem) (bare_of_enum hs hvs hv)
          fun hknown => bare_of_enum (hs' hknown) hvs' hv'
    . intro t t' hmem
      obtain ⟨ht, ht'⟩ := List.of_mem_zip hmem
      exact ih_items t t' hmem (bare_of_items hs items_left ht)
        fun hknown => bare_of_items (hs' hknown) items_right ht'
    . intro k t t' hk ht ht'
      exact ih_properties k t t' hk ht ht' (bare_of_get? hs ht)
        fun hknown => bare_of_get? (hs' hknown) ht'

theorem Close.mono (h : s.Close leaf moved s') (hs : s.toValue.Bare) (hs' : s'.toValue.Bare)
    (hleaf : ∀ v v', leaf v v' → v.Bare → v'.Bare → leaf' v v') : s.Close leaf' moved s' := by
  exact h.mono_of_bare hs (fun _ : True => hs') fun v v' hv hbare hbare' =>
    hleaf v v' hv hbare (hbare' trivial)

theorem eq_of_choices {vs? vs'? : Option (List Value)} (h : Option.Rel (List.Forall₂ Eq) vs? vs'?)
    : vs? = vs'? := by
  cases h with
  | none => rfl
  | some hvalues =>
    rw [List.forall₂_eq_eq_eq] at hvalues
    rw [hvalues]

theorem eq_of_getD {ps? ps'? : Option (Table Schema)} (hsome : ps?.isSome = ps'?.isSome)
    (h : ps?.getD [] = ps'?.getD []) : ps? = ps'? := by
  cases ps? with
  | none =>
    cases ps'? with
    | none => rfl
    | some ps' => contradiction
  | some ps =>
    cases ps'? with
    | none => contradiction
    | some ps' => exact congrArg some h

theorem Close.eq (h : s.Close Eq False s') : s = s' := by
  induction h with
  | @mk s s' ts ts' type_eq nullable_eq default_eq description_eq enum items_left items_right length_eq
    _ properties_iff keyed_left keyed_right keys_eq _ _ _ exclusive_eq _ required_eq ih_items
    ih_properties =>
    have henum : s.enum = s'.enum := eq_of_choices enum
    have hitems : s.items = s'.items := by
      have hts : List.Forall₂ Eq ts ts' :=
        List.forall₂_iff_zip.2 ⟨length_eq, fun {t t'} => ih_items t t'⟩
      rw [List.forall₂_eq_eq_eq] at hts
      rw [items_left, items_right, hts]
    have hproperties : s.properties = s'.properties := by
      apply eq_of_getD properties_iff
      apply Table.eq_of_keys_eq (keys_eq not_false)
      intro p hp p' hp' hkey
      apply ih_properties p.1 p.2 p'.2 (keyed_left.hashable p hp) (keyed_left.get?_of_mem hp)
      rw [hkey]
      exact keyed_right.get?_of_mem hp'
    have hexclusive := exclusive_eq not_false
    have hrequired := required_eq not_false
    cases s
    cases s'
    simp_all

end Bare

end Schema

end ApiElements
