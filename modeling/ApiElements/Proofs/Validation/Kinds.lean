import ApiElements.Proofs.Validation.Traces

/-!
This module contains that schemas of literals, of choices, of arrays and of objects accept the
examples, given that those of their parts do.
-/

namespace ApiElements

namespace Schema

theorem satisfied_any (v : Value) : Schema.any.Satisfied v := by
  constructor
  all_goals simp [Schema.any]

theorem satisfied_ofLiteral {type : SchemaType} {e : Element} {s : Schema} {v : Value}
    (h : ofLiteral type e = .ok s) (hv : Draft4.typeName? v = some type.name)
    : s.Satisfied v := by
  obtain ⟨default, -, rfl⟩ := ofLiteral_eq_ok.1 h
  constructor
  . rintro t ht
    injection ht with ht
    subst ht
    exact typeHolds_of_typeName? hv
  all_goals simp

end Schema

namespace Registry

variable {r : Registry} {root e : Element} {depth : Nat} {s : Schema} {v : Value}

/--
Examples of whole values that the compilation reaches, down to a depth, are valid.
-/
def Sound (r : Registry) (root : Element) (depth : Nat) : Prop :=
  ∀ e depth' v s, r.Reached root ⟨e, true⟩ → (r.exampleWithin depth (.element e)).result = .ok v →
    (r.schemaWithin depth' (.element e)).result = .ok s → s.Satisfied v

section Kinds

open Draft4

theorem typeName?_boolean (h : Kind.HasLiteral .boolean v) : typeName? v = some "boolean" := by
  cases h with
  | boolean b => rfl

theorem typeName?_string (h : Kind.HasLiteral .string v) : typeName? v = some "string" := by
  cases h with
  | string s => rfl

theorem typeName?_number (h : Kind.HasLiteral .number v) : typeName? v = some "number" := by
  cases h with
  | number finite =>
    unfold Value.isFiniteNumber at finite
    split at finite
    . rfl
    . rfl
    . rfl
    . contradiction

theorem satisfied_literalOr {type : SchemaType} {placeholder : Value}
    (hcontent : e.content = .null ∨ e.kind.HasLiteral e.content)
    (hplaceholder : typeName? placeholder = some type.name)
    (hliteral : e.kind.HasLiteral e.content → typeName? e.content = some type.name)
    (hs : Schema.ofLiteral type e = .ok s)
    : s.Satisfied (Example.literalOr e.content placeholder) := by
  apply Schema.satisfied_ofLiteral hs
  unfold Example.literalOr
  split
  . exact hplaceholder
  . next hnull =>
    rcases hcontent with hcontent | hcontent
    . rw [hcontent] at hnull
      contradiction
    . exact hliteral hcontent

theorem equalsLiteral_self {literal : Value} (hhashable : literal.hashable = true)
    (hbool : ∀ b, literal ≠ .bool b) : equalsLiteral literal literal = true := by
  cases literal with
  | bool b => exact absurd rfl (hbool b)
  | _ => exact Value.same_self hhashable

end Kinds

section Items

theorem truthy_of_items {xs : List Value} (h : v.items = .ok xs)
    (helement : ∀ y ∈ xs, ∃ e, y = .element e) (hxs : xs ≠ []) : v.truthy = true := by
  obtain ⟨x, rest, rfl⟩ := List.exists_cons_of_ne_nil hxs
  obtain ⟨e, rfl⟩ := helement x (by simp)
  cases v with
  | list items =>
    injection h with h
    rw [h]
    rfl
  | tuple items =>
    injection h with h
    rw [h]
    rfl
  | set items =>
    injection h with h
    rw [h]
    rfl
  | text s =>
    injection h with h
    obtain ⟨c, -, -, heq, -⟩ := List.map_eq_cons_iff.1 h
    contradiction
  | bytes data =>
    injection h with h
    obtain ⟨b, -, -, heq, -⟩ := List.map_eq_cons_iff.1 h
    contradiction
  | object entries =>
    injection h with h
    obtain ⟨entry, rest', rfl, -, -⟩ := List.map_eq_cons_iff.1 h
    rfl
  | _ => simp [Value.items] at h

theorem mem_items_of_first {xs : List Value} {x : Value} (h : v.items = .ok xs)
    (helement : ∀ y ∈ xs, ∃ e, y = .element e) (hx : v.first = .ok x) : x ∈ xs := by
  unfold Value.first at hx
  split at hx
  . injection h with h
    injection hx with hx
    rw [← h, ← hx]
    simp
  . injection h with h
    injection hx with hx
    rw [← h, ← hx]
    simp
  . contradiction
  . contradiction
  . next s =>
    injection h with h
    split at hx
    . next c cs hcs =>
      rw [hcs] at h
      obtain ⟨e, he⟩ := helement (.text (String.singleton c)) (by rw [← h]; simp)
      contradiction
    . contradiction
  . next b bs =>
    injection h with h
    obtain ⟨e, he⟩ := helement (.int b.toNat) (by rw [← h]; simp)
    contradiction
  . contradiction
  . next entries =>
    injection h with h
    split at hx
    . next found hfound =>
      -- A key that is equal to zero is no element.
      obtain ⟨key, hmem, hsame⟩ := Table.mem_of_get? hfound
      obtain ⟨e, rfl⟩ := helement key (by rw [← h]; exact List.mem_map_of_mem hmem)
      simp [Value.same, Value.number?] at hsame
    . contradiction
  . contradiction

theorem satisfied_ofItems {items xs : List Value} {schemas : List Schema} {depth' : Nat}
    (hsound : r.Sound root depth) (htraced : r.Traced root depth')
    (hreached : ∀ x, .element x ∈ items → r.Reached root ⟨x, true⟩)
    (hxs : items.mapM (fun item => (r.exampleWithin depth item).result) = .ok xs)
    (hschemas : items.mapM (fun item => (r.schemaWithin depth' item).result) = .ok schemas)
    : (Schema.ofItems schemas).Satisfied (.list xs) := by
  have hown : ∀ x ∈ xs, ∃ t ∈ schemas, Draft4.accepts t.toValue x = true := by
    intro x hx
    obtain ⟨item, hitem, hx⟩ := Outcome.exists_of_mem_mapM hxs hx
    obtain ⟨t, ht, hschema⟩ := Outcome.exists_mem_of_mapM hschemas hitem
    obtain ⟨e, rfl⟩ := exists_element_of_schemaWithin hschema
    refine ⟨t, ht, ?_⟩
    rw [Schema.accepts_toValue_iff]
    exact hsound e depth' x t (hreached e hitem) hx hschema
  have hregular : ∀ t ∈ schemas, t.Regular := by
    intro t ht
    obtain ⟨item, hitem, hschema⟩ := Outcome.exists_of_mem_mapM hschemas ht
    obtain ⟨e, rfl⟩ := exists_element_of_schemaWithin hschema
    exact (htraced e true t (hreached e hitem) hschema).1
  obtain ⟨kept, heq, hkept, hall⟩ := ofItems_eq schemas
  rw [heq]
  constructor
  . rintro t ht
    injection ht with ht
    subst ht
    exact Schema.typeHolds_of_typeName? rfl
  . simp
  . intro _ ys hys x hx
    injection hys with hys
    subst hys
    obtain ⟨t, ht, haccepts⟩ := hown x hx
    -- If the schema was folded into an equal one, that one accepts the same values.
    rcases hall t ht with hmem | ⟨t', hmem, hsame⟩
    . exact ⟨t, hmem, haccepts⟩
    . refine ⟨t', hmem, ?_⟩
      rw [← Draft4.accepts_congr (hregular t ht).fair (hregular t' (hkept t' hmem)).fair hsame]
      exact haccepts
  all_goals simp

end Items

section Object

variable {depth' : Nat} {t : Table Value} {g : Schema.Gathered} {ms ms' : List Element}

theorem accepts_property {x : Value} (hsound : ∀ n ≤ depth, r.Sound root n)
    {m m' : Element} (hsample : r.Sampled depth m x) (hdescribed : r.Described root m' s)
    (hshared : ∀ v v', m.value = .ok v → m'.value = .ok v' → v = v' ∨ r.Fits v v')
    : s.Satisfied x := by
  obtain ⟨v, n, hv, hn, hx⟩ := hsample
  obtain ⟨-, ⟨-, hwidens⟩ | ⟨y, n', s', hv', hreached, hs', hwidens⟩⟩ := hdescribed
  . exact hwidens.satisfied x (Schema.satisfied_any x)
  . apply hwidens.satisfied
    -- Only a value that both members have is smaller than the object; else the values have to fit.
    rcases hshared v (.element y) hv hv' with rfl | hfits
    . exact hsound n hn y n' x s' hreached hx hs'
    . exact Schema.accepts_toValue_iff.1 (hfits n n' x s' hx hs')

theorem exists_not_has {ks : List Value} {found : List Element}
    (ht : Tracks (r.Sampled depth) ms t) (hlists : Lists found ks)
    (hspared : ∃ m ∈ found, ∃ k, m.key = .ok k ∧ lastWith ms k = none)
    : ∃ k ∈ ks, Table.has t k = false := by
  obtain ⟨m, hm, k, hkey, hnone⟩ := hspared
  obtain ⟨k', hkey', hhashable⟩ := hlists.named m hm
  rw [hkey] at hkey'
  injection hkey' with hkey'
  subst hkey'
  have hmember := hlists.memberOf k hhashable
  rw [isSome_lastWith hm hkey hhashable, Value.memberOf, List.any_eq_true] at hmember
  obtain ⟨key, hmem, hsame⟩ := hmember
  refine ⟨key, hmem, ?_⟩
  rw [has_eq_isSome_get?, ← Table.get?_congr hhashable (hlists.hashable key hmem) hsame t,
    ht.isSome_get? hhashable, hnone]
  rfl

theorem satisfied_object (hagrees : r.Agrees e) (hsound : ∀ n ≤ depth, r.Sound root n)
    (ht : (r.exampleObjectWithin depth e.content).result = .ok t)
    (hms' : (r.offeredIn depth' e.content).result = .ok ms')
    (hg : r.Gathers root (r.scan e.content) g ms') : g.schema.Satisfied (.object t) := by
  obtain ⟨ms, hms, htracks⟩ := exists_taken ht
  constructor
  . rintro type htype
    injection htype with htype
    subst htype
    exact Schema.typeHolds_of_typeName? rfl
  . simp [Schema.Gathered.schema]
  . simp [Schema.Gathered.schema]
  . rintro ps hps es hes p hp x hx
    injection hps with hps
    injection hes with hes
    subst hps hes
    have hkey := hg.properties.keyed.hashable p hp
    -- The key is described by one member and taken from another, which agree on it.
    obtain ⟨m', hm', hdescribed⟩ :=
      hg.properties.exists_of_get? hkey (hg.properties.keyed.get?_of_mem hp)
    obtain ⟨m, hm, hsample⟩ := htracks.exists_of_get? hkey hx
    rw [Schema.accepts_toValue_iff]
    exact accepts_property hsound hsample hdescribed
      (hagrees.shared depth depth' ms ms' hms hms' p.1 hkey m m' hm hm')
  . intro ks hks
    obtain ⟨hne, selection, n, found, hmem, hselect, hfound, hlists⟩ := hg.exclusive ks hks
    obtain ⟨entries, hentries, hscan⟩ := exists_expand_of_taken hms
    refine ⟨t, rfl, exists_not_has htracks hlists ?_⟩
    exact hagrees.spared depth n ms entries hms hentries selection (hscan _ hmem) hselect found
      hfound (hlists.ne_nil hne)
  . rintro es hes k hk
    injection hes with hes
    subst hes
    obtain ⟨hkey, m, hmem, hmember, hmkey⟩ := hg.required k hk
    rw [has_eq_isSome_get?, htracks.isSome_get? hkey]
    exact isSome_lastWith (mem_of_taken hms hmem hmember) hmkey hkey

end Object

theorem not_hasLiteral_null {kind : Kind} : ¬ kind.HasLiteral .null := by
  intro h
  cases h with
  | number finite => contradiction

theorem content_of_example (hkind : e.kind = .string ∨ e.kind = .number)
    (hcontent : e.kind.HasLiteral e.content)
    (hv : (r.exampleWithin depth (.element e)).result = .ok v) : e.content = v := by
  have hnull : e.content.isNull = false := by
    cases hcontent' : e.content with
    | null =>
      rw [hcontent'] at hcontent
      exact absurd hcontent not_hasLiteral_null
    | _ => rfl
  cases depth with
  | zero => contradiction
  | succ depth =>
    rw [exampleWithin] at hv
    rcases hkind with hkind | hkind
    . simp only [hkind, Example.literalOr, hnull] at hv
      injection hv
    . simp only [hkind, Example.literalOr, hnull] at hv
      injection hv

theorem satisfied_ofChoice (hformed : e.WellFormed) (hkind : e.kind = .enum)
    (hv : (r.exampleWithin (depth + 1) (.element e)).result = .ok v)
    (hs : Schema.ofChoice e = .ok s) : s.Satisfied v := by
  obtain ⟨variants, hvariants, hne, hliteral⟩ := hformed.variants hkind
  have helement : ∀ y ∈ variants, ∃ x, y = .element x := by
    intro y hy
    obtain ⟨x, rfl, -, -⟩ := hliteral y hy
    exact ⟨x, rfl⟩
  rw [exampleWithin] at hv
  simp only [hkind, truthy_of_items hvariants helement hne, if_true, Logged.result_bind,
    Logged.result_liftM, Outcome.bind_eq_ok] at hv
  obtain ⟨first, hfirst, hv⟩ := hv
  have hmem := mem_items_of_first hvariants helement hfirst
  obtain ⟨x, rfl, hx, hcontent⟩ := hliteral first hmem
  have hhashable := hashable_of_hasLiteral hx hcontent
  have hexample := content_of_example hx hcontent hv
  obtain ⟨variants', hvariants', rfl⟩ := Schema.ofChoice_eq_ok.1 hs
  rw [hvariants, Except.ok.injEq] at hvariants'
  subst hvariants'
  constructor
  . simp
  . rintro vs hvs
    injection hvs with hvs
    subst hvs
    refine ⟨x.content, List.mem_map.2 ⟨_, hmem, rfl⟩, ?_⟩
    rw [← hexample]
    exact equalsLiteral_self hhashable.1 hhashable.2
  all_goals simp

end Registry

end ApiElements
