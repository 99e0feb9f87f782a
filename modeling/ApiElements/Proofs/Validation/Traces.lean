import ApiElements.Proofs.Validation.Reached
import ApiElements.Proofs.Validation.Satisfied

/-!
This module contains where the entries of an example come from, and where the properties of a schema
do: each key goes back to the last of the members that were collected with it.
-/

namespace ApiElements

namespace Registry

variable {r : Registry}

def Sampled (r : Registry) (depth : Nat) (m : Element) (x : Value) : Prop :=
  ∃ v n, m.value = .ok v ∧ n ≤ depth ∧ (r.exampleWithin n v).result = .ok x

theorem sampled_mono {depth depth' : Nat} (hle : depth ≤ depth') {m : Element} {x : Value}
    (h : r.Sampled depth m x) : r.Sampled depth' m x := by
  obtain ⟨v, n, hv, hn, hx⟩ := h
  exact ⟨v, n, hv, Nat.le_trans hn hle, hx⟩

theorem exampleVisit_passedOver {depth : Nat} {t : Table Value} {v : Value} (h : PassedOver v)
    : r.exampleVisit depth t v = pure t := by
  unfold exampleVisit
  split
  . next e =>
    obtain ⟨hselect, hmember⟩ := h e rfl
    split
    . contradiction
    . contradiction
    . rfl
  . rfl

theorem takenBy_of_visit {depth : Nat} {e : Element} (hkind : e.kind = .select)
    (hchosen : ∀ content t, (r.exampleObjectWithin depth content).result = .ok t →
      ∃ ms, (r.taken depth content).result = .ok ms ∧ Tracks (r.Sampled depth) ms t)
    {t t' : Table Value} {ms : List Element} (ht : Tracks (r.Sampled (depth + 1)) ms t)
    (h : (r.exampleVisit depth t (.element e)).result = .ok t')
    : ∃ found, (r.takenBy depth e).result = .ok found
        ∧ Tracks (r.Sampled (depth + 1)) (ms ++ found) t' := by
  unfold exampleVisit at h
  unfold takenBy
  simp only [hkind] at h
  split at h
  . next htruthy =>
    rw [if_pos htruthy]
    simp only [Logged.result_bind, Logged.result_liftM, Logged.result_map, Outcome.bind_eq_ok,
      Outcome.map_eq_ok] at h ⊢
    obtain ⟨variant, hvariant, chosen, hcontent, inner, hinner, rfl⟩ := h
    obtain ⟨found, hfound, htracks⟩ := hchosen chosen inner hinner
    refine ⟨found, ⟨variant, hvariant, chosen, hcontent, hfound⟩, ht.union (htracks.mono ?_)⟩
    exact fun m x => sampled_mono (Nat.le_succ depth)
  . next htruthy =>
    rw [if_neg htruthy]
    injection h with h
    subst h
    refine ⟨[], rfl, ?_⟩
    rw [List.append_nil]
    exact ht

theorem exampleVisit_member_eq_ok {depth : Nat} {e : Element} (hkind : e.kind = .member)
    {t t' : Table Value} (h : (r.exampleVisit depth t (.element e)).result = .ok t')
    : ∃ key x, e.key = .ok key ∧ key.hashable = true ∧ r.Sampled (depth + 1) e x
        ∧ t' = t.put key x := by
  unfold exampleVisit at h
  simp only [hkind, Logged.result_bind, Logged.result_liftM, Outcome.bind_eq_ok] at h
  obtain ⟨value, hvalue, h⟩ := h
  have hsampled : ∃ x, r.Sampled (depth + 1) e x ∧ ∃ key, e.key = .ok key ∧
      ∃ k, key.asKey = .ok k ∧ t.put k x = t' := by
    split at h
    . next hnull =>
      simp only [Logged.pure_result, Outcome.ok_bind, Logged.result_bind, Logged.result_liftM,
        Outcome.bind_eq_ok, Except.ok.injEq] at h
      rw [Value.isNull_iff] at hnull
      subst hnull
      exact ⟨.null, ⟨.null, 1, hvalue, by omega, rfl⟩, h⟩
    . simp only [Logged.pure_result, Logged.result_bind, Logged.result_liftM, Outcome.bind_eq_ok,
        Except.ok.injEq] at h
      obtain ⟨x, hx, h⟩ := h
      exact ⟨x, ⟨value, depth, hvalue, Nat.le_succ depth, hx⟩, h⟩
  obtain ⟨x, hx, key, hkey, k, hk, rfl⟩ := hsampled
  obtain ⟨hhashable, rfl⟩ := Value.asKey_eq_ok.1 hk
  exact ⟨key, x, hkey, hhashable, hx, rfl⟩

theorem exists_taken {depth : Nat} {content : Value} {t : Table Value}
    (h : (r.exampleObjectWithin depth content).result = .ok t)
    : ∃ ms, (r.taken depth content).result = .ok ms ∧ Tracks (r.Sampled depth) ms t := by
  induction depth generalizing content t with
  | zero => contradiction
  | succ depth ih =>
    rw [exampleObjectWithin_succ] at h
    rw [taken_succ]
    -- The walk that collects the members keeps up with the one that makes the entries.
    apply walk_simulates (R := fun t ms => Tracks (r.Sampled (depth + 1)) ms t) ?_ Tracks.nil h
    intro v _ t ms t' ht hvisit
    rcases select_or_member_or_passedOver v with ⟨e, rfl, hselect⟩ | ⟨e, rfl, hmember⟩ | hpassed
    . obtain ⟨found, hfound, htracks⟩ := takenBy_of_visit hselect (fun _ _ => ih) ht hvisit
      rw [collectVisit_select hselect, Logged.result_map, hfound]
      exact ⟨ms ++ found, rfl, htracks⟩
    . obtain ⟨key, x, hkey, hhashable, hx, rfl⟩ := exampleVisit_member_eq_ok hmember hvisit
      rw [collectVisit_member hmember]
      exact ⟨ms ++ [e], rfl, ht.put hkey hhashable hx⟩
    . rw [exampleVisit_passedOver hpassed] at hvisit
      injection hvisit with hvisit
      subst hvisit
      rw [collectVisit_passedOver hpassed]
      exact ⟨ms, rfl, ht⟩

/--
A schema is regular and covers the schema of the value of a member, which the compilation reaches.
-/
def Described (r : Registry) (root m : Element) (s : Schema) : Prop :=
  s.Regular ∧ ((m.value = .ok .null ∧ s.Widens .any) ∨ ∃ x depth s', m.value = .ok (.element x) ∧
    r.Reached root ⟨x, true⟩ ∧ (r.schemaWithin depth (.element x)).result = .ok s' ∧ s.Widens s')

/--
The schemas of what the compilation reaches, down to a depth, are regular, and their properties come
from the members that are collected for them.
-/
def Traced (r : Registry) (root : Element) (depth : Nat) : Prop :=
  ∀ e whole s, r.Reached root ⟨e, whole⟩ → (r.schemaWithin depth (.element e)).result = .ok s →
    s.Regular ∧ ∃ ms, (r.offered depth (.element e)).result = .ok ms
      ∧ Tracks (r.Described root) ms (s.properties.getD [])

/--
What has been gathered from some steps comes from members that were collected from them: properties
from all of them, required keys from those among the steps, and exclusive ones from selections.
-/
structure Gathers (r : Registry) (root : Element) (steps : List Step) (g : Schema.Gathered)
    (ms : List Element) : Prop where
  properties : Tracks (r.Described root) ms g.properties
  required : ∀ k ∈ g.required, k.hashable = true ∧
    ∃ m, .entry (.element m) ∈ steps ∧ m.kind = .member ∧ m.key = .ok k
  exclusive : ∀ ks ∈ g.exclusive, ks ≠ [] ∧
    ∃ s depth found, .entry (.element s) ∈ steps ∧ s.kind = .select ∧
      (r.offeredBy depth s).result = .ok found ∧ Lists found ks

theorem exists_element_of_schemaWithin {depth : Nat} {v : Value} {s : Schema}
    (h : (r.schemaWithin depth v).result = .ok s) : ∃ e, v = .element e := by
  cases depth with
  | zero => contradiction
  | succ depth =>
    cases v with
    | element e => exact ⟨e, rfl⟩
    | _ => contradiction

section Options

variable {root : Element} {depth : Nat} {options : List Value} {g g' : Schema.Gathered}
variable {keys keys' : List Value} {ms found : List Element}

theorem exists_offered_options (htraced : r.Traced root depth)
    (hreached : ∀ x, .element x ∈ options → r.Reached root ⟨x, false⟩)
    (hg : Tracks (r.Described root) ms g.properties) (hkeys : Lists found keys)
    (h : (options.foldlM (fun state option =>
      Schema.Gathered.addOption state <$> r.schemaWithin depth option) (g, keys)).result
        = .ok (g', keys'))
    : ∃ xss, (options.mapM (r.offered depth)).result = .ok xss
        ∧ Tracks (r.Described root) (ms ++ xss.flatten) g'.properties
        ∧ Lists (found ++ xss.flatten) keys'
        ∧ g'.required = g.required ∧ g'.exclusive = g.exclusive := by
  induction options generalizing g keys ms found with
  | nil =>
    injection h with h
    injection h with hg' hkeys'
    subst hg' hkeys'
    refine ⟨[], rfl, ?_, ?_, rfl, rfl⟩
    . rw [List.flatten_nil, List.append_nil]
      exact hg
    . rw [List.flatten_nil, List.append_nil]
      exact hkeys
  | cons option rest ih =>
    rw [List.foldlM_cons, Logged.result_bind, Logged.result_map, Outcome.bind_eq_ok] at h
    obtain ⟨state, hstate, h⟩ := h
    obtain ⟨s, hs, rfl⟩ := Outcome.map_eq_ok.1 hstate
    obtain ⟨e, rfl⟩ := exists_element_of_schemaWithin hs
    obtain ⟨-, xs, hxs, htracks⟩ := htraced e false s (hreached e (by simp)) hs
    -- The properties of an option are put in all at once, and so are its keys.
    rw [addOption_eq] at h
    obtain ⟨xss, hxss, hproperties, hlists, hrequired, hexclusive⟩ :=
      ih (fun x hx => hreached x (List.mem_cons_of_mem _ hx)) (hg.union htracks)
        (hkeys.addKeys htracks) h
    refine ⟨xs :: xss, ?_, ?_, ?_, hrequired, hexclusive⟩
    . rw [Logged.result_mapM, Outcome.mapM_cons_eq_ok]
      rw [Logged.result_mapM] at hxss
      exact ⟨xs, xss, hxs, hxss, rfl⟩
    . rw [List.flatten_cons, ← List.append_assoc]
      exact hproperties
    . rw [List.flatten_cons, ← List.append_assoc]
      exact hlists

end Options

/--
The compilation reaches what the members and the selections among some steps hold.
-/
structure Opened (r : Registry) (root : Element) (steps : List Step) : Prop where
  value : ∀ m x, .entry (.element m) ∈ steps → m.kind = .member → m.value = .ok (.element x) →
    r.Reached root ⟨x, true⟩
  option : ∀ s x options, .entry (.element s) ∈ steps → s.kind = .select →
    s.content.items = .ok options → .element x ∈ options → r.Reached root ⟨x, false⟩

theorem regular_any : Schema.any.Regular := by
  constructor
  all_goals simp [Schema.any]

section Gathers

variable {root e : Element} {depth : Nat} {steps : List Step} {g g' : Schema.Gathered}
variable {ms : List Element}

theorem schemaVisit_passedOver {v : Value} (h : PassedOver v) : r.schemaVisit depth g v = pure g := by
  unfold schemaVisit
  split
  . next e =>
    obtain ⟨hselect, hmember⟩ := h e rfl
    split
    . contradiction
    . contradiction
    . rfl
  . rfl

theorem Gathers.select (hg : r.Gathers root steps g ms) (htraced : r.Traced root depth)
    (hopened : r.Opened root steps) (hmem : .entry (.element e) ∈ steps) (hkind : e.kind = .select)
    (h : (r.schemaVisit depth g (.element e)).result = .ok g')
    : ∃ found, (r.offeredBy depth e).result = .ok found ∧ r.Gathers root steps g' (ms ++ found) := by
  unfold schemaVisit at h
  simp only [hkind, Logged.result_bind, Logged.result_liftM, Outcome.bind_eq_ok] at h
  obtain ⟨options, hoptions, ⟨g'', keys⟩, hfold, h⟩ := h
  injection h with h
  subst h
  obtain ⟨xss, hxss, hproperties, hlists, hrequired, hexclusive⟩ :=
    exists_offered_options htraced (fun x => hopened.option e x options hmem hkind hoptions)
      hg.properties Lists.nil hfold
  have hfound : (r.offeredBy depth e).result = .ok xss.flatten := by
    unfold offeredBy
    rw [Logged.result_bind, Logged.result_liftM, hoptions, Outcome.ok_bind, Logged.result_map, hxss]
    rfl
  refine ⟨xss.flatten, hfound, ?_⟩
  unfold Schema.Gathered.exclude
  split
  . constructor
    . exact hproperties
    . rw [hrequired]
      exact hg.required
    . rw [hexclusive]
      exact hg.exclusive
  . next hkeys =>
    constructor
    . exact hproperties
    . dsimp only
      rw [hrequired]
      exact hg.required
    . intro ks hks
      dsimp only at hks
      rw [hexclusive] at hks
      rcases List.mem_append.1 hks with hks | hks
      . exact hg.exclusive ks hks
      . rw [List.mem_singleton] at hks
        subst hks
        exact ⟨by simpa using hkeys, e, depth, xss.flatten, hmem, hkind, hfound, hlists⟩

theorem addMember_eq_ok {m : Element} {key : Value} {s : Schema}
    (h : g.addMember m key s = .ok g')
    : ∃ s', s.attribute m = .ok s' ∧ key.hashable = true ∧ g'.properties = g.properties.put key s'
        ∧ g'.exclusive = g.exclusive
        ∧ (g'.required = g.required ∨ g'.required = Schema.addKey g.required key) := by
  unfold Schema.Gathered.addMember at h
  simp only [Outcome.bind_eq_ok] at h
  obtain ⟨description, hdescription, attributes, hattributes, k, hk, h⟩ := h
  injection h with h
  subst h
  obtain ⟨hhashable, rfl⟩ := Value.asKey_eq_ok.1 hk
  refine ⟨_, ?_, hhashable, rfl, rfl, ?_⟩
  . unfold Schema.attribute
    rw [hdescription, Outcome.ok_bind, hattributes, Outcome.ok_bind]
  . dsimp only
    split
    . exact .inr rfl
    . exact .inl rfl

theorem described_of_value {v : Value} {s s' : Schema} (htraced : r.Traced root depth)
    (hvalue : e.value = .ok v) (hreached : ∀ x, v = .element x → r.Reached root ⟨x, true⟩)
    (hs : (if v.isNull then pure Schema.any else r.schemaWithin depth v).result = .ok s)
    (hwidens : s'.Widens s) : r.Described root e s' := by
  split at hs
  . next hnull =>
    injection hs with hs
    subst hs
    rw [Value.isNull_iff] at hnull
    subst hnull
    exact ⟨hwidens.regular regular_any, .inl ⟨hvalue, hwidens⟩⟩
  . obtain ⟨x, rfl⟩ := exists_element_of_schemaWithin hs
    have hx := hreached x rfl
    obtain ⟨hregular, -⟩ := htraced x true s hx hs
    exact ⟨hwidens.regular hregular, .inr ⟨x, depth, s, hvalue, hx, hs, hwidens⟩⟩

theorem Gathers.member (hg : r.Gathers root steps g ms) (htraced : r.Traced root depth)
    (hopened : r.Opened root steps) (hmem : .entry (.element e) ∈ steps) (hkind : e.kind = .member)
    (h : (r.schemaVisit depth g (.element e)).result = .ok g')
    : r.Gathers root steps g' (ms ++ [e]) := by
  unfold schemaVisit at h
  simp only [hkind, Logged.result_bind, Logged.result_liftM, Outcome.bind_eq_ok] at h
  obtain ⟨key, hkey, v, hvalue, h⟩ := h
  have hs : ∃ s, (if v.isNull then pure Schema.any else r.schemaWithin depth v).result = .ok s
      ∧ g.addMember e key s = .ok g' := by
    split at h
    . next hnull =>
      rw [if_pos hnull]
      exact ⟨Schema.any, rfl, h⟩
    . next hnull =>
      rw [if_neg hnull]
      rw [Logged.result_bind, Outcome.bind_eq_ok] at h
      exact h
  obtain ⟨s, hs, hadd⟩ := hs
  obtain ⟨s', hattribute, hhashable, hproperties, hexclusive, hrequired⟩ := addMember_eq_ok hadd
  constructor
  . rw [hproperties]
    apply hg.properties.put hkey hhashable
    apply described_of_value htraced hvalue ?_ hs (Schema.widens_attribute hattribute)
    rintro x rfl
    exact hopened.value e x hmem hkind hvalue
  . intro k hk
    rcases hrequired with hrequired | hrequired
    . rw [hrequired] at hk
      exact hg.required k hk
    . rw [hrequired] at hk
      unfold Schema.addKey at hk
      split at hk
      . exact hg.required k hk
      . rcases List.mem_append.1 hk with hk | hk
        . exact hg.required k hk
        . rw [List.mem_singleton] at hk
          subst hk
          exact ⟨hhashable, e, hmem, hkind, hkey⟩
  . rw [hexclusive]
    exact hg.exclusive

theorem Gathers.regular (hg : r.Gathers root steps g ms) : g.schema.Regular := by
  constructor
  . simp [Schema.Gathered.schema]
  . simp [Schema.Gathered.schema]
  . intro ps hps
    injection hps with hps
    subst hps
    exact hg.properties.keyed
  . intro ps hps p hp
    injection hps with hps
    subst hps
    have hfound := hg.properties.keyed.get?_of_mem hp
    obtain ⟨m, -, hdescribed⟩ :=
      hg.properties.exists_of_get? (hg.properties.keyed.hashable p hp) hfound
    exact hdescribed.1
  . intro ks hks
    obtain ⟨-, -, -, found, -, -, -, hlists⟩ := hg.exclusive ks hks
    exact hlists.hashable
  . exact fun k hk => (hg.required k hk).1

end Gathers

/--
The schemas of the objects and options that the compilation reaches, down to a depth, come from the
members that are collected for them.
-/
def ObjectTraced (r : Registry) (root : Element) (depth : Nat) : Prop :=
  ∀ e whole s, r.Reached root ⟨e, whole⟩ → e.kind = .object ∨ e.kind = .option →
    (r.schemaOfObjectWithin depth e.content).result = .ok s →
    ∃ g ms, s = g.schema ∧ (r.offeredIn depth e.content).result = .ok ms
      ∧ r.Gathers root (r.scan e.content) g ms

section Traced

variable {root e : Element} {whole : Bool} {depth : Nat} {s : Schema}

theorem opened_scan {entries : List Value} (hreached : r.Reached root ⟨e, whole⟩)
    (hkind : e.kind = .object ∨ e.kind = .option) (hentries : (r.expand e.content).result = .ok entries)
    (hscan : ∀ v, .entry v ∈ r.scan e.content → v ∈ entries) : r.Opened root (r.scan e.content) where
  value := fun _ _ hmem hmember hvalue =>
    hreached.tail (.entry hkind hentries (hscan _ hmem) (.value hmember hvalue))
  option := fun _ _ _ hmem hselect hoptions hx =>
    hreached.tail (.entry hkind hentries (hscan _ hmem) (.option hselect hoptions hx))

theorem objectTraced_zero : r.ObjectTraced root 0 := by
  intro e whole s _ _ h
  contradiction

theorem objectTraced_succ (htraced : r.Traced root depth) : r.ObjectTraced root (depth + 1) := by
  intro e whole s hreached hkind h
  rw [schemaOfObjectWithin_succ, Logged.result_bind, Outcome.bind_eq_ok] at h
  obtain ⟨g, hwalk, h⟩ := h
  injection h with h
  subst h
  obtain ⟨entries, hentries, hscan⟩ := exists_expand hwalk
  have hopened := opened_scan hreached hkind hentries hscan
  have hempty : r.Gathers root (r.scan e.content) {} [] := by
    constructor
    . exact Tracks.nil
    . simp
    . simp
  obtain ⟨ms, hms, hgathers⟩ : ∃ ms,
      (walk (collectVisit (r.offeredBy depth)) [] (r.scan e.content)).result = .ok ms
        ∧ r.Gathers root (r.scan e.content) g ms := by
    -- The same walk as for the example, but selections contribute all of their options.
    apply walk_simulates (R := fun g ms => r.Gathers root (r.scan e.content) g ms) ?_ hempty hwalk
    intro v hmem g ms g' hg hvisit
    rcases select_or_member_or_passedOver v with ⟨x, rfl, hselect⟩ | ⟨x, rfl, hmember⟩ | hpassed
    . obtain ⟨found, hfound, hg'⟩ := hg.select htraced hopened hmem hselect hvisit
      rw [collectVisit_select hselect, Logged.result_map, hfound]
      exact ⟨ms ++ found, rfl, hg'⟩
    . rw [collectVisit_member hmember]
      exact ⟨ms ++ [x], rfl, hg.member htraced hopened hmem hmember hvisit⟩
    . rw [schemaVisit_passedOver hpassed] at hvisit
      injection hvisit with hvisit
      subst hvisit
      rw [collectVisit_passedOver hpassed]
      exact ⟨ms, rfl, hg⟩
  refine ⟨g, ms, rfl, ?_, hgathers⟩
  rw [offeredIn_succ]
  exact hms

theorem regular_ofLiteral {type : SchemaType} (h : Schema.ofLiteral type e = .ok s)
    : s.Regular ∧ s.properties = none := by
  obtain ⟨default, -, rfl⟩ := Schema.ofLiteral_eq_ok.1 h
  refine ⟨?_, rfl⟩
  constructor
  all_goals simp

theorem hashable_of_hasLiteral {kind : Kind} {v : Value} (hkind : kind = .string ∨ kind = .number)
    (h : kind.HasLiteral v) : v.hashable = true ∧ ∀ b, v ≠ .bool b := by
  cases h with
  | boolean b => simp at hkind
  | string s => exact ⟨rfl, by simp⟩
  | number finite =>
    unfold Value.isFiniteNumber at finite
    split at finite
    . exact ⟨rfl, by simp⟩
    . exact ⟨rfl, by simp⟩
    . exact ⟨rfl, by simp⟩
    . contradiction

theorem properties_ofChoice (h : Schema.ofChoice e = .ok s) : s.properties = none := by
  obtain ⟨variants, -, rfl⟩ := Schema.ofChoice_eq_ok.1 h
  rfl

theorem regular_ofChoice (hformed : e.WellFormed) (hkind : e.kind = .enum)
    (h : Schema.ofChoice e = .ok s) : s.Regular := by
  obtain ⟨variants, hvariants, -, hliteral⟩ := hformed.variants hkind
  obtain ⟨variants', hvariants', rfl⟩ := Schema.ofChoice_eq_ok.1 h
  rw [hvariants, Except.ok.injEq] at hvariants'
  subst hvariants'
  constructor
  . rintro vs hvs v hv
    injection hvs with hvs
    subst hvs
    obtain ⟨w, hw, rfl⟩ := List.mem_map.1 hv
    obtain ⟨x, rfl, hx, hcontent⟩ := hliteral w hw
    exact hashable_of_hasLiteral hx hcontent
  all_goals simp

/--
The schema of an array has some of the schemas of the items, and one equal to each of them.
-/
theorem ofItems_eq (schemas : List Schema)
    : ∃ items, Schema.ofItems schemas = { type := some .array, items := items }
        ∧ (∀ t ∈ items, t ∈ schemas)
        ∧ ∀ t ∈ schemas, t ∈ items ∨ ∃ t' ∈ items, t.same t' = true := by
  unfold Schema.ofItems
  split
  . exact ⟨[], rfl, by simp, by simp⟩
  . next first rest =>
    dsimp only
    split
    . next hsame =>
      refine ⟨[first], rfl, by simp, ?_⟩
      intro t ht
      rcases List.mem_cons.1 ht with rfl | ht
      . exact .inl (by simp)
      . exact .inr ⟨first, by simp, List.all_eq_true.1 hsame t ht⟩
    . exact ⟨first :: rest, rfl, fun t ht => ht, fun t ht => .inl ht⟩

theorem properties_ofItems (schemas : List Schema) : (Schema.ofItems schemas).properties = none := by
  obtain ⟨items, hitems, -⟩ := ofItems_eq schemas
  rw [hitems]

theorem regular_ofItems {schemas : List Schema} (h : ∀ t ∈ schemas, t.Regular)
    : (Schema.ofItems schemas).Regular := by
  obtain ⟨items, hitems, hmem, -⟩ := ofItems_eq schemas
  rw [hitems]
  constructor
  . simp
  . exact fun t ht => h t (hmem t ht)
  all_goals simp

theorem tracks_of_none {Q : Element → Schema → Prop} (h : s.properties = none)
    : Tracks Q [] (s.properties.getD []) := by
  rw [h]
  exact Tracks.nil

theorem traced_of_origin (hformed : e.WellFormed) (htraced : r.Traced root depth)
    (hobject : r.ObjectTraced root depth) (hreached : r.Reached root ⟨e, whole⟩)
    (h : r.Origin depth e s)
    : ∃ ms, (r.offered (depth + 1) (.element e)).result = .ok ms
        ∧ s.Regular ∧ Tracks (r.Described root) ms (s.properties.getD []) := by
  cases h with
  | literal kind made =>
    rw [offered_of_no_properties kind]
    obtain ⟨hregular, hnone⟩ := regular_ofLiteral made
    exact ⟨[], rfl, hregular, tracks_of_none hnone⟩
  | choice kind made =>
    rw [offered_of_no_properties (by rw [kind]; rfl)]
    exact ⟨[], rfl, regular_ofChoice hformed kind made, tracks_of_none (properties_ofChoice made)⟩
  | items kind content made =>
    rw [offered_of_no_properties (by rw [kind]; rfl)]
    refine ⟨[], rfl, regular_ofItems ?_, tracks_of_none (properties_ofItems _)⟩
    intro t ht
    obtain ⟨v, hv, ht⟩ := Outcome.exists_of_mem_mapM made ht
    obtain ⟨x, rfl⟩ := exists_element_of_schemaWithin ht
    exact (htraced x true t (hreached.tail (.item kind content hv)) ht).1
  | object kind made =>
    rw [offered_of_object kind]
    obtain ⟨g, ms, rfl, hms, hg⟩ := hobject e whole s hreached kind made
    exact ⟨ms, hms, hg.regular, hg.properties⟩
  | merged kind found made =>
    rw [result_offered_of_merged kind found]
    obtain ⟨hregular, ms, hms, htracks⟩ :=
      htraced _ whole s (hreached.tail (.resolved kind found)) made
    exact ⟨ms, hms, hregular, htracks⟩
  | undeclared kind found =>
    rw [result_offered_of_undeclared kind found]
    exact ⟨[], rfl, regular_any, tracks_of_none rfl⟩
  | unconstrained kind =>
    rw [offered_of_no_properties kind]
    exact ⟨[], rfl, regular_any, tracks_of_none rfl⟩

theorem traced_succ (hformed : ∀ p, r.Reached root p → p.element.WellFormed)
    (htraced : r.Traced root depth) (hobject : r.ObjectTraced root depth)
    : r.Traced root (depth + 1) := by
  intro e whole s hreached h
  obtain ⟨_, s', ⟨⟩, horigin, hattribute⟩ := exists_origin h
  have hwidens := Schema.widens_attribute hattribute
  obtain ⟨ms, hms, hregular, htracks⟩ :=
    traced_of_origin (hformed ⟨e, whole⟩ hreached) htraced hobject hreached horigin
  refine ⟨hwidens.regular hregular, ms, hms, ?_⟩
  rw [hwidens.properties]
  exact htracks

/--
If all that the compilation reaches is well-formed, the schemas of it are regular, and their
properties come from members.
-/
theorem traced (hformed : ∀ p, r.Reached root p → p.element.WellFormed) (depth : Nat)
    : r.Traced root depth ∧ r.ObjectTraced root depth := by
  -- An element needs the objects one level down, and an object the elements: both go together.
  induction depth with
  | zero =>
    constructor
    . intro e whole s _ h
      contradiction
    . exact objectTraced_zero
  | succ depth ih => exact ⟨traced_succ hformed ih.1 ih.2, objectTraced_succ ih.1⟩

end Traced

end Registry

end ApiElements
