import ApiElements.Proofs.Compile.Termination
import ApiElements.Proofs.Validation.Kinds

/-!
This module contains that examples are valid against schemas, and where they are not.
-/

namespace ApiElements

namespace Registry

variable {r : Registry} {root e : Element} {depth : Nat} {s : Schema} {v : Value}

/--
The schema of a whole value by its kind alone accepts the example, if examples that are not nested
as deeply are valid.
-/
theorem satisfied_of_kind {depth' : Nat} (hformed : r.WellFormed root)
    (hagrees : ∀ e, r.Reached root ⟨e, true⟩ → e.kind = .object → r.Agrees e)
    (hsound : ∀ n ≤ depth, r.Sound root n) (hreached : r.Reached root ⟨e, true⟩)
    (hv : (r.exampleWithin (depth + 1) (.element e)).result = .ok v)
    (hs : (r.schemaOfKind depth' e).result = .ok s) : s.Satisfied v := by
  have he : e.WellFormed := hformed.element ⟨e, true⟩ hreached
  -- The two compilers branch on the kind alike, and both runs are taken apart in step.
  obtain ⟨htraced, hobject⟩ := traced hformed.element depth'
  unfold schemaOfKind at hs
  cases hkind : e.kind with
  | boolean =>
    rw [exampleWithin] at hv
    simp only [hkind, Logged.pure_result, Except.ok.injEq] at hv hs
    subst hv
    apply satisfied_literalOr (he.literal (by simp [hkind])) rfl ?_ hs
    rw [hkind]
    exact typeName?_boolean
  | number =>
    rw [exampleWithin] at hv
    simp only [hkind, Logged.pure_result, Except.ok.injEq] at hv hs
    subst hv
    apply satisfied_literalOr (he.literal (by simp [hkind])) rfl ?_ hs
    rw [hkind]
    exact typeName?_number
  | string =>
    rw [exampleWithin] at hv
    simp only [hkind, Logged.pure_result, Except.ok.injEq] at hv hs
    subst hv
    apply satisfied_literalOr (he.literal (by simp [hkind])) rfl ?_ hs
    rw [hkind]
    exact typeName?_string
  | enum =>
    simp only [hkind] at hs
    exact satisfied_ofChoice he hkind hv hs
  | array =>
    rw [exampleWithin] at hv
    simp only [hkind, Logged.result_bind, Logged.result_liftM, Logged.result_map,
      Logged.result_mapM, Outcome.bind_eq_ok, Outcome.map_eq_ok] at hv hs
    obtain ⟨items, hitems, xs, hxs, rfl⟩ := hv
    obtain ⟨items', hitems', schemas, hschemas, rfl⟩ := hs
    rw [hitems] at hitems'
    injection hitems' with hitems'
    subst hitems'
    apply satisfied_ofItems (hsound depth (Nat.le_refl depth)) htraced ?_ hxs hschemas
    exact fun x hx => hreached.tail (.item hkind hitems hx)
  | object =>
    rw [exampleWithin] at hv
    simp only [hkind, Logged.result_map, Outcome.map_eq_ok] at hv hs
    obtain ⟨t, ht, rfl⟩ := hv
    obtain ⟨g, ms, rfl, hms, hg⟩ := hobject e true s hreached (.inl hkind) hs
    exact satisfied_object (hagrees e hreached hkind) hsound ht hms hg
  -- An option has no example of its own, but only as a part of the object around it.
  | option => exact absurd hkind (hformed.option e hreached)
  | named name =>
    rw [exampleWithin] at hv
    simp only [hkind, Logged.result_bind, Outcome.bind_eq_ok] at hv hs
    obtain ⟨found, hfound, hv⟩ := hv
    obtain ⟨found', hfound', hs⟩ := hs
    -- Both compilers resolve the reference, with the same outcome.
    rw [hfound] at hfound'
    injection hfound' with hfound'
    subst hfound'
    cases found with
    | none =>
      injection hs with hs
      subst hs
      exact Schema.satisfied_any v
    | some merged =>
      exact hsound depth (Nat.le_refl depth) merged depth' v s
        (hreached.tail (.resolved hkind hfound)) hv hs
  | _ =>
    simp only [hkind, Logged.pure_result, Except.ok.injEq] at hs
    subst hs
    exact Schema.satisfied_any v

theorem sound (hformed : r.WellFormed root)
    (hagrees : ∀ e, r.Reached root ⟨e, true⟩ → e.kind = .object → r.Agrees e) (depth : Nat)
    : r.Sound root depth := by
  induction depth using Nat.strongRecOn with
  | ind depth ih =>
    intro e depth' v s hreached hv hs
    cases depth with
    | zero => contradiction
    | succ depth =>
      cases depth' with
      | zero => contradiction
      | succ depth' =>
        rw [schemaWithin_element, Logged.result_bind, Outcome.bind_eq_ok] at hs
        obtain ⟨s', hs', hattribute⟩ := hs
        -- Its attributes only widen the schema that an element has by its kind.
        apply (Schema.widens_attribute hattribute).satisfied
        apply satisfied_of_kind hformed hagrees ?_ hreached hv hs'
        exact fun n hn => ih n (by omega)

/--
The example of an element is valid against its schema, if all that their compilation reaches is
well-formed, and if they agree on the selections in the objects among it.
-/
theorem accepts_example (hformed : r.WellFormed root)
    (hagrees : ∀ e, r.Reached root ⟨e, true⟩ → e.kind = .object → r.Agrees e) {depth' : Nat}
    (hv : (r.exampleWithin depth (.element root)).result = .ok v)
    (hs : (r.schemaWithin depth' (.element root)).result = .ok s)
    : Draft4.accepts s.toValue v = true := by
  rw [Schema.accepts_toValue_iff]
  exact sound hformed hagrees depth root depth' v s .refl hv hs

section Samples

variable {r : Registry} {A : Element → Prop} {whole : Bool}

def plainSequence (kind : Kind) (entries : List Element) : Element :=
  plainElement kind (.tuple (entries.map .element))

def bareMember (name : String) (kind : Kind) : Element :=
  plainMember name (.element (plainElement kind .null))

/--
A place with a well-formed element, that has some property if it is an object.
-/
structure Fine (A : Element → Prop) (p : Place) : Prop where
  wellFormed : p.element.WellFormed
  option : p.whole = true → p.element.kind ≠ .option
  object : p.element.kind = .object → A p.element

@[simp]
theorem kind_plainElement (kind : Kind) (content : Value)
    : (plainElement kind content).kind = kind := by
  rfl

@[simp]
theorem content_plainElement (kind : Kind) (content : Value)
    : (plainElement kind content).content = content := by
  rfl

theorem fine_literal {kind : Kind} (h : kind = .string ∨ kind = .number)
    : Fine A ⟨plainElement kind .null, whole⟩ := by
  constructor
  . constructor
    all_goals rcases h with rfl | rfl
    all_goals simp
  all_goals rcases h with rfl | rfl
  all_goals simp

theorem fine_member {name : String} {value : Value} : Fine A ⟨plainMember name value, whole⟩ := by
  constructor
  . constructor
    all_goals simp [plainMember]
  all_goals simp [plainMember]

theorem fine_named {name content : Value} : Fine A ⟨plainElement (.named name) content, whole⟩ := by
  constructor
  . constructor
    all_goals simp
  all_goals simp

theorem fine_object {entries : List Element} (h : A (plainSequence .object entries))
    : Fine A ⟨plainSequence .object entries, whole⟩ := by
  constructor
  . constructor
    all_goals simp [plainSequence]
  . simp [plainSequence]
  . exact fun _ => h

theorem fine_sequence {kind : Kind} {entries : List Element} (h : kind = .option ∨ kind = .select)
    : Fine A ⟨plainSequence kind entries, false⟩ := by
  unfold plainSequence
  constructor
  . constructor
    all_goals rcases h with rfl | rfl
    all_goals simp
  all_goals rcases h with rfl | rfl
  all_goals simp

theorem throughout_member {name : String} {v : Value} {q : Place}
    (hv : ∀ x, v = .element x → r.Throughout (Fine A) ⟨x, true⟩) (h : (plainMember name v).Opens q)
    : r.Throughout (Fine A) q := by
  cases h with
  | self =>
    apply throughout_leaf fine_member
    all_goals simp [plainMember]
  | value _ value =>
    injection value with value
    exact hv _ value
  | option select => contradiction

theorem throughout_bareMember {name : String} {kind : Kind} {q : Place}
    (hkind : kind = .string ∨ kind = .number) (h : (bareMember name kind).Opens q)
    : r.Throughout (Fine A) q := by
  apply throughout_member ?_ h
  intro x hx
  injection hx with hx
  rw [← hx]
  apply throughout_leaf (fine_literal hkind)
  all_goals rcases hkind with rfl | rfl
  all_goals simp

theorem throughout_option {entries : List Element}
    (hentries : (r.expand (.tuple (entries.map .element))).result = .ok (entries.map .element))
    (h : ∀ m ∈ entries, ∃ name kind, m = bareMember name kind ∧ (kind = .string ∨ kind = .number))
    : r.Throughout (Fine A) ⟨plainSequence .option entries, false⟩ := by
  apply throughout_object (fine_sequence (.inl rfl)) (.inr rfl) hentries
  intro x hx q hq
  simp only [List.mem_map, Value.element.injEq, exists_eq_right] at hx
  obtain ⟨name, kind, rfl, hkind⟩ := h x hx
  exact throughout_bareMember hkind hq

theorem throughout_selection {options : List Element} {q : Place}
    (hoptions : ∀ o ∈ options, r.Throughout (Fine A) ⟨o, false⟩)
    (h : (plainSequence .select options).Opens q) : r.Throughout (Fine A) q := by
  cases h with
  | self =>
    apply throughout_leaf (fine_sequence (.inr rfl))
    all_goals simp [plainSequence]
  | value member => contradiction
  | option _ content mem =>
    injection content with content
    subst content
    simp only [List.mem_map, Value.element.injEq, exists_eq_right] at mem
    exact hoptions _ mem

theorem wellFormed_of_throughout (h : r.Throughout (Fine A) ⟨root, true⟩) : r.WellFormed root where
  element := fun p hp => (h p hp).wellFormed
  option := fun e he => (h ⟨e, true⟩ he).option rfl

end Samples

section Invalid

def noTypes : Registry where
  types := []

def selecting (options : List (List Element)) : Element :=
  plainSequence .object [plainSequence .select (options.map (plainSequence .option))]

theorem wellFormed_selecting {options : List (List Element)}
    (h : ∀ entries ∈ options,
      (noTypes.expand (.tuple (entries.map .element))).result = .ok (entries.map .element)
        ∧ ∀ m ∈ entries, ∃ name kind, m = bareMember name kind ∧ (kind = .string ∨ kind = .number))
    : noTypes.WellFormed (selecting options) := by
  have hentries : (noTypes.expand (selecting options).content).result
      = .ok [.element (plainSequence .select (options.map (plainSequence .option)))] := by
    rfl
  apply wellFormed_of_throughout (A := fun _ => True)
  apply throughout_object (fine_object trivial) (.inl rfl) hentries
  intro x hx q hq
  rw [List.mem_singleton] at hx
  injection hx with hx
  subst hx
  apply throughout_selection ?_ hq
  intro o ho
  obtain ⟨entries, hmem, rfl⟩ := List.mem_map.1 ho
  exact throughout_option (h entries hmem).1 (h entries hmem).2

def oneOption : Element :=
  selecting [[bareMember "a" .string]]

def sharedKey : Element :=
  selecting [[bareMember "a" .string], [bareMember "a" .number, bareMember "b" .number]]

/--
Well-formed elements may have invalid examples: with a single option the example has all keys of its
selection, and of options that share a key the last one determines the schema of the property.
-/
theorem not_accepts_example
    : (noTypes.WellFormed oneOption
        ∧ ∃ v s, (noTypes.exampleOf oneOption).result = .ok v
          ∧ (noTypes.schemaOf oneOption).result = .ok s ∧ Draft4.accepts s.toValue v = false)
      ∧ noTypes.WellFormed sharedKey
        ∧ ∃ v s, (noTypes.exampleOf sharedKey).result = .ok v
          ∧ (noTypes.schemaOf sharedKey).result = .ok s ∧ Draft4.accepts s.toValue v = false := by
  refine ⟨⟨wellFormed_selecting ?_, _, _, rfl, rfl, rfl⟩,
    wellFormed_selecting ?_, _, _, rfl, rfl, rfl⟩
  . intro entries hentries
    rw [List.mem_singleton] at hentries
    subst hentries
    simp only [List.mem_singleton, forall_eq]
    exact ⟨rfl, _, _, rfl, .inl rfl⟩
  . simp only [List.forall_mem_cons, List.not_mem_nil, false_implies, implies_true, and_true]
    exact ⟨⟨rfl, _, _, rfl, .inl rfl⟩, rfl, ⟨_, _, rfl, .inr rfl⟩, _, _, rfl, .inr rfl⟩

end Invalid

section Valid

def status : Element :=
  plainSequence .enum [plainElement .string (.text "on"), plainElement .string (.text "off")]

def statusOnly : Registry where
  types := [(.text "Status", status)]

def statusMember : Element :=
  plainMember "status" (.element (plainElement (.named (.text "Status")) .null))

def contact : Element :=
  plainSequence .select [plainSequence .option [bareMember "mail" .string],
    plainSequence .option [bareMember "phone" .number]]

def account : Element :=
  plainSequence .object [statusMember, contact]

theorem expand_account
    : (statusOnly.expand account.content).result
        = .ok [.element statusMember, .element contact] := by
  rfl

theorem eq_of_taken_account {n : Nat} {ms : List Element}
    (h : (statusOnly.taken n account.content).result = .ok ms)
    : ms = [statusMember, bareMember "mail" .string] := by
  cases n with
  | zero => contradiction
  | succ n => cases n with
    | zero => contradiction
    | succ n =>
      injection h with h
      exact h.symm

theorem eq_of_offeredIn_account {n : Nat} {ms : List Element}
    (h : (statusOnly.offeredIn n account.content).result = .ok ms)
    : ms = [statusMember, bareMember "mail" .string] ++ [bareMember "phone" .number] := by
  cases n with
  | zero => contradiction
  | succ n => cases n with
    | zero => contradiction
    | succ n => cases n with
      | zero => contradiction
      | succ n =>
        injection h with h
        exact h.symm

theorem eq_of_offeredBy_contact {n : Nat} {ms : List Element}
    (h : (statusOnly.offeredBy n contact).result = .ok ms)
    : ms = [bareMember "mail" .string, bareMember "phone" .number] := by
  cases n with
  | zero => contradiction
  | succ n => cases n with
    | zero => contradiction
    | succ n =>
      injection h with h
      exact h.symm

theorem agrees_account : statusOnly.Agrees account := by
  have hphone : (bareMember "phone" .number).key = .ok (.text "phone") := by
    rfl
  have hnone : lastWith [statusMember, bareMember "mail" .string] (.text "phone") = none := by
    rfl
  constructor
  . intro n n' ms ms' hms hms' k _ m m' hm hm' v v' hv hv'
    rw [eq_of_taken_account hms] at hm
    rw [eq_of_offeredIn_account hms', lastWith_append, lastWith_singleton hphone] at hm'
    split at hm'
    . next hsame =>
      rw [Value.same_text] at hsame
      rw [hsame, hnone] at hm
      contradiction
    . rw [Option.none_or, hm] at hm'
      injection hm' with hm'
      subst hm'
      rw [hv] at hv'
      injection hv' with hv'
      exact .inl hv'
  . intro n n' ms entries hms hentries s hmem hselect ms' hms' _
    rw [expand_account] at hentries
    injection hentries with hentries
    subst hentries
    rw [List.mem_cons, List.mem_singleton] at hmem
    rcases hmem with hmem | hmem
    . injection hmem with hmem
      subst hmem
      contradiction
    . injection hmem with hmem
      subst hmem
      rw [eq_of_taken_account hms, eq_of_offeredBy_contact hms']
      exact ⟨bareMember "phone" .number, by simp, .text "phone", rfl, hnone⟩

theorem fine_status : Fine A ⟨status, true⟩ := by
  constructor
  . constructor
    . simp [status, plainSequence]
    . intro _
      refine ⟨_, rfl, by simp, ?_⟩
      intro v hv
      simp only [List.map_cons, List.map_nil, List.mem_cons, List.not_mem_nil, or_false] at hv
      rcases hv with rfl | rfl
      . exact ⟨_, rfl, .inl rfl, .string "on"⟩
      . exact ⟨_, rfl, .inl rfl, .string "off"⟩
    . simp [status, plainSequence]
  . simp [status, plainSequence]
  . simp [status, plainSequence]

theorem throughout_account : statusOnly.Throughout (Fine statusOnly.Agrees) ⟨account, true⟩ := by
  have hstatus : statusOnly.Throughout (Fine statusOnly.Agrees)
      ⟨plainElement (.named (.text "Status")) .null, true⟩ := by
    apply throughout_named fine_named rfl rfl
    apply throughout_leaf fine_status
    . exact fun _ h => by contradiction
    . exact fun h => by contradiction
    . exact fun h => h.elim (fun h => by contradiction) (fun h => by contradiction)
  apply throughout_object (fine_object agrees_account) (.inl rfl) expand_account
  intro x hx q hq
  rw [List.mem_cons, List.mem_singleton] at hx
  rcases hx with hx | hx
  . injection hx with hx
    subst hx
    apply throughout_member ?_ hq
    intro x hx
    injection hx with hx
    rw [← hx]
    exact hstatus
  . injection hx with hx
    subst hx
    apply throughout_selection ?_ hq
    intro o ho
    rw [List.mem_cons, List.mem_singleton] at ho
    rcases ho with rfl | rfl
    . apply throughout_option rfl
      simp only [List.mem_singleton, forall_eq]
      exact ⟨_, _, rfl, .inl rfl⟩
    . apply throughout_option rfl
      simp only [List.mem_singleton, forall_eq]
      exact ⟨_, _, rfl, .inr rfl⟩

theorem accepts_example_account
    : statusOnly.WellFormed account
        ∧ (∀ e, statusOnly.Reached account ⟨e, true⟩ → e.kind = .object → statusOnly.Agrees e)
        ∧ ∃ v s, (statusOnly.exampleOf account).result = .ok v
          ∧ (statusOnly.schemaOf account).result = .ok s ∧ Draft4.accepts s.toValue v = true := by
  have hformed := wellFormed_of_throughout throughout_account
  have hagrees : ∀ e, statusOnly.Reached account ⟨e, true⟩ → e.kind = .object →
      statusOnly.Agrees e := by
    exact fun e he => (throughout_account ⟨e, true⟩ he).object
  obtain ⟨v, hv⟩ : ∃ v, (statusOnly.exampleOf account).result = .ok v := ⟨_, rfl⟩
  obtain ⟨s, hs⟩ : ∃ s, (statusOnly.schemaOf account).result = .ok s := ⟨_, rfl⟩
  exact ⟨hformed, hagrees, v, s, hv, hs, accepts_example hformed hagrees hv hs⟩

end Valid

end Registry

end ApiElements
