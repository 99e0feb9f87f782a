import ApiElements.Proofs.Compile.Origin
import ApiElements.Proofs.Validation.Tracks

/-!
This module contains the members that the two compilers make the entries of an object from: the
example those of one option of each selection, the schema those of all options.
-/

namespace ApiElements

namespace Registry

section Walk

variable {σ τ : Type} {visit : σ → Value → Logged σ} {steps : List Step} {s s' : σ}

theorem walk_entry_eq_ok {v : Value}
    : (walk visit s (.entry v :: steps)).result = .ok s'
        ↔
      ∃ between, (visit s v).result = .ok between ∧ (walk visit between steps).result = .ok s' := by
  rw [walk, Logged.result_bind, Outcome.bind_eq_ok]

theorem walk_unresolved (visit : σ → Value → Logged σ) (s : σ) (href : Value) (steps : List Step)
    : (walk visit s (.unresolved href :: steps)).result = (walk visit s steps).result := by
  rw [walk, Logged.result_bind, Logged.result_record, Outcome.ok_bind]

/--
A walk that goes through takes another one with it whose visits keep up with its own.
-/
theorem walk_simulates {visit' : τ → Value → Logged τ} {R : σ → τ → Prop} {t : τ}
    (hvisit : ∀ v, .entry v ∈ steps → ∀ s t s', R s t → (visit s v).result = .ok s' →
      ∃ t', (visit' t v).result = .ok t' ∧ R s' t')
    (hR : R s t) (h : (walk visit s steps).result = .ok s')
    : ∃ t', (walk visit' t steps).result = .ok t' ∧ R s' t' := by
  induction steps generalizing s t with
  | nil =>
    injection h with h
    subst h
    exact ⟨t, rfl, hR⟩
  | cons step rest ih =>
    have hrest := fun {s t} =>
      @ih s t fun v hmem => hvisit v (List.mem_cons_of_mem _ hmem)
    cases step with
    | entry v =>
      obtain ⟨between, hfirst, h⟩ := walk_entry_eq_ok.1 h
      obtain ⟨between', hfirst', hbetween⟩ := hvisit v (by simp) s t between hR hfirst
      obtain ⟨t', ht', hR'⟩ := hrest hbetween h
      exact ⟨t', walk_entry_eq_ok.2 ⟨between', hfirst', ht'⟩, hR'⟩
    | unresolved href =>
      rw [walk_unresolved] at h
      rw [walk_unresolved]
      exact hrest hR h
    | fault fault => contradiction

/--
What the visits of all entries preserve holds at the end of a walk if it held at its start.
-/
theorem walk_preserves {P : σ → Prop}
    (hvisit : ∀ v, .entry v ∈ steps → ∀ s s', P s → (visit s v).result = .ok s' → P s')
    (hs : P s) (h : (walk visit s steps).result = .ok s') : P s' := by
  induction steps generalizing s with
  | nil =>
    injection h with h
    subst h
    exact hs
  | cons step rest ih =>
    have hrest := fun {s} => @ih s fun v hmem => hvisit v (List.mem_cons_of_mem _ hmem)
    cases step with
    | entry v =>
      obtain ⟨between, hfirst, h⟩ := walk_entry_eq_ok.1 h
      exact hrest (hvisit v (by simp) s between hs hfirst) h
    | unresolved href =>
      rw [walk_unresolved] at h
      exact hrest hs h
    | fault fault => contradiction

/--
What the visit of one entry brings about, and all visits preserve, holds at the end of a walk.
-/
theorem walk_establishes {P : σ → Prop} {v : Value} (hmem : .entry v ∈ steps)
    (hthis : ∀ s s', (visit s v).result = .ok s' → P s')
    (hvisit : ∀ v s s', P s → (visit s v).result = .ok s' → P s')
    (h : (walk visit s steps).result = .ok s') : P s' := by
  induction steps generalizing s with
  | nil => contradiction
  | cons step rest ih =>
    cases step with
    | entry w =>
      obtain ⟨between, hfirst, hrest⟩ := walk_entry_eq_ok.1 h
      rcases List.mem_cons.1 hmem with heq | hmem
      . injection heq with heq
        subst heq
        exact walk_preserves (fun v _ => hvisit v) (hthis s between hfirst) hrest
      . exact ih hmem hrest
    | unresolved href =>
      rw [walk_unresolved] at h
      rcases List.mem_cons.1 hmem with heq | hmem
      . contradiction
      . exact ih hmem h
    | fault fault => contradiction

/--
A content whose steps can be walked through can be expanded, and its entries are those of the steps.
-/
theorem exists_expand {r : Registry} {content : Value}
    (h : (walk visit s (r.scan content)).result = .ok s')
    : ∃ entries, (r.expand content).result = .ok entries
        ∧ ∀ v, .entry v ∈ r.scan content → v ∈ entries := by
  obtain ⟨entries, hentries, -⟩ := @walk_simulates σ (List Value) visit (r.scan content) s s'
    (fun entries v => pure (entries ++ [v])) (fun _ _ => True) []
    (fun v _ _ entries _ _ _ => ⟨entries ++ [v], rfl, trivial⟩) trivial h
  refine ⟨entries, hentries, ?_⟩
  intro v hmem
  apply walk_establishes hmem ?_ ?_ hentries
  . intro before after hafter
    injection hafter with hafter
    rw [← hafter]
    simp
  . intro w before after hbefore hafter
    injection hafter with hafter
    rw [← hafter]
    exact List.mem_append_left _ hbefore

end Walk

section Collect

def collectVisit (selection : Element → Logged (List Element)) (ms : List Element) (v : Value) :
    Logged (List Element) :=
  match v with
  | .element e =>
    match e.kind with
    | .select => (ms ++ ·) <$> selection e
    | .member => pure (ms ++ [e])
    | _ => pure ms
  | _ => pure ms

def PassedOver (v : Value) : Prop :=
  ∀ e, v = .element e → e.kind ≠ .select ∧ e.kind ≠ .member

theorem passedOver_of_other (hv : ∀ e, v ≠ .element e) : PassedOver v := by
  intro e he
  exact absurd he (hv e)

theorem select_or_member_or_passedOver (v : Value)
    : (∃ e, v = .element e ∧ e.kind = .select) ∨ (∃ e, v = .element e ∧ e.kind = .member)
        ∨ PassedOver v := by
  cases v with
  | element e =>
    by_cases hselect : e.kind = .select
    . exact .inl ⟨e, rfl, hselect⟩
    . by_cases hmember : e.kind = .member
      . exact .inr (.inl ⟨e, rfl, hmember⟩)
      . refine .inr (.inr ?_)
        rintro _ ⟨⟩
        exact ⟨hselect, hmember⟩
  | _ => exact .inr (.inr fun e h => by contradiction)

section CollectVisit

variable {selection : Element → Logged (List Element)} {ms : List Element} {e : Element} {v : Value}

theorem collectVisit_select (h : e.kind = .select)
    : collectVisit selection ms (.element e) = (ms ++ ·) <$> selection e := by
  simp only [collectVisit, h]

theorem collectVisit_member (h : e.kind = .member)
    : collectVisit selection ms (.element e) = pure (ms ++ [e]) := by
  simp only [collectVisit, h]

theorem collectVisit_passedOver (h : PassedOver v) : collectVisit selection ms v = pure ms := by
  unfold collectVisit
  split
  . next e =>
    obtain ⟨hselect, hmember⟩ := h e rfl
    split
    . contradiction
    . contradiction
    . rfl
  . rfl

end CollectVisit

/--
The members among the entries of some steps, each selection replaced by members of its own.
-/
def collect (selection : Element → Logged (List Element)) (steps : List Step) :
    Logged (List Element) :=
  walk (collectVisit selection) [] steps

theorem mem_of_collect {selection : Element → Logged (List Element)} {steps : List Step}
    {ms : List Element} {m : Element} (h : (collect selection steps).result = .ok ms)
    (hmem : .entry (.element m) ∈ steps) (hkind : m.kind = .member) : m ∈ ms := by
  apply walk_establishes hmem ?_ ?_ h
  . intro before after hafter
    rw [collectVisit_member hkind] at hafter
    injection hafter with hafter
    rw [← hafter]
    simp
  . intro v before after hbefore hafter
    rcases select_or_member_or_passedOver v with ⟨e, rfl, hselect⟩ | ⟨e, rfl, hmember⟩ | hpassed
    . rw [collectVisit_select hselect, Logged.result_map, Outcome.map_eq_ok] at hafter
      obtain ⟨found, -, rfl⟩ := hafter
      exact List.mem_append_left _ hbefore
    . rw [collectVisit_member hmember] at hafter
      injection hafter with hafter
      rw [← hafter]
      exact List.mem_append_left _ hbefore
    . rw [collectVisit_passedOver hpassed] at hafter
      injection hafter with hafter
      rw [← hafter]
      exact hbefore

/--
The members that the example of the content of an object is made from. A selection contributes those
of its first option.
-/
def taken (r : Registry) : Nat → Value → Logged (List Element)
  | 0, _ => Logged.fail .tooDeep
  | depth + 1, content =>
    collect (fun e =>
      if e.content.truthy then do
        let variant ← (e.content.first : Except Fault Value)
        let chosen ← (variant.elementContent : Except Fault Value)
        r.taken depth chosen
      else pure []) (r.scan content)
termination_by structural depth => depth

def takenBy (r : Registry) (depth : Nat) (e : Element) : Logged (List Element) :=
  if e.content.truthy then do
    let variant ← (e.content.first : Except Fault Value)
    let chosen ← (variant.elementContent : Except Fault Value)
    r.taken depth chosen
  else pure []

theorem taken_succ (r : Registry) (depth : Nat) (content : Value)
    : r.taken (depth + 1) content = collect (r.takenBy depth) (r.scan content) := by
  rfl

section Taken

variable {r : Registry} {depth : Nat} {content : Value} {ms : List Element}

theorem exists_expand_of_taken (h : (r.taken depth content).result = .ok ms)
    : ∃ entries, (r.expand content).result = .ok entries
        ∧ ∀ v, .entry v ∈ r.scan content → v ∈ entries := by
  cases depth with
  | zero => contradiction
  | succ depth => exact exists_expand h

theorem mem_of_taken (h : (r.taken depth content).result = .ok ms) {m : Element}
    (hmem : .entry (.element m) ∈ r.scan content) (hkind : m.kind = .member) : m ∈ ms := by
  cases depth with
  | zero => contradiction
  | succ depth => exact mem_of_collect h hmem hkind

end Taken

mutual

def offered (r : Registry) : Nat → Value → Logged (List Element)
  | 0, _ => Logged.fail .tooDeep
  | depth + 1, v =>
    match v with
    | .element e =>
      match e.kind with
      | .object => r.offeredIn depth e.content
      | .option => r.offeredIn depth e.content
      | .named _ => do
        match ← r.resolve e with
        | some merged => r.offered depth (.element merged)
        | none => pure []
      | _ => pure []
    | _ => pure []
termination_by structural depth => depth

/--
The members that the schema of the content of an object or of an option is made from. A selection
contributes those of all its options.
-/
def offeredIn (r : Registry) : Nat → Value → Logged (List Element)
  | 0, _ => Logged.fail .tooDeep
  | depth + 1, content =>
    collect (fun e => do
      let options ← (e.content.items : Except Fault (List Value))
      List.flatten <$> options.mapM (r.offered depth)) (r.scan content)
termination_by structural depth => depth

end

section Offered

variable {r : Registry} {depth : Nat} {e merged : Element} {name : Value}

theorem offered_of_no_properties (h : e.kind.hasProperties = false)
    : r.offered (depth + 1) (.element e) = pure [] := by
  rw [offered]
  cases hkind : e.kind with
  | object => simp [hkind, Kind.hasProperties] at h
  | option => simp [hkind, Kind.hasProperties] at h
  | named name => simp [hkind, Kind.hasProperties] at h
  | _ => rfl

theorem offered_of_object (h : e.kind = .object ∨ e.kind = .option)
    : r.offered (depth + 1) (.element e) = r.offeredIn depth e.content := by
  rw [offered]
  rcases h with h | h
  . simp only [h]
  . simp only [h]

theorem result_offered_of_merged (h : e.kind = .named name)
    (hfound : (r.resolve e).result = .ok (some merged))
    : (r.offered (depth + 1) (.element e)).result = (r.offered depth (.element merged)).result := by
  rw [offered]
  simp only [h, Logged.result_bind, hfound, Outcome.ok_bind]

theorem result_offered_of_undeclared (h : e.kind = .named name)
    (hfound : (r.resolve e).result = .ok none)
    : (r.offered (depth + 1) (.element e)).result = .ok [] := by
  rw [offered]
  simp only [h, Logged.result_bind, hfound, Outcome.ok_bind, Logged.pure_result]

end Offered

def offeredBy (r : Registry) (depth : Nat) (e : Element) : Logged (List Element) := do
  let options ← (e.content.items : Except Fault (List Value))
  List.flatten <$> options.mapM (r.offered depth)

theorem offeredIn_succ (r : Registry) (depth : Nat) (content : Value)
    : r.offeredIn (depth + 1) content = collect (r.offeredBy depth) (r.scan content) := by
  rfl

end Collect

end Registry

end ApiElements
