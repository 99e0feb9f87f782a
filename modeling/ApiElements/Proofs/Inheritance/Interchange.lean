import ApiElements.Proofs.Inheritance.Inclusion

/-!
This module contains that it does not matter when repeated members are dropped: contents of which
the same entries are kept in the end, whatever comes after them, give the same to an object.
-/

namespace ApiElements

namespace Registry

section Kept

variable {v : Value} {xs ys xs' ys' content kept kept' seen seen' : List Value}

/--
Of two sequences the same entries are kept, whatever is appended to both.
-/
def Interchangeable (xs ys : List Value) : Prop :=
  ∀ later, keepLast (xs ++ later) = keepLast (ys ++ later)

theorem interchangeable_self (xs : List Value) : Interchangeable xs xs := by
  exact fun _ => rfl

theorem Interchangeable.symm (h : Interchangeable xs ys) : Interchangeable ys xs := by
  exact fun later => (h later).symm

theorem Interchangeable.trans (h : Interchangeable xs ys) (h' : Interchangeable ys ys')
    : Interchangeable xs ys' := by
  exact fun later => (h later).trans (h' later)

theorem keepLast_cons_congr (h : keepLast xs = keepLast ys) (v : Value)
    : keepLast (v :: xs) = keepLast (v :: ys) := by
  rw [keepLast, keepLast, h]

theorem keepLast_append_congr (h : keepLast xs = keepLast ys) (earlier : List Value)
    : keepLast (earlier ++ xs) = keepLast (earlier ++ ys) := by
  induction earlier with
  | nil => exact h
  | cons v rest ih => exact keepLast_cons_congr ih v

theorem Interchangeable.append (h : Interchangeable xs ys) (h' : Interchangeable xs' ys')
    : Interchangeable (xs ++ xs') (ys ++ ys') := by
  intro later
  rw [List.append_assoc, List.append_assoc, h, keepLast_append_congr (h' later)]

theorem hashable_of_keepLast (h : keepLast content = .ok (kept, seen))
    : ∀ key ∈ seen, key.hashable = true := by
  rw [keepLast_eq_ok_iff] at h
  induction h with
  | nil => simp
  | other _ _ ih => exact ih
  | last _ _ hashable _ _ ih => exact List.forall_mem_cons.2 ⟨hashable, ih⟩
  | again _ _ _ _ _ ih => exact ih

theorem memberOf_cons_of_memberOf {key k : Value} (h : k.memberOf seen = true)
    : k.memberOf (key :: seen) = true := by
  rw [Value.memberOf, List.any_cons, Bool.or_eq_true]
  exact .inr h

theorem memberOf_cons_self {key : Value} (h : key.hashable = true)
    : key.memberOf (key :: seen) = true := by
  rw [Value.memberOf, List.any_cons, Value.same_self h, Bool.true_or]

/--
The keys that were met are met as well if more is appended.
-/
theorem memberOf_of_keepLast_append {later : List Value} (h : keepLast content = .ok (kept, seen))
    (h' : keepLast (content ++ later) = .ok (kept', seen'))
    : ∀ key ∈ seen, key.memberOf seen' = true := by
  rw [keepLast_eq_ok_iff] at h h'
  induction h generalizing kept' seen' with
  | nil => simp
  | other not_member _ ih =>
    cases h' with
    | other _ rest => exact ih rest
    | last kind_eq => exact absurd kind_eq (not_member _ rfl)
    | again kind_eq => exact absurd kind_eq (not_member _ rfl)
  | @last _ _ _ e key kind_eq key_eq hashable _ _ ih =>
    cases h' with
    | other not_member => exact absurd kind_eq (not_member _ rfl)
    | last _ key_eq' _ _ rest =>
      rw [key_eq, Except.ok.injEq] at key_eq'
      subst key_eq'
      refine List.forall_mem_cons.2 ⟨memberOf_cons_self hashable, ?_⟩
      exact fun k hk => memberOf_cons_of_memberOf (ih rest k hk)
    | again _ key_eq' _ met rest =>
      rw [key_eq, Except.ok.injEq] at key_eq'
      subst key_eq'
      exact List.forall_mem_cons.2 ⟨met, ih rest⟩
  | again kind_eq _ _ _ _ ih =>
    cases h' with
    | other not_member => exact absurd kind_eq (not_member _ rfl)
    | last _ _ _ _ rest => exact fun k hk => memberOf_cons_of_memberOf (ih rest k hk)
    | again _ _ _ _ rest => exact ih rest

theorem keepLast_dropped {e : Element} {key : Value} (hkind : e.kind = .member)
    (hkey : e.key = .ok key) (hhashable : key.hashable = true)
    (hseen : ∀ kept seen, keepLast content = .ok (kept, seen) → key.memberOf seen = true)
    : keepLast (.element e :: content) = keepLast content := by
  have hmember := Element.isMember_iff.2 hkind
  rw [keepLast]
  cases hcontent : keepLast content with
  | error fault => rfl
  | ok state =>
    obtain ⟨kept, seen⟩ := state
    simp only [Outcome.ok_bind, hmember, if_true, hkey, Value.asKey_eq_ok.2 ⟨hhashable, rfl⟩,
      hseen kept seen hcontent]

theorem interchangeable_keepLast (h : keepLast content = .ok (kept, seen))
    : Interchangeable kept content := by
  intro later
  rw [keepLast_eq_ok_iff] at h
  induction h with
  | nil => rfl
  | other _ _ ih => exact keepLast_cons_congr ih _
  | last _ _ _ _ _ ih => exact keepLast_cons_congr ih _
  | again kind_eq key_eq hashable met rest ih =>
    rw [ih, List.cons_append, keepLast_dropped kind_eq key_eq hashable]
    intro _ seen hseen
    obtain ⟨other, hother, hsame⟩ := List.any_eq_true.1 met
    have hhashable := hashable_of_keepLast rest.keepLast_eq other hother
    rw [Value.memberOf_congr hashable hhashable hsame]
    exact memberOf_of_keepLast_append rest.keepLast_eq hseen other hother

theorem interchangeable_dropRepeated (h : dropRepeated content = .ok kept)
    : Interchangeable kept content := by
  rcases dropRepeated_eq_ok h with rfl | ⟨seen, hlast⟩
  . exact interchangeable_self kept
  . exact interchangeable_keepLast hlast

end Kept

section Merged

variable {base override content : Value}

def Sequential (content : Value) : Prop :=
  content = .null ∨ ∃ items, content = .tuple items

/--
A merged sequence can take the place of the two sequences, one after the other.
-/
theorem interchangeable_mergeContent (hbase : Sequential base) (hoverride : Sequential override)
    (h : mergeContent base override = .ok content)
    : Sequential content
        ∧ Interchangeable (entriesOf content) (entriesOf base ++ entriesOf override) := by
  rcases hoverride with rfl | ⟨ys, rfl⟩
  . injection h with h
    subst h
    refine ⟨hbase, ?_⟩
    rw [show entriesOf .null = [] from rfl, List.append_nil]
    exact interchangeable_self _
  . rcases hbase with rfl | ⟨xs, rfl⟩
    . obtain ⟨kept, hkept, rfl⟩ := Outcome.map_eq_ok.1 h
      exact ⟨.inr ⟨kept, rfl⟩, interchangeable_dropRepeated hkept⟩
    . obtain ⟨kept, hkept, rfl⟩ := Outcome.map_eq_ok.1 h
      exact ⟨.inr ⟨kept, rfl⟩, interchangeable_dropRepeated hkept⟩

end Merged

section Compiled

variable {r : Registry} {depth n m : Nat} {content content' : Value} {t u : Table Value}
variable {s s' : Schema}

theorem exists_keepLast {α : Type} {added : Value → Logged α} {included : Value → List Step}
    {items : List Value} {as : List α}
    (hmember : ∀ e a, e.kind = .member → (added (.element e)).result = .ok a →
      ∃ key, e.key = .ok key ∧ key.hashable = true)
    (h : (additions added (items.flatMap (scanEntry included))).result = .ok as)
    : ∃ kept seen, keepLast items = .ok (kept, seen) := by
  induction items generalizing as with
  | nil => exact ⟨[], [], rfl⟩
  | cons v rest ih =>
    have hadded := h
    rw [List.flatMap_cons, additions_append_eq_ok] at hadded
    obtain ⟨own, others, -, hothers, -⟩ := hadded
    obtain ⟨kept, seen, hrest⟩ := ih hothers
    apply exists_keepLast_cons hrest
    rintro e rfl hkind
    obtain ⟨a, _, ha, -⟩ := (additions_member_eq_ok hkind).1 h
    exact hmember e a hkind ha

theorem exampleObjectWithin_entriesOf (r : Registry) (depth : Nat) (content : Value)
    : r.exampleObjectWithin depth (.tuple (entriesOf content))
        = r.exampleObjectWithin depth content := by
  cases depth with
  | zero => rfl
  | succ depth => rw [exampleObjectWithin_eq, exampleObjectWithin_eq, scan, scan, entriesOf]

theorem schemaOfObjectWithin_entriesOf (r : Registry) (depth : Nat) (content : Value)
    : r.schemaOfObjectWithin depth (.tuple (entriesOf content))
        = r.schemaOfObjectWithin depth content := by
  cases depth with
  | zero => rfl
  | succ depth => rw [schemaOfObjectWithin_eq, schemaOfObjectWithin_eq, scan, scan, entriesOf]

theorem exists_kept_of_example (h : (r.exampleObjectWithin depth content).result = .ok t)
    : ∃ kept seen, keepLast (entriesOf content) = .ok (kept, seen) := by
  cases depth with
  | zero => contradiction
  | succ depth =>
    rw [exampleObjectWithin_eq, Logged.result_map, Outcome.map_eq_ok] at h
    obtain ⟨added, hadded, -⟩ := h
    apply exists_keepLast ?_ hadded
    intro e t hkind ht
    obtain ⟨key, _, hkey, hhashable, -⟩ := exampleEntries_member_eq_ok hkind ht
    exact ⟨key, hkey, hhashable⟩

theorem exists_kept_of_schema (h : (r.schemaOfObjectWithin depth content).result = .ok s)
    : ∃ kept seen, keepLast (entriesOf content) = .ok (kept, seen) := by
  cases depth with
  | zero => contradiction
  | succ depth =>
    rw [schemaOfObjectWithin_eq, Logged.result_map, Outcome.map_eq_ok] at h
    obtain ⟨added, hadded, -⟩ := h
    apply exists_keepLast ?_ hadded
    intro e g hkind hg
    obtain ⟨key, _, hkey, hhashable, -⟩ := schemaEntries_member_eq_ok hkind hg
    exact ⟨key, hkey, hhashable⟩

theorem Interchangeable.keepLast_eq {xs ys : List Value} (h : Interchangeable xs ys)
    : keepLast xs = keepLast ys := by
  simpa using h []

/--
Contents that are interchangeable have examples with the same entries, if they have any.
-/
theorem agrees_example_of_interchangeable
    (h : Interchangeable (entriesOf content) (entriesOf content'))
    (ht : (r.exampleObjectWithin n content).result = .ok t)
    (hu : (r.exampleObjectWithin m content').result = .ok u) : t.Agrees u := by
  -- Both agree with the example of the entries that are kept of either content.
  obtain ⟨kept, seen, hkept⟩ := exists_kept_of_example ht
  have hkept' := h.keepLast_eq ▸ hkept
  rw [← exampleObjectWithin_entriesOf] at ht hu
  obtain ⟨w, hw, hagrees⟩ := agrees_example_of_keepLast ht hkept
  obtain ⟨w', hw', hagrees'⟩ := agrees_example_of_keepLast hu hkept'
  rw [eq_of_exampleObjectWithin hw' hw] at hagrees'
  exact hagrees.trans hagrees'.symm

theorem agrees_schema_of_interchangeable
    (h : Interchangeable (entriesOf content) (entriesOf content'))
    (hs : (r.schemaOfObjectWithin n content).result = .ok s)
    (hs' : (r.schemaOfObjectWithin m content').result = .ok s')
    : (∃ t u, s.properties = some t ∧ s'.properties = some u ∧ Table.Agrees t u)
        ∧ s.exclusive = s'.exclusive := by
  obtain ⟨kept, seen, hkept⟩ := exists_kept_of_schema hs
  have hkept' := h.keepLast_eq ▸ hkept
  rw [← schemaOfObjectWithin_entriesOf] at hs hs'
  obtain ⟨k, t, w, hk, ht, hw, hagrees, hexclusive⟩ := agrees_schema_of_keepLast hs hkept
  obtain ⟨k', u, w', hk', hu, hw', hagrees', hexclusive'⟩ := agrees_schema_of_keepLast hs' hkept'
  rw [eq_of_schemaOfObjectWithin hk' hk] at hw' hexclusive'
  rw [hw, Option.some.injEq] at hw'
  subst hw'
  exact ⟨⟨t, u, ht, hu, hagrees.trans hagrees'.symm⟩, hexclusive.trans hexclusive'.symm⟩

end Compiled

end Registry

end ApiElements
