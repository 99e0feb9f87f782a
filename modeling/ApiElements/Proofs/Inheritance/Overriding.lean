import ApiElements.Proofs.Inheritance.Kept
import ApiElements.Proofs.Inheritance.Layered

/-!
This module contains what one element after the other makes of the content of a type when they are
merged on top of it. The last member with each key stays the last, but members are dropped only as
long as the merged sequence starts with one.
-/

namespace ApiElements

open Registry

namespace Element

section Step

variable {base override next merged : Element} {items : List Value} {overrides : List Element}

/--
The content that an extending element gives to a sequence: nothing is changed if it has none itself,
and repeated members are dropped if the two sequences together start with a member.
-/
theorem extendBy_sequence (hbase : base.content = .tuple items)
    (hoverride : Registry.Sequential override.content) (h : base.extendBy override = .ok next)
    : ∃ content, next.content = .tuple content
        ∧ KeepsLast (items ++ entriesOf override.content) content
        ∧ (override.content = .null ∧ content = items
          ∨ ∃ ys, override.content = .tuple ys
            ∧ (MemberFirst (items ++ ys) ∧ Distinct (membersOf content)
              ∨ ¬ MemberFirst (items ++ ys) ∧ content = items ++ ys)) := by
  obtain ⟨-, hmerged⟩ := extendBy_eq_ok h
  rw [hbase] at hmerged
  rcases hoverride with hnull | ⟨ys, hys⟩
  . rw [hnull] at hmerged ⊢
    injection hmerged with hmerged
    refine ⟨items, hmerged.symm, ?_, .inl ⟨rfl, rfl⟩⟩
    rw [show entriesOf .null = [] from rfl, List.append_nil]
    exact keepsLast_self items
  . rw [hys] at hmerged ⊢
    obtain ⟨content, hdrop, hcontent⟩ := Outcome.map_eq_ok.1 hmerged
    obtain ⟨hkeeps, hcases⟩ := keepsLast_dropRepeated hdrop
    exact ⟨content, hcontent.symm, hkeeps, .inr ⟨ys, rfl, hcases⟩⟩

/--
What some elements append to the content of a type, if none of it is dropped.
-/
def appended (overrides : List Element) : List Value :=
  overrides.flatMap fun e => entriesOf e.content

theorem appended_cons (override : Element) (overrides : List Element)
    : appended (override :: overrides) = entriesOf override.content ++ appended overrides := by
  exact List.flatMap_cons

theorem keepsLast_extendBy (hbase : base.content = .tuple items)
    (hoverrides : ∀ e ∈ overrides, Registry.Sequential e.content)
    (h : overrides.foldlM extendBy base = .ok merged)
    : ∃ kept, merged.content = .tuple kept ∧ KeepsLast (items ++ appended overrides) kept := by
  induction overrides generalizing base items with
  | nil =>
    injection h with h
    subst h
    refine ⟨items, hbase, ?_⟩
    rw [appended, List.flatMap_nil, List.append_nil]
    exact keepsLast_self items
  | cons override rest ih =>
    rw [List.forall_mem_cons] at hoverrides
    rw [List.foldlM_cons, Outcome.bind_eq_ok] at h
    obtain ⟨next, hnext, hrest⟩ := h
    obtain ⟨content, hcontent, hkeeps, -⟩ := extendBy_sequence hbase hoverrides.1 hnext
    obtain ⟨kept, hkept, hall⟩ := ih hcontent hoverrides.2 hrest
    refine ⟨kept, hkept, ?_⟩
    rw [appended_cons, ← List.append_assoc]
    exact (hkeeps.append (appended rest)).trans hall

/--
Once something else than a member has come first, nothing is dropped any more.
-/
theorem displaced_extendBy (hbase : base.content = .tuple items) (hne : items ≠ [])
    (hfirst : ¬ MemberFirst items) (hoverrides : ∀ e ∈ overrides, Registry.Sequential e.content)
    (h : overrides.foldlM extendBy base = .ok merged)
    : merged.content = .tuple (items ++ appended overrides) := by
  induction overrides generalizing base items with
  | nil =>
    injection h with h
    rw [appended, List.flatMap_nil, List.append_nil, ← h, hbase]
  | cons override rest ih =>
    rw [List.forall_mem_cons] at hoverrides
    rw [List.foldlM_cons, Outcome.bind_eq_ok] at h
    obtain ⟨next, hnext, hrest⟩ := h
    obtain ⟨content, hcontent, -, hcases⟩ := extendBy_sequence hbase hoverrides.1 hnext
    have hlater : ∀ ys, ¬ MemberFirst (items ++ ys) := by
      intro ys hmember
      rcases memberFirst_append.1 hmember with hmember | ⟨hnil, -⟩
      . exact hfirst hmember
      . exact hne hnil
    have happend : content = items ++ entriesOf override.content := by
      rcases hcases with ⟨hnull, rfl⟩ | ⟨ys, hys, ⟨hmember, -⟩ | ⟨-, rfl⟩⟩
      . rw [hnull, show entriesOf .null = [] from rfl, List.append_nil]
      . exact absurd hmember (hlater ys)
      . rw [hys]
        rfl
    rw [appended_cons, ← List.append_assoc, ← happend]
    refine ih hcontent ?_ ?_ hoverrides.2 hrest
    . rw [happend]
      exact List.append_ne_nil_of_left_ne_nil hne _
    . rw [happend]
      exact hlater _

end Step

section Guarded

variable {base override next merged : Element} {items : List Value} {overrides : List Element}

/--
Wherever a sequence is appended, the content as it is by then and the sequence start with a member,
or none of their members have a key in common.
-/
def Guarded (base : Element) (overrides : List Element) : Prop :=
  ∀ earlier override later, overrides = earlier ++ override :: later →
    ∀ sofar ys, earlier.foldlM extendBy base = .ok sofar → override.content = .tuple ys →
      MemberFirst (entriesOf sofar.content ++ ys)
        ∨ Distinct (membersOf (entriesOf sofar.content ++ ys))

theorem guarded_nil (base : Element) : Guarded base [] := by
  intro earlier override later heq
  exact absurd heq.symm (List.append_ne_nil_of_right_ne_nil earlier (List.cons_ne_nil _ _))

theorem guarded_cons (h : base.extendBy override = .ok next)
    : Guarded base (override :: overrides)
        ↔ (∀ ys, override.content = .tuple ys → MemberFirst (entriesOf base.content ++ ys)
              ∨ Distinct (membersOf (entriesOf base.content ++ ys)))
            ∧ Guarded next overrides := by
  have hthrough : ∀ earlier : List Element, (override :: earlier).foldlM extendBy base
      = earlier.foldlM extendBy next := by
    intro earlier
    rw [List.foldlM_cons, h, Outcome.ok_bind]
  constructor
  . intro hguarded
    refine ⟨fun ys hys => hguarded [] override overrides rfl base ys rfl hys, ?_⟩
    intro earlier other later heq sofar ys hsofar hys
    exact hguarded (override :: earlier) other later (heq ▸ rfl) sofar ys
      ((hthrough earlier).trans hsofar) hys
  . rintro ⟨hnow, hlater⟩ earlier other later heq sofar ys hsofar hys
    cases earlier with
    | nil =>
      injection hsofar with hsofar
      injection heq with hother
      exact hsofar ▸ hnow ys (hother ▸ hys)
    | cons first earlier =>
      injection heq with hfirst heq
      subst hfirst
      exact hlater earlier other later heq sofar ys ((hthrough earlier).symm.trans hsofar) hys

theorem guarded_of_members (hbase : base.content = .tuple items)
    (hoverrides : ∀ e ∈ overrides, Registry.Sequential e.content)
    (hmembers : ∀ v ∈ items ++ appended overrides, ∃ e, v = .element e ∧ e.kind = .member)
    : Guarded base overrides := by
  rintro earlier override later rfl sofar ys hsofar hys
  rw [List.forall_mem_append] at hoverrides
  obtain ⟨kept, hkept, hkeeps⟩ := keepsLast_extendBy hbase hoverrides.1 hsofar
  rw [hkept]
  cases hall : entriesOf (.tuple kept) ++ ys with
  | nil => exact .inr .nil
  | cons v rest =>
    have hsublist := hkeeps.sublist.append_right ys
    have hmem : v ∈ (items ++ appended earlier) ++ ys := hsublist.subset (hall ▸ List.mem_cons_self)
    have happended : appended (earlier ++ override :: later)
        = appended earlier ++ (ys ++ appended later) := by
      rw [appended, List.flatMap_append, List.flatMap_cons, hys]
      rfl
    obtain ⟨e, rfl, hkind⟩ := hmembers v <| by
      rw [happended, ← List.append_assoc, ← List.append_assoc]
      exact List.mem_append_left _ hmem
    exact .inl ⟨e, rest, rfl, hkind⟩

/--
No key is left twice exactly if all that is appended is guarded, and a base that nothing is appended
to has no key twice itself.
-/
theorem distinct_extendBy_iff {kept : List Value} (hbase : base.content = .tuple items)
    (hoverrides : ∀ e ∈ overrides, Registry.Sequential e.content)
    (h : overrides.foldlM extendBy base = .ok merged) (hkept : merged.content = .tuple kept)
    : Distinct (membersOf kept) ↔ ((∀ e ∈ overrides, e.content = .null) → Distinct (membersOf items))
        ∧ Guarded base overrides := by
  induction overrides generalizing base items with
  | nil =>
    injection h with h
    rw [← h, hbase, Value.tuple.injEq] at hkept
    simp [hkept, guarded_nil]
  | cons override rest ih =>
    rw [List.forall_mem_cons] at hoverrides
    rw [List.foldlM_cons, Outcome.bind_eq_ok] at h
    obtain ⟨next, hnext, hrest⟩ := h
    obtain ⟨content, hcontent, -, hcases⟩ := extendBy_sequence hbase hoverrides.1 hnext
    rw [ih hcontent hoverrides.2 hrest, guarded_cons hnext, hbase, List.forall_mem_cons]
    rcases hcases with ⟨hnull, rfl⟩ | ⟨ys, hys, hcases⟩
    . simp [hnull]
    have hentries : entriesOf (.tuple items) = items := rfl
    simp only [hys, hentries, reduceCtorEq, false_and, false_imp_iff, true_and, Value.tuple.injEq,
      forall_eq']
    rcases hcases with ⟨hfirst, hdistinct⟩ | ⟨hfirst, rfl⟩
    . simp [hfirst, hdistinct]
    . -- From here on everything is appended, so that a key that comes twice is never dropped.
      have happended : Distinct (membersOf kept) → Distinct (membersOf (items ++ ys)) := by
        intro hdistinct
        by_cases hne : items ++ ys = []
        . rw [hne]
          exact .nil
        . rw [displaced_extendBy hcontent hne hfirst hoverrides.2 hrest, Value.tuple.injEq] at hkept
          rw [← hkept, membersOf_append] at hdistinct
          exact hdistinct.sublist (List.sublist_append_left _ _)
      simp only [hfirst, false_or]
      constructor
      . intro hall
        exact ⟨happended ((ih hcontent hoverrides.2 hrest).2 hall), hall.2⟩
      . rintro ⟨hdistinct, hguarded⟩
        exact ⟨fun _ => hdistinct, hguarded⟩

end Guarded

section Returns

variable {base override : Element} {items : List Value} {overrides : List Element}

/--
An element that can be merged: it has tables, a sequence for a content unless there is none, and keys
that can be read.
-/
structure Mergeable (e : Element) : Prop where
  info : ∃ t, e.info = .object t
  attributes : ∃ t, e.attributes = .object t
  content : Registry.Sequential e.content
  keyed : ∀ m ∈ membersOf (entriesOf e.content), ∃ key, m.key = .ok key ∧ key.hashable = true

theorem exists_extendBy (hbase : base.Mergeable) (hoverride : override.Mergeable)
    : ∃ next, base.extendBy override = .ok next := by
  obtain ⟨t, ht⟩ := hbase.info
  obtain ⟨t', ht'⟩ := hbase.attributes
  obtain ⟨u, hu⟩ := hoverride.info
  obtain ⟨u', hu'⟩ := hoverride.attributes
  have hcontent : ∃ content, mergeContent base.content override.content = .ok content := by
    rcases hoverride.content with hnull | ⟨ys, hys⟩
    . rw [hnull]
      exact ⟨_, rfl⟩
    . rw [hys, mergeContent_tuple]
      by_cases hfirst : MemberFirst (entriesOf base.content ++ ys)
      . have hkeyed := hoverride.keyed
        rw [hys, show entriesOf (.tuple ys) = ys from rfl] at hkeyed
        have hall := List.forall_mem_append.2 ⟨hbase.keyed, hkeyed⟩
        rw [← membersOf_append] at hall
        obtain ⟨kept, seen, hkept⟩ := exists_keepLast_of_keyed hall
        rw [dropRepeated_of_memberFirst hfirst, hkept]
        exact ⟨_, rfl⟩
      . rw [dropRepeated_of_not_memberFirst hfirst]
        exact ⟨_, rfl⟩
  obtain ⟨content, hcontent⟩ := hcontent
  rw [extendBy, ht, hu, ht', hu', hcontent]
  exact ⟨_, rfl⟩

theorem Mergeable.extendBy {next : Element} (hbase : base.Mergeable) (hoverride : override.Mergeable)
    (h : base.extendBy override = .ok next) : next.Mergeable := by
  obtain ⟨⟨t, u, -, -, hinfo⟩, t', u', -, -, hattributes⟩ := extendBy_tables h
  obtain ⟨-, hmerged⟩ := extendBy_eq_ok h
  refine ⟨⟨_, hinfo⟩, ⟨_, hattributes⟩,
    (interchangeable_mergeContent hbase.content hoverride.content hmerged).1, ?_⟩
  rcases hoverride.content with hnull | ⟨ys, hys⟩
  . rw [hnull] at hmerged
    injection hmerged with hmerged
    rw [← hmerged]
    exact hbase.keyed
  . rw [hys, mergeContent_tuple, Outcome.map_eq_ok] at hmerged
    obtain ⟨content, hdrop, hcontent⟩ := hmerged
    rw [← hcontent]
    intro m hm
    have hmem := (keepsLast_dropRepeated hdrop).1.membersOf.subset hm
    rw [membersOf_append, List.mem_append] at hmem
    rcases hmem with hmem | hmem
    . exact hbase.keyed m hmem
    . exact hoverride.keyed m (hys ▸ hmem)

theorem exists_foldlM_extendBy (hbase : base.Mergeable) (hoverrides : ∀ e ∈ overrides, e.Mergeable)
    : ∃ merged, overrides.foldlM extendBy base = .ok merged := by
  induction overrides generalizing base with
  | nil => exact ⟨base, rfl⟩
  | cons override rest ih =>
    rw [List.forall_mem_cons] at hoverrides
    obtain ⟨next, hnext⟩ := exists_extendBy hbase hoverrides.1
    rw [List.foldlM_cons, hnext, Outcome.ok_bind]
    exact ih (hbase.extendBy hoverrides.1 hnext) hoverrides.2

end Returns

/--
Merging elements on top of a type always gives an element that has all entries that are no members, and
under each key the last member of the whole sequence. It has no other member with that key exactly if
each appended sequence is guarded and something is appended at all, unless the base has distinct keys.
-/
theorem extendBy_keeps_last {base : Element} {items : List Value} {overrides : List Element}
    (hbase : base.content = .tuple items) (hoverrides : ∀ e ∈ overrides, Registry.Sequential e.content)
    : (∀ merged, overrides.foldlM extendBy base = .ok merged →
          ∃ kept, merged.content = .tuple kept ∧ KeepsLast (items ++ appended overrides) kept
            ∧ (Distinct (membersOf kept)
                ↔ ((∀ e ∈ overrides, e.content = .null) → Distinct (membersOf items))
                    ∧ Guarded base overrides))
        ∧ (base.Mergeable → (∀ e ∈ overrides, e.Mergeable) →
            ∃ merged, overrides.foldlM extendBy base = .ok merged) := by
  refine ⟨fun merged hmerged => ?_, exists_foldlM_extendBy⟩
  obtain ⟨kept, hkept, hkeeps⟩ := keepsLast_extendBy hbase hoverrides hmerged
  exact ⟨kept, hkept, hkeeps, distinct_extendBy_iff hbase hoverrides hmerged hkept⟩

section Samples

def bareMembers (names : List String) : List Value :=
  names.map fun name => .element (plainMember name .null)

def ticket : Element :=
  plainElement .object (.tuple (bareMembers ["id", "title", "id"]))

def retitled : Element :=
  plainElement .object (.tuple (bareMembers ["title", "due"]))

theorem mergeable_of_members (names : List String)
    : (plainElement .object (.tuple (bareMembers names))).Mergeable where
  info := ⟨_, rfl⟩
  attributes := ⟨_, rfl⟩
  content := .inr ⟨_, rfl⟩
  keyed := by
    intro m hm
    obtain ⟨v, hv, hmember⟩ := List.mem_filterMap.1 hm
    obtain ⟨name, -, rfl⟩ := List.mem_map.1 hv
    rw [Value.member?_of_member rfl, Option.some.injEq] at hmember
    subst hmember
    refine ⟨_, rfl, ?_⟩
    split
    . rfl
    . rfl

theorem extendBy_keeps_last_ticket
    : ticket.content = .tuple (bareMembers ["id", "title", "id"])
        ∧ (∀ e ∈ [retitled, retitled], Registry.Sequential e.content)
        ∧ ∃ merged, [retitled, retitled].foldlM extendBy ticket = .ok merged
            ∧ merged.content = .tuple (bareMembers ["id", "title", "due"])
            ∧ Distinct (membersOf (bareMembers ["id", "title", "due"])) := by
  have hticket : ticket.content = .tuple (bareMembers ["id", "title", "id"]) := rfl
  have hsequential : ∀ e ∈ [retitled, retitled], Registry.Sequential e.content := by
    simp [retitled, plainElement, Element.content, Registry.Sequential]
  have hmergeable : ∀ e ∈ [retitled, retitled], e.Mergeable := by
    simp [retitled, mergeable_of_members]
  obtain ⟨hall, hreturns⟩ := extendBy_keeps_last hticket hsequential
  obtain ⟨merged, hmerged⟩ := hreturns (mergeable_of_members _) hmergeable
  obtain ⟨kept, hkept, -, hdistinct⟩ := hall merged hmerged
  have hcomputed : [retitled, retitled].foldlM extendBy ticket
      = .ok (plainElement .object (.tuple (bareMembers ["id", "title", "due"]))) := by
    rfl
  rw [hmerged, Except.ok.injEq] at hcomputed
  subst hcomputed
  injection hkept with hkept
  subst hkept
  refine ⟨hticket, hsequential, _, hmerged, rfl, hdistinct.2 ⟨?_, ?_⟩⟩
  . intro hnull
    exact absurd (hnull retitled (by simp)) (by simp [retitled, plainElement, Element.content])
  . apply guarded_of_members hticket hsequential
    simp [bareMembers, appended, retitled, plainMember, plainElement, entriesOf, Element.content,
      Element.kind]

def issue : Value :=
  .element (plainElement .ref (.ref (.text "Issue")))

def renumbered : Element :=
  plainElement .object (.tuple (bareMembers ["id"]))

/--
If the first member is dropped and an include comes to be the first entry, a member that is appended
twice stays twice; so does one that the base has twice, if it is only referred to.
-/
theorem member_stays_twice
    : [renumbered, renumbered].foldlM extendBy
            (plainElement .object (.tuple (bareMembers ["id"] ++ [issue])))
          = .ok (plainElement .object (.tuple (issue :: bareMembers ["id", "id"])))
        ∧ ¬ Distinct (membersOf (issue :: bareMembers ["id", "id"]))
        ∧ [plainElement (.named (.text "Ticket")) .null].foldlM extendBy
            (plainElement .object (.tuple (bareMembers ["id", "id"])))
          = .ok (plainElement .object (.tuple (bareMembers ["id", "id"])))
        ∧ ¬ Distinct (membersOf (bareMembers ["id", "id"])) := by
  have htwice : ¬ Distinct (membersOf (bareMembers ["id", "id"])) := by
    intro hdistinct
    have hdiffer := List.rel_of_pairwise_cons hdistinct List.mem_cons_self
    exact absurd (hdiffer _ _ rfl rfl) (by decide)
  exact ⟨rfl, htwice, rfl, htwice⟩

end Samples

end Element

end ApiElements
