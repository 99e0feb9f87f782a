import ApiElements.Proofs.Inheritance.Interchange
import ApiElements.Proofs.Validation.Tracks

/-!
This module contains what is left of a sequence when repeated members are dropped: every entry that is
no member, and of the members that share a key the last one. No more keys are asked for then.
-/

namespace ApiElements

namespace Value

variable {v : Value} {e : Element}

def member? (v : Value) : Option Element :=
  match v with
  | .element e => if e.isMember then some e else none
  | _ => none

@[simp]
theorem member?_of_member (h : e.kind = .member) : (Value.element e).member? = some e := by
  rw [member?, if_pos (Element.isMember_iff.2 h)]

theorem member?_of_other (h : ∀ e, v = .element e → e.kind ≠ .member) : v.member? = none := by
  cases v with
  | element e =>
    rw [member?, if_neg fun hmember => h e rfl (Element.isMember_iff.1 hmember)]
  | _ => rfl

theorem eq_of_member? (h : v.member? = some e) : v = .element e ∧ e.kind = .member := by
  unfold member? at h
  split at h
  . split at h
    . next hmember =>
      injection h with h
      subst h
      exact ⟨rfl, Element.isMember_iff.1 hmember⟩
    . contradiction
  . contradiction

end Value

namespace Registry

section Members

variable {m : Element} {ms : List Element} {k key : Value} {xs ys : List Value}

def membersOf (entries : List Value) : List Element :=
  entries.filterMap Value.member?

theorem membersOf_append (xs ys : List Value)
    : membersOf (xs ++ ys) = membersOf xs ++ membersOf ys := by
  exact List.filterMap_append

theorem membersOf_cons_of_member (h : m.kind = .member)
    : membersOf (.element m :: xs) = m :: membersOf xs := by
  exact List.filterMap_cons_some (Value.member?_of_member h)

theorem membersOf_cons_of_other {v : Value} (h : ∀ e, v = .element e → e.kind ≠ .member)
    : membersOf (v :: xs) = membersOf xs := by
  exact List.filterMap_cons_none (Value.member?_of_other h)

def KeysDiffer (m m' : Element) : Prop :=
  ∀ key key', m.key = .ok key → m'.key = .ok key' → key.same key' = false

def Distinct (ms : List Element) : Prop :=
  ms.Pairwise KeysDiffer

theorem keysDiffer_of_lastWith (hkey : m.key = .ok key) (h : lastWith ms key = none)
    : ∀ m' ∈ ms, KeysDiffer m m' := by
  intro m' hmem key₀ key' hkey₀ hkey'
  rw [hkey, Except.ok.injEq] at hkey₀
  subst hkey₀
  have hnone := List.find?_eq_none.1 h m' (List.mem_reverse.2 hmem)
  rw [hasKey_of_key hkey'] at hnone
  exact Bool.eq_false_iff.2 hnone

end Members

section Kept

variable {content kept seen xs ys zs : List Value}

/--
What is kept of a sequence: entries in their order, among them all that are no members and under each
key the last member that has it.
-/
structure KeepsLast (content kept : List Value) : Prop where
  sublist : kept.Sublist content
  others : kept.filter (fun v => v.member?.isNone) = content.filter fun v => v.member?.isNone
  last : ∀ k : Value, k.hashable = true →
    lastWith (membersOf kept) k = lastWith (membersOf content) k

theorem keepsLast_self (content : List Value) : KeepsLast content content where
  sublist := List.Sublist.refl content
  others := rfl
  last := fun _ _ => rfl

theorem KeepsLast.trans (h : KeepsLast xs ys) (h' : KeepsLast ys zs) : KeepsLast xs zs where
  sublist := h'.sublist.trans h.sublist
  others := h'.others.trans h.others
  last := fun k hk => (h'.last k hk).trans (h.last k hk)

theorem KeepsLast.append (h : KeepsLast xs ys) (later : List Value)
    : KeepsLast (xs ++ later) (ys ++ later) where
  sublist := h.sublist.append_right later
  others := by rw [List.filter_append, List.filter_append, h.others]
  last := by
    intro k hk
    rw [membersOf_append, membersOf_append, lastWith_append, lastWith_append, h.last k hk]

theorem KeepsLast.cons (h : KeepsLast xs ys) (v : Value) : KeepsLast (v :: xs) (v :: ys) where
  sublist := h.sublist.cons_cons v
  others := by rw [List.filter_cons, List.filter_cons, h.others]
  last := by
    intro k hk
    have hcons : ∀ zs, membersOf (v :: zs) = membersOf [v] ++ membersOf zs := membersOf_append [v]
    rw [hcons xs, hcons ys, lastWith_append, lastWith_append, h.last k hk]

theorem KeepsLast.membersOf (h : KeepsLast content kept)
    : (membersOf kept).Sublist (membersOf content) := by
  exact h.sublist.filterMap Value.member?

theorem KeepsLast.drop {e : Element} {key : Value} (h : KeepsLast xs ys) (hkind : e.kind = .member)
    (hkey : e.key = .ok key)
    (hagain : ∀ k, k.hashable = true → k.same key = true →
      (lastWith (Registry.membersOf xs) k).isSome = true)
    : KeepsLast (.element e :: xs) ys where
  sublist := h.sublist.cons _
  others := by
    rw [h.others, List.filter_cons, Value.member?_of_member hkind]
    rfl
  last := by
    intro k hk
    rw [h.last k hk, membersOf_cons_of_member hkind, lastWith_cons, lastWith_singleton hkey]
    split
    . next hsame =>
      obtain ⟨m, hm⟩ := Option.isSome_iff_exists.1 (hagain k hk hsame)
      rw [hm, Option.some_or]
    . rw [Option.or_none]

/--
If repeated members are dropped, no key is left twice. The keys that were met are those of members.
-/
theorem keepsLast_of_keepLast (h : keepLast content = .ok (kept, seen))
    : KeepsLast content kept ∧ Distinct (membersOf kept)
        ∧ ∀ k : Value, k.hashable = true →
            k.memberOf seen = (lastWith (membersOf content) k).isSome := by
  rw [keepLast_eq_ok_iff] at h
  induction h with
  | nil => exact ⟨keepsLast_self [], .nil, fun _ _ => rfl⟩
  | other not_member _ ih =>
    obtain ⟨hkeeps, hdistinct, hmet⟩ := ih
    rw [membersOf_cons_of_other not_member, membersOf_cons_of_other not_member]
    exact ⟨hkeeps.cons _, hdistinct, hmet⟩
  | last kind_eq key_eq hashable new _ ih =>
    obtain ⟨hkeeps, hdistinct, hmet⟩ := ih
    rw [hmet _ hashable, Option.isSome_eq_false_iff, Option.isNone_iff_eq_none] at new
    refine ⟨hkeeps.cons _, ?_, fun k hk => ?_⟩
    . rw [membersOf_cons_of_member kind_eq]
      have hdiffer := keysDiffer_of_lastWith key_eq new
      exact .cons (fun m hm => hdiffer m (hkeeps.membersOf.subset hm)) hdistinct
    . rw [membersOf_cons_of_member kind_eq, Value.memberOf, List.any_cons, ← Value.memberOf,
        hmet k hk, lastWith_cons, lastWith_singleton key_eq, Option.isSome_or, Bool.or_comm]
      congr 1
      split
      . next hsame => exact hsame
      . next hsame => exact Bool.eq_false_iff.2 hsame
  | @again content _ _ _ key kind_eq key_eq hashable met _ ih =>
    -- The keys stay as they are: a later member has the key of the one that is dropped.
    obtain ⟨hkeeps, hdistinct, hmet⟩ := ih
    have hlater : ∀ k : Value, k.hashable = true → k.same key = true →
        (lastWith (membersOf content) k).isSome = true := by
      intro k hk hsame
      rw [← hmet k hk, Value.memberOf_congr hk hashable hsame, met]
    have hdrop := hkeeps.drop kind_eq key_eq hlater
    refine ⟨hdrop, hdistinct, fun k hk => ?_⟩
    rw [hmet k hk, ← hkeeps.last k hk, hdrop.last k hk]

theorem exists_keepLast_of_keyed
    (h : ∀ m ∈ membersOf content, ∃ key, m.key = .ok key ∧ key.hashable = true)
    : ∃ kept seen, keepLast content = .ok (kept, seen) := by
  induction content with
  | nil => exact ⟨[], [], rfl⟩
  | cons v rest ih =>
    have hothers : ∀ m ∈ membersOf rest, ∃ key, m.key = .ok key ∧ key.hashable = true := by
      intro m hm
      apply h m
      rw [← List.singleton_append, membersOf_append]
      exact List.mem_append_right _ hm
    obtain ⟨kept, seen, hrest⟩ := ih hothers
    apply exists_keepLast_cons hrest
    rintro e rfl hkind
    rw [membersOf_cons_of_member hkind, List.forall_mem_cons] at h
    exact h.1

theorem keepsLast_dropRepeated (h : dropRepeated content = .ok kept)
    : KeepsLast content kept
        ∧ (MemberFirst content ∧ Distinct (membersOf kept)
          ∨ ¬ MemberFirst content ∧ kept = content) := by
  by_cases hfirst : MemberFirst content
  . rw [dropRepeated_of_memberFirst hfirst, Outcome.map_eq_ok] at h
    obtain ⟨⟨_, seen⟩, hlast, rfl⟩ := h
    obtain ⟨hkeeps, hdistinct, -⟩ := keepsLast_of_keepLast hlast
    exact ⟨hkeeps, .inl ⟨hfirst, hdistinct⟩⟩
  . rw [dropRepeated_of_not_memberFirst hfirst, Except.ok.injEq] at h
    subst h
    exact ⟨keepsLast_self content, .inr ⟨hfirst, rfl⟩⟩

end Kept

section Required

open Schema (Gathered)

variable {r : Registry} {depth : Nat} {v : Value} {s s' : Schema} {g g' : Gathered}
variable {kept seen entries : List Value}

theorem required_addMember {e : Element} {key : Value} (h : g.addMember e key s = .ok g')
    : ∃ names, e.typeAttributes = .ok names
        ∧ g'.required
            = if (Value.text "required").memberOf names then Schema.addKey g.required key
              else g.required := by
  unfold Gathered.addMember at h
  simp only [Outcome.bind_eq_ok] at h
  obtain ⟨description, -, names, hnames, k, -, h⟩ := h
  injection h with h
  subst h
  exact ⟨names, hnames, rfl⟩

theorem hashable_required_of_schemaEntries (h : (r.schemaEntries depth v).result = .ok g)
    : ∀ k ∈ g.required, k.hashable = true := by
  rcases select_or_member_or_passedOver v with ⟨e, rfl, hselect⟩ | ⟨e, rfl, hmember⟩ | hpassed
  . obtain ⟨options, schemas, -, -, rfl⟩ := schemaEntries_select_eq_ok hselect h
    simp [Gathered.ofOptions]
  . obtain ⟨key, value, t, -, -, -, hadded⟩ := exists_addMember_of_schemaEntries hmember h
    obtain ⟨-, -, hkey, -, -, hrequired⟩ := addMember_eq_ok hadded
    rcases hrequired with hrequired | hrequired
    . simp [hrequired]
    . rw [hrequired]
      exact hashable_addKey (by simp) hkey
  . rw [schemaEntries_passedOver hpassed] at h
    injection h with h
    subst h
    simp

theorem memberOf_required {gs : List Gathered} {k : Value}
    (hgs : ∀ g ∈ gs, ∀ key ∈ g.required, key.hashable = true) (hk : k.hashable = true)
    : k.memberOf (gs.foldl Gathered.add g).required
        = (k.memberOf g.required || gs.any fun later => k.memberOf later.required) := by
  induction gs generalizing g with
  | nil => exact (Bool.or_false _).symm
  | cons later rest ih =>
    rw [List.foldl_cons, ih fun g hmem => hgs g (List.mem_cons_of_mem _ hmem), Gathered.add,
      memberOf_foldl_addKey (hgs later (by simp)) hk, Bool.or_assoc]
    rfl

theorem required_of_keepLast
    (h : (r.schemaOfObjectWithin depth (.tuple entries)).result = .ok s)
    (hkept : keepLast entries = .ok (kept, seen))
    (h' : (r.schemaOfObjectWithin depth (.tuple kept)).result = .ok s') {k : Value}
    (hk : k.hashable = true) (hmem : k.memberOf s'.required = true) : k.memberOf s.required = true := by
  cases depth with
  | zero => contradiction
  | succ depth =>
    rw [schemaOfObjectWithin_eq, Logged.result_map, Outcome.map_eq_ok] at h h'
    obtain ⟨added, hadded, rfl⟩ := h
    obtain ⟨fewer, hfewer, rfl⟩ := h'
    obtain ⟨fewer', hfewer', hshadowed⟩ := exists_fewer_of_keepLast hadded hkept
    rw [hfewer, Except.ok.injEq] at hfewer'
    subst hfewer'
    have hhashable : ∀ g ∈ added, ∀ key ∈ g.required, key.hashable = true := by
      intro g hg
      obtain ⟨v, -, hv⟩ := exists_of_mem_additions hadded g hg
      exact hashable_required_of_schemaEntries hv
    have hfewerHashable : ∀ g ∈ fewer, ∀ key ∈ g.required, key.hashable = true :=
      fun g hg => hhashable g (hshadowed.mem g hg)
    rw [Gathered.schema, memberOf_required hfewerHashable hk, Bool.or_eq_true] at hmem
    rw [Gathered.schema, memberOf_required hhashable hk, Bool.or_eq_true]
    rcases hmem with hmem | hmem
    . exact .inl hmem
    . obtain ⟨g, hg, hmem⟩ := List.any_eq_true.1 hmem
      exact .inr (List.any_eq_true.2 ⟨g, hshadowed.mem g hg, hmem⟩)

end Required

end Registry

end ApiElements
