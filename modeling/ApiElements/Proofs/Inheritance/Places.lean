import ApiElements.Proofs.Inheritance.Interchange
import ApiElements.Proofs.Inheritance.Kept
import Mathlib.Data.List.Sort

/-!
This module contains which places of a content are left when repeated members are dropped: those of
all entries that are no members and, for each key, that of the last member with it. There is only one
such subsequence, nothing more is dropped from it, and its members have the same keys.
-/

namespace ApiElements

namespace Registry

section Places

variable {v : Value} {m : Element} {key : Value} {content rest kept kept' : List Value}
variable {places places' : List Nat} {i : Nat}

def memberAt? (content : List Value) (i : Nat) : Option Element :=
  content[i]?.bind Value.member?

theorem memberAt?_cons_zero (v : Value) (rest : List Value)
    : memberAt? (v :: rest) 0 = v.member? := by
  rfl

theorem mem_membersOf_iff : m ∈ membersOf content ↔ ∃ i, memberAt? content i = some m := by
  unfold membersOf memberAt?
  rw [List.mem_filterMap]
  constructor
  . rintro ⟨v, hv, hm⟩
    obtain ⟨i, hi⟩ := List.mem_iff_getElem?.1 hv
    exact ⟨i, by rw [hi, Option.bind_some, hm]⟩
  . rintro ⟨i, hm⟩
    obtain ⟨v, hv, hm⟩ := Option.bind_eq_some_iff.1 hm
    exact ⟨v, List.mem_of_getElem? hv, hm⟩

def NoneBehind (content : List Value) (i : Nat) (key : Value) : Prop :=
  ∀ j later, i < j → memberAt? content j = some later → later.hasKey key = false

theorem noneBehind_cons_zero
    : NoneBehind (v :: rest) 0 key ↔ ∀ later ∈ membersOf rest, later.hasKey key = false := by
  simp only [mem_membersOf_iff]
  constructor
  . rintro h later ⟨j, hj⟩
    exact h (j + 1) later (Nat.succ_pos j) hj
  . intro h j later hlt hj
    cases j with
    | zero => contradiction
    | succ j => exact h later ⟨j, hj⟩

theorem noneBehind_cons_succ : NoneBehind (v :: rest) (i + 1) key ↔ NoneBehind rest i key := by
  constructor
  . intro h j later hlt hj
    exact h (j + 1) later (Nat.succ_lt_succ hlt) hj
  . intro h j later hlt hj
    cases j with
    | zero => contradiction
    | succ j => exact h j later (Nat.lt_of_succ_lt_succ hlt) hj

/--
Of a content the entries at some places are left, in their order: all that are no members, and of the
members with a key exactly the one that no other follows.
-/
structure Leaves (content kept : List Value) (places : List Nat) : Prop where
  ascending : places.Pairwise (· < ·)
  entries : places.map (fun i => content[i]?) = kept.map some
  others : ∀ i v, content[i]? = some v → v.member? = none → i ∈ places
  members : ∀ key : Value, key.hashable = true → ∀ i m, memberAt? content i = some m →
    m.hasKey key = true → (i ∈ places ↔ NoneBehind content i key)

theorem leaves_nil : Leaves [] [] [] where
  ascending := .nil
  entries := rfl
  others := by
    intro i v hv
    simp at hv
  members := by
    intro key _ i m hm
    simp [memberAt?] at hm

theorem Leaves.lt_length (h : Leaves content kept places) (hi : i ∈ places)
    : i < content.length := by
  have hmem : content[i]? ∈ kept.map some := h.entries ▸ List.mem_map_of_mem hi
  obtain ⟨v, -, hv⟩ := List.mem_map.1 hmem
  exact (List.getElem?_eq_some_iff.1 hv.symm).1

theorem mem_map_succ_iff : i + 1 ∈ places.map (· + 1) ↔ i ∈ places := by
  simp

theorem pairwise_map_succ (h : places.Pairwise (· < ·))
    : (places.map (· + 1)).Pairwise (· < ·) := by
  exact List.pairwise_map.2 (h.imp Nat.succ_lt_succ)

theorem Leaves.keep (h : Leaves rest kept places)
    (hlast : ∀ (m : Element) (key : Value), v.member? = some m → key.hashable = true →
      m.hasKey key = true → ∀ later ∈ membersOf rest, later.hasKey key = false)
    : Leaves (v :: rest) (v :: kept) (0 :: places.map (· + 1)) where
  ascending := by
    rw [List.pairwise_cons]
    refine ⟨?_, pairwise_map_succ h.ascending⟩
    intro j hj
    obtain ⟨i, -, rfl⟩ := List.mem_map.1 hj
    exact Nat.succ_pos i
  entries := by
    rw [List.map_cons, List.map_cons, List.map_map, ← h.entries]
    rfl
  others := by
    intro i w hw hother
    cases i with
    | zero => exact List.mem_cons_self
    | succ i => exact List.mem_cons_of_mem _ (mem_map_succ_iff.2 (h.others i w hw hother))
  members := by
    intro key hhashable i m hm hkey
    cases i with
    | zero =>
      rw [noneBehind_cons_zero]
      exact iff_of_true List.mem_cons_self (hlast m key hm hhashable hkey)
    | succ i =>
      rw [noneBehind_cons_succ, ← h.members key hhashable i m hm hkey, List.mem_cons,
        mem_map_succ_iff]
      simp

theorem Leaves.drop (h : Leaves rest kept places) (hmember : v.member? = some m)
    (hagain : ∀ key : Value, key.hashable = true → m.hasKey key = true →
      ∃ later ∈ membersOf rest, later.hasKey key = true)
    : Leaves (v :: rest) kept (places.map (· + 1)) where
  ascending := pairwise_map_succ h.ascending
  entries := by
    rw [List.map_map, ← h.entries]
    rfl
  others := by
    intro i w hw hother
    cases i with
    | zero =>
      injection hw with hw
      rw [← hw, hmember] at hother
      contradiction
    | succ i => exact mem_map_succ_iff.2 (h.others i w hw hother)
  members := by
    intro key hhashable i m' hm' hkey
    cases i with
    | zero =>
      rw [memberAt?_cons_zero, hmember, Option.some.injEq] at hm'
      subst hm'
      obtain ⟨later, hlater, hhas⟩ := hagain key hhashable hkey
      rw [noneBehind_cons_zero]
      refine iff_of_false (by simp) fun hnone => ?_
      rw [hnone later hlater] at hhas
      contradiction
    | succ i =>
      rw [noneBehind_cons_succ, ← h.members key hhashable i m' hm' hkey]
      exact mem_map_succ_iff

/--
All members have keys that can be read and compared.
-/
def KeysRead (content : List Value) : Prop :=
  ∀ m ∈ membersOf content, ∃ key, m.key = .ok key ∧ key.hashable = true

def TextKeys (content : List Value) : Prop :=
  ∀ m ∈ membersOf content, ∃ key value, m.content = .member (.element key) value
    ∧ (key.content = .null ∨ ∃ s, key.content = .text s)

theorem keysRead_of_textKeys (h : TextKeys content) : KeysRead content := by
  intro m hm
  obtain ⟨key, value, hcontent, htext⟩ := h m hm
  unfold Element.key
  rw [hcontent]
  refine ⟨_, rfl, ?_⟩
  rcases htext with htext | ⟨s, htext⟩
  . rw [htext]
    rfl
  . rw [htext]
    split
    . rfl
    . rfl

/--
There is only one way to leave the last member with each key.
-/
theorem Leaves.unique (h : Leaves content kept places) (h' : Leaves content kept' places')
    (hkeys : KeysRead content) : places = places' ∧ kept = kept' := by
  have hplaces : places = places' := by
    refine h.ascending.eq_of_mem_iff h'.ascending fun i => ?_
    cases hv : content[i]? with
    | none =>
      -- Neither has a place at which nothing stands.
      have hlength := List.getElem?_eq_none_iff.1 hv
      exact iff_of_false (fun hi => absurd (h.lt_length hi) (Nat.not_lt.2 hlength))
        fun hi => absurd (h'.lt_length hi) (Nat.not_lt.2 hlength)
    | some v =>
      cases hm : v.member? with
      | none => exact iff_of_true (h.others i v hv hm) (h'.others i v hv hm)
      | some m =>
        have hat : memberAt? content i = some m := by rw [memberAt?, hv, Option.bind_some, hm]
        obtain ⟨key, hkey, hhashable⟩ := hkeys m (mem_membersOf_iff.2 ⟨i, hat⟩)
        have hhas : m.hasKey key = true := by
          rw [hasKey_of_key hkey, Value.same_self hhashable]
        rw [h.members key hhashable i m hat hhas, h'.members key hhashable i m hat hhas]
  refine ⟨hplaces, ?_⟩
  have hentries := h.entries.symm.trans (hplaces ▸ h'.entries)
  exact List.map_injective_iff.2 (Option.some_injective _) hentries

end Places

section Dropped

variable {m : Element} {key : Value} {content kept seen : List Value}

theorem lastWith_eq_none_iff {ms : List Element}
    : lastWith ms key = none ↔ ∀ m ∈ ms, m.hasKey key = false := by
  unfold lastWith
  rw [List.find?_eq_none]
  simp only [List.mem_reverse, Bool.not_eq_true]

theorem exists_hasKey_iff {ms : List Element}
    : (∃ m ∈ ms, m.hasKey key = true) ↔ (lastWith ms key).isSome = true := by
  unfold lastWith
  rw [List.find?_isSome]
  simp only [List.mem_reverse]

/--
The keys that were met tell whether a later member has the key of an earlier one.
-/
theorem isSome_lastWith_of_drops {e : Element} {k : Value} (h : Drops content kept seen)
    (hkey : e.key = .ok key) (hhashable : key.hashable = true) (hk : k.hashable = true)
    (hhas : e.hasKey k = true) : (lastWith (membersOf content) k).isSome = key.memberOf seen := by
  obtain ⟨-, -, hmet⟩ := keepsLast_of_keepLast h.keepLast_eq
  rw [hasKey_of_key hkey] at hhas
  rw [← hmet k hk, Value.memberOf_congr hk hhashable hhas]

theorem exists_leaves_of_keepLast (h : keepLast content = .ok (kept, seen))
    : ∃ places, Leaves content kept places := by
  rw [keepLast_eq_ok_iff] at h
  induction h with
  | nil => exact ⟨[], leaves_nil⟩
  | other not_member _ ih =>
    obtain ⟨places, hleaves⟩ := ih
    refine ⟨_, hleaves.keep fun m _ hm => ?_⟩
    rw [Value.member?_of_other not_member] at hm
    contradiction
  | last kind_eq key_eq hashable new rest ih =>
    obtain ⟨places, hleaves⟩ := ih
    refine ⟨_, hleaves.keep fun m k hm hk hhas => ?_⟩
    rw [Value.member?_of_member kind_eq, Option.some.injEq] at hm
    subst hm
    rw [← lastWith_eq_none_iff, ← Option.isNone_iff_eq_none, ← Option.isSome_eq_false_iff,
      isSome_lastWith_of_drops rest key_eq hashable hk hhas, new]
  | again kind_eq key_eq hashable met rest ih =>
    obtain ⟨places, hleaves⟩ := ih
    refine ⟨_, hleaves.drop (Value.member?_of_member kind_eq) fun k hk hhas => ?_⟩
    rw [exists_hasKey_iff, isSome_lastWith_of_drops rest key_eq hashable hk hhas, met]

theorem keysRead_of_keepLast (h : keepLast content = .ok (kept, seen)) : KeysRead content := by
  rw [keepLast_eq_ok_iff] at h
  induction h with
  | nil =>
    intro m hm
    contradiction
  | other not_member _ ih =>
    rw [KeysRead, membersOf_cons_of_other not_member]
    exact ih
  | last kind_eq key_eq hashable _ _ ih =>
    rw [KeysRead, membersOf_cons_of_member kind_eq, List.forall_mem_cons]
    exact ⟨⟨_, key_eq, hashable⟩, ih⟩
  | again kind_eq key_eq hashable _ _ ih =>
    rw [KeysRead, membersOf_cons_of_member kind_eq, List.forall_mem_cons]
    exact ⟨⟨_, key_eq, hashable⟩, ih⟩

/--
Repeated members can be dropped of a sequence that starts with a member exactly if all keys can be
read.
-/
theorem exists_dropRepeated_iff (hfirst : MemberFirst content)
    : (∃ kept, dropRepeated content = .ok kept) ↔ KeysRead content := by
  rw [dropRepeated_of_memberFirst hfirst]
  simp only [Outcome.map_eq_ok]
  constructor
  . rintro ⟨_, ⟨kept, seen⟩, hlast, -⟩
    exact keysRead_of_keepLast hlast
  . intro hkeys
    obtain ⟨kept, seen, hlast⟩ := exists_keepLast_of_keyed hkeys
    exact ⟨kept, (kept, seen), hlast, rfl⟩

theorem exists_dropRepeated_of_textKeys (h : TextKeys content)
    : ∃ kept, dropRepeated content = .ok kept := by
  by_cases hfirst : MemberFirst content
  . exact (exists_dropRepeated_iff hfirst).2 (keysRead_of_textKeys h)
  . exact ⟨content, dropRepeated_of_not_memberFirst hfirst⟩

theorem exists_leaves_of_dropRepeated (hfirst : MemberFirst content)
    (h : dropRepeated content = .ok kept) : ∃ places, Leaves content kept places := by
  rw [dropRepeated_of_memberFirst hfirst, Outcome.map_eq_ok] at h
  obtain ⟨⟨_, seen⟩, hlast, rfl⟩ := h
  exact exists_leaves_of_keepLast hlast

theorem dropRepeated_dropRepeated (h : dropRepeated content = .ok kept)
    : dropRepeated kept = .ok kept := by
  by_cases hkept : MemberFirst kept
  . by_cases hfirst : MemberFirst content
    . have hsame := (interchangeable_dropRepeated h).keepLast_eq
      rw [dropRepeated_of_memberFirst hkept, hsame, ← dropRepeated_of_memberFirst hfirst, h]
    . rw [dropRepeated_of_not_memberFirst hfirst, Except.ok.injEq] at h
      subst h
      exact absurd hkept hfirst
  . exact dropRepeated_of_not_memberFirst hkept

theorem hasKey_of_dropRepeated (h : dropRepeated content = .ok kept) (hhashable : key.hashable = true)
    : (∃ m ∈ membersOf kept, m.hasKey key = true)
        ↔ ∃ m ∈ membersOf content, m.hasKey key = true := by
  rw [exists_hasKey_iff, exists_hasKey_iff, (keepsLast_dropRepeated h).1.last key hhashable]

end Dropped

/--
A content stays as it is unless it starts with a member. If it does, and if all keys can be read, as
those that are texts can, the only subsequence is left that has every entry which is no member and, for
each key, exactly the last member with it. Dropping again changes nothing, and the keys of the members
are the same.
-/
theorem dropRepeated_leaves_last (content : List Value)
    : (TextKeys content → ∃ kept, dropRepeated content = .ok kept)
        ∧ (¬ MemberFirst content → dropRepeated content = .ok content)
        ∧ (MemberFirst content →
            ((∃ kept, dropRepeated content = .ok kept) ↔ KeysRead content)
            ∧ ∀ kept, dropRepeated content = .ok kept →
                (∃ places, Leaves content kept places)
                ∧ ∀ other places, Leaves content other places → other = kept)
        ∧ ∀ kept, dropRepeated content = .ok kept →
            dropRepeated kept = .ok kept
            ∧ ∀ key : Value, key.hashable = true →
                ((∃ m ∈ membersOf kept, m.hasKey key = true)
                  ↔ ∃ m ∈ membersOf content, m.hasKey key = true) := by
  refine ⟨exists_dropRepeated_of_textKeys, dropRepeated_of_not_memberFirst, ?_, ?_⟩
  . intro hfirst
    refine ⟨exists_dropRepeated_iff hfirst, fun kept hkept => ?_⟩
    obtain ⟨places, hleaves⟩ := exists_leaves_of_dropRepeated hfirst hkept
    have hkeys := (exists_dropRepeated_iff hfirst).1 ⟨kept, hkept⟩
    exact ⟨⟨places, hleaves⟩, fun other places hother => (hother.unique hleaves hkeys).2⟩
  . intro kept hkept
    exact ⟨dropRepeated_dropRepeated hkept, fun key hkey => hasKey_of_dropRepeated hkept hkey⟩

-- What is left need not start with a member again.
example
    : let name := Value.element (plainMember "name" .null)
      let reference := Value.element (plainElement .ref (.ref (.text "Person")))
      dropRepeated [name, reference, name] = .ok [reference, name] := by
  rfl

end Registry

end ApiElements
