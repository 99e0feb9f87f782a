import ApiElements.Proofs.Value.Keyed
import ApiElements.Element.Access
import ApiElements.Schema.OfElement

/-!
This module contains tables that go back to members: under each key the last member that has it has
left its trace.
-/

namespace ApiElements

def Element.hasKey (e : Element) (k : Value) : Bool :=
  match e.key with
  | .ok key => k.same key
  | .error _ => false

def lastWith (ms : List Element) (k : Value) : Option Element :=
  ms.reverse.find? fun m => m.hasKey k

section LastWith

variable {ms : List Element} {m : Element} {k key : Value}

theorem hasKey_of_key (h : m.key = .ok key) : m.hasKey k = k.same key := by
  unfold Element.hasKey
  rw [h]

theorem lastWith_append (ms ms' : List Element) (k : Value)
    : lastWith (ms ++ ms') k = (lastWith ms' k).or (lastWith ms k) := by
  unfold lastWith
  rw [List.reverse_append, List.find?_append]

theorem lastWith_singleton (h : m.key = .ok key)
    : lastWith [m] k = if k.same key then some m else none := by
  unfold lastWith
  rw [List.reverse_singleton, List.find?_singleton, hasKey_of_key h]

theorem lastWith_cons (m : Element) (ms : List Element) (k : Value)
    : lastWith (m :: ms) k = (lastWith ms k).or (lastWith [m] k) := by
  exact lastWith_append [m] ms k

theorem mem_of_lastWith (h : lastWith ms k = some m) : m ∈ ms ∧ m.hasKey k = true := by
  unfold lastWith at h
  exact ⟨List.mem_reverse.1 (List.mem_of_find?_eq_some h), by simpa using List.find?_some h⟩

theorem isSome_lastWith (hmem : m ∈ ms) (hkey : m.key = .ok k) (hhashable : k.hashable = true)
    : (lastWith ms k).isSome = true := by
  unfold lastWith
  rw [List.find?_isSome]
  refine ⟨m, List.mem_reverse.2 hmem, ?_⟩
  rw [hasKey_of_key hkey, Value.same_self hhashable]

end LastWith

/--
A table in which each key has a thing that is related to the last of some members with that key, if
there is one.
-/
structure Tracks {α : Type} (Q : Element → α → Prop) (ms : List Element) (t : Table α) : Prop where
  keyed : t.Keyed
  named : ∀ m ∈ ms, ∃ k, m.key = .ok k ∧ k.hashable = true
  found : ∀ k, k.hashable = true → Option.Rel Q (lastWith ms k) (t.get? k)

namespace Tracks

variable {α : Type} {Q Q' : Element → α → Prop} {ms ms' : List Element} {t t' : Table α}
variable {m : Element} {k key : Value} {x : α}

theorem nil : Tracks Q [] [] where
  keyed := Table.keyed_nil
  named := by simp
  found := fun _ _ => .none

theorem mono (h : Tracks Q ms t) (hmono : ∀ m x, Q m x → Q' m x) : Tracks Q' ms t where
  keyed := h.keyed
  named := h.named
  found := by
    intro k hk
    have hfound := h.found k hk
    revert hfound
    generalize lastWith ms k = m?, t.get? k = x?
    intro hfound
    cases hfound with
    | some hQ => exact .some (hmono _ _ hQ)
    | none => exact .none

theorem exists_of_get? (h : Tracks Q ms t) (hk : k.hashable = true) (hx : t.get? k = some x)
    : ∃ m, lastWith ms k = some m ∧ Q m x := by
  have hfound := h.found k hk
  rw [hx] at hfound
  revert hfound
  generalize lastWith ms k = m?
  intro hfound
  cases hfound with
  | some hQ => exact ⟨_, rfl, hQ⟩

theorem isSome_get? (h : Tracks Q ms t) (hk : k.hashable = true)
    : (t.get? k).isSome = (lastWith ms k).isSome := by
  have hfound := h.found k hk
  revert hfound
  generalize lastWith ms k = m?, t.get? k = x?
  intro hfound
  cases hfound with
  | some _ => rfl
  | none => rfl

theorem put (h : Tracks Q ms t) (hkey : m.key = .ok key) (hhashable : key.hashable = true)
    (hx : Q m x) : Tracks Q (ms ++ [m]) (t.put key x) where
  keyed := h.keyed.put hhashable x
  named := by
    intro m' hmem
    rcases List.mem_append.1 hmem with hmem | hmem
    . exact h.named m' hmem
    . rw [List.mem_singleton] at hmem
      subst hmem
      exact ⟨key, hkey, hhashable⟩
  found := by
    intro k hk
    rw [lastWith_append, lastWith_singleton hkey, Table.get?_put h.keyed.hashable hhashable hk]
    split
    . exact .some hx
    . exact h.found k hk

theorem union (h : Tracks Q ms t) (h' : Tracks Q ms' t') : Tracks Q (ms ++ ms') (t.union t') where
  keyed := h.keyed.union h'.keyed
  named := by
    intro m hmem
    rcases List.mem_append.1 hmem with hmem | hmem
    . exact h.named m hmem
    . exact h'.named m hmem
  found := by
    intro k hk
    have hfound := h.found k hk
    have hfound' := h'.found k hk
    rw [lastWith_append, Table.get?_union h.keyed h'.keyed hk]
    revert hfound hfound'
    generalize lastWith ms k = m?, t.get? k = x?, lastWith ms' k = m'?, t'.get? k = x'?
    intro hfound hfound'
    cases hfound' with
    | some hQ => exact .some hQ
    | none => exact hfound

end Tracks

section Keys

variable {α : Type} {Q : Element → α → Prop} {ms ms' : List Element} {t : Table α}
variable {keys : List Value} {k key : Value}

theorem has_eq_isSome_get? (t : Table α) (k : Value) : t.has k = (t.get? k).isSome := by
  unfold Table.has Table.get?
  rw [Option.isSome_map, List.isSome_find?]

structure Lists (ms : List Element) (keys : List Value) : Prop where
  named : ∀ m ∈ ms, ∃ k, m.key = .ok k ∧ k.hashable = true
  hashable : ∀ key ∈ keys, key.hashable = true
  memberOf : ∀ k, k.hashable = true → k.memberOf keys = (lastWith ms k).isSome

theorem Lists.nil : Lists [] [] where
  named := by simp
  hashable := by simp
  memberOf := fun _ _ => rfl

theorem Lists.ne_nil (h : Lists ms keys) (hkeys : keys ≠ []) : ms ≠ [] := by
  obtain ⟨key, rest, rfl⟩ := List.exists_cons_of_ne_nil hkeys
  have hhashable := h.hashable key (by simp)
  have hmember := h.memberOf key hhashable
  rw [Value.memberOf, List.any_cons, Value.same_self hhashable] at hmember
  rintro rfl
  contradiction

theorem hashable_addKey (hkeys : ∀ x ∈ keys, x.hashable = true) (hkey : key.hashable = true)
    : ∀ x ∈ Schema.addKey keys key, x.hashable = true := by
  intro x hx
  unfold Schema.addKey at hx
  split at hx
  . exact hkeys x hx
  . rcases List.mem_append.1 hx with hx | hx
    . exact hkeys x hx
    . rw [List.mem_singleton] at hx
      rw [hx]
      exact hkey

theorem memberOf_addKey (hkey : key.hashable = true) (hk : k.hashable = true)
    : k.memberOf (Schema.addKey keys key) = (k.memberOf keys || k.same key) := by
  unfold Schema.addKey
  split
  . next hmember =>
    by_cases hsame : k.same key = true
    . rw [Value.memberOf_congr hk hkey hsame, hmember, Bool.true_or]
    . rw [Bool.not_eq_true] at hsame
      rw [hsame, Bool.or_false]
  . unfold Value.memberOf
    rw [List.any_append, List.any_cons, List.any_nil, Bool.or_false]

def addKeys (keys : List Value) (t : Table α) : List Value :=
  t.foldl (fun keys entry => Schema.addKey keys entry.1) keys

theorem hashable_addKeys (hkeys : ∀ x ∈ keys, x.hashable = true)
    (ht : ∀ entry ∈ t, entry.1.hashable = true) : ∀ x ∈ addKeys keys t, x.hashable = true := by
  induction t generalizing keys with
  | nil => exact hkeys
  | cons entry rest ih =>
    apply ih (hashable_addKey hkeys (ht entry (by simp)))
    exact fun e hmem => ht e (List.mem_cons_of_mem _ hmem)

theorem memberOf_foldl_addKey {more : List Value} (hmore : ∀ key ∈ more, key.hashable = true)
    (hk : k.hashable = true)
    : k.memberOf (more.foldl Schema.addKey keys) = (k.memberOf keys || k.memberOf more) := by
  induction more generalizing keys with
  | nil => exact (Bool.or_false _).symm
  | cons key rest ih =>
    rw [List.foldl_cons, ih fun x hmem => hmore x (List.mem_cons_of_mem _ hmem),
      memberOf_addKey (hmore key (by simp)) hk, Bool.or_assoc]
    rfl

theorem addKeys_eq (keys : List Value) (t : Table α)
    : addKeys keys t = t.keys.foldl Schema.addKey keys := by
  exact List.foldl_map.symm

theorem memberOf_addKeys (ht : ∀ entry ∈ t, entry.1.hashable = true) (hk : k.hashable = true)
    : k.memberOf (addKeys keys t) = (k.memberOf keys || t.has k) := by
  have hkeys : ∀ key ∈ t.keys, key.hashable = true := List.forall_mem_map.2 ht
  rw [addKeys_eq, memberOf_foldl_addKey hkeys hk]
  unfold Value.memberOf Table.keys Table.has
  rw [List.any_map]
  rfl

theorem Lists.addKeys (h : Lists ms keys) (ht : Tracks Q ms' t)
    : Lists (ms ++ ms') (addKeys keys t) where
  named := by
    intro m hmem
    rcases List.mem_append.1 hmem with hmem | hmem
    . exact h.named m hmem
    . exact ht.named m hmem
  hashable := hashable_addKeys h.hashable ht.keyed.hashable
  memberOf := by
    intro k hk
    rw [memberOf_addKeys ht.keyed.hashable hk, h.memberOf k hk, has_eq_isSome_get?,
      ht.isSome_get? hk, lastWith_append, Option.isSome_or, Bool.or_comm]

theorem addOption_eq (g : Schema.Gathered) (keys : List Value) (s : Schema)
    : Schema.Gathered.addOption (g, keys) s
        =
      ({ g with properties := g.properties.union (s.properties.getD []) },
        addKeys keys (s.properties.getD [])) := by
  unfold Schema.Gathered.addOption Table.union addKeys
  generalize s.properties.getD [] = ps
  induction ps generalizing g keys with
  | nil => rfl
  | cons p rest ih =>
    rw [List.foldl_cons, List.foldl_cons, List.foldl_cons]
    exact ih { g with properties := g.properties.put p.1 p.2 } (Schema.addKey keys p.1)

end Keys

end ApiElements
