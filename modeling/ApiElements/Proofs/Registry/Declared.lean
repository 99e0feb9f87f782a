import ApiElements.Proofs.Compile.Confined
import ApiElements.Proofs.Value.Keyed

/-!
This module contains the registry of declarations whose identifiers differ: it has an entry for each
declaration with an identifier, in their order, and what it has under a name does not depend on that
order.
-/

namespace ApiElements

def Element.entry? (e : Element) : Option (Value × Element) :=
  match e.id with
  | .ok id => if id.isNull then none else some (id, e)
  | .error _ => none

/--
An element without an identifier, or with one that can serve as a key.
-/
def Element.Declarable (e : Element) : Prop :=
  ∃ id, e.id = .ok id ∧ (id = .null ∨ id.hashable = true)

namespace Table

variable {α : Type} {t u : Table α} {k : Value}

theorem Keyed.get?_eq_some_iff (h : t.Keyed) (hk : k.hashable = true) {x : α}
    : t.get? k = some x ↔ ∃ key, (key, x) ∈ t ∧ k.same key = true := by
  constructor
  . exact mem_of_get?
  . rintro ⟨key, hmem, hsame⟩
    rw [get?_congr hk (h.hashable _ hmem) hsame]
    exact h.get?_of_mem hmem

theorem Keyed.perm (h : t.Keyed) (hperm : t.Perm u) : u.Keyed where
  hashable := fun entry hmem => h.hashable entry (hperm.mem_iff.2 hmem)
  distinct := by
    -- Equality of keys is symmetric as far as they can be keys at all.
    have hpairwise : t.Pairwise fun x y => x.1.hashable = true → y.1.hashable = true →
        x.1.same y.1 = false := by
      exact h.distinct.imp fun hxy _ _ => hxy
    rw [hperm.pairwise_iff] at hpairwise
    . apply hpairwise.imp_of_mem
      intro x y hx hy hxy
      exact hxy (h.hashable x (hperm.mem_iff.2 hx)) (h.hashable y (hperm.mem_iff.2 hy))
    . intro x y hxy hy hx
      rw [Value.same_comm hy hx]
      exact hxy hx hy

theorem Keyed.get?_perm (h : t.Keyed) (hperm : t.Perm u) (hk : k.hashable = true)
    : t.get? k = u.get? k := by
  ext x
  rw [h.get?_eq_some_iff hk, (h.perm hperm).get?_eq_some_iff hk]
  simp only [hperm.mem_iff]

end Table

namespace Registry

variable {r r' : Registry} {e : Element} {es es' : List Element}

theorem declare_eq_ok
    : r.declare e = .ok r'
        ↔
      ∃ id, e.id = .ok id ∧ (id = .null ∧ r' = r
        ∨ id ≠ .null ∧ id.hashable = true ∧ r' = ⟨r.types.put id e⟩) := by
  unfold declare
  rw [Outcome.bind_eq_ok]
  constructor
  . rintro ⟨id, hid, h⟩
    refine ⟨id, hid, ?_⟩
    split at h
    . next hnull =>
      injection h with h
      exact .inl ⟨Value.isNull_iff.1 hnull, h.symm⟩
    . next hnull =>
      split at h
      . next hhashable =>
        injection h with h
        exact .inr ⟨fun heq => hnull (Value.isNull_iff.2 heq), hhashable, h.symm⟩
      . contradiction
  . rintro ⟨id, hid, ⟨rfl, rfl⟩ | ⟨hnull, hhashable, rfl⟩⟩
    . exact ⟨.null, hid, rfl⟩
    . refine ⟨id, hid, ?_⟩
      rw [if_neg fun h => hnull (Value.isNull_iff.1 h), if_pos hhashable]

theorem declarable_of_foldlM (h : es.foldlM declare r = .ok r') : ∀ e ∈ es, e.Declarable := by
  induction es generalizing r with
  | nil => simp
  | cons e rest ih =>
    rw [List.foldlM_cons, Outcome.bind_eq_ok] at h
    obtain ⟨between, hfirst, hrest⟩ := h
    obtain ⟨id, hid, ⟨hnull, -⟩ | ⟨-, hhashable, -⟩⟩ := declare_eq_ok.1 hfirst
    . exact List.forall_mem_cons.2 ⟨⟨id, hid, .inl hnull⟩, ih hrest⟩
    . exact List.forall_mem_cons.2 ⟨⟨id, hid, .inr hhashable⟩, ih hrest⟩

theorem foldlM_declare (hes : ∀ e ∈ es, e.Declarable)
    : es.foldlM declare r = .ok ⟨r.types.union (es.filterMap Element.entry?)⟩ := by
  induction es generalizing r with
  | nil => rfl
  | cons e rest ih =>
    obtain ⟨⟨id, hid, hcases⟩, hrest⟩ := List.forall_mem_cons.1 hes
    rw [List.foldlM_cons]
    by_cases hnull : id = .null
    . have hentry : e.entry? = none := by
        rw [Element.entry?, hid, hnull]
        rfl
      rw [List.filterMap_cons_none hentry, declare_eq_ok.2 ⟨id, hid, .inl ⟨hnull, rfl⟩⟩,
        Outcome.ok_bind]
      exact ih hrest
    . have hentry : e.entry? = some (id, e) := by
        rw [Element.entry?, hid]
        exact if_neg fun h => hnull (Value.isNull_iff.1 h)
      rw [List.filterMap_cons_some hentry,
        declare_eq_ok.2 ⟨id, hid, .inr ⟨hnull, hcases.resolve_left hnull, rfl⟩⟩, Outcome.ok_bind]
      exact ih hrest

theorem ofElements_eq (hes : ∀ e ∈ es, e.Declarable)
    : ofElements es = .ok ⟨Table.ofList (es.filterMap Element.entry?)⟩ := by
  exact foldlM_declare hes

theorem hashable_entries (hes : ∀ e ∈ es, e.Declarable)
    : ∀ entry ∈ es.filterMap Element.entry?, entry.1.hashable = true := by
  intro entry hmem
  obtain ⟨e, he, hentry⟩ := List.mem_filterMap.1 hmem
  obtain ⟨id, hid, hcases⟩ := hes e he
  rw [Element.entry?, hid] at hentry
  dsimp only at hentry
  split at hentry
  . contradiction
  . next hnull =>
    injection hentry with hentry
    rw [← hentry]
    exact hcases.resolve_left fun heq => hnull (Value.isNull_iff.2 heq)

theorem keyed_entries (hes : ∀ e ∈ es, e.Declarable)
    (hdistinct : (es.filterMap Element.entry?).Pairwise fun x y => x.1.same y.1 = false)
    : Table.Keyed (es.filterMap Element.entry?) where
  hashable := hashable_entries hes
  distinct := hdistinct

theorem ofElements_of_distinct (hes : ∀ e ∈ es, e.Declarable)
    (hdistinct : (es.filterMap Element.entry?).Pairwise fun x y => x.1.same y.1 = false)
    : ofElements es = .ok ⟨es.filterMap Element.entry?⟩ := by
  have hkeyed := keyed_entries hes hdistinct
  rw [ofElements_eq hes, Table.ofList, Table.union_of_apart, List.nil_append]
  rw [List.nil_append]
  apply hdistinct.imp_of_mem
  intro x y hx hy hxy
  rw [Value.same_comm (hkeyed.hashable y hy) (hkeyed.hashable x hx)]
  exact hxy

/--
Such declarations in another order make up a registry with the same entries.
-/
theorem ofElements_perm (h : ofElements es = .ok r)
    (hdistinct : (es.filterMap Element.entry?).Pairwise fun x y => x.1.same y.1 = false)
    (hperm : es.Perm es')
    : ∃ r', ofElements es' = .ok r' ∧ r.types.Keyed ∧ r.types.Perm r'.types := by
  have hes := declarable_of_foldlM h
  have hes' : ∀ e ∈ es', e.Declarable := fun e he => hes e (hperm.mem_iff.2 he)
  have hkeyed := keyed_entries hes hdistinct
  rw [ofElements_of_distinct hes hdistinct, Except.ok.injEq] at h
  subst h
  have hentries := hperm.filterMap Element.entry?
  exact ⟨_, ofElements_of_distinct hes' (hkeyed.perm hentries).distinct, hkeyed, hentries⟩

theorem agreeOn_of_perm (hkeyed : r.types.Keyed) (hperm : r.types.Perm r'.types)
    : AgreeOn (fun _ => True) r r' where
  get?_eq := fun _ _ hhashable => hkeyed.get?_perm hperm hhashable
  closed := fun _ _ _ _ _ _ _ _ => trivial

theorem included_eq_of_perm (hkeyed : r.types.Keyed) (hperm : r.types.Perm r'.types) (depth : Nat)
    {name : Value} (hhashable : name.hashable = true)
    : r.included depth name = r'.included depth name := by
  induction depth generalizing name with
  | zero => rfl
  | succ depth ih =>
    rw [included, included, hkeyed.get?_perm hperm hhashable]
    split
    . rfl
    . apply List.flatMap_congr
      intro v _
      apply scanEntry_congr
      exact fun _ _ _ _ _ hhashable' => ih hhashable'

theorem scan_eq_of_perm (hkeyed : r.types.Keyed) (hperm : r.types.Perm r'.types) (content : Value)
    : r.scan content = r'.scan content := by
  unfold scan
  rw [hperm.length_eq]
  apply List.flatMap_congr
  intro v _
  apply scanEntry_congr
  exact fun _ _ _ _ _ hhashable => included_eq_of_perm hkeyed hperm _ hhashable

end Registry

end ApiElements
