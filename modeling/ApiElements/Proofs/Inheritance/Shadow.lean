import ApiElements.Proofs.Compile.Entries
import ApiElements.Proofs.Inheritance.Merge

/-!
This module contains how repeated members are dropped from a content, and that they can be: what they
would have added to a table is put in again by the later member with the same key.
-/

namespace ApiElements

namespace Table

variable {α : Type} {t u : Table α}

structure Agrees (t u : Table α) : Prop where
  keyed_left : t.Keyed
  keyed_right : u.Keyed
  get?_eq : ∀ k, k.hashable = true → t.get? k = u.get? k

theorem Keyed.agrees_self (h : t.Keyed) : t.Agrees t where
  keyed_left := h
  keyed_right := h
  get?_eq := fun _ _ => rfl

theorem Agrees.symm (h : t.Agrees u) : u.Agrees t where
  keyed_left := h.keyed_right
  keyed_right := h.keyed_left
  get?_eq := fun k hk => (h.get?_eq k hk).symm

theorem Agrees.trans {w : Table α} (h : t.Agrees u) (h' : u.Agrees w) : t.Agrees w where
  keyed_left := h.keyed_left
  keyed_right := h'.keyed_right
  get?_eq := fun k hk => (h.get?_eq k hk).trans (h'.get?_eq k hk)

theorem get?_put_congr (ht : t.Keyed) (hu : u.Keyed) {key k : Value}
    (hkey : key.hashable = true) (hk : k.hashable = true) (x : α)
    (h : k.same key = false → t.get? k = u.get? k) : (t.put key x).get? k = (u.put key x).get? k := by
  rw [get?_put ht.hashable hkey hk, get?_put hu.hashable hkey hk]
  split
  . rfl
  . next hsame => exact h (by simpa using hsame)

theorem get?_union_congr {entries : List (Value × α)}
    (hentries : ∀ entry ∈ entries, entry.1.hashable = true) (ht : t.Keyed) (hu : u.Keyed) {k : Value}
    (hk : k.hashable = true)
    (h : (∀ entry ∈ entries, k.same entry.1 = false) → t.get? k = u.get? k)
    : (t.union entries).get? k = (u.union entries).get? k := by
  unfold Table.union
  induction entries generalizing t u with
  | nil => exact h (by simp)
  | cons entry rest ih =>
    have hentry := hentries entry (by simp)
    apply ih (fun e hmem => hentries e (List.mem_cons_of_mem _ hmem)) (ht.put hentry entry.2)
      (hu.put hentry entry.2)
    intro hrest
    apply get?_put_congr ht hu hentry hk
    intro hsame
    exact h (List.forall_mem_cons.2 ⟨hsame, hrest⟩)

theorem get?_union_of_not_same {entries : List (Value × α)}
    (hentries : ∀ entry ∈ entries, entry.1.hashable = true) (ht : t.Keyed) {k : Value}
    (hk : k.hashable = true) (h : ∀ entry ∈ entries, k.same entry.1 = false)
    : (t.union entries).get? k = t.get? k := by
  unfold Table.union
  induction entries generalizing t with
  | nil => rfl
  | cons entry rest ih =>
    have hentry := hentries entry (by simp)
    obtain ⟨hsame, hrest⟩ := List.forall_mem_cons.1 h
    rw [List.foldl_cons, ih (fun e hmem => hentries e (List.mem_cons_of_mem _ hmem))
      (ht.put hentry entry.2) hrest, get?_put ht.hashable hentry hk, if_neg (by simp [hsame])]

end Table

section Shadowed

variable {α β γ : Type} {entries : α → List (Value × β)} {p : α → Prop} {xs ys : List α}

/--
The second list leaves out some of the first one: things with a property of which every entry is put
in again, under the same key, by something that comes later and stays.
-/
inductive Shadowed (entries : α → List (Value × β)) (p : α → Prop) : List α → List α → Prop where
  | nil : Shadowed entries p [] []
  | keep {xs ys : List α} (x : α) (rest : Shadowed entries p xs ys)
    : Shadowed entries p (x :: xs) (x :: ys)
  | drop {xs ys : List α} {x : α} (droppable : p x)
    (again : ∀ entry ∈ entries x, ∃ y ∈ ys, ∃ entry' ∈ entries y, entry.1.same entry'.1 = true)
    (rest : Shadowed entries p xs ys) : Shadowed entries p (x :: xs) ys

theorem Shadowed.append_left (h : Shadowed entries p xs ys) (kept : List α)
    : Shadowed entries p (kept ++ xs) (kept ++ ys) := by
  induction kept with
  | nil => exact h
  | cons x kept ih => exact .keep x ih

theorem Shadowed.mem (h : Shadowed entries p xs ys) : ∀ y ∈ ys, y ∈ xs := by
  induction h with
  | nil => simp
  | keep x _ ih =>
    intro y hy
    rcases List.mem_cons.1 hy with rfl | hy
    . simp
    . exact List.mem_cons_of_mem _ (ih y hy)
  | drop _ _ _ ih => exact fun y hy => List.mem_cons_of_mem _ (ih y hy)

theorem Shadowed.flatMap_eq {f : α → List γ} (h : Shadowed entries p xs ys)
    (hf : ∀ x ∈ xs, p x → f x = []) : xs.flatMap f = ys.flatMap f := by
  induction h with
  | nil => rfl
  | keep x _ ih =>
    rw [List.flatMap_cons, List.flatMap_cons, ih fun x hmem => hf x (List.mem_cons_of_mem _ hmem)]
  | @drop _ _ x droppable _ _ ih =>
    rw [List.flatMap_cons, hf x (by simp) droppable, List.nil_append,
      ih fun x hmem => hf x (List.mem_cons_of_mem _ hmem)]

/--
Two tables that differ in keys only that are still to be put in come to agree.
-/
theorem Shadowed.agrees (h : Shadowed entries p xs ys)
    (hhashable : ∀ x ∈ xs, ∀ entry ∈ entries x, entry.1.hashable = true) {t u : Table β}
    (ht : t.Keyed) (hu : u.Keyed)
    (heq : ∀ k, k.hashable = true → (∀ y ∈ ys, ∀ entry ∈ entries y, k.same entry.1 = false) →
      t.get? k = u.get? k)
    : Table.Agrees (xs.foldl (fun t x => t.union (entries x)) t)
        (ys.foldl (fun t y => t.union (entries y)) u) := by
  induction h generalizing t u with
  | nil => exact ⟨ht, hu, fun k hk => heq k hk (by simp)⟩
  | keep x _ ih =>
    have hx := hhashable x (by simp)
    apply ih (fun x hmem => hhashable x (List.mem_cons_of_mem _ hmem)) (ht.union_of_hashable hx)
      (hu.union_of_hashable hx)
    intro k hk hrest
    apply Table.get?_union_congr hx ht hu hk
    intro hown
    exact heq k hk (List.forall_mem_cons.2 ⟨hown, hrest⟩)
  | @drop _ _ x _ again _ ih =>
    -- The keys of what is dropped are still to be put in, so that a difference there is allowed.
    have hx := hhashable x (by simp)
    apply ih (fun x hmem => hhashable x (List.mem_cons_of_mem _ hmem)) (ht.union_of_hashable hx) hu
    intro k hk hrest
    rw [Table.get?_union_of_not_same hx ht hk, heq k hk hrest]
    intro entry hmem
    obtain ⟨y, hy, entry', hentry', hsame⟩ := again entry hmem
    by_contra hne
    rw [Bool.not_eq_false] at hne
    have hsame' := Value.same_congr hk (hx entry hmem) hne entry'.1
    rw [hsame, hrest y hy entry' hentry'] at hsame'
    contradiction

end Shadowed

namespace Registry

variable {α β : Type} {added : Value → Logged α} {entries : α → List (Value × β)} {p : α → Prop}
variable {included : Value → List Step} {content kept seen : List Value} {as : List α}

theorem scanEntry_member {e : Element} (hkind : e.kind = .member)
    : scanEntry included (.element e) = [.entry (.element e)] := by
  cases e with
  | mk kind info attributes content =>
    rw [Element.kind] at hkind
    subst hkind
    rfl

theorem additions_member_eq_ok {e : Element} (hkind : e.kind = .member)
    : (additions added ((.element e :: content).flatMap (scanEntry included))).result = .ok as
        ↔
      ∃ a rest, (added (.element e)).result = .ok a
        ∧ (additions added (content.flatMap (scanEntry included))).result = .ok rest
        ∧ as = a :: rest := by
  rw [List.flatMap_cons, scanEntry_member hkind]
  exact additions_entry_eq_ok

theorem exists_shadowed_of_keepLast
    (hmember : ∀ e a, e.kind = .member → (added (.element e)).result = .ok a →
      p a ∧ ∃ key x, e.key = .ok key ∧ key.hashable = true ∧ entries a = [(key, x)])
    (h : (additions added (content.flatMap (scanEntry included))).result = .ok as)
    (hkept : keepLast content = .ok (kept, seen))
    : ∃ bs, (additions added (kept.flatMap (scanEntry included))).result = .ok bs
        ∧ Shadowed entries p as bs ∧ ∀ k ∈ seen, ∃ b ∈ bs, ∃ entry ∈ entries b, k = entry.1 := by
  rw [keepLast_eq_ok_iff] at hkept
  induction hkept generalizing as with
  | nil =>
    injection h with h
    subst h
    exact ⟨[], rfl, .nil, by simp⟩
  | other _ _ ih =>
    -- What is no member stays with all that it adds.
    rw [List.flatMap_cons, additions_append_eq_ok] at h
    obtain ⟨xs, ys, hxs, hys, rfl⟩ := h
    obtain ⟨bs, hbs, hshadowed, hagain⟩ := ih hys
    refine ⟨xs ++ bs, ?_, hshadowed.append_left xs, ?_⟩
    . rw [List.flatMap_cons, additions_append_eq_ok]
      exact ⟨xs, bs, hxs, hbs, rfl⟩
    . intro k hk
      obtain ⟨b, hb, hentry⟩ := hagain k hk
      exact ⟨b, List.mem_append_right xs hb, hentry⟩
  | last kind_eq key_eq _ _ _ ih =>
    obtain ⟨a, ys, ha, hys, rfl⟩ := (additions_member_eq_ok kind_eq).1 h
    obtain ⟨bs, hbs, hshadowed, hagain⟩ := ih hys
    obtain ⟨-, key, x, hkey, -, hentries⟩ := hmember _ a kind_eq ha
    rw [key_eq, Except.ok.injEq] at hkey
    subst hkey
    refine ⟨a :: bs, (additions_member_eq_ok kind_eq).2 ⟨a, bs, ha, hbs, rfl⟩, .keep a hshadowed, ?_⟩
    intro k hk
    rcases List.mem_cons.1 hk with rfl | hk
    . exact ⟨a, by simp, (k, x), by simp [hentries], rfl⟩
    . obtain ⟨b, hb, hentry⟩ := hagain k hk
      exact ⟨b, List.mem_cons_of_mem a hb, hentry⟩
  | again kind_eq key_eq _ met _ ih =>
    obtain ⟨a, ys, ha, hys, rfl⟩ := (additions_member_eq_ok kind_eq).1 h
    obtain ⟨bs, hbs, hshadowed, hagain⟩ := ih hys
    obtain ⟨hdroppable, key, x, hkey, -, hentries⟩ := hmember _ a kind_eq ha
    rw [key_eq, Except.ok.injEq] at hkey
    subst hkey
    refine ⟨bs, hbs, .drop hdroppable ?_ hshadowed, hagain⟩
    -- A member adds a single entry under its key, and a later member was met with the same key.
    intro entry hentry
    rw [hentries, List.mem_singleton] at hentry
    subst hentry
    obtain ⟨k, hk, hsame⟩ := List.any_eq_true.1 met
    obtain ⟨b, hb, entry', hentry', rfl⟩ := hagain k hk
    exact ⟨b, hb, entry', hentry', hsame⟩

end Registry

end ApiElements
