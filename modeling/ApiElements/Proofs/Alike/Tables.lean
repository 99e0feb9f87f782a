import ApiElements.Proofs.Inheritance.Shadow

/-!
This module contains tables with related things under the same keys, and how they stay so when entries
are put into them.
-/

namespace ApiElements

namespace Table

variable {α β : Type} {moved : Prop} {S : α → β → Prop} {t es es' : Table α} {u fs fs' : Table β}
variable {k key : Value} {x : α} {y : β}

/--
Two tables have related things under the same keys. The keys stand in the same order as long as no
entry has been moved.
-/
structure Linked (moved : Prop) (S : α → β → Prop) (t : Table α) (u : Table β) : Prop where
  keyed_left : t.Keyed
  keyed_right : u.Keyed
  keys_eq : ¬ moved → t.keys = u.keys
  found : ∀ k, k.hashable = true → Option.Rel S (t.get? k) (u.get? k)

theorem linked_nil : Linked moved S [] [] where
  keyed_left := keyed_nil
  keyed_right := keyed_nil
  keys_eq := fun _ => rfl
  found := fun _ _ => .none

theorem keys_put_congr (h : t.keys = u.keys) (key : Value) (x : α) (y : β)
    : (t.put key x).keys = (u.put key y).keys := by
  unfold keys at *
  induction t generalizing u with
  | nil =>
    cases u with
    | nil => rfl
    | cons => contradiction
  | cons entry rest ih =>
    cases u with
    | nil => contradiction
    | cons entry' rest' =>
      simp only [List.map_cons, List.cons.injEq] at h
      rw [put_cons, put_cons, ← h.1]
      split
      . simp [h.2]
      . simp [h.1, ih h.2]

theorem keys_union_congr (h : t.keys = u.keys) (hes : es.keys = fs.keys)
    : (t.union es).keys = (u.union fs).keys := by
  unfold union
  induction es generalizing t u fs with
  | nil =>
    cases fs with
    | nil => exact h
    | cons => contradiction
  | cons entry rest ih =>
    cases fs with
    | nil => contradiction
    | cons entry' rest' =>
      simp only [keys, List.map_cons, List.cons.injEq] at hes
      rw [List.foldl_cons, List.foldl_cons, ← hes.1]
      exact ih (keys_put_congr h entry.1 entry.2 entry'.2) hes.2

theorem eq_of_keys_eq {t u : Table α} (hkeys : t.keys = u.keys)
    (h : ∀ x ∈ t, ∀ y ∈ u, x.1 = y.1 → x.2 = y.2) : t = u := by
  unfold keys at hkeys
  induction t generalizing u with
  | nil =>
    cases u with
    | nil => rfl
    | cons => contradiction
  | cons x rest ih =>
    cases u with
    | nil => contradiction
    | cons y rest' =>
      rw [List.map_cons, List.map_cons, List.cons.injEq] at hkeys
      have hxy : x = y := Prod.ext hkeys.1 (h x (by simp) y (by simp) hkeys.1)
      rw [hxy, ih hkeys.2]
      exact fun a ha b hb => h a (List.mem_cons_of_mem _ ha) b (List.mem_cons_of_mem _ hb)

theorem Linked.same_keys (h : Linked moved S t u) (k : Value) (hk : k.hashable = true)
    : (t.get? k).isSome = (u.get? k).isSome := by
  have hfound := h.found k hk
  generalize t.get? k = x?, u.get? k = y? at hfound
  cases hfound with
  | some _ => rfl
  | none => rfl

theorem Linked.related (h : Linked moved S t u) (k : Value) (x : α) (y : β) (hk : k.hashable = true)
    (hx : t.get? k = some x) (hy : u.get? k = some y) : S x y := by
  have hfound := h.found k hk
  rw [hx, hy] at hfound
  cases hfound with
  | some hxy => exact hxy

theorem linked_of_related (ht : t.Keyed) (hu : u.Keyed) (hkeys : ¬ moved → t.keys = u.keys)
    (hsame : ∀ k, k.hashable = true → (t.get? k).isSome = (u.get? k).isSome)
    (hrelated : ∀ k x y, k.hashable = true → t.get? k = some x → u.get? k = some y → S x y)
    : Linked moved S t u where
  keyed_left := ht
  keyed_right := hu
  keys_eq := hkeys
  found := by
    intro k hk
    have hsome := hsame k hk
    have hxy := fun x y => hrelated k x y hk
    generalize t.get? k = x?, u.get? k = y? at hsome hxy
    cases x? with
    | none =>
      cases y? with
      | none => exact .none
      | some y => contradiction
    | some x =>
      cases y? with
      | none => contradiction
      | some y => exact .some (hxy x y rfl rfl)

theorem Linked.put (h : Linked moved S t u) (hkey : key.hashable = true) (hxy : S x y)
    : Linked moved S (t.put key x) (u.put key y) where
  keyed_left := h.keyed_left.put hkey x
  keyed_right := h.keyed_right.put hkey y
  keys_eq := fun hmoved => keys_put_congr (h.keys_eq hmoved) key x y
  found := by
    intro k hk
    rw [get?_put h.keyed_left.hashable hkey hk, get?_put h.keyed_right.hashable hkey hk]
    split
    . exact .some hxy
    . exact h.found k hk

theorem Linked.union (h : Linked moved S t u) (hes : Linked moved S es fs)
    : Linked moved S (t.union es) (u.union fs) where
  keyed_left := h.keyed_left.union hes.keyed_left
  keyed_right := h.keyed_right.union hes.keyed_right
  keys_eq := fun hmoved => keys_union_congr (h.keys_eq hmoved) (hes.keys_eq hmoved)
  found := by
    intro k hk
    have hfound := h.found k hk
    have hfound' := hes.found k hk
    rw [get?_union h.keyed_left hes.keyed_left hk, get?_union h.keyed_right hes.keyed_right hk]
    revert hfound hfound'
    generalize t.get? k = x?, u.get? k = y?, es.get? k = x'?, fs.get? k = y'?
    intro hfound hfound'
    cases hfound' with
    | some hxy => exact .some hxy
    | none => exact hfound

theorem Linked.agrees_right {u' : Table β} (h : Linked moved S t u) (hagrees : u'.Agrees u)
    (hmoved : moved) : Linked moved S t u' where
  keyed_left := h.keyed_left
  keyed_right := hagrees.keyed_left
  keys_eq := fun hnot => absurd hmoved hnot
  found := by
    intro k hk
    rw [hagrees.get?_eq k hk]
    exact h.found k hk

theorem linked_singleton (hkey : key.hashable = true) (hxy : S x y)
    : Linked moved S [(key, x)] [(key, y)] := by
  exact linked_nil.put hkey hxy

theorem linked_foldl_union {ts : List (Table α)} {us : List (Table β)}
    (h : Linked moved S t u) (hts : List.Forall₂ (Linked moved S) ts us)
    : Linked moved S (ts.foldl union t) (us.foldl union u) := by
  induction hts generalizing t u with
  | nil => exact h
  | cons hfirst _ ih => exact ih (h.union hfirst)

structure Feeds (moved : Prop) (S : α → β → Prop) (es : Table α) (fs : Table β) : Prop where
  hashable_left : ∀ entry ∈ es, entry.1.hashable = true
  hashable_right : ∀ entry ∈ fs, entry.1.hashable = true
  keys_eq : ¬ moved → es.keys = fs.keys
  has_eq : ∀ k, k.hashable = true → es.has k = fs.has k
  union : ∀ (t : Table α) (u : Table β), Linked moved S t u →
    Linked moved S (t.union es) (u.union fs)

theorem Linked.feeds (h : Linked moved S t u) : Feeds moved S t u where
  hashable_left := h.keyed_left.hashable
  hashable_right := h.keyed_right.hashable
  keys_eq := h.keys_eq
  has_eq := by
    intro k hk
    rw [has_eq_isSome_get?, has_eq_isSome_get?, h.same_keys k hk]
  union := fun _ _ htu => htu.union h

theorem Feeds.append (h : Feeds moved S es fs) (h' : Feeds moved S es' fs')
    : Feeds moved S (es ++ es') (fs ++ fs') where
  hashable_left := List.forall_mem_append.2 ⟨h.hashable_left, h'.hashable_left⟩
  hashable_right := List.forall_mem_append.2 ⟨h.hashable_right, h'.hashable_right⟩
  keys_eq := by
    intro hmoved
    have hkeys := h.keys_eq hmoved
    have hkeys' := h'.keys_eq hmoved
    unfold keys at *
    rw [List.map_append, List.map_append, hkeys, hkeys']
  has_eq := by
    intro k hk
    have hhas := h.has_eq k hk
    have hhas' := h'.has_eq k hk
    unfold has at *
    rw [List.any_append, List.any_append, hhas, hhas']
  union := by
    intro t u htu
    rw [union_append, union_append]
    exact h'.union _ _ (h.union _ _ htu)

end Table

end ApiElements
