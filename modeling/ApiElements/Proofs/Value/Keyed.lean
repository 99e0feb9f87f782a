import ApiElements.Proofs.Table
import ApiElements.Proofs.Value.Form

/-!
This module contains the laws of tables whose keys may be any values that can serve as keys.
-/

namespace ApiElements

namespace Value

variable {x y z : Value}

theorem same_comm (hx : x.hashable = true) (hy : y.hashable = true) : x.same y = y.same x := by
  rw [Bool.eq_iff_iff, same_iff_form x hx, same_iff_form y hy]
  exact eq_comm

theorem memberOf_congr (hx : x.hashable = true) (hy : y.hashable = true) (h : x.same y = true)
    (vs : List Value) : x.memberOf vs = y.memberOf vs := by
  unfold memberOf
  congr 1
  funext v
  exact same_congr hx hy h v

end Value

section Matched

variable {α β : Type} {R : α → β → Prop} {xs : List α} {ys : List β}

/--
Every item of either list has a partner in the other one.
-/
def Matched (R : α → β → Prop) (xs : List α) (ys : List β) : Prop :=
  (∀ x ∈ xs, ∃ y ∈ ys, R x y) ∧ ∀ y ∈ ys, ∃ x ∈ xs, R x y

theorem Matched.all_eq (h : Matched R xs ys) {f : α → Bool} {g : β → Bool}
    (heq : ∀ x ∈ xs, ∀ y ∈ ys, R x y → f x = g y) : xs.all f = ys.all g := by
  rw [Bool.eq_iff_iff, List.all_eq_true, List.all_eq_true]
  constructor
  . intro hall y hy
    obtain ⟨x, hx, hxy⟩ := h.2 y hy
    rw [← heq x hx y hy hxy]
    exact hall x hx
  . intro hall x hx
    obtain ⟨y, hy, hxy⟩ := h.1 x hx
    rw [heq x hx y hy hxy]
    exact hall y hy

theorem Matched.any_eq (h : Matched R xs ys) {f : α → Bool} {g : β → Bool}
    (heq : ∀ x ∈ xs, ∀ y ∈ ys, R x y → f x = g y) : xs.any f = ys.any g := by
  rw [List.any_eq_not_all_not, List.any_eq_not_all_not]
  congr 1
  apply h.all_eq
  intro x hx y hy hxy
  rw [heq x hx y hy hxy]

/--
If every item of a list has a partner in a list of the same length, and no two have the same one,
then the partners are all there are.
-/
theorem matched_of_length_eq (hlength : xs.length = ys.length)
    (hpartner : ∀ x ∈ xs, ∃ y ∈ ys, R x y) (hunique : xs.Pairwise fun a b => ∀ y, R a y → ¬ R b y)
    : Matched R xs ys := by
  refine ⟨hpartner, ?_⟩
  induction xs generalizing ys with
  | nil =>
    rw [List.length_nil, eq_comm, List.length_eq_zero_iff] at hlength
    subst hlength
    simp
  | cons x xs ih =>
    rw [List.pairwise_cons] at hunique
    obtain ⟨y, hy, hxy⟩ := hpartner x (by simp)
    obtain ⟨before, after, rfl⟩ := List.append_of_mem hy
    have hlength' : xs.length = (before ++ after).length := by
      simp only [List.length_cons, List.length_append] at hlength ⊢
      omega
    -- The partner of the first one is no partner of a later one, and is taken out.
    have hpartner' : ∀ x' ∈ xs, ∃ y' ∈ before ++ after, R x' y' := by
      intro x' hx'
      obtain ⟨y', hy', hxy'⟩ := hpartner x' (List.mem_cons_of_mem _ hx')
      refine ⟨y', ?_, hxy'⟩
      rw [List.mem_append, List.mem_cons] at hy'
      rw [List.mem_append]
      rcases hy' with hy' | rfl | hy'
      . exact .inl hy'
      . exact absurd hxy' (hunique.1 x' hx' y' hxy)
      . exact .inr hy'
    have hrest := ih hlength' hpartner' hunique.2
    intro y' hy'
    rw [List.mem_append, List.mem_cons] at hy'
    rcases hy' with hy' | rfl | hy'
    . obtain ⟨x', hx', hxy'⟩ := hrest y' (List.mem_append.2 (.inl hy'))
      exact ⟨x', List.mem_cons_of_mem _ hx', hxy'⟩
    . exact ⟨x, by simp, hxy⟩
    . obtain ⟨x', hx', hxy'⟩ := hrest y' (List.mem_append.2 (.inr hy'))
      exact ⟨x', List.mem_cons_of_mem _ hx', hxy'⟩

end Matched

namespace Value

theorem matched_of_sameItems {xs ys : List Value} (h : Value.sameItems xs ys = true)
    : Matched (fun x y => x.same y = true) xs ys := by
  induction xs generalizing ys with
  | nil =>
    cases ys with
    | nil => exact ⟨by simp, by simp⟩
    | cons y ys => contradiction
  | cons x xs ih =>
    cases ys with
    | nil => contradiction
    | cons y ys =>
      rw [Value.sameItems, Bool.and_eq_true] at h
      obtain ⟨hright, hleft⟩ := ih h.2
      constructor
      . intro x' hx'
        rcases List.mem_cons.1 hx' with rfl | hx'
        . exact ⟨y, by simp, h.1⟩
        . obtain ⟨y', hy', hsame⟩ := hright x' hx'
          exact ⟨y', List.mem_cons_of_mem _ hy', hsame⟩
      . intro y' hy'
        rcases List.mem_cons.1 hy' with rfl | hy'
        . exact ⟨x, by simp, h.1⟩
        . obtain ⟨x', hx', hsame⟩ := hleft y' hy'
          exact ⟨x', List.mem_cons_of_mem _ hx', hsame⟩

end Value

namespace Table

variable {α : Type} {t : Table α} {key other : Value}

/--
All keys can serve as keys, and no two are equal.
-/
structure Keyed (t : Table α) : Prop where
  hashable : ∀ entry ∈ t, entry.1.hashable = true
  distinct : t.Pairwise fun x y => x.1.same y.1 = false

theorem keyed_nil : Keyed ([] : Table α) where
  hashable := by simp
  distinct := .nil

theorem Keyed.tail {entry : Value × α} {rest : Table α} (h : Keyed (entry :: rest))
    : rest.Keyed where
  hashable := fun e hmem => h.hashable e (List.mem_cons_of_mem _ hmem)
  distinct := (List.pairwise_cons.1 h.distinct).2

theorem get?_congr (hkey : key.hashable = true) (hother : other.hashable = true)
    (hsame : key.same other = true) (t : Table α) : t.get? key = t.get? other := by
  unfold get?
  congr 2
  funext entry
  exact Value.same_congr hkey hother hsame entry.1

theorem get?_put (ht : ∀ entry ∈ t, entry.1.hashable = true) (hkey : key.hashable = true)
    (hother : other.hashable = true) (thing : α)
    : (t.put key thing).get? other = if other.same key then some thing else t.get? other := by
  induction t with
  | nil => rw [put, get?_cons]
  | cons entry rest ih =>
    have hentry := ht entry (by simp)
    have hrest := ih fun e hmem => ht e (List.mem_cons_of_mem _ hmem)
    rw [put_cons]
    split
    . next hsame =>
      have heq : other.same entry.1 = other.same key := by
        rw [Value.same_comm hother hentry, Value.same_comm hother hkey]
        exact (Value.same_congr hkey hentry hsame other).symm
      rw [get?_cons, get?_cons, heq]
      split
      . rfl
      . rfl
    . next hsame =>
      rw [get?_cons, get?_cons, hrest]
      split
      . next hentrysame =>
        rw [if_neg]
        intro hkeysame
        rw [Value.same_congr hother hkey hkeysame] at hentrysame
        exact hsame hentrysame
      . rfl

theorem key_of_mem_put {entry : Value × α} {thing : α} (h : entry ∈ t.put key thing)
    : entry.1 = key ∨ ∃ e ∈ t, e.1 = entry.1 := by
  induction t with
  | nil =>
    rw [put, List.mem_singleton] at h
    exact .inl (by rw [h])
  | cons first rest ih =>
    rw [put_cons] at h
    split at h
    . rcases List.mem_cons.1 h with rfl | h
      . exact .inr ⟨first, by simp, rfl⟩
      . exact .inr ⟨entry, List.mem_cons_of_mem _ h, rfl⟩
    . rcases List.mem_cons.1 h with rfl | h
      . exact .inr ⟨entry, by simp, rfl⟩
      . rcases ih h with h | ⟨e, hmem, he⟩
        . exact .inl h
        . exact .inr ⟨e, List.mem_cons_of_mem _ hmem, he⟩

theorem Keyed.put (h : t.Keyed) (hkey : key.hashable = true) (thing : α)
    : Keyed (t.put key thing) where
  hashable := by
    intro entry hmem
    rcases key_of_mem_put hmem with heq | ⟨e, he, heq⟩
    . rw [heq]
      exact hkey
    . rw [← heq]
      exact h.hashable e he
  distinct := by
    induction t with
    | nil => exact List.pairwise_singleton _ _
    | cons first rest ih =>
      have hdistinct := List.pairwise_cons.1 h.distinct
      rw [put_cons]
      split
      . exact List.pairwise_cons.2 hdistinct
      . next hsame =>
        rw [List.pairwise_cons]
        refine ⟨?_, ih h.tail⟩
        intro entry hmem
        rcases key_of_mem_put hmem with heq | ⟨e, he, heq⟩
        . rw [heq, Value.same_comm (h.hashable first (by simp)) hkey]
          simpa using hsame
        . rw [← heq]
          exact hdistinct.1 e he

theorem Keyed.get?_of_mem (h : t.Keyed) {entry : Value × α} (hmem : entry ∈ t)
    : t.get? entry.1 = some entry.2 := by
  induction t with
  | nil => contradiction
  | cons first rest ih =>
    have hdistinct := List.pairwise_cons.1 h.distinct
    rw [get?_cons]
    rcases List.mem_cons.1 hmem with rfl | hmem
    . rw [if_pos (Value.same_self (h.hashable entry (by simp)))]
    . rw [if_neg, ih h.tail hmem]
      have hhashable := h.hashable entry (List.mem_cons_of_mem _ hmem)
      rw [Value.same_comm hhashable (h.hashable first (by simp)), hdistinct.1 entry hmem]
      simp

theorem union_append (t : Table α) (entries entries' : List (Value × α))
    : t.union (entries ++ entries') = (t.union entries).union entries' := by
  exact List.foldl_append

theorem foldl_union_flatMap {β : Type} (entries : β → Table α) (bs : List β) (t : Table α)
    : bs.foldl (fun t b => t.union (entries b)) t = t.union (bs.flatMap entries) := by
  induction bs generalizing t with
  | nil => rfl
  | cons b rest ih => rw [List.foldl_cons, ih, List.flatMap_cons, union_append]

theorem Keyed.union_of_hashable {entries : List (Value × α)} (h : t.Keyed)
    (hentries : ∀ entry ∈ entries, entry.1.hashable = true) : Keyed (t.union entries) := by
  unfold Table.union
  induction entries generalizing t with
  | nil => exact h
  | cons entry rest ih =>
    apply ih (h.put (hentries entry (by simp)) entry.2)
    exact fun e hmem => hentries e (List.mem_cons_of_mem _ hmem)

theorem Keyed.union {others : Table α} (h : t.Keyed) (hothers : others.Keyed)
    : Keyed (t.union others) := by
  exact h.union_of_hashable hothers.hashable

theorem get?_union {others : Table α} (h : t.Keyed) (hothers : others.Keyed)
    (hkey : key.hashable = true)
    : (t.union others).get? key = (others.get? key).or (t.get? key) := by
  unfold Table.union
  induction others generalizing t with
  | nil => rfl
  | cons entry rest ih =>
    have hentry := hothers.hashable entry (by simp)
    rw [List.foldl_cons, ih (h.put hentry entry.2) hothers.tail, get?_put h.hashable hentry hkey,
      get?_cons]
    split
    . next hsame =>
      have hrest : get? rest key = none := by
        rw [get?_congr hkey hentry hsame, get?_eq_none_iff]
        exact (List.pairwise_cons.1 hothers.distinct).1
      rw [hrest]
      rfl
    . rfl

/--
Of the entries that are put in, the last one with a key counts.
-/
theorem get?_union_of_hashable {entries : List (Value × α)} (h : t.Keyed)
    (hentries : ∀ entry ∈ entries, entry.1.hashable = true) (hkey : key.hashable = true)
    : (t.union entries).get? key
        = ((entries.reverse.find? fun entry => key.same entry.1).map (·.2)).or (t.get? key) := by
  unfold Table.union
  induction entries generalizing t with
  | nil => rfl
  | cons entry rest ih =>
    have hentry := hentries entry (by simp)
    have hrest := fun e hmem => hentries e (List.mem_cons_of_mem _ hmem)
    rw [List.foldl_cons, ih (h.put hentry entry.2) hrest, get?_put h.hashable hentry hkey,
      List.reverse_cons, List.find?_append, List.find?_singleton]
    cases List.find? _ rest.reverse with
    | some last => rfl
    | none =>
      split
      . rfl
      . rfl

theorem get?_ofList {entries : List (Value × α)}
    (hentries : ∀ entry ∈ entries, entry.1.hashable = true) (hkey : key.hashable = true)
    : (ofList entries).get? key
        = (entries.reverse.find? fun entry => key.same entry.1).map (·.2) := by
  exact (get?_union_of_hashable keyed_nil hentries hkey).trans (Option.or_none)

theorem exists_of_entriesWithin {xs ys : Table Value} (h : Value.entriesWithin xs ys = true)
    : ∀ x ∈ xs, ∃ y ∈ ys, x.1.same y.1 = true ∧ x.2.same y.2 = true := by
  induction xs with
  | nil => simp
  | cons x xs ih =>
    rw [Value.entriesWithin, Bool.and_eq_true] at h
    intro x' hx'
    rcases List.mem_cons.1 hx' with rfl | hx'
    . have hfirst := h.1
      split at hfirst
      . next y hy =>
        have hkey := List.find?_some hy
        exact ⟨y, List.mem_of_find?_eq_some hy, hkey, hfirst⟩
      . contradiction
    . exact ih h.2 x' hx'

/--
Equal objects have the same entries: each one of either has its equal in the other.
-/
theorem Keyed.matched {xs ys : Table Value} (hxs : xs.Keyed)
    (h : (Value.object xs).same (.object ys) = true)
    : Matched (fun x y => x.1.same y.1 = true ∧ x.2.same y.2 = true) xs ys := by
  rw [Value.same, Bool.and_eq_true, beq_iff_eq] at h
  apply matched_of_length_eq h.1 (exists_of_entriesWithin h.2)
  apply hxs.distinct.imp_of_mem
  intro a b ha hb hab y hay hby
  have hform := (Value.same_iff_form a.1 (hxs.hashable a ha) y.1).1 hay.1
  have hform' := (Value.same_iff_form b.1 (hxs.hashable b hb) y.1).1 hby.1
  have hsame := (Value.same_iff_form a.1 (hxs.hashable a ha) b.1).2 (hform.trans hform'.symm)
  rw [hab] at hsame
  contradiction

end Table

end ApiElements
