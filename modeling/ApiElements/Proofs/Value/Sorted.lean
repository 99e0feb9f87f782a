import ApiElements.Proofs.Outcome
import ApiElements.Value.Order
import Mathlib.Data.String.Basic

/-!
This module contains what sorting does to texts: it always succeeds, and gives the same texts in
ascending order.
-/

namespace ApiElements

namespace Value

theorem exists_insertSorted (s : String) (names : List String)
    : ∃ names' : List String, insertSorted (.text s) (names.map .text) = .ok (names'.map .text)
        ∧ (s :: names).Perm names'
        ∧ (names.Pairwise (· ≤ ·) → names'.Pairwise (· ≤ ·)) := by
  induction names with
  | nil => exact ⟨[s], rfl, .refl _, fun _ => List.pairwise_singleton _ _⟩
  | cons first rest ih =>
    obtain ⟨rest', hrest, hperm, hsorted⟩ := ih
    rw [List.map_cons, insertSorted, Value.before, Outcome.ok_bind]
    split
    . next hbefore =>
      have hle : s ≤ first := le_of_lt (of_decide_eq_true hbefore)
      refine ⟨s :: first :: rest, rfl, .refl _, fun hnames => ?_⟩
      have hfirst := (List.pairwise_cons.1 hnames).1
      exact .cons (List.forall_mem_cons.2 ⟨hle, fun t ht => hle.trans (hfirst t ht)⟩) hnames
    . next hbefore =>
      have hle : first ≤ s := not_lt.1 fun hlt => hbefore (decide_eq_true hlt)
      rw [hrest, Outcome.ok_bind]
      refine ⟨first :: rest', rfl, (List.Perm.swap first s rest).trans (hperm.cons first), ?_⟩
      intro hnames
      rw [List.pairwise_cons] at hnames ⊢
      refine ⟨fun t ht => ?_, hsorted hnames.2⟩
      rcases List.mem_cons.1 (hperm.mem_iff.2 ht) with rfl | ht
      . exact hle
      . exact hnames.1 t ht

theorem exists_sort (names : List String)
    : ∃ names' : List String, sort (names.map .text) = .ok (names'.map .text)
        ∧ names.Perm names' ∧ names'.Pairwise (· ≤ ·) := by
  have hfold : ∀ sorted : List String, sorted.Pairwise (· ≤ ·) → ∃ names' : List String,
      (names.map Value.text).foldlM (fun sorted x => insertSorted x sorted) (sorted.map .text)
          = .ok (names'.map .text)
        ∧ (names ++ sorted).Perm names' ∧ names'.Pairwise (· ≤ ·) := by
    induction names with
    | nil => exact fun sorted hsorted => ⟨sorted, rfl, .refl _, hsorted⟩
    | cons s rest ih =>
      intro sorted hsorted
      obtain ⟨sorted', hinsert, hperm, hkeeps⟩ := exists_insertSorted s sorted
      obtain ⟨names', hfold, hperm', hsorted'⟩ := ih sorted' (hkeeps hsorted)
      rw [List.map_cons, List.foldlM_cons, hinsert, Outcome.ok_bind]
      refine ⟨names', hfold, .trans ?_ hperm', hsorted'⟩
      exact List.perm_middle.symm.trans (hperm.append_left rest)
  obtain ⟨names', hsort, hperm, hsorted⟩ := hfold [] .nil
  rw [List.append_nil] at hperm
  exact ⟨names', hsort, hperm, hsorted⟩

theorem exists_sort_of_nodup {names : List String} (h : names.Nodup)
    : ∃ names' : List String, sort (names.map .text) = .ok (names'.map .text)
        ∧ (∀ name, name ∈ names' ↔ name ∈ names) ∧ names'.Pairwise (· < ·) := by
  obtain ⟨names', hsort, hperm, hsorted⟩ := exists_sort names
  refine ⟨names', hsort, fun name => hperm.symm.mem_iff, ?_⟩
  exact (hsorted.and (hperm.nodup_iff.1 h)).imp fun hboth => lt_of_le_of_ne hboth.1 hboth.2

end Value

end ApiElements
