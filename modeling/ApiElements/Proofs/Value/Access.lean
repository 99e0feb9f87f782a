import ApiElements.Proofs.Outcome
import ApiElements.Value.Access

/-!
This module contains what the ways into a value give where its form is known: its items and entries,
and whether it can serve as a key.
-/

namespace ApiElements

namespace Value

variable {v k : Value}

theorem asKey_eq_ok : v.asKey = .ok k ↔ v.hashable = true ∧ v = k := by
  unfold asKey
  split
  . next h => simp [h]
  . next h => simp [h]

theorem mapM_asKey_eq_ok {items keys : List Value}
    : items.mapM asKey = .ok keys ↔ (∀ x ∈ items, x.hashable = true) ∧ items = keys := by
  rw [Outcome.mapM_eq_ok]
  simp only [asKey_eq_ok]
  constructor
  . intro h
    induction h with
    | nil => simp
    | cons hxy _ ih =>
      obtain ⟨hitems, rfl⟩ := ih
      obtain ⟨hhashable, rfl⟩ := hxy
      exact ⟨List.forall_mem_cons.2 ⟨hhashable, hitems⟩, rfl⟩
  . rintro ⟨hitems, rfl⟩
    rw [List.forall₂_same]
    exact fun x hx => ⟨hitems x hx, rfl⟩

theorem isNull_iff : v.isNull = true ↔ v = .null := by
  cases v with
  | _ => simp [isNull]

theorem truthy_of_items {items : List Value} (h : v.items = .ok items)
    : v.truthy = !items.isEmpty := by
  cases v with
  | list xs =>
    injection h with h
    rw [truthy, h]
  | tuple xs =>
    injection h with h
    rw [truthy, h]
  | set xs =>
    injection h with h
    rw [truthy, h]
  | text s =>
    injection h with h
    rw [truthy, ← h, List.isEmpty_map, Bool.eq_iff_iff]
    simp
  | bytes data =>
    injection h with h
    simp [truthy, ← h]
  | object entries =>
    injection h with h
    simp [truthy, ← h, Table.keys]
  | _ => contradiction

theorem itemsOrNone_eq_items {items : List Value} (h : v.items = .ok items)
    : v.itemsOrNone = .ok items := by
  unfold itemsOrNone
  rw [truthy_of_items h]
  cases items with
  | nil => rfl
  | cons x rest => exact h

theorem entriesOrNone_object (t : Table Value) : (Value.object t).entriesOrNone = .ok t := by
  cases t with
  | nil => rfl
  | cons entry rest => rfl

end Value

end ApiElements
