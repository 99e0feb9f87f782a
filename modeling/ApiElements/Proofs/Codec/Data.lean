import ApiElements.Element.Decode
import ApiElements.Element.Encode
import ApiElements.Proofs.Outcome
import ApiElements.Proofs.Table

/-!
This module contains plain data: values built from scalars, lists and objects alone, as documents
are. Writing leaves plain data as it is, and whatever is taken out of it is plain data again.
-/

namespace ApiElements

/--
Plain data: no part of it is a tuple, a set, an element or the content of one.
-/
inductive Value.Data : Value → Prop where
  | null : Data .null
  | bool (b : Bool) : Data (.bool b)
  | int (n : Int) : Data (.int n)
  | double (d : Double) : Data (.double d)
  | decimal (d : Decimal) : Data (.decimal d)
  | text (s : String) : Data (.text s)
  | bytes (data : List UInt8) : Data (.bytes data)
  | moment (m : Moment) : Data (.moment m)
  | list {items : List Value} (items_data : ∀ v ∈ items, Data v) : Data (.list items)
  | object {entries : List (Value × Value)} (keys_data : ∀ entry ∈ entries, Data entry.1)
    (values_data : ∀ entry ∈ entries, Data entry.2) : Data (.object entries)

def Table.Data (t : Table Value) : Prop :=
  ∀ entry ∈ t, entry.1.Data ∧ entry.2.Data

namespace Value

theorem data_list {items : List Value} : (Value.list items).Data ↔ ∀ v ∈ items, v.Data := by
  constructor
  . intro h
    cases h with
    | list h => exact h
  . exact Data.list

theorem data_object {entries : Table Value} : (Value.object entries).Data ↔ entries.Data := by
  constructor
  . intro h
    cases h with
    | object hkeys hvalues =>
      intro entry hmem
      exact ⟨hkeys entry hmem, hvalues entry hmem⟩
  . intro h
    exact .object (fun entry hmem => (h entry hmem).1) (fun entry hmem => (h entry hmem).2)

theorem encodeItems_eq (items : List Value) : Value.encodeItems items = items.mapM Value.encode := by
  induction items with
  | nil => rfl
  | cons x xs ih =>
    rw [Value.encodeItems, List.mapM_cons, ih]
    rfl

theorem encodeEntries_eq (entries : Table Value)
    : Value.encodeEntries entries
        =
      entries.mapM fun entry => (fun v => (entry.1, v)) <$> entry.2.encode := by
  induction entries with
  | nil => rfl
  | cons entry rest ih =>
    rw [Value.encodeEntries, List.mapM_cons, ih]
    cases entry.2.encode with
    | ok v => rfl
    | error fault => rfl

theorem encodeItems_of_fixed {items : List Value} (h : ∀ v ∈ items, v.encode = .ok v)
    : Value.encodeItems items = .ok items := by
  rw [encodeItems_eq, Outcome.mapM_eq_ok, List.forall₂_same]
  exact h

theorem encodeEntries_of_fixed {entries : Table Value}
    (h : ∀ entry ∈ entries, entry.2.encode = .ok entry.2)
    : Value.encodeEntries entries = .ok entries := by
  rw [encodeEntries_eq, Outcome.mapM_eq_ok, List.forall₂_same]
  intro entry hmem
  rw [h entry hmem, Outcome.map_ok]

theorem Data.encode {v : Value} (h : v.Data) : v.encode = .ok v := by
  induction h with
  | list _ ih => rw [Value.encode, encodeItems_of_fixed ih, Outcome.map_ok]
  | object _ _ _ ih => rw [Value.encode, encodeEntries_of_fixed ih, Outcome.map_ok]
  | _ => rfl

theorem Data.items {v : Value} {xs : List Value} (h : v.Data) (hxs : v.items = .ok xs)
    : ∀ x ∈ xs, x.Data := by
  cases h with
  | text s =>
    injection hxs with hxs
    subst hxs
    intro x hx
    obtain ⟨c, -, rfl⟩ := List.mem_map.1 hx
    exact .text _
  | bytes data =>
    injection hxs with hxs
    subst hxs
    intro x hx
    obtain ⟨b, -, rfl⟩ := List.mem_map.1 hx
    exact .int _
  | list h =>
    injection hxs with hxs
    subst hxs
    exact h
  | object hkeys _ =>
    injection hxs with hxs
    subst hxs
    intro x hx
    obtain ⟨entry, hmem, rfl⟩ := List.mem_map.1 hx
    exact hkeys entry hmem
  | _ => simp [Value.items] at hxs

theorem Data.itemsOrNone {v : Value} {xs : List Value} (h : v.Data) (hxs : v.itemsOrNone = .ok xs)
    : ∀ x ∈ xs, x.Data := by
  unfold Value.itemsOrNone at hxs
  split at hxs
  . exact h.items hxs
  . injection hxs with hxs
    subst hxs
    simp

end Value

namespace Table

theorem Data.get? {t : Table Value} {key v : Value} (h : t.Data) (hv : t.get? key = some v)
    : v.Data := by
  obtain ⟨k, hmem, -⟩ := mem_of_get? hv
  exact (h _ hmem).2

theorem Data.getD {t : Table Value} {key : Value} (h : t.Data)
    : ((t.get? key).getD .null).Data := by
  cases hv : t.get? key with
  | none => exact .null
  | some v => exact h.get? hv

theorem Data.put {t : Table Value} {key v : Value} (h : t.Data) (hkey : key.Data) (hv : v.Data)
    : (t.put key v).Data := by
  induction t with
  | nil => simpa [Table.put, Table.Data] using ⟨hkey, hv⟩
  | cons entry rest ih =>
    have hentry := h entry (by simp)
    have hrest : Table.Data rest := fun entry hmem => h entry (List.mem_cons_of_mem _ hmem)
    rw [put_cons]
    split
    . intro e hmem
      rcases List.mem_cons.1 hmem with rfl | hmem
      . exact ⟨hentry.1, hv⟩
      . exact hrest e hmem
    . intro e hmem
      rcases List.mem_cons.1 hmem with rfl | hmem
      . exact hentry
      . exact ih hrest e hmem

theorem Data.union {t others : Table Value} (h : t.Data) (hothers : others.Data)
    : (t.union others).Data := by
  unfold Table.union
  induction others generalizing t with
  | nil => exact h
  | cons entry rest ih =>
    have hentry := hothers entry (by simp)
    apply ih
    . exact h.put hentry.1 hentry.2
    . intro e hmem
      exact hothers e (List.mem_cons_of_mem _ hmem)

end Table

namespace Value

theorem Data.field {v w : Value} {name : String} (h : v.Data) (hw : v.field name = .ok w)
    : w.Data := by
  cases v with
  | object entries =>
    rw [data_object] at h
    injection hw with hw
    subst hw
    exact h.getD
  | _ => simp [Value.field] at hw

theorem Data.pair {v key thing : Value} (h : v.Data) (hpair : v.pair = .ok (key, thing))
    : key.Data ∧ thing.Data := by
  unfold Value.pair at hpair
  rw [Outcome.bind_eq_ok] at hpair
  obtain ⟨xs, hxs, hpair⟩ := hpair
  split at hpair
  . split at hpair
    . injection hpair with hpair
      injection hpair with hkey hthing
      subst hkey hthing
      have := h.items hxs
      exact ⟨this _ (by simp), this _ (by simp)⟩
    . contradiction
  . contradiction

theorem Data.entriesOrNone {v : Value} {entries : Table Value} (h : v.Data)
    (hentries : v.entriesOrNone = .ok entries) : entries.Data := by
  unfold Value.entriesOrNone at hentries
  split at hentries
  . split at hentries
    . injection hentries with hentries
      subst hentries
      exact data_object.1 h
    . simp only [Outcome.bind_eq_ok] at hentries
      obtain ⟨xs, hxs, pairs, hpairs, hentries⟩ := hentries
      injection hentries with hentries
      subst hentries
      apply Table.Data.union
      . simp [Table.Data]
      . intro entry hmem
        obtain ⟨x, hx, hpair⟩ := Outcome.exists_of_mem_mapM hpairs hmem
        exact (h.items hxs x hx).pair hpair
  . injection hentries with hentries
    subst hentries
    simp [Table.Data]

end Value

end ApiElements
