import ApiElements.Value.Table
import Mathlib.Data.List.Forall2

/-!
This module contains what looking up in a table finds after entries were put into it, as far as the
keys are texts. A text is equal to itself only, so that such keys need no laws of equality.
-/

namespace ApiElements

namespace Value

theorem text_same {s : String} {k : Value} : (Value.text s).same k = true ↔ k = .text s := by
  cases k with
  | text t =>
    simp only [Value.same, beq_iff_eq, Value.text.injEq]
    constructor
    . exact Eq.symm
    . exact Eq.symm
  | _ => simp [Value.same, Value.number?]

theorem same_text {s : String} {k : Value} : k.same (.text s) = true ↔ k = .text s := by
  cases k with
  | text t => simp [Value.same]
  | _ => simp [Value.same, Value.number?]

@[simp]
theorem text_same_text (s t : String) : (Value.text s).same (.text t) = (s == t) := by
  simp [Value.same]

end Value

namespace Table

variable {α : Type} {s : String}

@[simp]
theorem get?_nil (key : Value) : get? ([] : Table α) key = none := by
  rfl

theorem get?_cons (entry : Value × α) (rest : Table α) (key : Value)
    : get? (entry :: rest) key = if key.same entry.1 then some entry.2 else get? rest key := by
  unfold get?
  rw [List.find?_cons]
  split
  . next h => simp [h]
  . next h => simp [h]

theorem get?_append (t u : Table α) (key : Value)
    : get? (t ++ u) key = (get? t key).or (get? u key) := by
  induction t with
  | nil => simp
  | cons entry rest ih =>
    rw [List.cons_append, get?_cons, get?_cons, ih]
    split
    . rfl
    . rfl

theorem mem_of_get? {t : Table α} {key : Value} {thing : α} (h : t.get? key = some thing)
    : ∃ k, (k, thing) ∈ t ∧ key.same k = true := by
  induction t with
  | nil => simp at h
  | cons entry rest ih =>
    rw [get?_cons] at h
    split at h
    . next hkey =>
      injection h with h
      subst h
      exact ⟨entry.1, by simp, hkey⟩
    . obtain ⟨k, hmem, hkey⟩ := ih h
      exact ⟨k, List.mem_cons_of_mem _ hmem, hkey⟩

theorem get?_eq_none_iff {t : Table α} {key : Value}
    : t.get? key = none ↔ ∀ entry ∈ t, key.same entry.1 = false := by
  unfold get?
  rw [Option.map_eq_none_iff, List.find?_eq_none]
  simp only [Bool.not_eq_true]

theorem put_cons (entry : Value × α) (rest : Table α) (key : Value) (thing : α)
    : put (entry :: rest) key thing
        =
      if key.same entry.1 then (entry.1, thing) :: rest else entry :: put rest key thing := by
  rfl

theorem put_ne_nil (t : Table α) (key : Value) (thing : α) : t.put key thing ≠ [] := by
  cases t with
  | nil => simp [put]
  | cons entry rest =>
    rw [put_cons]
    split
    . simp
    . simp

theorem put_put (t : Table α) (x y : α)
    : (t.put (.text s) x).put (.text s) y = t.put (.text s) y := by
  induction t with
  | nil => simp [put]
  | cons entry rest ih =>
    rw [put_cons]
    split
    . next h => rw [put_cons, put_cons, if_pos h, if_pos h]
    . next h => rw [put_cons, put_cons, if_neg h, if_neg h, ih]

theorem get?_put_text (t : Table α) (x : α) : (t.put (.text s) x).get? (.text s) = some x := by
  induction t with
  | nil => simp [put, get?_cons]
  | cons entry rest ih =>
    rw [put_cons]
    split
    . next h => rw [get?_cons, if_pos h]
    . next h => rw [get?_cons, if_neg h, ih]

theorem get?_put_text_of_ne (t : Table α) {s' : String} (h : s ≠ s') (x : α)
    : (t.put (.text s) x).get? (.text s') = t.get? (.text s') := by
  induction t with
  | nil => simp [put, get?_cons, h.symm]
  | cons entry rest ih =>
    rw [put_cons]
    split
    . next hsame =>
      rw [Value.text_same] at hsame
      rw [get?_cons, get?_cons, hsame]
      simp [h.symm]
    . rw [get?_cons, get?_cons, ih]

theorem put_of_get? {t : Table α} {x : α} (h : t.get? (.text s) = some x)
    : t.put (.text s) x = t := by
  induction t with
  | nil => contradiction
  | cons entry rest ih =>
    rw [get?_cons] at h
    rw [put_cons]
    split
    . next hsame =>
      rw [if_pos hsame] at h
      injection h with h
      rw [← h]
    . next hsame =>
      rw [if_neg hsame] at h
      rw [ih h]

theorem put_append_of_not_same {t : Table α} {key : Value} (h : ∀ entry ∈ t, ¬ key.same entry.1)
    (u : Table α) (x : α) : (t ++ u).put key x = t ++ u.put key x := by
  induction t with
  | nil => rfl
  | cons entry rest ih =>
    rw [List.cons_append, put_cons, if_neg (h entry (by simp)), List.cons_append]
    rw [ih fun e hmem => h e (List.mem_cons_of_mem _ hmem)]

theorem put_of_not_same {t : Table α} {key : Value} (h : ∀ entry ∈ t, ¬ key.same entry.1) (x : α)
    : t.put key x = t ++ [(key, x)] := by
  have happend := put_append_of_not_same h [] x
  rwa [List.append_nil] at happend

theorem keys_cons (entry : Value × α) (rest : Table α)
    : keys (entry :: rest) = entry.1 :: keys rest := by
  rfl

theorem keys_put (t : Table α) (key : Value) (x : α)
    : (t.put key x).keys = if key.memberOf t.keys then t.keys else t.keys ++ [key] := by
  induction t with
  | nil => rfl
  | cons entry rest ih =>
    have hmember : key.memberOf (keys (entry :: rest))
        = (key.same entry.1 || key.memberOf (keys rest)) := rfl
    rw [put_cons, hmember]
    cases key.same entry.1 with
    | true => rfl
    | false =>
      rw [if_neg Bool.false_ne_true, Bool.false_or, keys_cons, ih]
      split
      . rfl
      . rfl

theorem keys_union (t : Table α) (entries : List (Value × α))
    : (t.union entries).keys
        = (keys entries).foldl
            (fun kept key => if key.memberOf kept then kept else kept ++ [key]) t.keys := by
  induction entries generalizing t with
  | nil => rfl
  | cons entry rest ih =>
    have hput := ih (t.put entry.1 entry.2)
    rw [keys_put] at hput
    exact hput

theorem keys_ofList (entries : List (Value × α))
    : (ofList entries).keys = Value.distinct (keys entries) := by
  exact keys_union [] entries

theorem union_of_apart {t : Table α} {entries : List (Value × α)}
    (h : (t ++ entries).Pairwise fun x y => y.1.same x.1 = false)
    : t.union entries = t ++ entries := by
  unfold Table.union
  induction entries generalizing t with
  | nil => simp
  | cons entry rest ih =>
    have hput : t.put entry.1 entry.2 = t ++ [entry] := by
      apply put_of_not_same
      intro e hmem
      have hne := (List.pairwise_append.1 h).2.2 e hmem entry (by simp)
      simp [hne]
    rw [List.foldl_cons, hput, ih (by simpa using h), List.append_assoc]
    rfl

def ofFields (fields : List (String × α)) : Table α :=
  fields.map fun field => (.text field.1, field.2)

theorem ofFields_injective : Function.Injective (@ofFields α) := by
  apply List.map_injective_iff.2
  rintro ⟨name, x⟩ ⟨name', x'⟩ h
  simpa using h

theorem union_ofFields {t : Table α} {fields : List (String × α)} (hnodup : (fields.map (·.1)).Nodup)
    (hnew : ∀ field ∈ fields, ∀ entry ∈ t, entry.1 ≠ .text field.1)
    : t.union (ofFields fields) = t ++ ofFields fields := by
  induction fields generalizing t with
  | nil => simp [union, ofFields]
  | cons field rest ih =>
    rw [List.map_cons, List.nodup_cons] at hnodup
    have hput : t.put (.text field.1) field.2 = t ++ [(.text field.1, field.2)] := by
      apply put_of_not_same
      intro entry hmem
      rw [Value.text_same]
      exact hnew field (by simp) entry hmem
    have hrest := ih (t := t.put (.text field.1) field.2) hnodup.2
    rw [hput] at hrest
    unfold union ofFields at hrest ⊢
    rw [List.map_cons, List.foldl_cons, hput, hrest, List.append_assoc]
    . rfl
    . intro other hother entry hmem
      rcases List.mem_append.1 hmem with hmem | hmem
      . exact hnew other (List.mem_cons_of_mem _ hother) entry hmem
      . rw [List.mem_singleton] at hmem
        subst hmem
        intro heq
        injection heq with heq
        exact hnodup.1 (heq ▸ List.mem_map_of_mem hother)

theorem ofList_ofFields {fields : List (String × α)} (h : (fields.map (·.1)).Nodup)
    : ofList (ofFields fields) = ofFields fields := by
  unfold ofList
  rw [union_ofFields h (by simp)]
  rfl

theorem keys_put_ofFields (fields : List (String × α)) (s : String) (x : α)
    : ∃ fields', (ofFields fields).put (.text s) x = ofFields fields'
        ∧ fields'.map (·.1)
            = (if s ∈ fields.map (·.1) then fields.map (·.1) else fields.map (·.1) ++ [s])
        ∧ ∀ field ∈ fields', field ∈ fields ∨ field = (s, x) := by
  induction fields with
  | nil => exact ⟨[(s, x)], rfl, rfl, by simp⟩
  | cons field rest ih =>
    obtain ⟨rest', hput, hkeys, hmem⟩ := ih
    rw [ofFields, List.map_cons, put_cons, Value.text_same_text]
    by_cases heq : s = field.1
    . refine ⟨(field.1, x) :: rest, ?_, ?_, ?_⟩
      . simp [heq, ofFields]
      . simp [heq]
      . intro other hother
        rcases List.mem_cons.1 hother with rfl | hother
        . exact .inr (by rw [heq])
        . exact .inl (List.mem_cons_of_mem _ hother)
    . refine ⟨field :: rest', ?_, ?_, ?_⟩
      . rw [if_neg (by simpa using heq)]
        unfold ofFields at hput ⊢
        rw [hput, List.map_cons]
      . rw [List.map_cons, hkeys]
        by_cases hs : s ∈ rest.map (·.1)
        . rw [if_pos hs, List.map_cons, if_pos (List.mem_cons_of_mem _ hs)]
        . rw [if_neg hs, List.map_cons, if_neg (by simp [heq, hs]), List.cons_append]
      . intro other hother
        rcases List.mem_cons.1 hother with rfl | hother
        . exact .inl (by simp)
        . rcases hmem other hother with hother | rfl
          . exact .inl (List.mem_cons_of_mem _ hother)
          . exact .inr rfl

theorem exists_put_ofFields (fields : List (String × α)) (s : String) (x : α)
    (h : (fields.map (·.1)).Nodup)
    : ∃ fields', (ofFields fields).put (.text s) x = ofFields fields'
        ∧ (fields'.map (·.1)).Nodup ∧ ∀ field ∈ fields', field ∈ fields ∨ field = (s, x) := by
  obtain ⟨fields', hput, hkeys, hmem⟩ := keys_put_ofFields fields s x
  refine ⟨fields', hput, ?_, hmem⟩
  rw [hkeys]
  split
  . exact h
  . next hnew =>
    rw [List.nodup_append]
    refine ⟨h, by simp, ?_⟩
    rintro a ha b hb rfl
    rw [List.mem_singleton] at hb
    exact hnew (hb ▸ ha)

theorem exists_union_ofFields {base : List (String × α)} (fields : List (String × α))
    (h : (base.map (·.1)).Nodup)
    : ∃ fields', (ofFields base).union (ofFields fields) = ofFields fields'
        ∧ (fields'.map (·.1)).Nodup ∧ ∀ field ∈ fields', field ∈ base ∨ field ∈ fields := by
  induction fields generalizing base with
  | nil => exact ⟨base, rfl, h, fun field hmem => .inl hmem⟩
  | cons field rest ih =>
    obtain ⟨base', hput, hnodup, hmem⟩ := exists_put_ofFields base field.1 field.2 h
    obtain ⟨fields', hunion, hnodup', hmem'⟩ := ih hnodup
    refine ⟨fields', ?_, hnodup', ?_⟩
    . rw [← hunion, ← hput]
      rfl
    . intro other hother
      rcases hmem' other hother with hother | hother
      . rcases hmem other hother with hother | rfl
        . exact .inl hother
        . exact .inr (by simp)
      . exact .inr (List.mem_cons_of_mem _ hother)

theorem exists_ofList_ofFields (fields : List (String × α))
    : ∃ fields', ofList (ofFields fields) = ofFields fields'
        ∧ (fields'.map (·.1)).Nodup ∧ ∀ field ∈ fields', field ∈ fields := by
  obtain ⟨fields', heq, hnodup, hmem⟩ := @exists_union_ofFields _ [] fields (by simp)
  refine ⟨fields', heq, hnodup, ?_⟩
  intro field hfield
  rcases hmem field hfield with hfield | hfield
  . contradiction
  . exact hfield

def TextKeyed (t : Table α) : Prop :=
  ∀ entry ∈ t, ∃ s : String, entry.1 = .text s

theorem textKeyed_cons {entry : Value × α} {rest : Table α}
    : TextKeyed (entry :: rest) ↔ (∃ s : String, entry.1 = .text s) ∧ rest.TextKeyed := by
  simp [TextKeyed]

theorem textKeyed_ofFields (fields : List (String × α)) : TextKeyed (ofFields fields) := by
  intro entry hmem
  obtain ⟨field, -, rfl⟩ := List.mem_map.1 hmem
  exact ⟨field.1, rfl⟩

theorem TextKeyed.exists_ofFields {t : Table α} (h : t.TextKeyed)
    : ∃ fields : List (String × α), t = ofFields fields := by
  induction t with
  | nil => exact ⟨[], rfl⟩
  | cons entry rest ih =>
    rw [textKeyed_cons] at h
    obtain ⟨⟨s, hs⟩, hrest⟩ := h
    obtain ⟨fields, hfields⟩ := ih hrest
    refine ⟨(s, entry.2) :: fields, ?_⟩
    rw [ofFields, List.map_cons, ← ofFields, ← hfields, ← hs]

theorem TextKeyed.of_put {t : Table α} {key : Value} {x : α} (h : (t.put key x).TextKeyed)
    : t.TextKeyed ∧ ∃ s : String, key = .text s := by
  induction t with
  | nil =>
    rw [put, textKeyed_cons] at h
    exact ⟨h.2, h.1⟩
  | cons entry rest ih =>
    rw [put_cons] at h
    split at h
    . next hsame =>
      rw [textKeyed_cons] at h ⊢
      obtain ⟨⟨s, hs⟩, hrest⟩ := h
      dsimp only at hs
      rw [hs, Value.same_text] at hsame
      exact ⟨⟨⟨s, hs⟩, hrest⟩, s, hsame⟩
    . rw [textKeyed_cons] at h ⊢
      obtain ⟨hrest, hkey⟩ := ih h.2
      exact ⟨⟨h.1, hrest⟩, hkey⟩

theorem TextKeyed.of_union {t others : Table α} (h : (t.union others).TextKeyed)
    : t.TextKeyed ∧ others.TextKeyed := by
  induction others generalizing t with
  | nil => exact ⟨h, by simp [TextKeyed]⟩
  | cons entry rest ih =>
    obtain ⟨hput, hrest⟩ := ih h
    obtain ⟨ht, hkey⟩ := hput.of_put
    exact ⟨ht, textKeyed_cons.2 ⟨hkey, hrest⟩⟩

section Alike

variable {β : Type} {S : Value → α → β → Prop} {t others : Table α} {u others' : Table β}

/--
The same keys in the same order, with related things under them.
-/
def Alike (S : Value → α → β → Prop) (t : Table α) (u : Table β) : Prop :=
  List.Forall₂ (fun x y => x.1 = y.1 ∧ S x.1 x.2 y.2) t u

theorem alike_self {S : Value → α → α → Prop} (h : ∀ key x, S key x x) (t : Table α)
    : t.Alike S t := by
  unfold Alike
  rw [List.forall₂_same]
  exact fun entry _ => ⟨rfl, h entry.1 entry.2⟩

theorem Alike.get?_text (h : t.Alike S u) (s : String)
    : t.get? (.text s) = none ∧ u.get? (.text s) = none
      ∨ ∃ x y, t.get? (.text s) = some x ∧ u.get? (.text s) = some y ∧ S (.text s) x y := by
  unfold Alike at h
  induction h with
  | nil => exact .inl ⟨rfl, rfl⟩
  | @cons a b _ _ hab _ ih =>
    rw [get?_cons, get?_cons, ← hab.1]
    split
    . next hsame =>
      rw [Value.text_same] at hsame
      exact .inr ⟨a.2, b.2, rfl, rfl, hsame ▸ hab.2⟩
    . exact ih

/--
What is related under a key is related under every key that is equal to it.
-/
def Stable (S : Value → α → β → Prop) : Prop :=
  ∀ key key' x y, key.same key' = true → S key x y → S key' x y

theorem Alike.put (hS : Stable S) (h : t.Alike S u) {key : Value} {x : α} {y : β} (hxy : S key x y)
    : (t.put key x).Alike S (u.put key y) := by
  unfold Alike at h ⊢
  induction h with
  | nil => exact .cons ⟨rfl, hxy⟩ .nil
  | @cons a b _ _ hab hrest ih =>
    rw [put_cons, put_cons, ← hab.1]
    split
    . next hsame => exact .cons ⟨rfl, hS key a.1 x y hsame hxy⟩ hrest
    . exact .cons hab ih

theorem Alike.union (hS : Stable S) (h : t.Alike S u) (hothers : others.Alike S others')
    : (t.union others).Alike S (u.union others') := by
  unfold Table.union
  unfold Alike at hothers
  induction hothers generalizing t u with
  | nil => exact h
  | cons hxy _ ih =>
    obtain ⟨hkey, hthings⟩ := hxy
    rw [List.foldl_cons, List.foldl_cons, ← hkey]
    exact ih (h.put hS hthings)

/--
Two things are the same, or they are related and stand under one of the names.
-/
def SameBut (names : List String) (R : α → α → Prop) (key : Value) (x y : α) : Prop :=
  x = y ∨ (∃ name ∈ names, key = .text name) ∧ R x y

theorem stable_sameBut {names : List String} {R : α → α → Prop} : Stable (SameBut names R) := by
  intro key key' x y hsame h
  rcases h with rfl | ⟨⟨name, hname, rfl⟩, hR⟩
  . exact .inl rfl
  . rw [Value.text_same] at hsame
    exact .inr ⟨⟨name, hname, hsame⟩, hR⟩

theorem Alike.get?_eq {names : List String} {R : α → α → Prop} {u : Table α}
    (h : t.Alike (SameBut names R) u) (hname : s ∉ names)
    : t.get? (.text s) = u.get? (.text s) := by
  rcases h.get?_text s with ⟨ht, hu⟩ | ⟨x, y, ht, hu, rfl | ⟨⟨name, hmem, heq⟩, -⟩⟩
  . rw [ht, hu]
  . rw [ht, hu]
  . injection heq with heq
    exact absurd (heq ▸ hmem) hname

end Alike

end Table

namespace Value

def under? (v : Value) (name : String) : Option Value :=
  match v with
  | .object entries => Table.get? entries (.text name)
  | _ => none

@[simp]
theorem under?_object (t : Table Value) (name : String)
    : (Value.object t).under? name = t.get? (.text name) := by
  rfl

end Value

end ApiElements
