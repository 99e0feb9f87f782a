import ApiElements.Element.Access
import ApiElements.Proofs.Table

/-!
This module contains which elements stand in a value: itself, the ones in its content, and all that
stand in those.
-/

namespace ApiElements

/--
An element stands somewhere in a value. What stands in its descriptive data or in its attributes
does not count.
-/
inductive Value.Holds : Value → Element → Prop where
  | self (e : Element) : Holds (.element e) e
  | content {e x : Element} (holds : Holds e.content x) : Holds (.element e) x
  | list {items : List Value} {v : Value} {x : Element} (mem : v ∈ items) (holds : Holds v x)
    : Holds (.list items) x
  | tuple {items : List Value} {v : Value} {x : Element} (mem : v ∈ items) (holds : Holds v x)
    : Holds (.tuple items) x
  | set {items : List Value} {v : Value} {x : Element} (mem : v ∈ items) (holds : Holds v x)
    : Holds (.set items) x
  | entryKey {entries : List (Value × Value)} {entry : Value × Value} {x : Element}
    (mem : entry ∈ entries) (holds : Holds entry.1 x) : Holds (.object entries) x
  | entryValue {entries : List (Value × Value)} {entry : Value × Value} {x : Element}
    (mem : entry ∈ entries) (holds : Holds entry.2 x) : Holds (.object entries) x
  | memberKey {key value : Value} {x : Element} (holds : Holds key x) : Holds (.member key value) x
  | memberValue {key value : Value} {x : Element} (holds : Holds value x)
    : Holds (.member key value) x
  | ref {href : Value} {x : Element} (holds : Holds href x) : Holds (.ref href) x

namespace Value

@[simp]
theorem not_holds_null {x : Element} : ¬ Value.null.Holds x := by
  intro h
  cases h

@[simp]
theorem not_holds_text {s : String} {x : Element} : ¬ (Value.text s).Holds x := by
  intro h
  cases h

@[simp]
theorem holds_element {e x : Element} : (Value.element e).Holds x ↔ x = e ∨ e.content.Holds x := by
  constructor
  . intro h
    cases h with
    | self => exact .inl rfl
    | content h => exact .inr h
  . rintro (rfl | h)
    . exact .self x
    . exact .content h

@[simp]
theorem not_holds_int {n : Int} {x : Element} : ¬ (Value.int n).Holds x := by
  intro h
  cases h

@[simp]
theorem holds_list {items : List Value} {x : Element}
    : (Value.list items).Holds x ↔ ∃ v ∈ items, v.Holds x := by
  constructor
  . intro h
    cases h with
    | list mem h => exact ⟨_, mem, h⟩
  . rintro ⟨v, mem, h⟩
    exact .list mem h

@[simp]
theorem holds_object {entries : List (Value × Value)} {x : Element}
    : (Value.object entries).Holds x ↔ ∃ entry ∈ entries, entry.1.Holds x ∨ entry.2.Holds x := by
  constructor
  . intro h
    cases h with
    | entryKey mem h => exact ⟨_, mem, .inl h⟩
    | entryValue mem h => exact ⟨_, mem, .inr h⟩
  . rintro ⟨entry, mem, h | h⟩
    . exact .entryKey mem h
    . exact .entryValue mem h

@[simp]
theorem holds_tuple {items : List Value} {x : Element}
    : (Value.tuple items).Holds x ↔ ∃ v ∈ items, v.Holds x := by
  constructor
  . intro h
    cases h with
    | tuple mem h => exact ⟨_, mem, h⟩
  . rintro ⟨v, mem, h⟩
    exact .tuple mem h

@[simp]
theorem holds_member {key value : Value} {x : Element}
    : (Value.member key value).Holds x ↔ key.Holds x ∨ value.Holds x := by
  constructor
  . intro h
    cases h with
    | memberKey h => exact .inl h
    | memberValue h => exact .inr h
  . rintro (h | h)
    . exact .memberKey h
    . exact .memberValue h

@[simp]
theorem holds_ref {href : Value} {x : Element} : (Value.ref href).Holds x ↔ href.Holds x := by
  constructor
  . intro h
    cases h with
    | ref h => exact h
  . exact .ref

theorem Holds.trans {v : Value} {x y : Element} (h : v.Holds x) (hy : (Value.element x).Holds y)
    : v.Holds y := by
  induction h with
  | self _ => exact hy
  | content _ ih => exact .content (ih hy)
  | list mem _ ih => exact .list mem (ih hy)
  | tuple mem _ ih => exact .tuple mem (ih hy)
  | set mem _ ih => exact .set mem (ih hy)
  | entryKey mem _ ih => exact .entryKey mem (ih hy)
  | entryValue mem _ ih => exact .entryValue mem (ih hy)
  | memberKey _ ih => exact .memberKey (ih hy)
  | memberValue _ ih => exact .memberValue (ih hy)
  | ref _ ih => exact .ref (ih hy)

theorem Holds.sizeOf_lt {v : Value} {x : Element} (h : v.Holds x) : sizeOf x < sizeOf v := by
  induction h with
  | self _ =>
    rw [Value.element.sizeOf_spec]
    omega
  | @content e _ _ ih =>
    cases e with
    | mk kind info attributes content =>
      rw [Element.content] at ih
      rw [Value.element.sizeOf_spec, Element.mk.sizeOf_spec]
      omega
  | list mem _ ih =>
    have := List.sizeOf_lt_of_mem mem
    rw [Value.list.sizeOf_spec]
    omega
  | tuple mem _ ih =>
    have := List.sizeOf_lt_of_mem mem
    rw [Value.tuple.sizeOf_spec]
    omega
  | set mem _ ih =>
    have := List.sizeOf_lt_of_mem mem
    rw [Value.set.sizeOf_spec]
    omega
  | @entryKey _ entry _ mem _ ih =>
    have := List.sizeOf_lt_of_mem mem
    have hentry : sizeOf entry = 1 + sizeOf entry.1 + sizeOf entry.2 := by rfl
    rw [Value.object.sizeOf_spec]
    omega
  | @entryValue _ entry _ mem _ ih =>
    have := List.sizeOf_lt_of_mem mem
    have hentry : sizeOf entry = 1 + sizeOf entry.1 + sizeOf entry.2 := by rfl
    rw [Value.object.sizeOf_spec]
    omega
  | memberKey _ ih =>
    rw [Value.member.sizeOf_spec]
    omega
  | memberValue _ ih =>
    rw [Value.member.sizeOf_spec]
    omega
  | ref _ ih =>
    rw [Value.ref.sizeOf_spec]
    omega

def All (p : Element → Prop) (v : Value) : Prop :=
  ∀ x, v.Holds x → p x

section All

variable {p : Element → Prop} {v : Value}

theorem All.self {e : Element} (h : (Value.element e).All p) : p e := by
  exact h e (.self e)

theorem All.content {e : Element} (h : (Value.element e).All p) : e.content.All p := by
  exact fun x hx => h x (.content hx)

theorem All.contentOf {e : Element} (h : v.All p) (he : v.Holds e) : e.content.All p := by
  exact fun x hx => h x (he.trans (.content hx))

theorem All.tuple {items : List Value} (h : (Value.tuple items).All p) {x : Value} (hx : x ∈ items)
    : x.All p := by
  exact fun y hy => h y (.tuple hx hy)

theorem All.items (h : v.All p) {xs : List Value} (hxs : v.items = .ok xs) : ∀ x ∈ xs, x.All p := by
  intro x hx y hy
  cases v with
  | list items =>
    injection hxs with hxs
    exact h y (.list (hxs ▸ hx) hy)
  | tuple items =>
    injection hxs with hxs
    exact h y (.tuple (hxs ▸ hx) hy)
  | set items =>
    injection hxs with hxs
    exact h y (.set (hxs ▸ hx) hy)
  | text s =>
    injection hxs with hxs
    subst hxs
    obtain ⟨c, -, rfl⟩ := List.mem_map.1 hx
    cases hy
  | bytes data =>
    injection hxs with hxs
    subst hxs
    obtain ⟨b, -, rfl⟩ := List.mem_map.1 hx
    cases hy
  | object entries =>
    injection hxs with hxs
    subst hxs
    obtain ⟨entry, hmem, rfl⟩ := List.mem_map.1 hx
    exact h y (.entryKey hmem hy)
  | _ => simp [Value.items] at hxs

theorem All.first (h : v.All p) {x : Value} (hx : v.first = .ok x) : x.All p := by
  intro y hy
  unfold Value.first at hx
  split at hx
  . injection hx with hx
    exact h y (.list (by simp) (hx ▸ hy))
  . injection hx with hx
    exact h y (.tuple (by simp) (hx ▸ hy))
  . contradiction
  . contradiction
  . split at hx
    . injection hx with hx
      subst hx
      cases hy
    . contradiction
  . injection hx with hx
    subst hx
    cases hy
  . contradiction
  . split at hx
    . next w hw =>
      injection hx with hx
      obtain ⟨k, hmem, -⟩ := Table.mem_of_get? hw
      exact h y (.entryValue hmem (hx ▸ hy))
    . contradiction
  . contradiction

theorem All.value {e : Element} (h : (Value.element e).All p) (hv : e.value = .ok v) : v.All p := by
  unfold Element.value at hv
  split at hv
  . next hcontent =>
    injection hv with hv
    subst hv
    intro x hx
    exact h.content x (hcontent ▸ .memberValue hx)
  . contradiction

end All

end Value

end ApiElements
