import ApiElements.Proofs.Alike.Tables
import ApiElements.Proofs.Holds

/-!
This module contains values that are made up in the same way of related parts. Where no element
stands, parts may be related more closely; values with equal parts in the same order are equal.
-/

namespace ApiElements

/--
Two values are made up in the same way, item by item and key by key, of parts that are related. The
keys stand in the same order as long as no entry has been moved.
-/
inductive Value.Alike (leaf : Value → Value → Prop) (moved : Prop) : Value → Value → Prop where
  | leaf {v v' : Value} (related : leaf v v') : Alike leaf moved v v'
  | list {xs ys : List Value} (length_eq : xs.length = ys.length)
    (items : ∀ x y, (x, y) ∈ xs.zip ys → Alike leaf moved x y) : Alike leaf moved (.list xs) (.list ys)
  | object {t u : Table Value} (keyed_left : t.Keyed) (keyed_right : u.Keyed)
    (keys_eq : ¬ moved → t.keys = u.keys)
    (same_keys : ∀ k, k.hashable = true → (t.get? k).isSome = (u.get? k).isSome)
    (values : ∀ k x y, k.hashable = true → t.get? k = some x → u.get? k = some y → Alike leaf moved x y)
    : Alike leaf moved (.object t) (.object u)

def Value.Bare (v : Value) : Prop :=
  ∀ e, ¬ v.Holds e

namespace Value

variable {leaf leaf' : Value → Value → Prop} {moved : Prop} {v v' : Value}

section Holds

theorem exists_of_itemsWithin {xs ys : List Value} (h : Value.itemsWithin xs ys = true)
    : ∀ x ∈ xs, ∃ y ∈ ys, x.same y = true := by
  induction xs with
  | nil => simp
  | cons x xs ih =>
    rw [Value.itemsWithin, Bool.and_eq_true] at h
    intro x' hx'
    rcases List.mem_cons.1 hx' with rfl | hx'
    . exact List.any_eq_true.1 h.1
    . exact ih h.2 x' hx'

theorem Holds.exists_of_same {v w : Value} {x : Element} (h : v.Holds x) (hsame : v.same w = true)
    : ∃ y, w.Holds y := by
  induction h generalizing w with
  | self e =>
    cases w with
    | element e' => exact ⟨e', .self e'⟩
    | _ => simp [Value.same, Value.number?] at hsame
  -- The other value is an element itself, whatever stands in the content of this one.
  | @content e x _ _ =>
    cases w with
    | element e' => exact ⟨e', .self e'⟩
    | _ => simp [Value.same, Value.number?] at hsame
  | list mem _ ih =>
    cases w with
    | list ys =>
      obtain ⟨y, hy, hxy⟩ := (matched_of_sameItems hsame).1 _ mem
      obtain ⟨z, hz⟩ := ih hxy
      exact ⟨z, .list hy hz⟩
    | _ => simp [Value.same, Value.number?] at hsame
  | tuple mem _ ih =>
    cases w with
    | tuple ys =>
      obtain ⟨y, hy, hxy⟩ := (matched_of_sameItems hsame).1 _ mem
      obtain ⟨z, hz⟩ := ih hxy
      exact ⟨z, .tuple hy hz⟩
    | _ => simp [Value.same, Value.number?] at hsame
  | set mem _ ih =>
    cases w with
    | set ys =>
      rw [Value.same, Bool.and_eq_true] at hsame
      obtain ⟨y, hy, hxy⟩ := exists_of_itemsWithin hsame.2 _ mem
      obtain ⟨z, hz⟩ := ih hxy
      exact ⟨z, .set hy hz⟩
    | _ => simp [Value.same, Value.number?] at hsame
  | entryKey mem _ ih =>
    cases w with
    | object ys =>
      rw [Value.same, Bool.and_eq_true] at hsame
      obtain ⟨y, hy, hxy⟩ := Table.exists_of_entriesWithin hsame.2 _ mem
      obtain ⟨z, hz⟩ := ih hxy.1
      exact ⟨z, .entryKey hy hz⟩
    | _ => simp [Value.same, Value.number?] at hsame
  | entryValue mem _ ih =>
    cases w with
    | object ys =>
      rw [Value.same, Bool.and_eq_true] at hsame
      obtain ⟨y, hy, hxy⟩ := Table.exists_of_entriesWithin hsame.2 _ mem
      obtain ⟨z, hz⟩ := ih hxy.2
      exact ⟨z, .entryValue hy hz⟩
    | _ => simp [Value.same, Value.number?] at hsame
  | memberKey _ ih =>
    cases w with
    | member k v =>
      rw [Value.same, Bool.and_eq_true] at hsame
      obtain ⟨z, hz⟩ := ih hsame.1
      exact ⟨z, .memberKey hz⟩
    | _ => simp [Value.same, Value.number?] at hsame
  | memberValue _ ih =>
    cases w with
    | member k v =>
      rw [Value.same, Bool.and_eq_true] at hsame
      obtain ⟨z, hz⟩ := ih hsame.2
      exact ⟨z, .memberValue hz⟩
    | _ => simp [Value.same, Value.number?] at hsame
  | ref _ ih =>
    cases w with
    | ref href =>
      obtain ⟨z, hz⟩ := ih hsame
      exact ⟨z, .ref hz⟩
    | _ => simp [Value.same, Value.number?] at hsame

end Holds

section Parts

theorem eq_of_forall₂ {R : Value → Value → Prop} {xs ys : List Value} (h : List.Forall₂ R xs ys)
    (heq : ∀ x ∈ xs, ∀ y, R x y → x = y) : xs = ys := by
  induction h with
  | nil => rfl
  | cons related _ ih =>
    rw [heq _ (by simp) _ related, ih fun x hx => heq x (List.mem_cons_of_mem _ hx)]

theorem alike_list {xs ys : List Value}
    (h : List.Forall₂ (Value.Alike leaf moved) xs ys)
    : Value.Alike leaf moved (.list xs) (.list ys) := by
  rw [List.forall₂_iff_zip] at h
  exact .list h.1 fun x y hmem => h.2 hmem

theorem alike_object {t u : Table Value}
    (h : Table.Linked moved (Value.Alike leaf moved) t u)
    : Value.Alike leaf moved (.object t) (.object u) := by
  exact .object h.keyed_left h.keyed_right h.keys_eq h.same_keys h.related

theorem alike_literalOr {placeholder : Value} (hself : leaf placeholder placeholder) (h : leaf v v')
    (hnull : v.isNull = v'.isNull)
    : Alike leaf moved (Example.literalOr v placeholder) (Example.literalOr v' placeholder) := by
  unfold Example.literalOr
  rw [← hnull]
  split
  . exact .leaf hself
  . exact .leaf h

theorem Alike.mono (h : v.Alike leaf moved v') (hv : v.Bare)
    (hleaf : ∀ x x', leaf x x' → x.Bare → leaf' x x') : v.Alike leaf' moved v' := by
  induction h with
  | leaf related => exact .leaf (hleaf _ _ related hv)
  | list length_eq _ ih =>
    refine .list length_eq fun x y hmem => ih x y hmem fun e he => hv e (.list ?_ he)
    exact (List.of_mem_zip hmem).1
  | object keyed_left keyed_right keys_eq same_keys _ ih =>
    refine .object keyed_left keyed_right keys_eq same_keys fun k x y hk hx hy => ?_
    obtain ⟨key, hmem, -⟩ := Table.mem_of_get? hx
    exact ih k x y hk hx hy fun e he => hv e (.entryValue hmem he)

theorem Alike.eq (h : v.Alike Eq False v') : v = v' := by
  induction h with
  | leaf related => exact related
  | @list xs ys length_eq _ ih =>
    have hitems : List.Forall₂ Eq xs ys := List.forall₂_iff_zip.2 ⟨length_eq, fun {x y} => ih x y⟩
    rw [List.forall₂_eq_eq_eq] at hitems
    rw [hitems]
  | @object t u keyed_left keyed_right keys_eq _ _ ih =>
    congr 1
    apply Table.eq_of_keys_eq (keys_eq not_false)
    intro x hx y hy hkey
    apply ih x.1 x.2 y.2 (keyed_left.hashable x hx) (keyed_left.get?_of_mem hx)
    rw [hkey]
    exact keyed_right.get?_of_mem hy

end Parts

end Value

end ApiElements
