import ApiElements.Proofs.Value.Document
import ApiElements.Proofs.Value.Keyed

/-!
This module contains the equality of JSON values that tells truth values from numbers at every depth:
literals that are equal are equal to the same values.
-/

namespace ApiElements

namespace Draft4

mutual

/--
Equality of JSON values. A truth value equals no number, and objects are equal if every entry of
either has its equal in the other.
-/
def equal : Value → Value → Bool
  | .bool b, y =>
    match y with
    | .bool c => b == c
    | _ => false
  | .list xs, y =>
    match y with
    | .list ys => equalItems xs ys
    | _ => false
  | .object xs, y =>
    match y with
    | .object ys => entriesFound xs ys && ys.all fun entry => findsEntry xs entry
    | _ => false
  | x, y =>
    match y with
    | .bool _ => false
    | y => x.same y
termination_by structural x => x

def equalItems : List Value → List Value → Bool
  | [], [] => true
  | x :: xs, y :: ys => equal x y && equalItems xs ys
  | _, _ => false
termination_by structural xs => xs

def entriesFound : List (Value × Value) → List (Value × Value) → Bool
  | [], _ => true
  | (k, v) :: xs, ys => ys.any (fun y => k.same y.1 && equal v y.2) && entriesFound xs ys
termination_by structural xs => xs

def findsEntry : List (Value × Value) → Value × Value → Bool
  | [], _ => false
  | (k, v) :: xs, y => k.same y.1 && equal v y.2 || findsEntry xs y
termination_by structural xs => xs

end

example : equal (.list [.bool true]) (.list [.int 1]) = false := by
  decide

section Equal

theorem equalItems_iff {xs ys : List Value}
    : equalItems xs ys = true ↔ List.Forall₂ (fun x y => equal x y = true) xs ys := by
  induction xs generalizing ys with
  | nil =>
    cases ys with
    | nil => simp [equalItems]
    | cons y ys => simp [equalItems]
  | cons x xs ih =>
    cases ys with
    | nil => simp [equalItems]
    | cons y ys => rw [equalItems, Bool.and_eq_true, ih, List.forall₂_cons]

theorem entriesFound_eq (xs ys : List (Value × Value))
    : entriesFound xs ys = xs.all fun x => ys.any fun y => x.1.same y.1 && equal x.2 y.2 := by
  induction xs with
  | nil => rfl
  | cons x xs ih => rw [entriesFound, List.all_cons, ih]

theorem findsEntry_eq (xs : List (Value × Value)) (y : Value × Value)
    : findsEntry xs y = xs.any fun x => x.1.same y.1 && equal x.2 y.2 := by
  induction xs with
  | nil => rfl
  | cons x xs ih => rw [findsEntry, List.any_cons, ih]

theorem equal_object {xs ys : List (Value × Value)}
    : equal (.object xs) (.object ys) = true
        ↔
      Matched (fun x y => x.1.same y.1 = true ∧ equal x.2 y.2 = true) xs ys := by
  simp only [equal, entriesFound_eq, findsEntry_eq, Matched, Bool.and_eq_true, List.all_eq_true,
    List.any_eq_true]

theorem equal_list {xs ys : List Value}
    : equal (.list xs) (.list ys) = true
        ↔
      List.Forall₂ (fun x y => equal x y = true) xs ys := by
  rw [equal, equalItems_iff]

def Plain (v : Value) : Prop :=
  (∀ b, v ≠ .bool b) ∧ (∀ xs, v ≠ .list xs) ∧ ∀ xs, v ≠ .object xs

variable {v w x : Value}

theorem equal_plain (hv : Plain v) (x : Value) (hx : ∀ b, x ≠ .bool b) : equal v x = v.same x := by
  cases v with
  | bool b => exact absurd rfl (hv.1 b)
  | list xs => exact absurd rfl (hv.2.1 xs)
  | object xs => exact absurd rfl (hv.2.2 xs)
  | _ => cases x with
    | bool b => exact absurd rfl (hx b)
    | _ => rfl

theorem not_plain (h : ¬ Plain x) : (∃ b, x = .bool b) ∨ (∃ xs, x = .list xs) ∨ ∃ xs, x = .object xs := by
  cases x with
  | bool b => exact .inl ⟨b, rfl⟩
  | list xs => exact .inr (.inl ⟨xs, rfl⟩)
  | object xs => exact .inr (.inr ⟨xs, rfl⟩)
  | _ => simp [Plain] at h

theorem equal_not_plain (hv : Plain v) (hx : ¬ Plain x) : equal v x = false := by
  rcases not_plain hx with ⟨b, rfl⟩ | ⟨xs, rfl⟩ | ⟨xs, rfl⟩
  . cases v with
    | bool b => exact absurd rfl (hv.1 b)
    | _ => rfl
  . cases v with
    | list xs => exact absurd rfl (hv.2.1 xs)
    | _ => rfl
  . cases v with
    | object xs => exact absurd rfl (hv.2.2 xs)
    | _ => rfl

theorem same_number {p : Exact} (hx : x.number? = some p) : v.same x = true ↔ v.number? = some p := by
  cases x with
  | bool b => cases v with | _ => simp_all [Value.same, Value.number?]
  | int n => cases v with | _ => simp_all [Value.same, Value.number?]
  | double d => cases v with | _ => simp_all [Value.same, Value.number?]
  | decimal d => cases v with | _ => simp_all [Value.same, Value.number?]
  | _ => contradiction

theorem number_same {p : Exact} (hv : v.number? = some p) : v.same w = true ↔ w.number? = some p := by
  cases v with
  | bool b =>
    injection hv with hv
    cases w with | _ => simp [Value.same, Value.number?, hv, @eq_comm _ p]
  | int n =>
    injection hv with hv
    cases w with | _ => simp [Value.same, Value.number?, hv, @eq_comm _ p]
  | double d =>
    injection hv with hv
    cases w with | _ => simp [Value.same, Value.number?, hv, @eq_comm _ p]
  | decimal d =>
    injection hv with hv
    cases w with | _ => simp [Value.same, Value.number?, hv, @eq_comm _ p]
  | _ => contradiction

theorem same_null : v.same .null = true ↔ v = .null := by
  cases v with
  | _ => simp [Value.same, Value.number?]

theorem null_same : Value.null.same v = true ↔ v = .null := by
  cases v with
  | _ => simp [Value.same, Value.number?]

theorem same_congr_plain (hsame : v.same w = true) (hx : x.IsJson) (hplain : Plain x)
    : v.same x = w.same x := by
  have hnumber : ∀ p, x.number? = some p → v.same x = w.same x := by
    intro p hp
    rw [Bool.eq_iff_iff, same_number hp, same_number hp]
    constructor
    . exact fun hv => (number_same hv).1 hsame
    . exact fun hw => (same_number hw).1 hsame
  cases hx with
  | null =>
    rw [Bool.eq_iff_iff, same_null, same_null]
    constructor
    . rintro rfl
      exact null_same.1 hsame
    . rintro rfl
      exact same_null.1 hsame
  | text s =>
    rw [Bool.eq_iff_iff, Value.same_text, Value.same_text]
    constructor
    . rintro rfl
      exact Value.text_same.1 hsame
    . rintro rfl
      exact Value.same_text.1 hsame
  | bool b => exact absurd rfl (hplain.1 b)
  | int n => exact hnumber _ rfl
  | double d => exact hnumber _ rfl
  | list _ => exact absurd rfl (hplain.2.1 _)
  | object _ _ => exact absurd rfl (hplain.2.2 _)

theorem equal_congr_plain (hv : Plain v) (h : equal v w = true) (hx : x.IsJson)
    : equal v x = equal w x := by
  have hw : Plain w := by
    by_contra hw
    rw [equal_not_plain hv hw] at h
    contradiction
  by_cases hplain : Plain x
  . rw [equal_plain hv x hplain.1, equal_plain hw x hplain.1]
    rw [equal_plain hv w hw.1] at h
    exact same_congr_plain h hx hplain
  . rw [equal_not_plain hv hplain, equal_not_plain hw hplain]

theorem text_iff_of_same (h : v.same w = true) (s : String) : v = .text s ↔ w = .text s := by
  constructor
  . rintro rfl
    exact Value.text_same.1 h
  . rintro rfl
    exact Value.same_text.1 h

theorem forall₂_equal_congr {xs ys zs : List Value} (hzs : ∀ z ∈ zs, z.IsJson)
    (h : List.Forall₂ (fun x y => ∀ z : Value, z.IsJson → equal x z = equal y z) xs ys)
    : List.Forall₂ (fun x z => equal x z = true) xs zs
        ↔
      List.Forall₂ (fun y z => equal y z = true) ys zs := by
  induction h generalizing zs with
  | nil => rfl
  | cons hxy _ ih =>
    cases zs with
    | nil => simp
    | cons z zs =>
      rw [List.forall₂_cons, List.forall₂_cons, hxy z (hzs z (by simp)),
        ih fun z' hz' => hzs z' (List.mem_cons_of_mem _ hz')]

theorem matched_congr {α β γ : Type} {Q : α → β → Prop} {R : α → γ → Prop} {R' : β → γ → Prop}
    {xs : List α} {ys : List β} {zs : List γ} (h : Matched Q xs ys)
    (hiff : ∀ x ∈ xs, ∀ y ∈ ys, ∀ z ∈ zs, Q x y → (R x z ↔ R' y z))
    : Matched R xs zs ↔ Matched R' ys zs := by
  constructor
  . rintro ⟨hright, hleft⟩
    constructor
    . intro y hy
      obtain ⟨x, hx, hxy⟩ := h.2 y hy
      obtain ⟨z, hz, hxz⟩ := hright x hx
      exact ⟨z, hz, (hiff x hx y hy z hz hxy).1 hxz⟩
    . intro z hz
      obtain ⟨x, hx, hxz⟩ := hleft z hz
      obtain ⟨y, hy, hxy⟩ := h.1 x hx
      exact ⟨y, hy, (hiff x hx y hy z hz hxy).1 hxz⟩
  . rintro ⟨hright, hleft⟩
    constructor
    . intro x hx
      obtain ⟨y, hy, hxy⟩ := h.1 x hx
      obtain ⟨z, hz, hyz⟩ := hright y hy
      exact ⟨z, hz, (hiff x hx y hy z hz hxy).2 hyz⟩
    . intro z hz
      obtain ⟨y, hy, hyz⟩ := hleft z hz
      obtain ⟨x, hx, hxy⟩ := h.2 y hy
      exact ⟨x, hx, (hiff x hx y hy z hz hxy).2 hyz⟩

/--
Literals that are equal are equal to the same JSON values.
-/
theorem equal_congr (h : equal v w = true) (hx : x.IsJson) : equal v x = equal w x := by
  -- The parts of a list or an object are smaller than it is.
  induction hn : sizeOf v using Nat.strongRecOn generalizing v w x with
  | ind n ih =>
    subst hn
    cases v with
    | bool b =>
      cases w with
      | bool c =>
        rw [equal, beq_iff_eq] at h
        rw [h]
      | _ => simp [equal] at h
    | list xs =>
      cases w with
      | list ys =>
        have hparts : List.Forall₂ (fun x y => ∀ z : Value, z.IsJson → equal x z = equal y z) xs ys := by
          rw [equal_list, List.forall₂_iff_zip] at h
          rw [List.forall₂_iff_zip]
          refine ⟨h.1, ?_⟩
          intro x y hmem z hz
          have hsize := List.sizeOf_lt_of_mem (List.of_mem_zip hmem).1
          exact ih _ (by rw [Value.list.sizeOf_spec]; omega) (h.2 hmem) hz rfl
        cases hx with
        | list hzs => rw [Bool.eq_iff_iff, equal_list, equal_list, forall₂_equal_congr hzs hparts]
        | _ => rfl
      | _ => simp [equal] at h
    | object xs =>
      cases w with
      | object ys =>
        cases hx with
        | @object fields _ hfields =>
          rw [Bool.eq_iff_iff, equal_object, equal_object]
          apply matched_congr (equal_object.1 h)
          rintro x hx y hy z hz ⟨hkey, hvalue⟩
          obtain ⟨field, hfield, rfl⟩ := List.mem_map.1 hz
          have hsize := List.sizeOf_lt_of_mem hx
          rw [Prod.mk.sizeOf_spec] at hsize
          rw [Value.same_text, Value.same_text, text_iff_of_same hkey,
            ih _ (by rw [Value.object.sizeOf_spec]; omega) hvalue (hfields field hfield) rfl]
        | _ => rfl
      | _ => simp [equal] at h
    | _ => exact equal_congr_plain (by simp [Plain]) h hx

end Equal

end Draft4

end ApiElements
