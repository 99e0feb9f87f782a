import ApiElements.Proofs.Validation.Draft4
import ApiElements.Proofs.Value.Keyed

/-!
This module contains the schema documents for which equality is fine enough: two of them that are
equal accept the same values, although equality takes truth values for numbers.
-/

namespace ApiElements

namespace Draft4

/--
A schema document whose keys, in all its parts, can be told apart, and that does not choose among
truth values.
-/
inductive Fair : Value → Prop where
  | mk {keywords : List (Value × Value)} (keyed : Table.Keyed keywords)
    (one : ∀ name s, (.text name, s) ∈ keywords → name = "items" ∨ name = "not" → Fair s)
    (several : ∀ name ss, (.text name, .list ss) ∈ keywords → name = "anyOf" ∨ name = "allOf" →
      ∀ s ∈ ss, Fair s)
    (properties_keyed : ∀ ps, (.text "properties", .object ps) ∈ keywords → Table.Keyed ps)
    (properties_fair : ∀ ps, (.text "properties", .object ps) ∈ keywords → ∀ p ∈ ps, Fair p.2)
    (enum_literal : ∀ vs, (.text "enum", .list vs) ∈ keywords →
      ∀ v ∈ vs, v.hashable = true ∧ ∀ b, v ≠ .bool b)
    (required_hashable : ∀ ks, (.text "required", .list ks) ∈ keywords → ∀ k ∈ ks, k.hashable = true)
    : Fair (.object keywords)

section Congr

variable {x y v : Value}

theorem list_of_same_list {ys : List Value} (h : x.same (.list ys) = true)
    : ∃ xs, x = .list xs ∧ Matched (fun x y => x.same y = true) xs ys := by
  cases x with
  | list xs => exact ⟨xs, rfl, Value.matched_of_sameItems h⟩
  | _ => simp [Value.same, Value.number?] at h

theorem list_of_list_same {xs : List Value} (h : (Value.list xs).same y = true)
    : ∃ ys, y = .list ys ∧ Matched (fun x y => x.same y = true) xs ys := by
  cases y with
  | list ys => exact ⟨ys, rfl, Value.matched_of_sameItems h⟩
  | _ => simp [Value.same, Value.number?] at h

theorem object_of_same_object {ys : List (Value × Value)} (h : x.same (.object ys) = true)
    : ∃ xs, x = .object xs := by
  cases x with
  | object xs => exact ⟨xs, rfl⟩
  | _ => simp [Value.same, Value.number?] at h

theorem object_of_object_same {xs : List (Value × Value)} (h : (Value.object xs).same y = true)
    : ∃ ys, y = .object ys := by
  cases y with
  | object ys => exact ⟨ys, rfl⟩
  | _ => simp [Value.same, Value.number?] at h

theorem hasType_congr (h : x.same y = true) (v : Value) : hasType x v = hasType y v := by
  unfold hasType
  split
  . next name _ =>
    rw [Bool.eq_iff_iff, Value.text_same, Value.text_same]
    constructor
    . rintro rfl
      exact Value.text_same.1 h
    . rintro rfl
      exact Value.same_text.1 h
  . rfl

theorem typeHolds_congr (h : x.same y = true) (v : Value) : typeHolds x v = typeHolds y v := by
  unfold typeHolds
  split
  . obtain ⟨ys, rfl, hmatched⟩ := list_of_list_same h
    exact hmatched.any_eq fun x _ y _ hxy => hasType_congr hxy v
  . next hlist =>
    split
    . next ys =>
      obtain ⟨xs, rfl, -⟩ := list_of_same_list h
      exact absurd rfl (hlist xs)
    . exact hasType_congr h v

theorem equalsLiteral_congr (hx : x.hashable = true ∧ ∀ b, x ≠ .bool b)
    (hy : y.hashable = true ∧ ∀ b, y ≠ .bool b) (h : x.same y = true) (v : Value)
    : equalsLiteral x v = equalsLiteral y v := by
  have hplain : ∃ plain : Bool, ∀ z : Value, (∀ b, z ≠ .bool b) →
      equalsLiteral z v = (plain && z.same v) := by
    cases v with
    | bool b =>
      refine ⟨false, ?_⟩
      intro z hz
      cases z with
      | bool b => exact absurd rfl (hz b)
      | _ => rfl
    | _ =>
      refine ⟨true, ?_⟩
      intro z hz
      cases z with
      | bool b => exact absurd rfl (hz b)
      | _ => rfl
  obtain ⟨plain, hplain⟩ := hplain
  rw [hplain x hx.2, hplain y hy.2, Value.same_congr hx.1 hy.1 h]

def ifList (f : List Value → Bool) : Value → Bool
  | .list xs => f xs
  | _ => true

def ifObject (f : List (Value × Value) → Bool) : Value → Bool
  | .object xs => f xs
  | _ => true

theorem ifList_congr {f g : List Value → Bool} (h : x.same y = true)
    (heq : ∀ xs ys, x = .list xs → y = .list ys → Matched (fun x y => x.same y = true) xs ys →
      f xs = g ys) : ifList f x = ifList g y := by
  unfold ifList
  split
  . next xs =>
    obtain ⟨ys, rfl, hmatched⟩ := list_of_list_same h
    exact heq xs ys rfl rfl hmatched
  . next hlist =>
    split
    . next ys =>
      obtain ⟨xs, rfl, -⟩ := list_of_same_list h
      exact absurd rfl (hlist xs)
    . rfl

theorem ifObject_congr {f g : List (Value × Value) → Bool} (h : x.same y = true)
    (heq : ∀ xs ys, x = .object xs → y = .object ys → f xs = g ys)
    : ifObject f x = ifObject g y := by
  unfold ifObject
  split
  . next xs =>
    obtain ⟨ys, rfl⟩ := object_of_object_same h
    exact heq xs ys rfl rfl
  . next hobject =>
    split
    . next ys =>
      obtain ⟨xs, rfl⟩ := object_of_same_object h
      exact absurd rfl (hobject xs)
    . rfl

theorem keywordHolds_of_not_text {k : Value} (h : ∀ name, k ≠ .text name) (argument v : Value)
    : keywordHolds k argument v = true := by
  unfold keywordHolds
  split
  all_goals first | rfl | exact absurd rfl (h _)

theorem has_congr (hx : x.hashable = true) (hy : y.hashable = true) (h : x.same y = true)
    (t : Table Value) : t.has x = t.has y := by
  unfold Table.has
  congr 1
  funext entry
  exact Value.same_congr hx hy h entry.1

/--
Equal arguments of a keyword have the same values accepted if those of equal parts do.
-/
theorem keywordHolds_congr {keywords keywords' : List (Value × Value)} {name : String}
    (h : Fair (.object keywords)) (h' : Fair (.object keywords'))
    (hx : (.text name, x) ∈ keywords) (hy : (.text name, y) ∈ keywords') (hxy : x.same y = true)
    (hone : name = "items" ∨ name = "not" → ∀ v, accepts x v = accepts y v)
    (hseveral : ∀ xs ys, x = .list xs → y = .list ys → name = "anyOf" ∨ name = "allOf" →
      ∀ s ∈ xs, ∀ t ∈ ys, s.same t = true → accepts s v = accepts t v)
    (hproperties : ∀ ps qs, x = .object ps → y = .object qs → name = "properties" →
      ∀ p ∈ ps, ∀ q ∈ qs, p.2.same q.2 = true → ∀ v, accepts p.2 v = accepts q.2 v)
    : keywordHolds (.text name) x v = keywordHolds (.text name) y v := by
  cases h with
  | mk _ _ _ keyed _ literal hashable =>
    cases h' with
    | mk _ _ _ keyed' _ literal' hashable' =>
      unfold keywordHolds
      split
      . exact typeHolds_congr hxy v
      . next heq =>
        injection heq with heq
        subst heq
        apply ifList_congr hxy
        rintro xs ys rfl rfl hmatched
        exact hmatched.any_eq fun x hx' y hy' hxy' =>
          equalsLiteral_congr (literal xs hx x hx') (literal' ys hy y hy') hxy' v
      . next heq =>
        injection heq with heq
        simp only [hone (.inl heq)]
      . next heq =>
        injection heq with heq
        apply ifList_congr hxy
        intro xs ys hxs hys hmatched
        exact hmatched.any_eq (hseveral xs ys hxs hys (.inl heq))
      . next heq =>
        injection heq with heq
        apply ifList_congr hxy
        intro xs ys hxs hys hmatched
        exact hmatched.all_eq (hseveral xs ys hxs hys (.inr heq))
      . next heq =>
        injection heq with heq
        rw [hone (.inr heq)]
      . next heq =>
        injection heq with heq
        subst heq
        cases v with
        | object entries =>
          apply ifObject_congr hxy
          rintro ps qs rfl rfl
          have hps := keyed ps hx
          have hqs := keyed' qs hy
          apply (hps.matched hxy).all_eq
          rintro p hp q hq ⟨hkey, hsame⟩
          rw [Table.get?_congr (hps.hashable p hp) (hqs.hashable q hq) hkey entries]
          congr 1
          funext thing
          exact hproperties ps qs rfl rfl rfl p hp q hq hsame thing
        | _ => rfl
      . next heq =>
        injection heq with heq
        subst heq
        cases v with
        | object entries =>
          apply ifList_congr hxy
          rintro xs ys rfl rfl hmatched
          exact hmatched.all_eq fun x hx' y hy' hxy' =>
            has_congr (hashable xs hx x hx') (hashable' ys hy y hy') hxy' entries
        | _ => rfl
      . rfl

end Congr

/--
Equal schema documents accept the same values.
-/
theorem accepts_congr {s s' : Value} (h : Fair s) (h' : Fair s') (hsame : s.same s' = true)
    (v : Value) : accepts s v = accepts s' v := by
  induction h generalizing s' v with
  | @mk keywords keyed one several properties_keyed properties_fair literal hashable ih_one
      ih_several ih_properties =>
    obtain ⟨keywords', rfl⟩ := object_of_object_same hsame
    have hfair : Fair (.object keywords) :=
      .mk keyed one several properties_keyed properties_fair literal hashable
    have hfair' := h'
    cases h' with
    | mk _ one' several' _ properties_fair' =>
      rw [accepts_object, accepts_object]
      apply (keyed.matched hsame).all_eq
      rintro ⟨k, x⟩ hx ⟨k', y⟩ hy ⟨hk, hxy⟩
      dsimp only at hk hxy ⊢
      -- Only texts are keywords, and a text equals no other key.
      by_cases htext : ∃ name, k = .text name
      . obtain ⟨name, rfl⟩ := htext
        rw [Value.text_same] at hk
        subst hk
        apply keywordHolds_congr hfair hfair' hx hy hxy
        . intro hname v
          exact ih_one name x hx hname (one' name y hy hname) hxy v
        . rintro xs ys rfl rfl hname s hs t ht hst
          exact ih_several name xs hx hname s hs (several' name ys hy hname t ht) hst v
        . rintro ps qs rfl rfl rfl p hp q hq hpq v
          exact ih_properties ps hx p hp (properties_fair' qs hy q hq) hpq v
      . have htext' : ∀ name, k' ≠ .text name := by
          rintro name rfl
          exact htext ⟨name, Value.same_text.1 hk⟩
        rw [keywordHolds_of_not_text (fun name h => htext ⟨name, h⟩),
          keywordHolds_of_not_text htext']

end Draft4

end ApiElements
