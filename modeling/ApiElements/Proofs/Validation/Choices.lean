import ApiElements.Proofs.Inheritance.Shadow
import ApiElements.Proofs.Validation.Folding
import ApiElements.Proofs.Validation.Nullable
import ApiElements.Proofs.Validation.Soundness

/-!
This module contains when the example of an enumeration is among the values to choose from. The
example is made from the first variant, with a literal of a declared type or a placeholder where it
has none of its own; the values to choose from are the variants' own literals.
-/

namespace ApiElements

def Kind.placeholder? : Kind → Option Value
  | .boolean => some Example.boolean
  | .number => some Example.number
  | .string => some Example.string
  | _ => none

namespace Example

theorem literalOr_literalOr (content content' placeholder : Value)
    : literalOr (literalOr content content') placeholder
        = literalOr content (literalOr content' placeholder) := by
  cases content with
  | null => rfl
  | _ => rfl

theorem literalOr_ne_null {content placeholder : Value} (h : placeholder ≠ .null)
    : literalOr content placeholder ≠ .null := by
  cases content with
  | null => exact h
  | _ => simp [literalOr, Value.isNull]

end Example

namespace Registry

variable {r : Registry} {e declared merged first : Element} {name x y : Value} {n m : Nat}

/--
What a primitive element stands for: its literal or the placeholder of its kind. A reference to a
declared type stands for its own literal, or else for what the type does.
-/
inductive Stands (r : Registry) : Element → Value → Prop where
  | literal {e : Element} {placeholder : Value} (kind : e.kind.placeholder? = some placeholder)
    : Stands r e (Example.literalOr e.content placeholder)
  | reference {e declared : Element} {name x : Value} (kind : e.kind = .named name)
    (content : ∀ items, e.content ≠ .tuple items) (found : r.types.get? name = some declared)
    (below : Stands r declared x) : Stands r e (Example.literalOr e.content x)

theorem Stands.ne_null (h : r.Stands e x) : x ≠ .null := by
  induction h with
  | @literal e placeholder kind =>
    apply Example.literalOr_ne_null
    rintro rfl
    unfold Kind.placeholder? at kind
    split at kind
    all_goals simp [Example.boolean, Example.number, Example.string] at kind
  | reference _ _ _ _ ih => exact Example.literalOr_ne_null ih

theorem mergeContent_literal {base content : Value} (h : ∀ items, content ≠ .tuple items)
    : mergeContent base content = .ok (Example.literalOr content base) := by
  by_cases hnull : content = .null
  . subst hnull
    rfl
  . rw [mergeContent_other hnull h, Example.literalOr, if_neg (mt Value.isNull_iff.1 hnull)]

theorem Stands.extendBy (h : r.Stands declared x) (hcontent : ∀ items, e.content ≠ .tuple items)
    (hmerged : declared.extendBy e = .ok merged)
    : r.Stands merged (Example.literalOr e.content x) := by
  obtain ⟨hkind, hcontents⟩ := extendBy_eq_ok hmerged
  rw [mergeContent_literal hcontent, Except.ok.injEq] at hcontents
  cases h with
  | literal kind =>
    rw [← Example.literalOr_literalOr, hcontents]
    exact .literal (hkind ▸ kind)
  | reference kind content found below =>
    rw [← Example.literalOr_literalOr, hcontents]
    refine .reference (hkind ▸ kind) (fun items hitems => ?_) found below
    rw [← hcontents, Example.literalOr] at hitems
    split at hitems
    . exact content items hitems
    . exact hcontent items hitems

theorem exampleWithin_literal (h : e.kind.placeholder? = some x)
    : r.exampleWithin (n + 1) (.element e) = pure (Example.literalOr e.content x) := by
  rw [exampleWithin]
  unfold Kind.placeholder? at h
  split at h
  . next hkind =>
    injection h with h
    simp only [hkind, h]
  . next hkind =>
    injection h with h
    simp only [hkind, h]
  . next hkind =>
    injection h with h
    simp only [hkind, h]
  . contradiction

theorem Stands.eq_of_example (h : r.Stands e x)
    (hy : (r.exampleWithin n (.element e)).result = .ok y) : y = x := by
  induction n generalizing e x with
  | zero => contradiction
  | succ n ih =>
    cases h with
    | literal kind =>
      rw [exampleWithin_literal kind] at hy
      injection hy with hy
      exact hy.symm
    | reference kind content found below =>
      rw [exampleWithin] at hy
      simp only [kind, Logged.result_bind, Outcome.bind_eq_ok] at hy
      obtain ⟨resolved, hresolved, hy⟩ := hy
      obtain ⟨-, hcases⟩ := resolve_eq_ok r kind hresolved
      rcases hcases with ⟨hnone, -⟩ | ⟨declared, merged, hget, hmerged, rfl⟩
      . rw [found] at hnone
        contradiction
      . rw [found, Option.some.injEq] at hget
        subst hget
        exact ih (below.extendBy content hmerged) hy

theorem Stands.eq_of_choice {rest : List Value} (h : r.Stands first x) (hkind : e.kind = .enum)
    (hcontent : e.content = .tuple (.element first :: rest))
    (hy : (r.exampleWithin n (.element e)).result = .ok y) : y = x := by
  cases n with
  | zero => contradiction
  | succ n =>
    have htruthy : (Value.tuple (.element first :: rest)).truthy = true := rfl
    rw [exampleWithin] at hy
    simp only [hkind, hcontent, htruthy, if_true, Value.first, Logged.liftM_ok, pure_bind] at hy
    exact h.eq_of_example hy

/--
The values to choose from are the literals of the variants themselves, and `null` if it is accepted in
addition.
-/
theorem enum_of_choice {variants : List Value} {s : Schema} (hkind : e.kind = .enum)
    (hcontent : e.content = .tuple variants)
    (hs : (r.schemaWithin m (.element e)).result = .ok s)
    : s.enum = some (variants.map Value.contentOrNull)
      ∨ Value.null ∉ variants.map Value.contentOrNull
        ∧ s.enum = some (variants.map Value.contentOrNull ++ [.null]) := by
  cases m with
  | zero => contradiction
  | succ m =>
    rw [schemaWithin_element, Logged.result_bind, Outcome.bind_eq_ok] at hs
    obtain ⟨own, hown, hattribute⟩ := hs
    unfold schemaOfKind at hown
    simp only [hkind, Schema.ofChoice, hcontent, Value.items, Outcome.ok_bind, Logged.result_liftM,
      Except.ok.injEq] at hown
    obtain ⟨description, names, -, -, rfl⟩ := Schema.attribute_eq_ok.1 hattribute
    have hdescribed : (own.describe description).type = none
        ∧ (own.describe description).enum = some (variants.map Value.contentOrNull) := by
      rw [← hown, Schema.describe]
      split
      . exact ⟨rfl, rfl⟩
      . exact ⟨rfl, rfl⟩
    obtain ⟨htype, henum⟩ := hdescribed
    split
    . rw [Schema.admitNull_of_enum htype henum]
      split
      . exact .inl henum
      . next hnull => exact .inr ⟨mt Value.null_memberOf.2 hnull, rfl⟩
    . exact .inl henum

/--
The example of an enumeration comes first among the values to choose from if the first variant has a
literal of its own. If it has none, `null` comes first instead; the example is then the literal of a
declared type or a placeholder, and is among the values only if another variant has it.
-/
theorem example_of_choice {rest : List Value} {s : Schema} (hkind : e.kind = .enum)
    (hcontent : e.content = .tuple (.element first :: rest)) (hfirst : r.Stands first x)
    (hy : (r.exampleWithin n (.element e)).result = .ok y)
    (hs : (r.schemaWithin m (.element e)).result = .ok s)
    : y = x ∧ y ≠ .null ∧ ∃ choices, s.toValue.under? "enum" = some (.list choices)
        ∧ (first.content ≠ .null → choices.head? = some y)
        ∧ (first.content = .null → choices = .null :: rest.map Value.contentOrNull
            ∧ (y ∈ choices ↔ ∃ v ∈ rest, v.contentOrNull = y)) := by
  obtain rfl := hfirst.eq_of_choice hkind hcontent hy
  have hnull := hfirst.ne_null
  -- A literal of its own comes first, whatever the first variant refers to.
  have hown : first.content ≠ .null → first.content = y := by
    intro hliteral
    have hisNull := mt Value.isNull_iff.1 hliteral
    cases hfirst with
    | literal kind => rw [Example.literalOr, if_neg hisNull]
    | reference kind content found below => rw [Example.literalOr, if_neg hisNull]
  have hvariants : (Value.element first :: rest).map Value.contentOrNull
      = first.content :: rest.map Value.contentOrNull := rfl
  have henum := enum_of_choice hkind hcontent hs
  rw [hvariants] at henum
  refine ⟨rfl, hnull, ?_⟩
  rw [Schema.under?_enum]
  rcases henum with henum | ⟨habsent, henum⟩
  . rw [henum]
    refine ⟨_, rfl, fun hliteral => ?_, fun hliteral => ?_⟩
    . rw [List.head?_cons, hown hliteral]
    . rw [hliteral]
      refine ⟨rfl, ?_⟩
      rw [List.mem_cons, List.mem_map]
      exact or_iff_right hnull
  . rw [henum]
    refine ⟨_, rfl, fun hliteral => ?_, fun hliteral => ?_⟩
    . rw [List.cons_append, List.head?_cons, hown hliteral]
    . rw [hliteral] at habsent
      exact absurd List.mem_cons_self habsent

section Samples

def palette : Registry where
  types := [(.text "Color", plainElement .string (.text "red"))]

def anyColor : Element :=
  plainElement (.named (.text "Color")) .null

theorem stands_anyColor : palette.Stands anyColor (.text "red") := by
  have hbelow : palette.Stands (plainElement .string (.text "red")) (.text "red") := .literal rfl
  refine .reference rfl (fun items hitems => ?_) rfl hbelow
  contradiction

def shade : Element :=
  plainSequence .enum [anyColor, plainElement .string (.text "red")]

theorem example_of_choice_shade
    : shade.kind = .enum ∧ palette.Stands anyColor (.text "red")
        ∧ ∃ y s choices, (palette.exampleWithin 3 (.element shade)).result = .ok y
            ∧ (palette.schemaWithin 1 (.element shade)).result = .ok s
            ∧ y = .text "red" ∧ s.toValue.under? "enum" = some (.list choices)
            ∧ choices = [.null, .text "red"] ∧ y ∈ choices := by
  have hkind : shade.kind = .enum := rfl
  obtain ⟨y, hy⟩ : ∃ y, (palette.exampleWithin 3 (.element shade)).result = .ok y := ⟨_, rfl⟩
  obtain ⟨s, hs⟩ : ∃ s, (palette.schemaWithin 1 (.element shade)).result = .ok s := ⟨_, rfl⟩
  obtain ⟨hred, -, choices, henum, -, hbare⟩ := example_of_choice hkind rfl stands_anyColor hy hs
  obtain ⟨hchoices, hmem⟩ := hbare rfl
  exact ⟨hkind, stands_anyColor, y, s, choices, hy, hs, hred, henum, hchoices,
    hmem.2 ⟨_, List.mem_singleton_self _, hred.symm⟩⟩

/--
If its only variant has no literal of its own, an enumeration has an example that is not among the
values to choose from, be it a placeholder or the literal of a declared type.
-/
theorem not_example_of_choice
    : ((noTypes.exampleWithin 2 (.element (plainSequence .enum [plainElement .string .null]))).result
            = .ok (.text "Hello, world!")
          ∧ ∃ s, (noTypes.schemaWithin 1
                (.element (plainSequence .enum [plainElement .string .null]))).result = .ok s
              ∧ s.toValue.under? "enum" = some (.list [.null]))
        ∧ ((palette.exampleWithin 3 (.element (plainSequence .enum [anyColor]))).result
              = .ok (.text "red")
            ∧ ∃ s, (palette.schemaWithin 1 (.element (plainSequence .enum [anyColor]))).result = .ok s
                ∧ s.toValue.under? "enum" = some (.list [.null]))
        ∧ Value.text "Hello, world!" ∉ [Value.null] ∧ Value.text "red" ∉ [Value.null] := by
  exact ⟨⟨rfl, _, rfl, rfl⟩, ⟨rfl, _, rfl, rfl⟩, by simp, by simp⟩

end Samples

end Registry

end ApiElements
