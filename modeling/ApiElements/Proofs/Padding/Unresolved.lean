import ApiElements.Proofs.Compile.Depth
import ApiElements.Proofs.Compile.Termination
import ApiElements.Proofs.Padding.Schemas

/-!
This module contains that includes of types that are not declared contribute nothing, except where
they keep repeated members from being dropped: then a schema may still ask for the key of a member
that another one with the same key has taken the place of.
-/

namespace ApiElements

namespace Registry

open Outcome (shallow_ok)

variable {r r' : Registry} {root root' : Element} {n m : Nat} {x x' : Value} {s s' : Schema}

theorem Blank.exists_holds {v : Value} (h : r.Blank v) : ∃ e, v.Holds e := by
  obtain ⟨info, attributes, href, rfl, -⟩ := h
  exact ⟨_, .self _⟩

section Depths

variable {moved : Prop} (h : r.Padded r') (hplaced : ¬ moved → Placed r r')
variable (hroot : Value.Padded r.Blank (.element root) (.element root'))

include h hplaced hroot

theorem alike_of_padded (hx : (r.exampleWithin n (.element root)).result = .ok x)
    (hx' : (r'.exampleWithin m (.element root')).result = .ok x') : r.AlikeIn moved x x' := by
  rw [← exampleWithin_eq_of_le (Nat.le_max_left n m) (hx ▸ shallow_ok x)] at hx
  rw [← exampleWithin_eq_of_le (Nat.le_max_right n m) (hx' ▸ shallow_ok x')] at hx'
  exact ((alikeTo h hplaced (max n m)).value hroot).of_ok x x' hx hx'

theorem close_of_padded (hs : (r.schemaWithin n (.element root)).result = .ok s)
    (hs' : (r'.schemaWithin m (.element root')).result = .ok s')
    : s.CloseIn r.Blank moved s' := by
  rw [← schemaWithin_eq_of_le (Nat.le_max_left n m) (hs ▸ shallow_ok s)] at hs
  rw [← schemaWithin_eq_of_le (Nat.le_max_right n m) (hs' ▸ shallow_ok s')] at hs'
  exact ((closeTo h hplaced (max n m)).value hroot).of_ok s s' hs hs'

end Depths

/--
An element and a registry, and the same with includes of types that are not declared put among the
entries of objects and options. If both have examples, these are alike, and if both have schemas,
these are close: the second one may ask for further keys. If there are no elements in them, they
consist of equal parts. If besides no include has come in front of the members of a declaration, they
are equal.
-/
theorem answers_of_padded (h : r.Padded r')
    (hroot : Value.Padded r.Blank (.element root) (.element root'))
    : (∀ x x', (r.exampleWithin n (.element root)).result = .ok x →
        (r'.exampleWithin m (.element root')).result = .ok x' →
        r.AlikeIn (¬ Placed r r') x x' ∧
          (x.Bare → x.Alike Eq (¬ Placed r r') x' ∧ (Placed r r' → x = x')))
      ∧ ∀ s s', (r.schemaWithin n (.element root)).result = .ok s →
          (r'.schemaWithin m (.element root')).result = .ok s' →
          s.CloseIn r.Blank (¬ Placed r r') s' ∧
            (s.toValue.Bare → s'.toValue.Bare →
              s.Close Eq (¬ Placed r r') s' ∧ (Placed r r' → s = s')) := by
  constructor
  . intro x x' hx hx'
    have halike := alike_of_padded h not_not.1 hroot hx hx'
    refine ⟨halike, fun hbare => ?_⟩
    have hparts := halike.mono hbare fun v v' hv => hv.eq_of_bare
    refine ⟨hparts, fun hplaced => ?_⟩
    have hstill : r.AlikeIn False x x' := alike_of_padded h (fun _ => hplaced) hroot hx hx'
    exact (hstill.mono hbare fun v v' hv => hv.eq_of_bare).eq
  . intro s s' hs hs'
    have hclose := close_of_padded h not_not.1 hroot hs hs'
    refine ⟨hclose, fun hbare hbare' => ?_⟩
    have hleaf : ∀ v v', Value.PaddedContent r.Blank v v' → v.Bare → v'.Bare → v = v' :=
      fun v v' hv => hv.eq_of_bare fun _ => Blank.exists_holds
    refine ⟨hclose.mono hbare hbare' hleaf, fun hplaced => ?_⟩
    have hstill : s.CloseIn r.Blank False s' := close_of_padded h (fun _ => hplaced) hroot hs hs'
    exact (hstill.mono hbare hbare' hleaf).eq

def label : List Value :=
  [.element (.mk .member (.object []) (.object [(.text "typeAttributes", .tuple [.text "required"])])
    (.member (.element (plainElement .string (.text "label"))) (.element (plainElement .string .null))))]

def missing : Value :=
  .element (plainElement .ref (.ref (.text "Missing")))

def labels (content : List Value) : Registry where
  types := [(.text "Label", plainElement .object (.tuple content))]

def numberedLabel : Element :=
  plainElement (.named (.text "Label"))
    (.tuple [.element (plainMember "label" (.element (plainElement .number .null)))])

theorem padded_labels : (labels label).Padded (labels (missing :: label)) := by
  refine .cons ⟨rfl, .inserted (.inl rfl) (.blank ?_ (.cons (.refl _) .nil))⟩ .nil
  exact ⟨_, _, _, rfl, rfl, rfl⟩

def numbered (required : List Value) : Schema where
  type := some .object
  properties := some [(.text "label", { type := some .number })]
  required := required

theorem bare_numbered (names : List String) : (numbered (names.map .text)).toValue.Bare := by
  have hdocument : (numbered (names.map .text)).toValue
      = .object ([(.text "type", .text "object"),
          (.text "properties", .object [(.text "label", .object [(.text "type", .text "number")])])]
        ++ Schema.listKeyword "required" (names.map .text) ++ []) := rfl
  intro e he
  rw [hdocument, Schema.listKeyword] at he
  split at he
  . simp at he
  . simp at he

theorem answers_of_padded_label
    : ∃ x, ((labels label).exampleOf numberedLabel).result = .ok x
        ∧ ((labels (missing :: label)).exampleOf numberedLabel).result = .ok x
        ∧ x.Alike Eq (¬ Placed (labels label) (labels (missing :: label))) x
        ∧ ((labels label).schemaOf numberedLabel).result = .ok (numbered [])
        ∧ ((labels (missing :: label)).schemaOf numberedLabel).result
            = .ok (numbered [.text "label"])
        ∧ (numbered []).Close Eq (¬ Placed (labels label) (labels (missing :: label)))
            (numbered [.text "label"]) := by
  obtain ⟨hexamples, hschemas⟩ :=
    @answers_of_padded (labels label) (labels (missing :: label)) numberedLabel numberedLabel
      nestingLimit nestingLimit padded_labels (.refl _)
  have hbare : (Value.object [(.text "label", .int 1)]).Bare := by
    intro e he
    simp at he
  refine ⟨_, rfl, rfl, ?_, rfl, rfl, ?_⟩
  . exact ((hexamples _ _ rfl rfl).2 hbare).1
  . exact ((hschemas _ _ rfl rfl).2 (bare_numbered []) (bare_numbered ["label"])).1

end Registry

end ApiElements
