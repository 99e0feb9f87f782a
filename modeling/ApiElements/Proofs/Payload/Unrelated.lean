import ApiElements.Payload.Render
import ApiElements.Proofs.Registry.Declared

/-!
This module contains that declarations whose names are not met do not matter: neither to the example
and the schema of an element nor to the texts of a payload or what is logged for them. The order of
the declarations does not matter either.
-/

namespace ApiElements

namespace Registry

/--
Two registries give the same answers for an element, or fail in the same way, and log the same.
-/
structure SameAnswers (r r' : Registry) (root : Element) : Prop where
  example_eq : ∀ n, r.exampleWithin n (.element root) = r'.exampleWithin n (.element root)
  schema_eq : ∀ n, r.schemaWithin n (.element root) = r'.schemaWithin n (.element root)
  render_eq : ∀ settings, Payload.render r root settings = Payload.render r' root settings

section Unrelated

variable {r r' : Registry} {S : Value → Prop} {root : Element}

theorem render_congr (hexample : r.exampleOf root = r'.exampleOf root)
    (hschema : r.schemaOf root = r'.schemaOf root) (settings : Settings)
    : Payload.render r root settings = Payload.render r' root settings := by
  unfold Payload.render Payload.schemaText Payload.bodyText
  rw [hexample, hschema]

theorem AgreeOn.answers_eq (h : AgreeOn S r r')
    (hscan : ∀ content, content.All (Element.Within S) → r.scan content = r'.scan content)
    (hroot : (Value.element root).All (Element.Within S)) : SameAnswers r r' root := by
  have hconfined := confined_of_all hroot
  have hexample := fun n => (h.example_eq hscan n).1 root hconfined
  have hschema := fun n => (h.schema_eq hscan n).1 root hconfined
  exact ⟨hexample, hschema, render_congr (hexample nestingLimit) (hschema nestingLimit)⟩

/--
Registries that agree on the names of a set, in which includes cannot go around in a circle, give the
same answers for every element that refers to such names only. Registries of the same declarations
in another order do so for every element.
-/
theorem sameAnswers
    : (∀ (S : Value → Prop) (rank : Value → Nat) (r r' : Registry) (root : Element),
        AgreeOn S r r' → Descends S rank r → (Value.element root).All (Element.Within S) →
        SameAnswers r r' root)
      ∧ ∀ (es es' : List Element) (r : Registry), ofElements es = .ok r →
          (es.filterMap Element.entry?).Pairwise (fun x y => x.1.same y.1 = false) → es.Perm es' →
          ∃ r', ofElements es' = .ok r' ∧ ∀ root, SameAnswers r r' root := by
  constructor
  . intro S rank r r' root hagree hdescends hroot
    exact hagree.answers_eq (fun content => hagree.scan_eq hdescends) hroot
  . intro es es' r hes hdistinct hperm
    obtain ⟨r', hes', hkeyed, hentries⟩ := ofElements_perm hes hdistinct hperm
    refine ⟨r', hes', fun root => ?_⟩
    apply (agreeOn_of_perm hkeyed hentries).answers_eq
    . exact fun content _ => scan_eq_of_perm hkeyed hentries content
    . exact fun _ _ _ _ => trivial

end Unrelated

def ChainName (name : Value) : Prop :=
  name = .text "A" ∨ name = .text "B" ∨ name = .text "C"

/--
The types of the chain in another order, among them one that includes itself.
-/
def crowd : Registry where
  types := chain.types.reverse ++ [(.text "D", plainElement .object (.tuple [
    .element (plainElement .ref (.ref (.text "D")))]))]

theorem agreeOn_crowd : AgreeOn ChainName chain crowd where
  get?_eq := by
    rintro name (rfl | rfl | rfl) _
    . rfl
    . rfl
    . rfl
  closed := by
    rintro name declared (rfl | rfl | rfl) hget
    all_goals
      injection hget with hget
      subst hget
      simp [Value.All, Element.Within, Element.RefersTo, Element.kind, Element.content, ChainName,
        plainElement, plainMember]

theorem descends_chain : Descends ChainName chainRank chain where
  rank_eq := by
    intro name name' hsame
    have htext : ∀ s : String, (Value.text s).same name = (Value.text s).same name' := by
      intro s
      rw [Bool.eq_iff_iff, Value.text_same, Value.text_same]
      constructor
      . rintro rfl
        exact Value.text_same.1 hsame
      . rintro rfl
        exact Value.same_text.1 hsame
    rw [chainRank, htext, htext, ← chainRank]
  rank_lt := by
    rintro name declared (rfl | rfl | rfl) hget e href he hkind hhref _
    all_goals
      injection hget with hget
      subst hget
      simp [entriesOf, Element.content, plainElement, plainMember] at he
    . rcases he with rfl | rfl
      . injection hhref with hhref
        subst hhref
        decide
      . contradiction
    . subst he
      contradiction
    . subst he
      contradiction

def menu : List Element := [
  .mk .object (.object [(.text "id", .text "Dish")]) (.object []) (.tuple [
    .element (plainElement .ref (.ref (.text "Side")))]),
  .mk .object (.object [(.text "id", .text "Side")]) (.object []) (.tuple [
    .element (plainMember "salad" .null)])]

theorem sameAnswers_crowd
    : AgreeOn ChainName chain crowd ∧ Descends ChainName chainRank chain
        ∧ SameAnswers chain crowd (plainElement (.named (.text "A")) .null)
        ∧ ∃ r r', ofElements menu = .ok r ∧ ofElements menu.reverse = .ok r'
            ∧ ∀ root, SameAnswers r r' root := by
  refine ⟨agreeOn_crowd, descends_chain, ?_, ?_⟩
  . apply sameAnswers.1 ChainName chainRank chain crowd _ agreeOn_crowd descends_chain
    simp [Value.All, Element.Within, Element.RefersTo, Element.kind, Element.content, ChainName,
      plainElement]
  . have hmenu : ∃ r, ofElements menu = .ok r := ⟨_, rfl⟩
    obtain ⟨r, hr⟩ := hmenu
    have hdistinct : (menu.filterMap Element.entry?).Pairwise fun x y => x.1.same y.1 = false := by
      decide
    obtain ⟨r', hr', hsame⟩ := sameAnswers.2 menu menu.reverse r hr hdistinct
      (List.reverse_perm menu).symm
    exact ⟨r, r', hr, hr', hsame⟩

end Registry

end ApiElements
