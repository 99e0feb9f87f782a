import ApiElements.Element.Kinds
import ApiElements.Proofs.Outcome

/-!
This module contains the tables of kinds that registering leads to, and which tags have a content of
which shape under them: the built-in kinds keep their tags, whatever is registered after them.
-/

namespace ApiElements

namespace Kinds

/--
A table of kinds that registering leads to, beginning with the built-in kinds.
-/
inductive Registered : Kinds → Prop where
  | start : Registered builtIn
  | register {kinds kinds' : Kinds} {name : String} {tag : Option String}
    (registered : Registered kinds) (registers : kinds.register name tag = .ok kinds')
    : Registered kinds'

def literalTags : List String :=
  ["boolean", "string", "number"]

def SequenceTag (kinds : Kinds) (tag : String) : Prop :=
  tag ∈ kinds.tags ∧ tag ∉ literalTags ∧ tag ≠ "member" ∧ tag ≠ "ref" ∧ tag ≠ "named"

/--
A tag whose elements are references. One tag of references is registered.
-/
def ReferenceTag (kinds : Kinds) (tag : String) : Prop :=
  tag ∉ kinds.tags ∨ tag = "named"

instance (kinds : Kinds) (tag : String) : Decidable (kinds.SequenceTag tag) :=
  inferInstanceAs (Decidable (_ ∧ _ ∧ _ ∧ _ ∧ _))

example : builtIn.tags.filter (fun tag => builtIn.SequenceTag tag)
    = ["enum", "array", "object", "option", "select"] := by
  decide

def Shape.Suits (kinds : Kinds) (tag : String) : Shape → Prop
  | .member => tag = "member"
  | .ref => tag = "ref"
  | .literal _ => tag ∈ literalTags
  | .sequence _ => kinds.SequenceTag tag
  | .reference => kinds.ReferenceTag tag

theorem shape_member (kinds : Kinds) : kinds.shape (.text "member") = .ok .member := by
  rfl

theorem shape_ref (kinds : Kinds) : kinds.shape (.text "ref") = .ok .ref := by
  rfl

variable {kinds : Kinds} {tag : String} {shape : Shape}

theorem register_eq_ok {kinds' : Kinds} {name : String} {tag : Option String}
    (h : kinds.register name tag = .ok kinds')
    : kinds.ofTag? (tag.getD (derivedTag name)) = none
        ∧ kinds' = kinds ++ [.custom name (tag.getD (derivedTag name))] := by
  unfold register at h
  dsimp only at h
  split at h
  . contradiction
  . next hnone =>
    injection h with h
    exact ⟨hnone, h.symm⟩

theorem Registered.exists_append (h : kinds.Registered) : ∃ more, kinds = builtIn ++ more := by
  induction h with
  | start => exact ⟨[], rfl⟩
  | register _ registers ih =>
    obtain ⟨more, rfl⟩ := ih
    obtain ⟨-, rfl⟩ := register_eq_ok registers
    exact ⟨_, List.append_assoc _ _ _⟩

theorem Registered.ofTag?_eq (h : kinds.Registered) {kind : Kind}
    (hkind : ofTag? builtIn tag = some kind) : kinds.ofTag? tag = some kind := by
  obtain ⟨more, rfl⟩ := h.exists_append
  unfold ofTag? at hkind ⊢
  rw [List.find?_append, hkind, Option.some_or]

theorem Registered.mem_tags (h : kinds.Registered) (htag : tag ∈ builtIn.tags)
    : tag ∈ kinds.tags := by
  obtain ⟨more, rfl⟩ := h.exists_append
  unfold tags at htag ⊢
  rw [List.map_append]
  exact List.mem_append_left _ htag

theorem mem_tags_of_ofTag? {kind : Kind} (h : kinds.ofTag? tag = some kind)
    : kind.tag = tag ∧ tag ∈ kinds.tags := by
  have htag : kind.tag = tag := by
    simpa using List.find?_some h
  refine ⟨htag, ?_⟩
  rw [← htag]
  exact List.mem_map_of_mem (List.mem_of_find?_eq_some h)

theorem not_mem_tags_of_ofTag? (h : kinds.ofTag? tag = none) : tag ∉ kinds.tags := by
  intro hmem
  obtain ⟨kind, hkind, rfl⟩ := List.mem_map.1 hmem
  have := List.find?_eq_none.1 h kind hkind
  simp at this

theorem Registered.exists_shape (h : kinds.Registered) (tag : String)
    : ∃ shape, kinds.shape (.text tag) = .ok shape ∧ shape.Suits kinds tag := by
  by_cases hmember : tag = "member"
  . exact ⟨.member, by rw [hmember]; rfl, hmember⟩
  by_cases href : tag = "ref"
  . exact ⟨.ref, by rw [href]; rfl, href⟩
  unfold Kinds.shape
  split
  . next heq => exact absurd (Value.text.inj heq) hmember
  . next heq => exact absurd (Value.text.inj heq) href
  . next heq =>
    injection heq with heq
    subst heq
    split
    . next hnone => exact ⟨.reference, rfl, .inl (not_mem_tags_of_ofTag? hnone)⟩
    . next hfound => exact ⟨.reference, rfl, .inr (mem_tags_of_ofTag? hfound).1.symm⟩
    . next kind hnamed hfound =>
      split
      . next hliteral =>
        exact ⟨.literal kind, rfl, by simpa [Shape.Suits, literalTags] using hliteral⟩
      . next hliteral =>
        refine ⟨.sequence kind, rfl, (mem_tags_of_ofTag? hfound).2,
          by simpa [literalTags] using hliteral, hmember, href, ?_⟩
        -- Nothing else than the kind of references stands under its tag.
        rintro rfl
        rw [h.ofTag?_eq rfl, Option.some.injEq] at hfound
        exact hnamed _ hfound.symm
  . next htext => exact absurd rfl (htext tag)

theorem Registered.suits_of_shape (h : kinds.Registered) (hshape : kinds.shape (.text tag) = .ok shape)
    : shape.Suits kinds tag := by
  obtain ⟨shape', hshape', hsuits⟩ := h.exists_shape tag
  rw [hshape, Except.ok.injEq] at hshape'
  rw [hshape']
  exact hsuits

theorem Registered.mem_tags_of_literal (h : kinds.Registered) (htag : tag ∈ literalTags)
    : tag ∈ kinds.tags := by
  apply h.mem_tags
  simp only [literalTags, List.mem_cons, List.not_mem_nil, or_false] at htag
  rcases htag with rfl | rfl | rfl
  all_goals decide

theorem Registered.exists_literal (h : kinds.Registered) (htag : tag ∈ literalTags)
    : ∃ kind, kinds.shape (.text tag) = .ok (.literal kind) := by
  obtain ⟨shape, hshape, hsuits⟩ := h.exists_shape tag
  cases shape with
  | literal kind => exact ⟨kind, hshape⟩
  | sequence kind => exact absurd htag hsuits.2.1
  | reference =>
    rcases hsuits with hnew | rfl
    . exact absurd (h.mem_tags_of_literal htag) hnew
    . simp [literalTags] at htag
  | member => simp [literalTags, show tag = "member" from hsuits] at htag
  | ref => simp [literalTags, show tag = "ref" from hsuits] at htag

theorem Registered.exists_sequence (h : kinds.Registered) (htag : kinds.SequenceTag tag)
    : ∃ kind, kinds.shape (.text tag) = .ok (.sequence kind) := by
  obtain ⟨shape, hshape, hsuits⟩ := h.exists_shape tag
  obtain ⟨hmem, hliteral, hmember, href, hnamed⟩ := htag
  cases shape with
  | sequence kind => exact ⟨kind, hshape⟩
  | literal kind => exact absurd hsuits hliteral
  | reference =>
    rcases hsuits with hnew | heq
    . exact absurd hmem hnew
    . exact absurd heq hnamed
  | member => exact absurd hsuits hmember
  | ref => exact absurd hsuits href

theorem Registered.shape_reference (h : kinds.Registered) (htag : kinds.ReferenceTag tag)
    : kinds.shape (.text tag) = .ok .reference := by
  have hnew : ∀ {other}, other ∈ builtIn.tags → other ≠ "named" → tag ≠ other := by
    rintro other hmem hother rfl
    rcases htag with hnew | heq
    . exact hnew (h.mem_tags hmem)
    . exact hother heq
  obtain ⟨shape, hshape, hsuits⟩ := h.exists_shape tag
  cases shape with
  | reference => exact hshape
  | literal kind =>
    simp only [Shape.Suits, literalTags, List.mem_cons, List.not_mem_nil, or_false] at hsuits
    rcases hsuits with rfl | rfl | rfl
    all_goals exact absurd rfl (hnew (by decide) (by decide))
  | sequence kind =>
    rcases htag with htag | htag
    . exact absurd hsuits.1 htag
    . exact absurd htag hsuits.2.2.2.2
  | member => exact absurd hsuits (hnew (by decide) (by decide))
  | ref => exact absurd hsuits (hnew (by decide) (by decide))

theorem Registered.shape_string (h : kinds.Registered)
    : kinds.shape (.text "string") = .ok (.literal .string) := by
  have hfound : kinds.ofTag? "string" = some .string := h.ofTag?_eq (by rfl)
  simp [Kinds.shape, hfound]

end Kinds

end ApiElements
