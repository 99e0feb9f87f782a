import ApiElements.Proofs.Inheritance.Shadow
import ApiElements.Proofs.Padding.Padded

/-!
This module contains what becomes of blanks when declarations are merged with the elements that
extend them. A blank in front of the first member keeps repeated members from being dropped.
-/

namespace ApiElements

open Outcome (Relates)

namespace Registry

section Drop

variable {blank inner : Value → Prop} {xs ys zs zs' kept seen : List Value}

/--
Putting in blanks, which are no members, does not change which members are dropped.
-/
theorem exists_keepLast_of_interspersed
    (hblank : ∀ v, blank v → ∀ e, v = .element e → e.kind ≠ .member)
    (h : Interspersed blank (Value.Padded inner) xs ys) (hkept : keepLast xs = .ok (kept, seen))
    : ∃ kept', keepLast ys = .ok (kept', seen)
        ∧ Interspersed blank (Value.Padded inner) kept kept' := by
  rw [keepLast_eq_ok_iff] at hkept
  simp only [keepLast_eq_ok_iff]
  induction h generalizing kept seen with
  | nil =>
    cases hkept
    exact ⟨[], .nil, .nil⟩
  | blank skipped _ ih =>
    obtain ⟨kept', hkept', hrest⟩ := ih hkept
    exact ⟨_, .other (hblank _ skipped) hkept', .blank skipped hrest⟩
  | cons related _ ih =>
    cases hkept with
    | other not_member hkept =>
      obtain ⟨kept', hkept', hrest⟩ := ih hkept
      refine ⟨_, .other ?_ hkept', .cons related hrest⟩
      rintro e' rfl
      rcases related.element_or_other with ⟨e, e'', rfl, heq, hpadded⟩ | ⟨-, hother'⟩
      . injection heq with heq
        rw [heq, ← hpadded.kind_eq]
        exact not_member e rfl
      . exact absurd rfl (hother' e')
    | last kind_eq key_eq hashable new hkept =>
      obtain ⟨kept', hkept', hrest⟩ := ih hkept
      obtain ⟨e', rfl, hpadded⟩ := related.of_element
      exact ⟨_, .last (hpadded.kind_eq ▸ kind_eq) (hpadded.key_eq kind_eq ▸ key_eq) hashable new
        hkept', .cons related hrest⟩
    | again kind_eq key_eq hashable met hkept =>
      obtain ⟨kept', hkept', hrest⟩ := ih hkept
      obtain ⟨e', rfl, hpadded⟩ := related.of_element
      exact ⟨kept', .again (hpadded.kind_eq ▸ kind_eq) (hpadded.key_eq kind_eq ▸ key_eq) hashable met
        hkept', hrest⟩

theorem memberFirst_of_interspersed
    (hblank : ∀ v, blank v → ∀ e, v = .element e → e.kind ≠ .member)
    (h : Interspersed blank (Value.Padded inner) xs ys) (hys : MemberFirst ys)
    : MemberFirst xs := by
  obtain ⟨e', rest', rfl, hkind⟩ := hys
  cases h with
  | @cons x _ xs _ related _ =>
    rcases related.element_or_other with ⟨e, e'', rfl, heq, hpadded⟩ | ⟨-, hother⟩
    . injection heq with heq
      exact ⟨e, xs, rfl, hpadded.kind_eq.trans (heq ▸ hkind)⟩
    . exact absurd rfl (hother e')
  | blank skipped _ => exact absurd hkind (hblank _ skipped e' rfl)

/--
Repeated members are dropped from both sequences or from neither of them, unless a blank has been put
in front of the first member.
-/
theorem interspersed_dropRepeated
    (hblank : ∀ v, blank v → ∀ e, v = .element e → e.kind ≠ .member)
    (h : Interspersed blank (Value.Padded inner) zs zs') (hxs : dropRepeated zs = .ok xs)
    (hys : dropRepeated zs' = .ok ys)
    : Interspersed blank (Value.Padded inner) xs ys
      ∨ MemberFirst zs ∧ ¬ MemberFirst zs' ∧ ys = zs' ∧ ∃ seen, keepLast zs = .ok (xs, seen) := by
  by_cases hzs : MemberFirst zs
  . rw [dropRepeated_of_memberFirst hzs, Outcome.map_eq_ok] at hxs
    obtain ⟨⟨_, seen⟩, hkept, rfl⟩ := hxs
    by_cases hzs' : MemberFirst zs'
    . obtain ⟨kept', hkept', hkepts⟩ := exists_keepLast_of_interspersed hblank h hkept
      rw [dropRepeated_of_memberFirst hzs', hkept', Outcome.map_ok, Except.ok.injEq] at hys
      rw [← hys]
      exact .inl hkepts
    . rw [dropRepeated_of_not_memberFirst hzs', Except.ok.injEq] at hys
      exact .inr ⟨hzs, hzs', hys.symm, seen, hkept⟩
  . have hzs' := mt (memberFirst_of_interspersed hblank h) hzs
    rw [dropRepeated_of_not_memberFirst hzs, Except.ok.injEq] at hxs
    rw [dropRepeated_of_not_memberFirst hzs', Except.ok.injEq] at hys
    rw [← hxs, ← hys]
    exact .inl h

end Drop

/--
The entries of the second content are those of the first one, with blanks among them; or, if this
may happen at all, repeated members have been dropped from the first one only.
-/
inductive Grown (blank : Value → Prop) (moved : Prop) : Value → Value → Prop where
  | same {content content' : Value}
    (entries : Interspersed blank (Value.Padded blank) (entriesOf content) (entriesOf content'))
    : Grown blank moved content content'
  | displaced {xs ys zs seen : List Value} (possible : moved) (kept : keepLast zs = .ok (xs, seen))
    (entries : Interspersed blank (Value.Padded blank) zs ys)
    : Grown blank moved (.tuple xs) (.tuple ys)

/--
No blank has been put in front of a member that comes first, or into an empty sequence.
-/
def Undisplaced (content content' : Value) : Prop :=
  (entriesOf content = [] → entriesOf content' = []) ∧
    (MemberFirst (entriesOf content) → MemberFirst (entriesOf content'))

structure GrownBy (blank : Value → Prop) (moved : Prop) (e e' : Element) : Prop where
  kind_eq : e.kind = e'.kind
  info_eq : e.info = e'.info
  attributes_eq : e.attributes = e'.attributes
  content : Value.Padded blank e.content e'.content ∨ (e.kind = .object ∨ e.kind = .option) ∧
    Grown blank moved e.content e'.content

section Merge

variable {blank : Value → Prop} {moved : Prop} {e e' d d' merged merged' : Element}
variable {base base' override override' content content' : Value}

theorem grownBy_of_paddedBy (h : e.PaddedBy blank e') : GrownBy blank moved e e' where
  kind_eq := h.kind_eq
  info_eq := h.info_eq
  attributes_eq := h.attributes_eq
  content := by
    rcases h.content with h | ⟨hkind, xs, ys, hxs, hys, items⟩
    . exact .inl h
    . refine .inr ⟨hkind, .same ?_⟩
      rw [hxs, hys]
      exact items

theorem GrownBy.grown (h : GrownBy blank moved e e') : Grown blank moved e.content e'.content := by
  rcases h.content with h | ⟨-, h⟩
  . exact .same (.of_forall₂ h.entriesOf)
  . exact h

theorem GrownBy.content_padded (h : GrownBy blank moved e e')
    (hkind : ¬ (e.kind = .object ∨ e.kind = .option)) : Value.Padded blank e.content e'.content := by
  rcases h.content with h | ⟨h, -⟩
  . exact h
  . exact absurd h hkind

theorem memberFirst_of_forall₂ {xs ys : List Value} (h : List.Forall₂ (Value.Padded blank) xs ys)
    (hxs : MemberFirst xs) : MemberFirst ys := by
  obtain ⟨e, rest, rfl, hkind⟩ := hxs
  cases h with
  | cons related _ =>
    obtain ⟨e', rfl, hpadded⟩ := related.of_element
    exact ⟨e', _, rfl, hpadded.kind_eq ▸ hkind⟩

theorem grown_mergeContent (hblank : ∀ v, blank v → ∀ e, v = .element e → e.kind ≠ .member)
    (hbase : Interspersed blank (Value.Padded blank) (entriesOf base) (entriesOf base'))
    (hmoved : ¬ moved → Undisplaced base base') (hoverride : Value.Padded blank override override')
    (h : mergeContent base override = .ok content)
    (h' : mergeContent base' override' = .ok content') : Grown blank moved content content' := by
  by_cases hnull : override = .null
  . subst hnull
    rw [hoverride.null_right] at h'
    injection h with h
    injection h' with h'
    rw [← h, ← h']
    exact .same hbase
  by_cases htuple : ∃ xs, override = .tuple xs
  . obtain ⟨xs, rfl⟩ := htuple
    obtain ⟨ys, rfl, items⟩ := hoverride.tuple_right
    rw [mergeContent_tuple, Outcome.map_eq_ok] at h h'
    obtain ⟨kept, hkept, rfl⟩ := h
    obtain ⟨kept', hkept', rfl⟩ := h'
    have hentries := hbase.append (.of_forall₂ items)
    rcases interspersed_dropRepeated hblank hentries hkept hkept'
      with hentries | ⟨hfirst, hfirst', rfl, seen, hlast⟩
    . exact .same hentries
    . refine .displaced ?_ hlast hentries
      -- Had no first member been moved, the padded sequence would start with one as well.
      by_contra hnot
      obtain ⟨hempty, hmember⟩ := hmoved hnot
      rw [memberFirst_append] at hfirst hfirst'
      rcases hfirst with hfirst | ⟨hnil, hfirst⟩
      . exact hfirst' (.inl (hmember hfirst))
      . exact hfirst' (.inr ⟨hempty hnil, memberFirst_of_forall₂ items hfirst⟩)
  . have htuple := not_exists.1 htuple
    obtain ⟨hnull', htuple'⟩ := hoverride.not_sequence hnull htuple
    rw [mergeContent_other hnull htuple, Except.ok.injEq] at h
    rw [mergeContent_other hnull' htuple', Except.ok.injEq] at h'
    rw [← h, ← h']
    exact .same (.of_forall₂ hoverride.entriesOf)

theorem forall₂_of_interspersed {R : Value → Value → Prop} {xs ys : List Value}
    (h : Interspersed (fun _ => False) R xs ys) : List.Forall₂ R xs ys := by
  induction h with
  | nil => exact .nil
  | cons related _ ih => exact .cons related ih
  | blank skipped _ _ => contradiction

theorem padded_mergeContent (hbase : Value.Padded blank base base')
    (hoverride : Value.Padded blank override override')
    (h : mergeContent base override = .ok content)
    (h' : mergeContent base' override' = .ok content') : Value.Padded blank content content' := by
  by_cases hnull : override = .null
  . subst hnull
    rw [hoverride.null_right] at h'
    injection h with h
    injection h' with h'
    rw [← h, ← h']
    exact hbase
  by_cases htuple : ∃ xs, override = .tuple xs
  . obtain ⟨xs, rfl⟩ := htuple
    obtain ⟨ys, rfl, items⟩ := hoverride.tuple_right
    rw [mergeContent_tuple, Outcome.map_eq_ok] at h h'
    obtain ⟨kept, hkept, rfl⟩ := h
    obtain ⟨kept', hkept', rfl⟩ := h'
    have hentries := List.rel_append hbase.entriesOf items
    have hinterspersed : Interspersed (fun _ => False) (Value.Padded blank) (entriesOf base ++ xs)
        (entriesOf base' ++ ys) := .of_forall₂ hentries
    rcases interspersed_dropRepeated (by simp) hinterspersed hkept hkept'
      with hkepts | ⟨hfirst, hfirst', -⟩
    . exact .tuple (forall₂_of_interspersed hkepts)
    . exact absurd (memberFirst_of_forall₂ hentries hfirst) hfirst'
  . have htuple := not_exists.1 htuple
    obtain ⟨hnull', htuple'⟩ := hoverride.not_sequence hnull htuple
    rw [mergeContent_other hnull htuple, Except.ok.injEq] at h
    rw [mergeContent_other hnull' htuple', Except.ok.injEq] at h'
    rw [← h, ← h']
    exact hoverride

theorem grownBy_of_extendBy (hblank : ∀ v, blank v → ∀ e, v = .element e → e.kind ≠ .member)
    (hd : d.PaddedBy blank d') (hmoved : ¬ moved → Undisplaced d.content d'.content)
    (he : GrownBy blank moved e e') (hkind : ¬ (e.kind = .object ∨ e.kind = .option))
    (h : d.extendBy e = .ok merged) (h' : d'.extendBy e' = .ok merged')
    : GrownBy blank moved merged merged' := by
  have hoverride := he.content_padded hkind
  unfold Element.extendBy at h h'
  rw [← hd.info_eq, ← hd.attributes_eq, ← hd.kind_eq, ← he.info_eq, ← he.attributes_eq] at h'
  simp only [Outcome.bind_eq_ok] at h h'
  obtain ⟨info, hinfo, attributes, hattributes, content, hcontent, h⟩ := h
  obtain ⟨info', hinfo', attributes', hattributes', content', hcontent', h'⟩ := h'
  rw [hinfo, Except.ok.injEq] at hinfo'
  rw [hattributes, Except.ok.injEq] at hattributes'
  injection h with h
  injection h' with h'
  subst h h' hinfo' hattributes'
  refine ⟨rfl, rfl, rfl, ?_⟩
  by_cases hdeclared : d.kind = .object ∨ d.kind = .option
  . exact .inr ⟨hdeclared, grown_mergeContent hblank hd.entries hmoved hoverride hcontent hcontent'⟩
  . exact .inl (padded_mergeContent (hd.content_padded hdeclared) hoverride hcontent hcontent')

end Merge

section Resolve

variable {r r' : Registry} {moved : Prop} {e e' merged merged' : Element}

/--
Where blanks have been put into a declaration, none has come in front of a member that is the first
of its entries, and none stands alone.
-/
def Placed (r r' : Registry) : Prop :=
  ∀ name d d', r.types.get? name = some d → r'.types.get? name = some d' →
    Undisplaced d.content d'.content

theorem blank_not_member {v : Value} (h : r.Blank v) (e : Element) (he : v = .element e)
    : e.kind ≠ .member := by
  obtain ⟨info, attributes, href, rfl, -⟩ := h
  injection he with he
  rw [← he]
  simp [Element.kind]

theorem GrownBy.resolve (h : r.Padded r') (hplaced : ¬ moved → Placed r r')
    (he : GrownBy r.Blank moved e e') {name : Value} (hkind : e.kind = .named name)
    : Relates (Option.Rel (GrownBy r.Blank moved)) (r.resolve e).result (r'.resolve e').result := by
  constructor
  intro found found' hfound hfound'
  have hnone := resolve_eq_ok r hkind hfound
  have hnone' := resolve_eq_ok r' (he.kind_eq ▸ hkind) hfound'
  obtain ⟨-, hcases⟩ := hnone
  obtain ⟨-, hcases'⟩ := hnone'
  rcases h.get? name with ⟨hget, hget'⟩ | ⟨d, d', hget, hget', hpadded⟩
  . simp only [hget, hget', true_and, false_and, exists_false, or_false, reduceCtorEq] at hcases hcases'
    rw [hcases, hcases']
    exact .none
  . simp only [hget, hget', false_and, false_or, reduceCtorEq, Option.some.injEq] at hcases hcases'
    obtain ⟨_, merged, rfl, hmerged, rfl⟩ := hcases
    obtain ⟨_, merged', rfl, hmerged', rfl⟩ := hcases'
    apply Option.Rel.some
    apply grownBy_of_extendBy (fun v hv => blank_not_member hv) hpadded ?_ he (by simp [hkind])
      hmerged hmerged'
    exact fun hnot => hplaced hnot name d d' hget hget'

end Resolve

end Registry

end ApiElements
