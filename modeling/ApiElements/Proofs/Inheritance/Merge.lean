import ApiElements.Proofs.Compile.Visit
import ApiElements.Proofs.Holds

/-!
This module contains what comes of an element that is merged on top of another one: which of the
entries of both are kept, and what merging can fail with.
-/

namespace ApiElements

section Drops

variable {content kept seen : List Value} {v : Value}

/--
What is kept of a content, and the keys of the members in it, as it is gone through from its end.
-/
inductive Drops : (content kept seen : List Value) → Prop where
  | nil : Drops [] [] []
  | other {content kept seen : List Value} {v : Value}
    (not_member : ∀ e, v = .element e → e.kind ≠ .member) (rest : Drops content kept seen)
    : Drops (v :: content) (v :: kept) seen
  | last {content kept seen : List Value} {e : Element} {key : Value} (kind_eq : e.kind = .member)
    (key_eq : e.key = .ok key) (hashable : key.hashable = true) (new : key.memberOf seen = false)
    (rest : Drops content kept seen) : Drops (.element e :: content) (.element e :: kept) (key :: seen)
  | again {content kept seen : List Value} {e : Element} {key : Value} (kind_eq : e.kind = .member)
    (key_eq : e.key = .ok key) (hashable : key.hashable = true) (met : key.memberOf seen = true)
    (rest : Drops content kept seen) : Drops (.element e :: content) kept seen

theorem drops_of_keepLast (h : keepLast content = .ok (kept, seen)) : Drops content kept seen := by
  induction content generalizing kept seen with
  | nil =>
    cases h
    exact .nil
  | cons v rest ih =>
    rw [keepLast, Outcome.bind_eq_ok] at h
    obtain ⟨⟨kept', seen'⟩, hrest, h⟩ := h
    have hdrops := ih hrest
    dsimp only at h
    split at h
    . next e =>
      split at h
      . next hmember =>
        have hkind := Element.isMember_iff.1 hmember
        simp only [Outcome.bind_eq_ok, Value.asKey_eq_ok] at h
        obtain ⟨key, hkey, _, ⟨hhashable, rfl⟩, h⟩ := h
        split at h
        . next hmet =>
          cases h
          exact .again hkind hkey hhashable hmet hdrops
        . next hnew =>
          cases h
          exact .last hkind hkey hhashable (Bool.eq_false_iff.2 hnew) hdrops
      . next hmember =>
        cases h
        refine .other ?_ hdrops
        rintro _ ⟨⟩ hkind
        exact hmember (Element.isMember_iff.2 hkind)
    . next hother =>
      cases h
      exact .other (fun e he => absurd he (hother e)) hdrops

theorem Drops.keepLast_eq (h : Drops content kept seen) : keepLast content = .ok (kept, seen) := by
  induction h with
  | nil => rfl
  | @other _ _ _ v not_member _ ih =>
    rw [keepLast, ih, Outcome.ok_bind]
    dsimp only
    split
    . next e => rw [if_neg fun hmember => not_member e rfl (Element.isMember_iff.1 hmember)]
    . rfl
  | last kind_eq key_eq hashable new _ ih =>
    rw [keepLast, ih, Outcome.ok_bind]
    simp only [Element.isMember_iff.2 kind_eq, if_true, key_eq, Outcome.ok_bind,
      Value.asKey_eq_ok.2 ⟨hashable, rfl⟩, new, Bool.false_eq_true, if_false]
  | again kind_eq key_eq hashable met _ ih =>
    rw [keepLast, ih, Outcome.ok_bind]
    simp only [Element.isMember_iff.2 kind_eq, if_true, key_eq, Outcome.ok_bind,
      Value.asKey_eq_ok.2 ⟨hashable, rfl⟩, met]

theorem keepLast_eq_ok_iff : keepLast content = .ok (kept, seen) ↔ Drops content kept seen := by
  exact ⟨drops_of_keepLast, Drops.keepLast_eq⟩

theorem exists_keepLast_cons (h : keepLast content = .ok (kept, seen))
    (hv : ∀ e, v = .element e → e.kind = .member → ∃ key, e.key = .ok key ∧ key.hashable = true)
    : ∃ kept' seen', keepLast (v :: content) = .ok (kept', seen') := by
  rw [keepLast_eq_ok_iff] at h
  by_cases hmember : ∃ e, v = .element e ∧ e.kind = .member
  . obtain ⟨e, rfl, hkind⟩ := hmember
    obtain ⟨key, hkey, hhashable⟩ := hv e rfl hkind
    cases hmet : key.memberOf seen with
    | false => exact ⟨_, _, (Drops.last hkind hkey hhashable hmet h).keepLast_eq⟩
    | true => exact ⟨_, _, (Drops.again hkind hkey hhashable hmet h).keepLast_eq⟩
  . exact ⟨_, _, (Drops.other (fun e hv hkind => hmember ⟨e, hv, hkind⟩) h).keepLast_eq⟩

theorem mem_of_keepLast (h : keepLast content = .ok (kept, seen)) : ∀ v ∈ kept, v ∈ content := by
  rw [keepLast_eq_ok_iff] at h
  induction h with
  | nil => simp
  | other _ _ ih => exact List.forall_mem_cons.2 ⟨by simp, fun v hv => .tail _ (ih v hv)⟩
  | last _ _ _ _ _ ih => exact List.forall_mem_cons.2 ⟨by simp, fun v hv => .tail _ (ih v hv)⟩
  | again _ _ _ _ _ ih => exact fun v hv => .tail _ (ih v hv)

end Drops

namespace Registry

variable {content kept xs ys : List Value}

def MemberFirst (xs : List Value) : Prop :=
  ∃ e rest, xs = .element e :: rest ∧ e.kind = .member

theorem dropRepeated_of_memberFirst (h : MemberFirst xs)
    : dropRepeated xs = (·.1) <$> keepLast xs := by
  obtain ⟨e, rest, rfl, hkind⟩ := h
  unfold dropRepeated
  dsimp only
  rw [if_pos (Element.isMember_iff.2 hkind)]

theorem dropRepeated_of_not_memberFirst (h : ¬ MemberFirst xs) : dropRepeated xs = .ok xs := by
  unfold dropRepeated
  split
  . next e rest =>
    rw [if_neg fun hmember => h ⟨e, rest, rfl, Element.isMember_iff.1 hmember⟩]
  . rfl

theorem memberFirst_append
    : MemberFirst (xs ++ ys) ↔ MemberFirst xs ∨ xs = [] ∧ MemberFirst ys := by
  cases xs with
  | nil => simp [MemberFirst]
  | cons x xs => simp [MemberFirst]

theorem dropRepeated_eq_ok (h : dropRepeated content = .ok kept)
    : kept = content ∨ ∃ seen, keepLast content = .ok (kept, seen) := by
  by_cases hfirst : MemberFirst content
  . rw [dropRepeated_of_memberFirst hfirst, Outcome.map_eq_ok] at h
    obtain ⟨⟨_, seen⟩, hlast, rfl⟩ := h
    exact .inr ⟨seen, hlast⟩
  . rw [dropRepeated_of_not_memberFirst hfirst, Except.ok.injEq] at h
    exact .inl h.symm

theorem mergeContent_tuple (base : Value) (ys : List Value)
    : mergeContent base (.tuple ys) = .tuple <$> dropRepeated (entriesOf base ++ ys) := by
  cases base with
  | _ => rfl

theorem mergeContent_other {base v : Value} (hnull : v ≠ .null) (htuple : ∀ ys, v ≠ .tuple ys)
    : mergeContent base v = .ok v := by
  cases v with
  | null => exact absurd rfl hnull
  | tuple ys => exact absurd rfl (htuple ys)
  | _ =>
    cases base with
    | _ => rfl

end Registry

section Merged

variable {content kept : List Value}

theorem mem_of_dropRepeated (h : dropRepeated content = .ok kept) : ∀ v ∈ kept, v ∈ content := by
  rcases Registry.dropRepeated_eq_ok h with rfl | ⟨seen, hlast⟩
  . exact fun _ hv => hv
  . exact mem_of_keepLast hlast

theorem holds_of_mergeContent {base override content : Value} {x : Element}
    (h : mergeContent base override = .ok content) (hx : content.Holds x)
    : base.Holds x ∨ override.Holds x := by
  unfold mergeContent at h
  split at h
  . injection h with h
    subst h
    exact .inl hx
  . rw [Outcome.map_eq_ok] at h
    obtain ⟨kept, hkept, rfl⟩ := h
    cases hx with
    | tuple hmem hx =>
      rcases List.mem_append.1 (mem_of_dropRepeated hkept _ hmem) with hmem | hmem
      . exact .inl (.tuple hmem hx)
      . exact .inr (.tuple hmem hx)
  . rw [Outcome.map_eq_ok] at h
    obtain ⟨kept, hkept, rfl⟩ := h
    cases hx with
    | tuple hmem hx => exact .inr (.tuple (mem_of_dropRepeated hkept _ hmem) hx)
  . injection h with h
    subst h
    exact .inr hx

theorem extendBy_eq_ok {base override merged : Element} (h : base.extendBy override = .ok merged)
    : merged.kind = base.kind ∧ mergeContent base.content override.content = .ok merged.content := by
  unfold Element.extendBy at h
  simp only [Outcome.bind_eq_ok, Except.ok.injEq] at h
  obtain ⟨_, -, _, -, _, hcontent, rfl⟩ := h
  exact ⟨rfl, hcontent⟩

end Merged

section FailsAs

open Outcome

variable {foreseen : Fault → Bool} {content : List Value} {base override : Value}

theorem failsAs_keepLast (hasKey : ∀ v : Value, FailsAs foreseen v.asKey)
    (hkey : ∀ e, .element e ∈ content → e.kind = .member → FailsAs foreseen e.key)
    : FailsAs foreseen (keepLast content) := by
  induction content with
  | nil => exact failsAs_ok _
  | cons entry rest ih =>
    unfold keepLast
    apply (ih fun e he => hkey e (List.mem_cons_of_mem _ he)).bind
    rintro ⟨kept, seen⟩ _
    dsimp only
    split
    . next e =>
      split
      . next hmember =>
        apply (hkey e (by simp) (Element.isMember_iff.1 hmember)).bind
        intro key _
        apply (hasKey key).bind
        intro key _
        split
        . exact failsAs_ok _
        . exact failsAs_ok _
      . exact failsAs_ok _
    . exact failsAs_ok _

theorem failsAs_dropRepeated (hasKey : ∀ v : Value, FailsAs foreseen v.asKey)
    (hkey : ∀ e, .element e ∈ content → e.kind = .member → FailsAs foreseen e.key)
    : FailsAs foreseen (dropRepeated content) := by
  by_cases hfirst : Registry.MemberFirst content
  . rw [Registry.dropRepeated_of_memberFirst hfirst]
    exact (failsAs_keepLast hasKey hkey).map _
  . rw [Registry.dropRepeated_of_not_memberFirst hfirst]
    exact failsAs_ok _

/--
Merging fails as the keys of members can fail to be read.
-/
theorem failsAs_mergeContent (hasKey : ∀ v : Value, FailsAs foreseen v.asKey)
    (hkey : ∀ e, base.Holds e ∨ override.Holds e → e.kind = .member → FailsAs foreseen e.key)
    : FailsAs foreseen (mergeContent base override) := by
  unfold mergeContent
  split
  . exact failsAs_ok _
  . apply (failsAs_dropRepeated hasKey ?_).map
    intro e he
    rcases List.mem_append.1 he with he | he
    . exact hkey e (.inl (.tuple he (.self e)))
    . exact hkey e (.inr (.tuple he (.self e)))
  . apply (failsAs_dropRepeated hasKey ?_).map
    intro e he
    exact hkey e (.inr (.tuple he (.self e)))
  . exact failsAs_ok _

end FailsAs

end ApiElements
