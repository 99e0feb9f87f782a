import ApiElements.Proofs.Recast.Trees

/-!
This module contains what becomes of trees that have been recast when they are merged on top of
declared types and when their includes are expanded: what comes out has been recast, too.
-/

namespace ApiElements

section Merge

variable {xs ys : List Value} {override override' attributes attributes' : Value} {e e' : Element}

theorem Element.Recast.isMember_eq (h : e.Recast e') : e.isMember = e'.isMember := by
  unfold Element.isMember
  rw [h.kind_eq]

theorem matches_keepLast (h : List.Forall₂ Value.Recast xs ys)
    : Outcome.Matches (fun x y => List.Forall₂ Value.Recast x.1 y.1 ∧ x.2 = y.2)
        (keepLast xs) (keepLast ys) := by
  induction h with
  | nil => exact .ok ⟨.nil, rfl⟩
  | cons hentry _ ih =>
    rw [keepLast, keepLast]
    apply ih.bind
    rintro ⟨kept, seen⟩ ⟨kept', _⟩ ⟨hkept, rfl⟩
    dsimp only at hkept ⊢
    rcases hentry.element_or_other with ⟨e, e', rfl, rfl, he⟩ | ⟨hother, hother'⟩
    . dsimp only
      rw [← he.isMember_eq, ← he.key_eq]
      split
      . apply (Outcome.matches_of_eq (rfl : e.key = e.key)).bind
        rintro key _ rfl
        apply (Outcome.matches_of_eq (rfl : key.asKey = key.asKey)).bind
        rintro k _ rfl
        split
        . exact .ok ⟨hkept, rfl⟩
        . exact .ok ⟨.cons hentry hkept, rfl⟩
      . exact .ok ⟨.cons hentry hkept, rfl⟩
    . split
      . exact absurd rfl (hother _)
      . exact .ok ⟨.cons hentry hkept, rfl⟩

theorem matches_dropRepeated (h : List.Forall₂ Value.Recast xs ys)
    : Outcome.Matches (List.Forall₂ Value.Recast) (dropRepeated xs) (dropRepeated ys) := by
  have hkept := (matches_keepLast h).map fun x y hxy => hxy.1
  cases h with
  | nil => exact .ok .nil
  | cons hentry hrest =>
    unfold dropRepeated
    rcases hentry.element_or_other with ⟨e, e', rfl, rfl, he⟩ | ⟨hother, hother'⟩
    . dsimp only
      rw [← he.isMember_eq]
      split
      . exact hkept
      . exact .ok (.cons hentry hrest)
    . split
      . next heq => exact absurd (List.cons.inj heq).1 (hother _)
      . split
        . next heq => exact absurd (List.cons.inj heq).1 (hother' _)
        . exact .ok (.cons hentry hrest)

theorem matches_mergeContent (base : Value) (h : override.Recast override')
    : Outcome.Matches Value.Recast (mergeContent base override) (mergeContent base override') := by
  cases h with
  | refl => exact Outcome.matches_self .refl _
  | tuple items =>
    rw [Registry.mergeContent_tuple, Registry.mergeContent_tuple]
    have hitems := List.rel_append (Value.recast_items (Registry.entriesOf base)) items
    exact (matches_dropRepeated hitems).map fun kept kept' => .tuple
  | member hkey hvalue =>
    rw [Registry.mergeContent_other (by simp) (by simp),
      Registry.mergeContent_other (by simp) (by simp)]
    exact .ok (.member hkey hvalue)
  | element hattributes hcontent =>
    rw [Registry.mergeContent_other (by simp) (by simp),
      Registry.mergeContent_other (by simp) (by simp)]
    exact .ok (.element hattributes hcontent)

theorem matches_mergeEntries (base : Value) (h : attributes.AttributesRecast attributes')
    : Outcome.Matches (fun t u => (Value.object t).AttributesRecast (.object u))
        (mergeEntries base attributes) (mergeEntries base attributes') := by
  cases h with
  | refl => exact Outcome.matches_self (fun t => .refl _) _
  | object alike =>
    cases base with
    | object t =>
      have hbase := Table.alike_self (S := Table.SameBut ["typeAttributes"] Value.NamesRecast)
        (fun _ _ => .inl rfl) t
      exact .ok (.object (hbase.union Table.stable_sameBut alike))
    | _ => exact .error _

namespace Element

theorem Recast.extendBy (h : e.Recast e') (base : Element)
    : Outcome.Matches Element.Recast (base.extendBy e) (base.extendBy e') := by
  unfold Element.extendBy
  rw [← h.info_eq]
  apply (Outcome.matches_of_eq rfl).bind
  rintro info _ rfl
  apply (matches_mergeEntries base.attributes h.attributes).bind
  intro attributes attributes' hattributes
  apply (matches_mergeContent base.content h.content).bind
  intro content content' hcontent
  exact .ok ⟨rfl, rfl, hattributes, hcontent⟩

end Element

end Merge

inductive Step.Recast : Step → Step → Prop where
  | entry {v v' : Value} (related : v.Recast v') : Recast (.entry v) (.entry v')
  | unresolved (href : Value) : Recast (.unresolved href) (.unresolved href)
  | fault (fault : Fault) : Recast (.fault fault) (.fault fault)

namespace Registry

variable {r : Registry} {e e' : Element} {v v' content content' : Value} {steps steps' : List Step}

theorem resolve_recast (h : e.Recast e')
    : (r.resolve e).Matches (Option.Rel Element.Recast) (r.resolve e') := by
  have hname : e.typeName = e'.typeName := by
    unfold Element.typeName
    rw [h.kind_eq]
  unfold resolve
  rw [← hname]
  apply (Logged.matches_self (fun _ => rfl) _).bind
  rintro name _ rfl
  apply (Logged.matches_self (fun _ => rfl) _).bind
  rintro found _ rfl
  cases found with
  | none =>
    apply (Logged.matches_self (fun _ => rfl) _).bind
    rintro _ _ rfl
    exact Logged.matches_pure .none
  | some declared =>
    exact (Logged.matches_liftM (h.extendBy declared)).map fun merged merged' => .some

section Scan

theorem Step.recast_self (step : Step) : step.Recast step := by
  cases step with
  | entry v => exact .entry (.refl v)
  | unresolved href => exact .unresolved href
  | fault fault => exact .fault fault

theorem scanEntry_recast (included : Value → List Step) (h : v.Recast v')
    : List.Forall₂ Step.Recast (scanEntry included v) (scanEntry included v') := by
  have hself : ∀ steps : List Step, List.Forall₂ Step.Recast steps steps := by
    intro steps
    rw [List.forall₂_same]
    exact fun step _ => Step.recast_self step
  cases h with
  | refl => exact hself _
  | tuple items => exact .cons (.entry (.tuple items)) .nil
  | member hkey hvalue => exact .cons (.entry (.member hkey hvalue)) .nil
  | @element kind _ _ _ _ _ hattributes hcontent =>
    cases kind with
    | ref =>
      -- The target of an include is not recast, and nothing else is followed.
      cases hcontent with
      | refl =>
        unfold scanEntry
        exact hself _
      | _ => exact .cons (.fault _) .nil
    | _ => exact .cons (.entry (.element hattributes hcontent)) .nil

theorem scan_recast (h : content.Recast content')
    : List.Forall₂ Step.Recast (r.scan content) (r.scan content') := by
  unfold scan
  exact List.rel_flatMap h.entriesOf fun v v' => scanEntry_recast _

variable {α β : Type} {T : α → β → Prop} {added : Value → Logged α} {added' : Value → Logged β}

theorem matches_additions (h : List.Forall₂ Step.Recast steps steps')
    (hadded : ∀ v v', v.Recast v' → (added v).Matches T (added' v'))
    : (additions added steps).Matches (List.Forall₂ T) (additions added' steps') := by
  induction h with
  | nil => exact Logged.matches_pure .nil
  | cons hstep _ ih =>
    cases hstep with
    | entry related =>
      rw [additions, additions]
      apply (hadded _ _ related).bind
      intro a b hab
      exact ih.map fun as bs => .cons hab
    | unresolved href =>
      rw [additions, additions]
      exact (Logged.matches_self (fun _ => rfl) _).bind fun _ _ _ => ih
    | fault fault => exact Logged.matches_fail fault

end Scan

end Registry

end ApiElements
