import ApiElements.Proofs.Alike.Values
import ApiElements.Proofs.Inheritance.Inclusion
import ApiElements.Proofs.Padding.Grown

/-!
This module contains that blanks do not show in examples: these are the same with and without them,
apart from the order of keys and from elements that stand in them as they are.
-/

namespace ApiElements

open Outcome (Relates relates_ok relates_mapM)

namespace Value

variable {blank : Value → Prop} {v v' : Value}

theorem Padded.eq_of_bare (h : Padded blank v v') (hv : v.Bare) : v = v' := by
  induction hn : sizeOf v using Nat.strongRecOn generalizing v v' with
  | ind n ih =>
    cases h with
    | refl => rfl
    | @tuple xs ys items =>
      congr 1
      apply eq_of_forall₂ items
      intro x hx y hxy
      have := List.sizeOf_lt_of_mem hx
      rw [Value.tuple.sizeOf_spec] at hn
      exact ih (sizeOf x) (by omega) hxy (fun e he => hv e (.tuple hx he)) rfl
    | member h =>
      congr 1
      rw [Value.member.sizeOf_spec] at hn
      exact ih _ (by omega) h (fun e he => hv e (.memberValue he)) rfl
    | element => exact absurd (.self _) (hv _)
    | inserted => exact absurd (.self _) (hv _)

end Value

namespace Registry

variable {r r' : Registry} {moved : Prop} {n : Nat} {v v' content content' : Value}
variable {e e' : Element}

abbrev AlikeIn (r : Registry) (moved : Prop) : Value → Value → Prop :=
  Value.Alike (Value.Padded r.Blank) moved

theorem alike_null : r.AlikeIn moved .null .null := by
  exact .leaf (.refl .null)

theorem alike_literal (h : Value.Padded r.Blank v v') (placeholder : Value)
    : r.AlikeIn moved (Example.literalOr v placeholder) (Example.literalOr v' placeholder) := by
  exact Value.alike_literalOr (.refl placeholder) h h.isNull_eq

structure AlikeTo (r r' : Registry) (moved : Prop) (n : Nat) : Prop where
  element : ∀ e e', GrownBy r.Blank moved e e' →
    Relates (r.AlikeIn moved) (r.exampleWithin n (.element e)).result
      (r'.exampleWithin n (.element e')).result
  content : ∀ content content', Grown r.Blank moved content content' →
    Relates (Table.Linked moved (r.AlikeIn moved)) (r.exampleObjectWithin n content).result
      (r'.exampleObjectWithin n content').result

theorem eq_null_of_exampleWithin {x : Value} (hv : ∀ e, v ≠ .element e)
    (hx : (r.exampleWithin n v).result = .ok x) : x = .null := by
  cases n with
  | zero => contradiction
  | succ n =>
    cases v with
    | element e => exact absurd rfl (hv e)
    | _ =>
      injection hx with hx
      exact hx.symm

theorem AlikeTo.value (h : r.AlikeTo r' moved n) (hv : Value.Padded r.Blank v v')
    : Relates (r.AlikeIn moved) (r.exampleWithin n v).result (r'.exampleWithin n v').result := by
  rcases hv.element_or_other with ⟨e, e', rfl, rfl, he⟩ | ⟨hother, hother'⟩
  . exact h.element e e' (grownBy_of_paddedBy he)
  . constructor
    intro x y hx hy
    rw [eq_null_of_exampleWithin hother hx, eq_null_of_exampleWithin hother' hy]
    exact alike_null

theorem relates_elementContent (hv : Value.Padded r.Blank v v')
    : Relates (Grown r.Blank moved) v.elementContent v'.elementContent := by
  constructor
  intro c c' hc hc'
  cases v with
  | element e =>
    obtain ⟨e', rfl, he⟩ := hv.of_element
    injection hc with hc
    injection hc' with hc'
    rw [← hc, ← hc']
    exact (grownBy_of_paddedBy he).grown
  | _ => contradiction

theorem linked_member {x y : Value} (hxy : r.AlikeIn moved x y) (key : Except Fault Value)
    : Relates (Table.Linked moved (r.AlikeIn moved))
        (key >>= fun k => k.asKey >>= fun k => .ok [(k, x)])
        (key >>= fun k => k.asKey >>= fun k => .ok [(k, y)]) := by
  constructor
  intro t u ht hu
  simp only [Outcome.bind_eq_ok, Value.asKey_eq_ok] at ht hu
  obtain ⟨k, hkey, _, ⟨hhashable, rfl⟩, ht⟩ := ht
  obtain ⟨k', hkey', _, ⟨-, rfl⟩, hu⟩ := hu
  rw [hkey, Except.ok.injEq] at hkey'
  injection ht with ht
  injection hu with hu
  rw [← ht, ← hu, ← hkey']
  exact Table.linked_singleton hhashable hxy

theorem AlikeTo.entry (h : r.AlikeTo r' moved n) (hv : Value.Padded r.Blank v v')
    : Relates (Table.Linked moved (r.AlikeIn moved)) (r.exampleEntries n v).result
        (r'.exampleEntries n v').result := by
  rcases hv.element_or_other with ⟨e, e', rfl, rfl, he⟩ | ⟨hother, hother'⟩
  . unfold exampleEntries
    dsimp only
    rw [← he.kind_eq]
    cases hkind : e.kind with
    | select =>
      have hcontent := he.content_padded (by simp [hkind])
      dsimp only
      rw [← hcontent.truthy_eq]
      split
      . simp only [Logged.result_bind, Logged.result_liftM]
        apply hcontent.first.bind
        intro variant variant' hvariant
        apply (relates_elementContent hvariant).bind
        exact fun chosen chosen' hchosen => h.content chosen chosen' hchosen
      . exact relates_ok Table.linked_nil
    | member =>
      dsimp only
      rw [← he.key_eq hkind]
      simp only [Logged.result_bind, Logged.result_liftM]
      apply (he.value hkind).bind
      intro value value' hvalue
      rw [← hvalue.isNull_eq]
      split
      . simp only [Logged.result_bind, Logged.result_liftM, Logged.pure_result, Outcome.ok_bind]
        exact linked_member alike_null e.key
      . simp only [Logged.result_bind, Logged.result_liftM, Logged.pure_result]
        exact (h.value hvalue).bind fun x y hxy => linked_member hxy e.key
    | _ => exact relates_ok Table.linked_nil
  . rw [exampleEntries_passedOver (passedOver_of_other hother),
      exampleEntries_passedOver (passedOver_of_other hother')]
    exact relates_ok Table.linked_nil

theorem AlikeTo.same (h : r.Padded r') (halike : r.AlikeTo r' moved n)
    (hcontent : Interspersed r.Blank (Value.Padded r.Blank) (entriesOf content) (entriesOf content'))
    : Relates (Table.Linked moved (r.AlikeIn moved)) (r.exampleObjectWithin (n + 1) content).result
        (r'.exampleObjectWithin (n + 1) content').result := by
  rw [exampleObjectWithin_eq, exampleObjectWithin_eq, Logged.result_map, Logged.result_map]
  apply ((h.scan_steps hcontent).additions fun v v' => halike.entry).map
  intro ts us hts
  exact Table.linked_foldl_union Table.linked_nil hts

theorem AlikeTo.displaced (h : r.Padded r') (halike : r.AlikeTo r' moved n) (possible : moved)
    {xs ys zs seen : List Value} (kept : keepLast zs = .ok (xs, seen))
    (entries : Interspersed r.Blank (Value.Padded r.Blank) zs ys)
    : Relates (Table.Linked moved (r.AlikeIn moved)) (r.exampleObjectWithin (n + 1) (.tuple xs)).result
        (r'.exampleObjectWithin (n + 1) (.tuple ys)).result := by
  constructor
  intro t u ht hu
  -- Without its repeated members the second content is related to the first one.
  obtain ⟨kept', hkept', hentries⟩ :=
    exists_keepLast_of_interspersed (fun v hv => blank_not_member hv) entries kept
  obtain ⟨u', hu', hagrees⟩ := agrees_example_of_keepLast hu hkept'
  have hentries' : Interspersed r.Blank (Value.Padded r.Blank) (entriesOf (.tuple xs))
      (entriesOf (.tuple kept')) := hentries
  exact ((halike.same h hentries').of_ok t u' ht hu').agrees_right hagrees possible

theorem AlikeTo.kind (halike : r.AlikeTo r' moved n) (h : r.Padded r')
    (hplaced : ¬ moved → Placed r r') (he : GrownBy r.Blank moved e e')
    : Relates (r.AlikeIn moved) (r.exampleWithin (n + 1) (.element e)).result
        (r'.exampleWithin (n + 1) (.element e')).result := by
  rw [exampleWithin, exampleWithin, ← he.kind_eq]
  cases hkind : e.kind with
  | boolean => exact relates_ok (alike_literal (he.content_padded (by simp [hkind])) _)
  | number => exact relates_ok (alike_literal (he.content_padded (by simp [hkind])) _)
  | string => exact relates_ok (alike_literal (he.content_padded (by simp [hkind])) _)
  | enum =>
    have hcontent := he.content_padded (by simp [hkind])
    dsimp only
    rw [← hcontent.truthy_eq]
    split
    . simp only [Logged.result_bind, Logged.result_liftM]
      exact hcontent.first.bind fun first first' hfirst => halike.value hfirst
    . exact relates_ok alike_null
  | array =>
    have hcontent := he.content_padded (by simp [hkind])
    simp only [Logged.result_bind, Logged.result_liftM, Logged.result_map, Logged.result_mapM]
    apply hcontent.items.bind
    intro items items' hitems
    exact (relates_mapM hitems fun v v' => halike.value).map fun xs ys => Value.alike_list
  | object =>
    simp only [Logged.result_map]
    exact (halike.content e.content e'.content he.grown).map fun t u => Value.alike_object
  | named name =>
    simp only [Logged.result_bind]
    apply (he.resolve h hplaced hkind).bind
    intro found found' hfound
    cases hfound with
    | none => exact relates_ok alike_null
    | some hmerged => exact halike.element _ _ hmerged
  | _ => exact relates_ok alike_null

theorem alikeTo (h : r.Padded r') (hplaced : ¬ moved → Placed r r') (n : Nat)
    : r.AlikeTo r' moved n := by
  induction n with
  | zero =>
    constructor
    . intro e e' _
      constructor
      intro x y hx
      contradiction
    . intro content content' _
      constructor
      intro t u ht
      contradiction
  | succ n ih =>
    constructor
    . exact fun e e' => ih.kind h hplaced
    . intro content content' hcontent
      cases hcontent with
      | same entries => exact ih.same h entries
      | displaced possible kept entries => exact ih.displaced h possible kept entries

end Registry

end ApiElements
