import ApiElements.Proofs.Compile.Entries
import ApiElements.Proofs.Holds

/-!
This module contains elements with blanks put into them: entries of objects and options that are
includes of types that are not declared. Going through a content with blanks meets the same entries
as going through it without them.
-/

namespace ApiElements

open Outcome (Relates)

section Interspersed

variable {α β γ δ : Type} {blank : β → Prop} {R : α → β → Prop} {xs xs' : List α} {ys ys' : List β}

inductive Interspersed (blank : β → Prop) (R : α → β → Prop) : List α → List β → Prop where
  | nil : Interspersed blank R [] []
  | cons {x : α} {y : β} {xs : List α} {ys : List β} (related : R x y)
    (rest : Interspersed blank R xs ys) : Interspersed blank R (x :: xs) (y :: ys)
  | blank {y : β} {xs : List α} {ys : List β} (skipped : blank y)
    (rest : Interspersed blank R xs ys) : Interspersed blank R xs (y :: ys)

namespace Interspersed

theorem of_forall₂ (h : List.Forall₂ R xs ys) : Interspersed blank R xs ys := by
  induction h with
  | nil => exact .nil
  | cons related _ ih => exact .cons related ih

theorem append (h : Interspersed blank R xs ys) (h' : Interspersed blank R xs' ys')
    : Interspersed blank R (xs ++ xs') (ys ++ ys') := by
  induction h with
  | nil => exact h'
  | cons related _ ih => exact .cons related ih
  | blank skipped _ ih => exact .blank skipped ih

theorem flatMap {blank' : δ → Prop} {S : γ → δ → Prop} {f : α → List γ} {g : β → List δ}
    (h : Interspersed blank R xs ys) (hfg : ∀ x y, R x y → Interspersed blank' S (f x) (g y))
    (hblank : ∀ y, blank y → Interspersed blank' S [] (g y))
    : Interspersed blank' S (xs.flatMap f) (ys.flatMap g) := by
  induction h with
  | nil => exact .nil
  | cons related _ ih => exact (hfg _ _ related).append ih
  | blank skipped _ ih => exact (hblank _ skipped).append ih

end Interspersed

end Interspersed

/--
The second value is the first one with blanks among the entries of some of the objects and options
that stand in it.
-/
inductive Value.Padded (blank : Value → Prop) : Value → Value → Prop where
  | refl (v : Value) : Padded blank v v
  | tuple {xs ys : List Value} (items : List.Forall₂ (Padded blank) xs ys)
    : Padded blank (.tuple xs) (.tuple ys)
  | member {key value value' : Value} (h : Padded blank value value')
    : Padded blank (.member key value) (.member key value')
  | element {kind : Kind} {info attributes content content' : Value}
    (h : Padded blank content content')
    : Padded blank (.element (.mk kind info attributes content))
        (.element (.mk kind info attributes content'))
  | inserted {kind : Kind} {info attributes : Value} {xs ys : List Value}
    (kind_eq : kind = .object ∨ kind = .option) (items : Interspersed blank (Padded blank) xs ys)
    : Padded blank (.element (.mk kind info attributes (.tuple xs)))
        (.element (.mk kind info attributes (.tuple ys)))

def Registry.Blank (r : Registry) (v : Value) : Prop :=
  ∃ info attributes href, v = .element (.mk .ref info attributes (.ref href)) ∧
    href.hashable = true ∧ r.types.get? href = none

/--
The second registry has the declarations of the first one, in the same order, with includes of types
that are not declared put into them.
-/
def Registry.Padded (r r' : Registry) : Prop :=
  r.types.Alike (fun _ d d' => Value.Padded r.Blank (.element d) (.element d')) r'.types

namespace Value

variable {blank : Value → Prop} {v v' : Value}

theorem padded_items (xs : List Value) : List.Forall₂ (Padded blank) xs xs := by
  rw [List.forall₂_same]
  exact fun x _ => .refl x

theorem Padded.null_right (h : Padded blank .null v') : v' = .null := by
  cases h with
  | refl => rfl

theorem Padded.tuple_right {xs : List Value} (h : Padded blank (.tuple xs) v')
    : ∃ ys, v' = .tuple ys ∧ List.Forall₂ (Padded blank) xs ys := by
  cases h with
  | refl => exact ⟨xs, rfl, padded_items xs⟩
  | tuple items => exact ⟨_, rfl, items⟩

theorem Padded.not_sequence (h : Padded blank v v') (hnull : v ≠ .null) (htuple : ∀ xs, v ≠ .tuple xs)
    : v' ≠ .null ∧ ∀ ys, v' ≠ .tuple ys := by
  cases h with
  | refl => exact ⟨hnull, htuple⟩
  | tuple => exact absurd rfl (htuple _)
  | _ => simp

theorem Padded.isNull_eq (h : Padded blank v v') : v.isNull = v'.isNull := by
  cases h with
  | _ => rfl

theorem Padded.truthy_eq (h : Padded blank v v') : v.truthy = v'.truthy := by
  cases h with
  | tuple items =>
    cases items with
    | nil => rfl
    | cons => rfl
  | _ => rfl

theorem Padded.items (h : Padded blank v v')
    : Relates (List.Forall₂ (Padded blank)) v.items v'.items := by
  constructor
  intro xs ys hxs hys
  cases h with
  | refl =>
    rw [hxs, Except.ok.injEq] at hys
    rw [← hys]
    exact padded_items xs
  | tuple items =>
    injection hxs with hxs
    injection hys with hys
    rw [← hxs, ← hys]
    exact items
  | _ => contradiction

theorem Padded.first (h : Padded blank v v') : Relates (Padded blank) v.first v'.first := by
  constructor
  intro x y hx hy
  cases h with
  | refl =>
    rw [hx, Except.ok.injEq] at hy
    rw [← hy]
    exact .refl x
  | tuple items =>
    cases items with
    | nil => contradiction
    | cons related _ =>
      injection hx with hx
      injection hy with hy
      rw [← hx, ← hy]
      exact related
  | _ => contradiction

theorem Padded.entriesOf (h : Padded blank v v')
    : List.Forall₂ (Padded blank) (Registry.entriesOf v) (Registry.entriesOf v') := by
  cases h with
  | refl => exact padded_items _
  | tuple items => exact items
  | _ => exact .nil

end Value

section Elements

variable {blank : Value → Prop} {e : Element} {v v' : Value}

structure Element.PaddedBy (blank : Value → Prop) (e e' : Element) : Prop where
  kind_eq : e.kind = e'.kind
  info_eq : e.info = e'.info
  attributes_eq : e.attributes = e'.attributes
  content : Value.Padded blank e.content e'.content ∨ (e.kind = .object ∨ e.kind = .option) ∧
    ∃ xs ys, e.content = .tuple xs ∧ e'.content = .tuple ys ∧
      Interspersed blank (Value.Padded blank) xs ys

theorem Value.Padded.of_element (h : Value.Padded blank (.element e) v')
    : ∃ e', v' = .element e' ∧ e.PaddedBy blank e' := by
  cases h with
  | refl => exact ⟨e, rfl, rfl, rfl, rfl, .inl (.refl _)⟩
  | element h => exact ⟨_, rfl, rfl, rfl, rfl, .inl h⟩
  | inserted kind_eq items =>
    exact ⟨_, rfl, rfl, rfl, rfl, .inr ⟨kind_eq, _, _, rfl, rfl, items⟩⟩

theorem Value.Padded.not_element (h : Value.Padded blank v v') (hv : ∀ e, v ≠ .element e)
    : ∀ e, v' ≠ .element e := by
  cases h with
  | refl => exact hv
  | tuple => simp
  | member => simp
  | element => exact absurd rfl (hv _)
  | inserted => exact absurd rfl (hv _)

theorem Value.Padded.element_or_other (h : Value.Padded blank v v')
    : (∃ e e', v = .element e ∧ v' = .element e' ∧ e.PaddedBy blank e')
        ∨ (∀ e, v ≠ .element e) ∧ ∀ e, v' ≠ .element e := by
  by_cases hother : ∃ e, v = .element e
  . obtain ⟨e, rfl⟩ := hother
    obtain ⟨e', rfl, he⟩ := h.of_element
    exact .inl ⟨e, e', rfl, rfl, he⟩
  . have hother := not_exists.1 hother
    exact .inr ⟨hother, h.not_element hother⟩

variable {e' : Element}

theorem Element.PaddedBy.content_padded (h : e.PaddedBy blank e')
    (hkind : ¬ (e.kind = .object ∨ e.kind = .option)) : Value.Padded blank e.content e'.content := by
  rcases h.content with h | ⟨h, -⟩
  . exact h
  . exact absurd h hkind

theorem Element.PaddedBy.entries (h : e.PaddedBy blank e')
    : Interspersed blank (Value.Padded blank) (Registry.entriesOf e.content)
        (Registry.entriesOf e'.content) := by
  rcases h.content with h | ⟨-, xs, ys, hxs, hys, items⟩
  . exact .of_forall₂ h.entriesOf
  . rw [hxs, hys]
    exact items

theorem Element.PaddedBy.value (h : e.PaddedBy blank e') (hkind : e.kind = .member)
    : Relates (Value.Padded blank) e.value e'.value := by
  constructor
  intro v v' hv hv'
  have hcontent := h.content_padded (by simp [hkind])
  unfold Element.value at hv hv'
  generalize e.content = c, e'.content = c' at hcontent hv hv'
  cases hcontent with
  | refl =>
    rw [hv, Except.ok.injEq] at hv'
    rw [← hv']
    exact .refl v
  | member h =>
    injection hv with hv
    injection hv' with hv'
    rw [← hv, ← hv']
    exact h
  | _ => contradiction

theorem Element.PaddedBy.key_eq (h : e.PaddedBy blank e') (hkind : e.kind = .member)
    : e.key = e'.key := by
  have hcontent := h.content_padded (by simp [hkind])
  unfold Element.key
  generalize e.content = c, e'.content = c' at hcontent
  cases hcontent with
  | member h =>
    rename_i key _ _
    cases key with
    | _ => rfl
  | _ => rfl

end Elements

namespace Registry

variable {r r' : Registry} {depth : Nat} {name : Value}

theorem Padded.get? (h : r.Padded r') (name : Value)
    : r.types.get? name = none ∧ r'.types.get? name = none
      ∨ ∃ d d', r.types.get? name = some d ∧ r'.types.get? name = some d' ∧ d.PaddedBy r.Blank d' := by
  unfold Registry.Padded Table.Alike at h
  generalize r.Blank = blank, r.types = t, r'.types = u at h
  induction h with
  | nil => exact .inl ⟨rfl, rfl⟩
  | @cons x y _ _ hxy _ ih =>
    rw [Table.get?_cons, Table.get?_cons, ← hxy.1]
    split
    . obtain ⟨d', heq, hpadded⟩ := hxy.2.of_element
      injection heq with heq
      exact .inr ⟨x.2, y.2, rfl, rfl, heq ▸ hpadded⟩
    . exact ih

inductive StepPadded (blank : Value → Prop) : Step → Step → Prop where
  | entry {v v' : Value} (padded : Value.Padded blank v v') : StepPadded blank (.entry v) (.entry v')
  | unresolved (href : Value) : StepPadded blank (.unresolved href) (.unresolved href)
  | fault (fault : Fault) : StepPadded blank (.fault fault) (.fault fault)

/--
The second run meets the same entries as the first one. What else it meets are includes that cannot
be resolved or followed.
-/
def StepsPadded (blank : Value → Prop) (steps steps' : List Step) : Prop :=
  Interspersed (fun step => ∀ v, step ≠ .entry v) (StepPadded blank) steps steps'

section Scan

variable {blank : Value → Prop} {included included' : Value → List Step} {v v' : Value}

theorem stepsPadded_scanEntry
    (hincluded : ∀ href, StepsPadded blank (included href) (included' href))
    (h : Value.Padded blank v v')
    : StepsPadded blank (scanEntry included v) (scanEntry included' v') := by
  rcases h.element_or_other with ⟨e, e', rfl, rfl, he⟩ | ⟨hv, hv'⟩
  . obtain ⟨kind, info, attributes, content⟩ := e
    obtain ⟨kind', info', attributes', content'⟩ := e'
    have hkind : kind = kind' := he.kind_eq
    subst hkind
    cases kind with
    | ref =>
      have hcontent := he.content_padded (by simp [Element.kind])
      rw [Element.content, Element.content] at hcontent
      unfold scanEntry
      cases hcontent with
      | refl =>
        dsimp only
        split
        . split
          . exact hincluded _
          . exact .cons (.fault _) .nil
        . exact .cons (.fault _) .nil
      | _ => exact .cons (.fault _) .nil
    | _ => exact .cons (.entry h) .nil
  . have hscan : ∀ (included : Value → List Step) (w : Value), (∀ e, w ≠ .element e) →
        scanEntry included w = [.entry w] := by
      intro included w hw
      cases w with
      | element e => exact absurd rfl (hw e)
      | _ => rfl
    rw [hscan included v hv, hscan included' v' hv']
    exact .cons (.entry h) .nil

theorem included_of_get? (hget : r.types.get? name = none) (depth : Nat)
    : r.included depth name = [.fault .endless] ∨ r.included depth name = [.unresolved name] := by
  cases depth with
  | zero => exact .inl rfl
  | succ depth =>
    rw [Registry.included, hget]
    exact .inr rfl

theorem Padded.scan_blank (h : r.Padded r') (depth : Nat) (hv : r.Blank v)
    : StepsPadded blank [] (scanEntry (r'.included depth) v) := by
  obtain ⟨info, attributes, href, rfl, hhashable, hget⟩ := hv
  have hget' : r'.types.get? href = none := by
    rcases h.get? href with ⟨-, hget'⟩ | ⟨d, d', hd, -⟩
    . exact hget'
    . rw [hget] at hd
      contradiction
  unfold scanEntry
  dsimp only
  rw [if_pos hhashable]
  rcases included_of_get? hget' depth with heq | heq
  . rw [heq]
    exact .blank (by simp) .nil
  . rw [heq]
    exact .blank (by simp) .nil

theorem Padded.included_steps (h : r.Padded r') (depth : Nat) (name : Value)
    : StepsPadded r.Blank (r.included depth name) (r'.included depth name) := by
  induction depth generalizing name with
  | zero => exact .cons (.fault _) .nil
  | succ depth ih =>
    rw [Registry.included, Registry.included]
    rcases h.get? name with ⟨hget, hget'⟩ | ⟨d, d', hget, hget', hpadded⟩
    . rw [hget, hget']
      exact .cons (.unresolved name) .nil
    . rw [hget, hget']
      apply hpadded.entries.flatMap
      . exact fun v v' hv => stepsPadded_scanEntry ih hv
      . exact fun v hv => h.scan_blank depth hv

theorem Padded.scan_steps (h : r.Padded r') {content content' : Value}
    (hcontent : Interspersed r.Blank (Value.Padded r.Blank) (entriesOf content) (entriesOf content'))
    : StepsPadded r.Blank (r.scan content) (r'.scan content') := by
  have hlength : r.types.length = r'.types.length := List.Forall₂.length_eq h
  unfold Registry.scan
  rw [hlength]
  apply hcontent.flatMap
  . exact fun v v' hv => stepsPadded_scanEntry (h.included_steps _) hv
  . exact fun v hv => h.scan_blank _ hv

end Scan

section Additions

variable {α β : Type} {blank : Value → Prop} {T : α → β → Prop}
variable {added : Value → Logged α} {added' : Value → Logged β} {steps steps' : List Step}

/--
If the entries that both runs meet make for related things, so do all steps.
-/
theorem StepsPadded.additions (h : StepsPadded blank steps steps')
    (hadded : ∀ v v', Value.Padded blank v v' → Relates T (added v).result (added' v').result)
    : Relates (List.Forall₂ T) (additions added steps).result (additions added' steps').result := by
  unfold StepsPadded at h
  constructor
  intro as bs has hbs
  induction h generalizing as bs with
  | nil =>
    injection has with has
    injection hbs with hbs
    rw [← has, ← hbs]
    exact .nil
  | @blank step _ _ skipped _ ih =>
    cases step with
    | entry v => exact absurd rfl (skipped v)
    | unresolved href =>
      rw [additions_unresolved] at hbs
      exact ih as bs has hbs
    | fault fault => contradiction
  | cons related _ ih =>
    cases related with
    | entry padded =>
      rw [additions_entry_eq_ok] at has hbs
      obtain ⟨a, as, ha, has, rfl⟩ := has
      obtain ⟨b, bs, hb, hbs, rfl⟩ := hbs
      exact .cons ((hadded _ _ padded).of_ok a b ha hb) (ih as bs has hbs)
    | unresolved href =>
      rw [additions_unresolved] at has hbs
      exact ih as bs has hbs
    | fault fault => contradiction

end Additions

end Registry

end ApiElements
