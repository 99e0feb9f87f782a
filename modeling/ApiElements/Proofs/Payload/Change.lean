import ApiElements.Payload.Decorate
import ApiElements.Proofs.Table

/-!
This module contains changes that run side by side on related things: what is there after each step
is related again, and as long as neither is stopped their logs differ in the records of skipped
things only.
-/

namespace ApiElements

variable {α β : Type}

/--
A list, and what is left of it without some of the items that have a property.
-/
inductive Thinned (p : α → Prop) : List α → List α → Prop where
  | nil : Thinned p [] []
  | keep (x : α) {xs ys : List α} (h : Thinned p xs ys) : Thinned p (x :: xs) (x :: ys)
  | drop {x : α} {xs ys : List α} (hx : p x) (h : Thinned p xs ys) : Thinned p (x :: xs) ys

namespace Thinned

variable {p : α → Prop} {xs ys xs' ys' : List α}

theorem refl (xs : List α) : Thinned p xs xs := by
  induction xs with
  | nil => exact .nil
  | cons x xs ih => exact .keep x ih

theorem append (h : Thinned p xs ys) (h' : Thinned p xs' ys') : Thinned p (xs ++ xs') (ys ++ ys') := by
  induction h with
  | nil => exact h'
  | keep x _ ih => exact .keep x ih
  | drop hx _ ih => exact .drop hx ih

end Thinned

namespace Value

def Listwise (R : Value → Value → Prop) (v w : Value) : Prop :=
  ∃ xs ys, v = .list xs ∧ w = .list ys ∧ List.Forall₂ R xs ys

/--
Two values are the same, or they are objects that only differ in what is under the names.
-/
def Within (names : List String) (R : Value → Value → Prop) (v w : Value) : Prop :=
  v = w ∨ ∃ t u, v = .object t ∧ w = .object u ∧ Table.Alike (Table.SameBut names R) t u

variable {names : List String} {R : Value → Value → Prop} {v w : Value}

theorem Within.field_eq (h : v.Within names R w) {name : String} (hname : name ∉ names)
    : v.field name = w.field name := by
  rcases h with rfl | ⟨t, u, rfl, rfl, hentries⟩
  . rfl
  . rw [field, field, hentries.get?_eq hname]

theorem Within.put {t u : Table Value} (h : t.Alike (Table.SameBut names R) u) {name : String}
    {x y : Value} (hxy : Table.SameBut names R (.text name) x y)
    : Within names R (.object (t.put (.text name) x)) (.object (u.put (.text name) y)) :=
  .inr ⟨_, _, rfl, rfl, h.put Table.stable_sameBut hxy⟩

end Value

namespace Payload

variable {p : Log.Record → Prop}

/--
Two changes are stopped by the same fault or by none, and what they have led to is related.
-/
structure Change.Related (p : Log.Record → Prop) (R : α → β → Prop) (c : Change α) (d : Change β)
    : Prop where
  now : R c.now d.now
  log : Thinned p c.log d.log
  stopped : c.stopped = d.stopped

namespace Change

variable {R : α → α → Prop} {c d : Change α}

theorem related_self (h : ∀ a, R a a) (c : Change α) : c.Related p R c :=
  ⟨h c.now, .refl c.log, rfl⟩

theorem Related.map {S : β → β → Prop} {f : α → β} (hf : ∀ a b, R a b → S (f a) (f b))
    (h : c.Related p R d) : (c.map f).Related p S (d.map f) :=
  ⟨hf _ _ h.now, h.log, h.stopped⟩

theorem Related.andThen {f g : α → Change α} (h : c.Related p R d)
    (hf : ∀ a b, R a b → (f a).Related p R (g b))
    : (c.andThen f).Related p R (d.andThen g) := by
  unfold Change.andThen
  rw [← h.stopped]
  split
  . exact h
  . have hnext := hf _ _ h.now
    exact ⟨hnext.now, h.log.append hnext.log, hnext.stopped⟩

/--
A step that only one of the two changes takes leaves them related if all it does is to log that
something is skipped.
-/
theorem Related.andThen_skip {f : α → Change α} (h : c.Related p R d)
    (hf : ∃ record, p record ∧ f c.now = ⟨c.now, [record], none⟩)
    : (c.andThen f).Related p R d := by
  obtain ⟨record, hrecord, heq⟩ := hf
  unfold Change.andThen
  split
  . exact h
  . next hstopped =>
    rw [heq]
    refine ⟨h.now, ?_, hstopped ▸ h.stopped⟩
    have hlog := h.log.append (.drop hrecord .nil)
    rwa [List.append_nil] at hlog

theorem after_ok (now : α) (b : β) (f : β → Change α) : Change.after now (pure b) f = f b := by
  rfl

theorem related_after {now now' : α} {x : Logged β} {f g : β → Change α} (hnow : R now now')
    (hf : ∀ b, x.result = .ok b → (f b).Related p R (g b))
    : (Change.after now x f).Related p R (.after now' x g) := by
  unfold Change.after
  split
  . exact ⟨hnow, .refl _, rfl⟩
  . next b hb =>
    have hnext := hf b hb
    exact ⟨hnext.now, (Thinned.refl _).append hnext.log, hnext.stopped⟩

theorem related_each {f : α → Change α} {xs ys : List α} (h : List.Forall₂ R xs ys)
    (hf : ∀ a b, R a b → (f a).Related p R (f b))
    : (each f xs).Related p (List.Forall₂ R) (each f ys) := by
  induction h with
  | nil => exact ⟨.nil, .nil, rfl⟩
  | @cons x y _ _ hxy hrest ih =>
    -- Both stop at the first items or at none of them; what follows a stop is still as it was.
    have hfirst := hf x y hxy
    rw [each, each, ← hfirst.stopped]
    dsimp only
    split
    . exact ⟨.cons hfirst.now hrest, hfirst.log, rfl⟩
    . exact ⟨.cons hfirst.now ih.now, hfirst.log.append ih.log, ih.stopped⟩

end Change

open Value (Listwise Within)

variable {R : Value → Value → Prop} {change : Value → Change Value} {v w : Value}

theorem related_changeItems (h : Listwise R v w)
    (hchange : ∀ x y, R x y → (change x).Related p R (change y))
    : (changeItems change v).Related p (Listwise R) (changeItems change w) := by
  obtain ⟨xs, ys, rfl, rfl, hitems⟩ := h
  unfold changeItems
  -- An empty list is passed over, and only a list that is empty is related to it.
  cases hitems with
  | nil => exact ⟨⟨[], [], rfl, rfl, .nil⟩, .nil, rfl⟩
  | cons hxy hrest =>
    apply (Change.related_each (.cons hxy hrest) hchange).map
    exact fun xs ys hitems => ⟨xs, ys, rfl, rfl, hitems⟩

theorem related_changeField {names : List String} (name : String)
    (h : Within names (Listwise R) v w) (hchange : ∀ x y, R x y → (change x).Related p R (change y))
    : (changeField name change v).Related p (Within names (Listwise R)) (changeField name change w) := by
  rcases h with rfl | ⟨t, u, rfl, rfl, hentries⟩
  . exact Change.related_self (fun v => .inl rfl) _
  . unfold changeField
    dsimp only
    rcases hentries.get?_text name with ⟨hx, hy⟩ | ⟨x, y, hx, hy, hxy⟩
    . rw [hx, hy]
      exact ⟨.inr ⟨t, u, rfl, rfl, hentries⟩, .nil, rfl⟩
    . rw [hx, hy]
      rcases hxy with rfl | ⟨hmem, hlists⟩
      . exact ⟨.put hentries (.inl rfl), .refl _, rfl⟩
      . have hitems := related_changeItems hlists hchange
        exact ⟨.put hentries (.inr ⟨hmem, hitems.now⟩), hitems.log, hitems.stopped⟩

end Payload

end ApiElements
