import ApiElements.Proofs.Outcome

/-!
This module contains pairs of operations that run in step: they log the same records, and fail for the
same cause or succeed with related results.
-/

namespace ApiElements

variable {α β γ δ : Type}

/--
Two operations fail for the same cause, or succeed with related results.
-/
inductive Outcome.Matches (R : α → β → Prop) : Except Fault α → Except Fault β → Prop where
  | ok {a : α} {b : β} (related : R a b) : Matches R (.ok a) (.ok b)
  | error (fault : Fault) : Matches R (.error fault) (.error fault)

/--
Two operations log the same, and fail for the same cause or succeed with related results.
-/
structure Logged.Matches (R : α → β → Prop) (x : Logged α) (y : Logged β) : Prop where
  log_eq : x.log = y.log
  result : Outcome.Matches R x.result y.result

namespace Outcome

variable {R : α → β → Prop} {S : γ → δ → Prop} {x : Except Fault α} {y : Except Fault β}

theorem matches_self {R : α → α → Prop} (h : ∀ a, R a a) (x : Except Fault α) : Matches R x x := by
  cases x with
  | ok a => exact .ok (h a)
  | error fault => exact .error fault

theorem matches_of_eq {x y : Except Fault α} (h : x = y) : Matches Eq x y := by
  rw [h]
  exact matches_self (fun _ => rfl) y

theorem Matches.mono {R' : α → β → Prop} (h : Matches R x y) (hR : ∀ a b, R a b → R' a b)
    : Matches R' x y := by
  cases h with
  | ok related => exact .ok (hR _ _ related)
  | error fault => exact .error fault

theorem Matches.bind {f : α → Except Fault γ} {g : β → Except Fault δ} (h : Matches R x y)
    (hfg : ∀ a b, R a b → Matches S (f a) (g b)) : Matches S (x >>= f) (y >>= g) := by
  cases h with
  | ok related => exact hfg _ _ related
  | error fault => exact .error fault

theorem Matches.map {f : α → γ} {g : β → δ} (h : Matches R x y) (hfg : ∀ a b, R a b → S (f a) (g b))
    : Matches S (f <$> x) (g <$> y) := by
  cases h with
  | ok related => exact .ok (hfg _ _ related)
  | error fault => exact .error fault

end Outcome

namespace Logged

variable {R : α → β → Prop} {S : γ → δ → Prop} {x : Logged α} {y : Logged β}

theorem matches_pure {a : α} {b : β} (h : R a b) : Matches R (pure a) (pure b) where
  log_eq := rfl
  result := .ok h

theorem matches_fail (fault : Fault) : Matches R (fail fault) (fail fault) where
  log_eq := rfl
  result := .error fault

theorem matches_self {R : α → α → Prop} (h : ∀ a, R a a) (x : Logged α) : Matches R x x where
  log_eq := rfl
  result := Outcome.matches_self h x.result

theorem matches_liftM {x : Except Fault α} {y : Except Fault β} (h : Outcome.Matches R x y)
    : Matches R (liftM x : Logged α) (liftM y : Logged β) where
  log_eq := rfl
  result := h

theorem Matches.mono {R' : α → β → Prop} (h : Matches R x y) (hR : ∀ a b, R a b → R' a b)
    : Matches R' x y where
  log_eq := h.log_eq
  result := h.result.mono hR

theorem Matches.bind {f : α → Logged γ} {g : β → Logged δ} (h : Matches R x y)
    (hfg : ∀ a b, R a b → Matches S (f a) (g b)) : Matches S (x >>= f) (y >>= g) := by
  obtain ⟨hlog, hresult⟩ := h
  generalize hx : x.result = x', hy : y.result = y' at hresult
  cases hresult with
  | ok related =>
    have hrest := hfg _ _ related
    rw [bind_of_ok f hx, bind_of_ok g hy, hlog, hrest.log_eq]
    exact ⟨rfl, hrest.result⟩
  | error fault =>
    rw [bind_of_error f hx, bind_of_error g hy, hlog]
    exact ⟨rfl, .error fault⟩

theorem Matches.map {f : α → γ} {g : β → δ} (h : Matches R x y) (hfg : ∀ a b, R a b → S (f a) (g b))
    : Matches S (f <$> x) (g <$> y) := by
  rw [map_eq_pure_bind, map_eq_pure_bind]
  exact h.bind fun a b hab => matches_pure (hfg a b hab)

theorem matches_mapM {Q : α → β → Prop} {f : α → Logged γ} {g : β → Logged δ} {as : List α}
    {bs : List β} (h : List.Forall₂ Q as bs) (hfg : ∀ a b, Q a b → Matches S (f a) (g b))
    : Matches (List.Forall₂ S) (as.mapM f) (bs.mapM g) := by
  induction h with
  | nil => exact matches_pure .nil
  | cons hab _ ih =>
    rw [List.mapM_cons, List.mapM_cons]
    apply (hfg _ _ hab).bind
    intro c d hcd
    exact ih.bind fun cs ds hcds => matches_pure (.cons hcd hcds)

end Logged

end ApiElements
