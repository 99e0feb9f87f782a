import ApiElements.Log
import Mathlib.Data.List.Forall2

/-!
This module contains how the outcome of a composed operation is made up of the outcomes of its
parts: what it takes for one to succeed, and what a log has to do with it.
-/

namespace ApiElements

variable {α β : Type}

namespace Outcome

section Bind

variable {ε : Type} {x : Except ε α}

@[simp]
theorem ok_bind (a : α) (f : α → Except ε β) : (Except.ok a >>= f) = f a := by
  rfl

@[simp]
theorem error_bind (error : ε) (f : α → Except ε β)
    : (Except.error error >>= f) = .error error := by
  rfl

theorem ite_bind {c : Prop} [Decidable c] {y : Except ε α} (f : α → Except ε β)
    : ((if c then x else y) >>= f) = if c then x >>= f else y >>= f := by
  split
  . rfl
  . rfl

theorem bind_eq_ok {f : α → Except ε β} {b : β}
    : (x >>= f) = .ok b ↔ ∃ a, x = .ok a ∧ f a = .ok b := by
  cases x with
  | ok a => simp
  | error error => simp

end Bind

@[simp]
theorem map_ok (f : α → β) (a : α) : f <$> (Except.ok a : Except Fault α) = .ok (f a) := by
  rfl

theorem map_eq_ok {x : Except Fault α} {f : α → β} {b : β}
    : f <$> x = .ok b ↔ ∃ a, x = .ok a ∧ f a = b := by
  cases x with
  | ok a => simp
  | error fault => simp [Functor.map, Except.map]

theorem mapM_nil (f : α → Except Fault β) : List.mapM f [] = .ok [] := by
  rfl

theorem mapM_cons_eq_ok {f : α → Except Fault β} {a : α} {as : List α} {bs : List β}
    : (a :: as).mapM f = .ok bs
        ↔
      ∃ b rest, f a = .ok b ∧ as.mapM f = .ok rest ∧ bs = b :: rest := by
  rw [List.mapM_cons]
  simp only [bind_eq_ok, pure, Except.pure, Except.ok.injEq]
  constructor
  . rintro ⟨b, hb, rest, hrest, h⟩
    exact ⟨b, rest, hb, hrest, h.symm⟩
  . rintro ⟨b, rest, hb, hrest, h⟩
    exact ⟨b, hb, rest, hrest, h.symm⟩

theorem mapM_eq_ok {f : α → Except Fault β} {as : List α} {bs : List β}
    : as.mapM f = .ok bs ↔ List.Forall₂ (fun a b => f a = .ok b) as bs := by
  induction as generalizing bs with
  | nil =>
    rw [mapM_nil, List.forall₂_nil_left_iff]
    simp [eq_comm]
  | cons a as ih =>
    rw [mapM_cons_eq_ok, List.forall₂_cons_left_iff]
    simp only [ih]

theorem exists_of_mem_mapM {f : α → Except Fault β} {as : List α} {bs : List β} {b : β}
    (h : as.mapM f = .ok bs) (hb : b ∈ bs) : ∃ a ∈ as, f a = .ok b := by
  induction as generalizing bs with
  | nil =>
    rw [mapM_nil] at h
    injection h with h
    subst h
    simp at hb
  | cons a as ih =>
    rw [mapM_cons_eq_ok] at h
    obtain ⟨b', rest, hfirst, hrest, rfl⟩ := h
    rcases List.mem_cons.1 hb with rfl | hb
    . exact ⟨a, by simp, hfirst⟩
    . obtain ⟨a', hmem, ha'⟩ := ih hrest hb
      exact ⟨a', List.mem_cons_of_mem _ hmem, ha'⟩

theorem exists_mem_of_mapM {f : α → Except Fault β} {as : List α} {bs : List β} {a : α}
    (h : as.mapM f = .ok bs) (ha : a ∈ as) : ∃ b ∈ bs, f a = .ok b := by
  induction as generalizing bs with
  | nil => contradiction
  | cons a' as ih =>
    obtain ⟨b, rest, hfirst, hrest, rfl⟩ := mapM_cons_eq_ok.1 h
    rcases List.mem_cons.1 ha with rfl | ha
    . exact ⟨b, by simp, hfirst⟩
    . obtain ⟨b', hmem, hb'⟩ := ih hrest ha
      exact ⟨b', List.mem_cons_of_mem _ hmem, hb'⟩

theorem foldlM_preserves {σ : Type} {P : σ → Prop} {f : σ → α → Except Fault σ} {as : List α}
    {s s' : σ} (hstep : ∀ a s s', P s → f s a = .ok s' → P s') (hs : P s)
    (h : as.foldlM f s = .ok s') : P s' := by
  induction as generalizing s with
  | nil =>
    injection h with h
    exact h ▸ hs
  | cons a as ih =>
    rw [List.foldlM_cons, bind_eq_ok] at h
    obtain ⟨between, hfirst, hrest⟩ := h
    exact ih (hstep a s between hs hfirst) hrest

section FailsAs

variable {foreseen : Fault → Bool} {x : Except Fault α}

/--
A failure, if there is one, is among those that are foreseen.
-/
def FailsAs (foreseen : Fault → Bool) (x : Except Fault α) : Prop :=
  ∀ fault, x = .error fault → foreseen fault = true

theorem failsAs_ok (a : α) : FailsAs foreseen (.ok a) := by
  intro fault h
  contradiction

theorem failsAs_error {fault : Fault} (h : foreseen fault = true)
    : FailsAs foreseen (.error fault : Except Fault α) := by
  intro fault' heq
  injection heq with heq
  exact heq ▸ h

theorem FailsAs.bind {f : α → Except Fault β} (hx : FailsAs foreseen x)
    (hf : ∀ a, x = .ok a → FailsAs foreseen (f a)) : FailsAs foreseen (x >>= f) := by
  cases x with
  | ok a => exact hf a rfl
  | error fault => exact failsAs_error (hx fault rfl)

theorem FailsAs.map (f : α → β) (hx : FailsAs foreseen x) : FailsAs foreseen (f <$> x) := by
  cases x with
  | ok a => exact failsAs_ok _
  | error fault => exact failsAs_error (hx fault rfl)

theorem failsAs_mapM {f : α → Except Fault β} {as : List α}
    (h : ∀ a ∈ as, FailsAs foreseen (f a)) : FailsAs foreseen (as.mapM f) := by
  induction as with
  | nil => exact failsAs_ok _
  | cons a as ih =>
    rw [List.mapM_cons]
    apply (h a (by simp)).bind
    intro b _
    apply (ih fun a hmem => h a (List.mem_cons_of_mem _ hmem)).bind
    intro bs _
    exact failsAs_ok _

end FailsAs

section Relates

variable {γ δ : Type} {R : α → β → Prop} {S : γ → δ → Prop} {x : Except Fault α} {y : Except Fault β}

structure Relates (R : α → β → Prop) (x : Except Fault α) (y : Except Fault β) : Prop where
  of_ok : ∀ a b, x = .ok a → y = .ok b → R a b

theorem relates_ok {a : α} {b : β} (h : R a b) : Relates R (.ok a) (.ok b) where
  of_ok := by
    rintro _ _ ⟨⟩ ⟨⟩
    exact h

theorem relates_self (x : Except Fault α) : Relates Eq x x where
  of_ok := by
    intro a b ha hb
    rw [ha, Except.ok.injEq] at hb
    exact hb

theorem Relates.bind {f : α → Except Fault γ} {g : β → Except Fault δ} (h : Relates R x y)
    (hfg : ∀ a b, R a b → Relates S (f a) (g b)) : Relates S (x >>= f) (y >>= g) where
  of_ok := by
    intro c d hc hd
    obtain ⟨a, ha, hc⟩ := bind_eq_ok.1 hc
    obtain ⟨b, hb, hd⟩ := bind_eq_ok.1 hd
    exact (hfg a b (h.of_ok a b ha hb)).of_ok c d hc hd

theorem Relates.map {f : α → γ} {g : β → δ} (h : Relates R x y) (hfg : ∀ a b, R a b → S (f a) (g b))
    : Relates S (f <$> x) (g <$> y) where
  of_ok := by
    intro c d hc hd
    obtain ⟨a, ha, rfl⟩ := map_eq_ok.1 hc
    obtain ⟨b, hb, rfl⟩ := map_eq_ok.1 hd
    exact hfg a b (h.of_ok a b ha hb)

theorem relates_mapM {Q : α → β → Prop} {f : α → Except Fault γ} {g : β → Except Fault δ} {as : List α}
    {bs : List β} (h : List.Forall₂ Q as bs) (hfg : ∀ a b, Q a b → Relates S (f a) (g b))
    : Relates (List.Forall₂ S) (as.mapM f) (bs.mapM g) where
  of_ok := by
    intro cs ds hcs hds
    rw [mapM_eq_ok] at hcs hds
    induction h generalizing cs ds with
    | nil =>
      cases hcs
      cases hds
      exact .nil
    | cons hab _ ih =>
      cases hcs with
      | cons hc hcs =>
        cases hds with
        | cons hd hds => exact .cons ((hfg _ _ hab).of_ok _ _ hc hd) (ih _ _ hcs hds)

end Relates

end Outcome

namespace Logged

@[simp]
theorem result_bind (x : Logged α) (f : α → Logged β)
    : (x >>= f).result = x.result >>= fun a => (f a).result := by
  cases h : x.result with
  | ok a => rw [bind_of_ok f h, Outcome.ok_bind]
  | error fault => rw [bind_of_error f h, Outcome.error_bind]

@[simp]
theorem result_map (x : Logged α) (f : α → β) : (f <$> x).result = f <$> x.result := by
  rw [map_eq_pure_bind, result_bind]
  cases x.result with
  | ok a => rfl
  | error fault => rfl

@[simp]
theorem result_fail (fault : Fault) : (fail fault : Logged α).result = .error fault := by
  rfl

@[simp]
theorem result_liftM (x : Except Fault α) : (liftM x : Logged α).result = x := by
  rfl

theorem liftM_ok (a : α) : (liftM (Except.ok a : Except Fault α) : Logged α) = pure a := by
  rfl

theorem liftM_bind (x : Except Fault α) (f : α → Except Fault β)
    : (liftM (x >>= f) : Logged β) = liftM x >>= fun a => liftM (f a) := by
  cases x with
  | ok a => rw [liftM_ok, pure_bind, Outcome.ok_bind]
  | error fault => rfl

theorem liftM_map (x : Except Fault α) (f : α → β)
    : (liftM (f <$> x) : Logged β) = f <$> liftM x := by
  cases x with
  | ok a => rfl
  | error fault => rfl

@[simp]
theorem result_record (level : Log.Level) (source : Log.Source) (message : String)
    : (record level source message).result = .ok () := by
  rfl

theorem result_mapM (f : α → Logged β) (as : List α)
    : (as.mapM f).result = as.mapM fun a => (f a).result := by
  induction as with
  | nil => rfl
  | cons a as ih =>
    rw [List.mapM_cons, List.mapM_cons]
    simp only [result_bind, ih]
    rfl

end Logged

end ApiElements
