import ApiElements.Proofs.Compile.Visit

/-!
This module contains operations with a budget that come to a final answer: from some budget on, the
answer stays the same, and it neither says that something is nested too deeply nor goes on for ever.
-/

namespace ApiElements

variable {α β : Type}

/--
Whether a fault is that something is nested too deeply, or that it never comes to an end.
-/
def Fault.isDeep (fault : Fault) : Bool :=
  fault.category = .recursion || fault.category = .divergence

namespace Outcome

/--
A failure, if there is one, is not that something is nested too deeply or never comes to an end.
-/
def Shallow (x : Except Fault α) : Prop :=
  ∀ fault, x = .error fault → fault.isDeep = false

theorem shallow_iff_failsAs {x : Except Fault α}
    : Shallow x ↔ FailsAs (fun fault => !fault.isDeep) x := by
  simp only [Shallow, FailsAs, Bool.not_eq_true']

theorem shallow_ok (a : α) : Shallow (.ok a) := by
  exact shallow_iff_failsAs.2 (failsAs_ok a)

theorem shallow_error {fault : Fault} (h : fault.isDeep = false)
    : Shallow (.error fault : Except Fault α) := by
  exact shallow_iff_failsAs.2 (failsAs_error (by rw [h]; rfl))

theorem Shallow.bind {x : Except Fault α} {f : α → Except Fault β} (hx : Shallow x)
    (hf : ∀ a, x = .ok a → Shallow (f a)) : Shallow (x >>= f) := by
  rw [shallow_iff_failsAs] at hx ⊢
  exact hx.bind fun a ha => shallow_iff_failsAs.1 (hf a ha)

theorem Shallow.map {x : Except Fault α} (f : α → β) (hx : Shallow x) : Shallow (f <$> x) := by
  rw [shallow_iff_failsAs] at hx ⊢
  exact hx.map f

theorem shallow_mapM {f : α → Except Fault β} {as : List α} (h : ∀ a ∈ as, Shallow (f a))
    : Shallow (as.mapM f) := by
  rw [shallow_iff_failsAs]
  exact failsAs_mapM fun a ha => shallow_iff_failsAs.1 (h a ha)

end Outcome

open Outcome (Shallow shallow_ok shallow_error shallow_mapM)

namespace Logged

/--
From some budget on, the answer is one and the same, and a failure in it is not for lack of budget.
-/
def Settles (f : Nat → Logged α) : Prop :=
  ∃ x : Logged α, Shallow x.result ∧ ∃ bound, ∀ n ≥ bound, f n = x

theorem settles_const {x : Logged α} (h : Shallow x.result) : Settles fun _ => x := by
  exact ⟨x, h, 0, fun _ _ => rfl⟩

theorem settles_pure (a : α) : Settles fun _ => (pure a : Logged α) := by
  exact settles_const (shallow_ok a)

theorem Settles.of_succ {f : Nat → Logged α} (h : Settles fun n => f (n + 1)) : Settles f := by
  obtain ⟨x, hx, bound, hbound⟩ := h
  refine ⟨x, hx, bound + 1, ?_⟩
  intro n hn
  obtain ⟨m, rfl⟩ : ∃ m, n = m + 1 := ⟨n - 1, by omega⟩
  exact hbound m (by omega)

theorem Settles.bind {f : Nat → Logged α} {g : Nat → α → Logged β} (hf : Settles f)
    (hg : ∀ a, Settles fun n => g n a) : Settles fun n => f n >>= g n := by
  obtain ⟨x, hx, bound, hbound⟩ := hf
  cases hresult : x.result with
  | ok a =>
    obtain ⟨y, hy, bound', hbound'⟩ := hg a
    refine ⟨⟨x.log ++ y.log, y.result⟩, hy, max bound bound', ?_⟩
    intro n hn
    dsimp only at hbound' ⊢
    rw [hbound n (by omega), bind_of_ok _ hresult, hbound' n (by omega)]
  | error fault =>
    refine ⟨⟨x.log, .error fault⟩, shallow_error (hx fault hresult), bound, ?_⟩
    intro n hn
    dsimp only
    rw [hbound n hn, bind_of_error _ hresult]

theorem Settles.map {f : Nat → Logged α} (g : α → β) (hf : Settles f)
    : Settles fun n => g <$> f n := by
  simp only [map_eq_pure_bind]
  exact hf.bind fun a => settles_pure (g a)

theorem settles_const_bind {x : Logged α} {g : Nat → α → Logged β} (hx : Shallow x.result)
    (hg : ∀ a, x.result = .ok a → Settles fun n => g n a) : Settles fun n => x >>= g n := by
  cases hresult : x.result with
  | ok a =>
    obtain ⟨y, hy, bound, hbound⟩ := hg a hresult
    refine ⟨⟨x.log ++ y.log, y.result⟩, hy, bound, ?_⟩
    intro n hn
    dsimp only at hbound ⊢
    rw [bind_of_ok _ hresult, hbound n hn]
  | error fault =>
    refine ⟨⟨x.log, .error fault⟩, shallow_error (hx fault hresult), 0, ?_⟩
    intro n _
    exact bind_of_error _ hresult

theorem settles_lift_bind {x : Except Fault α} {g : Nat → α → Logged β} (hx : Shallow x)
    (hg : ∀ a, x = .ok a → Settles fun n => g n a)
    : Settles fun n => (liftM x : Logged α) >>= g n := by
  exact settles_const_bind hx hg

theorem settles_mapM {f : Nat → α → Logged β} {as : List α} (h : ∀ a ∈ as, Settles fun n => f n a)
    : Settles fun n => as.mapM (f n) := by
  induction as with
  | nil => exact settles_pure []
  | cons a as ih =>
    simp only [List.mapM_cons]
    apply (h a (by simp)).bind
    intro b
    apply (ih fun a hmem => h a (List.mem_cons_of_mem _ hmem)).bind
    intro bs
    exact settles_pure (b :: bs)

theorem settles_foldlM {f : Nat → β → α → Logged β} {as : List α}
    (h : ∀ a ∈ as, ∀ state, Settles fun n => f n state a) (state : β)
    : Settles fun n => as.foldlM (f n) state := by
  induction as generalizing state with
  | nil => exact settles_pure state
  | cons a as ih =>
    simp only [List.foldlM_cons]
    apply (h a (by simp) state).bind
    exact ih fun a hmem => h a (List.mem_cons_of_mem _ hmem)

end Logged

namespace Registry

theorem settles_walk {σ : Type} {visit : Nat → σ → Value → Logged σ} {steps : List Step}
    (hentry : ∀ v, .entry v ∈ steps → ∀ state, Logged.Settles fun n => visit n state v)
    (hfault : ∀ fault, .fault fault ∈ steps → fault.isDeep = false) (state : σ)
    : Logged.Settles fun n => walk (visit n) state steps := by
  induction steps generalizing state with
  | nil => exact Logged.settles_pure state
  | cons step rest ih =>
    have hrest := ih (fun v hmem => hentry v (List.mem_cons_of_mem _ hmem))
      (fun fault hmem => hfault fault (List.mem_cons_of_mem _ hmem))
    cases step with
    | entry v =>
      simp only [walk]
      exact (hentry v (by simp) state).bind hrest
    | unresolved href =>
      simp only [walk]
      apply (Logged.settles_const (shallow_ok ())).bind
      intro _
      exact hrest state
    | fault fault =>
      simp only [walk]
      exact Logged.settles_const (shallow_error (hfault fault (by simp)))

end Registry

end ApiElements
