import ApiElements.Proofs.Compile.Settles

/-!
This module contains that depth does not matter as long as it suffices: an answer that a compiler
gives at some depth is the one that it gives at every greater depth.
-/

namespace ApiElements

open Outcome (Shallow)

namespace Logged

variable {α β : Type} {x y z : Logged α}

/--
The second operation gives the answer of the first one, unless that one is nested too deeply.
-/
def Approximates (x y : Logged α) : Prop :=
  Shallow x.result → y = x

theorem approximates_self (x : Logged α) : x.Approximates x := by
  exact fun _ => rfl

theorem approximates_tooDeep : (fail .tooDeep : Logged α).Approximates y := by
  exact fun h => absurd (h _ rfl) (by decide)

theorem Approximates.trans (h : x.Approximates y) (h' : y.Approximates z) : x.Approximates z := by
  intro hx
  have hy := h hx
  rw [h' (hy ▸ hx), hy]

theorem Approximates.bind {f g : α → Logged β} (h : x.Approximates y)
    (hfg : ∀ a, (f a).Approximates (g a)) : (x >>= f).Approximates (y >>= g) := by
  intro hshallow
  cases hx : x.result with
  | ok a =>
    rw [result_bind, hx, Outcome.ok_bind] at hshallow
    have hy := h (hx ▸ Outcome.shallow_ok a)
    rw [hy, bind_of_ok f hx, bind_of_ok g hx, hfg a hshallow]
  | error fault =>
    rw [result_bind, hx] at hshallow
    have hy := h (hx ▸ Outcome.shallow_error (hshallow fault rfl))
    rw [hy, bind_of_error f hx, bind_of_error g hx]

theorem Approximates.map (f : α → β) (h : x.Approximates y)
    : (f <$> x).Approximates (f <$> y) := by
  simp only [map_eq_pure_bind]
  exact h.bind fun a => approximates_self _

theorem approximates_mapM {f g : α → Logged β} (h : ∀ a, (f a).Approximates (g a)) (as : List α)
    : (as.mapM f).Approximates (as.mapM g) := by
  induction as with
  | nil => exact approximates_self _
  | cons a as ih =>
    rw [List.mapM_cons, List.mapM_cons]
    exact (h a).bind fun b => ih.bind fun bs => approximates_self _

theorem approximates_foldlM {f g : β → α → Logged β}
    (h : ∀ state a, (f state a).Approximates (g state a)) (as : List α) (state : β)
    : (as.foldlM f state).Approximates (as.foldlM g state) := by
  induction as generalizing state with
  | nil => exact approximates_self _
  | cons a as ih =>
    rw [List.foldlM_cons, List.foldlM_cons]
    exact (h state a).bind ih

end Logged

namespace Registry

open Logged

variable {r : Registry} {depth n m : Nat} {v content : Value}

theorem approximates_walk {σ : Type} {visit visit' : σ → Value → Logged σ}
    (h : ∀ state v, (visit state v).Approximates (visit' state v)) (steps : List Step) (state : σ)
    : (walk visit state steps).Approximates (walk visit' state steps) := by
  induction steps generalizing state with
  | nil => exact approximates_self _
  | cons step rest ih =>
    cases step with
    | entry v => exact (h state v).bind ih
    | unresolved href => exact (approximates_self _).bind fun _ => ih state
    | fault fault => exact approximates_self _

theorem approximates_exampleVisit
    (hvalue : ∀ v, (r.exampleWithin n v).Approximates (r.exampleWithin m v))
    (hobject : ∀ content,
      (r.exampleObjectWithin n content).Approximates (r.exampleObjectWithin m content))
    (entries : Table Value) (v : Value)
    : (r.exampleVisit n entries v).Approximates (r.exampleVisit m entries v) := by
  unfold exampleVisit
  split
  . split
    . split
      . apply (approximates_self _).bind
        intro variant
        apply (approximates_self _).bind
        intro chosen
        exact (hobject chosen).map _
      . exact approximates_self _
    . apply (approximates_self _).bind
      intro value
      split
      . exact approximates_self _
      . exact (hvalue value).bind fun sample => approximates_self _
    . exact approximates_self _
  . exact approximates_self _

theorem approximates_example_succ (r : Registry) (depth : Nat)
    : (∀ v, (r.exampleWithin depth v).Approximates (r.exampleWithin (depth + 1) v))
        ∧ ∀ content, (r.exampleObjectWithin depth content).Approximates
            (r.exampleObjectWithin (depth + 1) content) := by
  induction depth with
  -- Without any depth left there is a failure, and any outcome may take its place.
  | zero => exact ⟨fun _ => approximates_tooDeep, fun _ => approximates_tooDeep⟩
  | succ depth ih =>
    obtain ⟨hvalue, hobject⟩ := ih
    constructor
    . intro v
      cases v with
      | element e =>
        rw [exampleWithin, exampleWithin]
        cases e.kind with
        | enum =>
          dsimp only
          split
          . exact (approximates_self _).bind hvalue
          . exact approximates_self _
        | array =>
          apply (approximates_self _).bind
          intro items
          exact (approximates_mapM hvalue items).map _
        | object => exact (hobject e.content).map _
        | named name =>
          apply (approximates_self _).bind
          intro found
          cases found with
          | some merged => exact hvalue _
          | none => exact approximates_self _
        | _ => exact approximates_self _
      | _ => exact approximates_self _
    . intro content
      rw [exampleObjectWithin_succ, exampleObjectWithin_succ]
      exact approximates_walk (approximates_exampleVisit hvalue hobject) _ _

theorem approximates_schemaVisit
    (hvalue : ∀ v, (r.schemaWithin n v).Approximates (r.schemaWithin m v))
    (g : Schema.Gathered) (v : Value)
    : (r.schemaVisit n g v).Approximates (r.schemaVisit m g v) := by
  unfold schemaVisit
  split
  . split
    . apply (approximates_self _).bind
      intro options
      apply (approximates_foldlM (fun state option => (hvalue option).map _) options (g, [])).bind
      exact fun state => approximates_self _
    . apply (approximates_self _).bind
      intro key
      apply (approximates_self _).bind
      intro value
      split
      . exact approximates_self _
      . exact (hvalue value).bind fun s => approximates_self _
    . exact approximates_self _
  . exact approximates_self _

theorem approximates_schema_succ (r : Registry) (depth : Nat)
    : (∀ v, (r.schemaWithin depth v).Approximates (r.schemaWithin (depth + 1) v))
        ∧ ∀ content, (r.schemaOfObjectWithin depth content).Approximates
            (r.schemaOfObjectWithin (depth + 1) content) := by
  induction depth with
  | zero => exact ⟨fun _ => approximates_tooDeep, fun _ => approximates_tooDeep⟩
  | succ depth ih =>
    obtain ⟨hvalue, hobject⟩ := ih
    constructor
    . intro v
      cases v with
      | element e =>
        rw [schemaWithin_element, schemaWithin_element]
        apply Approximates.bind ?_ fun s => approximates_self _
        unfold schemaOfKind
        cases e.kind with
        | array =>
          apply (approximates_self _).bind
          intro items
          exact (approximates_mapM hvalue items).map _
        | object => exact hobject e.content
        | option => exact hobject e.content
        | named name =>
          apply (approximates_self _).bind
          intro found
          cases found with
          | some merged => exact hvalue _
          | none => exact approximates_self _
        | _ => exact approximates_self _
      | _ => exact approximates_self _
    . intro content
      rw [schemaOfObjectWithin_succ, schemaOfObjectWithin_succ]
      apply Approximates.bind ?_ fun g => approximates_self _
      exact approximates_walk (approximates_schemaVisit hvalue) _ _

theorem approximates_of_succ {α : Type} {f : Nat → Logged α}
    (h : ∀ n, (f n).Approximates (f (n + 1))) (hle : n ≤ m) : (f n).Approximates (f m) := by
  induction hle with
  | refl => exact approximates_self _
  | step _ ih => exact ih.trans (h _)

/--
An answer that is not about nesting stays the same at every greater depth.
-/
theorem exampleWithin_eq_of_le (hle : n ≤ m) (h : Shallow (r.exampleWithin n v).result)
    : r.exampleWithin m v = r.exampleWithin n v := by
  exact approximates_of_succ (fun n => (approximates_example_succ r n).1 v) hle h

theorem exampleObjectWithin_eq_of_le (hle : n ≤ m)
    (h : Shallow (r.exampleObjectWithin n content).result)
    : r.exampleObjectWithin m content = r.exampleObjectWithin n content := by
  exact approximates_of_succ (fun n => (approximates_example_succ r n).2 content) hle h

theorem schemaWithin_eq_of_le (hle : n ≤ m) (h : Shallow (r.schemaWithin n v).result)
    : r.schemaWithin m v = r.schemaWithin n v := by
  exact approximates_of_succ (fun n => (approximates_schema_succ r n).1 v) hle h

theorem schemaOfObjectWithin_eq_of_le (hle : n ≤ m)
    (h : Shallow (r.schemaOfObjectWithin n content).result)
    : r.schemaOfObjectWithin m content = r.schemaOfObjectWithin n content := by
  exact approximates_of_succ (fun n => (approximates_schema_succ r n).2 content) hle h

theorem eq_of_exampleObjectWithin {t u : Table Value}
    (ht : (r.exampleObjectWithin n content).result = .ok t)
    (hu : (r.exampleObjectWithin m content).result = .ok u) : t = u := by
  have hn := exampleObjectWithin_eq_of_le (Nat.le_max_left n m) (ht ▸ Outcome.shallow_ok t)
  have hm := exampleObjectWithin_eq_of_le (Nat.le_max_right n m) (hu ▸ Outcome.shallow_ok u)
  rw [← hn, hm, hu, Except.ok.injEq] at ht
  exact ht.symm

theorem eq_of_schemaWithin {s s' : Schema} (hs : (r.schemaWithin n v).result = .ok s)
    (hs' : (r.schemaWithin m v).result = .ok s') : s = s' := by
  have hn := schemaWithin_eq_of_le (Nat.le_max_left n m) (hs ▸ Outcome.shallow_ok s)
  have hm := schemaWithin_eq_of_le (Nat.le_max_right n m) (hs' ▸ Outcome.shallow_ok s')
  rw [← hn, hm, hs', Except.ok.injEq] at hs
  exact hs.symm

theorem eq_of_schemaOfObjectWithin {s s' : Schema}
    (hs : (r.schemaOfObjectWithin n content).result = .ok s)
    (hs' : (r.schemaOfObjectWithin m content).result = .ok s') : s = s' := by
  have hn := schemaOfObjectWithin_eq_of_le (Nat.le_max_left n m) (hs ▸ Outcome.shallow_ok s)
  have hm := schemaOfObjectWithin_eq_of_le (Nat.le_max_right n m) (hs' ▸ Outcome.shallow_ok s')
  rw [← hn, hm, hs', Except.ok.injEq] at hs
  exact hs.symm

end Registry

end ApiElements
