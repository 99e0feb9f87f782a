import ApiElements.Fault

/-!
This module contains the log of an operation, and operations that keep one: also when an operation
fails, what it had logged until then stays.
-/

namespace ApiElements

namespace Log

inductive Level where
  | debug
  | info
  | warning
deriving DecidableEq

inductive Source where
  | registry
  | payloads
deriving DecidableEq

structure Record where
  level : Level
  source : Source
  message : String
deriving DecidableEq

end Log

/--
The outcome of an operation together with its log records, the earliest first.
-/
@[ext]
structure Logged (α : Type) where
  log : List Log.Record
  result : Except Fault α

namespace Logged

variable {α β : Type}

instance : Monad Logged where
  pure x := ⟨[], .ok x⟩
  bind x f :=
    match x.result with
    | .ok a => ⟨x.log ++ (f a).log, (f a).result⟩
    | .error fault => ⟨x.log, .error fault⟩

def fail (fault : Fault) : Logged α := ⟨[], .error fault⟩

def ofExcept (result : Except Fault α) : Logged α := ⟨[], result⟩

instance : MonadLift (Except Fault) Logged := ⟨ofExcept⟩

def record (level : Log.Level) (source : Log.Source) (message : String) : Logged Unit :=
  ⟨[⟨level, source, message⟩], .ok ()⟩

/--
Runs an operation whose failure is part of the answer.
-/
def attempt (x : Logged α) : Logged (Except Fault α) :=
  ⟨x.log, .ok x.result⟩

@[simp]
theorem pure_log (a : α) : (pure a : Logged α).log = [] := rfl

@[simp]
theorem pure_result (a : α) : (pure a : Logged α).result = .ok a := rfl

theorem bind_of_ok {x : Logged α} {a : α} (f : α → Logged β) (h : x.result = .ok a) :
    x >>= f = ⟨x.log ++ (f a).log, (f a).result⟩ := by
  simp only [bind, h]

theorem bind_of_error {x : Logged α} {fault : Fault} (f : α → Logged β)
    (h : x.result = .error fault) : x >>= f = ⟨x.log, .error fault⟩ := by
  simp only [bind, h]

theorem id_map (x : Logged α) : id <$> x = x := by
  cases x with
  | mk log result => cases result <;> simp [Functor.map]

theorem pure_bind (a : α) (f : α → Logged β) : pure a >>= f = f a := by
  simp [bind, pure]

theorem bind_assoc {γ : Type} (x : Logged α) (f : α → Logged β) (g : β → Logged γ) :
    x >>= f >>= g = x >>= fun a => f a >>= g := by
  cases x with
  | mk log result =>
    cases result with
    | error fault => rfl
    | ok a =>
      simp only [bind]
      cases (f a).result <;> simp

instance : LawfulMonad Logged :=
  LawfulMonad.mk' Logged (fun x => id_map x) (fun a f => pure_bind a f)
    (fun x f g => bind_assoc x f g)

end Logged

end ApiElements
