/-
# Computations that fail and still leave a state

A `Trial` reads and changes a state, and answers with a value or an error; what it changed before an
error stays changed.  This is a method with a receiver that returns early, where `Except` over a
state would forget the state.

`bind_ok` reads a successful sequence apart, and is all that a proof about a success needs.

It is used where the source has such methods, an RNG that has drawn before a loop fails and a table
that is half filled, and where a claim is about the state after a success only.  The state after an
error is part of the model all the same: a caller that goes on after an error goes on from there.
-/
import PveCpi.Lib.Check

namespace Lib

/-- A computation over a state that survives an error. -/
def Trial (σ ε α : Type) : Type := σ → Except ε α × σ

namespace Trial

variable {σ ε α β : Type}

instance : Monad (Trial σ ε) where
  pure a := fun s => (.ok a, s)
  bind x f := fun s =>
    match x s with
    | (.error e, s') => (.error e, s')
    | (.ok a, s') => f a s'

/-- Change the state. -/
def modify (f : σ → σ) : Trial σ ε Unit := fun s => (.ok (), f s)

/-- A computation that does not touch the state. -/
def lift (x : Except ε α) : Trial σ ε α := fun s => (x, s)

/-- A computation that depends on the state. -/
def reading (f : σ → Trial σ ε α) : Trial σ ε α := fun s => f s s

@[simp] theorem pure_ok {a b : α} {s s' : σ} :
    (pure a : Trial σ ε α) s = (.ok b, s') ↔ a = b ∧ s = s' := by
  simp [pure]

@[simp] theorem lift_ok {x : Except ε α} {a : α} {s s' : σ} :
    (lift x : Trial σ ε α) s = (.ok a, s') ↔ x = .ok a ∧ s = s' := by
  simp [lift]

@[simp] theorem modify_ok {f : σ → σ} {u : Unit} {s s' : σ} :
    (modify f : Trial σ ε Unit) s = (.ok u, s') ↔ f s = s' := by
  simp [modify]

/-- A sequence succeeds when both parts do, the second from where the first stopped. -/
theorem bind_ok {x : Trial σ ε α} {f : α → Trial σ ε β} {b : β} {s s' : σ} :
    (x >>= f) s = (.ok b, s') ↔ ∃ a t, x s = (.ok a, t) ∧ f a t = (.ok b, s') := by
  simp only [bind]
  rcases x s with ⟨e | a, t⟩
  · simp
  · simp

end Trial

end Lib
