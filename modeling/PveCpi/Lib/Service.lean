/-
# A program against a service with a state

One client talks to one service.  `serves s e a t` says that in the state `s` the service may answer
the effect `e` with `a` and be in the state `t` afterwards; an effect whose answer was lost is one
that took place and was answered by an error.  The client may stop between any two of its calls, so
a run is any beginning of an execution.

`Holds serves Inv p Q s` reads a program from the state `s`: `Inv` holds of the service before and
after every call, and `p` ends with `Q`.  `Holds.runs` carries it over to the runs, and is the only
induction over them.

## Beside the other two readings

`Lib.Interleave` has many processes over one state, `Lib.Answers` one process and answers that mean
nothing.  Here one process alone changes the state and the service keeps to a contract, which may
still leave much open: lost answers, refusals, and whatever the contract does not say.  That is the
situation of a routine that holds an exclusive claim on what it edits.

`Inv` is asked around EVERY call, not only at the end, since the client may be stopped anywhere:
what a crash leaves behind is a state in which `Inv` holds.  `Holds.bounded` is for numbers that
only grow, such as the number of calls made: a bound at the end is then a bound at every point.
-/
import PveCpi.Lib.Interleave

namespace Lib.Service

open Lib.Interleave

variable {E : Type} {Ans : E → Type} {α β σ : Type}

/-! ## 1. Runs

A run stops where the client stops; what is left of the program is part of it, so that a routine
which was cut off can be told from one that has ended. -/

/-- What a service may do: the answer to an effect and the state it leaves. -/
abbrev Serve (E : Type) (Ans : E → Type) (σ : Type) := σ → (e : E) → Ans e → σ → Prop

/-- From the state `s` the program `p` has become `q`, and the service is in the state `t`. -/
inductive Runs (serves : Serve E Ans σ) : Prog E Ans α → σ → Prog E Ans α → σ → Prop
  | here (p : Prog E Ans α) (s : σ) : Runs serves p s p s
  | call {e : E} {k : Ans e → Prog E Ans α} {a : Ans e} {s t u : σ} {q : Prog E Ans α}
      (ha : serves s e a t) (h : Runs serves (k a) t q u) : Runs serves (.eff e k) s q u

theorem Runs.trans {serves : Serve E Ans σ} {p q r : Prog E Ans α} {s t u : σ}
    (h : Runs serves p s q t) (h' : Runs serves q t r u) : Runs serves p s r u := by
  induction h with
  | here p s => exact h'
  | call ha _ ih => exact .call ha (ih h')

theorem Runs.bind {serves : Serve E Ans σ} {p : Prog E Ans α} {f : α → Prog E Ans β}
    {q : Prog E Ans β} {x : α} {s t u : σ} (hp : Runs serves p s (.ret x) t)
    (hf : Runs serves (f x) t q u) : Runs serves (p >>= f) s q u := by
  induction p generalizing s with
  | ret a =>
    cases hp
    exact hf
  | eff e k ih =>
    cases hp with
    | call ha h => exact .call ha (ih _ h)

/-- `Inv` holds around every call of `p` from the state `s`, and `p` ends with `Q`. -/
def Holds (serves : Serve E Ans σ) (Inv : σ → Prop) :
    Prog E Ans α → (α → σ → Prop) → σ → Prop
  | .ret a, Q, s => Inv s ∧ Q a s
  | .eff e k, Q, s => Inv s ∧ ∀ a t, serves s e a t → Holds serves Inv (k a) Q t

variable {serves : Serve E Ans σ} {Inv : σ → Prop} {Q Q' : α → σ → Prop} {s t : σ}

/-- **Where a run is cut off, the invariant holds; where it ends, the postcondition too.**  The only
induction over runs: a call leads to a state that the contract allows, and what is left of the
program is read from there. -/
theorem Holds.runs {p q : Prog E Ans α} (hr : Runs serves p s q t)
    (hp : Holds serves Inv p Q s) : Holds serves Inv q Q t := by
  induction hr with
  | here p s => exact hp
  | call ha _ ih => exact ih (hp.2 _ _ ha)

theorem Holds.inv {p : Prog E Ans α} (hp : Holds serves Inv p Q s) : Inv s := by
  cases p with
  | ret a => exact hp.1
  | eff e k => exact hp.1

/-! ## 2. One rule for each way to build a program -/

theorem Holds.mono {p : Prog E Ans α} (hp : Holds serves Inv p Q s)
    (hq : ∀ a s, Q a s → Q' a s) : Holds serves Inv p Q' s := by
  induction p generalizing s with
  | ret a => exact ⟨hp.1, hq a s hp.2⟩
  | eff e k ih => exact ⟨hp.1, fun a t ha => ih a (hp.2 a t ha)⟩

/-- Sequencing: the rest is read from every state in which the first part can end. -/
theorem Holds.bind {p : Prog E Ans α} {f : α → Prog E Ans β} {R : β → σ → Prop}
    (hp : Holds serves Inv p Q s) (hf : ∀ a s, Inv s → Q a s → Holds serves Inv (f a) R s) :
    Holds serves Inv (p >>= f) R s := by
  induction p generalizing s with
  | ret a => exact hf a s hp.1 hp.2
  | eff e k ih => exact ⟨hp.1, fun a t ha => ih a (hp.2 a t ha)⟩

/-- One call in front of the rest. -/
theorem Holds.perform {e : E} {f : Ans e → Prog E Ans β} {R : β → σ → Prop} (hs : Inv s)
    (hf : ∀ a t, serves s e a t → Holds serves Inv (f a) R t) :
    Holds serves Inv (Prog.perform e >>= f) R s := ⟨hs, hf⟩

/-- A branch of the program. -/
theorem Holds.ite {c : Prop} [Decidable c] {p q : Prog E Ans α} (hp : c → Holds serves Inv p Q s)
    (hq : ¬c → Holds serves Inv q Q s) : Holds serves Inv (if c then p else q) Q s := by
  split
  · rename_i h
    exact hp h
  · rename_i h
    exact hq h

/-- **A program whose calls all leave the state alone.**  Reads need no proof of their own. -/
theorem Holds.of_only {P : E → Prop} {p : Prog E Ans α} (hp : p.Only P)
    (hP : ∀ s e a t, P e → serves s e a t → t = s) (hs : Inv s) :
    Holds serves Inv p (fun _ t => t = s) s := by
  induction p with
  | ret a => exact ⟨hs, rfl⟩
  | eff e k ih =>
    refine ⟨hs, fun a t ha => ?_⟩
    obtain rfl := hP s e a t hp.1 ha
    exact ih a (hp.2 a)

/-- A weaker invariant; the stronger one still holds at the end. -/
theorem Holds.weaken {Inv' : σ → Prop} {p : Prog E Ans α} (hp : Holds serves Inv p Q s)
    (hinv : ∀ s, Inv s → Inv' s) : Holds serves Inv' p (fun a s => Inv s ∧ Q a s) s := by
  induction p generalizing s with
  | ret a => exact ⟨hinv s hp.1, hp⟩
  | eff e k ih => exact ⟨hinv s hp.1, fun a t ha => ih a (hp.2 a t ha)⟩

/-- **What only grows and is bounded at the end is bounded all along.**  The service has an answer
to every call, so that every run can go on to an end. -/
theorem Holds.bounded {f : σ → Nat} {bound : Nat} {p : Prog E Ans α}
    (hserial : ∀ s e, ∃ a t, serves s e a t) (hgrows : ∀ s e a t, serves s e a t → f s ≤ f t)
    (hp : Holds serves Inv p (fun _ t => f t ≤ bound) s) :
    Holds serves (fun t => f t ≤ bound) p (fun _ _ => True) s := by
  induction p generalizing s with
  | ret a => exact ⟨hp.2, trivial⟩
  | eff e k ih =>
    obtain ⟨a, t, ha⟩ := hserial s e
    have hlater : f t ≤ bound := (ih a (hp.2 a t ha)).inv
    exact ⟨Nat.le_trans (hgrows s e a t ha) hlater, fun a t ha => ih a (hp.2 a t ha)⟩

/-! ## 3. A run from an oracle

A fixed way to answer is a function, and what it plays can be evaluated.  Witnesses are made so. -/

/-- The first `n` calls of a program, as an oracle answers them. -/
def playFor (oracle : σ → (e : E) → Ans e × σ) :
    Nat → Prog E Ans α → σ → Prog E Ans α × σ
  | 0, p, s => (p, s)
  | _ + 1, .ret a, s => (.ret a, s)
  | n + 1, .eff e k, s =>
    let r := oracle s e
    playFor oracle n (k r.1) r.2

/-- **What an oracle of the service plays is a run.** -/
theorem playFor_runs {oracle : σ → (e : E) → Ans e × σ}
    (ho : ∀ s e, serves s e (oracle s e).1 (oracle s e).2) (n : Nat) (p : Prog E Ans α) (s : σ) :
    Runs serves p s (playFor oracle n p s).1 (playFor oracle n p s).2 := by
  induction n generalizing p s with
  | zero => exact .here p s
  | succ n ih =>
    cases p with
    | ret a => exact .here _ s
    | eff e k => exact .call (ho s e) (ih _ _)

end Lib.Service
