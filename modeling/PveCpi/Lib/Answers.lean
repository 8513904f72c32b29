/-
# A program against every sequence of answers

A program that talks to services it does not control: each effect may be answered by any value,
and the caller may stop at any point.  A run is then the list of the effects with the answers they
got, and a contract says what must have happened before an effect is performed.

`Keeps Call p Q h` reads a program against such a contract: every effect that `p` performs after
the history `h` satisfies `Call`, and `p` ends with `Q`.  `Keeps.call` carries it over to the runs,
which is the only induction over runs; the rest is one lemma for each way to build a program.

## Why not the interleaving rule

`Lib.Interleave` also runs programs, but against a state whose every step is described.  Where the
other side is a whole cluster there is no such state: what a read returns after a write is not
determined by anything the program can see.  So nothing is assumed about the answers, and a contract
may only speak of what was done and answered so far.  A result of this kind holds of the real
cluster whatever it does, and it costs little: a contract is checked at each effect, with the
history known, and never at the answers.

## What is used from here

* the order of the calls of a routine: `Keeps.bind` and `Keeps.perform` walk along its code, and
  `Keeps.call` turns the walk into a statement about every run, cut off anywhere;
* code that makes only one kind of call: `Keeps.of_only` and `Keeps.only` go back and forth between
  a contract without a history and `Prog.Only`, so a part of a routine that is not interesting is
  dealt with in one line;
* concrete runs: `Reaches.bind` and `Reaches.trans` put them together from runs of the parts.
-/
import PveCpi.Lib.Interleave

namespace Lib.Answers

open Lib.Interleave

variable {E : Type} {Ans : E → Type} {α β : Type}

/-- An effect with its answer. -/
structure Event (Ans : E → Type) where
  eff : E
  ans : Ans eff

/-- A run: what was done and answered so far, the oldest event first. -/
abbrev History (Ans : E → Type) := List (Event Ans)

/-- After the events of the list, `p` has become `q`. -/
inductive Reaches : Prog E Ans α → History Ans → Prog E Ans α → Prop
  | here (p : Prog E Ans α) : Reaches p [] p
  | step {e : E} {k : Ans e → Prog E Ans α} {a : Ans e} {tr : History Ans} {q : Prog E Ans α}
      (h : Reaches (k a) tr q) : Reaches (.eff e k) (⟨e, a⟩ :: tr) q

/-- Every effect of `p` after the history `h` satisfies `Call`, and `p` ends with `Q`. -/
def Keeps (Call : History Ans → E → Prop) :
    Prog E Ans α → (History Ans → α → Prop) → History Ans → Prop
  | .ret a, Q, h => Q h a
  | .eff e k, Q, h => Call h e ∧ ∀ a, Keeps Call (k a) Q (h ++ [⟨e, a⟩])

variable {Call : History Ans → E → Prop} {Q Q' : History Ans → α → Prop} {h : History Ans}

/-- A weaker end.  The contract at the effects is untouched. -/
theorem Keeps.mono {p : Prog E Ans α} (hp : Keeps Call p Q h) (hq : ∀ h a, Q h a → Q' h a) :
    Keeps Call p Q' h := by
  induction p generalizing h with
  | ret a => exact hq h a hp
  | eff e k ih => exact ⟨hp.1, fun a => ih a (hp.2 a)⟩

/-- Sequencing: the rest is read from every history in which the first part can end.  The induction
is on the first part; at its end the rest takes over, with the history as it is there. -/
theorem Keeps.bind {p : Prog E Ans α} {f : α → Prog E Ans β} {R : History Ans → β → Prop}
    (hp : Keeps Call p Q h) (hf : ∀ h a, Q h a → Keeps Call (f a) R h) :
    Keeps Call (p >>= f) R h := by
  induction p generalizing h with
  | ret a => exact hf h a hp
  | eff e k ih => exact ⟨hp.1, fun a => ih a (hp.2 a)⟩

/-- One effect in front of the rest. -/
theorem Keeps.perform {e : E} {f : Ans e → Prog E Ans β} {R : History Ans → β → Prop}
    (he : Call h e) (hf : ∀ a, Keeps Call (f a) R (h ++ [⟨e, a⟩])) :
    Keeps Call (Prog.perform e >>= f) R h := ⟨he, hf⟩

/-- A program whose effects all satisfy a contract that does not look at the history. -/
theorem Keeps.of_only {P : E → Prop} {p : Prog E Ans α} (hp : p.Only P)
    (hc : ∀ h e, P e → Call h e) : Keeps Call p (fun _ _ => True) h := by
  induction p generalizing h with
  | ret a => trivial
  | eff e k ih => exact ⟨hc h e hp.1, fun a => ih a (hp.2 a)⟩

/-- A contract that does not look at the history is one on the effects of the program. -/
theorem Keeps.only {P : E → Prop} {p : Prog E Ans α} (hp : Keeps Call p Q h)
    (hc : ∀ h e, Call h e → P e) : p.Only P := by
  induction p generalizing h with
  | ret a => trivial
  | eff e k ih => exact ⟨hc h e hp.1, fun a => ih a (hp.2 a)⟩

/-- A weaker contract, effect by effect. -/
theorem Keeps.weaken {Call' : History Ans → E → Prop} {p : Prog E Ans α} (hp : Keeps Call p Q h)
    (hc : ∀ h e, Call h e → Call' h e) : Keeps Call' p Q h := by
  induction p generalizing h with
  | ret a => exact hp
  | eff e k ih => exact ⟨hc h e hp.1, fun a => ih a (hp.2 a)⟩

/-- Two contracts of one program can be checked apart and are kept together. -/
theorem Keeps.and {Call' : History Ans → E → Prop} {p : Prog E Ans α} (hp : Keeps Call p Q h)
    (hp' : Keeps Call' p Q' h) :
    Keeps (fun h e => Call h e ∧ Call' h e) p (fun h a => Q h a ∧ Q' h a) h := by
  induction p generalizing h with
  | ret a => exact ⟨hp, hp'⟩
  | eff e k ih => exact ⟨⟨hp.1, hp'.1⟩, fun a => ih a (hp.2 a) (hp'.2 a)⟩

/-- The effects of a run are effects of its program. -/
theorem Reaches.only {P : E → Prop} {p q : Prog E Ans α} {tr : History Ans} (hr : Reaches p tr q)
    (hp : p.Only P) : (∀ ev ∈ tr, P ev.eff) ∧ q.Only P := by
  induction hr with
  | here p => exact ⟨fun ev hev => absurd hev List.not_mem_nil, hp⟩
  | step _ ih =>
    obtain ⟨hev, hq⟩ := ih (hp.2 _)
    refine ⟨fun ev hmem => ?_, hq⟩
    rcases List.mem_cons.mp hmem with rfl | hmem
    · exact hp.1
    · exact hev ev hmem

theorem Reaches.trans {p q r : Prog E Ans α} {tr tr' : History Ans} (h : Reaches p tr q)
    (h' : Reaches q tr' r) : Reaches p (tr ++ tr') r := by
  induction h with
  | here p => exact h'
  | step _ ih => exact .step (ih h')

/-- A run of the first part, then a run of the rest. -/
theorem Reaches.bind {p : Prog E Ans α} {a : α} {f : α → Prog E Ans β} {tr tr' : History Ans}
    {q : Prog E Ans β} (hp : Reaches p tr (.ret a)) (hf : Reaches (f a) tr' q) :
    Reaches (p >>= f) (tr ++ tr') q := by
  induction tr generalizing p with
  | nil =>
    cases hp
    exact hf
  | cons ev tr ih =>
    cases hp with
    | step hp => exact .step (ih hp)

/-- **The contract holds of every effect of every run.**  A run is followed event by event: each one
was allowed by the contract at its history, and what the program has become keeps the contract from
the longer history.  Nothing is asked of the answers, so the run may be any prefix of any execution,
also one that stops here for good. -/
theorem Keeps.call {p : Prog E Ans α} (hp : Keeps Call p Q h) {tr : History Ans} {e : E}
    {k : Ans e → Prog E Ans α} (hr : Reaches p tr (.eff e k)) : Call (h ++ tr) e := by
  induction tr generalizing p h with
  | nil =>
    cases hr
    rw [List.append_nil]
    exact hp.1
  | cons ev tr ih =>
    cases hr with
    | step hr =>
      rw [List.append_cons]
      exact ih (hp.2 _) hr

end Lib.Answers
