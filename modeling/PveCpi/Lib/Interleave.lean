/-
# Programs that share a state, and what holds along every interleaving of them

A `Prog` is a piece of code cut at the points where other processes can act: it performs an
effect, receives an answer, and goes on.  A `Sys` says what each effect does to the shared
state, which calls a process may make, and what a crash leaves behind.  A run interleaves the
effects of any number of processes in any order, and a process may crash before any of them.

The proof rule is rely-guarantee.  Three things are named once for a system:

* `Inv`: what the shared state always satisfies;
* `Guar i`: what any single step of process `i` may do to the shared state;
* `Loc i`: what process `i` may count on between two calls.

`wp` reads a program against them: every step must keep `Inv` and stay inside `Guar i`, and
between two steps the others may take any number of steps of THEIR guarantees (`Env`).  So an
assertion is used at a program point only when it is `Stable`.  `Protocol.reachable` is the one
induction over runs; everything else is local to a program.

## Why not an invariant over configurations

The plain way is an invariant of whole configurations, shown to survive every step of every process.
A process in the middle of a call is a piece of code, so such an invariant would have to say
something about every point of the code of every process at once, and each proof would be repeated
for every pair of points.  With rely and guarantee a program is read once, against what any number
of others may do in between; that the others keep to it is shown when THEY are read.

## What is proved

* §1  `Prog`, a tree of effects and answers, and `Only`, a bound on the effects in it.
* §2  `Sys`, `next` and `runActs`: the runs, also as an executable function on a list of actions, so
  that a concrete interleaving can be evaluated (`reach_of_runActs`).
* §3  A process alone: `alone` runs it, `after` reads it with every choice of the environment but
  without other processes.  Both are for code that runs while nobody else can act.
* §4  `wp` and its rules, one for each way to build a program, and `wpE` for code that can fail.
* §5  `Protocol` collects the obligations; `Ok.next` is one step, `Ok.reach` every run, and
  `Ok.reach_rel` says what two states of one run have to do with each other.
-/
import Mathlib.Logic.Relation

namespace Lib.Interleave

/-! ## 1. Programs

An effect is a point at which another process may have acted; between two effects a program computes
alone.  So a program is cut exactly as often as the code reads or writes something shared. -/

/-- A program over the effects `E`; effect `e` is answered by a value of `Ans e`. -/
inductive Prog (E : Type) (Ans : E → Type) (α : Type) : Type where
  | ret (a : α) : Prog E Ans α
  | eff (e : E) (k : Ans e → Prog E Ans α) : Prog E Ans α

namespace Prog

variable {E : Type} {Ans : E → Type} {α β : Type}

/-- Sequential composition. -/
protected def bind : Prog E Ans α → (α → Prog E Ans β) → Prog E Ans β
  | ret a, f => f a
  | eff e k, f => eff e (fun x => (k x).bind f)

instance : Monad (Prog E Ans) where
  pure := ret
  bind := Prog.bind

/-- The program that performs one effect and returns its answer. -/
def perform (e : E) : Prog E Ans (Ans e) := eff e ret

@[simp] theorem pure_eq (a : α) : (pure a : Prog E Ans α) = ret a := rfl

@[simp] theorem ret_bind (a : α) (f : α → Prog E Ans β) : (ret a >>= f) = f a := rfl

@[simp] theorem eff_bind (e : E) (k : Ans e → Prog E Ans α) (f : α → Prog E Ans β) :
    (eff e k >>= f) = eff e (fun x => k x >>= f) := rfl

protected theorem bind_assoc {γ : Type} (p : Prog E Ans α) (f : α → Prog E Ans β)
    (g : β → Prog E Ans γ) : (p >>= f) >>= g = p >>= fun a => f a >>= g := by
  induction p with
  | ret a => rfl
  | eff e k ih => exact congrArg (eff e) (funext ih)

/-- Every effect the program can perform satisfies `P`. -/
def Only (P : E → Prop) : Prog E Ans α → Prop
  | ret _ => True
  | eff e k => P e ∧ ∀ a, (k a).Only P

theorem Only.mono {P P' : E → Prop} {p : Prog E Ans α} (hp : p.Only P) (h : ∀ e, P e → P' e) :
    p.Only P' := by
  induction p with
  | ret a => trivial
  | eff e k ih => exact ⟨h e hp.1, fun a => ih a (hp.2 a)⟩

theorem Only.bind {P : E → Prop} {p : Prog E Ans α} {f : α → Prog E Ans β} (hp : p.Only P)
    (hf : ∀ a, (f a).Only P) : (p >>= f).Only P := by
  induction p with
  | ret a => exact hf a
  | eff e k ih => exact ⟨hp.1, fun a => ih a (hp.2 a)⟩

end Prog

/-! ## 2. Systems, their steps and their runs

The choice `Ch` resolves what the code does not determine: which error a call returns, whether a
write that failed has landed, which order a directory is listed in.  Every run is one list of
choices, and a statement about all runs is one about all choices. -/

/-- A system of processes over one shared state.  `exec` is total up to a choice `Ch` that
resolves everything the code does not decide (a clock reading, an I/O failure, who waits); it
answers `none` when the step is not enabled. -/
structure Sys where
  σ : Type
  E : Type
  Ans : E → Type
  Ch : Type
  L : Type
  Op : Type
  exec : Nat → (e : E) → Ch → σ → Option (Ans e × σ)
  prog : Op → L → Option (Prog E Ans L)
  enter : Nat → Op → σ → σ
  halt : Nat → σ → σ
  boot : L

variable {S : Sys}

/-- A process between two calls, with its memory, or inside one. -/
inductive Actor (S : Sys) where
  | idle (l : S.L)
  | running (p : Prog S.E S.Ans S.L)

/-- The shared state and every process. -/
structure Config (S : Sys) where
  shared : S.σ
  actor : Nat → Actor S

/-- What the scheduler can do next. -/
inductive Act (S : Sys) where
  | start (i : Nat) (o : S.Op)
  | run (i : Nat) (ch : S.Ch)
  | finish (i : Nat)
  | crash (i : Nat)

/-- The process an action belongs to. -/
def Act.who : Act S → Nat
  | .start i _ | .run i _ | .finish i | .crash i => i

/-- Replace one process. -/
def Config.set (c : Config S) (i : Nat) (s : S.σ) (a : Actor S) : Config S :=
  { shared := s, actor := fun j => if j = i then a else c.actor j }

@[simp] theorem Config.set_shared (c : Config S) (i : Nat) (s : S.σ) (a : Actor S) :
    (c.set i s a).shared = s := rfl

@[simp] theorem Config.set_actor_self (c : Config S) (i : Nat) (s : S.σ) (a : Actor S) :
    (c.set i s a).actor i = a := if_pos rfl

theorem Config.set_actor_ne (c : Config S) {i j : Nat} (s : S.σ) (a : Actor S) (h : j ≠ i) :
    (c.set i s a).actor j = c.actor j := if_neg h

/-- One action, executed; `none` when it is not enabled. -/
def next (c : Config S) : Act S → Option (Config S)
  | .start i o =>
    match c.actor i with
    | .idle l => (S.prog o l).map fun p => c.set i (S.enter i o c.shared) (.running p)
    | .running _ => none
  | .run i ch =>
    match c.actor i with
    | .running (.eff e k) =>
      (S.exec i e ch c.shared).map fun r => c.set i r.2 (.running (k r.1))
    | _ => none
  | .finish i =>
    match c.actor i with
    | .running (.ret l) => some (c.set i c.shared (.idle l))
    | _ => none
  | .crash i => some (c.set i (S.halt i c.shared) (.idle S.boot))

/-- A run, as the list of its actions. -/
def runActs : List (Act S) → Config S → Option (Config S)
  | [], c => some c
  | a :: as, c => (next c a).bind (runActs as)

/-- One step of a run. -/
def StepTo (c c' : Config S) : Prop := ∃ a, next c a = some c'

/-- `c'` can be reached from `c`. -/
def Reach (c c' : Config S) : Prop := Relation.ReflTransGen StepTo c c'

theorem reach_of_runActs : ∀ {as : List (Act S)} {c c' : Config S},
    runActs as c = some c' → Reach c c'
  | [], c, c', h => by
    simp only [runActs, Option.some.injEq] at h
    subst h
    exact Relation.ReflTransGen.refl
  | a :: as, c, c', h => by
    obtain ⟨d, hd, hrest⟩ := Option.bind_eq_some_iff.mp h
    exact Relation.ReflTransGen.head ⟨a, hd⟩ (reach_of_runActs hrest)

/-- The configuration in which nothing has happened yet. -/
def Config.initial (s : S.σ) : Config S := { shared := s, actor := fun _ => .idle S.boot }

/-! ## 3. One process alone

Under a lock that all processes take the others cannot act, and then the ordinary weakest
precondition is enough. -/

/-- Run a program to its end with nobody else acting, every effect resolved by one choice. -/
def alone (i : Nat) (ch : S.Ch) {α : Type} : Prog S.E S.Ans α → S.σ → Option (α × S.σ)
  | .ret a, s => some (a, s)
  | .eff e k, s => (S.exec i e ch s).bind fun r => alone i ch (k r.1) r.2

theorem alone_bind {i : Nat} {ch : S.Ch} {α β : Type} {p : Prog S.E S.Ans α}
    {f : α → Prog S.E S.Ans β} {s t : S.σ} {a : α} (h : alone i ch p s = some (a, t)) :
    alone i ch (p >>= f) s = alone i ch (f a) t := by
  induction p generalizing s with
  | ret b =>
    simp only [alone, Option.some.injEq, Prod.mk.injEq] at h
    obtain ⟨rfl, rfl⟩ := h
    rfl
  | eff e k ih =>
    obtain ⟨r, hr, hrest⟩ := Option.bind_eq_some_iff.mp h
    rw [Prog.eff_bind, alone, hr, Option.bind_some]
    exact ih r.1 hrest

/-- Whatever the choices that `allowed` admits, when the program ends with nobody else acting, `Q`
holds. -/
def after (i : Nat) (allowed : S.E → S.Ch → Prop) {α : Type} : Prog S.E S.Ans α →
    (α → S.σ → Prop) → S.σ → Prop
  | .ret a, Q, s => Q a s
  | .eff e k, Q, s => ∀ ch x t, allowed e ch → S.exec i e ch s = some (x, t) →
      after i allowed (k x) Q t

section After

variable {i : Nat} {allowed : S.E → S.Ch → Prop} {α β ε : Type}

theorem after_mono {p : Prog S.E S.Ans α} {Q Q' : α → S.σ → Prop} (hQ : ∀ a t, Q a t → Q' a t) :
    ∀ {s : S.σ}, after i allowed p Q s → after i allowed p Q' s := by
  induction p with
  | ret a => exact fun h => hQ a _ h
  | eff e k ih => exact fun h ch x t ha hx => ih x (h ch x t ha hx)

theorem after_bind {p : Prog S.E S.Ans α} {f : α → Prog S.E S.Ans β} {Q : β → S.σ → Prop} :
    ∀ {s : S.σ}, after i allowed p (fun a => after i allowed (f a) Q) s →
    after i allowed (p >>= f) Q s := by
  induction p with
  | ret a => exact fun h => h
  | eff e k ih => exact fun h ch x t ha hx => ih x (h ch x t ha hx)

/-- Sequencing of code that can fail: an error ends it. -/
theorem after_bindE {p : ExceptT ε (Prog S.E S.Ans) α} {f : α → ExceptT ε (Prog S.E S.Ans) β}
    {Q : Except ε β → S.σ → Prop} {R : Except ε α → S.σ → Prop} {s : S.σ}
    (hp : after i allowed p.run R s) (herr : ∀ e t, R (.error e) t → Q (.error e) t)
    (hok : ∀ a t, R (.ok a) t → after i allowed (f a).run Q t) :
    after i allowed (p >>= f).run Q s := by
  refine after_bind (after_mono ?_ hp)
  intro r t hr
  cases r with
  | ok a => exact hok a t hr
  | error e => exact herr e t hr

/-- What holds whatever the choices holds of a run with one choice. -/
theorem after_alone {p : Prog S.E S.Ans α} {Q : α → S.σ → Prop} {ch : S.Ch}
    (hch : ∀ e, allowed e ch) {a : α} {t : S.σ} : ∀ {s : S.σ}, after i allowed p Q s →
    alone i ch p s = some (a, t) → Q a t := by
  induction p with
  | ret b =>
    intro s h hrun
    simp only [alone, Option.some.injEq, Prod.mk.injEq] at hrun
    obtain ⟨rfl, rfl⟩ := hrun
    exact h
  | eff e k ih =>
    intro s h hrun
    obtain ⟨r, hr, hrest⟩ := Option.bind_eq_some_iff.mp hrun
    exact ih r.1 (h ch r.1 r.2 (hch e) hr) hrest

end After

/-! ## 4. Rely, guarantee, and the weakest precondition of a program

In front of each effect `wp` asks for an assertion that survives interference.  What a program has
read is therefore known only as far as no other process can change it, and that is the point at
which a protocol shows what it rests on. -/

section Logic

variable (Inv : S.σ → Prop) (Guar : Nat → S.σ → S.σ → Prop)

/-- Any number of steps of the processes other than `i`. -/
def Env (i : Nat) : S.σ → S.σ → Prop :=
  Relation.ReflTransGen fun s t => Inv s ∧ Inv t ∧ ∃ j, j ≠ i ∧ Guar j s t

/-- `P` survives every step another process may take. -/
def Stable (i : Nat) (P : S.σ → Prop) : Prop :=
  ∀ j, j ≠ i → ∀ s t, Inv s → Inv t → Guar j s t → P s → P t

/-- What must hold now for program `p` of process `i` to stay inside the guarantee, whatever
the others do in between, and to end with `Q`. -/
def wp (i : Nat) {α : Type} : Prog S.E S.Ans α → (α → S.σ → Prop) → S.σ → Prop
  | .ret a, Q, s => ∀ t, Inv t → Env Inv Guar i s t → Q a t
  | .eff e k, Q, s => ∀ t, Inv t → Env Inv Guar i s t → ∀ ch a t', S.exec i e ch t = some (a, t') →
      Inv t' ∧ Guar i t t' ∧ wp i (k a) Q t'

/-- `P` survives any interference. -/
def Kept (i : Nat) (P : S.σ → Prop) : Prop :=
  ∀ s t, Inv t → Env Inv Guar i s t → P s → P t

variable {Inv Guar} {i : Nat} {α β ε : Type}

theorem Stable.kept {P : S.σ → Prop} (hP : Stable Inv Guar i P) : Kept Inv Guar i P := by
  intro s t _ h hs
  induction h with
  | refl => exact hs
  | tail _ hstep ih =>
    obtain ⟨h1, h2, j, hj, hg⟩ := hstep
    exact hP j hj _ _ h1 h2 hg (ih h1)

theorem Stable.and {P Q : S.σ → Prop} (hP : Stable Inv Guar i P) (hQ : Stable Inv Guar i Q) :
    Stable Inv Guar i (fun s => P s ∧ Q s) :=
  fun j hj s t h1 h2 hg h => ⟨hP j hj s t h1 h2 hg h.1, hQ j hj s t h1 h2 hg h.2⟩

theorem stable_const (p : Prop) : Stable Inv Guar i (fun _ => p) := fun _ _ _ _ _ _ _ h => h

theorem Kept.and {P Q : S.σ → Prop} (hP : Kept Inv Guar i P) (hQ : Kept Inv Guar i Q) :
    Kept Inv Guar i (fun s => P s ∧ Q s) :=
  fun s t ht he h => ⟨hP s t ht he h.1, hQ s t ht he h.2⟩

/-- A precondition may be used after any interference. -/
theorem wp_env {p : Prog S.E S.Ans α} {Q : α → S.σ → Prop} {s t : S.σ}
    (h : wp Inv Guar i p Q s) (he : Env Inv Guar i s t) : wp Inv Guar i p Q t := by
  cases p with
  | ret a => exact fun u hu htu => h u hu (he.trans htu)
  | eff e k => exact fun u hu htu => h u hu (he.trans htu)

theorem wp_kept (p : Prog S.E S.Ans α) (Q : α → S.σ → Prop) :
    Kept Inv Guar i (wp Inv Guar i p Q) :=
  fun _ _ _ he h => wp_env h he

theorem wp_mono {p : Prog S.E S.Ans α} {Q Q' : α → S.σ → Prop}
    (hQ : ∀ a t, Inv t → Q a t → Q' a t) : ∀ {s : S.σ}, wp Inv Guar i p Q s →
    wp Inv Guar i p Q' s := by
  induction p with
  | ret a => exact fun h t ht he => hQ a t ht (h t ht he)
  | eff e k ih =>
    intro s h t ht he ch a t' hx
    obtain ⟨h1, h2, h3⟩ := h t ht he ch a t' hx
    exact ⟨h1, h2, ih a h3⟩

/-- **Sequencing.**  By induction on the first program; where it returns, the precondition of the
rest has been shown under interference already, so nothing is asked at the seam. -/
theorem wp_bind {p : Prog S.E S.Ans α} {f : α → Prog S.E S.Ans β} {Q : β → S.σ → Prop} :
    ∀ {s : S.σ}, wp Inv Guar i p (fun a => wp Inv Guar i (f a) Q) s →
    Inv s → wp Inv Guar i (p >>= f) Q s := by
  induction p with
  | ret a => exact fun h hs => h _ hs Relation.ReflTransGen.refl
  | eff e k ih =>
    intro s h _ t ht he ch a t' hx
    obtain ⟨h1, h2, h3⟩ := h t ht he ch a t' hx
    exact ⟨h1, h2, ih a h3 h1⟩

/-- **Returning.**  What is returned must hold under interference. -/
theorem wp_ret {a : α} {Q : α → S.σ → Prop} {s : S.σ} (hQ : Kept Inv Guar i (Q a))
    (h : Q a s) : wp Inv Guar i (.ret a) Q s :=
  fun t ht he => hQ s t ht he h

/-- **One effect.**  The assertion in front of an effect must survive interference; what follows
is proved from the state the effect leaves. -/
theorem wp_perform {e : S.E} {Q : S.Ans e → S.σ → Prop} {s : S.σ} {P : S.σ → Prop}
    (hP : Kept Inv Guar i P) (hs : P s) (hQ : ∀ a, Kept Inv Guar i (Q a))
    (h : ∀ t, Inv t → P t → ∀ ch a t', S.exec i e ch t = some (a, t') →
      Inv t' ∧ Guar i t t' ∧ Q a t') :
    wp Inv Guar i (Prog.perform e) Q s := by
  intro t ht he ch a t' hx
  obtain ⟨h1, h2, h3⟩ := h t ht (hP s t ht he hs) ch a t' hx
  exact ⟨h1, h2, wp_ret (hQ a) h3⟩

/-- **Framing.**  What every step keeps, of this process too, holds at the end.  So a fact about the
state that all guarantees keep need not be carried through a program. -/
theorem wp_frame {R : S.σ → Prop} (hR : ∀ k s t, Inv s → Inv t → Guar k s t → R s → R t)
    {p : Prog S.E S.Ans α} {Q : α → S.σ → Prop} : ∀ {s : S.σ}, R s → wp Inv Guar i p Q s →
    wp Inv Guar i p (fun a t => Q a t ∧ R t) s := by
  have hkept : Kept Inv Guar i R :=
    Stable.kept fun k _ s t hs ht hg h => hR k s t hs ht hg h
  induction p with
  | ret a => exact fun hs h t ht he => ⟨h t ht he, hkept _ t ht he hs⟩
  | eff e k ih =>
    intro s hs h t ht he ch a t' hx
    obtain ⟨h1, h2, h3⟩ := h t ht he ch a t' hx
    exact ⟨h1, h2, ih a (hR i t t' ht h1 h2 (hkept s t ht he hs)) h3⟩

/-- **Programs whose every effect keeps an assertion** that survives interference. -/
theorem wp_each {R : S.E → Prop} {P : S.σ → Prop} (hP : Kept Inv Guar i P)
    (hR : ∀ e, R e → ∀ ch s a t, Inv s → P s → S.exec i e ch s = some (a, t) →
      Inv t ∧ Guar i s t ∧ P t) {p : Prog S.E S.Ans α} (hp : p.Only R) :
    ∀ {s : S.σ}, P s → wp Inv Guar i p (fun _ => P) s := by
  induction p with
  | ret a => exact fun hs => wp_ret hP hs
  | eff e k ih =>
    intro s hs t ht he ch a t' hx
    obtain ⟨h1, h2, h3⟩ := hR e hp.1 ch t a t' ht (hP s t ht he hs) hx
    exact ⟨h1, h2, ih a (hp.2 a) h3⟩

/-- **Programs that leave the state alone.**  They keep whatever survives interference. -/
theorem wp_only {R : S.E → Prop} {P : S.σ → Prop} (hP : Kept Inv Guar i P)
    (hR : ∀ e, R e → ∀ ch s a t, S.exec i e ch s = some (a, t) → t = s)
    (hrefl : ∀ s, Guar i s s) {p : Prog S.E S.Ans α} (hp : p.Only R) :
    ∀ {s : S.σ}, P s → wp Inv Guar i p (fun _ => P) s := by
  refine wp_each hP ?_ hp
  intro e he ch s a t hs hPs hx
  obtain rfl := hR e he ch s a t hx
  exact ⟨hs, hrefl _, hPs⟩

/-! ### Programs that can fail -/

/-- A postcondition for code that returns a value or an error: `Q` for the values, `X` for the
errors. -/
def Outcome (Q : α → S.σ → Prop) (X : ε → S.σ → Prop) : Except ε α → S.σ → Prop
  | .ok a => Q a
  | .error e => X e

/-- `wp` for code that can fail. -/
def wpE (Inv : S.σ → Prop) (Guar : Nat → S.σ → S.σ → Prop) (i : Nat)
    (p : ExceptT ε (Prog S.E S.Ans) α) (Q : α → S.σ → Prop) (X : ε → S.σ → Prop) :
    S.σ → Prop :=
  wp Inv Guar i p.run (Outcome Q X)

theorem wpE_bind {p : ExceptT ε (Prog S.E S.Ans) α} {f : α → ExceptT ε (Prog S.E S.Ans) β}
    {Q : β → S.σ → Prop} {X : ε → S.σ → Prop} {s : S.σ} (hs : Inv s)
    (hX : ∀ e, Kept Inv Guar i (X e))
    (h : wpE Inv Guar i p (fun a => wpE Inv Guar i (f a) Q X) X s) :
    wpE Inv Guar i (p >>= f) Q X s := by
  refine wp_bind (wp_mono ?_ h) hs
  intro r t _ hr
  cases r with
  | ok a => exact hr
  | error e => exact wp_ret (a := Except.error e) (Q := Outcome Q X) (hX e) hr

theorem wpE_kept (p : ExceptT ε (Prog S.E S.Ans) α) (Q : α → S.σ → Prop)
    (X : ε → S.σ → Prop) : Kept Inv Guar i (wpE Inv Guar i p Q X) :=
  wp_kept _ _

theorem wpE_pure {a : α} {Q : α → S.σ → Prop} {X : ε → S.σ → Prop} {s : S.σ}
    (hQ : Kept Inv Guar i (Q a)) (h : Q a s) :
    wpE Inv Guar i (pure a : ExceptT ε (Prog S.E S.Ans) α) Q X s :=
  wp_ret (a := Except.ok a) (Q := Outcome Q X) hQ h

theorem wpE_throw {e : ε} {Q : α → S.σ → Prop} {X : ε → S.σ → Prop} {s : S.σ}
    (hX : Kept Inv Guar i (X e)) (h : X e s) :
    wpE Inv Guar i (throw e : ExceptT ε (Prog S.E S.Ans) α) Q X s :=
  wp_ret (a := Except.error e) (Q := Outcome Q X) hX h

/-- A program that does not fail by itself. -/
theorem wpE_lift {p : Prog S.E S.Ans α} {Q : α → S.σ → Prop} {X : ε → S.σ → Prop} {s : S.σ}
    (hs : Inv s) (hQ : ∀ a, Kept Inv Guar i (Q a)) (h : wp Inv Guar i p Q s) :
    wpE Inv Guar i (ExceptT.lift p : ExceptT ε (Prog S.E S.Ans) α) Q X s :=
  wp_bind (wp_mono (fun a _ _ ha => wp_ret (a := Except.ok a) (Q := Outcome Q X) (hQ a) ha) h) hs

/-- A value or an error that is known already. -/
theorem wpE_of {x : Except ε α} {Q : α → S.σ → Prop} {X : ε → S.σ → Prop} {s : S.σ}
    (hQ : ∀ a, Kept Inv Guar i (Q a)) (hX : ∀ e, Kept Inv Guar i (X e))
    (hok : ∀ a, x = .ok a → Q a s) (herr : ∀ e, x = .error e → X e s) :
    wpE Inv Guar i (ExceptT.mk (pure x) : ExceptT ε (Prog S.E S.Ans) α) Q X s := by
  cases x with
  | ok a => exact wp_ret (a := Except.ok a) (Q := Outcome Q X) (hQ a) (hok a rfl)
  | error e => exact wp_ret (a := Except.error e) (Q := Outcome Q X) (hX e) (herr e rfl)

theorem wpE_mono {p : ExceptT ε (Prog S.E S.Ans) α} {Q Q' : α → S.σ → Prop}
    {X X' : ε → S.σ → Prop} {s : S.σ} (hQ : ∀ a t, Inv t → Q a t → Q' a t)
    (hX : ∀ e t, Inv t → X e t → X' e t) (h : wpE Inv Guar i p Q X s) :
    wpE Inv Guar i p Q' X' s := by
  refine wp_mono ?_ h
  intro r t ht hr
  cases r with
  | ok a => exact hQ a t ht hr
  | error e => exact hX e t ht hr

end Logic

/-! ## 5. Soundness: the induction over runs

An instance gives `Inv`, `Guar`, `Loc` and, for each call, a proof that its program keeps them.
After that no proof looks at a run again. -/

/-- The obligations of a rely-guarantee proof. -/
structure Protocol (S : Sys) where
  Inv : S.σ → Prop
  Guar : Nat → S.σ → S.σ → Prop
  Loc : Nat → S.L → S.σ → Prop
  start_ok : ∀ i o l p s, Inv s → Loc i l s → S.prog o l = some p →
    Inv (S.enter i o s) ∧ Guar i s (S.enter i o s) ∧ wp Inv Guar i p (Loc i) (S.enter i o s)
  halt_ok : ∀ i s, Inv s → Inv (S.halt i s) ∧ Guar i s (S.halt i s) ∧ Loc i S.boot (S.halt i s)
  boot_kept : ∀ i, Kept Inv Guar i (Loc i S.boot)

namespace Protocol

variable (P : Protocol S)

/-- What holds of one process: between calls its local assertion, inside a call the
precondition of what is left of it. -/
def ActorOk (i : Nat) (s : S.σ) : Actor S → Prop
  | .idle l => ∀ t, P.Inv t → Env P.Inv P.Guar i s t → P.Loc i l t
  | .running p => wp P.Inv P.Guar i p (P.Loc i) s

/-- What holds of every reachable configuration. -/
structure Ok (c : Config S) : Prop where
  inv : P.Inv c.shared
  actors : ∀ i, P.ActorOk i c.shared (c.actor i)

variable {P}

theorem ActorOk.env {i : Nat} {s t : S.σ} {a : Actor S} (h : P.ActorOk i s a)
    (he : Env P.Inv P.Guar i s t) : P.ActorOk i t a := by
  cases a with
  | idle l => exact fun u hu htu => h u hu (he.trans htu)
  | running p => exact wp_env h he

/-- A step of one process, seen by all: the others only see a step of its guarantee. -/
theorem Ok.set {c : Config S} (h : P.Ok c) {i : Nat} {s : S.σ} {a : Actor S}
    (hs : P.Inv s) (hg : P.Guar i c.shared s) (ha : P.ActorOk i s a) : P.Ok (c.set i s a) := by
  refine ⟨hs, fun j => ?_⟩
  by_cases hj : j = i
  · subst hj
    rw [Config.set_actor_self]
    exact ha
  · rw [Config.set_actor_ne _ _ _ hj]
    refine (h.actors j).env (Relation.ReflTransGen.single ⟨h.inv, hs, i, ?_, hg⟩)
    exact fun e => hj e.symm

/-- **One step.**  It keeps the invariant and every process's assertion, and it does to the shared
state what its process guarantees, or nothing.  The process that moves is where its own precondition
says; for every other one the step is interference, and what is known of it survives that by
`ActorOk.env`. -/
theorem Ok.next {c c' : Config S} (h : P.Ok c) {a : Act S} (hn : next c a = some c') :
    P.Ok c' ∧ (c'.shared = c.shared ∨ P.Guar a.who c.shared c'.shared) := by
  cases a with
  | start i o =>
    simp only [Interleave.next] at hn
    cases hc : c.actor i with
    | running p => rw [hc] at hn; cases hn
    | idle l =>
      rw [hc] at hn
      obtain ⟨p, hp, rfl⟩ := Option.map_eq_some_iff.mp hn
      have hl : P.Loc i l c.shared := by
        have := h.actors i
        rw [hc] at this
        exact this _ h.inv Relation.ReflTransGen.refl
      obtain ⟨h1, h2, h3⟩ := P.start_ok i o l p c.shared h.inv hl hp
      exact ⟨h.set h1 h2 h3, Or.inr h2⟩
  | run i ch =>
    simp only [Interleave.next] at hn
    cases hc : c.actor i with
    | idle l => rw [hc] at hn; cases hn
    | running p =>
      cases p with
      | ret l => rw [hc] at hn; cases hn
      | eff e k =>
        rw [hc] at hn
        obtain ⟨r, hr, rfl⟩ := Option.map_eq_some_iff.mp hn
        have hw := h.actors i
        rw [hc] at hw
        obtain ⟨h1, h2, h3⟩ := hw _ h.inv Relation.ReflTransGen.refl ch r.1 r.2 hr
        exact ⟨h.set h1 h2 h3, Or.inr h2⟩
  | finish i =>
    simp only [Interleave.next] at hn
    cases hc : c.actor i with
    | idle l => rw [hc] at hn; cases hn
    | running p =>
      cases p with
      | eff e k => rw [hc] at hn; cases hn
      | ret l =>
        rw [hc] at hn
        simp only [Option.some.injEq] at hn
        subst hn
        refine ⟨⟨h.inv, fun j => ?_⟩, Or.inl rfl⟩
        by_cases hj : j = i
        · subst hj
          have hw := h.actors j
          rw [hc] at hw
          rw [Config.set_actor_self]
          exact hw
        · rw [Config.set_actor_ne _ _ _ hj]
          exact h.actors j
  | crash i =>
    simp only [Interleave.next, Option.some.injEq] at hn
    subst hn
    obtain ⟨h1, h2, h3⟩ := P.halt_ok i c.shared h.inv
    exact ⟨h.set h1 h2 (fun t ht he => P.boot_kept i _ t ht he h3), Or.inr h2⟩

theorem ok_initial {s : S.σ} (hs : P.Inv s) (hl : ∀ i, P.Loc i S.boot s) :
    P.Ok (Config.initial s) :=
  ⟨hs, fun i t ht he => P.boot_kept i s t ht he (hl i)⟩

/-- **Every reachable configuration is `Ok`.**  The only induction over runs, with `Ok.next` as its
step. -/
theorem Ok.reach {c c' : Config S} (h : P.Ok c) (hr : Reach c c') : P.Ok c' := by
  induction hr with
  | refl => exact h
  | tail _ hstep ih =>
    obtain ⟨a, ha⟩ := hstep
    exact (ih.next ha).1

theorem reachable {s : S.σ} (hs : P.Inv s) (hl : ∀ i, P.Loc i S.boot s) {c : Config S}
    (hr : Reach (Config.initial s) c) : P.Ok c :=
  (ok_initial hs hl).reach hr

/-- **A relation kept by every guarantee is kept along every run.**  This is how the past is spoken
of without a history in the state: what was published is still there, what was charged is still
charged. -/
theorem Ok.reach_rel {R : S.σ → S.σ → Prop} (hrefl : ∀ s, R s s)
    (htrans : ∀ s t u, P.Inv s → R s t → R t u → R s u)
    (hG : ∀ i s t, P.Inv s → P.Guar i s t → R s t)
    {c c' : Config S} (h : P.Ok c) (hr : Reach c c') : R c.shared c'.shared := by
  induction hr with
  | refl => exact hrefl _
  | tail hmid hstep ih =>
    obtain ⟨a, ha⟩ := hstep
    have hok := h.reach hmid
    rcases (hok.next ha).2 with heq | hg
    · rw [heq]; exact ih
    · exact htrans _ _ _ h.inv ih (hG _ _ _ hok.inv hg)

end Protocol

end Lib.Interleave
