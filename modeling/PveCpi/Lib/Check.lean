/-
# Checks in front of a computation

Code that validates its input is a chain of tests, each with its own error, and the first test
that fails is the answer.  The combinators below write such a chain over any type of errors, and
the lemmas read a chain that passed as the conjunction of its tests.

The order of the tests matters to the source, since a caller sees the message of the first one that
fails; it does not matter to a chain that passed.  So there are two kinds of lemmas.  Those that end
in `_eq_ok` are tagged for `simp` and turn a whole validation function into a conjunction in one
step; every proof about an accepted value starts that way.  Those that end in `_eq_error` keep the
order, and are used where a claim names the error.

`bind_eq_ok` does the same for a computation with a result: from a success it gives the value of the
first part and the success of the rest, so that a long function in the `Except` monad is taken apart
with `obtain` and never unfolded.
-/
import Mathlib.Data.List.Basic

namespace Lib.Check

variable {ε α β : Type}

/-- Stop with `e` when the test fails. -/
def refuse (bad : Bool) (e : ε) : Except ε Unit := if bad then .error e else .ok ()

/-- A check that is made only under a condition. -/
def checkWhen (b : Bool) (check : Except ε Unit) : Except ε Unit :=
  if b then check else .ok ()

/-- Check every element in order; the first refusal is the answer. -/
def checkAll (check : α → Except ε Unit) : List α → Except ε Unit
  | [] => .ok ()
  | a :: as => do
    check a
    checkAll check as

/-- Check every element with its position. -/
def checkFrom (check : Nat → α → Except ε Unit) : Nat → List α → Except ε Unit
  | _, [] => .ok ()
  | i, a :: as => do
    check i a
    checkFrom check (i + 1) as

@[simp] theorem refuse_eq_ok {bad : Bool} {e : ε} : refuse bad e = .ok () ↔ bad = false := by
  cases bad <;> simp [refuse]

@[simp] theorem checkWhen_eq_ok {b : Bool} {check : Except ε Unit} :
    checkWhen b check = .ok () ↔ (b = true → check = .ok ()) := by
  cases b <;> simp [checkWhen]

/-- A success of the whole is a success of the first part and of the rest on its value. -/
theorem bind_eq_ok {x : Except ε α} {f : α → Except ε β} {b : β} :
    (x >>= f) = .ok b ↔ ∃ a, x = .ok a ∧ f a = .ok b := by
  rcases x with e | a <;> simp [bind, Except.bind]

/-- An error comes from the first part, or from the rest. -/
theorem bind_eq_error {x : Except ε α} {f : α → Except ε β} {e : ε} :
    (x >>= f) = .error e ↔ x = .error e ∨ ∃ a, x = .ok a ∧ f a = .error e := by
  rcases x with e' | a <;> simp [bind, Except.bind]

@[simp] theorem refuse_eq_error {bad : Bool} {e e' : ε} :
    refuse bad e = .error e' ↔ bad = true ∧ e = e' := by
  cases bad <;> simp [refuse]

/-- A check in front of the rest passes when both pass. -/
@[simp] theorem check_bind_eq_ok {x : Except ε Unit} {y : Unit → Except ε β} {b : β} :
    (x >>= y) = .ok b ↔ x = .ok () ∧ y () = .ok b := by
  rw [bind_eq_ok]
  exact ⟨fun ⟨_, h⟩ => h, fun h => ⟨(), h⟩⟩

theorem check_bind_eq_error {x : Except ε Unit} {y : Unit → Except ε β} {e : ε} :
    (x >>= y) = .error e ↔ x = .error e ∨ x = .ok () ∧ y () = .error e := by
  rw [bind_eq_error]
  exact or_congr_right ⟨fun ⟨_, h⟩ => h, fun h => ⟨(), h⟩⟩

@[simp] theorem pure_eq_ok {a b : α} : (pure a : Except ε α) = .ok b ↔ a = b := by
  simp [pure, Except.pure]

@[simp] theorem mapError_eq_ok {δ : Type} {x : Except ε α} {f : ε → δ} {a : α} :
    x.mapError f = .ok a ↔ x = .ok a := by
  rcases x with e | b <;> simp [Except.mapError]

theorem toOption_eq_some {x : Except ε α} {a : α} : x.toOption = some a ↔ x = .ok a := by
  rcases x with e | b <;> simp [Except.toOption]

/-- A loop of checks passes when each one does, in any order. -/
@[simp] theorem checkAll_eq_ok {check : α → Except ε Unit} {l : List α} :
    checkAll check l = .ok () ↔ ∀ a ∈ l, check a = .ok () := by
  induction l with
  | nil => simp [checkAll]
  | cons a as ih => simp [checkAll, ih]

/-- A computation on every element succeeds when each one does. -/
theorem mapM_eq_ok {f : α → Except ε β} {l : List α} {m : List β} :
    l.mapM f = .ok m ↔ (∀ a ∈ l, (f a).toOption.isSome) ∧ m = l.filterMap fun a =>
    (f a).toOption := by
  induction l generalizing m with
  | nil =>
    rw [List.mapM_nil, pure_eq_ok, List.filterMap_nil, eq_comm]
    exact ⟨fun h => ⟨fun a ha => absurd ha List.not_mem_nil, h⟩, fun h => h.2⟩
  | cons a as ih =>
    rw [List.mapM_cons, bind_eq_ok, List.forall_mem_cons, List.filterMap_cons]
    constructor
    · rintro ⟨b, hb, h⟩
      obtain ⟨bs, hbs, h⟩ := bind_eq_ok.mp h
      obtain ⟨hall, rfl⟩ := ih.mp hbs
      cases h
      rw [hb]
      exact ⟨⟨rfl, hall⟩, rfl⟩
    · rintro ⟨⟨ha, hall⟩, hm⟩
      obtain ⟨b, hb⟩ := Option.isSome_iff_exists.mp ha
      rw [hb] at hm
      refine ⟨b, toOption_eq_some.mp hb, bind_eq_ok.mpr ⟨_, ih.mpr ⟨hall, rfl⟩, ?_⟩⟩
      rw [hm]
      rfl

/-- What was computed from every element gives the elements back. -/
theorem map_filterMap_eq {f : α → Option β} {g : β → α} {l : List α}
    (h : ∀ a ∈ l, ∃ b, f a = some b ∧ g b = a) : (l.filterMap f).map g = l := by
  induction l with
  | nil => rfl
  | cons a as ih =>
    obtain ⟨ha, has⟩ := List.forall_mem_cons.mp h
    obtain ⟨b, hb, hg⟩ := ha
    rw [List.filterMap_cons_some hb, List.map_cons, ih has, hg]

/-- A loop of checks that know their position passes when each one does at its position. -/
theorem checkFrom_eq_ok {check : Nat → α → Except ε Unit} {l : List α} {i : Nat} :
    checkFrom check i l = .ok () ↔ ∀ k a, l[k]? = some a → check (i + k) a = .ok () := by
  induction l generalizing i with
  | nil => simp [checkFrom]
  | cons a as ih =>
    simp only [checkFrom, check_bind_eq_ok, ih]
    refine ⟨fun ⟨h1, h2⟩ k b hk => ?_, fun h => ⟨?_, fun k b hk => ?_⟩⟩
    · cases k with
      | zero => simp only [List.getElem?_cons_zero, Option.some.injEq] at hk; exact hk ▸ h1
      | succ k =>
        have := h2 k b (by simpa using hk)
        rwa [show i + (k + 1) = i + 1 + k by omega]
    · exact h 0 a rfl
    · have := h (k + 1) b (by simpa using hk)
      rwa [show i + (k + 1) = i + 1 + k by omega] at this

end Lib.Check
