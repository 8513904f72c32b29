/-
# Unsigned 64-bit arithmetic that notices overflow

The three operations of Go's `math/bits` that compute with more than one word: an addition with
its carry, a product as two words, and the quotient of two words by one.  Each is described once
over the natural numbers.  On top of the first stands the checked sum: an accumulation that fails
at the first overflow is a sum over the naturals, so neither its success nor its value depends on
the order of the terms.

The statements go through `toNat` throughout.  In the model a wrapped sum is a legal value of
`UInt64`, as in Go, and only a statement over the naturals can tell a wrapped sum from a right one;
that is also what the code's own comments mean by a total.

* `mul64_toNat` and `div64_eq_some`: a product of two words and its quotient by one word are the
  product and the quotient of the naturals, so a ratio is compared without losing a bit;
* `addOr_eq_ok`: a checked addition succeeds exactly when the sum fits, and then returns it.  A fold
  of checked additions is then a sum, which `Lib.Tally` states for the sums under keys.
-/
import PveCpi.Lib.Check
import Mathlib

namespace Lib.Bits

variable {ε α : Type}

/-! ## 1. One step

`bits.Div64` panics when the divisor is zero or the quotient does not fit into a word.  The model
returns `none` there, and the callers show that they never get it. -/

/-- `bits.Add64` without a carry in: the sum and its carry. -/
def add64 (a b : UInt64) : UInt64 × Bool := (a + b, decide (2 ^ 64 ≤ a.toNat + b.toNat))

/-- `bits.Mul64`: the high and the low word of the product. -/
def mul64 (a b : UInt64) : UInt64 × UInt64 :=
  (UInt64.ofNat (a.toNat * b.toNat / 2 ^ 64), UInt64.ofNat (a.toNat * b.toNat))

/-- `bits.Div64`: quotient and remainder of two words by `y`; `none` where it panics. -/
def div64 (hi lo y : UInt64) : Option (UInt64 × UInt64) :=
  if y = 0 ∨ y ≤ hi then none
  else some (UInt64.ofNat ((hi.toNat * 2 ^ 64 + lo.toNat) / y.toNat),
    UInt64.ofNat ((hi.toNat * 2 ^ 64 + lo.toNat) % y.toNat))

theorem exists_toNat {n : Nat} (h : n < 2 ^ 64) : ∃ u : UInt64, u.toNat = n :=
  ⟨UInt64.ofNat n, by rw [UInt64.toNat_ofNat', Nat.mod_eq_of_lt h]⟩

/-- The two words are the product over the naturals. -/
theorem mul64_toNat (a b : UInt64) :
    (mul64 a b).1.toNat * 2 ^ 64 + (mul64 a b).2.toNat = a.toNat * b.toNat := by
  have ha := a.toNat_lt
  have hb := b.toNat_lt
  have hhi : a.toNat * b.toNat / 2 ^ 64 < 2 ^ 64 :=
    Nat.div_lt_of_lt_mul (Nat.mul_lt_mul'' ha hb)
  simp only [mul64, UInt64.toNat_ofNat']
  rw [Nat.mod_eq_of_lt hhi]
  exact Nat.div_add_mod' _ _

/-- A quotient exists when it fits into one word. -/
theorem div64_isSome {hi lo y : UInt64} (hy : y ≠ 0) (h : hi < y) : (div64 hi lo y).isSome := by
  rw [div64, if_neg (not_or.mpr ⟨hy, UInt64.not_le.mpr h⟩)]
  rfl

/-- The quotient is that of the naturals. -/
theorem div64_eq_some {hi lo y q r : UInt64} (h : div64 hi lo y = some (q, r)) :
    q.toNat = (hi.toNat * 2 ^ 64 + lo.toNat) / y.toNat := by
  unfold div64 at h
  split_ifs at h with hy
  rw [not_or, UInt64.not_le] at hy
  obtain ⟨_, hlt⟩ := hy
  rw [UInt64.lt_iff_toNat_lt] at hlt
  have hlo := lo.toNat_lt
  have hfit : (hi.toNat * 2 ^ 64 + lo.toNat) / y.toNat < 2 ^ 64 := by
    rw [Nat.div_lt_iff_lt_mul (by omega)]
    calc hi.toNat * 2 ^ 64 + lo.toNat < (hi.toNat + 1) * 2 ^ 64 := by omega
      _ ≤ y.toNat * 2 ^ 64 := Nat.mul_le_mul_right _ hlt
      _ = 2 ^ 64 * y.toNat := Nat.mul_comm _ _
  simp only [Option.some.injEq, Prod.mk.injEq] at h
  rw [← h.1, UInt64.toNat_ofNat', Nat.mod_eq_of_lt hfit]

/-! ## 2. The checked sum -/

/-- An addition that fails instead of wrapping. -/
def addOr (e : ε) (a b : UInt64) : Except ε UInt64 :=
  if (add64 a b).2 then .error e else .ok (add64 a b).1

/-- **A checked addition returns the sum over the naturals, or nothing.**  A carry is exactly a sum
of `2 ^ 64` or more, and without one the machine's sum is the sum. -/
@[simp] theorem addOr_eq_ok {e : ε} {a b c : UInt64} :
    addOr e a b = .ok c ↔ c.toNat = a.toNat + b.toNat := by
  have hc := c.toNat_lt
  simp only [addOr, add64, decide_eq_true_eq]
  split_ifs with h
  · constructor
    · intro hfalse
      cases hfalse
    · intro heq
      omega
  · rw [Except.ok.injEq]
    constructor
    · rintro rfl
      rw [UInt64.toNat_add]
      omega
    · intro heq
      apply UInt64.toNat_inj.mp
      rw [UInt64.toNat_add]
      omega

end Lib.Bits
