/-
# Numbers in decimal, as byte strings

What `strconv` prints and parses with base ten.  A number is printed without leading zeros, and a
printed number is read back (`parseInt_formatInt`).  The other direction needs the leading zeros
excluded: digits that start with another one are what their number prints as (`digits_number`).

The strings are lists of bytes, as the source's are, and a number is a natural or an integer; the
range of the machine type is a condition of `parseInt` alone.

* §1  One digit: `digitOf` and `digitValue` are inverse to each other below ten.
* §2  `number_digits` needs nothing.  `digits_number` excludes a leading zero, and a proof that two
  texts of one number are equal has to say why it may: the grammars that use this module refuse such
  texts by themselves.
* §3  `parseInt` accepts a sign, leading zeros and nothing else that `formatInt` does not print.
-/
import Mathlib.Data.Nat.Digits.Lemmas

namespace Lib.Decimal

/-! ## 1. Digits -/

def isDigit (b : UInt8) : Bool := decide (48 ≤ b.toNat) && decide (b.toNat ≤ 57)

def digitOf (d : Nat) : UInt8 := UInt8.ofNat (48 + d)

def digitValue (b : UInt8) : Nat := b.toNat - 48

/-- The digits of a number, the first one first. -/
def digits (n : Nat) : List UInt8 :=
  if n = 0 then [48] else ((Nat.digits 10 n).map digitOf).reverse

/-- The number that digits spell. -/
def number (s : List UInt8) : Nat := Nat.ofDigits 10 (s.map digitValue).reverse

theorem toNat_digitOf {d : Nat} (h : d < 10) : (digitOf d).toNat = 48 + d := by
  rw [digitOf, UInt8.toNat_ofNat']
  omega

theorem isDigit_digitOf {d : Nat} (h : d < 10) : isDigit (digitOf d) = true := by
  simp only [isDigit, toNat_digitOf h, Bool.and_eq_true, decide_eq_true_eq]
  omega

theorem digitValue_digitOf {d : Nat} (h : d < 10) : digitValue (digitOf d) = d := by
  rw [digitValue, toNat_digitOf h]
  omega

theorem digitOf_digitValue {b : UInt8} (h : isDigit b = true) : digitOf (digitValue b) = b := by
  simp only [isDigit, Bool.and_eq_true, decide_eq_true_eq] at h
  apply UInt8.toNat_inj.mp
  rw [digitOf, digitValue, UInt8.toNat_ofNat']
  omega

theorem digitValue_lt {b : UInt8} (h : isDigit b = true) : digitValue b < 10 := by
  simp only [isDigit, Bool.and_eq_true, decide_eq_true_eq] at h
  unfold digitValue
  omega

/-! ## 2. Numbers without a sign

Mathlib's `Nat.digits` has the last digit first, so every statement passes through a reversal. -/

theorem isDigit_of_mem_digits {n : Nat} {b : UInt8} (h : b ∈ digits n) : isDigit b = true := by
  unfold digits at h
  split at h
  · rw [List.mem_singleton.mp h]
    decide
  · obtain ⟨d, hd, rfl⟩ := List.mem_map.mp (List.mem_reverse.mp h)
    exact isDigit_digitOf (Nat.digits_lt_base (by decide) hd)

theorem digits_ne_nil (n : Nat) : digits n ≠ [] := by
  unfold digits
  split
  · simp
  · rename_i hn
    simpa using Nat.digits_ne_nil_iff_ne_zero.mpr hn

/-- **A number is read as it was printed.**  This is `Nat.ofDigits_digits`, once each printed digit
has been read back as itself. -/
@[simp] theorem number_digits (n : Nat) : number (digits n) = n := by
  unfold digits
  split
  · rename_i hn
    rw [hn]
    decide
  · have hmap : ((Nat.digits 10 n).map digitOf).map digitValue = Nat.digits 10 n := by
      rw [List.map_map]
      refine (List.map_congr_left fun d hd => ?_).trans (List.map_id _)
      exact digitValue_digitOf (Nat.digits_lt_base (by decide) hd)
    rw [number, List.map_reverse, hmap, List.reverse_reverse, Nat.ofDigits_digits]

/-- Digits without a leading zero spell a positive number. -/
theorem number_pos {b : UInt8} {s : List UInt8} (hb : isDigit b = true) (hzero : b ≠ 48) :
    0 < number (b :: s) := by
  have hvalue : digitValue b ≠ 0 := by
    intro h
    refine hzero ?_
    rw [← digitOf_digitValue hb, h]
    rfl
  rw [number, List.map_cons, List.reverse_cons, Nat.ofDigits_append, Nat.ofDigits_singleton]
  have hpow : 0 < 10 ^ (s.map digitValue).reverse.length := Nat.pow_pos (by decide)
  have hprod := Nat.mul_pos hpow (Nat.pos_of_ne_zero hvalue)
  omega

/-- **Digits without a leading zero are what their number prints as.**  Mathlib's law of this
direction asks that the last digit of the reversed list is not zero, and that is the first one
here. -/
theorem digits_number {b : UInt8} {s : List UInt8} (hall : ∀ d ∈ b :: s, isDigit d = true)
    (hzero : b ≠ 48) : digits (number (b :: s)) = b :: s := by
  have hb : isDigit b = true := hall b List.mem_cons_self
  have hpos := number_pos (s := s) hb hzero
  have hlast : ∀ h : ((b :: s).map digitValue).reverse ≠ [],
      ((b :: s).map digitValue).reverse.getLast h ≠ 0 := by
    intro h hvalue
    rw [List.getLast_reverse] at hvalue
    have hvalue : digitValue b = 0 := hvalue
    refine hzero ?_
    rw [← digitOf_digitValue hb, hvalue]
    rfl
  have hlt : ∀ d ∈ ((b :: s).map digitValue).reverse, d < 10 := by
    intro d hd
    obtain ⟨x, hx, rfl⟩ := List.mem_map.mp (List.mem_reverse.mp hd)
    exact digitValue_lt (hall x hx)
  have hmap : ((b :: s).map digitValue).map digitOf = b :: s := by
    rw [List.map_map]
    refine (List.map_congr_left fun d hd => ?_).trans (List.map_id _)
    exact digitOf_digitValue (hall d hd)
  rw [digits, if_neg (by omega), number, Nat.digits_ofDigits 10 (by decide) _ hlt hlast,
    List.map_reverse, List.reverse_reverse, hmap]

/-! ## 3. Numbers with a sign -/

/-- `strconv.FormatInt`. -/
def formatInt (n : Int) : List UInt8 := if n < 0 then 45 :: digits n.natAbs else digits n.natAbs

/-- The number of a string of digits. -/
def parseDigits (s : List UInt8) : Option Int :=
  if s.isEmpty || !s.all isDigit then none else some (number s)

/-- `strconv.ParseInt` for 64 bits, and `strconv.Atoi`. -/
def parseInt (s : List UInt8) : Option Int :=
  let value : Option Int :=
    match s with
    | 45 :: rest => (parseDigits rest).map fun n => -n
    | 43 :: rest => parseDigits rest
    | s => parseDigits s
  value.filter fun n => decide (-2 ^ 63 ≤ n) && decide (n < 2 ^ 63)

theorem parseDigits_digits (n : Nat) : parseDigits (digits n) = some (n : Int) := by
  have hne : (digits n).isEmpty = false := by simpa using digits_ne_nil n
  have hall : (digits n).all isDigit = true :=
    List.all_eq_true.mpr fun b hb => isDigit_of_mem_digits hb
  rw [parseDigits, hne, hall, number_digits]
  rfl

/-- Digits have no sign. -/
theorem parseInt_of_digits {s : List UInt8} (hall : ∀ d ∈ s, isDigit d = true) :
    parseInt s = (parseDigits s).filter fun n => decide (-2 ^ 63 ≤ n) && decide (n < 2 ^ 63) := by
  unfold parseInt
  split
  · exact absurd (hall 45 List.mem_cons_self) (by decide)
  · exact absurd (hall 43 List.mem_cons_self) (by decide)
  · rfl

/-- **A 64-bit number is read as it was printed.**  The sign is told from a digit by its byte, and
the bounds of the type are the only thing that the parser checks besides. -/
theorem parseInt_formatInt {n : Int} (hlow : -2 ^ 63 ≤ n) (hhigh : n < 2 ^ 63) :
    parseInt (formatInt n) = some n := by
  have hrange : (decide (-2 ^ 63 ≤ n) && decide (n < 2 ^ 63)) = true := by
    rw [decide_eq_true hlow, decide_eq_true hhigh]
    rfl
  unfold formatInt
  split
  · have habs : -(n.natAbs : Int) = n := by omega
    simp only [parseInt, parseDigits_digits, Option.map_some, habs]
    exact Option.filter_eq_some_iff.mpr ⟨rfl, hrange⟩
  · have habs : (n.natAbs : Int) = n := by omega
    rw [parseInt_of_digits fun d hd => isDigit_of_mem_digits hd, parseDigits_digits, habs]
    exact Option.filter_eq_some_iff.mpr ⟨rfl, hrange⟩

/-- What is printed is digits behind a sign at most. -/
theorem mem_formatInt {n : Int} {b : UInt8} (h : b ∈ formatInt n) : b = 45 ∨ isDigit b = true := by
  unfold formatInt at h
  split at h
  · rcases List.mem_cons.mp h with rfl | h
    · exact .inl rfl
    · exact .inr (isDigit_of_mem_digits h)
  · exact .inr (isDigit_of_mem_digits h)

end Lib.Decimal
