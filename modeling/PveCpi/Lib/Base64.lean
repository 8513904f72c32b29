/-
# Base64 for URLs, without padding

Three bytes are written as four digits of six bits; one or two bytes at the end as two or three.
The decoder skips line breaks, refuses every other character that is not a digit and a single
digit at the end, and ignores the bits that the last digit has left over.

* `decode_encode`: what is encoded decodes to what it was;
* `length_encode`: the length of the encoding depends on the length alone, and grows with it.

The decoder is not strict, as in Go: `decode` accepts texts that `encode` never writes, so there is
no law in the other direction, and the code that needs one compares the decoded value with a fresh
encoding.  What the identifiers of this development need is the direction stated here, and that the
length is a function of the length alone: a bound on the encoded text is then a bound on what was
encoded.

The proof splits the work in two.  Between bytes and digits stands arithmetic: each byte is spread
over two digits, and `first_byte`, `second_byte` and `third_byte` put it together again.  Between
digits and characters stands a table of 64 entries without repetition (`value_digit`).
-/
import Mathlib.Data.List.Basic
import Mathlib.Data.List.Monad
import Mathlib.Tactic.Cases

namespace Lib.Base64

/-! ## 1. Digits of six bits

The three lemmas about one byte are where the divisions by powers of two are done; the induction
over the byte string takes three bytes at a time and only cites them. -/

/-- The digits of a byte string. -/
def sextets : List UInt8 → List Nat
  | [] => []
  | [x] => [x.toNat / 4, x.toNat % 4 * 16]
  | [x, y] => [x.toNat / 4, x.toNat % 4 * 16 + y.toNat / 16, y.toNat % 16 * 4]
  | x :: y :: z :: bs =>
    x.toNat / 4 :: (x.toNat % 4 * 16 + y.toNat / 16) :: (y.toNat % 16 * 4 + z.toNat / 64) ::
      z.toNat % 64 :: sextets bs

/-- The bytes that a run of digits stands for. -/
def octets : List Nat → Option (List UInt8)
  | [] => some []
  | [_] => none
  | [a, b] => some [UInt8.ofNat (a * 4 + b / 16)]
  | [a, b, c] => some [UInt8.ofNat (a * 4 + b / 16), UInt8.ofNat (b % 16 * 16 + c / 4)]
  | a :: b :: c :: d :: ds =>
    (octets ds).map fun bs =>
      UInt8.ofNat (a * 4 + b / 16) :: UInt8.ofNat (b % 16 * 16 + c / 4) ::
        UInt8.ofNat (c % 4 * 64 + d) :: bs

theorem first_byte (x : UInt8) {y : Nat} (hy : y < 16) :
    UInt8.ofNat (x.toNat / 4 * 4 + (x.toNat % 4 * 16 + y) / 16) = x := by
  have h : x.toNat / 4 * 4 + (x.toNat % 4 * 16 + y) / 16 = x.toNat := by omega
  rw [h, UInt8.ofNat_toNat]

theorem second_byte {x : Nat} (y : UInt8) {z : Nat} (hz : z < 4) :
    UInt8.ofNat ((x % 4 * 16 + y.toNat / 16) % 16 * 16 + (y.toNat % 16 * 4 + z) / 4) = y := by
  have hy : y.toNat < 256 := y.toNat_lt
  have h : (x % 4 * 16 + y.toNat / 16) % 16 * 16 + (y.toNat % 16 * 4 + z) / 4 = y.toNat := by
    omega
  rw [h, UInt8.ofNat_toNat]

theorem third_byte {y : Nat} (z : UInt8) :
    UInt8.ofNat ((y % 16 * 4 + z.toNat / 64) % 4 * 64 + z.toNat % 64) = z := by
  have hz : z.toNat < 256 := z.toNat_lt
  have h : (y % 16 * 4 + z.toNat / 64) % 4 * 64 + z.toNat % 64 = z.toNat := by omega
  rw [h, UInt8.ofNat_toNat]

/-- The digits of a byte string stand for it.  The induction takes three bytes at a time; a rest of
one or two bytes leaves bits in the last digit that the reader drops. -/
theorem octets_sextets (bs : List UInt8) : octets (sextets bs) = some bs := by
  fun_induction sextets bs with
  | case1 => rfl
  | case2 x =>
    have h := first_byte x (y := 0) (by decide)
    rw [Nat.add_zero] at h
    rw [octets, h]
  | case3 x y =>
    have hy : y.toNat < 256 := y.toNat_lt
    have h₁ := first_byte x (y := y.toNat / 16) (by omega)
    have h₂ := second_byte (x := x.toNat) y (z := 0) (by decide)
    rw [Nat.add_zero] at h₂
    rw [octets, h₁, h₂]
  | case4 x y z bs ih =>
    have hy : y.toNat < 256 := y.toNat_lt
    have hz : z.toNat < 256 := z.toNat_lt
    have h₁ := first_byte x (y := y.toNat / 16) (by omega)
    have h₂ := second_byte (x := x.toNat) y (z := z.toNat / 64) (by omega)
    have h₃ := third_byte (y := y.toNat) z
    rw [octets, ih, Option.map_some, h₁, h₂, h₃]

/-- Every group of six bits is a number below 64, so the alphabet has a letter for it. -/
theorem sextets_lt (bs : List UInt8) : ∀ n ∈ sextets bs, n < 64 := by
  fun_induction sextets bs with
  | case1 => simp
  | case2 x =>
    have hx : x.toNat < 256 := x.toNat_lt
    intro n hn
    simp only [List.mem_cons, List.not_mem_nil, or_false] at hn
    omega
  | case3 x y =>
    have hx : x.toNat < 256 := x.toNat_lt
    have hy : y.toNat < 256 := y.toNat_lt
    intro n hn
    simp only [List.mem_cons, List.not_mem_nil, or_false] at hn
    omega
  | case4 x y z bs ih =>
    have hx : x.toNat < 256 := x.toNat_lt
    have hy : y.toNat < 256 := y.toNat_lt
    have hz : z.toNat < 256 := z.toNat_lt
    intro n hn
    simp only [List.mem_cons] at hn
    rcases hn with rfl | rfl | rfl | rfl | hn
    · omega
    · omega
    · omega
    · omega
    · exact ih n hn

theorem length_sextets (bs : List UInt8) : (sextets bs).length = (bs.length * 4 + 2) / 3 := by
  fun_induction sextets bs with
  | case1 => rfl
  | case2 x => simp
  | case3 x y => simp
  | case4 x y z bs ih =>
    simp only [List.length_cons, ih]
    omega

/-! ## 2. The alphabet

No digit is a line break (`isBreak_digit`), so the decoder skips nothing of what the encoder
wrote. -/

/-- The digits of `base64.RawURLEncoding`, in order. -/
def alphabet : List UInt8 :=
  (List.range 26).map (fun i => UInt8.ofNat (65 + i)) ++
  (List.range 26).map (fun i => UInt8.ofNat (97 + i)) ++
  (List.range 10).map (fun i => UInt8.ofNat (48 + i)) ++ [45, 95]

/-- The character of a digit. -/
def digit (n : Nat) : UInt8 := alphabet.getD n 0

/-- The digit of a character. -/
def value (b : UInt8) : Option Nat := alphabet.idxOf? b

/-- The characters the decoder skips. -/
def isBreak (b : UInt8) : Bool := b == 10 || b == 13

theorem value_digit {n : Nat} (h : n < 64) : value (digit n) = some n := by
  have hall : ∀ i : Fin 64, value (digit i) = some (i : Nat) := by decide
  exact hall ⟨n, h⟩

theorem isBreak_digit {n : Nat} (h : n < 64) : isBreak (digit n) = false := by
  have hall : ∀ i : Fin 64, isBreak (digit i) = false := by decide
  exact hall ⟨n, h⟩

/-! ## 3. The codec -/

/-- `EncodeToString`. -/
def encode (bs : List UInt8) : List UInt8 := (sextets bs).map digit

/-- `DecodeString`. -/
def decode (cs : List UInt8) : Option (List UInt8) :=
  ((cs.filter fun b => !isBreak b).mapM value).bind octets

theorem mapM_value_digits {ns : List Nat} (h : ∀ n ∈ ns, n < 64) :
    (ns.map digit).mapM value = some ns := by
  induction ns with
  | nil => rfl
  | cons n ns ih =>
    have hn := value_digit (h n (List.mem_cons_self ..))
    have hns := ih fun m hm => h m (List.mem_cons_of_mem _ hm)
    rw [List.map_cons, List.mapM_cons, hn, hns]
    rfl

/-- **What is encoded decodes to what it was.**  Every character of the encoding is a digit, so
nothing is skipped and the digits come back as they were; then `octets_sextets`. -/
@[simp] theorem decode_encode (bs : List UInt8) : decode (encode bs) = some bs := by
  have hlt := sextets_lt bs
  have hbreaks : (encode bs).filter (fun b => !isBreak b) = encode bs := by
    rw [List.filter_eq_self]
    intro b hb
    obtain ⟨n, hn, rfl⟩ := List.mem_map.mp hb
    rw [isBreak_digit (hlt n hn)]
    rfl
  unfold decode
  rw [hbreaks, encode, mapM_value_digits hlt, Option.bind_some, octets_sextets]

/-- Four digits for three bytes, rounded up: the length depends on the length alone. -/
theorem length_encode (bs : List UInt8) : (encode bs).length = (bs.length * 4 + 2) / 3 := by
  rw [encode, List.length_map, length_sextets]

theorem encode_ne_nil {bs : List UInt8} (h : bs ≠ []) : encode bs ≠ [] := by
  intro hnil
  have hlen := length_encode bs
  rw [hnil, List.length_nil] at hlen
  have hpos := List.length_pos_iff.mpr h
  omega

end Lib.Base64
