/-
# Codes that tell where they end

A code whose words say themselves where they end can be written one word after another without a
separator: the words of a list are read back from the front, whatever follows (`flatMap_inj`).  A
length in front of the bytes is such a code.

It is what makes a preimage for a digest unambiguous.  Without a length two different lists can have
one concatenation, and a digest cannot tell what its input did not.  The bound is part of the
statement, because a length field of a fixed width repeats itself beyond it; a caller has to say why
its inputs are shorter.
-/
import Mathlib.Data.List.Basic

namespace Lib.Wire

variable {α β : Type}

/-- The words of `f` for the values in `P` are not empty, and tell where they end. -/
structure Delimits (f : α → List β) (P : α → Prop) : Prop where
  ne_nil : ∀ a, P a → f a ≠ []
  split : ∀ a b x y, P a → P b → f a ++ x = f b ++ y → a = b ∧ x = y

/-- **Lists are told apart by their words, also lists of different lengths.**  Two equal
concatenations start with words that delimit themselves, so the first words are equal and the rests
are; and no word is empty, so neither list ends before the other. -/
theorem Delimits.flatMap_inj {f : α → List β} {P : α → Prop} (hf : Delimits f P) {as bs : List α}
    (has : ∀ a ∈ as, P a) (hbs : ∀ b ∈ bs, P b) (h : as.flatMap f = bs.flatMap f) : as = bs := by
  induction as generalizing bs with
  | nil =>
    cases bs with
    | nil => rfl
    | cons b bs =>
      rw [List.flatMap_nil, List.flatMap_cons] at h
      exact absurd (List.append_eq_nil_iff.mp h.symm).1 (hf.ne_nil b (hbs b List.mem_cons_self))
  | cons a as ih =>
    cases bs with
    | nil =>
      rw [List.flatMap_nil, List.flatMap_cons] at h
      exact absurd (List.append_eq_nil_iff.mp h).1 (hf.ne_nil a (has a List.mem_cons_self))
    | cons b bs =>
      rw [List.flatMap_cons, List.flatMap_cons] at h
      obtain ⟨rfl, hrest⟩ :=
        hf.split a b _ _ (has a List.mem_cons_self) (hbs b List.mem_cons_self) h
      rw [ih (fun x hx => has x (List.mem_cons_of_mem _ hx))
        (fun x hx => hbs x (List.mem_cons_of_mem _ hx)) hrest]

/-- **A word in front of the bytes that gives their number.**  `size` has words of one length, and
tells the numbers below `bound` apart. -/
theorem delimits_sized {size : Nat → List β} {width bound : Nat}
    (hwidth : ∀ n, (size n).length = width)
    (hpos : 0 < width) (hsize : ∀ m n, m < bound → n < bound → size m = size n → m = n)
    {bytes : α → List β} (hbytes : ∀ a b, bytes a = bytes b → a = b) :
    Delimits (fun a => size (bytes a).length ++ bytes a) (fun a => (bytes a).length < bound) where
  ne_nil a _ hnil := by
    have hlen := hwidth (bytes a).length
    rw [(List.append_eq_nil_iff.mp hnil).1, List.length_nil] at hlen
    omega
  split a b x y ha hb h := by
    rw [List.append_assoc, List.append_assoc] at h
    obtain ⟨hsizes, hrest⟩ := List.append_inj h ((hwidth _).trans (hwidth _).symm)
    have hlen : (bytes a).length = (bytes b).length := hsize _ _ ha hb hsizes
    obtain ⟨hsame, htail⟩ := List.append_inj hrest hlen
    exact ⟨hbytes a b hsame, htail⟩

end Lib.Wire
