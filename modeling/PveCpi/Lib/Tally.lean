/-
# Tables of checked sums

A table has a 64-bit word under each key.  A claim adds a word under its key, and fails instead of
wrapping; a claim of nothing, or under a blank key, is passed over.  `Counts` relates a table to the
natural numbers it stands for, and the two rules of the module say that a list of claims goes
through exactly when every sum fits, and leaves the sums.  The order of the claims does not appear
in them.

A table of sums is what the code's loops fill: bytes under a storage, bytes under a failure domain.
The loops differ in what they add and in their order.  With `Counts` a loop is one equation over the
naturals, its failure is one inequality (`Counts.addAll_fits`), and two loops in different orders
are compared as sums.

`Counts` also says that an entry is never zero.  The code looks at whether a key is present, so a
table with a zero under a key would not be the table without it.
-/
import PveCpi.Lib.Bits
import Mathlib

namespace Lib.Tally

open Lib.Bits (addOr addOr_eq_ok)
open Lib.Check

variable {K ε : Type} [DecidableEq K]

abbrev Table (K : Type) := AList fun _ : K => UInt64

/-- Add a word under a key. -/
def add (blank : K → Bool) (e : ε) (m : Table K) (key : K) (value : UInt64) : Except ε (Table K) :=
  if blank key || value == 0 then .ok m
  else do
    let sum ← addOr e ((m.lookup key).getD 0) value
    .ok (m.insert key sum)

/-- The table stands for these numbers: a key without an entry for zero. -/
structure Counts (m : Table K) (f : K → Nat) : Prop where
  value : ∀ key, ((m.lookup key).getD 0).toNat = f key
  nonzero : ∀ key v, m.lookup key = some v → v ≠ 0

theorem Counts.empty : Counts (∅ : Table K) fun _ => 0 where
  value _ := rfl
  nonzero _ _ h := (by cases h)

/-- The numbers determine the table, as far as lookups can see. -/
theorem Counts.lookup_eq {m m' : Table K} {f : K → Nat} (h : Counts m f) (h' : Counts m' f)
    (key : K) : m.lookup key = m'.lookup key := by
  have hv := (h.value key).trans (h'.value key).symm
  cases hm : m.lookup key with
  | none =>
    cases hm' : m'.lookup key with
    | none => rfl
    | some v =>
      rw [hm, hm'] at hv
      exact absurd (UInt64.toNat_inj.mp hv).symm (h'.nonzero key v hm')
  | some v =>
    cases hm' : m'.lookup key with
    | none =>
      rw [hm, hm'] at hv
      exact absurd (UInt64.toNat_inj.mp hv) (h.nonzero key v hm)
    | some v' =>
      rw [hm, hm'] at hv
      exact congrArg some (UInt64.toNat_inj.mp hv)

/-- A number that is not zero has its entry. -/
theorem Counts.mem {m : Table K} {f : K → Nat} (h : Counts m f) (key : K) :
    key ∈ m ↔ f key ≠ 0 := by
  rw [← AList.lookup_isSome, ← h.value key]
  cases hm : m.lookup key with
  | none => simp
  | some v =>
    have := h.nonzero key v hm
    simpa [← UInt64.toNat_inj] using this

/-- The numbers with one claim added. -/
def claim (blank : K → Bool) (key : K) (n : Nat) (k : K) : Nat :=
  if !blank k ∧ k = key then n else 0

section Add

variable {blank : K → Bool} {e : ε} {m m' : Table K} {f : K → Nat} {key : K} {value : UInt64}

theorem claim_none (h : blank key = true ∨ value = 0) (k : K) :
    claim blank key value.toNat k = 0 := by
  unfold claim
  split
  · rename_i hk
    rcases h with h | h
    · rw [hk.2, h] at hk
      cases hk.1
    · rw [h]
      rfl
  · rfl

/-- **One claim that went through.**  The checked addition returned a sum that fits, so the word
under the key is the sum over the naturals; a claim of nothing has left the table as it was. -/
theorem Counts.added (h : Counts m f) (hadd : add blank e m key value = .ok m') :
    Counts m' fun k => f k + claim blank key value.toNat k := by
  unfold add at hadd
  split at hadd
  · rename_i hskip
    cases hadd
    have hnone : ∀ k, claim blank key value.toNat k = 0 := claim_none (by simpa using hskip)
    refine ⟨fun k => ?_, h.nonzero⟩
    rw [hnone, Nat.add_zero]
    exact h.value k
  · rename_i hskip
    obtain ⟨sum, hsum, hm'⟩ := bind_eq_ok.mp hadd
    cases hm'
    rw [addOr_eq_ok, h.value] at hsum
    simp only [Bool.or_eq_true, beq_iff_eq, not_or, Bool.not_eq_true] at hskip
    refine ⟨fun k => ?_, fun k v hv => ?_⟩
    · unfold claim
      by_cases hk : k = key
      · rw [hk, AList.lookup_insert, Option.getD_some, hsum, if_pos (by simp [hskip.1])]
      · rw [AList.lookup_insert_ne hk, if_neg (by simp [hk]), Nat.add_zero]
        exact h.value k
    · by_cases hk : k = key
      · rw [hk, AList.lookup_insert] at hv
        cases hv
        intro hzero
        have hv0 : value.toNat ≠ 0 := fun h0 => hskip.2 (UInt64.toNat_inj.mp h0)
        have : sum.toNat = 0 := by rw [hzero]; rfl
        omega
      · rw [AList.lookup_insert_ne hk] at hv
        exact h.nonzero k v hv

/-- **A claim goes through when its sum fits.**  The only failure is an overflow. -/
theorem Counts.add_fits (h : Counts m f)
    (hfits : f key + claim blank key value.toNat key < 2 ^ 64) :
    ∃ m', add blank e m key value = .ok m' := by
  unfold add
  split
  · exact ⟨m, rfl⟩
  · rename_i hskip
    simp only [Bool.or_eq_true, beq_iff_eq, not_or, Bool.not_eq_true] at hskip
    rw [claim, if_pos (by simp [hskip.1])] at hfits
    have hsum : addOr e ((m.lookup key).getD 0) value = .ok ((m.lookup key).getD 0 + value) := by
      rw [addOr_eq_ok, UInt64.toNat_add, h.value]
      exact Nat.mod_eq_of_lt hfits
    rw [hsum]
    exact ⟨_, rfl⟩

end Add

/-! ## Lists of claims

The order of a list does not enter `claims`, so neither the success of `addAll` nor its result, as
far as lookups can see, depends on it. -/

def addAll (blank : K → Bool) (e : ε) : Table K → List (K × UInt64) → Except ε (Table K)
  | m, [] => .ok m
  | m, (key, value) :: claims => do
    let m ← add blank e m key value
    addAll blank e m claims

/-- What a list of claims adds under a key. -/
def claims (blank : K → Bool) (l : List (K × UInt64)) (k : K) : Nat :=
  (l.map fun p => claim blank p.1 p.2.toNat k).sum

theorem claims_append (blank : K → Bool) (l l' : List (K × UInt64)) (k : K) :
    claims blank (l ++ l') k = claims blank l k + claims blank l' k := by
  simp [claims]

/-- Adding a list of claims adds, for each key, the sum of its claims. -/
theorem Counts.addedAll {blank : K → Bool} {e : ε} {l : List (K × UInt64)} : ∀ {m m' : Table K}
    {f : K → Nat}, Counts m f → addAll blank e m l = .ok m' →
    Counts m' fun k => f k + claims blank l k := by
  induction l with
  | nil =>
    intro m m' f h hadd
    cases hadd
    exact h
  | cons p l ih =>
    intro m m' f h hadd
    obtain ⟨t, ht, hrest⟩ := bind_eq_ok.mp hadd
    have := ih (h.added ht) hrest
    refine ⟨fun k => ?_, this.nonzero⟩
    rw [this.value k]
    simp only [claims, List.map_cons, List.sum_cons, Nat.add_assoc]

/-- If every sum fits a word, adding the claims does not fail. -/
theorem Counts.addAll_fits {l : List (K × UInt64)} {m : Table K} {f : K → Nat} (h : Counts m f)
    (blank : K → Bool) (e : ε) (hfits : ∀ k, f k + claims blank l k < 2 ^ 64) :
    ∃ m', addAll blank e m l = .ok m' := by
  induction l generalizing m f with
  | nil => exact ⟨_, rfl⟩
  | cons p l ih =>
    have hsum : ∀ k, f k + claim blank p.1 p.2.toNat k + claims blank l k < 2 ^ 64 := by
      intro k
      have := hfits k
      simp only [claims, List.map_cons, List.sum_cons] at this ⊢
      omega
    obtain ⟨t, ht⟩ := h.add_fits (e := e) (Nat.lt_of_le_of_lt (Nat.le_add_right _ _) (hsum p.1))
    obtain ⟨m', hm'⟩ := ih (h.added ht) hsum
    refine ⟨m', ?_⟩
    show (add blank e m p.1 p.2 >>= fun m => addAll blank e m l) = .ok m'
    rw [ht]
    exact hm'

/-! ## Sums over a table

A sum over the entries of a map, in which one key counts, is found by a lookup. -/

theorem entries_perm {V : Type} {m : AList fun _ : K => V} {key : K} {v : V}
    (h : m.lookup key = some v) : m.entries.Perm (⟨key, v⟩ :: m.entries.kerase key) := by
  have hmem : key ∈ m.entries.keys := AList.lookup_isSome.mp (by rw [h]; rfl)
  obtain ⟨v', l₁, l₂, -, heq, herase⟩ := List.exists_of_kerase hmem
  have hv : v' = v := by
    have hin : (⟨key, v'⟩ : Sigma fun _ : K => V) ∈ m.entries := by
      rw [heq]
      exact List.mem_append_right _ List.mem_cons_self
    exact Option.some.inj ((List.mem_dlookup m.nodupKeys hin).symm.trans h)
  rw [herase, heq, hv]
  exact List.perm_middle

/-- A sum in which one key counts is its entry. -/
theorem sum_entries {V : Type} (m : AList fun _ : K => V) (g : (Sigma fun _ : K => V) → Nat)
    (key : K) (hother : ∀ entry ∈ m.entries, entry.1 ≠ key → g entry = 0) :
    (m.entries.map g).sum = (m.lookup key).elim 0 fun v => g ⟨key, v⟩ := by
  have hzero : ∀ l : List (Sigma fun _ : K => V), (∀ entry ∈ l, g entry = 0) →
      (l.map g).sum = 0 := by
    intro l hl
    exact List.sum_eq_zero fun n hn => by
      obtain ⟨entry, hentry, rfl⟩ := List.mem_map.mp hn
      exact hl entry hentry
  cases hm : m.lookup key with
  | none =>
    refine hzero _ fun entry hentry => hother entry hentry fun hkey => ?_
    rw [← hkey, AList.mem_lookup_iff.mpr hentry] at hm
    cases hm
  | some v =>
    rw [((entries_perm hm).map g).sum_eq, List.map_cons, List.sum_cons, hzero, Nat.add_zero]
    · rfl
    · intro entry hentry
      refine hother entry (List.kerase_sublist _ _ |>.mem hentry) fun hkey => ?_
      have hkeys : key ∈ (m.entries.kerase key).keys := by
        rw [← hkey]
        exact List.mem_map.mpr ⟨entry, hkey ▸ hentry, rfl⟩
      exact List.notMem_keys_kerase key m.nodupKeys hkeys

end Lib.Tally
