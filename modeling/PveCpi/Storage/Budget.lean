/-
# Capacity budgets

The arithmetic of admission, from `storageplacement/types.go` and the first part of
`storageinventory/ledger.go`: a reserve and a utilization ceiling limit what an observed capacity
may still take, limits of several roles combine to the strictest, and `project` admits a charge
when it fits.  Byte counts are 64-bit words; `usableBytes` states over the naturals what fits.

An error of the source is a value of `BudgetErr`: one constructor for each message, with what the
message prints.

## Two readings of one computation

The source computes with words, in an order that avoids overflow, and divides a 128-bit product; a
reader of the policy thinks of percent and of bytes that are left.  `CapacityBudget.Admissible` and
`BudgetProjection.Exact` are the second reading, over the naturals and without a division that
rounds.  `projectBudget_eq_ok` says that the two are the same, in both directions: nothing is
admitted that does not fit, and nothing that fits is refused.

* §2  Limits form a semilattice under `meet`, so the strictest limits of a set depend neither on the
  order nor on repetitions.
* §3  `usableBytes`, monotone in the limits.
* §4-5  Admission: the ceiling first, the only place where a division can overflow.
* §6  Ratios are compared by cross products of two words each, which is exact.
-/
import PveCpi.Lib.Bits
import Mathlib.Data.Rat.Cast.Order
import Mathlib.Algebra.Order.Field.Basic

namespace Storage

open Lib.Check
open Lib.Bits (add64 mul64 div64 addOr div64_eq_some div64_isSome mul64_toNat exists_toNat)

/-! ## 1. Errors -/

inductive BudgetErr where
  /-- "invalid utilization ceiling" of a limit, and of a budget. -/
  | ceiling (pct : Int)
  | byteSum
  | byteProduct
  | alignment
  /-- "invalid total/available capacity". -/
  | capacity (total available : UInt64)
  /-- "capacity charges overflow". -/
  | charges
  /-- "reserve exceeds available capacity". -/
  | reserve
  /-- "current utilization exceeds ceiling". -/
  | utilization
  /-- "capacity charges exceed usable bytes". -/
  | exceeds (charges usable : UInt64)
  /-- A run-time panic of `bits.Div64`. -/
  | panic
  deriving DecidableEq, Repr

/-! ## 2. Limits

A reserve of several is the largest, a ceiling the smallest; a ceiling of zero is no ceiling. -/

/-- A reserve and a ceiling; a zero ceiling is no limit. -/
structure Limits where
  reserveBytes : UInt64 := 0
  maxUtilizationPct : Int := 0
  deriving DecidableEq, Repr

/-- One round of the loop of `CombineLimits`: the larger reserve, the smaller nonzero ceiling. -/
def Limits.meet (result limit : Limits) : Limits where
  reserveBytes := max result.reserveBytes limit.reserveBytes
  maxUtilizationPct :=
    if limit.maxUtilizationPct ≠ 0 ∧
        (result.maxUtilizationPct = 0 ∨ limit.maxUtilizationPct < result.maxUtilizationPct) then
      limit.maxUtilizationPct
    else result.maxUtilizationPct

/-- A ceiling is a percentage. -/
def Limits.Valid (l : Limits) : Prop := 0 ≤ l.maxUtilizationPct ∧ l.maxUtilizationPct ≤ 100

instance (l : Limits) : Decidable l.Valid :=
  inferInstanceAs (Decidable (0 ≤ l.maxUtilizationPct ∧ l.maxUtilizationPct ≤ 100))

def combineLimits (limits : List Limits) : Except BudgetErr Limits :=
  limits.foldlM (fun result limit => do
    refuse (decide (limit.maxUtilizationPct < 0 ∨ 100 < limit.maxUtilizationPct))
      (.ceiling limit.maxUtilizationPct)
    pure (result.meet limit)) {}

/-- The strictest of some limits. -/
def strictest (limits : List Limits) : Limits := limits.foldl Limits.meet {}

theorem toNat_max (a b : UInt64) : (max a b).toNat = max a.toNat b.toNat := by
  rw [show max a b = if a ≤ b then b else a from rfl]
  split_ifs with h
  · rw [UInt64.le_iff_toNat_le] at h
    omega
  · rw [UInt64.le_iff_toNat_le] at h
    omega

theorem toNat_min (a b : UInt64) : (min a b).toNat = min a.toNat b.toNat := by
  rw [show min a b = if a ≤ b then a else b from rfl]
  split_ifs with h
  · rw [UInt64.le_iff_toNat_le] at h
    omega
  · rw [UInt64.le_iff_toNat_le] at h
    omega

namespace Limits

theorem ext_iff' {a b : Limits} : a = b ↔ a.reserveBytes.toNat = b.reserveBytes.toNat ∧
    a.maxUtilizationPct = b.maxUtilizationPct := by
  cases a
  cases b
  simp only [Limits.mk.injEq, UInt64.toNat_inj]

@[simp] theorem zero_meet (a : Limits) : Limits.meet {} a = a := by
  rw [ext_iff']
  simp only [meet, toNat_max]
  refine ⟨by simp, ?_⟩
  split_ifs with h
  · rfl
  · simp only [ne_eq, true_or, and_true, not_not] at h
    exact h.symm

theorem meet_comm (a b : Limits) : a.meet b = b.meet a := by
  rw [ext_iff']
  simp only [meet, toNat_max]
  refine ⟨Nat.max_comm _ _, ?_⟩
  split_ifs <;> omega

theorem meet_assoc (a b c : Limits) : (a.meet b).meet c = a.meet (b.meet c) := by
  rw [ext_iff']
  simp only [meet, toNat_max]
  refine ⟨Nat.max_assoc _ _ _, ?_⟩
  split_ifs <;> omega

end Limits

theorem foldl_meet (limits : List Limits) (a : Limits) :
    limits.foldl Limits.meet a = a.meet (strictest limits) := by
  induction limits generalizing a with
  | nil => simp [strictest, Limits.meet_comm a]
  | cons l ls ih =>
    simp only [List.foldl_cons, strictest]
    rw [ih (a.meet l), ih (Limits.meet {} l), Limits.zero_meet, Limits.meet_assoc]

@[simp] theorem strictest_nil : strictest [] = {} := rfl

@[simp] theorem strictest_cons (l : Limits) (ls : List Limits) :
    strictest (l :: ls) = l.meet (strictest ls) := by
  rw [strictest, List.foldl_cons, foldl_meet, Limits.zero_meet]

/-- The strictest limits do not depend on the order. -/
theorem strictest_perm {l l' : List Limits} (h : l.Perm l') : strictest l = strictest l' := by
  induction h with
  | nil => rfl
  | cons x _ ih => simp only [strictest_cons, ih]
  | swap x y l =>
    simp only [strictest_cons, ← Limits.meet_assoc, Limits.meet_comm x y]
  | trans _ _ ih₁ ih₂ => exact ih₁.trans ih₂

theorem meet_self (a : Limits) : a.meet a = a := by
  rw [Limits.ext_iff']
  simp only [Limits.meet, toNat_max]
  refine ⟨Nat.max_self _, ?_⟩
  split_ifs <;> rfl

/-- A limit that was counted is not counted twice. -/
theorem meet_strictest_of_mem {a : Limits} {l : List Limits} (h : a ∈ l) :
    a.meet (strictest l) = strictest l := by
  induction l with
  | nil => cases h
  | cons b bs ih =>
    rw [strictest_cons]
    rcases List.mem_cons.mp h with rfl | h
    · rw [← Limits.meet_assoc, meet_self]
    · rw [← Limits.meet_assoc, Limits.meet_comm a, Limits.meet_assoc, ih h]

theorem Limits.Valid.meet {a b : Limits} (ha : a.Valid) (hb : b.Valid) : (a.meet b).Valid := by
  unfold Limits.Valid Limits.meet at *
  dsimp only
  split_ifs
  · exact hb
  · exact ha

theorem strictest_valid {l : List Limits} (h : ∀ a ∈ l, a.Valid) : (strictest l).Valid := by
  induction l with
  | nil => decide
  | cons a as ih =>
    rw [strictest_cons]
    exact (h a List.mem_cons_self).meet (ih fun b hb => h b (List.mem_cons_of_mem _ hb))

/-- Limits are combined when each is valid, and to the strictest of them. -/
theorem combineLimits_eq_ok {limits : List Limits} {r : Limits} :
    combineLimits limits = .ok r ↔ (∀ l ∈ limits, l.Valid) ∧ r = strictest limits := by
  unfold combineLimits strictest
  generalize ({} : Limits) = a
  induction limits generalizing a with
  | nil =>
    rw [List.foldlM_nil, pure_eq_ok, List.foldl_nil, eq_comm]
    simp
  | cons l ls ih =>
    rw [List.foldlM_cons, bind_eq_ok, List.forall_mem_cons, List.foldl_cons]
    constructor
    · rintro ⟨b, hb, hr⟩
      rw [check_bind_eq_ok, refuse_eq_ok, decide_eq_false_iff_not, pure_eq_ok] at hb
      obtain ⟨hl, rfl⟩ := hb
      obtain ⟨hls, heq⟩ := (ih _).mp hr
      refine ⟨⟨⟨?_, ?_⟩, hls⟩, heq⟩
      · omega
      · omega
    · rintro ⟨⟨⟨h0, h100⟩, hls⟩, heq⟩
      refine ⟨_, ?_, (ih _).mpr ⟨hls, heq⟩⟩
      rw [check_bind_eq_ok, refuse_eq_ok, decide_eq_false_iff_not, pure_eq_ok]
      exact ⟨by omega, rfl⟩

@[simp] theorem combineLimits_one {a r : Limits} :
    combineLimits [a] = .ok r ↔ a.Valid ∧ r = a := by
  simp [combineLimits_eq_ok, Limits.meet_comm a]

@[simp] theorem combineLimits_two {a b r : Limits} :
    combineLimits [a, b] = .ok r ↔ (a.Valid ∧ b.Valid) ∧ r = a.meet b := by
  simp [combineLimits_eq_ok, Limits.meet_comm b]

/-! ## 3. What fits -/

/-- The bytes that may still be taken, over the naturals: what is available above the reserve, and
what keeps the utilization within the ceiling. -/
def usableBytes (total available : UInt64) (l : Limits) : Nat :=
  if l.maxUtilizationPct = 0 then available.toNat - l.reserveBytes.toNat
  else min (available.toNat - l.reserveBytes.toNat)
    (total.toNat * l.maxUtilizationPct.toNat / 100 - (total.toNat - available.toNat))

/-- Looser limits leave at least as much. -/
theorem usableBytes_meet_le (total available : UInt64) {a b : Limits} (ha : a.Valid)
    (hb : b.Valid) : usableBytes total available (a.meet b) ≤ usableBytes total available a := by
  obtain ⟨ha0, -⟩ := ha
  obtain ⟨hb0, -⟩ := hb
  have hceil : b.maxUtilizationPct ≤ a.maxUtilizationPct →
      total.toNat * b.maxUtilizationPct.toNat / 100 ≤
        total.toNat * a.maxUtilizationPct.toNat / 100 := by
    intro hle
    exact Nat.div_le_div_right (Nat.mul_le_mul_left _ (by omega))
  simp only [usableBytes, Limits.meet, toNat_max]
  split_ifs <;> omega

/-- The strictest of more limits leaves less. -/
theorem usableBytes_strictest_le (total available : UInt64) {l l' : List Limits}
    (hsub : ∀ a ∈ l, a ∈ l') (hvalid : ∀ a ∈ l', a.Valid) :
    usableBytes total available (strictest l') ≤ usableBytes total available (strictest l) := by
  have habsorb : (strictest l).meet (strictest l') = strictest l' := by
    clear hvalid
    induction l with
    | nil => simp
    | cons a as ih =>
      rw [strictest_cons, Limits.meet_assoc, ih fun b hb => hsub b (List.mem_cons_of_mem _ hb)]
      exact meet_strictest_of_mem (hsub a List.mem_cons_self)
  rw [← habsorb]
  exact usableBytes_meet_le total available (strictest_valid fun a ha => hvalid a (hsub a ha))
    (strictest_valid hvalid)

/-! ## 4. Admission

The ceiling in bytes is the total times a percentage over a hundred.  The product has two words and
the quotient one, because the percentage is at most a hundred; so `bits.Div64` does not panic. -/

/-- An observed capacity, the limits on it, and the charges. -/
structure CapacityBudget where
  totalBytes : UInt64 := 0
  availableBytes : UInt64 := 0
  reserveBytes : UInt64 := 0
  outstandingBytes : UInt64 := 0
  allocationBytes : UInt64 := 0
  maxUtilizationPct : Int := 0
  deriving DecidableEq, Repr

structure BudgetProjection where
  residualBytes : UInt64
  projectedUsedBytes : UInt64
  totalBytes : UInt64
  deriving DecidableEq, Repr

/-- The part of `project` that applies a ceiling to the bytes above the reserve. -/
def applyCeiling (b : CapacityBudget) (usable used : UInt64) : Except BudgetErr UInt64 :=
  if b.maxUtilizationPct = 0 then pure usable
  else
    let product := mul64 b.totalBytes (UInt64.ofNat b.maxUtilizationPct.toNat)
    match div64 product.1 product.2 100 with
    | none => .error .panic
    | some (ceiling, _) => do
      refuse (decide (ceiling < used)) .utilization
      pure (min usable (ceiling - used))

def projectBudget (b : CapacityBudget) : Except BudgetErr BudgetProjection := do
  refuse (decide (b.totalBytes = 0 ∨ b.totalBytes < b.availableBytes))
    (.capacity b.totalBytes b.availableBytes)
  refuse (decide (b.maxUtilizationPct < 0 ∨ 100 < b.maxUtilizationPct))
    (.ceiling b.maxUtilizationPct)
  let charges := add64 b.outstandingBytes b.allocationBytes
  refuse charges.2 .charges
  refuse (decide (b.availableBytes < b.reserveBytes)) .reserve
  let used := b.totalBytes - b.availableBytes
  let usable ← applyCeiling b (b.availableBytes - b.reserveBytes) used
  refuse (decide (usable < charges.1)) (.exceeds charges.1 usable)
  pure { residualBytes := usable - charges.1, projectedUsedBytes := used + charges.1,
         totalBytes := b.totalBytes }

/-- The limits of a budget. -/
def CapacityBudget.limits (b : CapacityBudget) : Limits := ⟨b.reserveBytes, b.maxUtilizationPct⟩

/-- The ceiling in bytes never overflows the division. -/
theorem ceiling_div64 (total : UInt64) {pct : Int} (hpct : 0 ≤ pct) (hmax : pct ≤ 100) :
    ∃ q r, div64 (mul64 total (UInt64.ofNat pct.toNat)).1 (mul64 total (UInt64.ofNat pct.toNat)).2
        100 = some (q, r) ∧ q.toNat = total.toNat * pct.toNat / 100 := by
  have hp : (UInt64.ofNat pct.toNat).toNat = pct.toNat := by
    rw [UInt64.toNat_ofNat', Nat.mod_eq_of_lt (by omega)]
  have hproduct := mul64_toNat total (UInt64.ofNat pct.toNat)
  rw [hp] at hproduct
  have h100 : (100 : UInt64).toNat = 100 := rfl
  have hbound : total.toNat * pct.toNat ≤ (2 ^ 64 - 1) * 100 :=
    Nat.mul_le_mul (by have := total.toNat_lt; omega) (by omega)
  have hhi : (mul64 total (UInt64.ofNat pct.toNat)).1 < 100 := by
    rw [UInt64.lt_iff_toNat_lt, h100]
    omega
  obtain ⟨⟨q, r⟩, hqr⟩ := Option.isSome_iff_exists.mp (div64_isSome (by decide) hhi)
  refine ⟨q, r, hqr, ?_⟩
  rw [div64_eq_some hqr, hproduct, h100]

/-- Exactly when a ceiling is kept, and what it leaves. -/
theorem applyCeiling_eq_ok {b : CapacityBudget} {usable used u : UInt64}
    (hpct : 0 ≤ b.maxUtilizationPct) (hmax : b.maxUtilizationPct ≤ 100) :
    applyCeiling b usable used = .ok u ↔
      (b.maxUtilizationPct ≠ 0 →
        used.toNat ≤ b.totalBytes.toNat * b.maxUtilizationPct.toNat / 100) ∧
      u.toNat = if b.maxUtilizationPct = 0 then usable.toNat
        else min usable.toNat
          (b.totalBytes.toNat * b.maxUtilizationPct.toNat / 100 - used.toNat) := by
  unfold applyCeiling
  split_ifs with hzero
  · rw [pure_eq_ok, ← UInt64.toNat_inj]
    exact ⟨fun h => ⟨fun hne => absurd hzero hne, h.symm⟩, fun h => h.2.symm⟩
  · obtain ⟨q, r, hqr, hq⟩ := ceiling_div64 b.totalBytes hpct hmax
    dsimp only
    rw [hqr]
    simp only [check_bind_eq_ok, refuse_eq_ok, decide_eq_false_iff_not, pure_eq_ok, UInt64.not_lt]
    rw [← UInt64.toNat_inj, toNat_min, UInt64.le_iff_toNat_le, hq]
    constructor
    · rintro ⟨hle, hu⟩
      rw [UInt64.toNat_sub_of_le _ _ (by rw [UInt64.le_iff_toNat_le, hq]; exact hle), hq] at hu
      exact ⟨fun _ => hle, hu.symm⟩
    · rintro ⟨hle, hu⟩
      rw [UInt64.toNat_sub_of_le _ _ (by rw [UInt64.le_iff_toNat_le, hq]; exact hle hzero), hq]
      exact ⟨hle hzero, hu.symm⟩

/-- The division cannot panic.  `Div64` does when the high word of the product is not below the
divisor, and a percentage of at most a hundred keeps it below. -/
theorem applyCeiling_ne_panic {b : CapacityBudget} {usable used : UInt64}
    (hpct : 0 ≤ b.maxUtilizationPct) (hmax : b.maxUtilizationPct ≤ 100) :
    applyCeiling b usable used ≠ .error .panic := by
  unfold applyCeiling
  split_ifs with hzero
  · intro h
    cases h
  · obtain ⟨q, r, hqr, -⟩ := ceiling_div64 b.totalBytes hpct hmax
    dsimp only
    rw [hqr]
    unfold refuse
    dsimp only
    split_ifs
    · intro h
      cases h
    · intro h
      cases h

/-! ## 5. Admission over the naturals -/

/-- What `project` asks of a budget. -/
structure CapacityBudget.Admissible (b : CapacityBudget) : Prop where
  total : 0 < b.totalBytes.toNat
  available : b.availableBytes.toNat ≤ b.totalBytes.toNat
  percentage : 0 ≤ b.maxUtilizationPct ∧ b.maxUtilizationPct ≤ 100
  charges : b.outstandingBytes.toNat + b.allocationBytes.toNat < 2 ^ 64
  reserve : b.reserveBytes.toNat ≤ b.availableBytes.toNat
  ceiling : b.maxUtilizationPct ≠ 0 → b.totalBytes.toNat - b.availableBytes.toNat ≤
    b.totalBytes.toNat * b.maxUtilizationPct.toNat / 100
  fits : b.outstandingBytes.toNat + b.allocationBytes.toNat ≤
    usableBytes b.totalBytes b.availableBytes b.limits

/-- The values of a projection, over the naturals. -/
structure BudgetProjection.Exact (p : BudgetProjection) (b : CapacityBudget) : Prop where
  residual : p.residualBytes.toNat = usableBytes b.totalBytes b.availableBytes b.limits -
    (b.outstandingBytes.toNat + b.allocationBytes.toNat)
  used : p.projectedUsedBytes.toNat = (b.totalBytes.toNat - b.availableBytes.toNat) +
    (b.outstandingBytes.toNat + b.allocationBytes.toNat)
  total : p.totalBytes.toNat = b.totalBytes.toNat

theorem BudgetProjection.Exact.unique {p q : BudgetProjection} {b : CapacityBudget}
    (hp : p.Exact b) (hq : q.Exact b) : p = q := by
  cases p
  cases q
  simp only [BudgetProjection.mk.injEq, ← UInt64.toNat_inj]
  exact ⟨hp.residual.trans hq.residual.symm, hp.used.trans hq.used.symm,
    hp.total.trans hq.total.symm⟩

theorem usableBytes_le (total available : UInt64) (l : Limits) :
    usableBytes total available l ≤ available.toNat := by
  unfold usableBytes
  split_ifs <;> omega

/-- Admission, and what it returns. -/
theorem projectBudget_sound {b : CapacityBudget} {p : BudgetProjection}
    (h : projectBudget b = .ok p) : b.Admissible ∧ p.Exact b := by
  unfold projectBudget at h
  simp only [check_bind_eq_ok, refuse_eq_ok, decide_eq_false_iff_not, not_or] at h
  obtain ⟨⟨htotal, hcap⟩, ⟨hneg, hmax⟩, hcarry, hreserve, h⟩ := h
  rw [bind_eq_ok] at h
  obtain ⟨u, hu, h⟩ := h
  rw [check_bind_eq_ok, refuse_eq_ok, decide_eq_false_iff_not, UInt64.not_lt, pure_eq_ok] at h
  obtain ⟨hle, rfl⟩ := h
  rw [UInt64.not_lt] at hcap hreserve
  obtain ⟨hceiling, hu⟩ := (applyCeiling_eq_ok (by omega) (by omega)).mp hu
  rw [UInt64.toNat_sub_of_le _ _ hcap] at hceiling hu
  rw [UInt64.toNat_sub_of_le _ _ hreserve] at hu
  have husable : u.toNat = usableBytes b.totalBytes b.availableBytes b.limits := hu
  have hcharges : b.outstandingBytes.toNat + b.allocationBytes.toNat < 2 ^ 64 := by
    simpa [add64] using hcarry
  have hsum : (add64 b.outstandingBytes b.allocationBytes).1.toNat =
      b.outstandingBytes.toNat + b.allocationBytes.toNat := by
    rw [show (add64 b.outstandingBytes b.allocationBytes).1 =
      b.outstandingBytes + b.allocationBytes from rfl, UInt64.toNat_add, Nat.mod_eq_of_lt hcharges]
  have hfits := hle
  rw [UInt64.le_iff_toNat_le, hsum, husable] at hfits
  have hroom := usableBytes_le b.totalBytes b.availableBytes b.limits
  have hbelow := b.totalBytes.toNat_lt
  rw [UInt64.le_iff_toNat_le] at hcap hreserve
  refine ⟨⟨?_, hcap, ⟨by omega, by omega⟩, hcharges, hreserve, hceiling, hfits⟩, ?_, ?_, rfl⟩
  · exact Nat.pos_of_ne_zero fun hzero => htotal (UInt64.toNat_inj.mp hzero)
  · dsimp only
    rw [UInt64.toNat_sub_of_le _ _ hle, hsum, husable]
  · dsimp only
    rw [UInt64.toNat_add, UInt64.toNat_sub_of_le _ _ (UInt64.le_iff_toNat_le.mpr hcap), hsum,
      Nat.mod_eq_of_lt (by omega)]

/-- Nothing else is asked. -/
theorem CapacityBudget.Admissible.projects {b : CapacityBudget} (h : b.Admissible) :
    ∃ p, projectBudget b = .ok p := by
  have hcap : b.availableBytes ≤ b.totalBytes := UInt64.le_iff_toNat_le.mpr h.available
  have hreserve : b.reserveBytes ≤ b.availableBytes := UInt64.le_iff_toNat_le.mpr h.reserve
  have htotal : b.totalBytes ≠ 0 := fun hzero => by
    have := h.total
    rw [hzero] at this
    exact Nat.lt_irrefl 0 this
  have hpct := h.percentage
  have hroom := usableBytes_le b.totalBytes b.availableBytes b.limits
  have hword := b.availableBytes.toNat_lt
  obtain ⟨u, hu⟩ := exists_toNat (lt_of_le_of_lt hroom hword)
  have happly : applyCeiling b (b.availableBytes - b.reserveBytes)
      (b.totalBytes - b.availableBytes) = .ok u := by
    rw [applyCeiling_eq_ok hpct.1 hpct.2, UInt64.toNat_sub_of_le _ _ hcap,
      UInt64.toNat_sub_of_le _ _ hreserve]
    exact ⟨h.ceiling, hu⟩
  have hcarry : (add64 b.outstandingBytes b.allocationBytes).2 = false := by
    simpa [add64] using h.charges
  have hle : ¬ u < (add64 b.outstandingBytes b.allocationBytes).1 := by
    rw [UInt64.not_lt, UInt64.le_iff_toNat_le, hu,
      show (add64 b.outstandingBytes b.allocationBytes).1 =
      b.outstandingBytes + b.allocationBytes from rfl, UInt64.toNat_add, Nat.mod_eq_of_lt h.charges]
    exact h.fits
  refine ⟨⟨u - (add64 b.outstandingBytes b.allocationBytes).1, b.totalBytes - b.availableBytes +
    (add64 b.outstandingBytes b.allocationBytes).1, b.totalBytes⟩, ?_⟩
  unfold projectBudget
  simp only [check_bind_eq_ok, refuse_eq_ok, decide_eq_false_iff_not, not_or, UInt64.not_lt]
  refine ⟨⟨htotal, hcap⟩, ⟨by omega, by omega⟩, hcarry, hreserve, bind_eq_ok.mpr ⟨u, happly, ?_⟩⟩
  rw [check_bind_eq_ok, refuse_eq_ok, decide_eq_false_iff_not]
  exact ⟨hle, rfl⟩

/-- **Admission in closed form.**  The conjunction of the checks is the admissibility, and the words
that are returned are the naturals they stand for. -/
theorem projectBudget_eq_ok {b : CapacityBudget} {p : BudgetProjection} :
    projectBudget b = .ok p ↔ b.Admissible ∧ p.Exact b := by
  constructor
  · exact projectBudget_sound
  · rintro ⟨hb, hp⟩
    obtain ⟨q, hq⟩ := hb.projects
    rw [hq, hp.unique (projectBudget_sound hq).2]

/-- **What is admitted fits**, over the naturals. -/
theorem projectBudget_fits {b : CapacityBudget} {p : BudgetProjection}
    (h : projectBudget b = .ok p) :
    b.outstandingBytes.toNat + b.allocationBytes.toNat ≤
      usableBytes b.totalBytes b.availableBytes b.limits :=
  (projectBudget_sound h).1.fits

theorem projectBudget_ne_panic (b : CapacityBudget) : projectBudget b ≠ .error .panic := by
  unfold projectBudget
  simp only [ne_eq, check_bind_eq_error, refuse_eq_error, refuse_eq_ok, reduceCtorEq, and_false,
    false_or, decide_eq_false_iff_not, not_or]
  rintro ⟨-, hpct, -, -, h⟩
  rcases bind_eq_error.mp h with h | ⟨u, -, h⟩
  · exact applyCeiling_ne_panic (by omega) (by omega) h
  · rcases check_bind_eq_error.mp h with h | ⟨-, h⟩
    · simp at h
    · cases h

/-! ## 6. Comparing utilizations

A utilization is a quotient, and the code never forms it. -/

/-- The comparison of two utilizations by the full products. -/
def compareRatio (a b : BudgetProjection) : Ordering :=
  let x := mul64 a.projectedUsedBytes b.totalBytes
  let y := mul64 b.projectedUsedBytes a.totalBytes
  if x.1 < y.1 ∨ x.1 = y.1 ∧ x.2 < y.2 then .lt
  else if y.1 < x.1 ∨ x.1 = y.1 ∧ y.2 < x.2 then .gt
  else .eq

/-- Two words in order are one number in order. -/
theorem words_lt {a b c d : UInt64} :
    (a < c ∨ a = c ∧ b < d) ↔ a.toNat * 2 ^ 64 + b.toNat < c.toNat * 2 ^ 64 + d.toNat := by
  have hb := b.toNat_lt
  have hd := d.toNat_lt
  rw [UInt64.lt_iff_toNat_lt, UInt64.lt_iff_toNat_lt, ← UInt64.toNat_inj]
  omega

theorem compareRatio_eq (a b : BudgetProjection) : compareRatio a b =
    compare (a.projectedUsedBytes.toNat * b.totalBytes.toNat)
      (b.projectedUsedBytes.toNat * a.totalBytes.toNat) := by
  unfold compareRatio
  dsimp only
  rw [← mul64_toNat a.projectedUsedBytes, ← mul64_toNat b.projectedUsedBytes]
  split_ifs with hlt hgt
  · exact (Nat.compare_eq_lt.mpr (words_lt.mp hlt)).symm
  · have hgt := words_lt.mp (hgt.imp_right (And.imp_left Eq.symm))
    exact (Nat.compare_eq_gt.mpr hgt).symm
  · have hge := mt words_lt.mpr hlt
    have hle := mt words_lt.mpr (mt (Or.imp_right (And.imp_left Eq.symm)) hgt)
    exact (Nat.compare_eq_eq.mpr (by omega)).symm

/-- The utilization as a rational number. -/
def BudgetProjection.ratio (p : BudgetProjection) : ℚ :=
  (p.projectedUsedBytes.toNat : ℚ) / (p.totalBytes.toNat : ℚ)

/-- The products decide the order of the utilizations. -/
theorem compareRatio_eq_compare {a b : BudgetProjection} (ha : 0 < a.totalBytes.toNat)
    (hb : 0 < b.totalBytes.toNat) : compareRatio a b = compare a.ratio b.ratio := by
  have ha' : (0 : ℚ) < (a.totalBytes.toNat : ℚ) := Nat.cast_pos.mpr ha
  have hb' : (0 : ℚ) < (b.totalBytes.toNat : ℚ) := Nat.cast_pos.mpr hb
  rw [compareRatio_eq]
  unfold BudgetProjection.ratio
  rcases lt_trichotomy (a.projectedUsedBytes.toNat * b.totalBytes.toNat)
    (b.projectedUsedBytes.toNat * a.totalBytes.toNat) with h | h | h
  · rw [Nat.compare_eq_lt.mpr h, eq_comm, compare_lt_iff_lt, div_lt_div_iff₀ ha' hb']
    exact_mod_cast h
  · rw [Nat.compare_eq_eq.mpr h, eq_comm, compare_eq_iff_eq, div_eq_div_iff ha'.ne' hb'.ne']
    exact_mod_cast h
  · rw [Nat.compare_eq_gt.mpr h, eq_comm, compare_gt_iff_gt, div_lt_div_iff₀ hb' ha']
    exact_mod_cast h

/-- **The capacity arithmetic is exact.**  `project` never panics; it succeeds exactly on the
admissible budgets, with the values over the naturals; and the comparison of two admitted
projections is the comparison of their utilizations.  Each of the three is a part of the closed
form; that a panic is excluded is a property of the ceiling alone. -/
theorem projectBudget_exact (b b' : CapacityBudget) :
    projectBudget b ≠ .error .panic ∧
    ((∃ p, projectBudget b = .ok p) ↔ b.Admissible) ∧
    (∀ p, projectBudget b = .ok p → p.Exact b) ∧
    ∀ p p', projectBudget b = .ok p → projectBudget b' = .ok p' →
      compareRatio p p' = compare p.ratio p'.ratio := by
  refine ⟨projectBudget_ne_panic b, ⟨?_, CapacityBudget.Admissible.projects⟩, ?_, ?_⟩
  · rintro ⟨p, hp⟩
    exact (projectBudget_sound hp).1
  · intro p hp
    exact (projectBudget_sound hp).2
  · intro p p' hp hp'
    obtain ⟨hb, hexact⟩ := projectBudget_sound hp
    obtain ⟨hb', hexact'⟩ := projectBudget_sound hp'
    exact compareRatio_eq_compare (hexact.total ▸ hb.total) (hexact'.total ▸ hb'.total)

theorem projectBudget_exact_sample :
    projectBudget ⟨100, 80, 5, 10, 20, 90⟩ = .ok ⟨40, 50, 100⟩ ∧
    BudgetProjection.Exact ⟨40, 50, 100⟩ ⟨100, 80, 5, 10, 20, 90⟩ := by
  have h : projectBudget ⟨100, 80, 5, 10, 20, 90⟩ = .ok ⟨40, 50, 100⟩ := by decide
  exact ⟨h, (projectBudget_exact ⟨100, 80, 5, 10, 20, 90⟩ {}).2.2.1 _ h⟩

end Storage
