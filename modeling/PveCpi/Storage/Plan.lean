/-
# Allocation plans

The data of `storage_placement_plan.go`: the sources of a root disk, the target of one role, and the
plan that a record of the journal keeps.  A plan holds its charges twice over: ranking debits one
charge for the root disk, and `storagePlanExecutionCharges` splits it into the steps that execute
it.

The split subtracts and rounds 64-bit words without a check.  `Splits` is what it relies on, and
`Splits.exact` says that the portions are then exactly the charge.

Of a plan, the fingerprint of the policy and the compute part are left out: nothing here reads them.

The portions are the base image rounded up to whole GiB, the growth from there to the size of the
disk, and the auxiliary and scratch bytes of the source.  The rounding and the growth are computed
without a check, so both could wrap; `Splits` collects the comparisons that exclude it.  The planner
establishes `Splits` when it sizes a root disk (`Feasible.rootSizes_splits`), and nobody checks it
again.
-/
import PveCpi.Storage.Ranking

namespace Storage

open Lib.Check
open Lib.Bits (addOr addOr_eq_ok)

/-! ## 1. Data -/

def storageRoleRoot : String := "root"
def storageRoleEphemeral : String := "ephemeral"
def storageRolePersistent : String := "persistent"
def storageRoleISO : String := "iso"

/-- A disk that exists already. -/
structure StorageExistingVolume where
  storageID : String
  node : String
  volumeID : String := ""
  device : String := ""
  virtualBytes : UInt64 := 0
  deriving DecidableEq, Repr

/-- The source of a root disk; no template for a direct import. -/
structure StorageRootSource where
  node : String
  storageID : String
  volumeID : String
  templateVMID : Int := 0
  virtualBytes : UInt64
  scratchBytes : UInt64 := 0
  auxiliaryBytes : UInt64 := 0
  auxiliaryVolumes : List StorageExistingVolume := []
  deriving DecidableEq, Repr

/-- The destination of one role. -/
structure StoragePlanTarget where
  role : String
  node : String := ""
  storageID : String := ""
  backingKey : String := ""
  capacityKey : String := ""
  domainKey : String := ""
  mechanism : String := ""
  virtualBytes : UInt64 := 0
  chargeBytes : UInt64 := 0
  source : Option StorageRootSource := none
  observation : ObservationStamp := {}
  deriving DecidableEq, Repr

structure StorageAllocationPlan where
  version : Int := 1
  «namespace» : String := ""
  allocationKey : String := ""
  az : String := ""
  node : String := ""
  seed : BitVec 256 := 0
  haNodes : List String := []
  targets : List StoragePlanTarget := []
  charges : List ChargeRecord := []
  rankings : List RankedCandidate := []
  strategies : Map String Policy := ∅
  definitions : Map String StorageInfo := ∅
  capacityDomains : Map String (List String) := ∅
  rejections : List String := []
  group : String := ""

/-- `managedVMRoleTarget` of a plan. -/
def roleTarget (plan : StorageAllocationPlan) (role : String) : Option StoragePlanTarget :=
  plan.targets.find? fun t => t.role == role

/-! ## 2. Rounding

`roundUp` over the naturals is what the two rounding functions of the source compute when they do
not overflow. -/

/-- `1 << 30`. -/
def gib : UInt64 := 1073741824

def roundBytes (value alignment : UInt64) : Except BudgetErr UInt64 := do
  refuse (decide (alignment = 0)) .alignment
  if value % alignment ≠ 0 then addOr .byteSum value (alignment - value % alignment) else pure value

/-- The least multiple of a unit that is not below a number. -/
def roundUp (unit n : Nat) : Nat := (n + unit - 1) / unit * unit

theorem roundUp_of_dvd {unit n : Nat} (hu : 0 < unit) (h : n % unit = 0) : roundUp unit n = n := by
  obtain ⟨k, rfl⟩ := Nat.dvd_of_mod_eq_zero h
  unfold roundUp
  have hk : (unit * k + unit - 1) / unit = k := by
    rw [Nat.add_sub_assoc hu, Nat.mul_add_div hu, Nat.div_eq_of_lt (Nat.sub_lt hu Nat.one_pos),
      Nat.add_zero]
  rw [hk, Nat.mul_comm]

/-- Rounding up by adding what is missing. -/
theorem roundUp_of_not_dvd {unit n : Nat} (h : n % unit ≠ 0) (hu : 0 < unit) :
    roundUp unit n = n + (unit - n % unit) := by
  have hlt := Nat.mod_lt n hu
  have hdiv := Nat.div_add_mod n unit
  unfold roundUp
  have hq : (n + unit - 1) / unit = n / unit + 1 := by
    have heq : n + unit - 1 = unit * (n / unit + 1) + (n % unit - 1) := by
      rw [Nat.mul_add, Nat.mul_one]
      omega
    have hrest : (n % unit - 1) / unit = 0 :=
      Nat.div_eq_of_lt (Nat.lt_of_le_of_lt (Nat.sub_le _ _) hlt)
    rw [heq, Nat.mul_add_div hu, hrest, Nat.add_zero]
  rw [hq, Nat.add_mul, Nat.one_mul, Nat.mul_comm]
  omega

theorem roundUp_mono {unit a b : Nat} (h : a ≤ b) : roundUp unit a ≤ roundUp unit b :=
  Nat.mul_le_mul_right _ (Nat.div_le_div_right (by omega))

/-- Rounding that succeeds is exact, since the addition is checked. -/
theorem roundBytes_ok {value alignment r : UInt64} (h : roundBytes value alignment = .ok r) :
    r.toNat = roundUp alignment.toNat value.toNat := by
  unfold roundBytes at h
  rw [check_bind_eq_ok, refuse_eq_ok, decide_eq_false_iff_not] at h
  obtain ⟨hzero, h⟩ := h
  have hpos : 0 < alignment.toNat := by
    rcases Nat.eq_zero_or_pos alignment.toNat with h0 | h0
    · exact absurd (UInt64.toNat_inj.mp h0) hzero
    · exact h0
  have hmod : (value % alignment).toNat = value.toNat % alignment.toNat := UInt64.toNat_mod _ _
  have hlt := Nat.mod_lt value.toNat hpos
  split at h
  · rename_i hne
    have hne' : value.toNat % alignment.toNat ≠ 0 := fun h0 =>
      hne (UInt64.toNat_inj.mp (hmod.trans h0))
    rw [addOr_eq_ok] at h
    rw [h, roundUp_of_not_dvd hne' hpos, UInt64.toNat_sub_of_le, hmod]
    rw [UInt64.le_iff_toNat_le, hmod]
    omega
  · rename_i hzero'
    rw [not_not] at hzero'
    cases h
    refine (roundUp_of_dvd hpos ?_).symm
    rw [← hmod, hzero']
    rfl

/-! ## 3. The charges of the execution

A portion of nothing is left out, so the number of portions depends on the sizes. -/

/-- The size of the source, rounded up without a check. -/
def baseBytes (source : StorageRootSource) : UInt64 := ((source.virtualBytes - 1) / gib + 1) * gib

/-- What a root disk is split into: its name and its bytes. -/
def rootPortions (root : StoragePlanTarget) (source : StorageRootSource) : List (String × UInt64) :=
  [("root_base", baseBytes source), ("root_growth", root.virtualBytes - baseBytes source),
   ("root_auxiliary", source.auxiliaryBytes), ("root_scratch", source.scratchBytes)]

/-- The charge of one portion. -/
def portionOf (r : ChargeRecord) (portion : String × UInt64) : ChargeRecord :=
  { r with charge := { r.charge with id := portion.1, bytes := portion.2 } }

/-- The charges that replace a root charge: a portion of nothing has none. -/
def splitRoot (root : StoragePlanTarget) (source : StorageRootSource) (r : ChargeRecord) :
    List ChargeRecord :=
  ((rootPortions root source).filter fun p => p.2 != 0).map (portionOf r)

def storagePlanExecutionCharges (records : List ChargeRecord) (targets : List StoragePlanTarget) :
    List ChargeRecord :=
  match targets.find? fun t => t.role == storageRoleRoot with
  | none => records
  | some root =>
    match root.source with
    | none => records
    | some source => records.flatMap fun r =>
        if r.charge.role ≠ storageRoleRoot then [r] else splitRoot root source r

/-- What the split relies on: the source has a size, the disk is at least the source, both in whole
gibibytes, and the charge is all of it. -/
structure Splits (root : StoragePlanTarget) (source : StorageRootSource) (bytes : UInt64) :
    Prop where
  sized : 0 < source.virtualBytes.toNat
  covers : roundUp gib.toNat source.virtualBytes.toNat ≤ root.virtualBytes.toNat
  total : bytes.toNat =
    root.virtualBytes.toNat + source.scratchBytes.toNat + source.auxiliaryBytes.toNat

section Split

variable {root : StoragePlanTarget} {source : StorageRootSource} {bytes : UInt64} {r : ChargeRecord}

theorem gib_toNat : gib.toNat = 1073741824 := rfl

/-- The rounding does not wrap. -/
theorem baseBytes_toNat (h : Splits root source bytes) :
    (baseBytes source).toNat = roundUp gib.toNat source.virtualBytes.toNat := by
  have hsized := h.sized
  have hcovers := h.covers
  have hroot := root.virtualBytes.toNat_lt
  have hsub : (source.virtualBytes - 1).toNat = source.virtualBytes.toNat - 1 := by
    rw [UInt64.toNat_sub_of_le _ _ (by rw [UInt64.le_iff_toNat_le]; exact hsized)]
    rfl
  unfold roundUp at hcovers ⊢
  have hquot : (source.virtualBytes.toNat + gib.toNat - 1) / gib.toNat =
      (source.virtualBytes.toNat - 1) / gib.toNat + 1 := by
    rw [gib_toNat]
    omega
  rw [hquot] at hcovers ⊢
  unfold baseBytes
  have hlt := source.virtualBytes.toNat_lt
  rw [gib_toNat] at hcovers ⊢
  rw [UInt64.toNat_mul, UInt64.toNat_add, UInt64.toNat_div, hsub, gib_toNat,
    show (1 : UInt64).toNat = 1 from rfl]
  omega

/-- The disk is at least its base, so the growth does not wrap either. -/
theorem baseBytes_le (h : Splits root source bytes) : baseBytes source ≤ root.virtualBytes := by
  rw [UInt64.le_iff_toNat_le, baseBytes_toNat h]
  exact h.covers

theorem splitRoot_ids (root : StoragePlanTarget) (source : StorageRootSource) (r : ChargeRecord) :
    ((splitRoot root source r).map fun c => c.charge.id).Nodup := by
  have hids : ((rootPortions root source).map fun p => p.1).Nodup := by
    simp [rootPortions]
  have heq : (splitRoot root source r).map (fun c => c.charge.id) =
      ((rootPortions root source).filter fun p => p.2 != 0).map fun p => p.1 := by
    unfold splitRoot
    rw [List.map_map]
    exact List.map_congr_left fun p _ => rfl
  rw [heq]
  exact hids.sublist ((List.filter_sublist).map _)

theorem splitRoot_positive {c : ChargeRecord} (h : c ∈ splitRoot root source r) :
    0 < c.charge.bytes.toNat := by
  obtain ⟨p, hp, rfl⟩ := List.mem_map.mp h
  have hzero : p.2 ≠ 0 := by simpa using (List.mem_filter.mp hp).2
  exact Nat.pos_of_ne_zero fun h0 => hzero (UInt64.toNat_inj.mp h0)

/-- A portion of nothing counts for nothing. -/
theorem sum_portions (r : ChargeRecord) : ∀ ps : List (String × UInt64),
    (((ps.filter fun p => p.2 != 0).map (portionOf r)).map fun c => c.charge.bytes.toNat).sum =
      (ps.map fun p => p.2.toNat).sum
  | [] => rfl
  | p :: ps => by
    by_cases hp : p.2 = 0
    · rw [List.filter_cons_of_neg (by simp [hp]), sum_portions r ps, List.map_cons, List.sum_cons,
        hp, UInt64.toNat_zero, Nat.zero_add]
    · rw [List.filter_cons_of_pos (by simpa using hp), List.map_cons, List.map_cons, List.sum_cons,
        sum_portions r ps, List.map_cons, List.sum_cons]
      rfl

theorem sum_four {n₁ n₂ n₃ n₄ : String} (a b c d : UInt64) :
    ([(n₁, a), (n₂, b), (n₃, c), (n₄, d)].map fun p => p.2.toNat).sum =
      a.toNat + (b.toNat + (c.toNat + d.toNat)) := by
  simp only [List.map_cons, List.map_nil, List.sum_cons, List.sum_nil, Nat.add_zero]

/-- **The portions are the charge**: together they are all of it.  Base and growth are the size of
the disk, and the charge is that size with the auxiliary and the scratch bytes. -/
theorem splitRoot_sum (h : Splits root source bytes) :
    ((splitRoot root source r).map fun c => c.charge.bytes.toNat).sum = bytes.toNat := by
  have hle := UInt64.le_iff_toNat_le.mp (baseBytes_le h)
  unfold splitRoot
  rw [sum_portions]
  unfold rootPortions
  rw [sum_four, UInt64.toNat_sub_of_le _ _ (baseBytes_le h), h.total]
  generalize (baseBytes source).toNat = base at hle ⊢
  omega

/-- Everything else of the charge stays. -/
theorem splitRoot_same {c : ChargeRecord} (h : c ∈ splitRoot root source r) :
    ∃ p ∈ rootPortions root source, c = portionOf r p := by
  obtain ⟨p, hp, rfl⟩ := List.mem_map.mp h
  exact ⟨p, (List.mem_filter.mp hp).1, rfl⟩

end Split

end Storage
