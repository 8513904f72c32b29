/-
# The bytes of allocations in flight

`storage_sibling_charges.go`: before a placement is ranked, the journal is scanned once, and every
record that is under way charges its bytes against the capacities it holds.  A record claims bytes
in two ways, by its plan and by the charges of its steps, and the larger of the two counts on each
key.

Go iterates over a map in any order, so the loop over a table takes its order from `ranges`.  The
text of a plan is decoded by `encoding/json`; no result depends on how, so the decoder is a
parameter.

`siblingCharges_sums` is the closed form: the call succeeds exactly when every record can be read,
no charge is negative and every sum fits 64 bits, and then the tables hold the sums.  The sums do
not mention an order.

## Two ways to say the same bytes

Before its steps are written a record has only its plan; afterwards the steps say what is acquired
and what is outstanding.  The larger of the two is taken, key by key, so that a record which is
between the two states is never understated.  The price is in the last section: for a record whose
steps restate its plan, the larger one is the plan, also when its bytes were acquired long ago and
are part of the observation.  That is a defect against the comment of the code, and
`acquired_charged_once_iff` says exactly for which records it shows.

All sums are stated with `Lib.Tally`: a loop that went through holds the sums, and a loop goes
through when they fit.
-/
import PveCpi.Storage.Plan
import PveCpi.Journal.Attempts
import PveCpi.Lib.Tally

namespace Storage

open Lib.Check
open Lib.Text (trimSpace cutList)
open Lib.Bits (addOr addOr_eq_ok)
open Lib.Tally (Counts claim claims)
open Journal (Record State Time)

/-! ## 1. Who is a sibling -/

inductive SiblingErr where
  | version (id : String)
  /-- "has invalid plan evidence". -/
  | plan (id : String)
  /-- "records a negative charge". -/
  | negative (id : String)
  /-- "has unusable charge evidence": a sum does not fit. -/
  | overflow (id : String)
  deriving DecidableEq, Repr

/-- The states that are under way. -/
def storageAllocationCharging : State → Bool
  | .planned | .submitted | .observed | .reconciliationRequired => true
  | _ => false

def scopeInstanceGroup : String := "instance_group"
def scopeDeployment : String := "deployment"

/-- The key that two allocations share when they are siblings; blank when none are. -/
def storageAntiAffinityGroupKey (group scope : String) : String :=
  let group := trimSpace group
  if group = "" then ""
  else if scope = scopeInstanceGroup then group
  else if scope = scopeDeployment then
    match cutList ['/'] group.toList with
    | some (deployment, _) => String.ofList deployment
    | none => group
  else ""

/-- `Record.ActivePlan`. -/
def activePlan (r : Record) : Journal.AttemptPlan :=
  match r.attempts.getLast? with
  | none => Journal.initialPlan r.intent
  | some a => a.plan

/-- How `encoding/json` reads a plan: one value, and nothing behind it. -/
abbrev Decoder := String → Option StorageAllocationPlan

def siblingStorageAllocationPlan (decode : Decoder) (r : Record) :
    Except SiblingErr StorageAllocationPlan := do
  refuse (decide ((activePlan r).planVersion ≠ 1)) (.version r.id)
  match decode (activePlan r).plan with
  | none => .error (.plan r.id)
  | some plan => pure plan

/-! ## 2. The bytes of one record

Three tables are made for a record, one from its plan, one from its steps, and the merge. -/

/-- The order in which Go iterates over a table. -/
structure MapRange where
  range : Map String UInt64 → List (Sigma fun _ : String => UInt64)
  perm : ∀ m, (range m).Perm m.entries

/-- The bytes claimed on capacity keys and on capacity domains. -/
structure SiblingBytes where
  member : Map String UInt64 := ∅
  domain : Map String UInt64 := ∅

/-- A blank key is no key. -/
def blankKey (key : String) : Bool := key == ""

def addSiblingKeyBytes (e : SiblingErr) (into : Map String UInt64) (key : String) (value : UInt64) :
    Except SiblingErr (Map String UInt64) :=
  Lib.Tally.add blankKey e into key value

/-- A claim on a capacity and on its domain. -/
def SiblingBytes.claim (e : SiblingErr) (b : SiblingBytes) (key domain : String) (value : UInt64) :
    Except SiblingErr SiblingBytes := do
  let member ← addSiblingKeyBytes e b.member key value
  let domain ← addSiblingKeyBytes e b.domain domain value
  pure ⟨member, domain⟩

/-- The loop over the charges of a plan. -/
def planBytes (e : SiblingErr) : SiblingBytes → List ChargeRecord → Except SiblingErr SiblingBytes
  | b, [] => .ok b
  | b, c :: cs => do
    let b ← b.claim e c.capacityKey c.domainKey c.charge.bytes
    planBytes e b cs

/-- Two minutes, in nanoseconds. -/
def siblingAcquiredClockSkewTolerance : Time := 120000000000

/-- Whether the acquired bytes of a record still count. -/
def countAcquired (r : Record) (snapshotStart : Time) : Bool :=
  decide (snapshotStart - siblingAcquiredClockSkewTolerance < r.updatedAt)

/-- What one charge of a step claims: its outstanding bytes, and the acquired ones when they
count. -/
def claimedBytes (e : SiblingErr) (acquired : Bool) (c : Journal.Charge) :
    Except SiblingErr UInt64 :=
  if acquired then addOr e c.outstandingBytes.toUInt64 c.acquiredBytes.toUInt64
  else .ok c.outstandingBytes.toUInt64

def stepCharge (r : Record) (acquired : Bool) (b : SiblingBytes) (c : Journal.Charge) :
    Except SiblingErr SiblingBytes := do
  refuse (decide (c.acquiredBytes < 0 ∨ c.outstandingBytes < 0)) (.negative r.id)
  let claimed ← claimedBytes (.overflow r.id) acquired c
  if claimed = 0 then pure b else b.claim (.overflow r.id) c.backing c.domain claimed

/-- The loops over the steps and their charges. -/
def stepBytes (r : Record) (acquired : Bool) :
    SiblingBytes → List Journal.Charge → Except SiblingErr SiblingBytes
  | b, [] => .ok b
  | b, c :: cs => do
    let b ← stepCharge r acquired b c
    stepBytes r acquired b cs

/-- The charges of all steps of a record, in order. -/
def stepCharges (r : Record) : List Journal.Charge := r.steps.flatMap fun s => s.charges

/-- The first loop of `mergeSiblingLarger`: the larger claim on each planned key. -/
def largerClaims (ranges : MapRange) (planned stepped : Map String UInt64) :
    List (String × UInt64) :=
  (ranges.range planned).map fun entry => (entry.1, max entry.2 (bytesAt stepped entry.1))

/-- The second loop: what is only stepped. -/
def otherClaims (ranges : MapRange) (planned stepped : Map String UInt64) :
    List (String × UInt64) :=
  ((ranges.range stepped).filter fun entry => !decide (entry.1 ∈ planned)).map
    fun entry => (entry.1, entry.2)

def mergeSiblingLarger (ranges : MapRange) (e : SiblingErr)
    (into planned stepped : Map String UInt64) : Except SiblingErr (Map String UInt64) :=
  Lib.Tally.addAll blankKey e into
    (largerClaims ranges planned stepped ++ otherClaims ranges planned stepped)

def addSiblingRecordBytes (ranges : MapRange) (b : SiblingBytes) (r : Record)
    (plan : StorageAllocationPlan) (snapshotStart : Time) : Except SiblingErr SiblingBytes := do
  let planned ← planBytes (.overflow r.id) {} plan.charges
  let stepped ← stepBytes r (countAcquired r snapshotStart) {} (stepCharges r)
  let member ← mergeSiblingLarger ranges (.overflow r.id) b.member planned.member stepped.member
  let domain ← mergeSiblingLarger ranges (.overflow r.id) b.domain planned.domain stepped.domain
  pure ⟨member, domain⟩

/-! ## 3. The scan -/

/-- The bytes, and the number of siblings on each key when the group asks for it. -/
structure Siblings where
  bytes : SiblingBytes := {}
  counts : Option (Map String Nat) := none

/-- `counts[key]++`. -/
def countOne (counts : Map String Nat) (key : String) : Map String Nat :=
  counts.insert key ((counts.lookup key).getD 0 + 1)

/-- The number of siblings, with the root of one more plan. -/
def countSibling (groupKey scope : String) (plan : StorageAllocationPlan)
    (counts : Map String Nat) : Map String Nat :=
  if storageAntiAffinityGroupKey plan.group scope = groupKey then
    match roleTarget plan storageRoleRoot with
    | some root => if root.capacityKey ≠ "" then countOne counts root.capacityKey else counts
    | none => counts
  else counts

/-- A finished sibling still occupies its share. -/
def occupies (s : State) : Bool := s != .deleted && s != .cleaned

/-- One round of the scan. -/
def siblingRecord (decode : Decoder) (ranges : MapRange) (self groupKey scope : String)
    (snapshotStart : Time) (s : Siblings) (r : Record) : Except SiblingErr Siblings :=
  if r.id = self then .ok s
  else
    let charging := storageAllocationCharging r.state
    let countable := s.counts.isSome && occupies r.state
    if !charging && !countable then .ok s
    else
      match siblingStorageAllocationPlan decode r with
      | .error e => if charging then .error e else .ok s
      | .ok plan => do
        let bytes ← if charging then addSiblingRecordBytes ranges s.bytes r plan snapshotStart
          else pure s.bytes
        pure { bytes := bytes,
               counts := if countable then s.counts.map (countSibling groupKey scope plan)
               else s.counts }

def scanSiblings (decode : Decoder) (ranges : MapRange) (self groupKey scope : String)
    (snapshotStart : Time) : Siblings → List Record → Except SiblingErr Siblings
  | s, [] => .ok s
  | s, r :: rs => do
    let s ← siblingRecord decode ranges self groupKey scope snapshotStart s r
    scanSiblings decode ranges self groupKey scope snapshotStart s rs

def siblingCharges (decode : Decoder) (ranges : MapRange) (records : List Record)
    (self group scope : String) (snapshotStart : Time) : Except SiblingErr Siblings :=
  let groupKey := storageAntiAffinityGroupKey group scope
  scanSiblings decode ranges self groupKey scope snapshotStart
    { counts := if groupKey ≠ "" then some ∅ else none } records

/-! ## 4. The bytes as numbers

`Holds` relates the two tables of a record, or of the whole scan, to functions on keys. -/

/-- The bytes of the members of a list on a key.  A blank key is no key. -/
def bytesOn {α : Type} (key : α → String) (bytes : α → Nat) (l : List α) (k : String) : Nat :=
  (l.map fun a => claim blankKey (key a) (bytes a) k).sum

/-- The tables stand for these numbers. -/
structure Holds (b : SiblingBytes) (f g : String → Nat) : Prop where
  member : Counts b.member f
  domain : Counts b.domain g

theorem Holds.empty : Holds {} (fun _ => 0) fun _ => 0 := ⟨Counts.empty, Counts.empty⟩

section Claims

variable {e : SiblingErr} {b b' : SiblingBytes} {f g : String → Nat}

theorem claim_blank (key : String) (n : Nat) : claim blankKey key n "" = 0 := by
  simp [claim, blankKey]

theorem bytesOn_blank {α : Type} (key : α → String) (bytes : α → Nat) (l : List α) :
    bytesOn key bytes l "" = 0 := by
  unfold bytesOn
  simp [claim_blank]

theorem bytesOn_cons {α : Type} (key : α → String) (bytes : α → Nat) (a : α) (l : List α)
    (k : String) :
    bytesOn key bytes (a :: l) k = claim blankKey (key a) (bytes a) k + bytesOn key bytes l k := by
  simp [bytesOn]

theorem Holds.claimed {key domain : String} {value : UInt64} (h : Holds b f g)
    (hc : b.claim e key domain value = .ok b') :
    Holds b' (fun k => f k + claim blankKey key value.toNat k)
      fun k => g k + claim blankKey domain value.toNat k := by
  obtain ⟨m, hm, hc⟩ := bind_eq_ok.mp hc
  obtain ⟨d, hd, hc⟩ := bind_eq_ok.mp hc
  cases hc
  exact ⟨h.member.added hm, h.domain.added hd⟩

theorem Holds.claim_fits {key domain : String} {value : UInt64} (h : Holds b f g)
    (hf : ∀ k, f k + claim blankKey key value.toNat k < 2 ^ 64)
    (hg : ∀ k, g k + claim blankKey domain value.toNat k < 2 ^ 64) :
    ∃ b', b.claim e key domain value = .ok b' := by
  obtain ⟨m, hm⟩ := h.member.add_fits (e := e) (hf key)
  obtain ⟨d, hd⟩ := h.domain.add_fits (e := e) (hg domain)
  refine ⟨⟨m, d⟩, ?_⟩
  unfold SiblingBytes.claim addSiblingKeyBytes
  rw [hm]
  show (Lib.Tally.add blankKey e b.domain domain value >>= _) = _
  rw [hd]
  rfl

/-! The plan. -/

def planOn (plan : StorageAllocationPlan) : String → Nat :=
  bytesOn (fun c : ChargeRecord => c.capacityKey) (fun c => c.charge.bytes.toNat) plan.charges

def planOnDomain (plan : StorageAllocationPlan) : String → Nat :=
  bytesOn (fun c : ChargeRecord => c.domainKey) (fun c => c.charge.bytes.toNat) plan.charges

/-- Adding the bytes of a plan adds, on each key, the bytes that the plan has there. -/
theorem Holds.plan {cs : List ChargeRecord} : ∀ {b b' : SiblingBytes} {f g : String → Nat},
    Holds b f g → planBytes e b cs = .ok b' →
    Holds b' (fun k => f k + bytesOn (fun c => c.capacityKey) (fun c => c.charge.bytes.toNat) cs k)
      fun k => g k + bytesOn (fun c => c.domainKey) (fun c => c.charge.bytes.toNat) cs k := by
  induction cs with
  | nil =>
    intro b b' f g h hp
    cases hp
    exact h
  | cons c cs ih =>
    intro b b' f g h hp
    obtain ⟨t, ht, hrest⟩ := bind_eq_ok.mp hp
    have := ih (h.claimed ht) hrest
    simpa only [bytesOn_cons, Nat.add_assoc] using this

/-- If all sums fit a word, adding a plan does not fail. -/
theorem Holds.plan_fits {cs : List ChargeRecord} : ∀ {b : SiblingBytes} {f g : String → Nat},
    Holds b f g →
    (∀ k, f k + bytesOn (fun c => c.capacityKey) (fun c => c.charge.bytes.toNat) cs k < 2 ^ 64) →
    (∀ k, g k + bytesOn (fun c => c.domainKey) (fun c => c.charge.bytes.toNat) cs k < 2 ^ 64) →
    ∃ b', planBytes e b cs = .ok b' := by
  induction cs with
  | nil => exact fun _ _ _ => ⟨_, rfl⟩
  | cons c cs ih =>
    intro b f g h hf hg
    simp only [bytesOn_cons, ← Nat.add_assoc] at hf hg
    obtain ⟨t, ht⟩ := h.claim_fits (e := e)
      (fun k => Nat.lt_of_le_of_lt (Nat.le_add_right _ _) (hf k))
      (fun k => Nat.lt_of_le_of_lt (Nat.le_add_right _ _) (hg k))
    obtain ⟨b', hb'⟩ := ih (h.claimed ht) hf hg
    refine ⟨b', ?_⟩
    unfold planBytes
    rw [ht]
    exact hb'

end Claims

/-! The steps. -/

/-- A charge whose bytes are not negative. -/
def Unsigned (c : Journal.Charge) : Prop := ¬ (c.acquiredBytes < 0 ∨ c.outstandingBytes < 0)

instance (c : Journal.Charge) : Decidable (Unsigned c) := by
  unfold Unsigned
  infer_instance

def outstandingOf (c : Journal.Charge) : Nat := c.outstandingBytes.toNatClampNeg

def acquiredOf (c : Journal.Charge) : Nat := c.acquiredBytes.toNatClampNeg

/-- What a charge of a step claims. -/
def claimedOf (acquired : Bool) (c : Journal.Charge) : Nat :=
  outstandingOf c + if acquired then acquiredOf c else 0

def stepOn (acquired : Bool) (cs : List Journal.Charge) : String → Nat :=
  bytesOn (fun c : Journal.Charge => c.backing) (claimedOf acquired) cs

def stepOnDomain (acquired : Bool) (cs : List Journal.Charge) : String → Nat :=
  bytesOn (fun c : Journal.Charge => c.domain) (claimedOf acquired) cs

section Steps

variable {e : SiblingErr} {r : Record} {acquired : Bool} {c : Journal.Charge}

/-- What a step claims, without the sign: a negative number was refused before. -/
theorem claimedBytes_eq (e : SiblingErr) (acquired : Bool) (h : Unsigned c) :
    ∃ v : UInt64, claimedBytes e acquired c = .ok v ∧ v.toNat = claimedOf acquired c := by
  obtain ⟨hacq, hout⟩ := not_or.mp h
  have hout' := Int64.toNat_toUInt64_of_le (Int64.not_lt.mp hout)
  have hacq' := Int64.toNat_toUInt64_of_le (Int64.not_lt.mp hacq)
  have ho := c.outstandingBytes.toNatClampNeg_lt
  have ha := c.acquiredBytes.toNatClampNeg_lt
  unfold claimedBytes claimedOf outstandingOf acquiredOf
  cases acquired with
  | false => exact ⟨_, rfl, hout'⟩
  | true =>
    -- Two signed words that are not negative never wrap as unsigned ones.
    refine ⟨c.outstandingBytes.toUInt64 + c.acquiredBytes.toUInt64, addOr_eq_ok.mpr ?_, ?_⟩
    · rw [UInt64.toNat_add, hout', hacq']
      omega
    · rw [UInt64.toNat_add, hout', hacq', if_pos rfl]
      omega

variable {b b' : SiblingBytes} {f g : String → Nat}

/-- One charge of a step adds what it claims, on its backing and on its domain. -/
theorem Holds.stepped (h : Holds b f g) (hs : stepCharge r acquired b c = .ok b') :
    Unsigned c ∧ Holds b' (fun k => f k + claim blankKey c.backing (claimedOf acquired c) k)
      fun k => g k + claim blankKey c.domain (claimedOf acquired c) k := by
  unfold stepCharge at hs
  rw [check_bind_eq_ok, refuse_eq_ok, decide_eq_false_iff_not] at hs
  obtain ⟨hsigned, hs⟩ := hs
  obtain ⟨v, hv, hs⟩ := bind_eq_ok.mp hs
  obtain ⟨v', hv', hval⟩ := claimedBytes_eq (.overflow r.id) acquired hsigned
  rw [hv] at hv'
  cases hv'
  refine ⟨hsigned, ?_⟩
  rw [← hval]
  split at hs
  · rename_i hzero
    cases hs
    rw [hzero]
    simpa [claim] using h
  · exact h.claimed hs

/-- If the sums fit, one charge of a step does not fail. -/
theorem Holds.step_fits (h : Holds b f g) (r : Record) (hsigned : Unsigned c)
    (hf : ∀ k, f k + claim blankKey c.backing (claimedOf acquired c) k < 2 ^ 64)
    (hg : ∀ k, g k + claim blankKey c.domain (claimedOf acquired c) k < 2 ^ 64) :
    ∃ b', stepCharge r acquired b c = .ok b' := by
  obtain ⟨v, hv, hval⟩ := claimedBytes_eq (.overflow r.id) acquired hsigned
  have hrefuse : refuse (decide (c.acquiredBytes < 0 ∨ c.outstandingBytes < 0))
      (SiblingErr.negative r.id) = .ok () := by
    rw [refuse_eq_ok, decide_eq_false_iff_not]
    exact hsigned
  unfold stepCharge
  rw [hrefuse, hv]
  rw [← hval] at hf hg
  by_cases hzero : v = 0
  · exact ⟨b, if_pos hzero⟩
  · obtain ⟨b', hb'⟩ := h.claim_fits (e := .overflow r.id) hf hg
    exact ⟨b', (if_neg hzero).trans hb'⟩

end Steps

section StepLists

variable {r : Record} {acquired : Bool}

/-- The charges of all steps, by induction on them. -/
theorem Holds.steps {cs : List Journal.Charge} : ∀ {b b' : SiblingBytes} {f g : String → Nat},
    Holds b f g → stepBytes r acquired b cs = .ok b' → (∀ c ∈ cs, Unsigned c) ∧
    Holds b' (fun k => f k + stepOn acquired cs k) fun k => g k + stepOnDomain acquired cs k := by
  induction cs with
  | nil =>
    intro b b' f g h hs
    cases hs
    exact ⟨fun _ hc => absurd hc List.not_mem_nil, h⟩
  | cons c cs ih =>
    intro b b' f g h hs
    obtain ⟨t, ht, hrest⟩ := bind_eq_ok.mp hs
    obtain ⟨hsigned, hstep⟩ := h.stepped ht
    obtain ⟨hall, hholds⟩ := ih hstep hrest
    refine ⟨List.forall_mem_cons.mpr ⟨hsigned, hall⟩, ?_⟩
    simpa only [stepOn, stepOnDomain, bytesOn_cons, Nat.add_assoc] using hholds

/-- If the sums fit, the charges of all steps do not fail. -/
theorem Holds.steps_fit {cs : List Journal.Charge} : ∀ {b : SiblingBytes} {f g : String → Nat},
    Holds b f g → (∀ c ∈ cs, Unsigned c) → (∀ k, f k + stepOn acquired cs k < 2 ^ 64) →
    (∀ k, g k + stepOnDomain acquired cs k < 2 ^ 64) →
      ∃ b', stepBytes r acquired b cs = .ok b' := by
  induction cs with
  | nil => exact fun _ _ _ _ => ⟨_, rfl⟩
  | cons c cs ih =>
    intro b f g h hsigned hf hg
    simp only [stepOn, stepOnDomain, bytesOn_cons, ← Nat.add_assoc] at hf hg
    obtain ⟨hc, hcs⟩ := List.forall_mem_cons.mp hsigned
    obtain ⟨t, ht⟩ := h.step_fits r hc
      (fun k => Nat.lt_of_le_of_lt (Nat.le_add_right _ _) (hf k))
      (fun k => Nat.lt_of_le_of_lt (Nat.le_add_right _ _) (hg k))
    obtain ⟨b', hb'⟩ := ih (h.stepped ht).2 hcs hf hg
    refine ⟨b', ?_⟩
    unfold stepBytes
    rw [ht]
    exact hb'

end StepLists

/-! The merge. -/

section Merge

variable (ranges : MapRange) {planned stepped : Map String UInt64} {f g : String → Nat} {k : String}

theorem claim_key (hk : k ≠ "") (key : String) (n : Nat) :
    claim blankKey key n k = if k = key then n else 0 := by
  simp [claim, blankKey, hk]

theorem claims_larger (hg : Counts stepped g) (hk : k ≠ "") :
    claims blankKey (largerClaims ranges planned stepped) k =
      (planned.lookup k).elim 0 fun v => max v.toNat (g k) := by
  have hstepped : (bytesAt stepped k).toNat = g k := hg.value k
  unfold claims largerClaims
  rw [List.map_map, ((ranges.perm planned).map _).sum_eq, Lib.Tally.sum_entries _ _ k]
  · cases planned.lookup k with
    | none => rfl
    | some v => simp [claim_key hk, toNat_max, hstepped]
  · intro entry _ hne
    simp [claim_key hk, hne.symm]

/-- What the keys outside the plan claim: the steps only, whatever order the map is ranged over
in. -/
theorem claims_other (hg : Counts stepped g) (hk : k ≠ "") :
    claims blankKey (otherClaims ranges planned stepped) k = if k ∈ planned then 0 else g k := by
  have hsum : ∀ l : List (Sigma fun _ : String => UInt64),
      (((l.filter fun entry => !decide (entry.1 ∈ planned)).map fun entry => (entry.1, entry.2)).map
        fun p => claim blankKey p.1 p.2.toNat k).sum =
        (l.map fun entry => if k ∈ planned then 0
          else claim blankKey entry.1 entry.2.toNat k).sum := by
    intro l
    induction l with
    | nil => rfl
    | cons entry l ih =>
      rw [List.map_cons, List.sum_cons, ← ih, claim_key hk]
      by_cases hmem : entry.1 ∈ planned
      · rw [List.filter_cons_of_neg (by simp [hmem])]
        by_cases hkey : k = entry.1
        · simp [hkey, hmem]
        · simp [hkey]
      · rw [List.filter_cons_of_pos (by simp [hmem]), List.map_cons, List.map_cons, List.sum_cons,
          claim_key hk]
        by_cases hkey : k = entry.1
        · simp [hkey, hmem]
        · simp [hkey]
  unfold claims otherClaims
  rw [hsum, ((ranges.perm stepped).map _).sum_eq, Lib.Tally.sum_entries _ _ k]
  · rw [← hg.value k]
    cases stepped.lookup k with
    | none => simp
    | some v => simp [claim_key hk]
  · intro entry _ hne
    simp [claim_key hk, hne.symm]

/-- **The merge claims the larger of the two on each key.**  A key of one table only is claimed with
its own bytes; a key of both with the larger. -/
theorem claims_merged (hf : Counts planned f) (hg : Counts stepped g) (hf0 : f "" = 0)
    (hg0 : g "" = 0) (k : String) :
    claims blankKey (largerClaims ranges planned stepped ++ otherClaims ranges planned stepped) k =
      max (f k) (g k) := by
  by_cases hk : k = ""
  · rw [hk, hf0, hg0]
    simp [claims, claim_blank]
  rw [Lib.Tally.claims_append, claims_larger ranges hg hk, claims_other ranges hg hk]
  have hmem := hf.mem k
  have hvalue := hf.value k
  cases hl : planned.lookup k with
  | none =>
    rw [hl] at hvalue
    rw [if_neg (fun h => hmem.mp h hvalue.symm), ← hvalue]
    simp
  | some v =>
    rw [hl] at hvalue
    have hin : k ∈ planned := AList.lookup_isSome.mp (by rw [hl]; rfl)
    rw [if_pos hin, ← hvalue]
    rfl

end Merge

/-! ## 5. One record -/

/-- What a record adds on a capacity key: the larger of its two claims. -/
def shareOf (r : Record) (plan : StorageAllocationPlan) (snapshotStart : Time) (k : String) : Nat :=
  max (planOn plan k) (stepOn (countAcquired r snapshotStart) (stepCharges r) k)

/-- What it adds on a capacity domain. -/
def shareOfDomain (r : Record) (plan : StorageAllocationPlan) (snapshotStart : Time) (k : String) :
    Nat :=
  max (planOnDomain plan k) (stepOnDomain (countAcquired r snapshotStart) (stepCharges r) k)

section OneRecord

variable {ranges : MapRange} {b b' : SiblingBytes} {f g : String → Nat} {r : Record}
variable {plan : StorageAllocationPlan} {snapshotStart : Time}

/-- **One sibling adds its share**, on every key the larger of what its plan and its steps claim
there.  The code adds the keys of the plan first and the others afterwards, in any order. -/
theorem Holds.record (h : Holds b f g)
    (hr : addSiblingRecordBytes ranges b r plan snapshotStart = .ok b') :
    (∀ c ∈ stepCharges r, Unsigned c) ∧
    Holds b' (fun k => f k + shareOf r plan snapshotStart k)
      fun k => g k + shareOfDomain r plan snapshotStart k := by
  obtain ⟨planned, hp, hr⟩ := bind_eq_ok.mp hr
  obtain ⟨stepped, hs, hr⟩ := bind_eq_ok.mp hr
  obtain ⟨m, hm, hr⟩ := bind_eq_ok.mp hr
  obtain ⟨d, hd, hr⟩ := bind_eq_ok.mp hr
  cases hr
  have hplan := Holds.empty.plan hp
  obtain ⟨hsigned, hstep⟩ := Holds.empty.steps hs
  simp only [Nat.zero_add] at hplan hstep
  have hmember := h.member.addedAll hm
  have hdomain := h.domain.addedAll hd
  simp only [claims_merged ranges hplan.member hstep.member (bytesOn_blank _ _ _)
    (bytesOn_blank _ _ _)] at hmember
  simp only [claims_merged ranges hplan.domain hstep.domain (bytesOn_blank _ _ _)
    (bytesOn_blank _ _ _)] at hdomain
  exact ⟨hsigned, hmember, hdomain⟩

/-- If the sums fit, one sibling does not fail. -/
theorem Holds.record_fits (h : Holds b f g) (ranges : MapRange)
    (hsigned : ∀ c ∈ stepCharges r, Unsigned c)
    (hf : ∀ k, f k + shareOf r plan snapshotStart k < 2 ^ 64)
    (hg : ∀ k, g k + shareOfDomain r plan snapshotStart k < 2 ^ 64) :
    ∃ b', addSiblingRecordBytes ranges b r plan snapshotStart = .ok b' := by
  have hfmax : ∀ k, planOn plan k < 2 ^ 64 ∧
      stepOn (countAcquired r snapshotStart) (stepCharges r) k < 2 ^ 64 := by
    intro k
    have := hf k
    unfold shareOf at this
    omega
  have hgmax : ∀ k, planOnDomain plan k < 2 ^ 64 ∧
      stepOnDomain (countAcquired r snapshotStart) (stepCharges r) k < 2 ^ 64 := by
    intro k
    have := hg k
    unfold shareOfDomain at this
    omega
  obtain ⟨planned, hp⟩ := Holds.empty.plan_fits (e := .overflow r.id)
    (fun k => by rw [Nat.zero_add]; exact (hfmax k).1)
    (fun k => by rw [Nat.zero_add]; exact (hgmax k).1)
  obtain ⟨stepped, hs⟩ := Holds.empty.steps_fit (r := r) hsigned
    (fun k => by rw [Nat.zero_add]; exact (hfmax k).2)
    (fun k => by rw [Nat.zero_add]; exact (hgmax k).2)
  have hplan := Holds.empty.plan hp
  have hstep := (Holds.empty.steps hs).2
  simp only [Nat.zero_add] at hplan hstep
  obtain ⟨m, hm⟩ := h.member.addAll_fits blankKey (SiblingErr.overflow r.id)
    (l := largerClaims ranges planned.member stepped.member ++
      otherClaims ranges planned.member stepped.member)
    (fun k => by
      rw [claims_merged ranges hplan.member hstep.member (bytesOn_blank _ _ _)
        (bytesOn_blank _ _ _)]
      exact hf k)
  obtain ⟨d, hd⟩ := h.domain.addAll_fits blankKey (SiblingErr.overflow r.id)
    (l := largerClaims ranges planned.domain stepped.domain ++
      otherClaims ranges planned.domain stepped.domain)
    (fun k => by
      rw [claims_merged ranges hplan.domain hstep.domain (bytesOn_blank _ _ _)
        (bytesOn_blank _ _ _)]
      exact hg k)
  refine ⟨⟨m, d⟩, ?_⟩
  exact bind_eq_ok.mpr ⟨planned, hp, bind_eq_ok.mpr ⟨stepped, hs,
    bind_eq_ok.mpr ⟨m, hm, bind_eq_ok.mpr ⟨d, hd, rfl⟩⟩⟩⟩

end OneRecord

/-! ## 6. The whole scan

`Scanned` is the invariant of the loop over the records: the tables hold the totals of the records
so far. -/

section Scan

variable (decode : Decoder) (self : String) (snapshotStart : Time)

/-- A charging record other than our own. -/
def chargesFor (r : Record) : Bool := r.id != self && storageAllocationCharging r.state

/-- The share of a record whose plan is read; nothing when it cannot be. -/
def memberShare (r : Record) (k : String) : Nat :=
  (siblingStorageAllocationPlan decode r).toOption.elim 0 fun plan => shareOf r plan snapshotStart k

def domainShare (r : Record) (k : String) : Nat :=
  (siblingStorageAllocationPlan decode r).toOption.elim 0 fun plan =>
    shareOfDomain r plan snapshotStart k

/-- The sum of the shares on a key. -/
def memberTotal (records : List Record) (k : String) : Nat :=
  ((records.filter (chargesFor self)).map fun r => memberShare decode snapshotStart r k).sum

def domainTotal (records : List Record) (k : String) : Nat :=
  ((records.filter (chargesFor self)).map fun r => domainShare decode snapshotStart r k).sum

/-- The plan of a record is read, and none of its charges is negative. -/
def ReadableSibling (r : Record) : Prop :=
  (∃ plan, siblingStorageAllocationPlan decode r = .ok plan) ∧ ∀ c ∈ stepCharges r, Unsigned c

variable (groupKey scope : String)

/-- A sibling of the group whose root is on the key. -/
def siblingOn (k : String) (r : Record) : Bool :=
  r.id != self && occupies r.state &&
    (siblingStorageAllocationPlan decode r).toOption.any fun plan =>
      decide (storageAntiAffinityGroupKey plan.group scope = groupKey) &&
        (roleTarget plan storageRoleRoot).any fun root =>
          decide (root.capacityKey ≠ "" ∧ root.capacityKey = k)

/-- The table of counts stands for these numbers, when there is one. -/
def Tallied (counts : Option (Map String Nat)) (wanted : Bool) (n : String → Nat) : Prop :=
  if wanted then ∃ m, counts = some m ∧ (∀ k, (m.lookup k).getD 0 = n k) ∧ ∀ k, m.lookup k ≠ some 0
  else counts = none

end Scan

section Steps

variable {decode : Decoder} {ranges : MapRange} {self groupKey scope : String}
  {snapshotStart : Time}
variable {wanted : Bool} {records done : List Record} {s s' : Siblings} {r : Record}

theorem memberTotal_snoc (k : String) : memberTotal decode self snapshotStart (done ++ [r]) k =
    memberTotal decode self snapshotStart done k +
      if chargesFor self r then memberShare decode snapshotStart r k else 0 := by
  unfold memberTotal
  rw [List.filter_append, List.map_append, List.sum_append, List.filter_singleton]
  cases chargesFor self r with
  | true => simp
  | false => simp

theorem domainTotal_snoc (k : String) : domainTotal decode self snapshotStart (done ++ [r]) k =
    domainTotal decode self snapshotStart done k +
      if chargesFor self r then domainShare decode snapshotStart r k else 0 := by
  unfold domainTotal
  rw [List.filter_append, List.map_append, List.sum_append, List.filter_singleton]
  cases chargesFor self r with
  | true => simp
  | false => simp

theorem siblings_snoc (k : String) :
    ((done ++ [r]).filter (siblingOn decode self groupKey scope k)).length =
      (done.filter (siblingOn decode self groupKey scope k)).length +
        if siblingOn decode self groupKey scope k r then 1 else 0 := by
  rw [List.filter_append, List.length_append, List.filter_singleton]
  cases siblingOn decode self groupKey scope k r with
  | true => rfl
  | false => rfl

/-- The number of siblings with one more plan. -/
theorem countSibling_lookup (groupKey scope : String) (plan : StorageAllocationPlan)
    {m : Map String Nat} {n : String → Nat}
    (hm : ∀ k, (m.lookup k).getD 0 = n k) (hz : ∀ k, m.lookup k ≠ some 0) :
    (∀ k, ((countSibling groupKey scope plan m).lookup k).getD 0 = n k +
      if storageAntiAffinityGroupKey plan.group scope = groupKey ∧
          (roleTarget plan storageRoleRoot).any (fun root =>
            decide (root.capacityKey ≠ "" ∧ root.capacityKey = k)) = true then 1 else 0) ∧
    ∀ k, (countSibling groupKey scope plan m).lookup k ≠ some 0 := by
  unfold countSibling
  by_cases hgroup : storageAntiAffinityGroupKey plan.group scope = groupKey
  · rw [if_pos hgroup]
    cases hroot : roleTarget plan storageRoleRoot with
    | none => simpa [hgroup] using ⟨hm, hz⟩
    | some root =>
      dsimp only
      by_cases hkey : root.capacityKey = ""
      · simpa [hgroup, hkey] using ⟨hm, hz⟩
      · rw [if_pos hkey]
        unfold countOne
        refine ⟨fun k => ?_, fun k => ?_⟩
        · by_cases hk : k = root.capacityKey
          · rw [hk, AList.lookup_insert, hm]
            simp [hgroup, hkey]
          · rw [AList.lookup_insert_ne hk, hm]
            simp [Ne.symm hk]
        · by_cases hk : k = root.capacityKey
          · rw [hk, AList.lookup_insert]
            simp
          · rw [AList.lookup_insert_ne hk]
            exact hz k
  · rw [if_neg hgroup]
    simpa [hgroup] using ⟨hm, hz⟩

/-- What is known after the records `done`. -/
structure Scanned (decode : Decoder) (own groupKey scope : String) (snapshotStart : Time)
    (wanted : Bool) (done : List Record) (s : Siblings) : Prop where
  holds : Holds s.bytes (memberTotal decode own snapshotStart done)
    (domainTotal decode own snapshotStart done)
  readable : ∀ r ∈ done, chargesFor own r = true → ReadableSibling decode r
  tallied : Tallied s.counts wanted fun k =>
    (done.filter (siblingOn decode own groupKey scope k)).length

/-- A record that adds nothing. -/
theorem Scanned.skip (h : Scanned decode self groupKey scope snapshotStart wanted done s)
    (hcharges : chargesFor self r = false)
    (hcounts : wanted = true → ∀ k, siblingOn decode self groupKey scope k r = false) :
    Scanned decode self groupKey scope snapshotStart wanted (done ++ [r]) s := by
  refine ⟨?_, ?_, ?_⟩
  · refine ⟨⟨fun k => ?_, h.holds.member.nonzero⟩, ⟨fun k => ?_, h.holds.domain.nonzero⟩⟩
    · rw [memberTotal_snoc, hcharges]
      exact h.holds.member.value k
    · rw [domainTotal_snoc, hcharges]
      exact h.holds.domain.value k
  · intro x hx hc
    rcases List.mem_append.mp hx with hx | hx
    · exact h.readable x hx hc
    · rw [List.mem_singleton.mp hx, hcharges] at hc
      cases hc
  · have htallied := h.tallied
    unfold Tallied at htallied ⊢
    cases wanted with
    | false => exact htallied
    | true =>
      obtain ⟨m, hm, hlookup, hz⟩ := htallied
      refine ⟨m, hm, fun k => ?_, hz⟩
      dsimp only
      rw [siblings_snoc, hcounts rfl k]
      exact hlookup k

theorem Tallied.isSome {counts : Option (Map String Nat)} {n : String → Nat}
    (h : Tallied counts wanted n) : counts.isSome = wanted := by
  unfold Tallied at h
  cases wanted with
  | false =>
    rw [if_neg (by decide)] at h
    rw [h]
    rfl
  | true =>
    obtain ⟨m, hm, -⟩ := h
    rw [hm]
    rfl

/-- A record whose plan is read is counted when it occupies its share. -/
theorem Tallied.count {plan : StorageAllocationPlan} {counts : Option (Map String Nat)}
    (h : Tallied counts wanted fun k =>
      (done.filter (siblingOn decode self groupKey scope k)).length)
    (hself : r.id ≠ self) (hplan : siblingStorageAllocationPlan decode r = .ok plan) :
    Tallied (if counts.isSome && occupies r.state then counts.map (countSibling groupKey scope plan)
      else counts) wanted
      fun k => ((done ++ [r]).filter (siblingOn decode self groupKey scope k)).length := by
  rw [h.isSome]
  unfold Tallied at h ⊢
  cases wanted with
  | false => simpa using h
  | true =>
    obtain ⟨m, hm, hlookup, hz⟩ := h
    obtain ⟨hnew, hz'⟩ := countSibling_lookup groupKey scope plan
      hlookup hz
    cases hocc : occupies r.state with
    | true =>
      refine ⟨countSibling groupKey scope plan m, by rw [hm]; rfl, fun k => ?_, hz'⟩
      dsimp only
      rw [hnew, siblings_snoc]
      simp [siblingOn, hself, hocc, hplan, Except.toOption]
    | false =>
      refine ⟨m, hm, fun k => ?_, hz⟩
      dsimp only
      rw [hlookup, siblings_snoc]
      simp [siblingOn, hocc]

theorem chargesFor_of (hself : r.id ≠ self) :
    chargesFor self r = storageAllocationCharging r.state := by
  simp [chargesFor, hself]

/-- **One round of the scan.** -/
theorem Scanned.step (h : Scanned decode self groupKey scope snapshotStart wanted done s)
    (hs : siblingRecord decode ranges self groupKey scope snapshotStart s r = .ok s') :
    Scanned decode self groupKey scope snapshotStart wanted (done ++ [r]) s' := by
  unfold siblingRecord at hs
  by_cases hself : r.id = self
  · rw [if_pos hself] at hs
    cases hs
    exact h.skip (by simp [chargesFor, hself]) fun _ k => by simp [siblingOn, hself]
  rw [if_neg hself] at hs
  dsimp only at hs
  rw [h.tallied.isSome] at hs
  split at hs
  · rename_i hskip
    cases hs
    simp only [Bool.and_eq_true, Bool.not_eq_true', Bool.and_eq_false_iff] at hskip
    refine h.skip (by rw [chargesFor_of hself]; exact hskip.1) fun hw k => ?_
    have hocc : occupies r.state = false := by
      rcases hskip.2 with h0 | h0
      · rw [hw] at h0
        cases h0
      · exact h0
    simp [siblingOn, hocc]
  · cases hplan : siblingStorageAllocationPlan decode r with
    | error e =>
      rw [hplan] at hs
      dsimp only at hs
      split at hs
      · cases hs
      · rename_i hcharging
        cases hs
        refine h.skip (by rw [chargesFor_of hself]; simpa using hcharging) fun _ k => ?_
        simp [siblingOn, hplan, Except.toOption]
    | ok plan =>
      rw [hplan] at hs
      have htallied := h.tallied.count hself hplan
      rw [h.tallied.isSome] at htallied
      dsimp only at hs
      split at hs
      · rename_i hcharging
        obtain ⟨bytes, hbytes, hs⟩ := bind_eq_ok.mp hs
        cases hs
        obtain ⟨hsigned, hholds⟩ := h.holds.record hbytes
        have hcf : chargesFor self r = true := by
          rw [chargesFor_of hself]
          exact hcharging
        refine ⟨?_, fun x hx hc => ?_, htallied⟩
        · refine ⟨⟨fun k => ?_, hholds.member.nonzero⟩, ⟨fun k => ?_, hholds.domain.nonzero⟩⟩
          · rw [memberTotal_snoc, if_pos hcf, memberShare, hplan]
            exact hholds.member.value k
          · rw [domainTotal_snoc, if_pos hcf, domainShare, hplan]
            exact hholds.domain.value k
        · rcases List.mem_append.mp hx with hx | hx
          · exact h.readable x hx hc
          · rw [List.mem_singleton.mp hx]
            exact ⟨⟨plan, hplan⟩, hsigned⟩
      · rename_i hcharging
        cases hs
        have hcf : chargesFor self r = false := by
          rw [chargesFor_of hself]
          simpa using hcharging
        refine ⟨?_, fun x hx hc => ?_, htallied⟩
        · refine ⟨⟨fun k => ?_, h.holds.member.nonzero⟩, ⟨fun k => ?_, h.holds.domain.nonzero⟩⟩
          · rw [memberTotal_snoc, hcf]
            exact h.holds.member.value k
          · rw [domainTotal_snoc, hcf]
            exact h.holds.domain.value k
        · rcases List.mem_append.mp hx with hx | hx
          · exact h.readable x hx hc
          · rw [List.mem_singleton.mp hx, hcf] at hc
            cases hc

/-- A round goes through when the record can be read and the sums fit. -/
theorem Scanned.step_fits (h : Scanned decode self groupKey scope snapshotStart wanted done s)
    (ranges : MapRange)
    (hread : chargesFor self r = true → ReadableSibling decode r)
    (hf : ∀ k, memberTotal decode self snapshotStart (done ++ [r]) k < 2 ^ 64)
    (hg : ∀ k, domainTotal decode self snapshotStart (done ++ [r]) k < 2 ^ 64) :
    ∃ s', siblingRecord decode ranges self groupKey scope snapshotStart s r = .ok s' := by
  unfold siblingRecord
  by_cases hself : r.id = self
  · exact ⟨s, if_pos hself⟩
  rw [if_neg hself]
  dsimp only
  rw [← chargesFor_of hself]
  split
  · exact ⟨s, rfl⟩
  · cases hcf : chargesFor self r with
    | false =>
      cases siblingStorageAllocationPlan decode r with
      | error e => exact ⟨s, rfl⟩
      | ok plan => exact ⟨_, rfl⟩
    | true =>
      obtain ⟨⟨plan, hplan⟩, hsigned⟩ := hread hcf
      simp only [memberTotal_snoc, domainTotal_snoc, if_pos hcf, memberShare, domainShare, hplan,
        Except.toOption, Option.elim_some] at hf hg
      obtain ⟨bytes, hbytes⟩ := h.holds.record_fits ranges hsigned hf hg
      rw [hplan]
      dsimp only
      rw [if_pos rfl, hbytes]
      exact ⟨_, rfl⟩

/-- **The whole scan.** -/
theorem Scanned.scan : ∀ {done : List Record} {s s' : Siblings},
    Scanned decode self groupKey scope snapshotStart wanted done s →
    scanSiblings decode ranges self groupKey scope snapshotStart s records = .ok s' →
    Scanned decode self groupKey scope snapshotStart wanted (done ++ records) s' := by
  induction records with
  | nil =>
    intro done s s' h hs
    cases hs
    rw [List.append_nil]
    exact h
  | cons r rs ih =>
    intro done s s' h hs
    obtain ⟨t, ht, hrest⟩ := bind_eq_ok.mp hs
    have := ih (h.step ht) hrest
    rwa [List.append_assoc] at this

theorem memberTotal_append_le (l l' : List Record) (k : String) :
    memberTotal decode self snapshotStart l k ≤ memberTotal decode self snapshotStart
    (l ++ l') k := by
  unfold memberTotal
  rw [List.filter_append, List.map_append, List.sum_append]
  exact Nat.le_add_right _ _

theorem domainTotal_append_le (l l' : List Record) (k : String) :
    domainTotal decode self snapshotStart l k ≤ domainTotal decode self snapshotStart
    (l ++ l') k := by
  unfold domainTotal
  rw [List.filter_append, List.map_append, List.sum_append]
  exact Nat.le_add_right _ _

/-- If the totals fit and every sibling is readable, the scan succeeds.  By induction on the
records. -/
theorem Scanned.scan_fits : ∀ {done : List Record} {s : Siblings},
    Scanned decode self groupKey scope snapshotStart wanted done s →
    (∀ r ∈ records, chargesFor self r = true → ReadableSibling decode r) →
    (∀ k, memberTotal decode self snapshotStart (done ++ records) k < 2 ^ 64) →
    (∀ k, domainTotal decode self snapshotStart (done ++ records) k < 2 ^ 64) →
    ∃ s', scanSiblings decode ranges self groupKey scope snapshotStart s records = .ok s' := by
  induction records with
  | nil => exact fun _ _ _ _ => ⟨_, rfl⟩
  | cons r rs ih =>
    intro done s h hread hf hg
    obtain ⟨hr, hrs⟩ := List.forall_mem_cons.mp hread
    rw [show done ++ r :: rs = (done ++ [r]) ++ rs by simp] at hf hg
    obtain ⟨t, ht⟩ := h.step_fits ranges hr
      (fun k => Nat.lt_of_le_of_lt (memberTotal_append_le _ _ k) (hf k))
      (fun k => Nat.lt_of_le_of_lt (domainTotal_append_le _ _ k) (hg k))
    obtain ⟨s', hs'⟩ := ih (h.step ht) hrs hf hg
    exact ⟨s', bind_eq_ok.mpr ⟨t, ht, hs'⟩⟩

theorem Scanned.start (groupKey scope : String) :
    Scanned decode self groupKey scope snapshotStart (groupKey != "") []
      { counts := if groupKey ≠ "" then some ∅ else none } := by
  refine ⟨Holds.empty, fun _ h => absurd h List.not_mem_nil, ?_⟩
  unfold Tallied
  by_cases hkey : groupKey = ""
  · simp [hkey]
  · simp [hkey]

end Steps

/-! ## 7. The closed form -/

section Closed

variable {decode : Decoder} {ranges : MapRange} {records : List Record} {self group scope : String}
variable {snapshotStart : Time} {s : Siblings}

/-- The scan succeeded. -/
theorem siblingCharges_scanned
    (h : siblingCharges decode ranges records self group scope snapshotStart = .ok s) :
    Scanned decode self (storageAntiAffinityGroupKey group scope) scope snapshotStart
      (storageAntiAffinityGroupKey group scope != "") records s := by
  have := (Scanned.start _ scope).scan h
  rwa [List.nil_append] at this

/-- It succeeds exactly when every charging record can be read and every sum fits. -/
theorem siblingCharges_ok_iff :
    (∃ s, siblingCharges decode ranges records self group scope snapshotStart = .ok s) ↔
      (∀ r ∈ records, chargesFor self r = true → ReadableSibling decode r) ∧
      ∀ k, memberTotal decode self snapshotStart records k < 2 ^ 64 ∧
        domainTotal decode self snapshotStart records k < 2 ^ 64 := by
  constructor
  · rintro ⟨s, hs⟩
    have h := siblingCharges_scanned hs
    refine ⟨h.readable, fun k => ⟨?_, ?_⟩⟩
    · rw [← h.holds.member.value k]
      exact UInt64.toNat_lt _
    · rw [← h.holds.domain.value k]
      exact UInt64.toNat_lt _
  · rintro ⟨hread, hfits⟩
    exact (Scanned.start _ scope).scan_fits hread (fun k => (hfits k).1) fun k => (hfits k).2

/-- The result does not depend on the order of the records or of the maps: it is determined by sums,
and a sum has no order. -/
theorem siblingCharges_perm {ranges' : MapRange} {records' : List Record}
    (hp : records'.Perm records)
    (h : siblingCharges decode ranges records self group scope snapshotStart = .ok s) :
    ∃ s', siblingCharges decode ranges' records' self group scope snapshotStart = .ok s' ∧
      ∀ k, s'.bytes.member.lookup k = s.bytes.member.lookup k ∧
        s'.bytes.domain.lookup k = s.bytes.domain.lookup k ∧
        s'.counts.map (fun m => m.lookup k) = s.counts.map fun m => m.lookup k := by
  have hm : ∀ k, memberTotal decode self snapshotStart records' k =
      memberTotal decode self snapshotStart records k := fun k => ((hp.filter _).map _).sum_eq
  have hd : ∀ k, domainTotal decode self snapshotStart records' k =
      domainTotal decode self snapshotStart records k := fun k => ((hp.filter _).map _).sum_eq
  obtain ⟨hread, hfits⟩ := siblingCharges_ok_iff.mp ⟨s, h⟩
  obtain ⟨s', hs'⟩ : ∃ s', siblingCharges decode ranges' records' self group scope snapshotStart =
      .ok s' := by
    refine siblingCharges_ok_iff.mpr ⟨fun r hr => hread r (hp.mem_iff.mp hr), fun k => ?_⟩
    rw [hm, hd]
    exact hfits k
  have hscan := siblingCharges_scanned h
  have hscan' := siblingCharges_scanned hs'
  refine ⟨s', hs', fun k => ⟨?_, ?_, ?_⟩⟩
  · exact hscan'.holds.member.lookup_eq ⟨fun k => by rw [hm]; exact hscan.holds.member.value k,
      hscan.holds.member.nonzero⟩ k
  · exact hscan'.holds.domain.lookup_eq ⟨fun k => by rw [hd]; exact hscan.holds.domain.value k,
      hscan.holds.domain.nonzero⟩ k
  · have ht := hscan.tallied
    have ht' := hscan'.tallied
    simp only [Tallied, (hp.filter _).length_eq] at ht ht'
    split at ht
    · obtain ⟨m, hm, hv, hz⟩ := ht
      rename_i hwanted
      rw [if_pos hwanted] at ht'
      obtain ⟨m', hm', hv', hz'⟩ := ht'
      rw [hm, hm']
      have heq := (hv' k).trans (hv k).symm
      have h0 := hz k
      have h0' := hz' k
      cases hl : m.lookup k with
      | none =>
        cases hl' : m'.lookup k with
        | none => simp [hl, hl']
        | some v =>
          rw [hl, hl'] at heq
          rw [hl'] at h0'
          exact absurd (congrArg some heq) h0'
      | some v =>
        cases hl' : m'.lookup k with
        | none =>
          rw [hl, hl'] at heq
          rw [hl] at h0
          exact absurd (congrArg some heq.symm) h0
        | some v' =>
          rw [hl, hl'] at heq
          simp only [Option.getD_some] at heq
          simp [hl, hl', heq]
    · rename_i hwanted
      rw [if_neg hwanted] at ht'
      rw [ht, ht']

end Closed

/-! ## 8. Nothing is understated -/

/-- The outstanding bytes of the steps of a record on a key. -/
def outstandingOn (r : Record) : String → Nat :=
  bytesOn (fun c : Journal.Charge => c.backing) outstandingOf (stepCharges r)

def outstandingOnDomain (r : Record) : String → Nat :=
  bytesOn (fun c : Journal.Charge => c.domain) outstandingOf (stepCharges r)

theorem bytesOn_mono {α : Type} {key : α → String} {bytes bytes' : α → Nat}
    (h : ∀ a, bytes a ≤ bytes' a) (l : List α) (k : String) :
    bytesOn key bytes l k ≤ bytesOn key bytes' l k := by
  induction l with
  | nil => exact le_refl _
  | cons a l ih =>
    rw [bytesOn_cons, bytesOn_cons]
    refine Nat.add_le_add ?_ ih
    unfold claim
    split
    · exact h a
    · exact le_refl _

theorem outstandingOf_le (acquired : Bool) (c : Journal.Charge) :
    outstandingOf c ≤ claimedOf acquired c :=
  Nat.le_add_right _ _

/-- **The bytes of siblings are never understated.**  When the scan succeeds, the value under each
key is the sum of the shares of the charging records other than our own, and a share is at least
what the plan charges and at least what the steps hold outstanding there.  The result depends
neither on the order of the records nor on the order in which the maps are iterated.  The scan fails
exactly when one of these records cannot be read or has a negative charge, or a sum exceeds 64 bits.
All of it follows from the closed form of the scan, which mentions neither the order of the records
nor that of the maps; a share is a maximum of two numbers, and so at least each of them. -/
theorem siblingCharges_sums (decode : Decoder) (ranges : MapRange) (records : List Record)
    (self group scope : String) (snapshotStart : Time) :
    (∀ s, siblingCharges decode ranges records self group scope snapshotStart = .ok s →
      (∀ k, (bytesAt s.bytes.member k).toNat =
          ((records.filter (chargesFor self)).map fun r => memberShare decode snapshotStart r k).sum
          ∧
        (bytesAt s.bytes.domain k).toNat =
          ((records.filter (chargesFor self)).map fun r =>
            domainShare decode snapshotStart r k).sum) ∧
      (∀ r ∈ records, chargesFor self r = true →
        ∃ plan, siblingStorageAllocationPlan decode r = .ok plan ∧ ∀ k,
          planOn plan k ≤ memberShare decode snapshotStart r k ∧
          outstandingOn r k ≤ memberShare decode snapshotStart r k ∧
          planOnDomain plan k ≤ domainShare decode snapshotStart r k ∧
          outstandingOnDomain r k ≤ domainShare decode snapshotStart r k) ∧
      ∀ (ranges' : MapRange) (records' : List Record), records'.Perm records →
        ∃ s', siblingCharges decode ranges' records' self group scope snapshotStart = .ok s' ∧
          ∀ k, s'.bytes.member.lookup k = s.bytes.member.lookup k ∧
            s'.bytes.domain.lookup k = s.bytes.domain.lookup k ∧
            s'.counts.map (fun m => m.lookup k) = s.counts.map fun m => m.lookup k) ∧
    ((∃ e, siblingCharges decode ranges records self group scope snapshotStart = .error e) ↔
      (∃ r ∈ records, chargesFor self r = true ∧
        ((∃ e, siblingStorageAllocationPlan decode r = .error e) ∨
          ∃ c ∈ stepCharges r, c.acquiredBytes < 0 ∨ c.outstandingBytes < 0)) ∨
      ∃ k, 2 ^ 64 - 1 < memberTotal decode self snapshotStart records k ∨
        2 ^ 64 - 1 < domainTotal decode self snapshotStart records k) := by
  refine ⟨fun s hs => ⟨fun k => ?_, fun r hr hc => ?_, fun ranges' records' hp => ?_⟩, ?_⟩
  · have h := siblingCharges_scanned hs
    exact ⟨h.holds.member.value k, h.holds.domain.value k⟩
  · obtain ⟨⟨plan, hplan⟩, -⟩ := (siblingCharges_scanned hs).readable r hr hc
    refine ⟨plan, hplan, fun k => ?_⟩
    have hm : memberShare decode snapshotStart r k = shareOf r plan snapshotStart k := by
      simp [memberShare, hplan, Except.toOption]
    have hd : domainShare decode snapshotStart r k = shareOfDomain r plan snapshotStart k := by
      simp [domainShare, hplan, Except.toOption]
    rw [hm, hd]
    exact ⟨le_max_left _ _, le_trans (bytesOn_mono (outstandingOf_le _) _ k) (le_max_right _ _),
      le_max_left _ _, le_trans (bytesOn_mono (outstandingOf_le _) _ k) (le_max_right _ _)⟩
  · exact siblingCharges_perm hp hs
  · have herr :
        (∃ e, siblingCharges decode ranges records self group scope snapshotStart = .error e) ↔
        ¬ ∃ s, siblingCharges decode ranges records self group scope snapshotStart = .ok s := by
      cases siblingCharges decode ranges records self group scope snapshotStart with
      | error e => simp
      | ok s => simp
    rw [herr, siblingCharges_ok_iff, not_and_or]
    refine or_congr ?_ ?_
    · simp only [not_forall, exists_prop]
      refine exists_congr fun r => and_congr_right fun _ => and_congr_right fun _ => ?_
      unfold ReadableSibling
      rw [not_and_or]
      refine or_congr ?_ ?_
      · cases siblingStorageAllocationPlan decode r with
        | error e => simp
        | ok plan => simp
      · simp only [not_forall, Unsigned, not_not, exists_prop]
    · simp only [not_forall, not_and_or, not_lt]
      exact exists_congr fun k => by omega

/-! ## 9. Acquired bytes

"Older than the snapshot" is by the tolerance that the code itself subtracts. -/

/-- The acquired bytes of the steps of a record on a key. -/
def acquiredOn (r : Record) : String → Nat :=
  bytesOn (fun c : Journal.Charge => c.backing) acquiredOf (stepCharges r)

/-- The charges of the steps restate what the plan charges on each capacity key. -/
def Restates (r : Record) (plan : StorageAllocationPlan) : Prop :=
  ∀ k, bytesOn (fun c : Journal.Charge => c.backing) (fun c => acquiredOf c + outstandingOf c)
    (stepCharges r) k = planOn plan k

section Acquired

variable {r : Record} {plan : StorageAllocationPlan} {snapshotStart : Time}

theorem bytesOn_add {α : Type} (key : α → String) (bytes bytes' : α → Nat) (l : List α)
    (k : String) :
    bytesOn key (fun a => bytes a + bytes' a) l k = bytesOn key bytes l k +
      bytesOn key bytes' l k := by
  induction l with
  | nil => rfl
  | cons a l ih =>
    simp only [bytesOn_cons, ih, claim]
    split
    · omega
    · omega

/-- A sum over a key is nothing when every member on a key has nothing. -/
theorem bytesOn_eq_zero {α : Type} {key : α → String} {bytes : α → Nat} {l : List α} :
    (∀ k, bytesOn key bytes l k = 0) ↔ ∀ a ∈ l, key a ≠ "" → bytes a = 0 := by
  induction l with
  | nil => simp [bytesOn]
  | cons a l ih =>
    simp only [bytesOn_cons, Nat.add_eq_zero_iff, forall_and, ih, List.forall_mem_cons]
    refine and_congr_left fun _ => ⟨fun h hkey => ?_, fun h k => ?_⟩
    · have := h (key a)
      rwa [claim, if_pos (by simp [blankKey, hkey])] at this
    · unfold claim
      split
      · rename_i hk
        refine h ?_
        rw [← hk.2]
        simpa [blankKey] using hk.1
      · rfl

/-- The steps of an old record count their outstanding bytes only. -/
theorem claimedOf_old (hold : r.updatedAt ≤ snapshotStart - siblingAcquiredClockSkewTolerance) :
    claimedOf (countAcquired r snapshotStart) = outstandingOf := by
  have hcount : countAcquired r snapshotStart = false := by
    unfold countAcquired
    exact decide_eq_false (not_lt.mpr hold)
  funext c
  simp [claimedOf, hcount]

end Acquired

/-- What a record adds to a scan: the totals with it less the totals without it. -/
theorem memberTotal_insert (decode : Decoder) (self : String) (snapshotStart : Time)
    (l₁ l₂ : List Record) {r : Record} (hr : chargesFor self r = true) (k : String) :
    memberTotal decode self snapshotStart (l₁ ++ r :: l₂) k =
      memberTotal decode self snapshotStart (l₁ ++ l₂) k + memberShare decode snapshotStart r
      k := by
  unfold memberTotal
  rw [((List.perm_middle.filter (chargesFor self)).map _).sum_eq, List.filter_cons_of_pos hr,
    List.map_cons, List.sum_cons, Nat.add_comm]

theorem domainTotal_insert (decode : Decoder) (self : String) (snapshotStart : Time)
    (l₁ l₂ : List Record) {r : Record} (hr : chargesFor self r = true) (k : String) :
    domainTotal decode self snapshotStart (l₁ ++ r :: l₂) k =
      domainTotal decode self snapshotStart (l₁ ++ l₂) k + domainShare decode snapshotStart r
      k := by
  unfold domainTotal
  rw [((List.perm_middle.filter (chargesFor self)).map _).sum_eq, List.filter_cons_of_pos hr,
    List.map_cons, List.sum_cons, Nat.add_comm]

/-- **When acquired bytes are not charged twice.**  Let a charging record be older than the snapshot
by the tolerance, and let its steps restate its plan.  It adds exactly its outstanding bytes on
every capacity key and domain if and only if none of its charges is acquired, on a key that is not
blank, and no domain is charged more by the plan than the steps hold outstanding.  What a record
adds is the difference of two scans (`memberTotal_insert`), and on each key that is the larger of
plan and steps; it is the outstanding bytes exactly when the plan says no more. -/
theorem acquired_charged_once_iff {decode : Decoder} {ranges : MapRange} {l₁ l₂ : List Record}
    {self group scope : String} {snapshotStart : Time} {r : Record} {plan : StorageAllocationPlan}
    {s s' : Siblings} (hr : chargesFor self r = true)
    (hplan : siblingStorageAllocationPlan decode r = .ok plan) (hrestates : Restates r plan)
    (hold : r.updatedAt ≤ snapshotStart - siblingAcquiredClockSkewTolerance)
    (hwith : siblingCharges decode ranges (l₁ ++ r :: l₂) self group scope snapshotStart = .ok s')
    (hwithout : siblingCharges decode ranges (l₁ ++ l₂) self group scope snapshotStart = .ok s) :
    (∀ k, (bytesAt s'.bytes.member k).toNat = (bytesAt s.bytes.member k).toNat + outstandingOn r k ∧
      (bytesAt s'.bytes.domain k).toNat =
        (bytesAt s.bytes.domain k).toNat + outstandingOnDomain r k) ↔
    (∀ c ∈ stepCharges r, c.backing ≠ "" → acquiredOf c = 0) ∧
      ∀ k, planOnDomain plan k ≤ outstandingOnDomain r k := by
  have hscan := siblingCharges_scanned hwith
  have hscan' := siblingCharges_scanned hwithout
  have hmember : ∀ k, (bytesAt s'.bytes.member k).toNat = (bytesAt s.bytes.member k).toNat +
      max (planOn plan k) (outstandingOn r k) := by
    intro k
    have h1 : (bytesAt s'.bytes.member k).toNat = _ := hscan.holds.member.value k
    have h2 : (bytesAt s.bytes.member k).toNat = _ := hscan'.holds.member.value k
    rw [h1, h2, memberTotal_insert _ _ _ _ _ hr, memberShare, hplan]
    unfold Except.toOption shareOf stepOn
    rw [Option.elim_some, claimedOf_old hold]
    rfl
  have hdomain : ∀ k, (bytesAt s'.bytes.domain k).toNat = (bytesAt s.bytes.domain k).toNat +
      max (planOnDomain plan k) (outstandingOnDomain r k) := by
    intro k
    have h1 : (bytesAt s'.bytes.domain k).toNat = _ := hscan.holds.domain.value k
    have h2 : (bytesAt s.bytes.domain k).toNat = _ := hscan'.holds.domain.value k
    rw [h1, h2, domainTotal_insert _ _ _ _ _ hr, domainShare, hplan]
    unfold Except.toOption shareOfDomain stepOnDomain
    rw [Option.elim_some, claimedOf_old hold]
    rfl
  -- The plan claims what is acquired as well, so the larger claim exceeds what is outstanding by
  -- it.
  have hsplit : ∀ k, planOn plan k = acquiredOn r k + outstandingOn r k := by
    intro k
    rw [← hrestates k, bytesOn_add]
    rfl
  have hzero : (∀ k, acquiredOn r k = 0) ↔ ∀ c ∈ stepCharges r, c.backing ≠ "" → acquiredOf c = 0 :=
    bytesOn_eq_zero
  rw [← hzero, ← forall_and]
  refine forall_congr' fun k => ?_
  have hm := hmember k
  have hd := hdomain k
  have hsp := hsplit k
  omega

/-- A plan that charges four bytes on the key `a`, and its text. -/
def samplePlanText : String :=
  "\x7b\"Charges\":[\x7b\"Charge\":\x7b\"Bytes\":4\x7d,\"CapacityKey\":\"a\"\x7d]\x7d"

def samplePlan : StorageAllocationPlan :=
  { version := 0
    charges := [
      { charge := { id := "", role := "", node := "", storageID := "", bytes := 4, limits := {} }
        capacityKey := "a"
        domainKey := "" }] }

/-- What `encoding/json` makes of that text. -/
def sampleDecoder : Decoder := fun text => if text = samplePlanText then some samplePlan else none

def sampleRanges : MapRange := ⟨fun m => m.entries, fun _ => .refl _⟩

/-- A record with that plan and one step, whose charge is acquired as far as `acquired` says. -/
def sampleSibling (acquired outstanding : Int64) : Record :=
  { version := 1, id := "peer", «namespace» := "director", clusterID := "cluster",
    authorityEpoch := "",
    kind := .vm, intent := { planVersion := 1, plan := samplePlanText }, state := .observed,
    steps := [{ id := "attempt-0-step-0", kind := "clone", target := {}, state := .observed,
                charges := [{ backing := "a", plannedBytes := 4, acquiredBytes := acquired,
                              outstandingBytes := outstanding }] }],
    createdAt := 1, updatedAt := 1 }

/-- The scan of one record, some time after it was updated. -/
def sampleScan (acquired outstanding : Int64) : Except SiblingErr Siblings :=
  siblingCharges sampleDecoder sampleRanges [sampleSibling acquired outstanding] "self" "" "none"
    300000000000

theorem sampleScan_four (acquired outstanding : Int64)
    (h : ((sampleScan acquired outstanding).toOption.any fun s => bytesAt s.bytes.member "a" == 4) =
      true) :
    ∃ s, sampleScan acquired outstanding = .ok s ∧ (bytesAt s.bytes.member "a").toNat = 4 := by
  cases hs : sampleScan acquired outstanding with
  | error e =>
    rw [hs] at h
    cases h
  | ok s =>
    rw [hs] at h
    have heq : bytesAt s.bytes.member "a" = 4 := by simpa [Except.toOption] using h
    exact ⟨s, rfl, by rw [heq]; rfl⟩

theorem siblingCharges_sums_sample : ∃ s, sampleScan 4 0 = .ok s ∧
    (bytesAt s.bytes.member "a").toNat =
      (([sampleSibling 4 0].filter (chargesFor "self")).map fun r =>
        memberShare sampleDecoder 300000000000 r "a").sum := by
  obtain ⟨s, hs, -⟩ := sampleScan_four 4 0 (by decide)
  exact ⟨s, hs,
    (((siblingCharges_sums sampleDecoder sampleRanges [sampleSibling 4 0] "self" "" "none"
    300000000000).1 s hs).1 "a").1⟩

theorem sampleSibling_restates : Restates (sampleSibling 4 0) samplePlan := fun _ => rfl

/-- Bytes that were acquired long before the snapshot are charged again. -/
theorem acquired_charged_again : ∃ s, sampleScan 4 0 = .ok s ∧
    chargesFor "self" (sampleSibling 4 0) = true ∧
    siblingStorageAllocationPlan sampleDecoder (sampleSibling 4 0) = .ok samplePlan ∧
    Restates (sampleSibling 4 0) samplePlan ∧
    (sampleSibling 4 0).updatedAt ≤ 300000000000 - siblingAcquiredClockSkewTolerance ∧
    (bytesAt s.bytes.member "a").toNat = 4 ∧ outstandingOn (sampleSibling 4 0) "a" = 0 := by
  obtain ⟨s, hs, hfour⟩ := sampleScan_four 4 0 (by decide)
  exact ⟨s, hs, by decide, rfl, sampleSibling_restates, by decide, hfour, by decide⟩

theorem acquired_charged_once_sample : ∃ s s',
    siblingCharges sampleDecoder sampleRanges [sampleSibling 0 4] "self" "" "none" 300000000000 =
      .ok s' ∧
    siblingCharges sampleDecoder sampleRanges [] "self" "" "none" 300000000000 = .ok s ∧
    ∀ k, (bytesAt s'.bytes.member k).toNat =
        (bytesAt s.bytes.member k).toNat + outstandingOn (sampleSibling 0 4) k ∧
      (bytesAt s'.bytes.domain k).toNat =
        (bytesAt s.bytes.domain k).toNat + outstandingOnDomain (sampleSibling 0 4) k := by
  obtain ⟨s', hs', -⟩ := sampleScan_four 0 4 (by decide)
  refine ⟨_, s', hs', rfl, ?_⟩
  have hrestates : Restates (sampleSibling 0 4) samplePlan := fun _ => rfl
  refine (acquired_charged_once_iff (by decide) rfl hrestates (by decide)
    (show siblingCharges _ _ ([] ++ sampleSibling 0 4 :: []) _ _ _ _ = _ from hs')
    (show siblingCharges _ _ ([] ++ []) _ _ _ _ = _ from rfl)).mpr ⟨?_, fun k => ?_⟩
  · intro c hc _
    have hc' : c = _ := List.mem_singleton.mp hc
    rw [hc']
    rfl
  · have hzero : planOnDomain samplePlan k = 0 := by
      unfold planOnDomain
      refine bytesOn_eq_zero.mpr ?_ k
      intro a ha hkey
      have ha' : a = _ := List.mem_singleton.mp ha
      rw [ha'] at hkey
      exact absurd rfl hkey
    rw [hzero]
    exact Nat.zero_le _

end Storage
