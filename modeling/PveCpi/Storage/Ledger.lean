/-
# The capacity ledger

`storageinventory/ledger.go` and `ledger_restore.go`: the charges of one request, from the plan to
their reflection in a later observation.  A ledger is a value; every operation returns a new one.
`Ledger.candidate` is the admission test that all of them rest on: it adds up what is charged on a
capacity and on its domain, with the bytes that allocations outside this request have claimed, and
asks `projectBudget` whether a new charge still fits.

A Go map is an association list, and its order is one iteration order; the order is not part of the
meaning, which `Reordered.candidate_ok` states for the one loop whose order the source leaves open.

A charge passes through flags: planned, submitted, acquired, reflected, retained.  It counts against
its capacity until an observation that began after its completion has seen it, because only then are
its bytes part of the observed use.  To count it longer is safe, to count it shorter is not, and the
code is written so that every doubt keeps it counting.

A charge stands on two capacities at once, that of its backing and that of its declared domain, each
with limits of its own; `Budgets` carries the two sums through the one loop over the entries.
-/
import PveCpi.Storage.Budget
import PveCpi.Storage.Inventory

namespace Storage

open Lib.Check
open Lib.Bits (addOr addOr_eq_ok)
open Lib.Text (nonblank)
open Journal (Time)

/-! ## 1. Data -/

/-- One new allocation. -/
structure Charge where
  id : String
  role : String
  node : String
  storageID : String
  bytes : UInt64
  limits : Limits
  deriving DecidableEq, Repr

/-- A charge with the capacity it is held against and how far it got. -/
structure ChargeRecord where
  charge : Charge
  capacityKey : String
  domainKey : String
  volumeID : String := ""
  submitted : Bool := false
  acquired : Bool := false
  reflected : Bool := false
  retained : Bool := false
  deriving DecidableEq, Repr

/-- The proof that a submitted charge was completed. -/
structure CompletionEvidence where
  record : ChargeRecord
  stamp : ObservationStamp
  deriving DecidableEq, Repr

structure LedgerEntry where
  record : ChargeRecord
  completion : Option CompletionEvidence := none
  deriving DecidableEq, Repr

structure Ledger where
  entries : Map String LedgerEntry := ∅
  siblingMember : Map String UInt64 := ∅
  siblingDomain : Map String UInt64 := ∅

/-- Why an operation was refused: one constructor for each message, with what it prints. -/
inductive LedgerErr where
  | identity
  | duplicate (id : String)
  | retained
  | unavailable (id node reason : String)
  | backing (key : String)
  | limits (e : BudgetErr)
  | absent (id : String)
  | changed (id : String)
  | predates (id : String)
  | memberSiblings (id : String) (e : BudgetErr)
  | domainSiblings (key : String) (e : BudgetErr)
  | memberAdmission (id : String) (e : BudgetErr)
  | domainUnavailable (key reason : String)
  | domainAdmission (key : String) (e : BudgetErr)
  | unknown (id : String)
  | submitted (id : String)
  | awaiting (id : String)
  | mismatch (id : String)
  | retention
  | reconciliation (id : String)
  | stale
  | recoveredIdentity
  | recoveredDuplicate (id : String)
  | proofMissing
  | proofMismatch (id : String)
  | ownership
  | proofUnrelated
  deriving DecidableEq, Repr

/-- A candidate of the placement strategies. -/
structure EligibleCandidate where
  storageID : String
  backingKey : String
  domainKey : String
  member : CapacityBudget
  domain : CapacityBudget := {}
  deriving DecidableEq, Repr

/-- The value under a key of a byte map; zero when there is none. -/
def bytesAt (m : Map String UInt64) (key : String) : UInt64 := (m.lookup key).getD 0

namespace Ledger

def withSiblings (member domain : Map String UInt64) : Ledger :=
  { siblingMember := member, siblingDomain := domain }

/-- The records in iteration order. -/
def held (l : Ledger) : List ChargeRecord := l.entries.entries.map fun e => e.2.record

/-- `Records`: sorted by the identity of the charge. -/
def records (l : Ledger) : List ChargeRecord :=
  l.held.mergeSort fun a b => decide (a.charge.id ≤ b.charge.id)

def hasRetained (l : Ledger) : Bool := l.held.any fun r => r.retained

/-- Replace one entry of a clone. -/
def put (l : Ledger) (id : String) (e : LedgerEntry) : Ledger :=
  { l with entries := l.entries.insert id e }

end Ledger

/-! ## 2. Admission

The loop combines limits and adds bytes at the same time, and stops at the first entry that no
longer fits the snapshot.  Its closed form is in `Admission`. -/

def sameChargeTarget (s : Snapshot) (r : ChargeRecord) : Except LedgerErr Unit :=
  match s.pair r.charge.node r.charge.storageID with
  | none => .error (.absent r.charge.id)
  | some p => refuse (decide (p.capacityKey ≠ r.capacityKey ∨
      s.domainForStorage r.charge.storageID ≠ r.domainKey)) (.changed r.charge.id)

/-- A report that a completion precedes: of the same collector, later, and still fresh. -/
def reportAfter (s : Snapshot) (barrier : ObservationStamp) (now : Time)
    (stamp : ObservationStamp) : Bool :=
  decide (stamp.epoch = barrier.epoch) && decide (barrier.generation < stamp.generation) &&
    !decide (stamp.startedAt < barrier.completedAt) && stampFresh stamp now s.maxAge

/-- The reports behind the capacity of a record; `none` when its domain is not usable. -/
def contributing (s : Snapshot) (r : ChargeRecord) : Option (List ObservationStamp) := do
  let b ← s.backing r.capacityKey
  if r.domainKey = "" then pure b.reports
  else do
    let d ← s.domain r.domainKey
    if d.reason ≠ "" then none else pure (b.reports ++ d.reports)

/-- The stamp of a completion; the zero stamp before there is one. -/
def LedgerEntry.barrier (e : LedgerEntry) : ObservationStamp :=
  e.completion.elim {} fun c => c.stamp

def reflectedIn (s : Snapshot) (e : LedgerEntry) (now : Time) : Bool :=
  match contributing s e.record with
  | none => false
  | some reports => !reports.isEmpty && reports.all (reportAfter s e.barrier now)

def includeChargeBudget (limits : Limits) (outstanding : UInt64) (r : ChargeRecord) :
    Except LedgerErr (Limits × UInt64) := do
  let combined ← (combineLimits [limits, r.charge.limits]).mapError .limits
  if r.reflected then pure (combined, outstanding)
  else do
    let total ← addOr (.limits .byteSum) outstanding r.charge.bytes
    pure (combined, total)

/-- What the loop of `Candidate` accumulates. -/
structure Budgets where
  memberLimits : Limits
  memberOutstanding : UInt64
  domainLimits : Limits
  domainOutstanding : UInt64

/-- Count a record when it is on the capacity in question. -/
def countOn (counts : Bool) (limits : Limits) (outstanding : UInt64) (r : ChargeRecord) :
    Except LedgerErr (Limits × UInt64) :=
  if counts then includeChargeBudget limits outstanding r else pure (limits, outstanding)

/-- One round of the loop of `Candidate`. -/
def countEntry (s : Snapshot) (key domainKey : String) (b : Budgets) (e : LedgerEntry) :
    Except LedgerErr Budgets := do
  let r := e.record
  sameChargeTarget s r
  refuse (r.reflected && !reflectedIn s e s.observedAt) (.predates r.charge.id)
  let m ← countOn (decide (r.capacityKey = key)) b.memberLimits b.memberOutstanding r
  let d ← countOn (decide (domainKey ≠ "" ∧ r.domainKey = domainKey)) b.domainLimits
    b.domainOutstanding r
  pure ⟨m.1, m.2, d.1, d.2⟩

/-- The domain half of a candidate. -/
def domainBudget (s : Snapshot) (domainKey : String) (b : Budgets) (allocationBytes : UInt64) :
    Except LedgerErr CapacityBudget :=
  if domainKey = "" then pure {}
  else match s.domain domainKey with
    | none => .error (.domainUnavailable domainKey "")
    | some d => do
      refuse (decide (d.reason ≠ "")) (.domainUnavailable domainKey d.reason)
      let budget : CapacityBudget :=
        { totalBytes := d.totalBytes, availableBytes := d.availableBytes,
          reserveBytes := b.domainLimits.reserveBytes,
          maxUtilizationPct := b.domainLimits.maxUtilizationPct,
          outstandingBytes := b.domainOutstanding, allocationBytes := allocationBytes }
      let _ ← (projectBudget budget).mapError (.domainAdmission domainKey)
      pure budget

namespace Ledger

/-- Everything `Candidate` adds up: the entries, then the siblings. -/
def budgets (l : Ledger) (s : Snapshot) (id key domainKey : String) (limit : Limits) :
    Except LedgerErr Budgets := do
  let limits ← (combineLimits [limit]).mapError .limits
  let b ← (l.entries.entries.map fun e => e.2).foldlM (countEntry s key domainKey)
    ⟨limits, 0, limits, 0⟩
  let member ← addOr (.memberSiblings id .byteSum) b.memberOutstanding
    (bytesAt l.siblingMember key)
  let domain ← (if domainKey = "" then pure b.domainOutstanding
    else addOr (.domainSiblings domainKey .byteSum) b.domainOutstanding
      (bytesAt l.siblingDomain domainKey))
  pure { b with memberOutstanding := member, domainOutstanding := domain }

def candidate (l : Ledger) (s : Snapshot) (node id : String) (allocationBytes : UInt64)
    (limit : Limits) : Except LedgerErr EligibleCandidate := do
  refuse l.hasRetained .retained
  let pair := (s.pair node id).getD {}
  refuse ((s.pair node id).isNone || decide (pair.reason ≠ ""))
    (.unavailable id node pair.reason)
  match s.backing pair.capacityKey with
  | none => .error (.backing pair.capacityKey)
  | some b => do
    let domainKey := s.domainForStorage id
    let sums ← l.budgets s id pair.capacityKey domainKey limit
    let member : CapacityBudget :=
      { totalBytes := b.totalBytes, availableBytes := b.availableBytes,
        reserveBytes := sums.memberLimits.reserveBytes,
        maxUtilizationPct := sums.memberLimits.maxUtilizationPct,
        outstandingBytes := sums.memberOutstanding, allocationBytes := allocationBytes }
    let _ ← (projectBudget member).mapError (.memberAdmission id)
    let domain ← domainBudget s domainKey sums allocationBytes
    pure { storageID := id, backingKey := pair.capacityKey, domainKey := domainKey,
           member := member, domain := domain }

/-! ## 3. Operations

Each operation checks the flags that must precede it, and changes one entry. -/

def withPlanned (l : Ledger) (s : Snapshot) (charge : Charge) : Except LedgerErr Ledger := do
  refuse (!nonblank charge.id || !nonblank charge.role || decide (charge.bytes = 0)) .identity
  refuse (l.entries.lookup charge.id).isSome (.duplicate charge.id)
  refuse l.hasRetained .retained
  let c ← l.candidate s charge.node charge.storageID charge.bytes charge.limits
  pure (l.put charge.id
    { record := { charge := charge, capacityKey := c.backingKey, domainKey := c.domainKey } })

def submit (l : Ledger) (id : String) : Except LedgerErr Ledger :=
  match l.entries.lookup id with
  | none => .error (.unknown id)
  | some e => do
    refuse (e.record.submitted || e.record.acquired) (.submitted id)
    pure (l.put id { e with record := { e.record with submitted := true } })

def acquire (l : Ledger) (id : String) (evidence : CompletionEvidence) : Except LedgerErr Ledger :=
  match l.entries.lookup id with
  | none => .error (.awaiting id)
  | some e => do
    refuse (!e.record.submitted || e.record.acquired) (.awaiting id)
    refuse (decide (evidence.stamp.generation = 0) || decide (evidence.record.volumeID = "") ||
      decide ({ e.record with volumeID := evidence.record.volumeID } ≠ evidence.record))
      (.mismatch id)
    pure (l.put id
      { record := { e.record with acquired := true, volumeID := evidence.record.volumeID }
        completion := some evidence })

def retain (l : Ledger) (id : String) : Except LedgerErr Ledger :=
  match l.entries.lookup id with
  | none => .error .retention
  | some e => do
    refuse (!e.record.acquired) .retention
    pure (l.put id { e with record := { e.record with retained := true, reflected := false } })

def removePlanned (l : Ledger) (id : String) : Except LedgerErr Ledger :=
  match l.entries.lookup id with
  | none => .error (.unknown id)
  | some e => do
    refuse (e.record.submitted || e.record.acquired || e.record.retained) (.reconciliation id)
    pure { l with entries := l.entries.erase id }

/-- What a refresh makes of one entry. -/
def refreshEntry (s : Snapshot) (now : Time) (e : LedgerEntry) : Except LedgerErr LedgerEntry := do
  let r := e.record
  sameChargeTarget s r
  let pair := (s.pair r.charge.node r.charge.storageID).getD {}
  refuse (decide (pair.capacityKey ≠ r.capacityKey)) (.changed r.charge.id)
  if !r.acquired || r.retained then pure e
  else pure { e with record := { r with
    reflected := decide (pair.reason = "") && reflectedIn s e now } }

/-- Refresh the entries one by one. -/
def refreshEntries (s : Snapshot) (now : Time) :
    List (Σ _ : String, LedgerEntry) → Except LedgerErr (List (Σ _ : String, LedgerEntry))
  | [] => pure []
  | e :: es => do
    let e' ← refreshEntry s now e.2
    let es' ← refreshEntries s now es
    pure (⟨e.1, e'⟩ :: es')

def refresh (l : Ledger) (s : Snapshot) (now : Time) : Except LedgerErr Ledger := do
  let es ← refreshEntries s now l.entries.entries
  pure { l with entries := es.toAList }

end Ledger

/-- One record of a journal, on its way back into a ledger. -/
def restoreRecord (s : Snapshot) (proofs : Map String CompletionEvidence) (l : Ledger)
    (r : ChargeRecord) : Except LedgerErr Ledger := do
  refuse (!nonblank r.charge.id || !nonblank r.charge.role || decide (r.charge.bytes = 0) ||
    decide (r.capacityKey = "")) .recoveredIdentity
  refuse (l.entries.lookup r.charge.id).isSome (.recoveredDuplicate r.charge.id)
  let _ ← (combineLimits [r.charge.limits]).mapError .limits
  sameChargeTarget s r
  if r.acquired then
    match proofs.lookup r.charge.id with
    | none => .error .proofMissing
    | some proof => do
      refuse (!r.submitted || decide (r.volumeID = "")) .proofMissing
      refuse (decide (proof.stamp.generation = 0) || decide (proof.record ≠
        { r with acquired := false, reflected := false, retained := false }))
        (.proofMismatch r.charge.id)
      pure (l.put r.charge.id { record := { r with reflected := false }, completion := some proof })
  else do
    refuse (decide (r.volumeID ≠ "") || r.reflected || r.retained) .ownership
    pure (l.put r.charge.id { record := { r with reflected := false } })

/-- Check a restored ledger: every charge must still be admitted. -/
def readmit (s : Snapshot) (l : Ledger) : List ChargeRecord → Except LedgerErr Unit :=
  checkAll fun r => do
    let _ ← l.candidate s r.charge.node r.charge.storageID 0 r.charge.limits
    pure ()

def restoreLedger (s : Snapshot) (records : List ChargeRecord)
    (proofs : Map String CompletionEvidence) (now : Time) : Except LedgerErr Ledger := do
  refuse (!s.fresh now) .stale
  let l ← records.foldlM (restoreRecord s proofs) {}
  -- Every proof must have been used: as many acquired records as proofs.
  refuse (decide ((records.filter fun r => r.acquired).length ≠ proofs.entries.length))
    .proofUnrelated
  let l ← l.refresh s now
  readmit s l l.records
  pure l

end Storage
