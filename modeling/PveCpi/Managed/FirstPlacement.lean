/-
# First placements

`managed_vm.go` and `managed_vm_plan.go`: a create of a VM that has no record yet observes the
cluster, then plans inside the journal's planning callback, while the journal holds its index lock.
The callback charges the records that the journal hands it, ranks a placement over the frozen
snapshot, and returns the intent that the new record carries.

`placementSys` is the journal as first placements use it: any number of processes that open it,
acquire with this callback, save on the record they created, and close it.  Two things they never do
are left out of it.  A first placement begins no second attempt (that is a retry, and ranks again),
and it takes no record out of rest (`ready_to_return` is its last save).

What the plan is turned into, the shape of the VM and the text of the intent, is a parameter:
neither changes the charges of the plan.  Logging is left out.

Joint admission is a property of two subsystems at once.  The journal serializes planning, and the
planner admits a plan beside the records it is given; neither knows the other.  Here they are put
together: the callback of the journal IS the planner, with the scan of `Storage.Siblings` between
them.

The system is not that of `Journal.Ops` with a special callback, because its processes do less, and
what they do not do is needed: a record in flight keeps its plan and never starts to charge again.
-/
import PveCpi.Journal.Ops
import PveCpi.Storage.Feasible

namespace Managed

open Lib.Interleave (Prog Sys)
open Lib.Check
open Storage
open Journal (Record Intent Authority Time)

/-! ## 1. The planning callback -/

/-- Why a callback returns no intent. -/
inductive PlacementErr where
  | siblings (e : SiblingErr)
  | planning (e : PlanErr)
  | ledger (e : LedgerErr)
  | shape (message : String)
  | intent (message : String)

/-- `managedVMPlan`: what the observation half of a placement leaves for the ranking half. -/
structure ManagedVMPlan where
  selection : StoragePlacementSelection
  inventory : Snapshot
  request : StoragePlanRequest
  snapshotStart : Time
  group : String

/-- `managedVMAntiAffinityScope`. -/
def managedVMAntiAffinityScope (s : StoragePlacementSelection) : String :=
  match s.root with
  | none => scopeInstanceGroup
  | some root => antiAffinityScope root

/-- `applyManagedVMSiblings`. -/
def applyManagedVMSiblings (decode : Decoder) (ranges : MapRange) (observed : ManagedVMPlan)
    (records : List Record) (self : String) : Except SiblingErr ManagedVMPlan := do
  let s ← siblingCharges decode ranges records self observed.group
    (managedVMAntiAffinityScope observed.selection) observed.snapshotStart
  let counts := (s.counts.getD ∅).entries.map fun e => (⟨e.1, e.2⟩ : Sigma fun _ : String => Int)
  pure { observed with
    request := { observed.request with
      siblingMemberBytes := s.bytes.member
      siblingDomainBytes := s.bytes.domain
      siblingGroupCounts := counts.toAList } }

/-- `rankManagedVMPlan`: the first plan of the search, which an empty ledger must hold. -/
def rankManagedVMPlan (newSeed : Except String (BitVec 256)) (env : Surroundings)
    (observed : ManagedVMPlan) : Except PlacementErr StorageAllocationPlan := do
  let iterator ← (newStoragePlanIterator newSeed observed.request).mapError .planning
  let plan ← (iterator.next env).1.mapError .planning
  let _ ← (recharge observed.inventory (plan.charges.map fun r => r.charge)).mapError .ledger
  pure plan

/-- `managedVMFirstPlacement`.  `shape` stands for the build of the VM's shape and its frozen form,
`intent` for `storageJournalIntent`, and `text` for `Error()`. -/
structure ManagedVMFirstPlacement where
  prepared : ManagedVMPlan
  newSeed : Except String (BitVec 256) := .error ""
  env : Surroundings
  ranges : MapRange
  shape : StorageAllocationPlan → Except String Unit
  intent : StorageAllocationPlan → Except String Intent
  text : PlacementErr → String

namespace ManagedVMFirstPlacement

variable (decode : Decoder)

/-- `managedVMFirstPlacement.plan`: the plan that is frozen, and the intent. -/
def plan (p : ManagedVMFirstPlacement) (id : String) (siblings : List Record) :
    Except PlacementErr (StorageAllocationPlan × Intent) := do
  let prepared ←
    (applyManagedVMSiblings decode p.ranges p.prepared siblings id).mapError .siblings
  let plan ← rankManagedVMPlan p.newSeed p.env prepared
  let _ ← (p.shape plan).mapError .shape
  let intent ← (p.intent plan).mapError .intent
  pure (plan, intent)

/-- The callback that the journal runs.  It observes nothing. -/
def callback (p : ManagedVMFirstPlacement) : Journal.VMPlanFunc where
  run id siblings := pure <| match p.plan decode id siblings with
    | .ok planned => .ok planned.2
    | .error e => .error ⟨[.plain], p.text e⟩
  readOnly _ _ := trivial

end ManagedVMFirstPlacement

/-! ## 2. The system

The programs are those of the journal, restricted to four calls. -/

/-- What a first placement does to the journal. -/
inductive PlacementOp where
  | «open» («namespace» clusterID : String)
  /-- `AcquireVMPlanned`, with the callback of a placement. -/
  | acquireVMPlanned (agentID : String) (p : ManagedVMFirstPlacement) (passes : Nat)
  | save (next : Record)
  | completeAttempt (v : Journal.AttemptVerification)
  | close

/-- A handle of a record that this process created. -/
def fresh (h : Journal.Handle) : Bool := !h.resumed

/-- A save does not take a record out of rest. -/
def keepsRest (h : Journal.Handle) (next : Record) : Bool :=
  storageAllocationCharging h.record.state || !storageAllocationCharging next.state

/-- The call of the journal that an operation makes; `none` when a first placement does not make
it. -/
def PlacementOp.op (decode : Decoder) (l : Journal.Local) : PlacementOp → Option Journal.Op
  | .open ns clusterID => some (.open ns clusterID)
  | .acquireVMPlanned agentID p passes =>
    some (.acquireVMPlanned agentID (p.callback decode) passes)
  | .save next =>
    if l.handle.any fun h => fresh h && keepsRest h next then some (.call (.save next)) else none
  | .completeAttempt v =>
    if l.handle.any fresh then some (.call (.completeAttempt v)) else none
  | .close => some .close

/-- The journal of one namespace, shared by any number of first placements. -/
abbrev placementSys (decode : Decoder) : Sys where
  σ := Journal.World
  E := Journal.Eff
  Ans := Journal.Ans
  Ch := Journal.Choice
  L := Journal.Local
  Op := PlacementOp
  exec := Journal.exec
  prog o l := (o.op decode l).bind fun o => o.prog l
  enter i _ w := w.setCall i {}
  halt := Journal.halt
  boot := {}

/-! ## 3. What is in flight

The records on disk that charge, other than one's own. -/

/-- The records other than `self` whose state charges. -/
def inFlight (self : String) (w : Journal.World) : List Record :=
  (w.records.entries.map fun e => e.2).filter (chargesFor self)

/-- The bytes that the decoded plan of a record charges. -/
def plannedBytes (decode : Decoder) (p : ChargeRecord → Bool) (r : Record) : Nat :=
  match siblingStorageAllocationPlan decode r with
  | .ok plan => charged p plan.charges
  | .error _ => 0

end Managed
