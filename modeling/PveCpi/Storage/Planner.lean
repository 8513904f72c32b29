/-
# The search for an allocation plan

`storage_placement_plan.go`: `NewStoragePlanIterator` checks a request, and every call of `Next`
returns another feasible plan.  The search goes through the groups of nodes in order.  In a group it
builds one option for each member storage and node that can hold the primary disk, ranks the
capacities, and expands the ranking again; below a root option it does the same for a separate
ephemeral disk.

A ledger is a value, so the options of one group hold different ledgers that grew from the same one:
with the bytes of the siblings, then the ISO image, then the primary disk, then the ephemeral disk.

What the iterator keeps when a call fails is part of it, so the calls are `Trial`s.  A call may find
the context cancelled and the clock anywhere each time it looks (`tick`).  The registry of
strategies is arbitrary, and so is the floating-point arithmetic that decides who is in the
utilization band.

Left out: the fingerprint of the policy, the copies of the slices, the metric of rejected
candidates, and a nil selection or inventory, which the types exclude.

The search is a nest of loops with early exits, and each level may fail softly (the option is
rejected, the search goes on) or hard (the call ends).  `Verdict` keeps the two apart, so that a
success of the whole can be read back to the checks of one option.

Two things that look like details are modelled because results depend on them.  The iterator keeps
its position when a call fails, so the next call goes on and does not start again.  And the options
of a group are ranked as capacities, after which a rank stands for every node that reaches the
capacity.
-/
import PveCpi.Storage.Siblings
import PveCpi.Lib.Trial
import Mathlib.Data.List.Destutter
import Mathlib.Data.List.Sort

namespace Storage

open Lib Lib.Check
open Lib.Text (trimSpace)
open Lib.Bits (addOr addOr_eq_ok)
open Journal (Time)

/-! ## 1. Requests -/

inductive SelectorKind where
  | set
  | pool
  | tier
  | unknown (kind : String)
  deriving DecidableEq, Repr

structure AntiAffinity where
  scope : String := ""
  utilizationBandPct : Option Int := none
  deriving DecidableEq, Repr

/-- What placement reads of a configured set of storages. -/
structure StorageSet where
  strategy : Policy
  antiAffinity : Option AntiAffinity := none
  deriving DecidableEq, Repr

/-- Where a role may be placed, and the layer of the configuration that says so. -/
structure StorageRoleSelection where
  role : String
  kind : SelectorKind
  value : String
  layer : String := ""
  property : String := ""
  set : Option StorageSet := none
  boundaryName : String := ""
  reserveMB : Int := 0
  ceilingPct : Option Int := none
  deriving DecidableEq, Repr

/-- The roles an operation creates, as `ResolveStoragePlacementSelectors` fills them in: each one
under its own name. -/
structure StoragePlacementSelection where
  root : Option StorageRoleSelection := none
  ephemeral : Option StorageRoleSelection := none
  persistent : Option StorageRoleSelection := none
  bundleVMDisks : Bool := false
  futurePersistentSet : String := ""
  root_role : ∀ r ∈ root, r.role = storageRoleRoot
  ephemeral_role : ∀ r ∈ ephemeral, r.role = storageRoleEphemeral
  persistent_role : ∀ r ∈ persistent, r.role = storageRolePersistent

structure StoragePlanNodeGroup where
  az : String
  nodes : List String
  haNodes : List String := []
  deriving DecidableEq, Repr

structure StoragePlanRequest where
  selection : StoragePlacementSelection
  inventory : Snapshot
  groups : List StoragePlanNodeGroup
  «namespace» : String
  allocationKey : String
  /-- A seed the caller chose. -/
  seed : Option (BitVec 256) := none
  rootBytes : UInt64 := 0
  ephemeralBytes : UInt64 := 0
  persistentBytes : UInt64 := 0
  isoBytes : UInt64 := 0
  sources : List StorageRootSource := []
  cloneMode : String := ""
  originalISOStorage : String := ""
  isoFollowRoot : Bool := false
  requireSharedISO : Bool := false
  existing : List StorageExistingVolume := []
  haNodes : List String := []
  extraLimits : Limits := {}
  roleLimits : Map String Limits := ∅
  siblingMemberBytes : Map String UInt64 := ∅
  siblingDomainBytes : Map String UInt64 := ∅
  siblingGroupCounts : Map String Int := ∅
  group : String := ""
  searchBudget : Int

/-- Why a call failed or a candidate was left out: one constructor for each message. -/
inductive PlanErr where
  -- The request.
  | identity
  | searchBudget
  | cloneMode
  | rounding (e : BudgetErr)
  | seed (message : String)
  | noNodes
  | unknownSet (name : String)
  | unknownTier (name : String)
  | unknownKind (kind : String)
  | emptyMembership (role : String)
  | notDiscovered (id : String)
  | unknownBoundary
  | emptyBoundary (role boundary : String)
  | outsideBoundary (role layer property id boundary : String)
  | noSource
  | incompleteSource
  | ephemeralSize
  | persistentSize
  -- The search.
  | submitted
  | cancelled (message : String)
  | expired
  | examined (n : Nat)
  | noRoles
  | linkedSet
  | reserveOverflow
  | rootOverflow
  | auxiliaryOverflow
  | bundleOverflow
  | rank (e : RankErr)
  | exhausted (rejections : List String)
  -- A candidate.
  | ineligible (id node : String)
  | backend (id : String)
  | existingAbsent
  | existingPins (node : String)
  | futureAbsent
  | noFuture (node : String)
  | noRootSource (node id : String)
  | isoUnset
  | isoBackend
  | isoUnshared
  | limits (e : BudgetErr)
  | ledger (e : LedgerErr)
  | noOptions (key : String)
  | combinedMember (key : String) (e : BudgetErr)
  | combinedDomain (domainKey key : String) (e : BudgetErr)
  deriving DecidableEq, Repr

/-! ## 2. The surroundings -/

/-- What the code finds when it looks at the context and the clock. -/
structure Tick where
  cancelled : Option String := none
  now : Time

structure Surroundings where
  registry : Registry
  /-- `Error()` of a message. -/
  text : PlanErr → String
  /-- `projectedBudgetUtilizationPct`. -/
  utilizationPct : BudgetProjection → Float64
  /-- `used-minimum > float64(band)+storageUtilizationEpsilon`. -/
  beyond : (band : Int) → (minimum used : Float64) → Bool
  tick : Nat → Tick

/-- What a call leaves behind when it fails: the candidates it examined and rejected, and how often
it looked at the context. -/
structure Effort where
  submitted : Bool := false
  examined : Nat := 0
  rejections : List String := []
  ticks : Nat := 0

abbrev Search (α : Type) := Trial Effort PlanErr α

/-! ## 3. Members and limits -/

namespace Snapshot

/-- The members of a set. -/
def membersOf (s : Snapshot) (set : String) : Option (List String) := s.members.lookup set

def tierStorage (s : Snapshot) (name : String) : Option String := s.tiers.lookup name

end Snapshot

def sortStrings (l : List String) : List String := l.insertionSort (· ≤ ·)

def validateStoragePlacementBoundary (r : StorageRoleSelection)
    (selectedIDs boundaryIDs : List String) : Except PlanErr Unit :=
  if r.boundaryName = "" then .ok ()
  else do
    let selectedIDs := if r.kind = .pool then [r.value] else selectedIDs
    refuse (selectedIDs.isEmpty || boundaryIDs.isEmpty) (.emptyBoundary r.role r.boundaryName)
    checkAll (fun id => refuse (!boundaryIDs.contains id)
      (.outsideBoundary r.role r.layer r.property id r.boundaryName)) selectedIDs

/-- The storages that a selector names. -/
def selectedStorages (s : Snapshot) (r : StorageRoleSelection) : Except PlanErr (List String) :=
  match r.kind with
  | .set => (s.membersOf r.value).elim (.error (.unknownSet r.value)) .ok
  | .pool => .ok [r.value]
  | .tier => (s.tierStorage r.value).elim (.error (.unknownTier r.value)) fun id => .ok [id]
  | .unknown kind => .error (.unknownKind kind)

def planRoleMembers (s : Snapshot) (r : StorageRoleSelection) : Except PlanErr (List String) := do
  let ids ← selectedStorages s r
  refuse ids.isEmpty (.emptyMembership r.role)
  checkAll (fun id => refuse (s.definition id).isNone (.notDiscovered id)) ids
  if r.boundaryName ≠ "" then
    match s.membersOf r.boundaryName with
    | none => .error .unknownBoundary
    | some boundary => validateStoragePlacementBoundary r ids boundary
  pure (sortStrings ids)

/-- The reserve and the ceiling of a role. -/
def limits (req : StoragePlanRequest) (r : StorageRoleSelection) : Except PlanErr Limits :=
  if r.reserveMB < 0 ∨ (2 ^ 64 - 1) / 2 ^ 20 < r.reserveMB then .error .reserveOverflow
  else (combineLimits
    [{ reserveBytes := UInt64.ofNat (r.reserveMB.toNat * 2 ^ 20),
       maxUtilizationPct := r.ceilingPct.getD 0 },
     req.extraLimits, (req.roleLimits.lookup r.role).getD {}]).mapError .limits

/-! ## 4. Who can reach what -/

def accessible (s : Snapshot) (node id : String) : Except PlanErr Unit :=
  match s.pair node id with
  | none => .error (.ineligible id node)
  | some p => refuse (decide (p.reason ≠ "")) (.ineligible id node)

def fileBackends : List String := ["dir", "nfs", "cifs", "cephfs", "glusterfs", "btrfs"]
def blockBackends : List String :=
  ["lvm", "lvmthin", "zfspool", "rbd", "iscsi", "iscsidirect", "zfs"]

/-- The contents that a storage declares, between commas. -/
def declaredContents (d : StorageInfo) : List String :=
  (d.content.toList.splitOn ',').map String.ofList

/-- The storage is of a supported type and declares the content. -/
def planContent (d : StorageInfo) (content : String) : Bool :=
  !d.disabled &&
    (fileBackends.contains d.type || (blockBackends.contains d.type && content == "images")) &&
    (declaredContents d).any fun c => trimSpace c == content

def sameBacking (a b : StorageInfo) : Bool := a.backingKey != "" && a.backingKey == b.backingKey

def isLinkedCloneSupported (storageType : String) : Bool := storageType != "lvm"

section Access

variable (req : StoragePlanRequest) (group : StoragePlanNodeGroup)

/-- The nodes that high availability may move the VM to, sorted, each one once. -/
def haNodes : List String := (sortStrings (req.haNodes ++ group.haNodes)).destutter (· ≠ ·)

def existingReachable (node : String) (existing : StorageExistingVolume) : Except PlanErr Unit :=
  match req.inventory.definition existing.storageID with
  | none => .error .existingAbsent
  | some d => do
    refuse (!d.isShared && existing.node != node) (.existingPins existing.node)
    accessible req.inventory node existing.storageID

/-- A disk that is attached later finds a storage. -/
def futureReachable (node : String) : Except PlanErr Unit :=
  if req.selection.futurePersistentSet = "" then .ok ()
  else match req.inventory.membersOf req.selection.futurePersistentSet with
    | none => .error .futureAbsent
    | some members =>
      refuse (!members.any fun m => (accessible req.inventory node m).isOk) (.noFuture node)

def accessConstraints (node id : String) : Except PlanErr Unit := do
  refuse (!(req.inventory.definition id).any fun d => planContent d "images") (.backend id)
  accessible req.inventory node id
  checkAll (fun ha => accessible req.inventory ha id) (haNodes req group)
  checkAll (existingReachable req node) req.existing
  futureReachable req node

/-! ## 5. The source of a root disk

The readable sources are ranked for the storage, and the first one with a mechanism is taken. -/

/-- The disk of a template already lives on the target. -/
def onTarget (s : Snapshot) (id : String) (target : StorageInfo) (source : StorageRootSource) :
    Bool :=
  source.templateVMID != 0 && (source.storageID == id ||
    (s.definition source.storageID).any fun d => sameBacking d target)

/-- The order of `rankRootSources`: templates before imports, those on the target first. -/
def sourceBefore (s : Snapshot) (id : String) (target : StorageInfo) (x y : StorageRootSource) :
    Bool :=
  if decide (0 < x.templateVMID) ≠ decide (0 < y.templateVMID) then decide (0 < x.templateVMID)
  else if onTarget s id target x ≠ onTarget s id target y then onTarget s id target x
  else if x.templateVMID ≠ y.templateVMID then decide (y.templateVMID < x.templateVMID)
  else if x.storageID ≠ y.storageID then decide (x.storageID < y.storageID)
  else decide (x.node < y.node)

/-- A stable sort. -/
def rankRootSources (s : Snapshot) (candidates : List StorageRootSource) (id : String)
    (target : StorageInfo) : List StorageRootSource :=
  candidates.insertionSort fun x y => sourceBefore s id target y x = false

def sourceAuxiliaryAccessible (node : String) (volumes : List StorageExistingVolume) : Bool :=
  volumes.all fun aux => match req.inventory.definition aux.storageID with
    | none => false
    | some d => planContent d "images" && (d.isShared || aux.node == node) &&
        (accessible req.inventory node aux.storageID).isOk

/-- A source that the node can read. -/
def sourceReadable (node : String) (source : StorageRootSource) : Bool :=
  match req.inventory.definition source.storageID with
  | none => false
  | some d => planContent d (if source.templateVMID = 0 then "import" else "images") &&
      (d.isShared || source.node == node) &&
      (accessible req.inventory node source.storageID).isOk &&
      sourceAuxiliaryAccessible req node source.auxiliaryVolumes

/-- How a source becomes a root disk on the target, if the clone mode allows it. -/
def sourceMechanism (id : String) (target : StorageInfo) (source : StorageRootSource) :
    Option String :=
  if source.templateVMID = 0 then
    if req.cloneMode ≠ "linked" then some "import" else none
  else
    let d := (req.inventory.definition source.storageID).getD {}
    let linked := sameBacking d target && isLinkedCloneSupported d.type && source.storageID == id &&
      source.auxiliaryVolumes.all fun aux => aux.storageID == id
    if req.cloneMode = "linked" ∧ linked = false then none
    else if linked = true ∧ req.cloneMode ≠ "full" then some "linked_clone"
    else some "full_clone"

def sourceFor (node id : String) : Except PlanErr (StorageRootSource × String) :=
  let target := (req.inventory.definition id).getD {}
  let candidates :=
    rankRootSources req.inventory (req.sources.filter (sourceReadable req node)) id target
  match candidates.findSome? fun s => (sourceMechanism req id target s).map fun m => (s, m) with
  | none => .error (.noRootSource node id)
  | some found => .ok found

/-! ## 6. Options

An option is a target with the ledger after its charge.  The ISO image is charged before the primary
disk, on the node and the group of the option. -/

/-- A storage and node for one role, and the ledger with its charge. -/
structure PlanOption where
  target : StoragePlanTarget
  ledger : Ledger
  candidate : EligibleCandidate
  /-- None before it was ranked. -/
  ranking : Option RankedCandidate := none

def addTarget (ledger : Ledger) (role node id : String) (virtual bytes : UInt64)
    (mechanism : String)
    (source : Option StorageRootSource) (r : StorageRoleSelection) : Except PlanErr PlanOption := do
  let limits ← limits req r
  let candidate ← (ledger.candidate req.inventory node id bytes limits).mapError .ledger
  let next ← (ledger.withPlanned req.inventory
    { id := role, role := role, node := node, storageID := id, bytes := bytes,
      limits := limits }).mapError .ledger
  let p := (req.inventory.pair node id).getD {}
  pure { target := { role := role, node := node, storageID := id, backingKey := p.backingKey,
                     capacityKey := p.capacityKey, domainKey := req.inventory.domainForStorage id,
                     mechanism := mechanism, virtualBytes := virtual, chargeBytes := bytes,
                     source := source, observation := p.stamp },
         ledger := next, candidate := candidate }

/-- The storage that the image would be uploaded to. -/
def isoStorage (root : String) : String :=
  let id := req.originalISOStorage
  if req.isoFollowRoot && (id == "" || id == "local") &&
      (req.inventory.definition root).any fun d =>
        d.isShared && (declaredContents d).contains storageRoleISO
    then root else id

def isoTarget (node root : String) : Except PlanErr String := do
  let id := isoStorage req root
  refuse (id == "") .isoUnset
  let d := (req.inventory.definition id).getD {}
  refuse ((req.inventory.definition id).isNone || !planContent d storageRoleISO) .isoBackend
  refuse ((req.requireSharedISO || !(haNodes req group).isEmpty) && !d.isShared) .isoUnshared
  accessible req.inventory node id
  checkAll (fun n => accessible req.inventory n id) (haNodes req group)
  pure id

/-- The charge of the image. -/
def isoCharge (node id : String) : Charge :=
  { id := storageRoleISO, role := storageRoleISO, node := node, storageID := id,
    bytes := req.isoBytes, limits := req.extraLimits }

def isoLedger (l : Ledger) (node root : String) : Except PlanErr Ledger := do
  let id ← isoTarget req group node root
  (l.withPlanned req.inventory (isoCharge req node id)).mapError .ledger

/-- The virtual size and the charge of a root disk. -/
def rootSizes (bytes : UInt64) (source : StorageRootSource) : Except PlanErr (UInt64 × UInt64) := do
  let virtual ← (roundBytes (max bytes source.virtualBytes) gib).mapError .rounding
  let charge ← addOr .rootOverflow virtual source.scratchBytes
  let charge ← addOr .auxiliaryOverflow charge source.auxiliaryBytes
  pure (virtual, charge)

/-- An option before its charge: what is read, how large the disk is and what it costs. -/
structure Sizing where
  virtual : UInt64
  charge : UInt64
  mechanism : String
  source : Option StorageRootSource := none

/-- A candidate that is left out, or an error that ends the search. -/
inductive Verdict (α : Type) where
  | rejected (e : PlanErr)
  | failed (e : PlanErr)
  | passed (a : α)

/-- Leave a candidate out when a step refuses it. -/
def Verdict.rejecting {α β : Type} (x : Except PlanErr α) (f : α → Verdict β) : Verdict β :=
  match x with
  | .error e => .rejected e
  | .ok a => f a

/-- End the search when a step fails. -/
def Verdict.failing {α β : Type} (x : Except PlanErr α) (f : α → Verdict β) : Verdict β :=
  match x with
  | .error e => .failed e
  | .ok a => f a

def sizing (r : StorageRoleSelection) (bytes : UInt64) (node id : String)
    (f : Sizing → Verdict PlanOption) : Verdict PlanOption :=
  if r.role = storageRoleRoot then
    .rejecting (sourceFor req node id) fun (source, mechanism) =>
    .failing (rootSizes bytes source) fun (virtual, charge) =>
    f { virtual := virtual, charge := charge, mechanism := mechanism, source := some source }
  else f { virtual := bytes, charge := bytes, mechanism := "allocate" }

/-- A bundle is ranked with both disks, though the ledger keeps separate steps. -/
def bundleCandidate (ephemeral : StorageRoleSelection) (ledger : Ledger) (node id : String)
    (charge : UInt64) (option : PlanOption) : Verdict PlanOption :=
  .failing (limits req ephemeral) fun limits =>
  let last := (option.ledger.records.getLast?.map fun r => r.charge.limits).getD {}
  .failing ((combineLimits [limits, last]).mapError .limits) fun combined =>
  .failing (addOr .bundleOverflow charge req.ephemeralBytes) fun total =>
  .rejecting ((ledger.candidate req.inventory node id total combined).mapError .ledger)
    fun candidate =>
  .passed { option with candidate := candidate }

def judge (r : StorageRoleSelection) (bytes : UInt64) (base : Ledger) (node id : String)
    (primary : Bool) : Verdict PlanOption :=
  .rejecting (accessConstraints req group node id) fun _ =>
  .rejecting (if primary && decide (0 < req.isoBytes) then isoLedger req group base node id
    else .ok base) fun ledger =>
  sizing req r bytes node id fun z =>
  .rejecting (addTarget req ledger r.role node id z.virtual z.charge z.mechanism z.source r)
    fun option =>
  match req.selection.ephemeral with
  | none => .passed option
  | some ephemeral =>
    if primary && req.selection.bundleVMDisks then
      bundleCandidate req ephemeral ledger node id z.charge option
    else .passed option

end Access

/-! ## 7. The options of a role -/

section Options

variable (env : Surroundings) (req : StoragePlanRequest) (group : StoragePlanNodeGroup)

def guard : Search Unit := .reading fun i => do
  .lift (refuse i.submitted .submitted)
  .modify fun i => { i with ticks := i.ticks + 1 }
  .lift (match (env.tick i.ticks).cancelled with
    | some message => .error (.cancelled message)
    | none => refuse (!req.inventory.fresh (env.tick i.ticks).now) .expired)

def consume : Search Unit := do
  guard env req
  .reading fun i => do
    .lift (refuse (decide (req.searchBudget ≤ i.examined)) (.examined i.examined))
    .modify fun i => { i with examined := i.examined + 1 }

def rejectCandidate (e : PlanErr) : Search Unit :=
  .modify fun i => { i with rejections := i.rejections ++ [env.text e] }

def optionFor (r : StorageRoleSelection) (bytes : UInt64) (base : Ledger) (node id : String)
    (primary : Bool) : Search (Option PlanOption) :=
  match judge req group r bytes base node id primary with
  | .rejected e => do
    rejectCandidate env e
    pure none
  | .failed e => .lift (.error e)
  | .passed option => pure (some option)

/-- The options under their capacity keys. -/
abbrev ByBacking := Map String (List PlanOption)

def ByBacking.at (m : ByBacking) (key : String) : List PlanOption := (m.lookup key).getD []

def ByBacking.add (m : ByBacking) (option : PlanOption) : ByBacking :=
  m.insert option.target.capacityKey (m.at option.target.capacityKey ++ [option])

/-- The loop over members and nodes. -/
def gather (r : StorageRoleSelection) (bytes : UInt64) (base : Ledger) (primary : Bool) :
    List (String × String) → ByBacking → Search ByBacking
  | [], m => pure m
  | (id, node) :: rest, m => do
    consume env req
    let option ← optionFor env req group r bytes base node id primary
    gather r bytes base primary rest (option.elim m m.add)

/-- The larger of the charges of two budgets. -/
def CapacityBudget.larger (a b : CapacityBudget) : CapacityBudget :=
  { a with outstandingBytes := max a.outstandingBytes b.outstandingBytes
           allocationBytes := max a.allocationBytes b.allocationBytes }

def EligibleCandidate.larger (a b : EligibleCandidate) : EligibleCandidate :=
  { a with member := a.member.larger b.member, domain := a.domain.larger b.domain }

def collapseRepresentative (key : String) (options : List PlanOption) :
    Except PlanErr (EligibleCandidate × BudgetProjection) :=
  match options with
  | [] => .error (.noOptions key)
  | o :: os => do
    let c := (os.map fun o => o.candidate).foldl EligibleCandidate.larger o.candidate
    let projected ← (projectBudget c.member).mapError (.combinedMember key)
    if c.domainKey ≠ "" then
      let _ ← (projectBudget c.domain).mapError (.combinedDomain c.domainKey key)
    pure ({ c with backingKey := key }, projected)

/-- One candidate for each key, in the order of the keys. -/
def representatives (m : ByBacking) : List String →
    Search (List (EligibleCandidate × BudgetProjection))
  | [] => pure []
  | key :: keys =>
    match collapseRepresentative key (m.at key) with
    | .error e => do
      rejectCandidate env e
      representatives m keys
    | .ok c => do
      let cs ← representatives m keys
      pure (c :: cs)

def defaultPolicy : Policy := ⟨"spread", 1⟩

/-- The strategy of a role. -/
def rolePolicy (r : StorageRoleSelection) : Policy :=
  (r.set.map fun s => s.strategy).getD defaultPolicy

def antiAffinityScope (r : StorageRoleSelection) : String :=
  match r.set.bind fun s => s.antiAffinity with
  | none => scopeInstanceGroup
  | some a => if trimSpace a.scope = "" then scopeInstanceGroup else a.scope

def antiAffinityBandPct (r : StorageRoleSelection) : Int :=
  ((r.set.bind fun s => s.antiAffinity).bind fun a => a.utilizationBandPct).getD 20

def partitionsBySiblingCount (r : StorageRoleSelection) (primary : Bool) : Bool :=
  primary && r.role == storageRoleRoot && !req.siblingGroupCounts.entries.isEmpty &&
    storageAntiAffinityGroupKey req.group (antiAffinityScope r) != ""

/-- The siblings on a capacity. -/
def siblingsOn (key : String) : Int := (req.siblingGroupCounts.lookup key).getD 0

def annotateSiblingBand (band : Int) (inBand : Bool) (ranked : List RankedCandidate) :
    List RankedCandidate :=
  ranked.map fun r =>
    let count := siblingsOn req r.candidate.backingKey
    let placement := if inBand then "in band" else "outside band"
    let bucket := if inBand then toString count else "none"
    let note := "anti-affinity " ++ placement ++ " " ++ toString band ++ "%, bucket " ++ bucket ++
      ", siblings " ++ toString count
    { r with reason := if r.reason = "" then note else r.reason ++ "; " ++ note }

def rankOnce (request : RequestSnapshot) (candidates : List EligibleCandidate) :
    Except PlanErr (List RankedCandidate) :=
  (Registry.rank (some env.registry) request [candidates] ⟨0, Nat.one_pos⟩).1.mapError .rank

/-- Rank the candidates of each sibling count, fewest siblings first. -/
def rankBuckets (request : RequestSnapshot) (band : Int) (candidates : List EligibleCandidate) :
    List Int → Except PlanErr (List RankedCandidate)
  | [] => .ok []
  | count :: counts => do
    let bucket ← rankOnce env request
      (candidates.filter fun c => siblingsOn req c.backingKey == count)
    let rest ← rankBuckets request band candidates counts
    pure (annotateSiblingBand req band true bucket ++ rest)

/-- The least utilization of the candidates that were measured, from `minimum` on. -/
def leastUtilization (utilization : Map String Float64) : List EligibleCandidate → Float64 → Float64
  | [], minimum => minimum
  | c :: cs, minimum =>
    leastUtilization utilization cs (match utilization.lookup c.backingKey with
      | some used => if used.lt minimum then used else minimum
      | none => minimum)

/-- The candidate was not measured, or is too far above the least utilization. -/
def outsideBand (band : Int) (utilization : Map String Float64)
    (candidates : List EligibleCandidate) (c : EligibleCandidate) : Bool :=
  match utilization.lookup c.backingKey with
  | none => true
  | some used => env.beyond band (leastUtilization utilization candidates .inf) used

def rankCandidates (request : RequestSnapshot) (r : StorageRoleSelection)
    (candidates : List EligibleCandidate) (utilization : Map String Float64) (primary : Bool) :
    Except PlanErr (List RankedCandidate) :=
  if !partitionsBySiblingCount req r primary then rankOnce env request candidates
  else do
    let band := antiAffinityBandPct r
    let outside := candidates.filter fun c => outsideBand env band utilization candidates c
    let within := candidates.filter fun c => !outsideBand env band utilization candidates c
    let counts := (within.map fun c => siblingsOn req c.backingKey).dedup.insertionSort (· ≤ ·)
    let ranked ← rankBuckets env req request band within counts
    if outside.isEmpty then pure ranked
    else do
      let last ← rankOnce env request outside
      pure (ranked ++ annotateSiblingBand req band false last)

/-- The utilizations of the representatives. -/
def utilizations (measured : List (EligibleCandidate × BudgetProjection)) : Map String Float64 :=
  measured.foldl (fun m c => m.insert c.1.backingKey (env.utilizationPct c.2)) ∅

/-- The options of a ranking, node by node. -/
def expand (m : ByBacking) (nodes : List String) (ranked : List RankedCandidate) :
    List PlanOption :=
  ranked.flatMap fun r => nodes.flatMap fun node =>
    ((m.at r.candidate.backingKey).filter fun o => o.target.node == node).map fun o =>
      { o with candidate := r.candidate, ranking := some r }

def options (r : StorageRoleSelection) (bytes : UInt64) (base : Ledger) (nodes : List String)
    (primary : Bool) : Search (List PlanOption) := do
  let ids ← .lift (planRoleMembers req.inventory r)
  .lift (refuse (r.role == storageRoleRoot && req.cloneMode == "linked" && decide (r.kind = .set) &&
    decide (1 < ids.length)) .linkedSet)
  let m ← gather env req group r bytes base primary
    (ids.flatMap fun id => nodes.map fun node => (id, node)) ∅
  let measured ← representatives env m (sortStrings (m.entries.map fun e => e.1))
  if measured.isEmpty then pure []
  else do
    let request : RequestSnapshot :=
      { policy := rolePolicy r, «namespace» := req.namespace, allocationKey := req.allocationKey,
        allocationGroup := r.role, requestedBytes := bytes, seed := req.seed.getD 0, seedSet :=
        true }
    let ranked ← .lift (rankCandidates env req request r (measured.map fun c => c.1)
      (utilizations env measured) primary)
    pure (expand m nodes ranked)

end Options

/-! ## 8. Plans -/

section Plans

variable (req : StoragePlanRequest) (group : StoragePlanNodeGroup)

/-- The targets of the images among the charges. -/
def isoTargets (records : List ChargeRecord) : List StoragePlanTarget :=
  (records.filter fun c => c.charge.role == storageRoleISO).map fun c =>
    let p := (req.inventory.pair c.charge.node c.charge.storageID).getD {}
    { role := storageRoleISO, node := c.charge.node, storageID := c.charge.storageID,
      backingKey := p.backingKey, capacityKey := p.capacityKey, domainKey := c.domainKey,
      mechanism := "upload", virtualBytes := c.charge.bytes, chargeBytes := c.charge.bytes,
      observation := p.stamp }

/-- The ledger with every charge of a plan. -/
def debited (root : PlanOption) (ep : Option PlanOption) : Ledger := (ep.getD root).ledger

def planTargets (root : PlanOption) (ep : Option PlanOption) : List StoragePlanTarget :=
  root.target :: (ep.toList.map fun o => o.target) ++ isoTargets req (debited root ep).records

/-- The domain of a target, when the inventory has it. -/
def targetDomain (t : StoragePlanTarget) : Option Domain :=
  if t.domainKey = "" then none else req.inventory.domain t.domainKey

/-- The storages whose definitions a target depends on. -/
def targetStorages (t : StoragePlanTarget) : List String :=
  t.storageID :: ((targetDomain req t).elim [] fun d => d.members) ++
    t.source.elim [] fun s => s.storageID :: s.auxiliaryVolumes.map fun aux => aux.storageID

def planStrategies : Map String Policy :=
  [req.selection.root, req.selection.ephemeral, req.selection.persistent].foldl
    (fun m role => role.elim m fun r => m.insert r.role (rolePolicy r)) ∅

def planDefinitions (targets : List StoragePlanTarget) : Map String StorageInfo :=
  (targets.flatMap (targetStorages req)).foldl
    (fun m id => (req.inventory.definition id).elim m fun d => m.insert id d) ∅

def planDomains (targets : List StoragePlanTarget) : Map String (List String) :=
  targets.foldl (fun m t => (targetDomain req t).elim m fun d => m.insert t.domainKey d.members) ∅

def planRankings (root : PlanOption) (ep : Option PlanOption) : List RankedCandidate :=
  root.ranking.toList ++
    if req.selection.bundleVMDisks then [] else ep.elim [] fun o => o.ranking.toList

def makePlan (rejections : List String) (root : PlanOption) (ep : Option PlanOption) :
    StorageAllocationPlan where
  «namespace» := req.namespace
  allocationKey := req.allocationKey
  az := group.az
  node := root.target.node
  seed := req.seed.getD 0
  haNodes := haNodes req group
  targets := planTargets req root ep
  charges := storagePlanExecutionCharges (debited root ep).records (planTargets req root ep)
  rankings := planRankings req root ep
  strategies := planStrategies req
  definitions := planDefinitions req (planTargets req root ep)
  capacityDomains := planDomains req (planTargets req root ep)
  rejections := rejections
  group := req.group

end Plans

/-! ## 9. The iterator

`Next` first goes on below the active root, then to the next root, then to the next group. -/

/-- What `NewStoragePlanIterator` makes of a request, and what it promises of it. -/
structure AcceptedRequest extends StoragePlanRequest where
  sized : ∀ source ∈ sources, source.virtualBytes ≠ 0

structure Iterator where
  req : AcceptedRequest
  group : Nat := 0
  /-- Empty before the options of the group were built. -/
  roots : List PlanOption := []
  rootIndex : Nat := 0
  continuations : List PlanOption := []
  continuationIndex : Nat := 0
  activeRoot : Option PlanOption := none
  effort : Effort := {}

/-- The sizes of the disks in whole gibibytes, the clone mode, and the seed. -/
def normalize (newSeed : Except String (BitVec 256)) (r : StoragePlanRequest) :
    Except PlanErr StoragePlanRequest := do
  refuse (r.allocationKey == "" || r.namespace == "") .identity
  refuse (decide (r.searchBudget ≤ 0)) .searchBudget
  let mode := if r.cloneMode = "" then "auto" else r.cloneMode
  refuse (mode != "auto" && mode != "full" && mode != "linked") .cloneMode
  let root ← (roundBytes r.rootBytes gib).mapError .rounding
  let ephemeral ← (roundBytes r.ephemeralBytes gib).mapError .rounding
  let persistent ← (roundBytes r.persistentBytes gib).mapError .rounding
  let seed ← (r.seed.elim newSeed .ok).mapError .seed
  pure { r with cloneMode := mode, rootBytes := root, ephemeralBytes := ephemeral,
                persistentBytes := persistent, seed := some seed }

def incompleteSource (source : StorageRootSource) : Bool :=
  decide (source.virtualBytes = 0) || source.storageID == "" || source.volumeID == "" ||
    source.node == ""

/-- The checks behind the copies. -/
def checkRequest (r : StoragePlanRequest) : Except PlanErr Unit := do
  refuse r.groups.isEmpty .noNodes
  checkAll (fun role => role.elim (.ok ()) fun r' => do
    let _ ← planRoleMembers r.inventory r'
    pure ()) [r.selection.root, r.selection.ephemeral, r.selection.persistent]
  refuse (r.selection.root.isSome && r.sources.isEmpty) .noSource
  checkAll (fun source => refuse (incompleteSource source) .incompleteSource) r.sources
  refuse (r.selection.ephemeral.isSome && decide (r.ephemeralBytes = 0)) .ephemeralSize
  refuse (r.selection.persistent.isSome && decide (r.persistentBytes = 0)) .persistentSize

theorem checkRequest_sized {r : StoragePlanRequest} (h : checkRequest r = .ok ()) :
    ∀ source ∈ r.sources, source.virtualBytes ≠ 0 := by
  unfold checkRequest at h
  simp only [check_bind_eq_ok, checkAll_eq_ok, refuse_eq_ok] at h
  obtain ⟨_, _, _, hsources, _⟩ := h
  intro source hs hzero
  have := hsources source hs
  rw [incompleteSource, hzero] at this
  cases this

def newStoragePlanIterator (newSeed : Except String (BitVec 256)) (r : StoragePlanRequest) :
    Except PlanErr Iterator := do
  let r ← normalize newSeed r
  match h : checkRequest r with
  | .error e => .error e
  | .ok () => pure { req := { r with sized := checkRequest_sized h } }

namespace Iterator

def markSubmitted (i : Iterator) : Iterator :=
  { i with effort := { i.effort with submitted := true } }

/-- The selection and the size of the primary disk. -/
def primaryRole (req : StoragePlanRequest) : Option (StorageRoleSelection × UInt64) :=
  match req.selection.root with
  | some r => some (r, req.rootBytes)
  | none => req.selection.persistent.map fun r => (r, req.persistentBytes)

/-- The ledger with nothing but the bytes of the siblings. -/
def seeded (req : StoragePlanRequest) : Ledger :=
  .withSiblings req.siblingMemberBytes req.siblingDomainBytes

def plan (i : Iterator) (g : StoragePlanNodeGroup) (root : PlanOption) (ep : Option PlanOption) :
    StorageAllocationPlan :=
  makePlan i.req.toStoragePlanRequest g i.effort.rejections root ep

section Next

variable (env : Surroundings) (g : StoragePlanNodeGroup)

/-- Build the options of the group, unless they are there. -/
def loadRoots (i : Iterator) : Except PlanErr Unit × Iterator :=
  if !i.roots.isEmpty then (.ok (), i)
  else match primaryRole i.req.toStoragePlanRequest with
    | none => (.error .noRoles, i)
    | some (role, bytes) =>
      match options env i.req.toStoragePlanRequest g role bytes (seeded i.req.toStoragePlanRequest)
          g.nodes true i.effort with
      | (.error e, effort) => (.error e, { i with effort := effort })
      | (.ok roots, effort) => (.ok (), { i with effort := effort, roots := roots })

/-- The inner loop, over the root options that are left. -/
def tryRoots : List PlanOption → Iterator → Except PlanErr (Option StorageAllocationPlan) × Iterator
  | [], i => (.ok none, i)
  | root :: rest, i =>
    let i := { i with rootIndex := i.rootIndex + 1 }
    match i.req.selection.ephemeral with
    | none => (.ok (some (i.plan g root none)), i)
    | some ephemeral =>
      if i.req.selection.bundleVMDisks then
        match addTarget i.req.toStoragePlanRequest root.ledger storageRoleEphemeral root.target.node
            root.target.storageID i.req.ephemeralBytes i.req.ephemeralBytes "allocate" none
            ephemeral with
        | .error e => tryRoots rest { i with effort := (rejectCandidate env e i.effort).2 }
        | .ok o => (.ok (some (i.plan g root (some o))), i)
      else
        match options env i.req.toStoragePlanRequest g ephemeral i.req.ephemeralBytes root.ledger
            [root.target.node] false i.effort with
        | (.error e, effort) => (.error e, { i with effort := effort })
        | (.ok [], effort) => tryRoots rest { i with effort := effort }
        | (.ok (o :: os), effort) =>
          let i := { i with effort := effort, activeRoot := some root, continuations := o :: os,
                            continuationIndex := 1 }
          (.ok (some (i.plan g root (some o))), i)

/-- The outer loop, over the groups that are left. -/
def nextFrom : List StoragePlanNodeGroup → Iterator →
    Except PlanErr StorageAllocationPlan × Iterator
  | [], i => (.error (.exhausted i.effort.rejections), i)
  | g :: gs, i =>
    match i.activeRoot, i.continuations[i.continuationIndex]? with
    | some root, some e =>
      (.ok (i.plan g root (some e)), { i with continuationIndex := i.continuationIndex + 1 })
    | _, _ =>
      let i := { i with activeRoot := none, continuations := [], continuationIndex := 0 }
      match loadRoots env g i with
      | (.error e, i) => (.error e, i)
      | (.ok (), i) =>
        match tryRoots env g (i.roots.drop i.rootIndex) i with
        | (.error e, i) => (.error e, i)
        | (.ok (some plan), i) => (.ok plan, i)
        | (.ok none, i) => nextFrom gs { i with group := i.group + 1, roots := [], rootIndex := 0 }

def next (i : Iterator) : Except PlanErr StorageAllocationPlan × Iterator :=
  match guard env i.req.toStoragePlanRequest i.effort with
  | (.error e, effort) => (.error e, { i with effort := effort })
  | (.ok (), effort) => nextFrom env (i.req.groups.drop i.group) { i with effort := effort }

end Next

end Iterator

end Storage
