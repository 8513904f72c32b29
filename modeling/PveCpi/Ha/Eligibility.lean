/-
# Whether HA takes a VM, and where it may run

`ha/eligibility.go`, with the access sets of `pve/volume_access_set.go` and the pins of `ha/pin.go`
and `ha/staging.go`: `DecideVM` reads the profile of a cluster and what is known about one VM and
decides whether the VM becomes an HA resource, under which policy, and which nodes its pin names.

* A VM whose volumes are all on shared storage that two placeable nodes reach gets the policy
  `shared`: its pin names the nodes that reach every volume, meet every constraint and, where the
  CPU type asks for it, belong to the CPU domain of its node.
* A VM with a local volume is pinned to its own node (`hold`), or to its own node until a partner
  has a verified replica (`replicate`).

Node names are texts, compared as they are written; the pin trims them.  A message is a constructor
of `Reason` or `Warning`.

The decision is a long function with many exits, and each exit is a `VMDecision` with an outcome, a
reason and the lists that the pin is made of.  It is embedded in the order of the source: the
volumes are classified, the access sets are formed, the policy is chosen, the hard nodes are
intersected with what the policy allows, and the CPU type is looked at.  `Placement` proves what a
registration says; nothing is proved here.

One thing about names matters.  The profile and the inventory give node names as they are written,
and the decision compares them as such; the pin trims them.  A name with white space around it is
therefore one node to the decision and another one to the pin.
-/
import PveCpi.Lib.Text
import PveCpi.Ha.Narrow
import PveCpi.Vm.Marker
import Mathlib.Data.List.Sort
import Mathlib.Data.List.Dedup

namespace Ha

open Lib.Text

/-! ## 1. Texts and node lists -/

/-- `strings.Cut`. -/
def cut (s sep : String) : Option (String × String) :=
  (cutList sep.toList s.toList).map fun r => (String.ofList r.1, String.ofList r.2)

/-- `strings.ToLower`, for a comparison with ASCII letters: outside ASCII only the dotted capital I
and the Kelvin sign have a lower-case letter in ASCII. -/
def toLower (s : String) : List Char :=
  s.toList.map fun c =>
    if c == '\u0130' then 'i' else if c == '\u212a' then 'k' else c.toLower

/-- `strings.EqualFold` with a lower-case ASCII text. -/
def equalFold (s t : String) : Bool := decide (s.toList.map Vm.foldName = t.toList)

/-- `sort.Strings`. -/
def sorted (l : List String) : List String := l.insertionSort fun a b => a.toList ≤ b.toList

/-- `trimmed`: without blanks around a name, empty names and repetitions, in order. -/
def trimmed (l : List String) : List String :=
  sorted (((l.map trimSpace).filter fun n => decide (n ≠ "")).dedup)

/-- `normalizeNodes`. -/
def normalizeNodes (l : List String) : List String := sorted (trimmed l)

/-- `intersect`. -/
def intersect (a b : List String) : List String := sorted (a.filter fun n => decide (n ∈ b))

/-- `sameSet`. -/
def sameSet (a b : List String) : Bool :=
  decide (a.length = b.length) && a.all fun n => decide (n ∈ b)

/-- `containsField`. -/
def containsField (csv want : String) : Bool :=
  (csv.toList.splitOn ',').any fun f => decide (trimSpace (String.ofList f) = want)

/-! ## 2. Storages and access sets

A volume is reached from the nodes of its storage; a volume of node-local storage only from the node
it is on. -/

/-- `pve.StorageInfo`, as far as the decision reads it. -/
structure StorageInfo where
  name : String
  type : String := ""
  shared : Bool := false
  disabled : Bool := false
  nodes : List String := []
  content : String := ""
deriving DecidableEq

def storageTypeZFSPool : String := "zfspool"

/-- The types that are shared by definition. -/
def sharedTypes : List String :=
  ["rbd", "cephfs", "nfs", "cifs", "glusterfs", "pbs", "iscsi", "iscsidirect", "zfs", "drbd"]

/-- `IsShared`. -/
def StorageInfo.isShared (s : StorageInfo) : Bool :=
  s.shared || sharedTypes.any fun t => decide (toLower s.type = t.toList)

/-- `pve.AccessVolume`. -/
structure AccessVolume where
  volume : String
  homeNode : String
deriving DecidableEq

/-- The storage of a storage-qualified volume ID. -/
def storageOf (volume : String) : Option String :=
  match cut volume ":" with
  | some (storage, name) => if storage = "" ∨ name = "" then none else some storage
  | none => none

/-- `storageNodeSet`: nothing when the reach cannot be stated, and `some none` for every member. -/
def storageNodeSet (info : StorageInfo) (homeNode : String) : Option (Option (List String)) :=
  if info.disabled then some (some [])
  else if !info.isShared then
    if homeNode = "" then none
    else if info.nodes ≠ [] ∧ homeNode ∉ info.nodes then some (some [])
    else some (some [homeNode])
  else if info.nodes = [] then some none
  else some (some info.nodes)

/-- Why an access set cannot be computed. -/
inductive AccessErr
  | notQualified (volume : String)
  | unknownStorage (storage volume : String)
  | noHomeNode (volume storage : String)
deriving DecidableEq

/-- The nodes of a set that reach a volume. -/
def narrowTo (get : String → Option StorageInfo) (set : List String) (v : AccessVolume) :
    Except AccessErr (List String) :=
  match storageOf v.volume with
  | none => .error (.notQualified v.volume)
  | some storage =>
    match get storage with
    | none => .error (.unknownStorage storage v.volume)
    | some info =>
      match storageNodeSet info v.homeNode with
      | none => .error (.noHomeNode v.volume storage)
      | some none => .ok set
      | some (some reach) => .ok (set.filter fun n => decide (n ∈ reach))

/-- `VolumeAccessSet`. -/
def volumeAccessSet (get : String → Option StorageInfo) (members : List String)
    (volumes : List AccessVolume) : Except AccessErr (List String) :=
  (volumes.foldlM (narrowTo get) ((members.filter fun n => decide (n ≠ "")).dedup)).map sorted

/-- `storageIndex.Get`; an index that forces local storage hides what makes one shared. -/
def storageIndex (storages : List StorageInfo) (forceLocal : Bool) (name : String) :
    Option StorageInfo :=
  (storages.reverse.find? fun s => decide (s.name = name)).map fun info =>
    if forceLocal then { name := info.name, disabled := info.disabled, nodes := info.nodes }
    else info

/-! ## 3. The CPU type -/

/-- `cpuTypeModel`. -/
def cpuTypeModel (cpu : String) : String :=
  let first := trimSpace (((cut (trimSpace cpu) ",").map Prod.fst).getD (trimSpace cpu))
  match cutPrefix first "cputype=" with
  | some rest => trimSpace rest
  | none => if contains first "=" then "" else first

/-- `CPUTypeNeedsDomain`. -/
def cpuTypeNeedsDomain (cpu : String) : Bool :=
  decide (toLower (cpuTypeModel cpu) = "host".toList) ||
    decide (toLower (cpuTypeModel cpu) = "max".toList)

/-! ## 4. What the decision reads -/

inductive Mode
  | off | auto | managed
deriving DecidableEq

inductive StorageTopology
  | auto | shared | local | mixed
deriving DecidableEq

inductive LocalPolicy
  | none | hold | replicate
deriving DecidableEq

/-- The `pve.ha` keys and the ISO setting. -/
structure Config where
  storageTopology : StorageTopology := .auto
  localPolicy : LocalPolicy := .none
  pinAZOff : Bool := false
  pinAZStrict : Bool := true
  dlbAZName : String := "dlb"
  dlbEnabled : Bool := false
  requireSharedISOForHA : Bool := false

/-- `NodeFacts`, as far as the decision reads it; `belowHAFloor` is a known version under the floor
for HA writes. -/
structure NodeFacts where
  name : String
  online : Bool := true
  belowHAFloor : Bool := false

/-- A node of the health report. -/
structure NodeHealth where
  name : String
  placeable : Bool

structure ReplicationJob where
  guest : Int
  target : String

/-- `Profile`, as far as the decision reads it; `full` says that HA writes are allowed. -/
structure Profile where
  mode : Mode
  full : Bool
  nodes : List NodeFacts
  dlbSupported : Bool := false
  health : Option (List NodeHealth) := none
  vmReplicate : Bool := true
  permissionsErr : Bool := false
  storages : List StorageInfo := []
  storagesErr : Bool := false
  replication : List ReplicationJob := []
  cpuDomains : List (List String) := []
  unknownCPUNodes : List String := []

/-- The profile's node names, as the callers hand them to `DecisionPin`. -/
def Profile.configured (p : Profile) : List String :=
  (p.nodes.map NodeFacts.name).filter fun n => decide (n ≠ "")

/-- `nodeNames`. -/
def Profile.nodeNames (p : Profile) : List String := sorted p.configured

/-- `placeableSet`. -/
def Profile.placeableSet (p : Profile) : List String :=
  match p.health with
  | some nodes => (nodes.filter NodeHealth.placeable).map NodeHealth.name
  | none => (p.nodes.filter NodeFacts.online).map NodeFacts.name

/-- `DomainOf`. -/
def Profile.domainOf (p : Profile) (node : String) : Option (List String) :=
  p.cpuDomains.find? fun d => decide (node ∈ d)

inductive VolumeKind
  | disk | iso
deriving DecidableEq

/-- `VMVolume`. -/
structure VMVolume where
  volume : String
  homeNode : String := ""
  kind : VolumeKind := .disk
  legacy : Bool := false
  noReplicate : Bool := false

/-- `NodeConstraint`. -/
structure NodeConstraint where
  name : String
  nodes : List String
  pin : Bool := false

/-- What the decision reads of the HA state. -/
structure HAState where
  sid : String
  known : Bool
  inCRM : Bool
  uid : String

/-- `VMInput`. -/
structure VMInput where
  config : Config
  vmid : Int
  node : String
  volumes : List VMVolume
  cpuType : String := ""
  constraints : List NodeConstraint := []
  az : String := ""
  azNodes : List String := []
  inDLBAZ : Bool := false
  linkedClone : Bool := false
  state : Option HAState := none
  haManaged : Bool := false

/-! ## 5. Decisions -/

inductive Outcome
  | register | skip | fail
deriving DecidableEq

inductive Policy
  | none | shared | hold | replicate
deriving DecidableEq

/-- A prerequisite of replication that is missing. -/
inductive Gap
  | localISO
  | noReplicatePrivilege
  | linkedClone
  | unknownCPU (node : String)
  | access (e : AccessErr)
  | notZFS (volume storage : String)
  | storageDisabled (storage : String)
  | storageShared (storage : String)
  | replicateOff (volume : String)
  | noImages (storage : String)
  | notOnNode (storage node : String)
  | noLocalDisk
  | noPartner
deriving DecidableEq

/-- Why a VM is not HA-managed as shared. -/
inductive WhyLocal
  | fewPlaceable
  | localVolumes (volumes : List String)
deriving DecidableEq

/-- Why a decision ended as it did. -/
inductive Reason
  | dlbNeedsMode (az : String)
  | modeOff
  | haFloor
  | notWritable
  | prerequisites
  | observeOnly
  | noNode
  | outsidePin (node : String) (c : String) (nodes : List String)
  | dlbUnsupported
  | storagesUnreadable
  | notQualified (volume : String)
  | unknownStorage (volume storage : String)
  | localVolumes (volumes : List String)
  | access (e : AccessErr)
  | localISO (volumes : List String)
  | unknownCPU (node : String)
  | smallCPUDomain (nodes : List String) (placeable : Nat) (transient : Bool)
  | topologyShared (why : WhyLocal)
  | unreachable (node : String) (access : List String)
  | localPolicyNone (why : WhyLocal)
  | replicateLocalISO
  | gaps (why : WhyLocal) (gaps : List Gap)
  | emptySet (az : String)
  | outsideSet (node : String) (set : List String)
  | legacyDisks (volumes : List String)
  | sharedVolumes
  | held (why : WhyLocal) (node : String)
  | replicated (node partner : String)
deriving DecidableEq

/-- A line that the caller logs. -/
inductive Warning
  | refused (r : Reason)
  | dlbKept
  | dlbIgnored
  | localISO (volumes : List String)
  | legacyDisk (volume : String)
deriving DecidableEq

def pinPriorityPlaced : Int := 2
def pinPriorityPreferred : Int := 1
def pinPriorityRest : Int := 0

/-- `VMDecision`.  A nil `Hard` is `none`; `reason` carries the error of a failed decision too. -/
structure VMDecision where
  vmid : Int
  sid : String
  node : String
  outcome : Outcome := .skip
  policy : Policy := .none
  reason : Option Reason := Option.none
  warnings : List Warning := []
  access : List String := []
  placeableShortfall : Bool := false
  transient : Bool := false
  cpuDomain : Option (List String) := Option.none
  hard : Option (List String) := Option.none
  admissible : List String := []
  placed : String
  preferred : List String := []
  dlb : Bool := false
  priorities : List (String × Int) := []
  partner : String := ""
  widened : List String := []
  decisionUID : String := ""

namespace VMDecision

variable (d : VMDecision)

/-- `Registers`. -/
def registers : Bool := decide (d.outcome = .register)

/-- `warn`. -/
def warn (w : Warning) : VMDecision := { d with warnings := d.warnings ++ [w] }

/-- `skip`. -/
def skip (r : Reason) : VMDecision :=
  { d with outcome := .skip, policy := .none, reason := some r }

/-- `fail`. -/
def fail (r : Reason) : VMDecision :=
  { d with outcome := .fail, policy := .none, reason := some r }

/-- `postpone`. -/
def postpone (r : Reason) : VMDecision := { d with transient := true }.fail r

/-- `refuse`. -/
def refuse (managed : Bool) (r : Reason) (transient : Bool) : VMDecision :=
  let d := { d with transient := transient }
  if managed then d.fail r else (d.skip r).warn (.refused r)

end VMDecision

/-! ## 6. The volumes -/

/-- `volumeClass`. -/
structure VolumeClass where
  vol : VMVolume
  info : StorageInfo
  isLocal : Bool

def VolumeClass.accessVolume (c : VolumeClass) : AccessVolume := ⟨c.vol.volume, c.vol.homeNode⟩

section Decision

variable (p : Profile) (input : VMInput)

def managed : Bool := decide (p.mode = .managed)

/-- The node of the decision. -/
def VMInput.placed : String := trimSpace input.node

/-- A volume with the node that holds it. -/
def VMInput.home (v : VMVolume) : VMVolume :=
  if trimSpace v.homeNode = "" then { v with homeNode := input.placed } else v

/-- The loop of `classifyVolumes`. -/
def classifyVolume (v : VMVolume) : Except (Reason × Bool) VolumeClass :=
  match storageOf v.volume with
  | none => .error (.notQualified v.volume, false)
  | some storage =>
    match storageIndex p.storages false storage with
    | none => .error (.unknownStorage v.volume storage, true)
    | some info => .ok
        { vol := input.home v
          info := info
          isLocal := decide (input.config.storageTopology = .local) || !info.isShared }

/-- `classifyVolumes`. -/
def classifyVolumes : Except (Reason × Bool) (List VolumeClass) :=
  if input.volumes ≠ [] ∧ p.storagesErr then .error (.storagesUnreadable, true)
  else input.volumes.mapM (classifyVolume p input)

/-- `storageGetter`. -/
def storageGetter : String → Option StorageInfo :=
  storageIndex p.storages (decide (input.config.storageTopology = .local))

/-- `narrow`. -/
def narrow (get : String → Option StorageInfo) (volumes : List AccessVolume) :
    Except AccessErr (List String) :=
  (volumeAccessSet get p.nodeNames volumes).map fun access =>
    input.constraints.foldl (fun access c => intersect access c.nodes) access

/-- `countPlaceable`. -/
def countPlaceable (nodes : List String) : Nat :=
  (nodes.filter fun n => decide (n ∈ p.placeableSet)).length

/-- `cpuDomain`: the domain, if the CPU type needs one, and whether it cannot be stated. -/
def cpuDomain : Option (List String) × Bool :=
  if !cpuTypeNeedsDomain input.cpuType then (none, false)
  else
    match p.domainOf input.placed with
    | none => (none, true)
    | some dom => (some dom, false)

/-- `unknownCPUIn`. -/
def unknownCPUIn (nodes : List String) : Bool :=
  p.unknownCPUNodes.any fun n => decide (n ∈ nodes)

/-! ## 7. Registration

`register` is the common end of all policies. -/

/-- `strictAZ`. -/
def strictAZ : Option (List String) :=
  if input.config.pinAZOff || input.azNodes.isEmpty || !input.config.pinAZStrict then none
  else if normalizeNodes input.azNodes = [] then none
  else some (normalizeNodes input.azNodes)

/-- `preferredAZ`. -/
def preferredAZ : Option (List String) :=
  if input.config.pinAZOff || input.azNodes.isEmpty || input.config.pinAZStrict then none
  else if normalizeNodes input.azNodes = [] then none
  else some (normalizeNodes input.azNodes)

/-- A node set inside the strict AZ. -/
def insideAZ (set : List String) : List String :=
  match strictAZ input with
  | none => set
  | some az => intersect set az

/-- `priorities`. -/
def VMDecision.computePriorities (d : VMDecision) : List (String × Int) :=
  d.admissible.map fun n =>
    (n, if n = d.placed ∧ !d.dlb then pinPriorityPlaced
        else if n ∈ d.preferred then pinPriorityPreferred
        else pinPriorityRest)

/-- `register`. -/
def register (d : VMDecision) (policy : Policy) (hard : List String) (reason : Reason) :
    VMDecision :=
  let set := insideAZ input hard
  if set = [] then d.refuse (managed p) (.emptySet input.az) false
  else if d.node ∉ set then d.refuse (managed p) (.outsideSet d.node set) false
  else
    let d :=
      { d with
        outcome := .register, policy := policy, reason := some reason, admissible := set
        hard := if sameSet set p.nodeNames then d.hard else some set
        preferred := (preferredAZ input).getD d.preferred }
    { d with priorities := d.computePriorities }

/-- `decideShared`. -/
def decideShared (d : VMDecision) (access : List String) (domain : Option (List String))
    (domainErr : Bool) : VMDecision :=
  if cpuTypeNeedsDomain input.cpuType then
    if domainErr then d.refuse (managed p) (.unknownCPU d.node) true
    else
      let allowed := intersect access (domain.getD [])
      let n := countPlaceable p allowed
      if n < 2 then
        let transient := decide (2 ≤ allowed.length) || unknownCPUIn p access
        d.refuse (managed p) (.smallCPUDomain allowed n transient) transient
      else register p input { d with access := allowed } .shared allowed .sharedVolumes
  else register p input { d with access := access } .shared access .sharedVolumes

/-! ## 8. Replication -/

/-- `replicaCandidates`. -/
def replicaCandidates (domain : Option (List String)) : List String :=
  let out := input.constraints.foldl (fun out c => intersect out c.nodes) p.nodeNames
  let out := match domain with
    | none => out
    | some dom => intersect out dom
  sorted (insideAZ input out)

/-- `zfsGaps`. -/
def zfsGaps (c : VolumeClass) : List Gap :=
  (if !equalFold c.info.type storageTypeZFSPool then [.notZFS c.vol.volume c.info.name]
    else if c.info.disabled then [.storageDisabled c.info.name]
    else if c.info.shared then [.storageShared c.info.name]
    else []) ++
  (if c.vol.noReplicate then [.replicateOff c.vol.volume] else []) ++
  (if c.info.content ≠ "" ∧ !containsField c.info.content "images" then [.noImages c.info.name]
    else []) ++
  (if c.info.nodes ≠ [] ∧ c.vol.homeNode ∉ c.info.nodes then
      [.notOnNode c.info.name c.vol.homeNode] else [])

/-- `zfsNodes`. -/
def zfsNodes (info : StorageInfo) : List String :=
  if info.nodes = [] then p.nodeNames else intersect p.nodeNames info.nodes

/-- The volumes that stay reachable without a replica. -/
def sharedVolumes (classes : List VolumeClass) : List AccessVolume :=
  (classes.filter fun c => !c.isLocal).map VolumeClass.accessVolume

def localDisks (classes : List VolumeClass) : List VolumeClass :=
  classes.filter fun c => c.isLocal && decide (c.vol.kind = .disk)

/-- The candidates that reach the shared volumes, and the gap when these cannot be stated. -/
def sharedCandidates (classes : List VolumeClass) (candidates : List String) :
    List String × List Gap :=
  if sharedVolumes classes = [] then (candidates, [])
  else
    match narrow p input (storageIndex p.storages false) (sharedVolumes classes) with
    | .error e => (candidates, [.access e])
    | .ok sa => (intersect candidates sa, [])

/-- The nodes a partner is picked from, after the shared volumes and the ZFS storages. -/
def partnerCandidates (classes : List VolumeClass) (domain : Option (List String)) : List String :=
  let candidates := (sharedCandidates p input classes (replicaCandidates p input domain)).1
  ((localDisks classes).foldl (fun cs c => intersect cs (zfsNodes p c.info)) candidates).filter
    fun n => decide (n ≠ input.placed)

def partnersOf (candidates : List String) : List String :=
  candidates.filter fun n => decide (n ∈ p.placeableSet)

/-- The gaps, each with whether it rests on proven facts. -/
def replicateGaps (classes : List VolumeClass) (domain : Option (List String)) (domainErr : Bool)
    (isoLocal : Bool) : List (Gap × Bool) :=
  let candidates := partnerCandidates p input classes domain
  (if isoLocal then [(.localISO, true)] else []) ++
  (if !p.vmReplicate then [(.noReplicatePrivilege, !p.permissionsErr)] else []) ++
  (if input.linkedClone then [(.linkedClone, true)] else []) ++
  (if domainErr then [(.unknownCPU input.placed, false)] else []) ++
  ((sharedCandidates p input classes (replicaCandidates p input domain)).2.map fun g =>
    (g, false)) ++
  ((localDisks classes).flatMap fun c => (zfsGaps c).map fun g => (g, true)) ++
  (if localDisks classes = [] then [(.noLocalDisk, true)] else []) ++
  (if partnersOf p candidates = [] then
    let mayJoin := cpuTypeNeedsDomain input.cpuType && unknownCPUIn p p.nodeNames
    [(.noPartner, decide (candidates = []) && !mayJoin)] else [])

/-- The partner: the target of a job the VM has already, or the first one. -/
def pickPartner (partners : List String) : String :=
  (p.replication.find? fun j => decide (j.guest = input.vmid ∧ j.target ∈ partners)).elim
    (partners.headD "") ReplicationJob.target

/-- `decideReplicate`. -/
def decideReplicate (d : VMDecision) (classes : List VolumeClass) (domain : Option (List String))
    (domainErr : Bool) (isoLocal : Bool) (why : WhyLocal) : VMDecision :=
  if isoLocal && (managed p || input.config.requireSharedISOForHA) then d.fail .replicateLocalISO
  else
    let gaps := replicateGaps p input classes domain domainErr isoLocal
    if gaps ≠ [] then
      d.refuse (managed p) (.gaps why (gaps.map Prod.fst)) (!gaps.any Prod.snd)
    else
      let partner := pickPartner p input (partnersOf p (partnerCandidates p input classes domain))
      let d := register p input d .replicate [d.node] (.replicated d.node partner)
      if d.outcome ≠ .register then d
      else
        { d with
          partner := partner
          widened := insideAZ input (normalizeNodes [d.node, partner]) }

/-! ## 9. The decision

`decideVM` from its first test to the outcome. -/

/-- `decideLocal`. -/
def decideLocal (d : VMDecision) (classes : List VolumeClass) (access : List String)
    (domain : Option (List String)) (domainErr : Bool) (isoLocal : Bool) (why : WhyLocal) :
    VMDecision :=
  if input.config.storageTopology = .shared then
    d.refuse (managed p) (.topologyShared why) false
  else
    match input.config.localPolicy with
    | .hold =>
      if d.node ∉ access then d.refuse (managed p) (.unreachable d.node access) false
      else register p input d .hold [d.node] (.held why d.node)
    | .replicate => decideReplicate p input d classes domain domainErr isoLocal why
    | .none => d.skip (.localPolicyNone why)

/-- `checkLegacy`. -/
def checkLegacy (d : VMDecision) (classes : List VolumeClass) : VMDecision :=
  let legacy := (classes.filter fun c => c.vol.legacy && decide (c.vol.kind = .disk)).map
    fun c => c.vol.volume
  if legacy = [] then d
  else if managed p then d.fail (.legacyDisks legacy)
  else legacy.foldl (fun d v => d.warn (.legacyDisk v)) d

/-- The names of the local volumes of a kind. -/
def localVolumes (kind : VolumeKind) (classes : List VolumeClass) : List String :=
  (classes.filter fun c => decide (c.vol.kind = kind) && c.isLocal).map fun c => c.vol.volume

def volumesOf (kind : VolumeKind) (classes : List VolumeClass) : List AccessVolume :=
  (classes.filter fun c => decide (c.vol.kind = kind)).map VolumeClass.accessVolume

/-- The ISO rule of `classify`: a node-local ISO takes a VM out of full HA, or ends the decision. -/
def downgradeISO (d : VMDecision) (classes : List VolumeClass) (diskAccess : List String) :
    Except VMDecision VMDecision :=
  let isoLocal := localVolumes .iso classes
  let domain := (cpuDomain p input).1
  let wouldBeShared := decide (localVolumes .disk classes = []) &&
    decide (2 ≤ countPlaceable p (intersect diskAccess (domain.getD p.nodeNames)))
  if isoLocal ≠ [] ∧ wouldBeShared ∧ !(cpuDomain p input).2 then
    if managed p || input.config.requireSharedISOForHA then .error (d.fail (.localISO isoLocal))
    else .ok (d.warn (.localISO isoLocal))
  else .ok d

/-- The last branch of `classify`: the shared policy, or the local one. -/
def decidePolicy (d : VMDecision) (classes : List VolumeClass) (allAccess : List String) :
    VMDecision :=
  let diskLocal := localVolumes .disk classes
  let isoLocal := localVolumes .iso classes
  let someLocal := decide (diskLocal ++ isoLocal ≠ [])
  if !someLocal && decide (2 ≤ countPlaceable p allAccess) then
    decideShared p input d allAccess (cpuDomain p input).1 (cpuDomain p input).2
  else
    decideLocal p input
      { d with placeableShortfall := !someLocal && decide (2 ≤ allAccess.length) } classes allAccess
      (cpuDomain p input).1 (cpuDomain p input).2 (decide (isoLocal ≠ []))
      (if someLocal then .localVolumes (diskLocal ++ isoLocal) else .fewPlaceable)

/-- The end of `classify`, once both access sets are known. -/
def conclude (d : VMDecision) (classes : List VolumeClass) (diskAccess allAccess : List String) :
    VMDecision :=
  match downgradeISO p input { d with access := allAccess, cpuDomain := (cpuDomain p input).1 }
      classes diskAccess with
  | .error d => d
  | .ok d =>
    let d := decidePolicy p input d classes allAccess
    if d.outcome = .register then checkLegacy p d classes else d

/-- `classify`. -/
def classify (d : VMDecision) : VMDecision :=
  match classifyVolumes p input with
  | .error (r, transient) => d.refuse (managed p) r transient
  | .ok classes =>
    let allLocal := localVolumes .disk classes ++ localVolumes .iso classes
    if input.config.storageTopology = .shared ∧ allLocal ≠ [] then d.fail (.localVolumes allLocal)
    else
      match narrow p input (storageGetter p input) (volumesOf .disk classes) with
      | .error e => d.refuse (managed p) (.access e) true
      | .ok diskAccess =>
        match narrow p input (storageGetter p input)
            (volumesOf .disk classes ++ volumesOf .iso classes) with
        | .error e => d.refuse (managed p) (.access e) true
        | .ok allAccess => conclude p input d classes diskAccess allAccess

/-- `resolveDLB`: the decision so far, or the one it ended with. -/
def resolveDLB (d : VMDecision) : Except VMDecision VMDecision :=
  let sentinel := input.inDLBAZ && decide (input.config.dlbAZName ≠ "")
  if !sentinel && !input.config.dlbEnabled then .ok d
  else if p.dlbSupported then .ok { d with dlb := true }
  else if input.haManaged then .ok (d.warn .dlbKept)
  else if managed p then .error (d.fail .dlbUnsupported)
  else if sentinel then .error ((d.skip .dlbUnsupported).warn (.refused .dlbUnsupported))
  else .ok (d.warn .dlbIgnored)

/-- `insidePin`: a pin that the VM's node lies outside of. -/
def outsidePin : Option NodeConstraint :=
  input.constraints.find? fun c => c.pin && decide (input.placed ∉ c.nodes)

/-- `decide`. -/
def decideFrom (d : VMDecision) : VMDecision :=
  if p.mode = .off then
    if input.inDLBAZ ∧ input.config.dlbAZName ≠ "" then
      d.fail (.dlbNeedsMode input.config.dlbAZName)
    else d.skip .modeOff
  else if input.haManaged && p.nodes.any NodeFacts.belowHAFloor then d.postpone .haFloor
  else if !p.full then
    if input.haManaged then d.postpone .notWritable
    else if managed p then d.fail .prerequisites
    else d.skip .observeOnly
  else if p.nodeNames = [] then d.refuse (managed p) .noNode true
  else
    match outsidePin input with
    | some c => d.postpone (.outsidePin d.node c.name (normalizeNodes c.nodes))
    | none =>
      match resolveDLB p input d with
      | .error d => d
      | .ok d => classify p input d

/-- Mistakes of the caller. -/
inductive Mistake
  | vmid (id : Int)
  | noNode
deriving DecidableEq

/-- `pve.HAServiceSID`. -/
def serviceSID (vmid : Int) : String := "vm:" ++ toString vmid

/-- `DecideVM`. -/
def decideVM : Except Mistake VMDecision :=
  if input.vmid ≤ 0 then .error (.vmid input.vmid)
  else if input.placed = "" then .error .noNode
  else
    let sid := serviceSID input.vmid
    let uid := match input.state with
      | some st => if st.sid = sid ∧ st.known ∧ st.inCRM then st.uid else ""
      | none => ""
    .ok (decideFrom p input
      { vmid := input.vmid, sid := sid, node := input.placed, placed := input.placed,
        decisionUID := uid })

end Decision

/-! ## 10. The pin of a decision -/

inductive PinErr
  | notRegistered
  | noVolumeToRecord
  | noAdmissibleNode (hard : List String)
  | namesNoNode
deriving DecidableEq

def volumeRecordKey : String := "bosh-vols"

/-- `WithVolumeRecord`. -/
def withVolumeRecord (comment : String) (storages : List String) : String :=
  let kept := (fields comment).filter fun f =>
    decide ((cut f "=").map Prod.fst ≠ some volumeRecordKey)
  let clean := trimmed storages
  if clean = [] then " ".intercalate kept
  else " ".intercalate (kept ++ [volumeRecordKey ++ "=" ++ ",".intercalate clean])

/-- `AdmissibleHard`. -/
def admissibleHard (hard configured : List String) : Except PinErr (List String) :=
  let known := trimmed configured
  let nodes := (trimmed hard).filter fun n => decide (known = []) || decide (n ∈ known)
  if nodes = [] then .error (.noAdmissibleNode (trimmed hard)) else .ok nodes

/-- `PinSpec`, without the name of the rule. -/
structure PinSpec where
  comment : String
  sid : String
  hard : Option (List String)
  configured : List String
  placed : String
  preferred : List String
  rebalanceOnStart : Bool
  dlb : Bool
  singlePriority : Bool

/-- A node-affinity rule that names nodes with their priorities. -/
def affinityRule (spec : PinSpec) (strict : Bool) (nodes : List (String × Int)) : Rule where
  strict := strict
  nodes := (nodes.map fun e => (⟨e.1, e.2⟩ : Sigma fun _ : String => Int)).toAList
  resources := [spec.sid]
  comment := spec.comment

/-- The priority of a node in a pin. -/
def PinSpec.priority (spec : PinSpec) (n : String) : Int :=
  if spec.singlePriority then pinPriorityRest
  else if n = spec.placed ∧ !spec.dlb then pinPriorityPlaced
  else if n ∈ trimmed spec.preferred then pinPriorityPreferred
  else pinPriorityRest

/-- The rule of `BuildPin` over some nodes: nodes that share one priority get none. -/
def ruleOver (spec : PinSpec) (strict : Bool) (nodes : List String) : Rule :=
  let multiple := nodes.any fun n => nodes.any fun m => decide (spec.priority n ≠ spec.priority m)
  affinityRule spec strict
    (nodes.map fun n => (n, if multiple then spec.priority n else pinPriorityRest))

/-- `BuildPin`; `none` when no pin is needed. -/
def buildPin (spec : PinSpec) : Except PinErr (Option Rule) :=
  let configured := trimmed spec.configured
  match spec.hard with
  | some hard =>
    match admissibleHard hard spec.configured with
    | .error e => .error e
    | .ok nodes =>
      let strict := decide (configured = []) || decide (nodes.length < configured.length)
      .ok (some (ruleOver spec strict nodes))
  | none =>
    if trimmed spec.preferred ≠ [] then
      let nodes := if configured ≠ [] then configured
        else trimmed (spec.preferred ++ [spec.placed])
      .ok (some (ruleOver spec false nodes))
    else if spec.rebalanceOnStart && !spec.dlb && decide (trimSpace spec.placed ≠ "") then
      .ok (some (ruleOver spec false [trimSpace spec.placed]))
    else .ok none

/-- `RecordPin`. -/
def recordPin (spec : PinSpec) (admissible : List String) : Option Rule :=
  if trimmed admissible = [] then none
  else some (affinityRule spec false ((trimmed admissible).map fun n => (n, pinPriorityRest)))

/-- `VMDecision.PinSpec`, with the comment and the flag that `DecisionPin` sets. -/
def VMDecision.pinSpec (d : VMDecision) (comment : String) (configured : List String)
    (rebalanceOnStart singlePriority : Bool) : PinSpec where
  comment := comment
  sid := d.sid
  hard := d.hard
  configured := configured
  placed := d.placed
  preferred := d.preferred
  rebalanceOnStart := rebalanceOnStart
  dlb := d.dlb
  singlePriority := singlePriority

/-- `DecisionPin`. -/
def decisionPin (d : VMDecision) (marker : String) (storages configured : List String)
    (rebalanceOnStart singlePriority : Bool) : Except PinErr Rule :=
  if !d.registers then .error .notRegistered
  else if trimmed storages = [] then .error .noVolumeToRecord
  else
    let spec := d.pinSpec (withVolumeRecord marker storages) configured rebalanceOnStart
      singlePriority
    match buildPin spec with
    | .error e => .error e
    | .ok (some pin) => .ok pin
    | .ok none =>
      match recordPin spec d.admissible with
      | some pin => .ok pin
      | none => .error .namesNoNode

end Ha
