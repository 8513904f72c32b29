/-
# The frozen inventory

What a placement knows about the storages of the cluster (`storageinventory/types.go`,
`collector.go`): the definitions, one observation for each node and storage, the capacity of each
physical backing consolidated over the nodes that report it, and the capacity of each declared
domain of backings.  A snapshot is frozen when it is made; every later decision reads it.

`Snapshot.refresh` is the pure part of `Collector.Refresh`: it turns the answers of the nodes into
pairs, backings and domains.  A usable pair always names its capacity, and `Snapshot` carries that
as a field.

A storage definition keeps what placement reads of it: its type in lower case, and its sharing
and backing identity as `pve.StorageInfo` classifies them.

The storage modules follow a placement.  `Inventory` is what it sees, `Budget` the arithmetic of one
capacity, `Ledger` the charges it holds, `Ranking`, `Strategies` and `Preimages` the order in which
storages are tried, `Siblings` the bytes of others in flight, `Planner` the search.  `Admission`,
`Commitments`, `Replay`, `Feasible`, `Bundle` and `Affinity` have the results.

A capacity is not a storage.  Two storages may be one physical backing, and a backing that is local
to its node is another capacity on every node; the charges are kept per capacity, under
`capacityKey`.  That a usable pair has a key which is not blank is what every later sum over keys
rests on, since a blank key is passed over.
-/
import PveCpi.Lib.Check
import PveCpi.Journal.Types
import Mathlib.Data.List.AList

namespace Storage

open Lib.Check
open Lib.Text (byteLen trimSpace)
open Journal (Time)

/-! ## 1. Observations -/

/-- A Go map. -/
abbrev Map (K V : Type) := AList fun _ : K => V

structure StorageInfo where
  name : String := ""
  type : String := ""
  disabled : Bool := false
  nodes : List String := []
  content : String := ""
  isShared : Bool := false
  backingKey : String := ""
  deriving DecidableEq, Repr

/-- When a request to a node began, and which collector made it. -/
structure ObservationStamp where
  epoch : BitVec 128 := 0
  generation : UInt64 := 0
  startedAt : Time := 0
  completedAt : Time := 0
  deriving DecidableEq, Repr

/-- One node and storage; a reason excludes the pair. -/
structure Pair where
  node : String := ""
  storageID : String := ""
  backingKey : String := ""
  capacityKey : String := ""
  totalBytes : UInt64 := 0
  availableBytes : UInt64 := 0
  stamp : ObservationStamp := {}
  reason : String := ""
  deriving DecidableEq, Repr

/-- The capacity of one physical backing. -/
structure Backing where
  key : String := ""
  totalBytes : UInt64 := 0
  availableBytes : UInt64 := 0
  reports : List ObservationStamp := []
  deriving DecidableEq, Repr

/-- The capacity of a declared domain of backings. -/
structure Domain where
  name : String := ""
  members : List String := []
  capacityKeys : List String := []
  totalBytes : UInt64 := 0
  availableBytes : UInt64 := 0
  reports : List ObservationStamp := []
  reason : String := ""
  deriving DecidableEq, Repr

def stampFresh (s : ObservationStamp) (now age : Time) : Bool :=
  decide (0 < s.generation) && decide (s.startedAt ≠ 0) && !decide (s.completedAt < s.startedAt) &&
    !decide (now < s.completedAt) && decide (now - s.startedAt ≤ age)

/-! ## 2. The snapshot -/

/-- What discovery froze before any node was asked. -/
structure Frozen where
  definitions : Map String StorageInfo := ∅
  members : Map String (List String) := ∅
  tiers : Map String String := ∅
  domainMembers : Map String (List String) := ∅
  domainForID : Map String String := ∅
  required : List String := []
  constrained : List String := []
  nodes : List String := []
  maxAge : Time := 0

structure Snapshot extends Frozen where
  pairs : Map (String × String) Pair := ∅
  backings : Map String Backing := ∅
  domains : Map String Domain := ∅
  observedAt : Time := 0
  /-- A usable pair names its capacity. -/
  keyed : ∀ k p, pairs.lookup k = some p → p.reason = "" → p.capacityKey ≠ ""

namespace Snapshot

def pair (s : Snapshot) (node id : String) : Option Pair := s.pairs.lookup (node, id)

def backing (s : Snapshot) (key : String) : Option Backing := s.backings.lookup key

def domain (s : Snapshot) (name : String) : Option Domain := s.domains.lookup name

def definition (s : Snapshot) (id : String) : Option StorageInfo := s.definitions.lookup id

/-- The domain of a storage; blank when it has none. -/
def domainForStorage (s : Snapshot) (id : String) : String := (s.domainForID.lookup id).getD ""

def fresh (s : Snapshot) (now : Time) : Bool :=
  s.pairs.entries.all fun e => e.2.reason != "" || stampFresh e.2.stamp now s.maxAge

end Snapshot

/-! ## 3. Refreshing

A pair is excluded with a reason, and what is excluded keeps its observation.  Pairs whose backing
is unknown are among the excluded ones, so `Snapshot.keyed` is a property of the refresh and not an
assumption. -/

/-- One row of a node's answer. -/
inductive Status where
  | missing
  | malformed
  | row (active enabled : Bool) (total available : UInt64)
  deriving DecidableEq, Repr

/-- The answer of a node: nothing usable, or a status for each storage, with the stamp of the
request and the clock when each status was judged. -/
inductive NodeResult where
  | failed
  | answered (stamp : ObservationStamp) (status : String → Status) (now : String → Time)

/-- The capacity of storage that is not shared belongs to its node. -/
def capacityKey (info : StorageInfo) (node : String) : String :=
  if info.isShared then info.backingKey
  else "local:" ++ toString (byteLen node) ++ ":" ++ node ++ ":" ++ info.backingKey

def hasContent (content wanted : String) : Bool :=
  (content.splitOn ",").any fun item => trimSpace item == wanted

/-- Why a pair is excluded; blank when it is usable. -/
def pairReason (f : Frozen) (node id : String) (info : StorageInfo) (stamp : ObservationStamp)
    (now : Time) : Status → String
  | status =>
    if info.disabled then "storage definition is disabled"
    else if !info.nodes.isEmpty && !info.nodes.contains node then
      "node is excluded by storage definition"
    else match status with
      | .missing => "storage status is missing"
      | .malformed => "storage status is malformed"
      | .row active enabled _ _ =>
        if !active || !enabled then "storage is inactive or disabled on node"
        else if !stampFresh stamp now f.maxAge then
          "storage status is stale or clock is inconsistent"
        else if info.backingKey == "" then "storage backing is unknown"
        else if f.constrained.contains id &&
            (info.type != "nfs" || !info.isShared || !hasContent info.content "images")
            then "set member requires shared NFS with images content"
        else ""

/-- The pair of one node and storage. -/
def observePair (f : Frozen) (node : String) (result : NodeResult) (id : String) : Pair :=
  let info := (f.definitions.lookup id).getD {}
  let base : Pair := { node := node, storageID := id, backingKey := info.backingKey,
                       capacityKey := capacityKey info node }
  match result with
  | .failed => { base with reason := "node observation failed" }
  | .answered stamp status now =>
    let reason := pairReason f node id info stamp (now id) (status id)
    match status id with
    | .row _ _ total available =>
      if reason = "" then
        { base with stamp := stamp, totalBytes := total, availableBytes := available }
      else { base with stamp := stamp, reason := reason }
    | _ => { base with stamp := stamp, reason := reason }

/-- A pair whose status expired while the others were asked. -/
def Pair.expire (p : Pair) (now age : Time) : Pair :=
  if p.reason = "" ∧ stampFresh p.stamp now age = false then
    { p with reason := "storage status expired during inventory" }
  else p

/-- The pairs of every node and required storage, after the expiry check of `consolidate`. -/
def observePairs (f : Frozen) (results : String → NodeResult) (now : Time) :
    List (Σ _ : String × String, Pair) :=
  f.nodes.flatMap fun node => f.required.map fun id =>
    ⟨(node, id), (observePair f node (results node) id).expire now f.maxAge⟩

/-- Fold one usable pair into its backing; the total of a backing must not change. -/
def addReport (backings : Map String Backing) (p : Pair) : Except String (Map String Backing) :=
  if p.reason ≠ "" then .ok backings
  else match backings.lookup p.capacityKey with
    | none => .ok (backings.insert p.capacityKey
        { key := p.capacityKey, totalBytes := p.totalBytes, availableBytes := p.availableBytes,
          reports := [p.stamp] })
    | some b =>
      if b.totalBytes ≠ p.totalBytes then .error p.capacityKey
      else .ok (backings.insert p.capacityKey
        { b with availableBytes := min b.availableBytes p.availableBytes,
                 reports := b.reports ++ [p.stamp] })

/-- Fold one member's backing on one node into its domain. -/
def Domain.addBacking (d : Domain) (b : Backing) : Domain :=
  if d.capacityKeys.contains b.key then d
  else { d with
    totalBytes := if d.capacityKeys.isEmpty then b.totalBytes else min d.totalBytes b.totalBytes
    availableBytes :=
      if d.capacityKeys.isEmpty then b.availableBytes else min d.availableBytes b.availableBytes
    capacityKeys := d.capacityKeys ++ [b.key]
    reports := d.reports ++ b.reports }

/-- The usable backings of one member. -/
def memberBackings (f : Frozen) (pairs : Map (String × String) Pair)
    (backings : Map String Backing) (id : String) : List Backing :=
  f.nodes.filterMap fun node => do
    let p := (pairs.lookup (node, id)).getD {}
    if p.reason ≠ "" then none else backings.lookup p.capacityKey

def Domain.addMember (f : Frozen) (pairs : Map (String × String) Pair)
    (backings : Map String Backing) (d : Domain) (id : String) : Domain :=
  match memberBackings f pairs backings id with
  | [] => { d with reason := (if d.reason = "" then "" else d.reason ++ "; ") ++
              "no usable observation for " ++ id }
  | bs => bs.foldl Domain.addBacking d

def buildDomain (f : Frozen) (pairs : Map (String × String) Pair)
    (backings : Map String Backing) (name : String) (members : List String) : Domain :=
  let d := members.foldl (Domain.addMember f pairs backings) { name := name, members := members }
  { d with capacityKeys := d.capacityKeys.mergeSort }

theorem capacityKey_ne_blank {info : StorageInfo} {node : String} (h : info.backingKey ≠ "") :
    capacityKey info node ≠ "" := by
  unfold capacityKey
  split
  · exact h
  · intro hblank
    have := congrArg String.toList hblank
    simp at this

/-- A storage whose backing is unknown is excluded. -/
theorem backingKey_of_pairReason {f : Frozen} {node id : String} {info : StorageInfo}
    {stamp : ObservationStamp} {now : Time} {status : Status}
    (h : pairReason f node id info stamp now status = "") : info.backingKey ≠ "" := by
  intro hkey
  unfold pairReason at h
  cases status with
  | missing =>
    dsimp only at h
    split_ifs at h <;> exact absurd h (by decide)
  | malformed =>
    dsimp only at h
    split_ifs at h <;> exact absurd h (by decide)
  | row active enabled total available =>
    dsimp only at h
    rw [hkey] at h
    split_ifs at h <;> first | exact absurd h (by decide) | contradiction

theorem observePair_capacityKey (f : Frozen) (node : String) (result : NodeResult) (id : String) :
    (observePair f node result id).capacityKey =
      capacityKey ((f.definitions.lookup id).getD {}) node := by
  unfold observePair
  cases result with
  | failed => rfl
  | answered stamp status now =>
    dsimp only
    split
    · split_ifs <;> rfl
    · rfl

/-- A usable pair has a capacity. -/
theorem observePair_keyed {f : Frozen} {node id : String} {result : NodeResult}
    (h : (observePair f node result id).reason = "") :
    (observePair f node result id).capacityKey ≠ "" := by
  rw [observePair_capacityKey]
  apply capacityKey_ne_blank
  unfold observePair at h
  cases result with
  | failed =>
    dsimp only at h
    exact absurd h (by decide)
  | answered stamp status now =>
    dsimp only at h
    split at h
    · split_ifs at h with hr
      · exact backingKey_of_pairReason hr
      · exact absurd h hr
    · exact backingKey_of_pairReason h

theorem Pair.expire_keyed {p : Pair} {now age : Time} (h : p.reason = "" → p.capacityKey ≠ "")
    (hr : (p.expire now age).reason = "") : (p.expire now age).capacityKey ≠ "" := by
  unfold Pair.expire at hr ⊢
  split_ifs at hr ⊢
  · simp at hr
  · exact h hr

/-- Every pair of a refresh is keyed. -/
theorem observePairs_keyed {f : Frozen} {results : String → NodeResult} {now : Time}
    {k : String × String} {p : Pair}
    (h : (observePairs f results now).toAList.lookup k = some p) (hr : p.reason = "") :
    p.capacityKey ≠ "" := by
  have hmem : (⟨k, p⟩ : Σ _ : String × String, Pair) ∈ observePairs f results now := by
    have hlookup : (observePairs f results now).dedupKeys.dlookup k = some p := h
    rw [List.dlookup_dedupKeys] at hlookup
    exact List.of_mem_dlookup hlookup
  simp only [observePairs, List.mem_flatMap, List.mem_map] at hmem
  obtain ⟨node, _, id, _, heq⟩ := hmem
  cases heq
  exact Pair.expire_keyed observePair_keyed hr

/-- `Collector.Refresh`, once: `none` when a backing reports two totals.  (The source asks the
nodes a second time before it gives up.) -/
def Snapshot.refresh (f : Frozen) (results : String → NodeResult) (observedAt : Time) :
    Option Snapshot :=
  let listed := observePairs f results observedAt
  let pairs : Map (String × String) Pair := listed.toAList
  match (listed.map fun e => e.2).foldlM addReport ∅ with
  | .error _ => none
  | .ok backings => some { f with
      pairs := pairs
      backings := backings
      domains := (f.domainMembers.entries.map fun e =>
        (⟨e.1, buildDomain f pairs backings e.1 e.2⟩ : Σ _ : String, Domain)).toAList
      observedAt := observedAt
      keyed := fun _ _ h hr => observePairs_keyed h hr }

end Storage
