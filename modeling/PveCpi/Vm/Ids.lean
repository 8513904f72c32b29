/-
# VMIDs that name nobody's volumes

`pve/vmid.go` draws the number of a new VM: it lists the guests of the cluster, reads on the
storages that its options name which numbers the volume names there hold, and takes a free number of
its range from a random start on.  PVE gives every volume `vm-N-…` or `base-N-…` to VM `N`, so a VM
that drew the number of somebody's volume would free it when it is destroyed.  Nothing is locked
meanwhile: other processes and other clusters add and remove volumes at any moment, and a refused
number is followed by a new round.

* `nextVMIDInRange_eq_some`, `nextVMIDInRange_eq_none`: from every random start the search finds a
  free number of the range when there is one;
* `reserves_of_claims`: every name that claims a number reserves it, whichever of the four patterns
  reads it;
* `sent_free`: in every interleaving, a number that is sent to PVE is in its range and is claimed by
  no volume that was on a scanned storage since the round began.

## Why a time stamp on volumes

Nothing stops another cluster from creating a volume right after it was looked for, so "no volume
claims the number" cannot be an invariant.  What can be is that no volume claims it which was there
when the round began: it was seen by the scan, or it has gone since.  So each volume carries the
moment of its creation, and what a round knows is stated for the volumes that are older than it
(`Known`). Such knowledge survives whatever others do, because new volumes are newer (`kept_known`).

The four patterns of names are not disjoint and none of them is anchored in the same way; that each
name which PVE would give to VM `N` is read by one of them as `N` is a fact about texts alone (§1).
-/
import PveCpi.Lib.Interleave
import PveCpi.Lib.Decimal
import PveCpi.Journal.Types
import Mathlib

namespace VmIds

open Lib.Interleave
open Lib.Decimal

/-! ## 1. The number in a volume's name

`Claims` is PVE's rule, `reserves` is the source's. -/

abbrev Bytes := List UInt8

def ascii (s : String) : Bytes := s.toList.map fun c => UInt8.ofNat c.toNat

/-- `volumeLastSegment`: what stands behind the last slash or colon. -/
def volumeLastSegment (volume : Bytes) : Bytes :=
  (volume.reverse.takeWhile fun b => b != 47 && b != 58).reverse

/-- What the names have in common: `vm-` or `base-`, digits, and the rest. -/
structure Head where
  vm : Bool
  number : Bytes
  rest : Bytes

def cutDigits (vm : Bool) (t : Bytes) : Option Head :=
  if t.takeWhile isDigit = [] then none else some ⟨vm, t.takeWhile isDigit, t.dropWhile isDigit⟩

def headOf (segment : Bytes) : Option Head :=
  if (ascii "vm-").isPrefixOf segment then cutDigits true (segment.drop 3)
  else if (ascii "base-").isPrefixOf segment then cutDigits false (segment.drop 5)
  else none

/-- `[1-9]\d*`. -/
def Head.canonical (h : Head) : Bool := h.number.head? != some 48

def isWord (b : UInt8) : Bool :=
  isDigit b || (decide (65 ≤ b) && decide (b ≤ 90)) || (decide (97 ≤ b) && decide (b ≤ 122)) ||
    b == 95

def isExtension : Bytes → Bool
  | [] => true
  | b :: w => b == 46 && w != [] && w.all isWord

def isDiskRest (rest : Bytes) : Bool :=
  (ascii "-disk-").isPrefixOf rest && (rest.drop 6).takeWhile isDigit != [] &&
    isExtension ((rest.drop 6).dropWhile isDigit)

/-- `volumeVMIDRegexp`.  Its tail has no separator, so it reads the last segment. -/
def diskName (segment : Bytes) : Option Bytes :=
  (headOf segment).bind fun h => if isDiskRest h.rest then some h.number else none

def isHex (b : UInt8) : Bool := isDigit b || (decide (97 ≤ b) && decide (b ≤ 102))

/-- `allocationUUID`. -/
def allocationUUID (id : Bytes) : Bool :=
  Journal.allocationIDPattern (String.ofList (id.map fun b => Char.ofNat b.toNat))

def isManagedRest (rest : Bytes) : Bool :=
  (ascii "-bosh-").isPrefixOf rest && ((rest.drop 6).take 16).length == 16 &&
    ((rest.drop 6).take 16).all isHex &&
    (ascii "-alloc-").isPrefixOf (rest.drop 22) && allocationUUID ((rest.drop 29).take 36) &&
    [ascii ".raw", ascii ".qcow2", ascii ".vmdk"].contains (rest.drop 65)

/-- `allocationVolume`, with a UUID that `allocationUUID` accepts. -/
def managedName (segment : Bytes) : Option Bytes :=
  (headOf segment).bind fun h => if h.vm && h.canonical && isManagedRest h.rest then some h.number
    else none

/-- `volumeOwnerVMID`. -/
def volumeOwnerVMID (segment : Bytes) : Option Bytes :=
  (headOf segment).bind fun h => if h.canonical && h.rest.head? == some 45 then some h.number
    else none

/-- `configDriveISOName`. -/
def configDriveISOName (segment : Bytes) : Option Bytes :=
  (headOf segment).bind fun h => if h.vm && h.canonical && h.rest == ascii "-config.iso" then
    some h.number else none

/-- A row of a content listing. -/
structure Row where
  readable : Bool := true
  volid : Bytes := []
  filename : Bytes := []
  content : Bytes := []

def Row.volume (r : Row) : Bytes := if r.volid = [] then r.filename else r.volid

/-- The contents that PVE gives an owner. -/
def Row.guest (r : Row) : Bool :=
  r.content == [] || r.content == ascii "images" || r.content == ascii "rootdir"

def firstMatch (owner : Bool) (r : Row) : Option Bytes :=
  let segment := volumeLastSegment r.volume
  (diskName segment).or <| (managedName segment).or <|
    (if owner && r.guest then volumeOwnerVMID segment else none).or <| configDriveISOName segment

/-- `Sscanf` of digits into an `int`. -/
def scanned (digits : Bytes) : Option Nat :=
  if number digits < 2 ^ 63 then some (number digits) else none

/-- The number a row reserves: the loop body of `listStorageVMIDsFor`. -/
def reserves (owner : Bool) (r : Row) : Option Nat :=
  if !r.readable || r.volume == [] then none
  else ((firstMatch owner r).bind scanned).filter fun n => decide (0 < n)

/-- What a name says about VM `n`: PVE's owner rule for the volumes of guests where it is asked for,
a disk of any kind, and the config drive of the CPI. -/
def Claims (owner : Bool) (r : Row) (n : Nat) : Prop :=
  r.readable = true ∧ r.volume ≠ [] ∧ 0 < n ∧ n < 2 ^ 63 ∧ ∃ kind rest,
    (kind = ascii "vm-" ∨ kind = ascii "base-") ∧
    volumeLastSegment r.volume = kind ++ (digits n ++ 45 :: rest) ∧
    (owner = true ∧ r.guest = true ∨ isDiskRest (45 :: rest) = true ∨
      kind = ascii "vm-" ∧ 45 :: rest = ascii "-config.iso")

theorem cutDigits_digits (vm : Bool) (n : Nat) (rest : Bytes) :
    cutDigits vm (digits n ++ 45 :: rest) = some ⟨vm, digits n, 45 :: rest⟩ := by
  have hall : ∀ b ∈ digits n, isDigit b = true := fun b hb => isDigit_of_mem_digits hb
  have htake : (digits n ++ 45 :: rest).takeWhile isDigit = digits n := by
    rw [List.takeWhile_append_of_pos hall, List.takeWhile_cons_of_neg (by decide), List.append_nil]
  have hdrop : (digits n ++ 45 :: rest).dropWhile isDigit = 45 :: rest := by
    rw [List.dropWhile_append_of_pos hall, List.dropWhile_cons_of_neg (by decide)]
  unfold cutDigits
  rw [htake, hdrop, if_neg (digits_ne_nil n)]

theorem headOf_named {kind rest : Bytes} {n : Nat}
    (hkind : kind = ascii "vm-" ∨ kind = ascii "base-") :
    headOf (kind ++ (digits n ++ 45 :: rest)) =
      some ⟨decide (kind = ascii "vm-"), digits n, 45 :: rest⟩ := by
  rcases hkind with rfl | rfl
  · exact cutDigits_digits true n rest
  · exact cutDigits_digits false n rest

/-- The digits of a positive number have no zero in front, so a name made from them is canonical. -/
theorem canonical_digits {n : Nat} (vm : Bool) (rest : Bytes) (hpos : 0 < n) :
    Head.canonical ⟨vm, digits n, rest⟩ = true := by
  have hne : Nat.digits 10 n ≠ [] := Nat.digits_ne_nil_iff_ne_zero.mpr (Nat.ne_of_gt hpos)
  have hlast := Nat.getLast_digit_ne_zero 10 (Nat.ne_of_gt hpos)
  have hlt : (Nat.digits 10 n).getLast hne < 10 :=
    Nat.digits_lt_base (by decide) (List.getLast_mem hne)
  have hhead : (digits n).head? = some (digitOf ((Nat.digits 10 n).getLast hne)) := by
    rw [digits, if_neg (Nat.ne_of_gt hpos), List.head?_reverse, List.getLast?_map,
      List.getLast?_eq_some_getLast hne]
    rfl
  unfold Head.canonical
  rw [hhead, bne_iff_ne]
  intro h
  have hnat := congrArg UInt8.toNat (Option.some.inj h)
  rw [toNat_digitOf hlt] at hnat
  exact hlast (Nat.add_left_cancel (hnat : 48 + _ = 48 + 0))

/-- **A name that claims a number reserves it**, whichever pattern reads it first.  One case for
each pattern; the digits of the number are delimited in each of them. -/
theorem reserves_of_claims {owner : Bool} {r : Row} {n : Nat} (h : Claims owner r n) :
    reserves owner r = some n := by
  obtain ⟨hread, hvolume, hpos, hlt, kind, rest, hkind, hseg, hwhy⟩ := h
  have hhead : headOf (kind ++ (digits n ++ 45 :: rest)) = _ := headOf_named hkind
  have hcanon := canonical_digits (decide (kind = ascii "vm-")) (45 :: rest) hpos
  have hmatch : firstMatch owner r = some (digits n) := by
    have hdisk : diskName (kind ++ (digits n ++ 45 :: rest)) =
        if isDiskRest (45 :: rest) then some (digits n) else none := by
      rw [diskName, hhead]
      rfl
    have hmanaged : managedName (kind ++ (digits n ++ 45 :: rest)) =
        if decide (kind = ascii "vm-") && isManagedRest (45 :: rest) then some (digits n)
        else none := by
      rw [managedName, hhead, Option.bind_some, hcanon, Bool.and_true]
    have howner : volumeOwnerVMID (kind ++ (digits n ++ 45 :: rest)) = some (digits n) := by
      rw [volumeOwnerVMID, hhead, Option.bind_some, hcanon]
      rfl
    have hconfig : configDriveISOName (kind ++ (digits n ++ 45 :: rest)) =
        if decide (kind = ascii "vm-") && 45 :: rest == ascii "-config.iso" then some (digits n)
        else none := by
      rw [configDriveISOName, hhead, Option.bind_some, hcanon, Bool.and_true]
    -- The patterns agree on the digits, so it is enough that one of them matches.
    have hor : ∀ (c : Bool) (x : Option Bytes), x = some (digits n) →
        (if c then some (digits n) else none).or x = some (digits n) := by
      rintro (_ | _) x rfl <;> rfl
    unfold firstMatch
    rw [hseg]
    dsimp only
    rw [hdisk, hmanaged, howner, hconfig]
    by_cases hd : isDiskRest (45 :: rest) = true
    · rw [if_pos hd]
      rfl
    · refine hor _ _ (hor _ _ ?_)
      rcases hwhy with ⟨ho, hg⟩ | hdisk' | ⟨hvm, hcfg⟩
      · rw [ho, hg]
        rfl
      · exact absurd hdisk' hd
      · refine hor _ _ ?_
        rw [hvm, hcfg]
        rfl
  unfold reserves
  rw [hread, hmatch]
  simp only [Bool.not_true, Bool.false_or, beq_iff_eq, hvolume, if_false, Option.bind_some, scanned,
    number_digits, hlt, if_true, Option.filter_some, decide_eq_true_eq, hpos]

/-- The owner rule only adds claims. -/
theorem Claims.mono {owner owner' : Bool} {r : Row} {n : Nat} (h : Claims owner r n)
    (hle : owner = true → owner' = true) : Claims owner' r n := by
  obtain ⟨hread, hvolume, hpos, hlt, kind, rest, hkind, hseg, hwhy⟩ := h
  refine ⟨hread, hvolume, hpos, hlt, kind, rest, hkind, hseg, ?_⟩
  rcases hwhy with ⟨ho, hg⟩ | hdisk | hcfg
  · exact Or.inl ⟨hle ho, hg⟩
  · exact Or.inr (Or.inl hdisk)
  · exact Or.inr (Or.inr hcfg)

/-! ## 2. The search for a free number

The range is walked once around from the random offset, so every number of it is looked at. -/

def candidateAt (start : Int) (width offset i : Nat) : Int :=
  start + ((offset % width + i) % width : Nat)

/-- `nextVMIDInRange`, from a random offset on. -/
def nextVMIDInRange (used : List Int) (start stop : Int) (offset : Nat) : Option Int :=
  if stop < start then none
  else ((List.range (stop - start + 1).toNat).map
    (candidateAt start (stop - start + 1).toNat offset)).find? fun c => decide (c ∉ used)

/-- What the search returns is in the range and not used, wherever it started. -/
theorem nextVMIDInRange_eq_some {used : List Int} {start stop c : Int} {offset : Nat}
    (h : nextVMIDInRange used start stop offset = some c) : start ≤ c ∧ c ≤ stop ∧ c ∉ used := by
  unfold nextVMIDInRange at h
  split at h
  · cases h
  · obtain ⟨i, hi, rfl⟩ := List.mem_map.mp (List.mem_of_find?_eq_some h)
    have hfree : candidateAt start (stop - start + 1).toNat offset i ∉ used := by
      simpa using List.find?_some h
    have hpos : 0 < (stop - start + 1).toNat := by omega
    have hmod := Nat.mod_lt (offset % (stop - start + 1).toNat + i) hpos
    refine ⟨?_, ?_, hfree⟩
    · unfold candidateAt
      omega
    · unfold candidateAt
      omega

/-- **The search fails only when every number of the range is used**, whatever the offset.  The walk
visits every number once, whatever its start. -/
theorem nextVMIDInRange_eq_none {used : List Int} {start stop : Int} {offset : Nat} :
    nextVMIDInRange used start stop offset = none ↔ ∀ c, start ≤ c → c ≤ stop → c ∈ used := by
  unfold nextVMIDInRange
  split
  · rename_i hempty
    refine iff_of_true rfl ?_
    intro c h1 h2
    omega
  · rename_i hrange
    rw [List.find?_eq_none]
    constructor
    · intro h c h1 h2
      -- The candidate at the distance from the offset to `c`, taken around the range, is `c`.
      set width := (stop - start + 1).toNat with hwidth
      have hpos : 0 < width := by omega
      set k := (c - start).toNat with hk
      have hkw : k < width := by omega
      have how := Nat.mod_lt offset hpos
      set i := (k + width - offset % width) % width with hi
      have hiw : i < width := Nat.mod_lt _ hpos
      have hround : (offset % width + i) % width = k := by
        rw [hi, Nat.add_mod_mod, Nat.add_sub_cancel' (by omega), Nat.add_mod_right,
          Nat.mod_eq_of_lt hkw]
      have hc : candidateAt start width offset i = c := by
        unfold candidateAt
        rw [hround]
        omega
      have hnot := h _ (List.mem_map.mpr ⟨i, List.mem_range.mpr hiw, hc⟩)
      simpa using hnot
    · intro h x hx
      obtain ⟨i, hi, rfl⟩ := List.mem_map.mp hx
      have hpos : 0 < (stop - start + 1).toNat := by omega
      have hmod := Nat.mod_lt (offset % (stop - start + 1).toNat + i) hpos
      have hmem :=
        h (candidateAt start (stop - start + 1).toNat offset i) (by unfold candidateAt; omega)
        (by unfold candidateAt; omega)
      simpa using hmem

/-! ## 3. Options and the storages they name -/

/-- `allocOpts`, as far as a round reads it. -/
structure AllocOpts where
  rangeStart : Int
  rangeEnd : Int
  storageScanNode : Bytes := []
  storageScanStorage : Bytes := []
  extraStorageScans : List (Bytes × Bytes) := []
  imageStorageScanNode : Bytes := []

inductive AllocOption where
  | withRange (start stop : Int)
  | withStorageScan (node storage : Bytes)
  | withExtraStorageScan (node storage : Bytes)
  | withNodeImageStorageScan (node : Bytes)

def AllocOption.apply (o : AllocOpts) : AllocOption → AllocOpts
  | .withRange start stop =>
    if 100 ≤ start ∧ start < stop then { o with rangeStart := start, rangeEnd := stop } else o
  | .withStorageScan node storage =>
    { o with storageScanNode := node, storageScanStorage := storage }
  | .withExtraStorageScan node storage =>
    if node = [] ∨ storage = [] then o
    else { o with extraStorageScans := o.extraStorageScans ++ [(node, storage)] }
  | .withNodeImageStorageScan node => { o with imageStorageScanNode := node }

/-- The options of `NextVMID`. -/
def vmOpts (opts : List AllocOption) : AllocOpts :=
  opts.foldl AllocOption.apply { rangeStart := 100, rangeEnd := 8999 }

/-- The options of `NextDiskVMID`: of the callers' options only the range counts, and one storage is
scanned. -/
def diskOpts (node storage : Bytes) (opts : List AllocOption) : AllocOpts :=
  let o := opts.foldl AllocOption.apply { rangeStart := 9000, rangeEnd := 29999 }
  { rangeStart := o.rangeStart, rangeEnd := o.rangeEnd, storageScanNode := node,
    storageScanStorage := storage }

/-- `storageScanTarget`. -/
structure Target where
  node : Bytes
  storage : Bytes
  owner : Bool := false
  deriving DecidableEq

/-- A row of a node's storage list; a field that is absent is `none`. -/
structure StorageRow where
  readable : Bool := true
  storage : Bytes := []
  /-- The entries of the content list, without blanks around them. -/
  content : List Bytes := []
  enabled : Option Bool := none
  active : Option Bool := none

/-- What `listNodeImageStorages` keeps. -/
def StorageRow.kept (r : StorageRow) : Bool :=
  r.storage != [] && r.enabled != some false && r.active != some false &&
    (r.content == [] || r.content.contains (ascii "images"))

/-- `add` of `storageScanTargets`. -/
def addTarget (targets : List Target) (t : Target) : List Target :=
  if targets.any fun u => u.node == t.node && u.storage == t.storage then
    targets.map fun u => if u.node = t.node ∧ u.storage = t.storage then
      { u with owner := u.owner || t.owner } else u
  else targets ++ [t]

/-- The pairs that the options name themselves. -/
def AllocOpts.pairs (o : AllocOpts) : List Target :=
  (if o.storageScanNode ≠ [] ∧ o.storageScanStorage ≠ [] then
    [⟨o.storageScanNode, o.storageScanStorage, false⟩]
    else []) ++ o.extraStorageScans.map fun p => ⟨p.1, p.2, false⟩

/-- A pair that a list covers, by at least the rule asked for. -/
def Listed (targets : List Target) (t : Target) : Prop :=
  ∃ u ∈ targets, u.node = t.node ∧ u.storage = t.storage ∧ (t.owner = true → u.owner = true)

theorem listed_addTarget (targets : List Target) (t : Target) : Listed (addTarget targets t) t := by
  unfold addTarget
  split
  · rename_i hany
    obtain ⟨u, hu, heq⟩ := List.any_eq_true.mp hany
    have hsame : u.node = t.node ∧ u.storage = t.storage := by simpa using heq
    refine ⟨_, List.mem_map.mpr ⟨u, hu, if_pos hsame⟩, hsame.1, hsame.2, ?_⟩
    intro ht
    rw [ht, Bool.or_true]
  · exact ⟨t, List.mem_append_right _ (List.mem_singleton.mpr rfl), rfl, rfl, id⟩

theorem Listed.addTarget {targets : List Target} {t : Target} (h : Listed targets t) (t' : Target) :
    Listed (addTarget targets t') t := by
  obtain ⟨u, hu, h1, h2, h3⟩ := h
  unfold VmIds.addTarget
  split
  · by_cases hsame : u.node = t'.node ∧ u.storage = t'.storage
    · refine ⟨_, List.mem_map.mpr ⟨u, hu, if_pos hsame⟩, h1, h2, ?_⟩
      intro ht
      rw [h3 ht, Bool.true_or]
    · exact ⟨u, List.mem_map.mpr ⟨u, hu, if_neg hsame⟩, h1, h2, h3⟩
  · exact ⟨u, List.mem_append_left _ hu, h1, h2, h3⟩

theorem Listed.foldl {t : Target} : ∀ (more targets : List Target), Listed targets t →
    Listed (more.foldl VmIds.addTarget targets) t
  | [], _, h => h
  | t' :: more, _, h => Listed.foldl more _ (h.addTarget t')

theorem listed_foldl {t : Target} : ∀ (more targets : List Target), t ∈ more →
    Listed (more.foldl addTarget targets) t
  | t' :: more, targets, h => by
    rcases List.mem_cons.mp h with rfl | h
    · exact Listed.foldl more _ (listed_addTarget targets t)
    · exact listed_foldl more _ h

/-- The targets of `storageScanTargets`, given the storages of the image node. -/
def scanTargets (o : AllocOpts) (images : List Bytes) : List Target :=
  (o.pairs ++ images.map fun s => (⟨o.imageStorageScanNode, s, true⟩ : Target)).foldl addTarget []

/-! ## 4. The cluster

Only storages that are enabled and active are listed, and a list that fails ends the round. -/

/-- A volume, the listings that show it, and the moment it was made. -/
structure Vol where
  stamp : Nat
  shownOn : Bytes → Bytes → Bool
  row : Row

/-- A number that was sent to PVE. -/
structure Sent where
  opts : AllocOpts
  /-- The moment the round began. -/
  began : Nat
  id : Int
  /-- The volumes that were there. -/
  vols : List Vol

structure Cluster where
  vols : List Vol
  /-- The next moment. -/
  now : Nat
  /-- The storages of each node. -/
  storages : Bytes → List StorageRow
  /-- When the round of a process began. -/
  began : Nat → Nat
  sent : List Sent

/-- The calls of the API, the volumes that come and go, and the start of a round. -/
inductive Eff where
  | begin
  | listResources
  | listGuests
  | listStorage (node : Bytes)
  | listStorageContent (node storage : Bytes)
  | randomOffset
  | create (opts : AllocOpts) (id : Int)
  | backoff
  | addVolume (shownOn : Bytes → Bytes → Bool) (row : Row)
  | removeVolume (stamp : Nat)

inductive Created where
  | accepted
  | conflict
  | failed
  deriving DecidableEq

/-- The answers; `none` and `false` are errors. -/
abbrev Ans : Eff → Type
  | .listResources | .listGuests => Option (List Int)
  | .listStorage _ => Option (List StorageRow)
  | .listStorageContent _ _ => Option (List Row)
  | .randomOffset => Nat
  | .create _ _ => Created
  | .backoff => Bool
  | .begin | .addVolume _ _ | .removeVolume _ => Unit

/-- What the code does not decide. -/
structure Choice where
  fails : Bool := false
  ids : List Int := []
  offset : Nat := 0
  created : Created := .accepted

/-- One call of process `p`.  What the two lists of guests say is arbitrary: PVE itself refuses a
number that a guest has.  A content listing is an error or the whole listing; the source also reads
an answer without a body as an empty one, which PVE does not give where there are volumes. -/
def exec (p : Nat) : (e : Eff) → Choice → Cluster → Option (Ans e × Cluster)
  | .begin, _, c => some ((), { c with began := fun q => if q = p then c.now else c.began q })
  | .listResources, ch, c => some (if ch.fails then none else some ch.ids, c)
  | .listGuests, ch, c => some (if ch.fails then none else some ch.ids, c)
  | .listStorage node, ch, c => some (if ch.fails then none else some (c.storages node), c)
  | .listStorageContent node storage, ch, c => some
      (if ch.fails then none
        else some ((c.vols.filter fun v => v.shownOn node storage).map Vol.row), c)
  | .randomOffset, ch, c => some (ch.offset, c)
  | .create opts id, ch, c =>
    some (ch.created, { c with sent := ⟨opts, c.began p, id, c.vols⟩ :: c.sent })
  | .backoff, ch, c => some (!ch.fails, c)
  | .addVolume shownOn row, _, c =>
    some ((), { c with vols := ⟨c.now, shownOn, row⟩ :: c.vols, now := c.now + 1 })
  | .removeVolume stamp, _, c =>
    some ((), { c with vols := c.vols.filter fun v => v.stamp != stamp })

/-! ## 5. The code -/

inductive Err where
  | list
  | exhausted
  | create
  | cancelled
  deriving DecidableEq

abbrev Run := Prog Eff Ans

def call (e : Eff) : Run (Ans e) := Prog.perform e

/-- `listNodeImageStorages`: a row that does not decode is an error. -/
def listNodeImageStorages (node : Bytes) : Run (Except Err (List Bytes)) := do
  match ← call (.listStorage node) with
  | none => pure (.error .list)
  | some rows =>
    if rows.all StorageRow.readable then
      pure (.ok ((rows.filter StorageRow.kept).map StorageRow.storage))
    else pure (.error .list)

/-- `storageScanTargets`. -/
def storageScanTargets (o : AllocOpts) : Run (Except Err (List Target)) :=
  if o.imageStorageScanNode = [] then pure (.ok (scanTargets o []))
  else do
    match ← listNodeImageStorages o.imageStorageScanNode with
    | .error e => pure (.error e)
    | .ok images => pure (.ok (scanTargets o images))

/-- The numbers that a content listing reserves: `listStorageVMIDsFor`. -/
def reservedIn (owner : Bool) (rows : List Row) : List Int :=
  rows.filterMap fun r => (reserves owner r).map Int.ofNat

/-- The loop of `NextVMID` over the targets. -/
def scan : List Target → List Int → Run (Except Err (List Int))
  | [], used => pure (.ok used)
  | t :: targets, used => do
    match ← call (.listStorageContent t.node t.storage) with
    | none => pure (.error .list)
    | some rows => scan targets (used ++ reservedIn t.owner rows)

/-- `NextVMID` and `NextDiskVMID`. -/
def nextVMID (o : AllocOpts) : Run (Except Err Int) := do
  match ← call .listResources with
  | none => pure (.error .list)
  | some indexed =>
    match ← call .listGuests with
    | none => pure (.error .list)
    | some guests =>
      match ← storageScanTargets o with
      | .error e => pure (.error e)
      | .ok targets =>
        match ← scan targets (indexed ++ guests) with
        | .error e => pure (.error e)
        | .ok used =>
          let offset ← call .randomOffset
          match nextVMIDInRange used o.rangeStart o.rangeEnd offset with
          | none => pure (.error .exhausted)
          | some id => pure (.ok id)

/-- The loop of `AllocateWithRetry` and `AllocateDiskWithRetry`, with `left` attempts left. -/
def attempts (o : AllocOpts) (retries : Bool) : Nat → Run (Except Err Int)
  | 0 => pure (.error .exhausted)
  | left + 1 => do
    let _ ← call .begin
    match ← nextVMID o with
    | .error e => pure (.error e)
    | .ok id =>
      match ← call (.create o id) with
      | .accepted => pure (.ok id)
      | .failed => pure (.error .create)
      | .conflict =>
        if !retries then pure (.error .create)
        else if left = 0 then attempts o retries left
        else if ← call .backoff then attempts o retries left
        else pure (.error .cancelled)

/-- `AllocateWithRetry`: three attempts unless the caller asks for another number of them. -/
def allocateWithRetry (o : AllocOpts) (retries : Bool) (maxAttempts : Int) : Run (Except Err Int) :=
  attempts o retries (if maxAttempts ≤ 0 then 3 else maxAttempts.toNat)

/-- What a process may do. -/
inductive Op where
  | allocate (opts : AllocOpts) (retries : Bool) (maxAttempts : Int)
  | add (shownOn : Bytes → Bytes → Bool) (row : Row)
  | remove (stamp : Nat)

def program : Op → Run Unit
  | .allocate o retries maxAttempts => do
    let _ ← allocateWithRetry o retries maxAttempts
    pure ()
  | .add shownOn row => call (.addVolume shownOn row)
  | .remove stamp => call (.removeVolume stamp)

/-- Any number of processes, of this cluster and of others that mount the same storages. -/
def clusterSys : Sys where
  σ := Cluster
  E := Eff
  Ans := Ans
  Ch := Choice
  L := Unit
  Op := Op
  exec := exec
  prog o _ := some (program o)
  enter _ _ c := c
  halt _ c := c
  boot := ()

/-! ## 6. What a number that is sent must satisfy -/

/-- The storages that the options are about, and the rule by which each is read. -/
def Covered (storages : Bytes → List StorageRow) (o : AllocOpts) (t : Target) : Prop :=
  t ∈ o.pairs ∨ o.imageStorageScanNode ≠ [] ∧ t.node = o.imageStorageScanNode ∧
    ∃ r ∈ storages t.node, r.kept = true ∧ r.storage = t.storage

/-- The number is in the range, and no volume that was there since the round began claims it. -/
def Free (storages : Bytes → List StorageRow) (s : Sent) : Prop :=
  s.opts.rangeStart ≤ s.id ∧ s.id ≤ s.opts.rangeEnd ∧ ∀ v ∈ s.vols, v.stamp < s.began →
    ∀ t, Covered storages s.opts t → v.shownOn t.node t.storage = true →
    ∀ n : Nat, (n : Int) = s.id →
      ¬ Claims t.owner v.row n

def Inv (c : Cluster) : Prop := ∀ s ∈ c.sent, Free c.storages s

/-- What process `p` may do in one call. -/
structure Guar (p : Nat) (c c' : Cluster) : Prop where
  storages : c'.storages = c.storages
  now : c.now ≤ c'.now
  vols : ∀ v ∈ c'.vols, v.stamp < c.now → v ∈ c.vols
  began : ∀ q, q ≠ p → c'.began q = c.began q

theorem Guar.refl (p : Nat) (c : Cluster) : Guar p c c :=
  ⟨rfl, Nat.le_refl _, fun _ h _ => h, fun _ _ => rfl⟩

def Allowed (p : Nat) : Eff → Cluster → Prop
  | .create o id, c => Free c.storages ⟨o, c.began p, id, c.vols⟩
  | _, _ => True

/-- **One call.** -/
theorem exec_ok {p : Nat} {e : Eff} {ch : Choice} {a : Ans e} {c c' : Cluster} (hc : Inv c)
    (ha : Allowed p e c) (hx : exec p e ch c = some (a, c')) : Inv c' ∧ Guar p c c' := by
  cases e <;> simp only [exec, Option.some.injEq, Prod.mk.injEq] at hx <;> obtain ⟨-, rfl⟩ := hx
  case create o id =>
    refine ⟨?_, { Guar.refl p c with }⟩
    intro s hs
    rcases List.mem_cons.mp hs with rfl | hs
    · exact ha
    · exact hc s hs
  case begin => exact ⟨hc, rfl, Nat.le_refl _, fun _ h _ => h, fun q hq => if_neg hq⟩
  case addVolume shownOn row =>
    refine ⟨hc, rfl, Nat.le_succ _, ?_, fun _ _ => rfl⟩
    intro v hv hlt
    rcases List.mem_cons.mp hv with rfl | hv
    · exact absurd hlt (Nat.lt_irrefl _)
    · exact hv
  case removeVolume stamp =>
    exact ⟨hc, rfl, Nat.le_refl _, fun v hv _ => List.mem_of_mem_filter hv, fun _ _ => rfl⟩
  all_goals exact ⟨hc, Guar.refl p c⟩

/-! ## 7. What a round knows

The scan goes over its targets one by one; what was read of the first is still known when the last
is read. -/

/-- Every number that a volume of the targets read so far has claimed since the round began is
used. -/
structure Known (p : Nat) (o : AllocOpts) (targets : List Target) (used : List Int) (c : Cluster) :
    Prop where
  began : c.began p ≤ c.now
  used : ∀ t ∈ targets, ∀ v ∈ c.vols, v.stamp < c.began p → v.shownOn t.node t.storage = true →
    ∀ n : Nat, Claims t.owner v.row n → (n : Int) ∈ used

section Rules

variable {p : Nat} {α : Type} {s : Cluster} {P : Cluster → Prop} {o : AllocOpts}

theorem wp_call {e : Eff} {f : Ans e → Run α} {Q : α → Cluster → Prop} (hs : Inv s)
    (hP : Kept (S := clusterSys) Inv Guar p P) (hPs : P s) (ha : ∀ c, Inv c → P c → Allowed p e c)
    (h : ∀ c ch a c', Inv c → P c → exec p e ch c = some (a, c') → Inv c' →
      wp (S := clusterSys) Inv Guar p (f a) Q c') :
    wp (S := clusterSys) Inv Guar p (call e >>= f) Q s := by
  refine wp_bind (S := clusterSys)
    (wp_perform (S := clusterSys) hP hPs (fun a => wp_kept (S := clusterSys) _ _) ?_) hs
  intro c hc hPc ch a c' hx
  obtain ⟨hc', hg⟩ := exec_ok hc (ha c hc hPc) hx
  exact ⟨hc', hg, h c ch a c' hc hPc hx hc'⟩

theorem kept_true : Kept (S := clusterSys) Inv Guar p fun _ => True := fun _ _ _ _ _ => trivial

/-- Volumes that come later are newer than the round, so what a round knows stays. -/
theorem kept_known {targets : List Target} {used : List Int} :
    Kept (S := clusterSys) Inv Guar p (Known p o targets used) := by
  refine Stable.kept (S := clusterSys) ?_
  intro q hq c c' _ _ hg h
  have hbegan : c'.began p = c.began p := hg.began p (Ne.symm hq)
  refine ⟨by rw [hbegan]; exact Nat.le_trans h.began hg.now, ?_⟩
  intro t ht v hv hlt hshown n hclaims
  rw [hbegan] at hlt
  exact h.used t ht v (hg.vols v hv (Nat.lt_of_lt_of_le hlt h.began)) hlt hshown n hclaims

theorem wp_end {r : Except Err α} {Q : α → Cluster → Prop}
    (hQ : ∀ a, Kept (S := clusterSys) Inv Guar p (Q a)) (h : ∀ a, r = .ok a → Q a s) :
    wp (S := clusterSys) Inv Guar p (pure r : Run (Except Err α))
      (fun r c => ∀ a, r = .ok a → Q a c) s := by
  refine wp_ret (S := clusterSys) ?_ h
  intro c c' hc' he hc a ha
  exact hQ a c c' hc' he (hc a ha)

theorem wp_error {e : Err} {Q : α → Cluster → Prop} :
    wp (S := clusterSys) Inv Guar p (pure (.error e) : Run (Except Err α))
    (fun r c => ∀ a, r = .ok a → Q a c) s :=
  wp_ret (S := clusterSys) (fun _ _ _ _ _ _ h => by cases h) (fun _ h => by cases h)

/-- A list that is answered is the list. -/
theorem answered {β : Type} {fails : Bool} {x y : β}
    (h : (if fails then none else some x) = some y) : y = x := by
  cases fails with
  | true => cases h
  | false => exact (Option.some.inj h).symm

/-- **The scan reads every target**, and a target read stays known. -/
theorem wp_scan : ∀ (todo done : List Target) (used : List Int) {s : Cluster}, Inv s →
    Known p o done used s → wp (S := clusterSys) Inv Guar p (scan todo used)
      (fun r c => ∀ used', r = .ok used' → Known p o (done ++ todo) used' c) s := by
  intro todo
  induction todo with
  | nil =>
    intro done used s hs h
    refine wp_end (Q := fun used' => Known p o (done ++ []) used') (fun _ => kept_known) ?_
    intro a ha
    cases ha
    rw [List.append_nil]
    exact h
  | cons t todo ih =>
    intro done used s hs h
    refine wp_call (e := .listStorageContent t.node t.storage) hs kept_known h
      (fun _ _ _ => trivial) ?_
    intro c ch a c' hc hknown hx hc'
    simp only [exec, Option.some.injEq, Prod.mk.injEq] at hx
    obtain ⟨ha, rfl⟩ := hx
    cases a with
    | none => exact wp_error
    | some rows =>
      have hrows : rows = (c.vols.filter fun v => v.shownOn t.node t.storage).map Vol.row :=
        answered ha
      have hnext : Known p o (done ++ [t]) (used ++ reservedIn t.owner rows) c := by
        refine ⟨hknown.began, ?_⟩
        intro u hu v hv hlt hshown n hclaims
        rcases List.mem_append.mp hu with hu | hu
        · exact List.mem_append_left _ (hknown.used u hu v hv hlt hshown n hclaims)
        · obtain rfl := List.mem_singleton.mp hu
          refine List.mem_append_right _ (List.mem_filterMap.mpr ⟨v.row, ?_, ?_⟩)
          · rw [hrows]
            exact List.mem_map.mpr ⟨v, List.mem_filter.mpr ⟨hv, hshown⟩, rfl⟩
          · rw [reserves_of_claims hclaims]
            rfl
      have hrest := ih (done ++ [t]) (used ++ reservedIn t.owner rows) hc hnext
      rw [List.append_assoc] at hrest
      exact hrest

/-- The targets cover what the options are about. -/
def CoversAll (o : AllocOpts) (targets : List Target) (c : Cluster) : Prop :=
  ∀ t, Covered c.storages o t → Listed targets t

theorem stable_coversAll {targets : List Target} :
    Stable (S := clusterSys) Inv Guar p (CoversAll o targets) := by
  intro q _ c c' _ _ hg h
  unfold CoversAll
  rw [hg.storages]
  exact h

/-- The targets of the scan cover every storage that the options are about: enabled and active ones
that hold images. -/
theorem wp_storageScanTargets {used : List Int} (hs : Inv s) (h : Known p o [] used s) :
    wp (S := clusterSys) Inv Guar p (storageScanTargets o)
      (fun r c => ∀ targets, r = .ok targets → CoversAll o targets c ∧ Known p o [] used c) s := by
  have hkept : ∀ targets, Kept (S := clusterSys) Inv Guar p fun c => CoversAll o targets c ∧
    Known p o [] used c :=
    fun targets => Kept.and (S := clusterSys) stable_coversAll.kept kept_known
  unfold storageScanTargets
  by_cases hnode : o.imageStorageScanNode = []
  · rw [if_pos hnode]
    refine wp_end (Q := fun targets c => CoversAll o targets c ∧ Known p o [] used c) hkept ?_
    intro targets ht
    cases ht
    refine ⟨?_, h⟩
    intro t ht
    rcases ht with ht | ⟨hne, _⟩
    · exact listed_foldl _ _ (List.mem_append_left _ ht)
    · exact absurd hnode hne
  · rw [if_neg hnode]
    have hlist : wp (S := clusterSys) Inv Guar p (listNodeImageStorages o.imageStorageScanNode)
        (fun r c => ∀ images, r = .ok images → CoversAll o (scanTargets o images) c ∧
          Known p o [] used c) s := by
      refine wp_call (e := .listStorage o.imageStorageScanNode) hs kept_known h
        (fun _ _ _ => trivial) ?_
      intro c ch a c' hc hknown hx hc'
      simp only [exec, Option.some.injEq, Prod.mk.injEq] at hx
      obtain ⟨ha, rfl⟩ := hx
      cases a with
      | none => exact wp_error
      | some rows =>
        have hrows : rows = c.storages o.imageStorageScanNode := answered ha
        dsimp only
        by_cases hall : rows.all StorageRow.readable = true
        · rw [if_pos hall]
          refine wp_end (Q := fun images c => CoversAll o (scanTargets o images) c ∧
            Known p o [] used c) (fun images => hkept (scanTargets o images)) ?_
          intro images himages
          cases himages
          refine ⟨?_, hknown⟩
          rintro ⟨node, storage, owner⟩ ht
          rcases ht with ht | ⟨_, hsame, r, hr, hkeep, hstorage⟩
          · exact listed_foldl _ _ (List.mem_append_left _ ht)
          · dsimp only at hsame hstorage hr
            subst hsame hstorage
            have hmem : (⟨o.imageStorageScanNode, r.storage, true⟩ : Target) ∈
                o.pairs ++ (((rows.filter StorageRow.kept).map StorageRow.storage).map
                  fun s => (⟨o.imageStorageScanNode, s, true⟩ : Target)) := by
              refine List.mem_append_right _ (List.mem_map.mpr ⟨r.storage, ?_, rfl⟩)
              rw [hrows]
              exact List.mem_map.mpr ⟨r, List.mem_filter.mpr ⟨hr, hkeep⟩, rfl⟩
            obtain ⟨u, hu, h1, h2, h3⟩ := listed_foldl _ [] hmem
            exact ⟨u, hu, h1, h2, fun _ => h3 rfl⟩
        · rw [if_neg hall]
          exact wp_error
    refine wp_bind (S := clusterSys) (wp_mono (S := clusterSys) ?_ hlist) hs
    intro r c hc hr
    cases r with
    | error e => exact wp_error
    | ok images =>
      refine wp_end (Q := fun targets c => CoversAll o targets c ∧ Known p o [] used c) hkept ?_
      intro targets ht
      cases ht
      exact hr images rfl

/-- A number outside what is known is free. -/
theorem free_of_known {targets : List Target} {used : List Int} {id : Int} {c : Cluster}
    (hcov : CoversAll o targets c) (h : Known p o targets used c) (hlow : o.rangeStart ≤ id)
    (hhigh : id ≤ o.rangeEnd) (hid : id ∉ used) : Free c.storages ⟨o, c.began p, id, c.vols⟩ := by
  refine ⟨hlow, hhigh, ?_⟩
  rintro v hv hlt t ht hshown n hn hclaims
  obtain ⟨u, hu, h1, h2, h3⟩ := hcov t ht
  refine hid ?_
  rw [← show (n : Int) = id from hn]
  exact h.used u hu v hv hlt (by rw [h1, h2]; exact hshown) n (hclaims.mono h3)

/-- The number may be sent. -/
def Ready (p : Nat) (o : AllocOpts) (id : Int) (c : Cluster) : Prop :=
  c.began p ≤ c.now ∧ Free c.storages ⟨o, c.began p, id, c.vols⟩

theorem kept_ready {id : Int} : Kept (S := clusterSys) Inv Guar p (Ready p o id) := by
  refine Stable.kept (S := clusterSys) ?_
  rintro q hq c c' _ _ hg ⟨hbegan, hlow, hhigh, hfree⟩
  unfold Ready
  rw [hg.began p (Ne.symm hq), hg.storages]
  refine ⟨Nat.le_trans hbegan hg.now, hlow, hhigh, ?_⟩
  intro v hv hlt
  exact hfree v (hg.vols v hv (Nat.lt_of_lt_of_le hlt hbegan)) hlt

/-- **A candidate is free as far as the call has looked.**  Every source that was read since the
call began is among the used ones, and the candidate is none of them. -/
theorem wp_nextVMID (hs : Inv s) (h : s.began p ≤ s.now) :
    wp (S := clusterSys) Inv Guar p (nextVMID o)
    (fun r c => ∀ id, r = .ok id → Ready p o id c) s := by
  have hknown : ∀ used, ∀ c : Cluster, c.began p ≤ c.now → Known p o [] used c :=
    fun used c hc => ⟨hc, fun t ht => absurd ht List.not_mem_nil⟩
  refine wp_call (e := .listResources) hs kept_known (hknown [] s h) (fun _ _ _ => trivial) ?_
  intro c ch a c' _ hk hx hc'
  simp only [exec, Option.some.injEq, Prod.mk.injEq] at hx
  obtain ⟨-, rfl⟩ := hx
  cases a with
  | none => exact wp_error
  | some indexed =>
    refine wp_call (e := .listGuests) hc' kept_known hk (fun _ _ _ => trivial) ?_
    intro c ch a c' _ hk hx hc'
    simp only [exec, Option.some.injEq, Prod.mk.injEq] at hx
    obtain ⟨-, rfl⟩ := hx
    cases a with
    | none => exact wp_error
    | some guests =>
      refine wp_bind (S := clusterSys) (wp_mono (S := clusterSys) ?_
        (wp_storageScanTargets hc' (hknown (indexed ++ guests) c hk.began))) hc'
      intro r c hc hr
      cases r with
      | error e => exact wp_error
      | ok targets =>
        obtain ⟨hcov, hk⟩ := hr targets rfl
        have hscan := wp_frame (S := clusterSys) (R := CoversAll o targets)
          (fun k c c' h1 h2 hg h => by unfold CoversAll; rw [hg.storages]; exact h) hcov
          (wp_scan targets [] (indexed ++ guests) hc hk)
        refine wp_bind (S := clusterSys) (wp_mono (S := clusterSys) ?_ hscan) hc
        rintro r c hc ⟨hr, hcov⟩
        cases r with
        | error e => exact wp_error
        | ok used =>
          have hkept : Kept (S := clusterSys) Inv Guar p fun c => CoversAll o targets c ∧
            Known p o targets used c :=
            Kept.and (S := clusterSys) stable_coversAll.kept kept_known
          refine wp_call (e := .randomOffset) hc hkept ⟨hcov, hr used rfl⟩ (fun _ _ _ => trivial) ?_
          intro c ch offset c' _ hk hx hc'
          simp only [exec, Option.some.injEq, Prod.mk.injEq] at hx
          obtain ⟨-, rfl⟩ := hx
          cases hid : nextVMIDInRange used o.rangeStart o.rangeEnd offset with
          | none => exact wp_error
          | some id =>
            obtain ⟨hlow, hhigh, hnot⟩ := nextVMIDInRange_eq_some hid
            refine wp_end (Q := Ready p o) (fun _ => kept_ready) ?_
            intro x hx
            cases hx
            exact ⟨hk.2.began, free_of_known hk.1 hk.2 hlow hhigh hnot⟩

/-- The loop over the attempts; each begins anew, so nothing is carried between them. -/
theorem wp_attempts (retries : Bool) : ∀ (left : Nat) {s : Cluster}, Inv s →
    wp (S := clusterSys) Inv Guar p (attempts o retries left) (fun _ _ => True) s := by
  intro left
  induction left with
  | zero =>
    intro s _
    exact wp_ret (S := clusterSys) kept_true trivial
  | succ left ih =>
    intro s hs
    refine wp_call (e := .begin) hs kept_true trivial (fun _ _ _ => trivial) ?_
    intro c ch a c' _ _ hx hc'
    have hbegan : c'.began p ≤ c'.now := by
      simp only [exec, Option.some.injEq, Prod.mk.injEq] at hx
      obtain ⟨-, rfl⟩ := hx
      exact Nat.le_of_eq (if_pos rfl)
    refine wp_bind (S := clusterSys) (wp_mono (S := clusterSys) ?_ (wp_nextVMID hc' hbegan)) hc'
    intro r c hc hr
    cases r with
    | error e => exact wp_ret (S := clusterSys) kept_true trivial
    | ok id =>
      refine wp_call (e := .create o id) hc kept_ready (hr id rfl) (fun _ _ h => h.2) ?_
      intro c ch a c' _ _ _ hc'
      cases a with
      | accepted => exact wp_ret (S := clusterSys) kept_true trivial
      | failed => exact wp_ret (S := clusterSys) kept_true trivial
      | conflict =>
        cases retries with
        | false => exact wp_ret (S := clusterSys) kept_true trivial
        | true =>
          by_cases hleft : left = 0
          · refine (congrArg (fun q => wp (S := clusterSys) Inv Guar p q _ _) (if_pos hleft)).mpr ?_
            exact ih hc'
          · refine (congrArg (fun q => wp (S := clusterSys) Inv Guar p q _ _) (if_neg hleft)).mpr ?_
            refine wp_call (e := .backoff) hc' kept_true trivial (fun _ _ _ => trivial) ?_
            intro c ch a c' _ _ _ hc'
            cases a with
            | true => exact ih hc'
            | false => exact wp_ret (S := clusterSys) kept_true trivial

/-- A program of one call that is always allowed. -/
theorem wp_single {e : Eff} (ha : ∀ c, Allowed p e c) :
    wp (S := clusterSys) Inv Guar p (call e) (fun _ _ => True) s := by
  refine wp_perform (S := clusterSys) kept_true trivial (fun _ => kept_true) ?_
  intro c hc _ ch a c' hx
  obtain ⟨hc', hg⟩ := exec_ok hc (ha c) hx
  exact ⟨hc', hg, trivial⟩

theorem wp_program (op : Op) (hs : Inv s) : wp (S := clusterSys) Inv Guar p (program op)
    (fun _ _ => True) s := by
  cases op with
  | allocate o retries maxAttempts =>
    refine wp_bind (S := clusterSys) (wp_mono (S := clusterSys) ?_ (wp_attempts retries _ hs)) hs
    intro _ _ _ _
    exact wp_ret (S := clusterSys) kept_true trivial
  | add shownOn row => exact wp_single (e := .addVolume shownOn row) fun _ => trivial
  | remove stamp => exact wp_single (e := .removeVolume stamp) fun _ => trivial

end Rules

/-! ## 8. Every run -/

def protocol : Protocol clusterSys where
  Inv := Inv
  Guar := Guar
  Loc _ _ _ := True
  start_ok p op l q c hc _ hq := by
    cases hq
    exact ⟨hc, Guar.refl p c, wp_program op hc⟩
  halt_ok p c hc := ⟨hc, Guar.refl p c, trivial⟩
  boot_kept _ := kept_true

/-- **A number that is sent is nobody's.**  In every run of any number of allocations, beside any
volumes that come and go and any crashes: a number that an allocation sends to PVE is in its range,
and no volume that was on a storage of its options since its round began claims it, by the rule the
options ask for there.  And a round gives up its search only when every number of the range is used,
whatever the random start.  The number was chosen outside what the scan had read, which covers every
claim of a volume that is older than the round; newer volumes are not spoken of. -/
theorem sent_free {c₀ : Cluster} {c : Config clusterSys} (h₀ : c₀.sent = [])
    (hr : Reach (Config.initial c₀) c) : (∀ s ∈ c.shared.sent, Free c.shared.storages s) ∧
      ∀ used start stop offset, nextVMIDInRange used start stop offset = none ↔
        ∀ id, start ≤ id → id ≤ stop → id ∈ used := by
  have hinv : Inv c₀ := by
    intro s hs
    rw [h₀] at hs
    cases hs
  exact ⟨(Protocol.reachable (P := protocol) hinv (fun _ => trivial) hr).inv,
    fun _ _ _ _ => nextVMIDInRange_eq_none⟩

/-- A volume of another cluster's VM 100 on an image storage of node `n`. -/
def foreignVolume : Cluster where
  vols := [⟨0, fun node storage => node == ascii "n" && storage == ascii "s",
    { volid := ascii "s:100/vm-100-cloudinit.qcow2", content := ascii "images" }⟩]
  now := 1
  storages := fun _ => [{ storage := ascii "s", content := [ascii "images"], active := some true }]
  began := fun _ => 0
  sent := []

def twoNumbers : AllocOpts := vmOpts [.withRange 100 101, .withNodeImageStorageScan (ascii "n")]

def oneRound : List (Act clusterSys) :=
  .start 0 (.allocate twoNumbers true 3) :: List.replicate 7 (.run 0 {})

def afterRound : Config clusterSys :=
  (runActs oneRound (Config.initial foreignVolume)).getD (Config.initial foreignVolume)

/-- The search starts at 100 and sends 101. -/
theorem sent_free_past_foreign : afterRound.shared.sent.map Sent.id = [101] ∧
    ∀ s ∈ afterRound.shared.sent, Free afterRound.shared.storages s := by
  have hsome : (runActs oneRound (Config.initial (S := clusterSys) foreignVolume)).isSome =
    true := by decide
  have hreach : Reach (Config.initial (S := clusterSys) foreignVolume) afterRound := by
    obtain ⟨c, hc⟩ := Option.isSome_iff_exists.mp hsome
    unfold afterRound
    rw [hc]
    exact reach_of_runActs hc
  exact ⟨by decide, (sent_free rfl hreach).1⟩

end VmIds
