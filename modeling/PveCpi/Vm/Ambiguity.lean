/-
# One key for each field

Two parsers read ownership out of a description, and both refuse an object that has a key twice,
because the decoder would keep the last value: `ParseStorageAllocationMarker`, and
`ParseDiskAllocationProvenance` of `pve/disk_allocation_lifecycle.go`.  The refusal compares the
keys as they are spelled.  The decoder stores a key in the field whose name it is up to the case of
its letters.  So `version` and `Version` pass the one and meet in the other.

* `unambiguous_iff`: of what is accepted, a field is assigned once exactly when no name is spelled
  in two ways;
* `two_spellings_accepted`: a marker with `version` and `Version`.

The danger is a marker that two readers read differently: one that sees the first value of a field
and one that sees the last.  The code refuses repeated keys for this reason, and says so.  What it
compares are keys as they are spelled, while Go's decoder matches a key to a field without regard to
case.  So between "no key twice" and "no field twice" lies exactly the set of objects in which two
different keys are one name, and `unambiguous_iff` is this sentence for both parsers.

All keys of an accepted object are fields, since unknown ones are refused; that is why nothing else
can go wrong.
-/
import PveCpi.Vm.Sentinel

namespace Vm

open Lib.Json (Value Elems Members parse unquote)
open Lib.Text (isSpace trimList)
open Lib.Occurs
open Stemcell (putAll)

/-! ## 1. The provenance of disks -/

/-- `DiskAllocationProvenance`. -/
structure DiskAllocationProvenance where
  version : Int := 0
  allocationID : Text := []
  allocationNamespace : Text := []
  volid : Text := []
  node : Text := []
  backing : Text := []

inductive DiskField
  | version | allocationID | allocationNamespace | volid | node | backing
deriving DecidableEq

def DiskField.all : List DiskField :=
  [.version, .allocationID, .allocationNamespace, .volid, .node, .backing]

def DiskField.key : DiskField → Text
  | .version => "version".toList
  | .allocationID => "allocation_id".toList
  | .allocationNamespace => "allocation_namespace".toList
  | .volid => "volid".toList
  | .node => "node".toList
  | .backing => "backing".toList

/-- The field that the decoder stores a member in. -/
def diskField (key : Text) : Option DiskField :=
  DiskField.all.find? fun f => decide (f.key = key.map foldName)

/-- Store a value; null leaves a field as it is. -/
def storeDisk (p : DiskAllocationProvenance) : DiskField → Value → Option DiskAllocationProvenance
  | _, .null => some p
  | .version, .num lit => (Lib.Json.readInt64 lit).map fun n => { p with version := n }
  | .allocationID, .str s => some { p with allocationID := unquote s }
  | .allocationNamespace, .str s => some { p with allocationNamespace := unquote s }
  | .volid, .str s => some { p with volid := unquote s }
  | .node, .str s => some { p with node := unquote s }
  | .backing, .str s => some { p with backing := unquote s }
  | _, _ => none

/-- The strict decoder of an entry. -/
def readDisk : DiskAllocationProvenance → Members → Option DiskAllocationProvenance
  | p, .nil => some p
  | p, .cons k v ms =>
    (diskField (unquote k)).bind fun f => (storeDisk p f v).bind fun p => readDisk p ms

def maxPVENodeNameLength : Nat := 63

/-- `ParseDiskCID`. -/
def parseDiskCID (cid : Text) : Option (Text × Text) :=
  let storage := cid.takeWhile (· != ':')
  let volume := (cid.dropWhile (· != ':')).drop 1
  if ':' ∈ cid ∧ storage ≠ [] ∧ volume ≠ [] then some (storage, volume) else none

/-- `validateDiskAllocationProvenance`. -/
def validateDiskAllocationProvenance (p : DiskAllocationProvenance) : Bool :=
  p.version == 1 && storageAllocationUUID p.allocationID && !p.allocationNamespace.isEmpty &&
  trimList isSpace p.allocationNamespace == p.allocationNamespace &&
  decide (byteLen p.allocationNamespace ≤ 1024) &&
  p.allocationNamespace.all (fun c => !(['/', '\\', '\x00', '\r', '\n'].contains c)) &&
  p.allocationNamespace != ".".toList && p.allocationNamespace != "..".toList &&
  !p.node.isEmpty && decide (byteLen p.node ≤ maxPVENodeNameLength) && !p.backing.isEmpty &&
  (parseDiskCID p.volid).isSome

/-! ## 2. The parser -/

section Parser

-- Whether a number literal is a `float64`: the pass that looks for keys decodes it.
variable (number : Text → Bool)

mutual

/-- `uniqueJSONValue`: no object has a key twice, at any depth. -/
def uniqueJSONValue : Value → Bool
  | .null | .bool _ | .str _ => true
  | .num lit => number lit
  | .arr es => uniqueElems es
  | .obj ms => decide (decodedKeys ms).Nodup && uniqueMembers ms

def uniqueElems : Elems → Bool
  | .nil => true
  | .cons v es => uniqueJSONValue v && uniqueElems es

def uniqueMembers : Members → Bool
  | .nil => true
  | .cons _ v ms => uniqueJSONValue v && uniqueMembers ms

end

/-- `decodeUniqueJSON` into a key map; `null` makes it nil, which the caller refuses. -/
def decodeUniqueJSON (jsonStr : Text) : Option Members :=
  match parse jsonStr with
  | some (.obj ms) => if uniqueJSONValue number (.obj ms) then some ms else none
  | _ => none

/-- `strictDiskAllocationSentinel`.  With one opening there is one match. -/
def strictDiskAllocationSentinel (desc : Text) : Option (Text × Raw) :=
  match findSentinel desc with
  | none => if sentinelOpen <:+: desc then none else some (desc, ∅)
  | some (before, jsonStr, rest) =>
    if count sentinelOpen desc ≠ 1 then none
    else (decodeUniqueJSON number jsonStr).map fun ms =>
      (trimList isSpace (before ++ rest), putAll ∅
        ((membersList ms).map fun e => (unquote e.1, e.2)))

def diskAllocationsKey : Text := "bosh_disk_allocations".toList

/-- An entry; null leaves it empty. -/
def readDiskEntry : Value → Option DiskAllocationProvenance
  | .null => some {}
  | .obj ms => readDisk {} ms
  | _ => none

/-- The entries of the map under the key. -/
def readDiskEntries : Members → Option (List (Text × DiskAllocationProvenance))
  | .nil => some []
  | .cons k v ms =>
    (readDiskEntry v).bind fun p => (readDiskEntries ms).map fun ps => (unquote k, p) :: ps

/-- `ParseDiskAllocationProvenance`.  A value that is null makes the result nil, which is
refused. -/
def parseDiskAllocationProvenance (desc : Text) : Option (List (Text × DiskAllocationProvenance)) :=
  (strictDiskAllocationSentinel number desc).bind fun r =>
    match r.2.lookup diskAllocationsKey with
    | none => some []
    | some (.obj ms) => (readDiskEntries ms).bind fun ps =>
        if ps.all fun e => !e.1.isEmpty && validateDiskAllocationProvenance e.2 then some ps
          else none
    | some _ => none

end Parser

/-! ## 3. What is decoded -/

/-- The JSON object between the lines of a marker. -/
def markerObject (desc : Text) : Option Members :=
  (between storageAllocationMarkerStart storageAllocationMarkerEnd desc).bind fun payload =>
    match parse payload with
    | some (.obj ms) => some ms
    | _ => none

/-- The objects among the values of an object. -/
def objects : Members → List Members
  | .nil => []
  | .cons _ (.obj inner) ms => inner :: objects ms
  | .cons _ _ ms => objects ms

/-- The JSON objects of the disk entries. -/
def diskObjects (desc : Text) : List Members :=
  match valueOf desc diskAllocationsKey with
  | some (.obj ms) => objects ms
  | _ => []

/-- No field is assigned by more than one key. -/
def Unambiguous {F : Type} [DecidableEq F] (fieldOf : Text → Option F) (ms : Members) : Prop :=
  ∀ f : F, (decodedKeys ms).countP (fun k => fieldOf k == some f) ≤ 1

/-- No name is spelled in two ways: keys that are equal up to the case of their letters are
equal. -/
def OneSpelling (ms : Members) : Prop :=
  ∀ k ∈ decodedKeys ms, ∀ k' ∈ decodedKeys ms, k.map foldName = k'.map foldName → k = k'

/-! ## 4. Keys and fields

A key is stored in the field whose name it is up to case. -/

/-- At most one entry of a list without repetition has the property when any two that have it are
equal. -/
theorem countP_le_one {α : Type} {p : α → Bool} {l : List α} (h : l.Nodup) :
    l.countP p ≤ 1 ↔ ∀ a ∈ l, ∀ b ∈ l, p a = true → p b = true → a = b := by
  rw [List.countP_eq_length_filter]
  have hnodup : (l.filter p).Nodup := h.filter p
  have hmem : ∀ a, a ∈ l.filter p ↔ a ∈ l ∧ p a = true := fun a => List.mem_filter
  constructor
  · intro hlen a ha b hb hpa hpb
    match hl : l.filter p with
    | [] => exact absurd ((hmem a).mpr ⟨ha, hpa⟩) (by rw [hl]; exact List.not_mem_nil)
    | [c] =>
      have hac := (hmem a).mpr ⟨ha, hpa⟩
      have hbc := (hmem b).mpr ⟨hb, hpb⟩
      rw [hl, List.mem_singleton] at hac hbc
      rw [hac, hbc]
    | c :: d :: rest =>
      rw [hl] at hlen
      simp at hlen
  · intro hall
    match hl : l.filter p with
    | [] => exact Nat.zero_le 1
    | [c] => exact Nat.le_refl 1
    | c :: d :: rest =>
      rw [hl] at hnodup
      have hc := (hmem c).mp (by rw [hl]; exact List.mem_cons_self)
      have hd := (hmem d).mp (by rw [hl]; exact List.mem_cons_of_mem _ List.mem_cons_self)
      have heq := hall c hc.1 d hd.1 hc.2 hd.2
      rw [heq] at hnodup
      exact absurd List.mem_cons_self (List.nodup_cons.mp hnodup).1

/-- Two keys are stored in one field when they are one name up to the case of their letters. -/
theorem find_same {F : Type} {all : List F} {name : F → Text} {k k' : Text} {f : F}
    (h : all.find? (fun f => decide (name f = k.map foldName)) = some f) :
    all.find? (fun f => decide (name f = k'.map foldName)) = some f ↔
      k.map foldName = k'.map foldName := by
  have hname : name f = k.map foldName := by simpa using List.find?_some h
  constructor
  · intro h'
    have hname' : name f = k'.map foldName := by simpa using List.find?_some h'
    exact hname.symm.trans hname'
  · intro hfold
    rw [← hfold]
    exact h

theorem markerField_same (k k' : Text) (f : MarkerField) (h : markerField k = some f) :
    markerField k' = some f ↔ k.map foldName = k'.map foldName := find_same h

theorem diskField_same (k k' : Text) (f : DiskField) (h : diskField k = some f) :
    diskField k' = some f ↔ k.map foldName = k'.map foldName := find_same h

/-- **Keys that are all fields are unambiguous exactly when no name is spelled in two ways.** -/
theorem unambiguous_iff_oneSpelling {F : Type} [DecidableEq F] {fieldOf : Text → Option F}
    {ms : Members}
    (hsame : ∀ k k' f, fieldOf k = some f →
      (fieldOf k' = some f ↔ k.map foldName = k'.map foldName))
    (hnodup : (decodedKeys ms).Nodup) (hfields : ∀ k ∈ decodedKeys ms, ∃ f, fieldOf k = some f) :
    Unambiguous fieldOf ms ↔ OneSpelling ms := by
  constructor
  · intro h k hk k' hk' hfold
    obtain ⟨f, hf⟩ := hfields k hk
    exact (countP_le_one hnodup).mp (h f) k hk k' hk' (beq_iff_eq.mpr hf)
      (beq_iff_eq.mpr ((hsame k k' f hf).mpr hfold))
  · intro h f
    refine (countP_le_one hnodup).mpr fun k hk k' hk' hf hf' => h k hk k' hk' ?_
    exact (hsame k k' f (eq_of_beq hf)).mp (eq_of_beq hf')

theorem readMarker_fields {m m' : Marker} {ms : Members} (h : readMarker m ms = some m') :
    ∀ k ∈ decodedKeys ms, ∃ f, markerField k = some f := by
  fun_induction readMarker m ms with
  | case1 => exact fun k hk => absurd hk List.not_mem_nil
  | case2 m k v ms ih =>
    obtain ⟨f, hf, h⟩ := Option.bind_eq_some_iff.mp h
    obtain ⟨m₁, -, h⟩ := Option.bind_eq_some_iff.mp h
    intro k' hk'
    rcases List.mem_cons.mp hk' with rfl | hk'
    · exact ⟨f, hf⟩
    · exact ih m₁ h k' hk'

theorem readDisk_fields {p p' : DiskAllocationProvenance} {ms : Members}
    (h : readDisk p ms = some p') : ∀ k ∈ decodedKeys ms, ∃ f, diskField k = some f := by
  fun_induction readDisk p ms with
  | case1 => exact fun k hk => absurd hk List.not_mem_nil
  | case2 p k v ms ih =>
    obtain ⟨f, hf, h⟩ := Option.bind_eq_some_iff.mp h
    obtain ⟨p₁, -, h⟩ := Option.bind_eq_some_iff.mp h
    intro k' hk'
    rcases List.mem_cons.mp hk' with rfl | hk'
    · exact ⟨f, hf⟩
    · exact ih p₁ h k' hk'

/-! ## 5. What the two parsers accept

From a success the object is had back, with its keys unique as spelled, at every depth. -/

/-- What is accepted as a marker is an object without equal keys, all of them fields. -/
theorem markerObject_of_found {desc : Text} {m : Marker}
    (h : parseStorageAllocationMarker desc = .found m) :
    ∃ ms, markerObject desc = some ms ∧ (decodedKeys ms).Nodup ∧
      ∀ k ∈ decodedKeys ms, ∃ f, markerField k = some f := by
  obtain ⟨hs, he, x, payload, y, hsplit, hdecode⟩ := found_iff.mp h
  have hbetween := (between_lines hs he).mpr ⟨x, y, hsplit⟩
  unfold decodeMarker at hdecode
  split at hdecode
  · rename_i ms hparse
    split at hdecode
    · rename_i hnodup
      obtain ⟨hread, -⟩ := Option.filter_eq_some_iff.mp hdecode
      refine ⟨ms, ?_, hnodup, readMarker_fields hread⟩
      rw [markerObject, hbetween, Option.bind_some, hparse]
    · cases hdecode
  · cases hdecode

variable {number : Text → Bool}

theorem unique_objects {ms inner : Members} (h : uniqueMembers number ms = true)
    (hinner : inner ∈ objects ms) : (decodedKeys inner).Nodup := by
  fun_induction objects ms with
  | case1 => cases hinner
  | case2 k inner' ms ih =>
    rw [uniqueMembers, Bool.and_eq_true, uniqueJSONValue, Bool.and_eq_true] at h
    rcases List.mem_cons.mp hinner with rfl | hinner
    · exact of_decide_eq_true h.1.1
    · exact ih h.2 hinner
  | case3 k v ms hv ih =>
    rw [uniqueMembers, Bool.and_eq_true] at h
    exact ih h.2 hinner

/-- Every key of an entry that was read is that of a field; the decoder refuses unknown ones. -/
theorem readDiskEntries_objects {ms inner : Members} {ps : List (Text × DiskAllocationProvenance)}
    (h : readDiskEntries ms = some ps) (hinner : inner ∈ objects ms) :
    ∀ k ∈ decodedKeys inner, ∃ f, diskField k = some f := by
  fun_induction objects ms generalizing ps with
  | case1 => cases hinner
  | case2 k inner' ms ih =>
    obtain ⟨p, hp, h⟩ := Option.bind_eq_some_iff.mp h
    obtain ⟨ps', hps', -⟩ := Option.map_eq_some_iff.mp h
    rcases List.mem_cons.mp hinner with rfl | hinner
    · exact readDisk_fields hp
    · exact ih hps' hinner
  | case3 k v ms hv ih =>
    obtain ⟨p, -, h⟩ := Option.bind_eq_some_iff.mp h
    obtain ⟨ps', hps', -⟩ := Option.map_eq_some_iff.mp h
    exact ih hps' hinner

/-- A value of an object without equal keys, at any depth, is one itself. -/
theorem unique_lookup {ms : Members} (h : uniqueMembers number ms = true) {k : Text} {v : Value}
    (hv : (putAll ∅ ((membersList ms).map fun e => (unquote e.1, e.2))).lookup k = some v) :
    uniqueJSONValue number v = true := by
  obtain ⟨e, he, heq⟩ := List.mem_map.mp (Stemcell.lookup_putAll_empty hv)
  cases heq
  clear hv
  fun_induction membersList ms with
  | case1 => cases he
  | case2 k v ms ih =>
    rw [uniqueMembers, Bool.and_eq_true] at h
    rcases List.mem_cons.mp he with rfl | he
    · exact h.1
    · exact ih h.2 he

/-- What is accepted as the provenance of disks has objects without equal keys, all of them
fields. -/
theorem diskObjects_of_accepted {desc : Text} {ps : List (Text × DiskAllocationProvenance)}
    (h : parseDiskAllocationProvenance number desc = some ps) {inner : Members}
    (hinner : inner ∈ diskObjects desc) :
    (decodedKeys inner).Nodup ∧ ∀ k ∈ decodedKeys inner, ∃ f, diskField k = some f := by
  obtain ⟨r, hr, h⟩ := Option.bind_eq_some_iff.mp h
  unfold strictDiskAllocationSentinel at hr
  unfold diskObjects valueOf parseSentinel at hinner
  split at hr
  · rename_i hfind
    rw [hfind] at hinner
    cases hinner
  · rename_i before jsonStr rest hfind
    rw [hfind] at hinner
    split at hr
    · cases hr
    · obtain ⟨ms, hms, rfl⟩ := Option.map_eq_some_iff.mp hr
      unfold decodeUniqueJSON at hms
      split at hms
      · rename_i ms' hparse
        split at hms
        · rename_i hunique
          cases hms
          rw [uniqueJSONValue, Bool.and_eq_true] at hunique
          dsimp only at h hinner
          rw [decodeRaw, hparse] at hinner
          simp only [Option.bind_some] at hinner
          split at h
          · rename_i hnone
            rw [hnone] at hinner
            cases hinner
          · rename_i entries hentries
            rw [hentries] at hinner
            have hall := unique_lookup hunique.2 hentries
            rw [uniqueJSONValue, Bool.and_eq_true] at hall
            obtain ⟨ps', hps', -⟩ := Option.bind_eq_some_iff.mp h
            exact ⟨unique_objects hall.2 hinner, readDiskEntries_objects hps' hinner⟩
          · cases h
        · cases hms
      · cases hms

/-- **Of what is accepted, no field is assigned twice exactly when no name is spelled in two ways**,
in the object of the marker and in the object of every disk entry.  Both parsers accept only objects
whose keys are fields and differ as spelled; then a field is assigned twice exactly when two keys
are one name in two spellings. -/
theorem unambiguous_iff (number : Text → Bool) (desc : Text) :
    (∀ m, parseStorageAllocationMarker desc = .found m →
      ((∀ ms, markerObject desc = some ms → Unambiguous markerField ms) ↔
        ∀ ms, markerObject desc = some ms → OneSpelling ms)) ∧
    ∀ disks, parseDiskAllocationProvenance number desc = some disks →
      ((∀ ms ∈ diskObjects desc, Unambiguous diskField ms) ↔ ∀ ms ∈ diskObjects desc,
        OneSpelling ms) := by
  constructor
  · intro m h
    obtain ⟨ms, hms, hnodup, hfields⟩ := markerObject_of_found h
    have hiff := unambiguous_iff_oneSpelling markerField_same hnodup hfields
    rw [hms]
    constructor
    · intro hall ms' hms'
      cases hms'
      exact hiff.mp (hall _ rfl)
    · intro hall ms' hms'
      cases hms'
      exact hiff.mpr (hall _ rfl)
  · intro disks h
    refine forall₂_congr fun ms hms => ?_
    obtain ⟨hnodup, hfields⟩ := diskObjects_of_accepted h hms
    exact unambiguous_iff_oneSpelling diskField_same hnodup hfields

/-- A marker that says its version under the given keys. -/
def spelledMarker (versions : String) : Text :=
  ("[bosh_storage_allocation]\x7b" ++ versions ++ "\"namespace\":\"director\"," ++
    "\"allocation_id\":\"00000000-0000-4000-8000-000000000000\"," ++
    "\"agent_sha256\":\"aaaaaaaaaaaaaaaaaaaaaaaaaaaaaaaaaaaaaaaaaaaaaaaaaaaaaaaaaaaaaaaa\"," ++
    "\"kind\":\"vm\"\x7d[/bosh_storage_allocation]").toList

/-- The reader takes the marker. -/
def accepts (desc : Text) : Bool :=
  match parseStorageAllocationMarker desc with
  | .found _ => true
  | _ => false

theorem exists_of_accepts {desc : Text} (h : accepts desc = true) :
    ∃ m, parseStorageAllocationMarker desc = .found m := by
  unfold accepts at h
  split at h
  · rename_i m hm
    exact ⟨m, hm⟩
  · cases h

/-- A sentinel with the provenance of one disk. -/
def spelledDisk : Text :=
  ("<!--BOSH:\x7b\"bosh_disk_allocations\":\x7b\"d\":\x7b\"version\":1," ++
    "\"allocation_id\":\"00000000-0000-4000-8000-000000000000\"," ++
    "\"allocation_namespace\":\"director\",\"volid\":\"nfs:1/a\"," ++
    "\"node\":\"pve1\",\"backing\":\"filer\"\x7d\x7d\x7d-->").toList

theorem spelledMarker_accepted : accepts (spelledMarker "\"version\":1,") = true := by
  -- The characters of a short text are computed faster than those of a long one.
  simp only [spelledMarker, String.toList_append, String.reduceToList]
  decide +kernel

theorem spelledDisk_accepted :
    ((parseDiskAllocationProvenance (fun _ => true) spelledDisk).isSome &&
      !(diskObjects spelledDisk).isEmpty) = true := by
  unfold spelledDisk
  simp only [String.toList_append, String.reduceToList]
  decide +kernel

theorem unambiguous_sample : ∃ m disks,
    parseStorageAllocationMarker (spelledMarker "\"version\":1,") = .found m ∧
    ((∀ ms, markerObject (spelledMarker "\"version\":1,") = some ms → Unambiguous markerField ms) ↔
      ∀ ms, markerObject (spelledMarker "\"version\":1,") = some ms → OneSpelling ms) ∧
    parseDiskAllocationProvenance (fun _ => true) spelledDisk = some disks ∧
    diskObjects spelledDisk ≠ [] ∧
    ((∀ ms ∈ diskObjects spelledDisk, Unambiguous diskField ms) ↔
      ∀ ms ∈ diskObjects spelledDisk, OneSpelling ms) := by
  obtain ⟨m, hm⟩ := exists_of_accepts spelledMarker_accepted
  have heval := spelledDisk_accepted
  rw [Bool.and_eq_true, Bool.not_eq_true', List.isEmpty_eq_false_iff] at heval
  obtain ⟨disks, hdisks⟩ := Option.isSome_iff_exists.mp heval.1
  exact ⟨m, disks, hm, (unambiguous_iff (fun _ => true) _).1 m hm, hdisks, heval.2,
    (unambiguous_iff (fun _ => true) _).2 disks hdisks⟩

theorem twoSpellings_evaluated :
    (accepts (spelledMarker "\"version\":1,\"Version\":1,") &&
      (markerObject (spelledMarker "\"version\":1,\"Version\":1,")).any fun ms =>
        (decodedKeys ms).countP (fun k => markerField k == some MarkerField.version) == 2) =
          true := by
  simp only [spelledMarker, String.toList_append, String.reduceToList]
  decide +kernel

/-- **Two spellings of one field are accepted.** -/
theorem two_spellings_accepted : ∃ m ms,
    parseStorageAllocationMarker (spelledMarker "\"version\":1,\"Version\":1,") = .found m ∧
    markerObject (spelledMarker "\"version\":1,\"Version\":1,") = some ms ∧
      ¬Unambiguous markerField ms := by
  have heval := twoSpellings_evaluated
  rw [Bool.and_eq_true] at heval
  obtain ⟨m, hm⟩ := exists_of_accepts heval.1
  obtain ⟨ms, hms, htwo⟩ := (Option.any_eq_true _ _).mp heval.2
  refine ⟨m, ms, hm, hms, fun h => ?_⟩
  have hone := h .version
  rw [eq_of_beq htwo] at hone
  exact absurd hone (by decide)

end Vm
