/-
# Removing the record of a disk that left

`removeParkerProvenanceChecked` of `pve/parker.go`: once a volume has left a parker, its record goes
too.  PVE reuses the name of a volume that is gone, so the name alone does not say whose record it
is.  A record belongs to the disk when it is under the disk's stable ID and names the volume, or
when it is under the name of the volume (a record from before stable IDs); without a stable ID every
record of the name counts.  And nothing is removed while the parker still names the volume, unless
every drive that does so carries the serial of another disk.

`removal_spares_others` says what is written, for every config: the config is read leniently (keys
with a sign, values that are numbers), and so is the map of records.

Two disks may claim one name, one after the other.  The record of the first must go when it leaves,
and it must not take the record of the second with it, although both name the same volume.  Stable
IDs were introduced for this, and records from before them are still there; so there are two
keyings, and the code has to decide between them with what it is given.

The statement is split as the danger is: nothing while the disk may still be there, then only
records of the disk, then explicitly not those of another stable ID.
-/
import PveCpi.Parker.Provenance

namespace Parker

open Vm (Text TextMap Raw byteLen findSentinel mergedRaw Encodable)
open Lib.Json (Value)
open Lib.Assoc

/-! ## 1. Names -/

def diskStableIDPrefix : Text := "bpd-".toList
def diskStableIDLen : Nat := 20

/-- The form of a stable ID: the tag and sixteen hexadecimal digits. -/
def isDiskStableID (t : Text) : Bool :=
  diskStableIDPrefix.isPrefixOf t && decide (byteLen t = diskStableIDLen) &&
    (t.drop diskStableIDPrefix.length).all fun c => ('0' ≤ c && c ≤ '9') || ('a' ≤ c && c ≤ 'f')

/-- The stable ID of a disk. -/
structure StableID where
  text : Text
  form : isDiskStableID text = true

/-- The name of a volume: a storage, a colon, and the name on the storage. -/
structure VolumeName where
  text : Text
  colon : ':' ∈ text

/-- A stable ID as the code has it: the empty text when the disk has none. -/
def idText : Option StableID → Text
  | none => []
  | some id => id.text

theorem colon_notMem_id (id : StableID) : ':' ∉ id.text := by
  intro hmem
  have hform := id.form
  rw [isDiskStableID, Bool.and_eq_true, Bool.and_eq_true, List.isPrefixOf_iff_prefix] at hform
  obtain ⟨⟨⟨rest, hrest⟩, -⟩, hall⟩ := hform
  rw [← hrest, List.drop_left] at hall
  rw [← hrest, List.mem_append] at hmem
  rcases hmem with hmem | hmem
  · exact absurd hmem (by decide)
  · exact absurd (List.all_eq_true.mp hall _ hmem) (by decide)

theorem idText_eq_nil {id : Option StableID} : idText id = [] ↔ id = none := by
  cases id with
  | none => exact iff_of_true rfl rfl
  | some id =>
    refine iff_of_false (fun hnil => ?_) (fun hnone => by cases hnone)
    have hform := id.form
    rw [show id.text = [] from hnil] at hform
    cases hform

theorem id_ne_volume (id : StableID) (volume : VolumeName) : id.text ≠ volume.text :=
  fun heq => colon_notMem_id id (heq ▸ volume.colon)

/-! ## 2. Who names the volume

A drive names a volume on a bus slot or as unused; its serial, where it has one, is the stable
ID. -/

/-- `strconv.Atoi` succeeds: a sign or none, digits, and the number is a 64-bit integer. -/
def isAtoi (s : Text) : Bool :=
  let number (ds : Text) : Nat := ds.foldl (fun n c => n * 10 + (c.toNat - '0'.toNat)) 0
  match s with
  | '-' :: ds => Lib.Json.isDigits ds && decide (number ds ≤ 2 ^ 63)
  | '+' :: ds => Lib.Json.isDigits ds && decide (number ds < 2 ^ 63)
  | ds => Lib.Json.isDigits ds && decide (number ds < 2 ^ 63)

/-- `isQemuDiskKey`. -/
def isQemuDiskKey (key : Text) : Bool :=
  ["scsi".toList, "virtio".toList, "sata".toList, "ide".toList, "efidisk".toList, "tpmstate".toList,
    "unused".toList].any fun name => name.isPrefixOf key && isAtoi (key.drop name.length)

def serialOption : Text := "serial=".toList

/-- `StableIDFromDriveOptStr`. -/
def stableIDFromDriveOptStr : Text → Option Text
  | [] => none
  | c :: rest =>
    if c = ',' ∧ serialOption.isPrefixOf rest = true then
      let v := (rest.drop serialOption.length).takeWhile (· != ',')
      if diskStableIDPrefix.isPrefixOf v then some v else none
    else stableIDFromDriveOptStr rest

/-- The drive that an entry of the config names the volume with. -/
def namingDrive (bareVolid key : Text) (v : ConfigValue) : Option Text :=
  if isQemuDiskKey key then (configStringValue v).filter fun t => bareDriveVolid t == bareVolid
    else none

/-- The drive carries the serial of another disk. -/
def isOtherDisk (stableID drive : Text) : Bool :=
  !stableID.isEmpty && match stableIDFromDriveOptStr drive with
    | some serial => serial != stableID
    | none => false

/-- `parkerConfigNamesVolume`: whether something names the volume, and whether everything that does
is another disk's. -/
def parkerConfigNamesVolume (cfg : PveConfig) (bareVolid stableID : Text) : Bool × Bool :=
  let drives := cfg.entries.filterMap fun e => namingDrive bareVolid e.1 e.2
  (!drives.isEmpty, !drives.isEmpty && drives.all (isOtherDisk stableID))

/-- A bus slot or an unused entry names the volume with a drive. -/
def NamesWith (cfg : PveConfig) (bareVolid drive : Text) : Prop :=
  ∃ key v, cfg.lookup key = some v ∧ isQemuDiskKey key = true ∧ configStringValue v = some drive ∧
    bareDriveVolid drive = bareVolid

/-! ## 3. The edit -/

/-- `parkerProvenanceRecordsOf`. -/
def parkerProvenanceRecordsOf (disks : TextMap ParkerProvEntry) (bareVolid stableID : Text) :
    List Text :=
  if stableID.isEmpty then
    ((disks.entries.filter fun e => e.1 == bareVolid || e.2.text .volid == bareVolid).map
      Sigma.fst).insertionSort (· ≤ ·)
  else
    (match disks.lookup stableID with
      | some entry => if entry.text .volid = bareVolid then [stableID] else []
      | none => []) ++
    if (disks.lookup bareVolid).isSome then [bareVolid] else []

/-- Why there is nothing to send. -/
inductive RemoveErr
  | marshal
deriving DecidableEq

/-- The edit of `removeParkerProvenanceChecked`: whether the volume is still held, and the
description to write, if any. -/
def removeParkerProvenance (cfg : PveConfig) (bareVolid stableID : Text) :
    Except RemoveErr (Bool × Option Text) :=
  let p := parseParkerSentinel (descriptionFromConfig cfg)
  -- A nil map has no records.
  let disks := parkedDisks cfg
  let keys := parkerProvenanceRecordsOf disks bareVolid stableID
  let (holds, onlyOtherDisks) := parkerConfigNamesVolume cfg bareVolid stableID
  if keys.isEmpty then .ok (false, none)
  else if holds && (stableID.isEmpty || !onlyOtherDisks) then .ok (true, none)
  else if holds && !keys.contains stableID then .ok (false, none)
  else
    match renderParkerSentinel p.nonBOSH (eraseAll disks (if holds then [stableID] else keys))
      p.rawOther with
    | none => .error .marshal
    | some desc => .ok (false, some desc)

/-! ## 4. What the parts decide

Each function of the source, read as a proposition. -/

/-- The drives that were collected are those that name the volume, under any bus key. -/
theorem mem_drives {cfg : PveConfig} {bareVolid drive : Text} :
    (drive ∈ cfg.entries.filterMap fun e => namingDrive bareVolid e.1 e.2) ↔
      NamesWith cfg bareVolid drive := by
  rw [List.mem_filterMap]
  constructor
  · rintro ⟨⟨key, v⟩, hmem, hdrive⟩
    unfold namingDrive at hdrive
    split at hdrive
    · rename_i hkey
      obtain ⟨hv, hbare⟩ := Option.filter_eq_some_iff.mp hdrive
      exact ⟨key, v, AList.mem_lookup_iff.mpr hmem, hkey, hv, beq_iff_eq.mp hbare⟩
    · cases hdrive
  · rintro ⟨key, v, hlookup, hkey, hv, hbare⟩
    refine ⟨⟨key, v⟩, AList.mem_lookup_iff.mp hlookup, ?_⟩
    rw [namingDrive, if_pos hkey, hv]
    simp [Option.filter, hbare]

theorem holds_iff {cfg : PveConfig} {bareVolid stableID : Text} :
    (parkerConfigNamesVolume cfg bareVolid stableID).1 = true ↔
    ∃ drive, NamesWith cfg bareVolid drive := by
  simp only [parkerConfigNamesVolume, Bool.not_eq_true', List.isEmpty_eq_false_iff_exists_mem,
    mem_drives]

theorem onlyOther_imp {cfg : PveConfig} {bareVolid stableID : Text}
    (h : (parkerConfigNamesVolume cfg bareVolid stableID).2 = true) {drive : Text}
    (hnames : NamesWith cfg bareVolid drive) : isOtherDisk stableID drive = true := by
  rw [parkerConfigNamesVolume, Bool.and_eq_true, List.all_eq_true] at h
  exact h.2 drive (mem_drives.mpr hnames)

theorem isOtherDisk_iff {stableID drive : Text} : isOtherDisk stableID drive = true ↔
    stableID ≠ [] ∧ ∃ serial, stableIDFromDriveOptStr drive = some serial ∧ serial ≠ stableID := by
  rw [isOtherDisk, Bool.and_eq_true]
  refine and_congr (by simp) ?_
  cases stableIDFromDriveOptStr drive with
  | none => simp
  | some serial => simp

/-- A record that belongs to the disk is under its stable ID and names the volume, or it is under
the name of the volume; without a stable ID it is under the name or names the volume. -/
theorem mem_recordsOf {disks : TextMap ParkerProvEntry} {bareVolid stableID k : Text}
    {e : ParkerProvEntry}
    (he : disks.lookup k = some e) (h : k ∈ parkerProvenanceRecordsOf disks bareVolid stableID) :
    (stableID ≠ [] ∧ k = stableID ∧ e.text .volid = bareVolid) ∨ k = bareVolid ∨
      (stableID = [] ∧ e.text .volid = bareVolid) := by
  unfold parkerProvenanceRecordsOf at h
  split at h
  · rename_i hblank
    rw [List.mem_insertionSort, List.mem_map] at h
    obtain ⟨⟨k', e'⟩, hmem, rfl⟩ := h
    obtain ⟨hin, hnames⟩ := List.mem_filter.mp hmem
    rw [AList.mem_lookup_iff.mpr hin] at he
    cases he
    rw [Bool.or_eq_true, beq_iff_eq, beq_iff_eq] at hnames
    exact .inr (hnames.imp_right fun hvol => ⟨List.isEmpty_iff.mp hblank, hvol⟩)
  · rename_i hid
    rcases List.mem_append.mp h with h | h
    · split at h
      · rename_i entry hentry
        split at h
        · rename_i hvol
          cases List.mem_singleton.mp h
          rw [hentry] at he
          cases he
          exact .inl ⟨mt List.isEmpty_iff.mpr hid, rfl, hvol⟩
        · cases h
      · cases h
    · split at h
      · exact .inr (.inl (List.mem_singleton.mp h))
      · cases h

/-! ## 5. What is written

The records without those of the disk, rendered behind the same text with the other keys. -/

/-- A description that is rendered without records has none. -/
theorem disks_render_empty {nonBOSH desc : Text} {disks : TextMap ParkerProvEntry} {rawOther : Raw}
    (hnone : findSentinel nonBOSH = none) (henc : Encodable rawOther) (hnil : disks.entries = [])
    (h : renderParkerSentinel nonBOSH disks rawOther = some desc) :
    (parseParkerSentinel desc).disks = some ∅ := by
  have hmerged : mergedRaw rawOther parkedDisksKey (ofDisks disks) =
      rawOther.erase parkedDisksKey := by
    have hempty : (ofDisks disks).entries.isEmpty = true :=
      List.isEmpty_iff.mpr (entries_mapVals_eq_nil.mpr hnil)
    rw [mergedRaw, if_pos hempty]
  have hown : (Vm.sentinelOf desc).lookup parkedDisksKey = none := by
    rw [renderParkerSentinel, hmerged] at h
    by_cases hempty : (rawOther.erase parkedDisksKey).entries = []
    · rcases Vm.renderSentinel_eq_some h with ⟨-, rfl⟩ | ⟨hne, -⟩ | ⟨hne, -⟩
      · rw [Vm.sentinelOf, Vm.parseSentinel, hnone]
        rfl
      · exact absurd hempty hne
      · exact absurd hempty hne
    · have hencErased : Encodable (rawOther.erase parkedDisksKey) :=
        (Vm.replaces_erase rawOther parkedDisksKey).encodable henc fun v hv => by cases hv
      obtain ⟨raw', hparse, hlookup⟩ := Vm.parseSentinel_render hencErased hempty hnone h
      rw [Vm.sentinelOf, hparse, Option.getD_some, hlookup, AList.lookup_erase]
      rfl
  rw [parseParkerSentinel, hown]

/-- **The records of a rendered description are read back**, whether there are any or not. -/
theorem records_render {nonBOSH desc : Text} {disks : TextMap ParkerProvEntry} {rawOther : Raw}
    (hnone : findSentinel nonBOSH = none) (henc : Encodable rawOther)
    (h : renderParkerSentinel nonBOSH disks rawOther = some desc) :
    ∃ found, (parseParkerSentinel desc).disks = some found ∧ ∀ k,
      (∀ e, disks.lookup k = some e → ∃ e', found.lookup k = some e' ∧ e'.Same e) ∧
        (disks.lookup k = none → found.lookup k = none) := by
  by_cases hnil : disks.entries = []
  · refine ⟨∅, disks_render_empty hnone henc hnil h, fun k => ⟨fun e he => ?_, fun _ => rfl⟩⟩
    have hmem := AList.mem_lookup_iff.mp he
    rw [hnil] at hmem
    cases hmem
  · exact (holds_render hnone henc hnil h).records

/-- The disk itself may still be on the parker: something names the volume and does not carry the
serial of another disk. -/
def StillNamed (cfg : PveConfig) (bareVolid stableID : Text) : Prop :=
  ∃ drive, NamesWith cfg bareVolid drive ∧
    (stableID = [] ∨ ¬∃ serial, stableIDFromDriveOptStr drive = some serial ∧ serial ≠ stableID)

/-- What an edit that writes did: it rendered the records without those of the disk, because nothing
names the volume, or without the one under its stable ID, because every drive that names the volume
is another disk's. -/
theorem remove_eq_write {cfg : PveConfig} {bareVolid stableID desc : Text} {held : Bool}
    (h : removeParkerProvenance cfg bareVolid stableID = .ok (held, some desc)) :
    ∃ keys, renderParkerSentinel (parseParkerSentinel (descriptionFromConfig cfg)).nonBOSH
        (eraseAll (parkedDisks cfg) keys)
        (parseParkerSentinel (descriptionFromConfig cfg)).rawOther =
          some desc ∧
      ((keys = parkerProvenanceRecordsOf (parkedDisks cfg) bareVolid stableID ∧
          ¬∃ drive, NamesWith cfg bareVolid drive) ∨
        (keys = [stableID] ∧ stableID ≠ [] ∧
          stableID ∈ parkerProvenanceRecordsOf (parkedDisks cfg) bareVolid stableID ∧ ∀ drive,
            NamesWith cfg bareVolid drive → isOtherDisk stableID drive = true)) := by
  unfold removeParkerProvenance at h
  dsimp only at h
  split at h
  · cases h
  split at h
  · cases h
  rename_i hstill
  split at h
  · cases h
  rename_i hown
  split at h
  · cases h
  rename_i d hrender
  cases h
  cases hholds : (parkerConfigNamesVolume cfg bareVolid stableID).1 with
  | false =>
    rw [hholds] at hrender
    refine ⟨_, hrender, .inl ⟨rfl, fun hnames => ?_⟩⟩
    rw [holds_iff.mpr hnames] at hholds
    cases hholds
  | true =>
    rw [hholds] at hrender hstill hown
    simp only [Bool.true_and, Bool.or_eq_true, Bool.not_eq_true', not_or,
      Bool.not_eq_false] at hstill hown
    exact ⟨_, hrender, .inr ⟨rfl, mt List.isEmpty_iff.mpr hstill.1, List.contains_iff_mem.mp hown,
      fun drive => onlyOther_imp hstill.2⟩⟩

/-- **Removing a record touches only the disk that left.**  Nothing is written while the disk may
still be on the parker.  What is written lacks only records of the disk: the one under its stable ID
that names the volume, or, when nothing names the volume, one under that name or with it.  And the
record of a disk with another stable ID stays, unless the disk that left has none.  A write renders
the records without those that belong to the disk (`remove_eq_write`), and to belong is to be under
its stable ID with the volume, or under the name, or without a stable ID to have the name; a record
under another ID is none of these. -/
theorem removal_spares_others (cfg : PveConfig) (volume : VolumeName) (id : Option StableID) :
    (StillNamed cfg volume.text (idText id) →
      ∀ held desc, removeParkerProvenance cfg volume.text (idText id) ≠ .ok (held, some desc)) ∧
    ∀ held desc, removeParkerProvenance cfg volume.text (idText id) = .ok (held, some desc) →
      ∃ after, (parseParkerSentinel desc).disks = some after ∧
        ∀ k e, (parkedDisks cfg).lookup k = some e →
          (∃ e', after.lookup k = some e' ∧ e'.Same e) ∨
          (((id ≠ none ∧ k = idText id ∧ e.text .volid = volume.text) ∨
              ((k = volume.text ∨ e.text .volid = volume.text) ∧
                ¬∃ drive, NamesWith cfg volume.text drive)) ∧
            ∀ other : StableID, id ≠ none → other.text ≠ idText id → k ≠ other.text) := by
  constructor
  · rintro ⟨drive, hnames, hmine⟩ held desc hwrite
    obtain ⟨keys, -, ⟨-, hnone⟩ | ⟨-, -, -, hother⟩⟩ := remove_eq_write hwrite
    · exact hnone ⟨drive, hnames⟩
    · obtain ⟨hid, hserial⟩ := isOtherDisk_iff.mp (hother drive hnames)
      exact hmine.elim hid fun hno => hno hserial
  · intro held desc hwrite
    obtain ⟨keys, hrender, hcases⟩ := remove_eq_write hwrite
    obtain ⟨after, hafter, hrecords⟩ :=
      records_render (Vm.findSentinel_text (descriptionFromConfig cfg))
      (encodable_rawOther (descriptionFromConfig cfg)) hrender
    refine ⟨after, hafter, fun k e he => ?_⟩
    by_cases hk : k ∈ keys
    swap
    · exact .inl ((hrecords k).1 e ((lookup_eraseAll_of_notMem _ hk).trans he))
    have hmine : k ∈ parkerProvenanceRecordsOf (parkedDisks cfg) volume.text (idText id) := by
      rcases hcases with ⟨rfl, -⟩ | ⟨rfl, -, hown, -⟩
      · exact hk
      · rw [List.mem_singleton.mp hk]
        exact hown
    have hidVolume : idText id ≠ volume.text := by
      cases id with
      | none => exact fun heq => List.not_mem_nil (heq ▸ volume.colon)
      | some id => exact id_ne_volume id volume
    refine .inr ⟨?_, fun other hsome hother heq => ?_⟩
    · rcases mem_recordsOf he hmine with ⟨hid, hkey, hvol⟩ | hrest
      · exact .inl ⟨mt idText_eq_nil.mpr hid, hkey, hvol⟩
      · -- A record under the name goes only when nothing names the volume.
        refine .inr ⟨hrest.imp_right And.right, ?_⟩
        rcases hcases with ⟨-, hnone⟩ | ⟨rfl, hid, -, -⟩
        · exact hnone
        · rcases hrest with hkey | ⟨hblank, -⟩
          · exact absurd ((List.mem_singleton.mp hk).symm.trans hkey) hidVolume
          · exact absurd hblank hid
    · rcases mem_recordsOf he hmine with ⟨-, hkey, -⟩ | hkey | ⟨hblank, -⟩
      · exact hother (heq.symm.trans hkey)
      · exact id_ne_volume other volume (heq.symm.trans hkey)
      · exact hsome (idText_eq_nil.mp hblank)

/-! ## 6. A parker with records under both keyings -/

def sampleVolume : VolumeName := ⟨"s:v".toList, by decide⟩

def sampleID : StableID := ⟨"bpd-0123456789abcdef".toList, by decide⟩

/-- The disk on the second slot. -/
def otherID : StableID := ⟨"bpd-00000000000000aa".toList, by decide⟩

/-- The volume `s:v` has left the parker.  It has a record under its stable ID and one from before;
another disk has a record under its stable ID, and a third one under the name of its volume. -/
def departedParker : PveConfig :=
  AList.insert descriptionKey
    (.text ("web\n<!--BOSH:\x7b\"bosh_parked_disks\":\x7b".toList ++
      "\"bpd-00000000000000aa\":\x7b\"node\":\"n\",\"volid\":\"s:w\"\x7d,".toList ++
      "\"bpd-0123456789abcdef\":\x7b\"node\":\"n\",\"volid\":\"s:v\"\x7d,".toList ++
      "\"s:u\":\x7b\"node\":\"n\"\x7d,\"s:v\":\x7b\"node\":\"n\"\x7d\x7d\x7d-->".toList))
    (AList.insert "scsi1".toList (.text "s:w,serial=bpd-00000000000000aa".toList) ∅)

/-- The same parker while the volume is on its first slot. -/
def holdingParker : PveConfig :=
  departedParker.insert "scsi0".toList (.text "s:v,serial=bpd-0123456789abcdef".toList)

theorem departedParker_evaluated :
    ((removeParkerProvenance departedParker sampleVolume.text sampleID.text).toOption.bind
      Prod.snd).isSome = true ∧
    ((parkedDisks departedParker).lookup otherID.text).map (fun e => e.text .volid) =
      some "s:w".toList ∧
    ((parkedDisks departedParker).lookup "s:u".toList).map (fun e => e.text .volid) = some [] := by
  decide +kernel

/-- While the first slot holds the disk nothing is written.  Once it has left, a description is
written, and the records of the other two disks are in it as they were. -/
theorem removal_spares_others_sample :
    StillNamed holdingParker sampleVolume.text sampleID.text ∧
    (∀ held desc, removeParkerProvenance holdingParker sampleVolume.text sampleID.text ≠
      .ok (held, some desc)) ∧
    ∃ held desc after, removeParkerProvenance departedParker sampleVolume.text sampleID.text =
        .ok (held, some desc) ∧ (parseParkerSentinel desc).disks = some after ∧
      ∀ k ∈ [otherID.text, "s:u".toList], ∃ e e', (parkedDisks departedParker).lookup k = some e ∧
        after.lookup k = some e' ∧ e'.Same e := by
  have hstill : StillNamed holdingParker sampleVolume.text sampleID.text := by
    refine ⟨"s:v,serial=bpd-0123456789abcdef".toList, ⟨"scsi0".toList, _, AList.lookup_insert _,
      by decide, rfl, by decide⟩, .inr ?_⟩
    rintro ⟨serial, hserial, hne⟩
    have hmine : stableIDFromDriveOptStr "s:v,serial=bpd-0123456789abcdef".toList =
        some sampleID.text := by decide
    rw [hmine] at hserial
    exact hne (Option.some.inj hserial).symm
  obtain ⟨hwritten, hother, hlegacy⟩ := departedParker_evaluated
  obtain ⟨held, desc, hwrite⟩ : ∃ held desc, removeParkerProvenance departedParker
      sampleVolume.text sampleID.text = .ok (held, some desc) := by
    cases hr : removeParkerProvenance departedParker sampleVolume.text sampleID.text with
    | error e =>
      rw [hr] at hwritten
      cases hwritten
    | ok r =>
      obtain ⟨held, desc⟩ := r
      rw [hr] at hwritten
      cases desc with
      | none => cases hwritten
      | some desc => exact ⟨held, desc, rfl⟩
  obtain ⟨after, hafter, hspared⟩ := (removal_spares_others departedParker sampleVolume
    (some sampleID)).2 held desc hwrite
  -- A record that is not under the stable ID, not under the name and not with it, stays.
  have hstays : ∀ k vol, k ≠ sampleID.text → k ≠ sampleVolume.text → vol ≠ sampleVolume.text →
      ((parkedDisks departedParker).lookup k).map (fun e => e.text .volid) = some vol →
      ∃ e e', (parkedDisks departedParker).lookup k = some e ∧ after.lookup k = some e' ∧
        e'.Same e := by
    intro k vol hid hname hvol hk
    obtain ⟨e, he, rfl⟩ := Option.map_eq_some_iff.mp hk
    rcases hspared k e he with ⟨e', he', hsame⟩ | ⟨⟨-, hkey, -⟩ | ⟨hnamed | hnamed, -⟩, -⟩
    · exact ⟨e, e', he, he', hsame⟩
    · exact absurd hkey hid
    · exact absurd hnamed hname
    · exact absurd hnamed hvol
  refine ⟨hstill, (removal_spares_others holdingParker sampleVolume (some sampleID)).1 hstill, held,
    desc, after, hwrite, hafter, fun k hk => ?_⟩
  rcases List.mem_cons.mp hk with rfl | hk
  · exact hstays _ _ (by decide) (by decide) (by decide) hother
  · rw [List.mem_singleton.mp hk]
    exact hstays _ _ (by decide) (by decide) (by decide) hlegacy

end Parker
