/-
# The capacity probe

`parkerProvenanceRoom` of `pve/parker.go` asks, before a disk is attached to a parker, whether the
parker's description can still take its record.  It runs the projection that the write will run, on
the config as it is, with the longest slot name there is.

The write runs on the config with the disk attached, and there is one difference that makes the
description longer.  A stale record under another key that names the volume (the record of a disk
that had the same name before, or of the same disk from before it had a stable ID) is collected by
the probe, because nothing names the volume yet, and kept by the write, because now a slot does.
`room_enough_iff` says that this is the only way in which the probe promises too much: without such
a record the write succeeds, and with some it succeeds exactly when they fit beside the rest.

The comparison is between two runs of one function on two configs, so what has to be found is every
difference.  The attach adds a slot that names the volume; that is all (`Attached.names`).  So the
collector spares more, never less; the new record differs in the name of its slot, which is no
longer than the one the probe assumed; everything else is the same bytes (`byteLen_render`).

`Attached` leaves open what PVE does to keys that name no volume, the digest for one: nothing here
reads them.
-/
import PveCpi.Lib.Utf8
import PveCpi.Vm.Cid
import PveCpi.Parker.Provenance
import Mathlib

namespace Parker

open Vm
  (Text TextMap Raw byteLen findSentinel listMembers sentinelText sentinelValue mergedRaw encodeMap
    mapValue Encodable
  renderSentinel)
open Lib.Json (Value Members print printMembers quote escapeHtml)
open Lib.Text (isSpace trimList)
open Lib.Assoc
open Stemcell (sortedMembers)

/-! ## 1. The bytes of a description

The size of a description is a sum over its records, so two descriptions are compared record by
record. -/

theorem byteLen_nil : byteLen [] = 0 := rfl

theorem byteLen_cons (c : Char) (t : Text) : byteLen (c :: t) = c.utf8Size + byteLen t := by
  rw [byteLen, Lib.Tokens.length, List.map_cons, List.sum_cons]
  rfl

theorem byteLen_append (a b : Text) : byteLen (a ++ b) = byteLen a + byteLen b := by
  rw [byteLen, Lib.Tokens.length, List.map_append, List.sum_append]
  rfl

/-- The bytes that a member takes, with its quotes, its colon and what separates it from the
next. -/
def memberBytes (m : Text × Value) : Nat := byteLen m.1 + byteLen (print m.2) + 4

/-- The size of a printed object is the sum over its members, each with the sign behind it. -/
theorem byteLen_printMembers (m : Text × Value) (l : List (Text × Value)) :
    byteLen (printMembers (listMembers (m :: l))) = ((m :: l).map memberBytes).sum := by
  have hsize : '"'.utf8Size = 1 ∧ ':'.utf8Size = 1 ∧ ','.utf8Size = 1 ∧ '}'.utf8Size = 1 := by
    decide
  induction l generalizing m with
  | nil =>
    simp only [listMembers, printMembers, byteLen_cons, byteLen_append, byteLen_nil, hsize,
      List.map_cons, List.map_nil, List.sum_cons, List.sum_nil, memberBytes]
    omega
  | cons m' l ih =>
    have hrest := ih m'
    simp only [listMembers] at hrest ⊢
    rw [printMembers, List.map_cons, List.sum_cons, ← hrest]
    simp only [byteLen_cons, byteLen_append, hsize, memberBytes]
    omega

theorem byteLen_object {l : List (Text × Value)} (h : l ≠ []) :
    byteLen (print (.obj (listMembers l))) = (l.map memberBytes).sum + 1 := by
  cases l with
  | nil => exact absurd rfl h
  | cons m l =>
    have hsize : '{'.utf8Size = 1 := by decide
    rw [← byteLen_printMembers, listMembers, print, byteLen_cons, hsize, Nat.add_comm]

/-- The bytes that a record takes in the map. -/
def recordBytes (key : Text) (e : ParkerProvEntry) : Nat :=
  memberBytes (quote key, e.value.mapStr quote)

/-- The bytes of some records. -/
def storeBytes (records : List (Sigma fun _ : Text => ParkerProvEntry)) : Nat :=
  (records.map fun e => recordBytes e.1 e.2).sum

/-- The bytes of a description with records in it, without the records. -/
def frameBytes (nonBOSH : Text) (rawOther : Raw) : Nat :=
  (if nonBOSH = [] then 0 else byteLen nonBOSH + 1) + byteLen Vm.sentinelOpen +
    byteLen Vm.sentinelClose + ((rawOther.erase parkedDisksKey).entries.map fun e =>
      memberBytes (quote e.1, e.2.mapStr escapeHtml)).sum +
    byteLen (quote parkedDisksKey) + 6

theorem sum_sortedMembers (m : Raw) (g : Text × Value → Nat) :
    ((sortedMembers m).map g).sum = (m.entries.map fun e => g (e.1, e.2)).sum := by
  rw [((perm_sortedMembers m).map g).sum_eq, List.map_map]
  rfl

theorem sortedMembers_ne_nil {m : Raw} (h : m.entries ≠ []) : sortedMembers m ≠ [] := by
  intro hnil
  have hperm := perm_sortedMembers m
  rw [hnil] at hperm
  exact h (List.map_eq_nil_iff.mp hperm.symm.eq_nil)

theorem byteLen_encodeMap {m : Raw} (h : m.entries ≠ []) :
    byteLen (print (encodeMap m)) = (m.entries.map fun e =>
      memberBytes (quote e.1, e.2.mapStr quote)).sum + 1 := by
  have hshape : encodeMap m = .obj (listMembers ((sortedMembers m).map fun e =>
      (quote e.1, e.2.mapStr quote))) := by
    rw [encodeMap, mapValue, Value.mapStr, Vm.mapStr_listMembers]
  rw [hshape, byteLen_object (List.map_eq_nil_iff.not.mpr (sortedMembers_ne_nil h)), List.map_map,
    sum_sortedMembers]
  rfl

theorem byteLen_sentinelText {raw : Raw} (h : raw.entries ≠ []) :
    byteLen (sentinelText raw) = byteLen Vm.sentinelOpen + byteLen Vm.sentinelClose +
      (raw.entries.map fun e => memberBytes (quote e.1, e.2.mapStr escapeHtml)).sum + 1 := by
  rw [sentinelText, byteLen_append, byteLen_append, sentinelValue,
    byteLen_object (List.map_eq_nil_iff.not.mpr (sortedMembers_ne_nil h)), List.map_map,
    sum_sortedMembers]
  simp only [Function.comp]
  omega

/-- **A description takes the bytes of its records and those of everything else.** -/
theorem byteLen_render {nonBOSH desc : Text} {disks : TextMap ParkerProvEntry} {rawOther : Raw}
    (hne : disks.entries ≠ []) (h : renderParkerSentinel nonBOSH disks rawOther = some desc) :
    byteLen desc = frameBytes nonBOSH rawOther + storeBytes disks.entries := by
  have hsome : (ofDisks disks).entries ≠ [] := fun hnil => hne (entries_mapVals_eq_nil.mp hnil)
  have hmerged : (mergedRaw rawOther parkedDisksKey (ofDisks disks)).entries =
      ⟨parkedDisksKey, encodeMap (ofDisks disks)⟩ :: (rawOther.erase parkedDisksKey).entries := by
    rw [mergedRaw, if_neg (mt List.isEmpty_iff.mp hsome), AList.entries_insert_of_notMem]
    exact fun hmem => (AList.mem_erase.mp hmem).1 rfl
  have hentries : (mergedRaw rawOther parkedDisksKey (ofDisks disks)).entries ≠ [] := by
    rw [hmerged]
    exact List.cons_ne_nil _ _
  have hstore : ((ofDisks disks).entries.map fun e =>
      memberBytes (quote e.1, e.2.mapStr quote)).sum = storeBytes disks.entries := by
    rw [ofDisks, mapVals, List.map_map]
    rfl
  have htext := byteLen_sentinelText hentries
  rw [hmerged, List.map_cons, List.sum_cons, encodeMap_escaped, memberBytes,
    byteLen_encodeMap hsome, hstore] at htext
  dsimp only at htext
  unfold frameBytes
  rcases Vm.renderSentinel_eq_some h with ⟨hnil, -⟩ | ⟨-, rfl, rfl⟩ | ⟨-, hblank, rfl⟩
  · exact absurd hnil hentries
  · rw [htext, if_pos rfl]
    omega
  · have hsize : '\n'.utf8Size = 1 := by decide
    rw [byteLen_append, byteLen_cons, htext, if_neg hblank, hsize]
    omega

/-! ## 2. The probe and the write -/

/-- `ParkContext`, as far as the record goes. -/
structure ParkContext where
  allocationID : Text
  allocationNamespace : Text
  allocationBacking : Text
  diskCID : Text
  sourceVMCID : Text
  stableID : Text
  opts : TextMap Text

/-- `provenanceSourceVMID`. -/
def provenanceSourceVMID (entry : ParkerProvEntry) : Option Int64 :=
  if (entry.text .volid).isEmpty || (entry.text .sourceVMCID).isEmpty then none
  else Vmcid.vmidOf (Lib.Utf8.encode (entry.text .sourceVMCID))

/-- A park of a volume: what the record says, when it is made, and what the reads behind the keep
rule answer for a record (a read that fails answers yes). -/
structure Park where
  node : Text
  directorID : Text
  bareVolid : Text
  pctx : ParkContext
  now : Int
  linked : Text → Bool

/-- `parkerProvKey`. -/
def parkerProvKey (bareVolid stableID : Text) : Text := if stableID.isEmpty then bareVolid
    else stableID

/-- The slots of a parker: `scsi0` up to one less than `parkerMaxSlots`. -/
def parkerMaxSlots : Nat := 31

def parkerSlot (n : Nat) : Text := "scsi".toList ++ Nat.toDigits 10 n

section Room

variable (T : TimeFormat)

/-- `buildParkerProvEntry`. -/
def buildParkerProvEntry (k : Park) (slot : Text) : ParkerProvEntry where
  text
    | .allocationID => k.pctx.allocationID
    | .allocationNamespace => k.pctx.allocationNamespace
    | .allocationBacking => k.pctx.allocationBacking
    | .diskCID => if k.pctx.diskCID.isEmpty then k.bareVolid else k.pctx.diskCID
    | .sourceVMCID => k.pctx.sourceVMCID
    | .parkedAt => T.format k.now
    | .node => k.node
    | .directorID => k.directorID
    | .volid => if k.pctx.stableID.isEmpty then [] else k.bareVolid
    | .slot => if k.pctx.stableID.isEmpty then [] else slot
  opts := Vm.sanitizeDiskOptOverlay k.pctx.opts

/-- `parkerProvenanceSourceKeeps`. -/
def parkerProvenanceSourceKeeps (linked : Text → Bool) (cfg : PveConfig) (keepKey : Text)
    (now : Int) : List Text :=
  match (parseParkerSentinel (descriptionFromConfig cfg)).disks with
  | none => []
  | some disks => (staleParkerProvenanceKeys T disks cfg keepKey now).filter fun key =>
      ((disks.lookup key).bind provenanceSourceVMID).isSome && linked key

def Park.key (k : Park) : Text := parkerProvKey k.bareVolid k.pctx.stableID

/-- The projection of the write, with the slot that the disk landed on. -/
def Park.write (k : Park) (cfg : PveConfig) (slot : Text) : Except ProjectErr (Text × List Text) :=
  projectParkerProvenance T cfg k.key (buildParkerProvEntry T k slot) k.now
    (parkerProvenanceSourceKeeps T k.linked cfg k.key k.now)

/-- `parkerProvenanceRoom`: the same, with the longest slot. -/
def Park.room (k : Park) (cfg : PveConfig) : Except ProjectErr (Text × List Text) :=
  k.write T cfg (parkerSlot (parkerMaxSlots - 1))

end Room

/-- The disk was attached to a free slot of the parker.  An unused entry that named the volume may
be gone, and so may be the digest the config had; the description, and every other bus slot and
unused entry, is what it was. -/
structure Attached (cfg cfg' : PveConfig) (bareVolid slot : Text) : Prop where
  named : bareVolid ≠ []
  isSlot : ∃ n, n < parkerMaxSlots ∧ slot = parkerSlot n
  free : ∀ v, cfg.lookup slot = some v → busText slot v = none
  drive : ∃ drive, cfg'.lookup slot = some (.text drive) ∧ bareDriveVolid drive = bareVolid
  rest : ∀ key, key ≠ slot → isBusKey key = true ∨ isUnusedKey key = true ∨ key = descriptionKey →
    cfg'.lookup key = cfg.lookup key ∨
      cfg'.lookup key = none ∧ ∃ v, cfg.lookup key = some v ∧ unusedVolid key v = some bareVolid

/-! ## 3. What the attach changes -/

theorem not_bus_of_unused {key : Text} (h : isUnusedKey key = true) : isBusKey key = false := by
  rw [isUnusedKey, isNumbered, Bool.and_eq_true, List.isPrefixOf_iff_prefix] at h
  obtain ⟨rest, rfl⟩ := h.1
  simp [isBusKey, isNumbered]

/-- Only bus slots and unused entries name volumes. -/
theorem disk_of_names {key volid : Text} {v : ConfigValue}
    (h : (∃ t, busText key v = some t ∧ bareDriveVolid t = volid) ∨
      unusedVolid key v = some volid) :
    isBusKey key = true ∨ isUnusedKey key = true := by
  rcases h with ⟨t, ht, -⟩ | hunused
  · cases hbus : isBusKey key with
    | true => exact .inl rfl
    | false =>
      unfold busText at ht
      split at ht
      · rw [hbus] at ht
        cases ht
      · cases ht
  · cases hunusedKey : isUnusedKey key with
    | true => exact .inr rfl
    | false =>
      rw [unusedVolid, hunusedKey] at hunused
      cases hunused

theorem parkerSlot_spec : ∀ n < parkerMaxSlots, isBusKey (parkerSlot n) = true ∧
    isUnusedKey (parkerSlot n) = false ∧ parkerSlot n ≠ descriptionKey ∧
    (parkerSlot n).isEmpty = false ∧
      byteLen (quote (parkerSlot n)) ≤ byteLen (quote (parkerSlot (parkerMaxSlots - 1))) := by
        decide

section Attach

variable {cfg cfg' : PveConfig} {bareVolid slot : Text} (h : Attached cfg cfg' bareVolid slot)

include h

theorem Attached.spec : isBusKey slot = true ∧ isUnusedKey slot = false ∧ slot ≠ descriptionKey ∧
    slot.isEmpty = false ∧ byteLen (quote slot) ≤
      byteLen (quote (parkerSlot (parkerMaxSlots - 1))) := by
  obtain ⟨n, hn, rfl⟩ := h.isSlot
  exact parkerSlot_spec n hn

theorem Attached.description : descriptionFromConfig cfg' = descriptionFromConfig cfg := by
  have hkey : cfg'.lookup descriptionKey = cfg.lookup descriptionKey := by
    rcases h.rest descriptionKey (Ne.symm h.spec.2.2.1) (.inr (.inr rfl)) with
      hsame | ⟨-, v, -, hunused⟩
    · exact hsame
    · rw [unusedVolid, if_neg (by decide)] at hunused
      cases hunused
  rw [descriptionFromConfig, configString, hkey]
  rfl

/-- **After the attach the parker names what it named before, and the volume.** -/
theorem Attached.names (volid : Text) : Names cfg' volid ↔ Names cfg volid ∨ volid = bareVolid := by
  obtain ⟨hbus, hnot, -, hblank, -⟩ := h.spec
  obtain ⟨drive, hdrive, hbare⟩ := h.drive
  have hslotUnused : ∀ v, unusedVolid slot v = none := fun v => by rw [unusedVolid, hnot]; rfl
  have hslotBus : busText slot (.text drive) = some drive := by
    have hne : drive.isEmpty = false := by
      cases drive with
      | nil => exact absurd hbare.symm h.named
      | cons c cs => rfl
    rw [busText, hbus, hne]
    rfl
  have hvolume : Names cfg' bareVolid :=
    ⟨h.named, slot, .text drive, hdrive, .inl ⟨drive, hslotBus, hbare⟩⟩
  constructor
  · rintro ⟨hne, key, v, hlookup, hnames⟩
    by_cases hkey : key = slot
    · subst hkey
      rw [hdrive] at hlookup
      cases hlookup
      rcases hnames with ⟨t, ht, rfl⟩ | hunused
      · rw [hslotBus] at ht
        cases ht
        exact .inr hbare
      · rw [hslotUnused] at hunused
        cases hunused
    · rcases h.rest key hkey ((disk_of_names hnames).imp_right .inl) with hsame | ⟨hnone, -⟩
      · exact .inl ⟨hne, key, v, hsame ▸ hlookup, hnames⟩
      · rw [hnone] at hlookup
        cases hlookup
  · rintro (⟨hne, key, v, hlookup, hnames⟩ | rfl)
    · by_cases hkey : key = slot
      · subst hkey
        rcases hnames with ⟨t, ht, -⟩ | hunused
        · rw [h.free v hlookup] at ht
          cases ht
        · rw [hslotUnused] at hunused
          cases hunused
      · rcases h.rest key hkey ((disk_of_names hnames).imp_right .inl) with
          hsame | ⟨-, v', hv', hgone⟩
        · exact ⟨hne, key, v, hsame ▸ hlookup, hnames⟩
        · -- The entry that is gone named the volume.
          rw [hlookup] at hv'
          cases hv'
          have hunused : isUnusedKey key = true := by
            by_contra hno
            rw [unusedVolid, if_neg hno] at hgone
            cases hgone
          rcases hnames with ⟨t, ht, -⟩ | hnamed
          · unfold busText at ht
            split at ht
            · rw [not_bus_of_unused hunused] at ht
              cases ht
            · cases ht
          · rw [hgone] at hnamed
            cases hnamed
            exact hvolume
    · exact hvolume

theorem Attached.stale (T : TimeFormat) {keepKey k : Text} {now : Int} {e : ParkerProvEntry} :
    isStale T cfg' keepKey now k e = true ↔
      isStale T cfg keepKey now k e = true ∧ provEntryVolid k e ≠ bareVolid := by
  rw [isStale_iff, isStale_iff, h.names, not_or]
  constructor
  · rintro ⟨hk, ⟨hno, hvol⟩, hold⟩
    exact ⟨⟨hk, hno, hold⟩, hvol⟩
  · rintro ⟨⟨hk, hno, hold⟩, hvol⟩
    exact ⟨hk, ⟨hno, hvol⟩, hold⟩

end Attach

/-! ## 4. The records that come back

A record that the probe has collected and the write keeps. -/

section Revival

variable {T : TimeFormat}

/-- Which stale records the sources keep: those whose source VM is known and still linked. -/
theorem mem_keeps {linked : Text → Bool} {cfg : PveConfig} {keepKey k : Text} {now : Int}
    {disks : TextMap ParkerProvEntry}
    (hdisks : (parseParkerSentinel (descriptionFromConfig cfg)).disks = some disks) :
    k ∈ parkerProvenanceSourceKeeps T linked cfg keepKey now ↔
      ∃ e, disks.lookup k = some e ∧ isStale T cfg keepKey now k e = true ∧
        (provenanceSourceVMID e).isSome = true ∧ linked k = true := by
  rw [parkerProvenanceSourceKeeps, hdisks]
  dsimp only
  rw [List.mem_filter, mem_stale, Bool.and_eq_true]
  constructor
  · rintro ⟨⟨e, he, hstale⟩, hsource, hlinked⟩
    rw [he] at hsource
    exact ⟨e, he, hstale, hsource, hlinked⟩
  · rintro ⟨e, he, hstale, hsource, hlinked⟩
    refine ⟨⟨e, he, hstale⟩, ?_, hlinked⟩
    rw [he]
    exact hsource

/-- The records under other keys. -/
def otherRecords (disks : TextMap ParkerProvEntry) (key : Text) :
    List (Sigma fun _ : Text => ParkerProvEntry) :=
  (disks.erase key).entries

/-- The collector takes the record. -/
def collects (T : TimeFormat) (cfg : PveConfig) (key : Text) (now : Int) (held : List Text)
    (e : Sigma fun _ : Text => ParkerProvEntry) : Bool :=
  isStale T cfg key now e.1 e.2 && !held.contains e.1

theorem collects_iff {cfg : PveConfig} {key : Text} {now : Int} {held : List Text}
    {e : Sigma fun _ : Text => ParkerProvEntry} :
    collects T cfg key now held e = true ↔ isStale T cfg key now e.1 e.2 = true ∧ e.1 ∉ held := by
  rw [collects, Bool.and_eq_true, Bool.not_eq_true', ← Bool.not_eq_true, List.contains_iff_mem]

/-- What a projection keeps: the new record, and the others that the collector does not take. -/
theorem entries_collect (disks : TextMap ParkerProvEntry) (cfg : PveConfig) (key : Text) (now : Int)
    (held : List Text) (e : ParkerProvEntry) :
    (collectStaleParkerProvenance T (disks.insert key e) cfg key now held).1.entries =
      ⟨key, e⟩ :: (otherRecords disks key).filter fun r => !collects T cfg key now held r := by
  have hnot : ∀ r : Sigma fun _ : Text => ParkerProvEntry, (!collects T cfg key now held r) = true ↔
      ¬(isStale T cfg key now r.1 r.2 = true ∧ r.1 ∉ held) := by
    intro r
    rw [Bool.not_eq_true', ← Bool.not_eq_true, collects_iff]
  unfold collectStaleParkerProvenance
  refine (entries_eraseAll _ (p := fun r => !collects T cfg key now held r) fun r hr => ?_).trans ?_
  · rw [hnot, not_iff_not]
    refine Iff.trans ?_ mem_pruned.symm
    rw [AList.mem_lookup_iff.mpr hr]
    simp
  · rw [AList.entries_insert, List.filter_cons_of_pos]
    · rfl
    · rw [hnot]
      rintro ⟨hstale, -⟩
      exact (isStale_iff.mp hstale).1 rfl

/-- **A projection succeeds exactly when what it keeps fits the budget.** -/
theorem project_isOk_iff {cfg : PveConfig} {key : Text} {entry e : ParkerProvEntry} (now : Int)
    (held : List Text) {disks : TextMap ParkerProvEntry}
    (hdisks : (parseParkerSentinel (descriptionFromConfig cfg)).disks = some disks)
    (hcarry : carryAllocation entry (disks.lookup key) = .ok e) :
    (∃ r, projectParkerProvenance T cfg key entry now held = .ok r) ↔
      frameBytes (parseParkerSentinel (descriptionFromConfig cfg)).nonBOSH
          (parseParkerSentinel (descriptionFromConfig cfg)).rawOther + recordBytes key e +
        storeBytes ((otherRecords disks key).filter fun r => !collects T cfg key now held r) ≤
          parkerDescriptionBudget := by
  have hentries := entries_collect (T := T) disks cfg key now held e
  have henc := encodable_rawOther (descriptionFromConfig cfg)
  obtain ⟨desc, hrender⟩ := (encodable_merged henc
    (collectStaleParkerProvenance T (disks.insert key e) cfg key now held).1).renders
      (parseParkerSentinel (descriptionFromConfig cfg)).nonBOSH
  have hbytes := byteLen_render (by rw [hentries]; exact List.cons_ne_nil _ _) hrender
  rw [hentries] at hbytes
  have hsum :
      storeBytes
      (⟨key, e⟩ :: (otherRecords disks key).filter fun r => !collects T cfg key now held r) =
      recordBytes key e + storeBytes ((otherRecords disks key).filter fun r =>
        !collects T cfg key now held r) := by
    rw [storeBytes, List.map_cons, List.sum_cons]
    rfl
  obtain ⟨pruned, records, hproject⟩ : ∃ pruned records, projectParkerProvenance T cfg key entry now
      held =
      if parkerDescriptionBudget < byteLen desc then .error (.full pruned records (byteLen desc))
      else .ok (desc, pruned) := by
    refine ⟨(collectStaleParkerProvenance T (disks.insert key e) cfg key now held).2,
      (collectStaleParkerProvenance T (disks.insert key e) cfg key now held).1.entries.length, ?_⟩
    unfold projectParkerProvenance
    dsimp only
    rw [hdisks, Option.bind_some, hcarry]
    dsimp only
    rw [renderParkerSentinel, hrender]
  rw [hproject, Nat.add_assoc, ← hsum, ← hbytes]
  split
  · rename_i hover
    exact iff_of_false (by rintro ⟨r, hr⟩; cases hr) (Nat.not_le.mpr hover)
  · rename_i hfits
    exact iff_of_true ⟨_, rfl⟩ (Nat.not_lt.mp hfits)

/-! ## 5. The slot in the record

Only the length of the slot matters to the size. -/

/-- The record with another slot. -/
def ParkerProvEntry.withSlot (e : ParkerProvEntry) (slot : Text) : ParkerProvEntry :=
  { e with text := Function.update e.text .slot slot }

/-- The slot plays no part in what is carried over. -/
theorem carry_withSlot (e : ParkerProvEntry) (slot : Text) (previous : Option ParkerProvEntry) :
    carryAllocation (e.withSlot slot) previous =
      (carryAllocation e previous).map (·.withSlot slot) := by
  cases previous with
  | none => rfl
  | some p =>
    have hid : (e.withSlot slot).text .allocationID = e.text .allocationID := rfl
    have hns : (e.withSlot slot).text .allocationNamespace = e.text .allocationNamespace := rfl
    unfold carryAllocation
    dsimp only
    rw [hid, hns]
    split
    · rfl
    · split
      · rfl
      · refine congrArg Except.ok ?_
        unfold ParkerProvEntry.withSlot
        congr 1
        funext f
        cases f <;> rfl

theorem build_withSlot (k : Park) (slot slot' : Text) (h : k.pctx.stableID.isEmpty = false) :
    buildParkerProvEntry T k slot' = (buildParkerProvEntry T k slot).withSlot slot' := by
  unfold buildParkerProvEntry ParkerProvEntry.withSlot
  congr 1
  funext f
  cases f with
  | slot => simp [h]
  | _ => rfl

theorem build_legacy (k : Park) (slot slot' : Text) (h : k.pctx.stableID.isEmpty = true) :
    buildParkerProvEntry T k slot' = buildParkerProvEntry T k slot := by
  unfold buildParkerProvEntry
  congr 1
  funext f
  cases f with
  | slot => simp [h]
  | _ => rfl

theorem recordBytes_eq (key : Text) (e : ParkerProvEntry) : recordBytes key e =
    byteLen (quote key) +
      ((e.textMembers.map fun m => memberBytes (quote m.1, m.2.mapStr quote)).sum +
      (e.optMembers.map fun m => memberBytes (quote m.1, m.2.mapStr quote)).sum + 1) + 4 := by
  have hne : e.textMembers ++ e.optMembers ≠ [] := by
    have hcid : (ProvField.diskCID.key, Value.str (e.text .diskCID)) ∈ e.textMembers :=
      List.mem_map.mpr ⟨.diskCID, List.mem_filter.mpr ⟨by decide, rfl⟩, rfl⟩
    exact fun hnil => List.not_mem_nil (hnil ▸ List.mem_append_left _ hcid)
  rw [recordBytes, memberBytes, ParkerProvEntry.value, Value.mapStr, Vm.mapStr_listMembers,
    byteLen_object (List.map_eq_nil_iff.not.mpr hne), List.map_map,
    List.map_append (f := memberBytes ∘ _), List.sum_append]
  rfl

/-- A shorter slot makes a shorter record. -/
theorem recordBytes_withSlot {slot slot' : Text} (key : Text) (e : ParkerProvEntry)
    (h : slot.isEmpty = false) (h' : slot'.isEmpty = false)
    (hle : byteLen (quote slot') ≤ byteLen (quote slot)) :
    recordBytes key (e.withSlot slot') ≤ recordBytes key (e.withSlot slot) := by
  have hfields : (ProvField.all.filter fun f => f.always || !((e.withSlot slot').text f).isEmpty) =
      ProvField.all.filter fun f => f.always || !((e.withSlot slot).text f).isEmpty := by
    refine List.filter_congr fun f _ => ?_
    by_cases hf : f = .slot
    · subst hf
      simp [ParkerProvEntry.withSlot, h, h']
    · simp [ParkerProvEntry.withSlot, hf]
  have hstr : ∀ t : Text, byteLen (print (.str t)) = byteLen t + 2 := by
    intro t
    have hsize : '"'.utf8Size = 1 := by decide
    rw [print, byteLen_cons, byteLen_append, byteLen_cons, byteLen_nil, hsize]
    omega
  have htexts :
      ((e.withSlot slot').textMembers.map fun m => memberBytes (quote m.1, m.2.mapStr quote)).sum ≤
      ((e.withSlot slot).textMembers.map fun m => memberBytes
        (quote m.1, m.2.mapStr quote)).sum := by
    rw [ParkerProvEntry.textMembers, ParkerProvEntry.textMembers, hfields, List.map_map,
      List.map_map]
    refine List.sum_le_sum fun f _ => ?_
    simp only [Function.comp, memberBytes, Value.mapStr, hstr]
    by_cases hf : f = .slot
    · subst hf
      simpa [ParkerProvEntry.withSlot] using hle
    · simp [ParkerProvEntry.withSlot, hf]
  have hopts : (e.withSlot slot').optMembers = (e.withSlot slot).optMembers := rfl
  rw [recordBytes_eq, recordBytes_eq, hopts]
  omega

/-! ## 6. When the probe keeps its promise

The probe's own condition, the write's own condition, and their difference. -/

variable (T)

/-- The keys that the keep rule holds. -/
def Park.held (k : Park) (cfg : PveConfig) : List Text :=
  parkerProvenanceSourceKeeps T k.linked cfg k.key k.now

/-- The records under other keys that the probe counts. -/
def Park.live (k : Park) (cfg : PveConfig) : List (Sigma fun _ : Text => ParkerProvEntry) :=
  (otherRecords (parkedDisks cfg) k.key).filter fun r =>
    !collects T cfg k.key k.now (k.held T cfg) r

/-- The records that the probe takes for collected although they name the volume: stale, not held,
and under another key. -/
def Park.revived (k : Park) (cfg : PveConfig) : List (Sigma fun _ : Text => ParkerProvEntry) :=
  (otherRecords (parkedDisks cfg) k.key).filter fun r =>
    collects T cfg k.key k.now (k.held T cfg) r && provEntryVolid r.1 r.2 == k.bareVolid

/-- The record of the disk, with the slot it landed on and the allocation it had. -/
def Park.record (k : Park) (cfg : PveConfig) (slot : Text) : ParkerProvEntry :=
  match carryAllocation (buildParkerProvEntry T k slot) ((parkedDisks cfg).lookup k.key) with
  | .ok e => e
  | .error _ => buildParkerProvEntry T k slot

/-- The bytes of the text, the other keys, the disk's record, the records that the probe counts and
those that come back. -/
def Park.needs (k : Park) (cfg : PveConfig) (slot : Text) : Nat :=
  frameBytes (parseParkerSentinel (descriptionFromConfig cfg)).nonBOSH
      (parseParkerSentinel (descriptionFromConfig cfg)).rawOther +
    recordBytes k.key (k.record T cfg slot) + storeBytes (k.live T cfg) + storeBytes
      (k.revived T cfg)

variable {T}

/-- The records that are kept are the live ones and, among the stale ones, those that a source
keeps. -/
theorem storeBytes_split (p q : (Sigma fun _ : Text => ParkerProvEntry) → Bool)
    (l : List (Sigma fun _ : Text => ParkerProvEntry)) :
    storeBytes (l.filter fun r => !p r || q r) =
      storeBytes (l.filter fun r => !p r) + storeBytes (l.filter fun r => p r && q r) := by
  induction l with
  | nil => rfl
  | cons r l ih =>
    have hcons : ∀ l : List (Sigma fun _ : Text => ParkerProvEntry),
        storeBytes (r :: l) = recordBytes r.1 r.2 + storeBytes l := fun l => by
      rw [storeBytes, List.map_cons, List.sum_cons]
      rfl
    cases hp : p r with
    | false =>
      simp only [List.filter_cons, hp, Bool.not_false, Bool.true_or, Bool.false_and,
        Bool.false_eq_true, if_true, if_false, hcons, ih]
      omega
    | true =>
      cases hq : q r with
      | false => simp [hp, hq, ih]
      | true =>
        simp only [List.filter_cons, hp, hq, Bool.not_true, Bool.or_true, Bool.and_true,
          Bool.false_eq_true, if_true, if_false, hcons, ih]
        omega

section Promise

variable {k : Park} {cfg cfg' : PveConfig} {slot : Text}

/-- **After the attach the collector spares the records that name the volume**, and takes what it
took. -/
theorem Park.collects_attached (h : Attached cfg cfg' k.bareVolid slot)
    {disks : TextMap ParkerProvEntry}
    (hdisks : (parseParkerSentinel (descriptionFromConfig cfg)).disks = some disks)
    {r : Sigma fun _ : Text => ParkerProvEntry} (hr : r ∈ otherRecords disks k.key) :
    (!collects T cfg' k.key k.now (k.held T cfg') r) =
      (!collects T cfg k.key k.now (k.held T cfg) r || provEntryVolid r.1 r.2 == k.bareVolid) := by
  have hlookup : disks.lookup r.1 = some r.2 := by
    have hin : (disks.erase k.key).lookup r.1 = some r.2 := AList.mem_lookup_iff.mpr hr
    rw [← hin, AList.lookup_erase_ne]
    rintro heq
    rw [heq, AList.lookup_erase] at hin
    cases hin
  have hdisks' : (parseParkerSentinel (descriptionFromConfig cfg')).disks = some disks := by
    rw [h.description, hdisks]
  have hheld : isStale T cfg' k.key k.now r.1 r.2 = true →
      (r.1 ∈ k.held T cfg' ↔ r.1 ∈ k.held T cfg) := by
    intro hstale
    rw [Park.held, Park.held, mem_keeps hdisks', mem_keeps hdisks, hlookup]
    simp [hstale, ((h.stale T).mp hstale).1]
  rw [Bool.eq_iff_iff, Bool.or_eq_true, Bool.not_eq_true', Bool.not_eq_true', ← Bool.not_eq_true,
    ← Bool.not_eq_true, collects_iff, collects_iff, beq_iff_eq, h.stale T]
  constructor
  · intro hno
    by_cases hvol : provEntryVolid r.1 r.2 = k.bareVolid
    · exact .inr hvol
    · refine .inl fun hcol => hno ⟨⟨hcol.1, hvol⟩, ?_⟩
      rw [hheld ((h.stale T).mpr ⟨hcol.1, hvol⟩)]
      exact hcol.2
  · rintro (hno | hvol) ⟨⟨hstale, hne⟩, hfree⟩
    · rw [hheld ((h.stale T).mpr ⟨hstale, hne⟩)] at hfree
      exact hno ⟨hstale, hfree⟩
    · exact hne hvol

theorem Park.record_eq {disks : TextMap ParkerProvEntry} {e : ParkerProvEntry}
    (hdisks : (parseParkerSentinel (descriptionFromConfig cfg)).disks = some disks)
    (hcarry : carryAllocation (buildParkerProvEntry T k slot) (disks.lookup k.key) = .ok e) :
    k.record T cfg slot = e := by
  rw [Park.record, parkedDisks, hdisks, Option.getD_some, hcarry]

/-- **The write succeeds exactly when everything fits**, once the record can be written at all. -/
theorem Park.write_isOk_iff (h : Attached cfg cfg' k.bareVolid slot)
    {disks : TextMap ParkerProvEntry}
    {e : ParkerProvEntry} (hdisks : (parseParkerSentinel (descriptionFromConfig cfg)).disks =
      some disks)
    (hcarry : carryAllocation (buildParkerProvEntry T k slot) (disks.lookup k.key) = .ok e) :
    (∃ r, k.write T cfg' slot = .ok r) ↔ k.needs T cfg slot ≤ parkerDescriptionBudget := by
  have hdisks' : (parseParkerSentinel (descriptionFromConfig cfg')).disks = some disks := by
    rw [h.description, hdisks]
  have hfilter : (otherRecords disks k.key).filter
      (fun r => !collects T cfg' k.key k.now (k.held T cfg') r) =
      (otherRecords disks k.key).filter fun r =>
        !collects T cfg k.key k.now (k.held T cfg) r || provEntryVolid r.1 r.2 == k.bareVolid :=
    List.filter_congr fun r hr => k.collects_attached h hdisks hr
  have hproject := project_isOk_iff (T := T) k.now (k.held T cfg') hdisks' hcarry
  rw [hfilter, storeBytes_split, h.description] at hproject
  refine hproject.trans ?_
  rw [Park.needs, Park.record_eq hdisks hcarry, Park.live, Park.revived, parkedDisks, hdisks,
    Option.getD_some, Nat.add_assoc _ (storeBytes _)]

theorem Park.room_isOk_iff {disks : TextMap ParkerProvEntry} {e : ParkerProvEntry}
    (hdisks : (parseParkerSentinel (descriptionFromConfig cfg)).disks = some disks)
    (hcarry : carryAllocation (buildParkerProvEntry T k (parkerSlot (parkerMaxSlots - 1)))
      (disks.lookup k.key) = .ok e) :
    (∃ r, k.room T cfg = .ok r) ↔
      frameBytes (parseParkerSentinel (descriptionFromConfig cfg)).nonBOSH
          (parseParkerSentinel (descriptionFromConfig cfg)).rawOther + recordBytes k.key e +
        storeBytes (k.live T cfg) ≤ parkerDescriptionBudget := by
  have hproject := project_isOk_iff (T := T) k.now (k.held T cfg) hdisks hcarry
  rw [Park.live, parkedDisks, hdisks, Option.getD_some]
  exact hproject

/-- The landed slot changes nothing but the slot, which is no longer than the one the probe took. -/
theorem Park.landed_le (h : Attached cfg cfg' k.bareVolid slot) {previous : Option ParkerProvEntry}
    {e : ParkerProvEntry}
    (hcarry : carryAllocation (buildParkerProvEntry T k (parkerSlot (parkerMaxSlots - 1)))
      previous = .ok e) :
    ∃ e', carryAllocation (buildParkerProvEntry T k slot) previous = .ok e' ∧
      recordBytes k.key e' ≤ recordBytes k.key e := by
  cases hstable : k.pctx.stableID.isEmpty with
  | true =>
    exact ⟨e, by rw [build_legacy k (parkerSlot (parkerMaxSlots - 1)) slot hstable, hcarry],
      Nat.le_refl _⟩
  | false =>
    have hwidest : e.withSlot (parkerSlot (parkerMaxSlots - 1)) = e := by
      have hsame := build_withSlot (T := T) k (parkerSlot (parkerMaxSlots - 1))
        (parkerSlot (parkerMaxSlots - 1)) hstable
      have hagain := carry_withSlot (buildParkerProvEntry T k (parkerSlot (parkerMaxSlots - 1)))
        (parkerSlot (parkerMaxSlots - 1)) previous
      rw [← hsame, hcarry] at hagain
      exact (Except.ok.inj hagain).symm
    refine ⟨e.withSlot slot, ?_, ?_⟩
    · rw [build_withSlot k (parkerSlot (parkerMaxSlots - 1)) slot hstable, carry_withSlot, hcarry]
      rfl
    · obtain ⟨-, -, -, hblank, hle⟩ := h.spec
      have hrec := recordBytes_withSlot k.key e (by decide) hblank hle
      rwa [hwidest] at hrec

/-- **When the probe keeps its promise.**  After any attach that the probe allowed, the write
succeeds exactly when no record comes back, or those that come back fit beside the rest.  Both
succeed exactly when what they keep fits the budget (`project_isOk_iff`), and the write keeps what
the probe keeps and the records that come back. -/
theorem room_enough_iff (k : Park) (h : Attached cfg cfg' k.bareVolid slot) :
    ((∃ r, k.room T cfg = .ok r) → ∃ r, k.write T cfg' slot = .ok r) ↔
      ((∃ r, k.room T cfg = .ok r) →
        k.revived T cfg = [] ∨ k.needs T cfg slot ≤ parkerDescriptionBudget) := by
  refine imp_congr_right fun hroom => ?_
  obtain ⟨⟨desc, pruned⟩, hok⟩ := hroom
  obtain ⟨disks, e, hdisks, hcarry, -⟩ := project_eq_ok hok
  obtain ⟨e', hcarry', hle⟩ := Park.landed_le h hcarry
  rw [Park.write_isOk_iff h hdisks hcarry']
  refine ⟨.inr, fun hor => hor.elim (fun hnone => ?_) id⟩
  have hfits := (Park.room_isOk_iff hdisks hcarry).mp ⟨_, hok⟩
  have hzero : storeBytes (k.revived T cfg) = 0 := by rw [hnone]; rfl
  rw [Park.needs, Park.record_eq hdisks hcarry', hzero]
  omega

end Promise

end Revival

/-! ## 7. Two parks -/

theorem byteLen_replicate (n : Nat) : byteLen (List.replicate n 'x') = n := by
  have hsize : 'x'.utf8Size = 1 := by decide
  induction n with
  | zero => rfl
  | succ n ih =>
    rw [List.replicate_succ, byteLen_cons, ih, hsize]
    omega

/-- Text in front of a sentinel changes nothing but the text. -/
theorem parseParkerSentinel_behind {front desc : Text} (hfront : findSentinel front = none)
    (hdesc : (findSentinel desc).map Prod.fst = some []) :
    (parseParkerSentinel (front ++ '\n' :: desc)).nonBOSH = trimList isSpace front ∧
      (parseParkerSentinel (front ++ '\n' :: desc)).disks = (parseParkerSentinel desc).disks ∧
      (parseParkerSentinel (front ++ '\n' :: desc)).rawOther =
        (parseParkerSentinel desc).rawOther := by
  obtain ⟨⟨before, j, rest⟩, hfind, rfl⟩ := Option.map_eq_some_iff.mp hdesc
  have hparse : Vm.parseSentinel (front ++ '\n' :: desc) =
      (trimList isSpace front, (Vm.parseSentinel desc).2) := by
    rw [Vm.parseSentinel, Vm.parseSentinel, Vm.findSentinel_newline, hfront, hfind]
    simp only [Option.map_some, Lib.Tokens.trimList_concat (p := isSpace) (c := '\n') rfl]
  have hsame : Vm.sentinelOf (front ++ '\n' :: desc) = Vm.sentinelOf desc := by
    rw [Vm.sentinelOf, Vm.sentinelOf, hparse]
  rw [parseParkerSentinel, parseParkerSentinel, hsame, hparse]
  exact ⟨rfl, rfl, rfl⟩

/-- A park of a volume whose disk has a stable ID. -/
def samplePark : Park where
  node := "n".toList
  directorID := []
  bareVolid := "s:v".toList
  pctx := ⟨[], [], [], [], [], "bpd-0123456789abcdef".toList, ∅⟩
  now := 1767330245000000000
  linked := fun _ => false

def digestKey : Text := "digest".toList

/-- The disk is attached to the first slot, and the config has another digest. -/
def attachSample (cfg : PveConfig) : PveConfig :=
  (cfg.insert "scsi0".toList (.text "s:v,size=1G".toList)).insert digestKey
    (.text "0b2c".toList)

theorem attached_sample {cfg : PveConfig} (h : cfg.lookup "scsi0".toList = none) :
    Attached cfg (attachSample cfg) "s:v".toList "scsi0".toList := by
  have hslot : (attachSample cfg).lookup "scsi0".toList = some (.text "s:v,size=1G".toList) := by
    rw [attachSample, AList.lookup_insert_ne (by decide), AList.lookup_insert]
  refine ⟨by decide, ⟨0, by decide, by decide⟩, fun v hv => ?_, ⟨_, hslot, by decide⟩,
    fun key hkey hdisk => .inl ?_⟩
  · rw [h] at hv
    cases hv
  · have hdigest : key ≠ digestKey := by
      rintro rfl
      revert hdisk
      decide
    rw [attachSample, AList.lookup_insert_ne hdigest, AList.lookup_insert_ne hkey]

/-- A parker with two records: one of a disk on the second slot, under its stable ID, and one from
before the parked disk had a stable ID, under the name of the volume. -/
def roomyParker : PveConfig :=
  AList.insert descriptionKey
    (.text ("disks of web\n<!--BOSH:\x7b\"bosh_parked_disks\":\x7b".toList ++
      "\"bpd-00000000000000aa\":\x7b\"disk_cid\":\"s:w\",\"source_vm_cid\":\"120\",".toList ++
      "\"parked_at\":\"2026-01-02T03:04:05Z\",\"node\":\"n\",\"volid\":\"s:w\",".toList ++
      "\"slot\":\"scsi1\"\x7d,\"s:v\":\x7b\"disk_cid\":\"s:v\",".toList ++
      "\"parked_at\":\"2026-01-02T03:04:05Z\",\"node\":\"n\"\x7d\x7d\x7d-->".toList))
    (AList.insert "scsi1".toList (.text "s:w,size=1G".toList) ∅)

theorem roomyParker_evaluated :
    (samplePark.room sampleTimes roomyParker).toOption.isSome = true ∧
    (samplePark.live sampleTimes roomyParker).length = 1 ∧
    (samplePark.revived sampleTimes roomyParker).length = 1 ∧
    samplePark.needs sampleTimes roomyParker "scsi0".toList ≤ parkerDescriptionBudget := by
  decide +kernel

/-- The probe allows the park beside the two records, of which it counts one.  The other comes back
with the attach, fits, and the write succeeds. -/
theorem room_enough_sample :
    Attached roomyParker (attachSample roomyParker) samplePark.bareVolid "scsi0".toList ∧
    (samplePark.live sampleTimes roomyParker).length = 1 ∧
    (samplePark.revived sampleTimes roomyParker).length = 1 ∧
    (∃ r, samplePark.room sampleTimes roomyParker = .ok r) ∧
    ∃ r, samplePark.write sampleTimes (attachSample roomyParker) "scsi0".toList = .ok r := by
  have hattached : Attached roomyParker (attachSample roomyParker) samplePark.bareVolid
      "scsi0".toList := attached_sample rfl
  obtain ⟨hok, hlive, hrevived, hneeds⟩ := roomyParker_evaluated
  have hroom : ∃ r, samplePark.room sampleTimes roomyParker = .ok r := by
    cases hr : samplePark.room sampleTimes roomyParker with
    | error e =>
      rw [hr] at hok
      cases hok
    | ok r => exact ⟨r, rfl⟩
  exact ⟨hattached, hlive, hrevived, hroom,
    (room_enough_iff samplePark hattached).mpr (fun _ => .inr hneeds) hroom⟩

/-- A record from before the disk had a stable ID, under the name of the volume. -/
def legacyRecord : Text :=
  "<!--BOSH:\x7b\"bosh_parked_disks\":\x7b\"s:v\":\x7b\"disk_cid\":\"s:v\",".toList ++
    "\"parked_at\":\"2026-01-02T03:04:05Z\",\"node\":\"n\"\x7d\x7d\x7d-->".toList

/-- A parker with that record and a long text. -/
def fullParker : PveConfig :=
  AList.insert descriptionKey (.text (List.replicate 7500 'x' ++ '\n' :: legacyRecord)) ∅

/-- The records of the parker. -/
def legacyDisks : TextMap ParkerProvEntry := (parseParkerSentinel legacyRecord).disks.getD ∅

/-- The three parts of the full description.  The text in front is long and has no sentinel in it,
so the parts are found without going through it. -/
theorem fullParker_parts :
    (parseParkerSentinel (descriptionFromConfig fullParker)).nonBOSH = List.replicate 7500 'x' ∧
    (parseParkerSentinel (descriptionFromConfig fullParker)).disks = some legacyDisks ∧
    (parseParkerSentinel (descriptionFromConfig fullParker)).rawOther =
      (parseParkerSentinel legacyRecord).rawOther := by
  have hdesc : descriptionFromConfig fullParker = List.replicate 7500 'x' ++
      '\n' :: legacyRecord := by
    rw [descriptionFromConfig, configString, fullParker, AList.lookup_insert]
    rfl
  have hopen : findSentinel (List.replicate 7500 'x') = none := by
    refine Vm.findSentinel_eq_none fun hin => ?_
    exact absurd (List.eq_of_mem_replicate (hin.subset (show '<' ∈ Vm.sentinelOpen by decide)))
      (by decide)
  obtain ⟨htext, hdisks, hother⟩ := parseParkerSentinel_behind hopen
    (show (findSentinel legacyRecord).map Prod.fst = some [] by decide +kernel)
  have hsome : (parseParkerSentinel legacyRecord).disks = some legacyDisks := by
    have his : (parseParkerSentinel legacyRecord).disks.isSome = true := by decide +kernel
    obtain ⟨disks, hdisks⟩ := Option.isSome_iff_exists.mp his
    rw [legacyDisks, hdisks, Option.getD_some]
  rw [hdesc]
  refine ⟨htext.trans (Vm.trimList_eq_self fun c hc => ?_), hdisks.trans hsome, hother⟩
  rw [List.eq_of_mem_replicate hc]
  rfl

/-- **The probe promises what the write cannot do.**  The probe takes the legacy record for
collected; after the attach it stays, and there is no room for both.  This contradicts the comment
of the probe, which calls it never optimistic. -/
theorem room_promises_too_much :
    (∃ r, samplePark.room sampleTimes fullParker = .ok r) ∧
    Attached fullParker (attachSample fullParker) samplePark.bareVolid "scsi0".toList ∧
    ¬∃ r, samplePark.write sampleTimes (attachSample fullParker) "scsi0".toList = .ok r := by
  obtain ⟨htext, hdisks, hother⟩ := fullParker_parts
  have hattached : Attached fullParker (attachSample fullParker) samplePark.bareVolid
      "scsi0".toList :=
    attached_sample rfl
  have hcarry : ∀ slot, carryAllocation (buildParkerProvEntry sampleTimes samplePark slot)
      (legacyDisks.lookup samplePark.key) =
        .ok (buildParkerProvEntry sampleTimes samplePark slot) := by
    have hnone : legacyDisks.lookup samplePark.key = none := by
      have his : (legacyDisks.lookup samplePark.key).isNone = true := by decide +kernel
      exact Option.isNone_iff_eq_none.mp his
    intro slot
    rw [hnone]
    rfl
  have hframe : frameBytes (List.replicate 7500 'x') (parseParkerSentinel legacyRecord).rawOther =
      7536 := by
    have hrest : byteLen Vm.sentinelOpen + byteLen Vm.sentinelClose +
        (((parseParkerSentinel legacyRecord).rawOther.erase parkedDisksKey).entries.map fun e =>
          memberBytes (quote e.1, e.2.mapStr escapeHtml)).sum + byteLen (quote parkedDisksKey) + 6 =
            35 := by
      decide +kernel
    rw [frameBytes, byteLen_replicate, if_neg
      (by rw [List.replicate_succ]; exact List.cons_ne_nil _ _)]
    omega
  have hlive : storeBytes (samplePark.live sampleTimes fullParker) = 0 := by
    rw [Park.live, parkedDisks, Park.held, parkerProvenanceSourceKeeps, hdisks]
    decide +kernel
  have hrevived : 60 ≤ storeBytes (samplePark.revived sampleTimes fullParker) := by
    rw [Park.revived, parkedDisks, Park.held, parkerProvenanceSourceKeeps, hdisks]
    decide +kernel
  have hwidest : recordBytes samplePark.key (buildParkerProvEntry sampleTimes samplePark
      (parkerSlot (parkerMaxSlots - 1))) ≤ 120 := by decide +kernel
  have hlanded : 110 ≤ recordBytes samplePark.key
      (buildParkerProvEntry sampleTimes samplePark "scsi0".toList) := by decide +kernel
  have hbudget : parkerDescriptionBudget = 7680 := rfl
  refine ⟨?_, hattached, ?_⟩
  · rw [Park.room_isOk_iff hdisks (hcarry _), htext, hother, hframe, hlive]
    omega
  · rw [Park.write_isOk_iff hattached hdisks (hcarry _), Park.needs,
      Park.record_eq hdisks (hcarry _), htext, hother, hframe, hlive]
    omega

end Parker
