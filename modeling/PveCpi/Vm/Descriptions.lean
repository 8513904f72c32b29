/-
# The writers of a VM's description

The calls that rewrite the description of a VM after it was created: `setVMMetadataRMW` of
`cpi/handlers/set_vm_metadata.go`, `persistMetadata` and `applyCustomTagsToVM` of
`set_disk_metadata.go`, `VMAnnotator.AnnotateNotes` of `vm_annotator.go`, and
`UpdateAttachedDiskCID`, `SetVMDiskOptOverlay` and `SetPoolMembershipOnDescription` of the `pve`
package.  The description holds text, an allocation marker and a sentinel, and no writer owns more
than one key of the sentinel.

`marker_survives_iff` says for each of them when the marker and the other keys come through:

* the five that replace a key of the sentinel keep the text in front, so the marker is lost only
  when a string they encode anew says one of its lines;
* `set_vm_metadata` takes the marker out and writes it again, which fails only for a namespace that
  says the first line;
* `AnnotateNotes` writes the notes in place of the text and knows nothing of the marker.

## The common part

A description that carries a marker has it in its text (`Carries.parts`): the lines occur once, the
strings of the sentinel say neither, and the text in front holds both.  That is shown once.  A
writer that replaces a key is then judged by the new value alone (`survives_replace`): the text
stays, the other keys stay, and the marker is lost exactly when the new value says a line.

The writers differ in which strings they encode anew.  A writer that keeps a map under its key
decodes and encodes all of it, so a string that somebody else put there long ago is written again by
it; the conditions of `marker_survives_iff` name these strings for each writer.
-/
import PveCpi.Vm.Records
import PveCpi.Vm.Ownership

namespace Vm

open Lib.Json (Value Elems Members parse print quote unquote escapeHtml)
open Lib.Text (isSpace trimList)
open Lib.Occurs
open Stemcell (putAll sortedMembers mem_sortedMembers lookup_putAll_of_mem lookup_putAll_empty)

/-! ## 1. Writers that replace a key of the sentinel -/

def sentinelKeyDiskMetadata : Text := "bosh_disk_metadata".toList
def sentinelKeyDiskTags : Text := "bosh_disk_tags".toList
def attachedDisksSentinelKey : Text := "bosh_attached_disks".toList
def diskOptOverlaysSentinelKey : Text := "bosh_disk_opt_overlays".toList
def poolMembershipSentinelKey : Text := "bosh_pool".toList

/-- Read the sentinel, edit its key map, and write it back behind the text.  An edit that fails, or
that assigns to a nil map, writes nothing. -/
def rewrite (edit : Option Raw → Option Raw) (desc : Text) : Option Text :=
  (edit (parseSentinel desc).2).bind (renderSentinel (parseSentinel desc).1)

/-- The metadata of a disk, a `map[string]any` decoded from a request.  The request has two levels
around it, and the scanner follows no more than `maxDepth`. -/
structure DiskMetadata where
  members : Members
  wf : (members.mapStr quote).wf = true
  depth : members.depth + 3 ≤ Lib.Json.maxDepth

/-- The metadata as a value; nil is null. -/
def diskMetadataValue : Option DiskMetadata → Value
  | none => .null
  | some metadata => .obj metadata.members

/-- `persistMetadata`. -/
def persistMetadata (F : Floats) (diskCID : Text) (metadata : Option DiskMetadata) (desc : Text) :
    Option Text :=
  rewrite (fun raw => raw.bind fun raw =>
    (recorded (readAnyMap F) raw sentinelKeyDiskMetadata).map fun diskMeta =>
      raw.insert sentinelKeyDiskMetadata
        (encodeMap (diskMeta.insert diskCID (diskMetadataValue metadata)))) desc

/-- `applyCustomTagsToVM`, as far as the description goes. -/
def applyCustomTagsToVM (L : Casing) (tags : TextMap Text) (diskCID desc : Text) : Option Text :=
  let tags := dropReservedDiskTags L tags
  if tags.entries.isEmpty then none
  else
    rewrite (fun raw => raw.bind fun raw =>
      (recorded readTextMap raw sentinelKeyDiskTags).map fun diskTags =>
        raw.insert sentinelKeyDiskTags
          (encodeMap (diskTags.insert diskCID (mapValue (ofTexts tags))))) desc

/-- The keys other than `key`, and the map under it when it has entries. -/
def mergedRaw (raw : Raw) (key : Text) (m : Raw) : Raw :=
  if m.entries.isEmpty then raw.erase key else (raw.erase key).insert key (encodeMap m)

/-- `UpdateAttachedDiskCID`. -/
def updateAttachedDiskCID (bareVolid cidVerbatim desc : Text) : Option Text :=
  if cidVerbatim.isEmpty || bareVolid.isEmpty then none
  else
    rewrite (fun raw =>
      (recorded readText (raw.getD ∅) attachedDisksSentinelKey).map fun disks =>
        mergedRaw (raw.getD ∅) attachedDisksSentinelKey (disks.insert bareVolid (.str cidVerbatim)))
          desc

/-- `sanitizeDiskOptOverlay`; an empty map stands for nil. -/
def sanitizeDiskOptOverlay (m : TextMap Text) : TextMap Text := m.erase "serial".toList

/-- The overlays without the entries under other keys of the disk. -/
def dropKeys (m : Raw) (key : Text) (extraKeys : List Text) : Raw :=
  (extraKeys.filter fun k => !k.isEmpty && k != key).foldl (fun m k => m.erase k) m

/-- `SetVMDiskOptOverlay`. -/
def setVMDiskOptOverlay (key : Text) (overlay : TextMap Text) (extraKeys : List Text)
    (desc : Text) : Option Text :=
  if key.isEmpty then none
  else
    rewrite (fun raw =>
      let overlays := (recorded readTextMap (raw.getD ∅) diskOptOverlaysSentinelKey).map
        (dropKeys · key extraKeys)
      let clean := sanitizeDiskOptOverlay overlay
      -- Only the assignment needs a map; deleting from a nil map does nothing.
      if clean.entries.isEmpty then
        some (mergedRaw (raw.getD ∅) diskOptOverlaysSentinelKey ((overlays.getD ∅).erase key))
      else
        overlays.map fun overlays => mergedRaw (raw.getD ∅) diskOptOverlaysSentinelKey
          (overlays.insert key (mapValue (ofTexts clean)))) desc

/-- `PoolMembership`. -/
structure PoolMembership where
  name : Text
  layer : Text
  director : Text
  deployment : Text
  instanceGroup : Text

/-- The members that `json.Marshal` writes for it: the fields that are not empty. -/
def PoolMembership.fields (pm : PoolMembership) : List (Text × Text) :=
  [("name".toList, pm.name), ("layer".toList, pm.layer), ("director".toList, pm.director),
   ("deployment".toList, pm.deployment), ("instance_group".toList, pm.instanceGroup)].filter
    fun e => !e.2.isEmpty

def PoolMembership.value (pm : PoolMembership) : Value :=
  (Value.obj (listMembers (pm.fields.map fun e => (e.1, .str e.2)))).mapStr quote

/-- `SetPoolMembershipOnDescription`. -/
def setPoolMembershipOnDescription (pm : Option PoolMembership) (desc : Text) : Option Text :=
  rewrite (fun raw =>
    match pm with
    | none => some ((raw.getD ∅).erase poolMembershipSentinelKey)
    | some pm => raw.map fun raw => raw.insert poolMembershipSentinelKey pm.value) desc

/-! ## 2. Writers that replace the text -/

/-- `AnnotateNotes`.  A CID with a stamp is written to only when the configuration was read and its
tags agree. -/
def annotateNotes (stamped agrees readable : Bool) (notes desc : Text) : Option Text :=
  if stamped && !(readable && agrees) then none
  else if readable then
    match (parseSentinel desc).2 with
    | some raw =>
      if raw.entries.isEmpty then some notes
      else some ((renderSentinel (trimList isSpace notes) raw).getD notes)
    | none => some notes
  else some notes

/-- `buildDescription`; a value is as `%v` prints it. -/
def buildDescription (metadata : TextMap (Option Text)) : Text :=
  (metadata.entries.insertionSort fun a b => a.1 ≤ b.1).flatMap fun e =>
    e.1 ++ ": ".toList ++ e.2.getD "<nil>".toList ++ "\n".toList

/-- The label and the CID that a `bosh_stemcell` record has; nothing when a field has another
type. -/
def readStemcell : Text × Text → Members → Option (Text × Text)
  | r, .nil => some r
  | r, .cons k v ms =>
    let key := (unquote k).map foldName
    if key = "label".toList then
      match v with
      | .str s => readStemcell (unquote s, r.2) ms
      | .null => readStemcell r ms
      | _ => none
    else if key = "cid".toList then
      match v with
      | .str s => readStemcell (r.1, unquote s) ms
      | .null => readStemcell r ms
      | _ => none
    else if key = "kind".toList ∨ key = "sha8".toList then
      match v with
      | .str _ | .null => readStemcell r ms
      | _ => none
    else readStemcell r ms

/-- `GetVMStemcell`, the label of the record. -/
def getVMStemcell (desc : Text) : Option Text :=
  match valueOf desc "bosh_stemcell".toList with
  | some (.obj ms) =>
    (readStemcell ([], []) ms).bind fun r => if r.1.isEmpty && r.2.isEmpty then none else some r.1
  | _ => none

/-- `isStemcellLabelSafe`. -/
def isStemcellLabelSafe (label : Text) : Bool :=
  !label.isEmpty && decide (byteLen label ≤ 96) && label.all fun c =>
    ('a' ≤ c && c ≤ 'z') || ('A' ≤ c && c ≤ 'Z') || ('0' ≤ c && c ≤ '9') ||
      c == '-' || c == '.' || c == '_'

/-- `withStemcellNote`. -/
def withStemcellNote (description existingDesc : Text) : Text :=
  if (description.splitOn '\n').any fun line => "stemcell: ".toList.isPrefixOf line then description
  else
    match getVMStemcell existingDesc with
    | some label =>
      if isStemcellLabelSafe label then description ++ "stemcell: ".toList ++ label ++ "\n".toList
      else description
    | none => description

/-- `preserveVMAllocationMarker`. -/
def preserveVMAllocationMarker (existing description : Text) : Option Text :=
  match parseStorageAllocationMarker description with
  | .absent =>
    match parseStorageAllocationMarker existing with
    | .rejected => none
    | .absent => some description
    | .found marker =>
      if 1 < count sentinelOpen existing then none
      else if sentinelOpen <:+: existing ∧ ((parseSentinel existing).2.getD ∅).entries.isEmpty then
        none
      else (formatStorageAllocationMarker marker).map (· ++ description)
  | _ => none

/-- What `setVMMetadataRMW` makes of a description, once the checks of ownership and identity have
passed. -/
def setVMMetadataDescription (metadata : TextMap (Option Text)) (existingDesc : Text) :
    Option Text :=
  let description := withStemcellNote (buildDescription metadata) existingDesc
  if sentinelOpen <:+: description then none
  else
    let raw := (parseSentinel existingDesc).2.getD ∅
    let merged := if raw.entries.isEmpty then some description
      else renderSentinel (trimList isSpace description) raw
    merged.bind (preserveVMAllocationMarker existingDesc)

/-! ## 3. All of them -/

/-- A call that rewrites the description. -/
inductive Writer
  | setVMMetadata (passed : Bool) (metadata : TextMap (Option Text))
  | persistMetadata (diskCID : Text) (metadata : Option DiskMetadata)
  | applyCustomTagsToVM (tags : TextMap Text) (diskCID : Text)
  | annotateNotes (stamped agrees readable : Bool) (notes : Text)
  | updateAttachedDiskCID (bareVolid cidVerbatim : Text)
  | setVMDiskOptOverlay (key : Text) (overlay : TextMap Text) (extraKeys : List Text)
  | setPoolMembership (pm : Option PoolMembership)

section Run

variable (L : Casing) (F : Floats)

/-- What a call writes; nothing when it refuses, or has nothing to write. -/
def Writer.run : Writer → Text → Option Text
  | .setVMMetadata passed metadata, desc =>
    if passed then setVMMetadataDescription metadata desc else none
  | .persistMetadata diskCID metadata, desc => Vm.persistMetadata F diskCID metadata desc
  | .applyCustomTagsToVM tags diskCID, desc => Vm.applyCustomTagsToVM L tags diskCID desc
  | .annotateNotes stamped agrees readable notes, desc =>
    Vm.annotateNotes stamped agrees readable notes desc
  | .updateAttachedDiskCID bareVolid cidVerbatim, desc =>
    Vm.updateAttachedDiskCID bareVolid cidVerbatim desc
  | .setVMDiskOptOverlay key overlay extraKeys, desc =>
    Vm.setVMDiskOptOverlay key overlay extraKeys desc
  | .setPoolMembership pm, desc => setPoolMembershipOnDescription pm desc

/-- The key of the sentinel that a call owns. -/
def Writer.owns : Writer → Option Text
  | .setVMMetadata .. | .annotateNotes .. => none
  | .persistMetadata .. => some sentinelKeyDiskMetadata
  | .applyCustomTagsToVM .. => some sentinelKeyDiskTags
  | .updateAttachedDiskCID .. => some attachedDisksSentinelKey
  | .setVMDiskOptOverlay .. => some diskOptOverlaysSentinelKey
  | .setPoolMembership .. => some poolMembershipSentinelKey

end Run

/-- A description with at most one sentinel, well formed, and one marker in front of it. -/
structure Carries (desc : Text) (m : Marker) : Prop where
  found : parseStorageAllocationMarker desc = .found m
  once : count sentinelOpen desc ≤ 1
  wellFormed : sentinelOpen <:+: desc → ∃ before jsonStr rest ms,
    findSentinel desc = some (before, jsonStr, rest) ∧ parse jsonStr = some (.obj ms) ∧
      storageAllocationMarkerEnd <:+: before

/-- The new description has the same marker, and the same value under every key but one. -/
def Survives (owned : Option Text) (desc desc' : Text) (m : Marker) : Prop :=
  parseStorageAllocationMarker desc' = .found m ∧
    ∀ k, owned ≠ some k → ∀ v, valueOf desc k = some v → SameValue v desc' k

/-! ## 4. What a description is made of

`Parts` is a description taken apart: text, key map, marker. -/

/-- The key map of a description; nil is empty. -/
def sentinelOf (desc : Text) : Raw := (parseSentinel desc).2.getD ∅

/-- The text and the key map of a description that carries a marker. -/
structure Parts (desc text : Text) (raw : Raw) (m : Marker) : Prop where
  parse : parseSentinel desc = (text, some raw)
  found : parseStorageAllocationMarker text = .found m
  plain : ¬sentinelOpen <:+: text
  encodable : Encodable raw
  quiet : ∀ k v, raw.lookup k = some v → Quiet v

theorem Parts.valueOf {desc text : Text} {raw : Raw} {m : Marker} (h : Parts desc text raw m)
    (k : Text) : valueOf desc k = raw.lookup k := by
  rw [Vm.valueOf, h.parse]
  rfl

theorem Parts.sentinelOf {desc text : Text} {raw : Raw} {m : Marker} (h : Parts desc text raw m) :
    sentinelOf desc = raw := by
  rw [Vm.sentinelOf, h.parse]
  rfl

theorem membersList_depth {ms : Members} {e : Text × Value} (h : e ∈ membersList ms) :
    e.2.depth < (Value.obj ms).depth := Nat.lt_succ_of_le (mem_membersList_depth h)

theorem mem_membersList_texts {ms : Members} {e : Text × Value} (h : e ∈ membersList ms) :
    ∀ t ∈ e.2.texts, t ∈ ms.texts := by
  fun_induction membersList ms with
  | case1 => cases h
  | case2 k v ms ih =>
    intro t ht
    rw [Members.texts, List.mem_cons, List.mem_append]
    rcases List.mem_cons.mp h with rfl | h
    · exact .inr (.inl ht)
    · exact .inr (.inr (ih h t ht))

/-- The marker of a description is in front of its sentinel, and the sentinel says nothing of it. -/
theorem found_before {before rest : Text} {m : Marker}
    (hfound : parseStorageAllocationMarker (before ++ '<' :: rest) = .found m)
    (hend : storageAllocationMarkerEnd <:+: before) :
    parseStorageAllocationMarker (trimList isSpace before) = .found m ∧ Silent rest := by
  obtain ⟨-, -, x, payload, y, hsplit, hdecode⟩ := found_iff.mp hfound
  have hone := count_of_found hfound
  have hsum : ∀ d ∈ delimiters, count d before + count d rest = 1 := by
    intro d hd
    rw [← count_delimiter_append hd (c := '<') (by decide), hone d hd]
  have hpos : 0 < count storageAllocationMarkerEnd before :=
    (count_pos_of_delimiter (by decide)).mpr hend
  have hE := hsum storageAllocationMarkerEnd (by decide)
  have hErest : count storageAllocationMarkerEnd rest = 0 := by omega
  have hassoc : x ++
      (storageAllocationMarkerStart ++ (payload ++ (storageAllocationMarkerEnd ++ y))) =
      (x ++ storageAllocationMarkerStart ++ payload) ++ (storageAllocationMarkerEnd ++ y) := by
    simp only [List.append_assoc]
  rw [hassoc] at hsplit
  obtain ⟨y', -, hbefore⟩ := before_cut (by decide)
    (by rw [end_eq, ← count_eq_zero, ← end_eq]; exact hErest) hsplit
  have hstart : storageAllocationMarkerStart <:+: before := by
    rw [hbefore]
    exact ⟨x, payload ++ (storageAllocationMarkerEnd ++ y'), by simp only [List.append_assoc]⟩
  have hpos' : 0 < count storageAllocationMarkerStart before :=
    (count_pos_of_delimiter (by decide)).mpr hstart
  have hS := hsum storageAllocationMarkerStart (by decide)
  have hSrest : count storageAllocationMarkerStart rest = 0 := by omega
  have htrim : ∃ x' y', trimList isSpace before = x' ++ (storageAllocationMarkerStart ++
      (payload ++ (storageAllocationMarkerEnd ++ y'))) := by
    have hblock : before = x ++ ('[' :: (("bosh_storage_allocation]".toList ++ payload ++
        "[/bosh_storage_allocation".toList) ++ [']']) ++ y') := by
      rw [hbefore, start_eq, end_eq]
      simp
    obtain ⟨x', y'', hx⟩ := trimList_block (f := isSpace) (a := '[') (b := ']')
      (m := "bosh_storage_allocation]".toList ++ payload ++ "[/bosh_storage_allocation".toList)
      (by decide) (by decide) x y'
    refine ⟨x', y'', ?_⟩
    rw [hblock, hx, start_eq, end_eq]
    simp
  obtain ⟨x', y'', htrim⟩ := htrim
  refine ⟨found_iff.mpr ⟨?_, ?_, x', payload, y'', htrim, hdecode⟩, silent_iff.mpr fun d hd => ?_⟩
  · rw [count_delimiter_trim (by decide)]
    omega
  · rw [count_delimiter_trim (by decide)]
    omega
  · simp only [delimiters, List.mem_cons, List.not_mem_nil, or_false] at hd
    rcases hd with rfl | rfl
    · exact hSrest
    · exact hErest

theorem encodable_empty : Encodable ∅ := by
  constructor <;> (intro k v h; cases h)

/-- The key map that is decoded from a JSON object. -/
theorem decodeRaw_object {jsonStr : Text} {ms : Members}
    (h : Lib.Json.parse jsonStr = some (.obj ms)) :
    ∃ raw, decodeRaw jsonStr = some raw ∧ Encodable raw ∧
      ∀ k v, raw.lookup k = some v → ∀ t ∈ v.texts, t <:+: jsonStr := by
  obtain ⟨hwf, hdepth⟩ := Lib.Json.parse_spec h
  have htexts := Lib.Json.parse_texts h
  refine ⟨putAll ∅ ((membersList ms).map fun e => (unquote e.1, e.2)), ?_, ?_, ?_⟩
  · unfold decodeRaw
    rw [h]
  · constructor
    · intro k v hlookup
      obtain ⟨e, he, heq⟩ := List.mem_map.mp (lookup_putAll_empty hlookup)
      cases heq
      exact mem_membersList_wf hwf he
    · intro k v hlookup
      obtain ⟨e, he, heq⟩ := List.mem_map.mp (lookup_putAll_empty hlookup)
      cases heq
      exact (membersList_depth he).trans_le hdepth
  · intro k v hlookup t ht
    obtain ⟨e, he, heq⟩ := List.mem_map.mp (lookup_putAll_empty hlookup)
    cases heq
    exact htexts t (mem_membersList_texts he t ht)

/-- The key map of a description can be written again. -/
theorem encodable_sentinelOf (desc : Text) : Encodable (sentinelOf desc) := by
  unfold sentinelOf parseSentinel
  split
  · exact encodable_empty
  · rename_i before jsonStr rest hfind
    cases hparse : Lib.Json.parse jsonStr with
    | none =>
      rw [decodeRaw, hparse]
      exact encodable_empty
    | some v =>
      cases v with
      | obj ms =>
        obtain ⟨raw, hraw, henc, -⟩ := decodeRaw_object hparse
        rw [hraw]
        exact henc
      | null | bool | num | str | arr =>
        rw [decodeRaw, hparse]
        exact encodable_empty

/-- **A description that carries a marker has it in its text**, and the key map is free of it. -/
theorem Carries.parts {desc : Text} {m : Marker} (h : Carries desc m) :
    ∃ text raw, Parts desc text raw m := by
  by_cases hopen : sentinelOpen <:+: desc
  · obtain ⟨before, jsonStr, rest, ms, hfind, hparse, hend⟩ := h.wellFormed hopen
    obtain ⟨raw, hraw, henc, htexts⟩ := decodeRaw_object hparse
    have hsplit := findSentinel_spec hfind
    have hcut : desc = before ++ '<' :: ("!--BOSH".toList ++ ':' :: (jsonStr ++ '-' ::
        ("->".toList ++ rest))) := hsplit
    obtain ⟨hfound, hsilent⟩ := found_before (hcut ▸ h.found) hend
    have hjson : Silent jsonStr := by
      refine silent_iff.mpr fun d hd => ?_
      have hzero := silent_iff.mp hsilent d hd
      rw [count_delimiter_append hd (by decide), count_delimiter_append hd (by decide)] at hzero
      omega
    refine ⟨trimList isSpace before, raw, ⟨?_, hfound, ?_, henc, ?_⟩⟩
    · unfold parseSentinel
      rw [hfind]
      exact congrArg _ hraw
    · have honce := h.once
      have hshape : sentinelOpen = '<' :: "!--BOSH:".toList := rfl
      rw [hsplit, hshape, count_split (by decide)] at honce
      rw [hshape, ← count_eq_zero, count_trimList (Lib.Text.forall_of_all (by decide))]
      omega
    · intro k v hlookup t ht d hd hin
      exact hjson d hd (hin.trans (htexts k v hlookup t ht))
  · refine ⟨desc, ∅, ⟨?_, h.found, hopen, encodable_empty, ?_⟩⟩
    · unfold parseSentinel
      rw [findSentinel_eq_none hopen]
    · intro k v hlookup
      cases hlookup

/-! ## 5. Replacing one key

`Replaces` says that two key maps differ in one key. -/

/-- The keys of a key map say neither line. -/
def SilentKeys (raw : Raw) : Prop := ∀ k v, raw.lookup k = some v → Silent k

/-- `raw'` has `new` under `key`, and is `raw` otherwise. -/
structure Replaces (raw raw' : Raw) (key : Text) (new : Option Value) : Prop where
  own : raw'.lookup key = new
  rest : ∀ k, k ≠ key → raw'.lookup k = raw.lookup k

section Replace

variable {raw raw' : Raw} {key : Text} {new : Option Value}

theorem replaces_insert (raw : Raw) (key : Text) (v : Value) :
    Replaces raw (raw.insert key v) key (some v) :=
  ⟨AList.lookup_insert _, fun _ hk => AList.lookup_insert_ne hk⟩

theorem replaces_erase (raw : Raw) (key : Text) : Replaces raw (raw.erase key) key none :=
  ⟨AList.lookup_erase _ _, fun _ hk => AList.lookup_erase_ne hk⟩

theorem replaces_merged (raw : Raw) (key : Text) (m : Raw) :
    Replaces raw (mergedRaw raw key m) key (if m.entries.isEmpty then none
      else some (encodeMap m)) := by
  unfold mergedRaw
  split
  · exact replaces_erase raw key
  · refine ⟨AList.lookup_insert _, fun k hk => ?_⟩
    rw [AList.lookup_insert_ne hk, AList.lookup_erase_ne hk]

theorem Replaces.cases (h : Replaces raw raw' key new) {k : Text} {v : Value}
    (hv : raw'.lookup k = some v) : k = key ∧ new = some v ∨ k ≠ key ∧ raw.lookup k = some v := by
  by_cases hk : k = key
  · subst hk
    exact .inl ⟨rfl, h.own ▸ hv⟩
  · exact .inr ⟨hk, h.rest k hk ▸ hv⟩

theorem Replaces.encodable (h : Replaces raw raw' key new) (henc : Encodable raw)
    (hnew : ∀ v, new = some v → v.wf = true ∧ v.depth < Lib.Json.maxDepth) : Encodable raw' := by
  constructor
  · intro k v hv
    rcases h.cases hv with ⟨-, hv⟩ | ⟨-, hv⟩
    · exact (hnew v hv).1
    · exact henc.wf k v hv
  · intro k v hv
    rcases h.cases hv with ⟨-, hv⟩ | ⟨-, hv⟩
    · exact (hnew v hv).2
    · exact henc.depth k v hv

theorem Storable.merged {record : Raw} (h : Storable record) (henc : Encodable raw) (key : Text) :
    Encodable (mergedRaw raw key record) := by
  refine (replaces_merged raw key record).encodable henc fun v hv => ?_
  split at hv
  · cases hv
  · cases hv
    exact h.encode

/-- Replacing one key: what is rendered is silent when the other keys were and the new value is
quiet.  The old value of the key does not matter any more. -/
theorem Replaces.silent (h : Replaces raw raw' key new) (hkey : Silent key)
    (hquiet : ∀ k v, raw.lookup k = some v → Quiet v) :
    raw'.Silent ↔ SilentKeys raw ∧ ∀ v, new = some v → Quiet v := by
  constructor
  · intro hs
    refine ⟨fun k v hv => ?_, fun v hv => (hs key v (h.own.trans hv)).2⟩
    by_cases hk : k = key
    · rw [hk]
      exact hkey
    · exact (hs k v ((h.rest k hk).trans hv)).1
  · rintro ⟨hkeys, hnew⟩ k v hv
    rcases h.cases hv with ⟨rfl, hv⟩ | ⟨-, hv⟩
    · exact ⟨hkey, hnew v hv⟩
    · exact ⟨hkeys k v hv, hquiet k v hv⟩

/-- **Replacing a key keeps the marker and the other keys exactly when nothing that is encoded anew
says one of the marker's lines.**  The text is written as it was, the lines are counted in text and
sentinel, and the values of the other keys are compacted, which changes neither what they say nor
whether they say a line. -/
theorem survives_replace {desc desc' text : Text} {m : Marker} (hp : Parts desc text raw m)
    (h : Replaces raw raw' key new) (hkey : Silent key)
    (hnew : ∀ v, new = some v → v.wf = true ∧ v.depth < Lib.Json.maxDepth)
    (hrender : renderSentinel text raw' = some desc') :
    Survives (some key) desc desc' m ↔ SilentKeys raw ∧ ∀ v, new = some v → Quiet v := by
  have henc := h.encodable hp.encodable hnew
  rw [← h.silent hkey hp.quiet, ← found_render henc hp.found hrender]
  constructor
  · exact fun hs => hs.1
  · refine fun hs => ⟨hs, fun k hk v hv => ?_⟩
    have hne : k ≠ key := fun heq => hk (by rw [heq])
    rw [hp.valueOf, ← h.rest k hne] at hv
    exact valueOf_render henc (findSentinel_eq_none hp.plain) hrender hv

end Replace

/-! ## 6. Each writer

One lemma for each of the five writers of a key, and one for the notes. -/

/-- The texts of a map say neither line. -/
def TextsSilent (m : TextMap Text) : Prop := ∀ k v, m.lookup k = some v → Silent k ∧ Silent v

theorem lookup_ofTexts (m : TextMap Text) (k : Text) (v : Value) :
    (ofTexts m).lookup k = some v ↔ ∃ s, m.lookup k = some s ∧ v = .str s := by
  have hkeys : ((m.entries.map fun e => (e.1, Value.str e.2)).map Prod.fst).Nodup := by
    rw [List.map_map]
    exact m.keys_nodup
  constructor
  · intro h
    obtain ⟨e, he, heq⟩ := List.mem_map.mp (lookup_putAll_empty h)
    cases heq
    exact ⟨e.2, AList.mem_lookup_iff.mpr he, rfl⟩
  · rintro ⟨s, hs, rfl⟩
    exact lookup_putAll_of_mem hkeys (List.mem_map.mpr ⟨⟨k, s⟩, AList.mem_lookup_iff.mp hs, rfl⟩)

theorem quiet_ofTexts {m : TextMap Text} : Quiet (mapValue (ofTexts m)) ↔ TextsSilent m := by
  rw [quiet_mapValue]
  constructor
  · intro h k v hv
    obtain ⟨hk, hs⟩ := h k (.str v) ((lookup_ofTexts m k _).mpr ⟨v, hv, rfl⟩)
    exact ⟨hk, hs v List.mem_cons_self⟩
  · intro h k v hv
    obtain ⟨s, hs, rfl⟩ := (lookup_ofTexts m k v).mp hv
    refine ⟨(h k s hs).1, fun t ht => ?_⟩
    rw [List.mem_singleton.mp ht]
    exact (h k s hs).2

/-- The record that a call reads under its key; nil is empty. -/
def recordOf (elem : Value → Value) (desc key : Text) : Raw :=
  (recorded elem (sentinelOf desc) key).getD ∅

theorem rewrite_eq_some {edit : Option Raw → Option Raw} {desc desc' text : Text} {raw : Raw}
    {m : Marker} (hp : Parts desc text raw m) (h : rewrite edit desc = some desc') :
    ∃ raw', edit (some raw) = some raw' ∧ renderSentinel text raw' = some desc' := by
  unfold rewrite at h
  rw [hp.parse] at h
  exact Option.bind_eq_some_iff.mp h

theorem storable_dropKeys {record : Raw} (h : Storable record) (key : Text)
    (extraKeys : List Text) : Storable (dropKeys record key extraKeys) := by
  unfold dropKeys
  generalize extraKeys.filter (fun k => !k.isEmpty && k != key) = keys
  induction keys generalizing record with
  | nil => exact h
  | cons k keys ih => exact ih (h.erase k)

section Writers

variable {desc desc' text : Text} {raw : Raw} {m : Marker} (hp : Parts desc text raw m)

include hp

/-- Metadata of a disk goes under its CID; the entry of that CID is replaced and all others are
written again. -/
theorem persistMetadata_survives {F : Floats} {diskCID : Text} {metadata : Option DiskMetadata}
    (h : persistMetadata F diskCID metadata desc = some desc') :
    Survives (some sentinelKeyDiskMetadata) desc desc' m ↔
      SilentKeys raw ∧ (Silent diskCID ∧ Quiet (diskMetadataValue metadata)) ∧
        Raw.Silent ((recordOf (readAnyMap F) desc sentinelKeyDiskMetadata).erase diskCID) := by
  obtain ⟨raw', hedit, hrender⟩ := rewrite_eq_some hp h
  obtain ⟨diskMeta, hrec, rfl⟩ := Option.map_eq_some_iff.mp hedit
  have hrecord : recordOf (readAnyMap F) desc sentinelKeyDiskMetadata = diskMeta := by
    rw [recordOf, hp.sentinelOf, hrec]
    rfl
  have hvalue : ((diskMetadataValue metadata).mapStr quote).wf = true ∧
      (diskMetadataValue metadata).depth + 2 ≤ Lib.Json.maxDepth := by
    cases metadata with
    | none => exact ⟨rfl, by decide⟩
    | some md => exact ⟨md.wf, md.depth⟩
  have hstore := ((storable_recorded (reads_readAnyMap F) hp.encodable hrec).insert
    (k := diskCID) hvalue.1 hvalue.2).encode
  rw [survives_replace hp (replaces_insert _ _ _) (by decide) (by rintro v ⟨⟩; exact hstore)
    hrender, hrecord]
  simp only [Option.some.injEq, forall_eq', quiet_encodeMap, silent_insert]

/-- Custom tags of a disk, less the reserved ones, go under its CID. -/
theorem applyCustomTagsToVM_survives {L : Casing} {tags : TextMap Text} {diskCID : Text}
    (h : applyCustomTagsToVM L tags diskCID desc = some desc') :
    Survives (some sentinelKeyDiskTags) desc desc' m ↔
      SilentKeys raw ∧ (Silent diskCID ∧ TextsSilent (dropReservedDiskTags L tags)) ∧
        Raw.Silent ((recordOf readTextMap desc sentinelKeyDiskTags).erase diskCID) := by
  unfold applyCustomTagsToVM at h
  dsimp only at h
  split at h
  · cases h
  · obtain ⟨raw', hedit, hrender⟩ := rewrite_eq_some hp h
    obtain ⟨diskTags, hrec, rfl⟩ := Option.map_eq_some_iff.mp hedit
    have hrecord : recordOf readTextMap desc sentinelKeyDiskTags = diskTags := by
      rw [recordOf, hp.sentinelOf, hrec]
      rfl
    have hvalue := storable_ofTexts (dropReservedDiskTags L tags)
    have hstore := ((storable_recorded reads_readTextMap hp.encodable hrec).insert
      (k := diskCID) hvalue.1 hvalue.2).encode
    rw [survives_replace hp (replaces_insert _ _ _) (by decide) (by rintro v ⟨⟩; exact hstore)
      hrender, hrecord]
    simp only [Option.some.injEq, forall_eq', quiet_encodeMap, silent_insert, quiet_ofTexts]

/-- The new value of a key that holds a map, when the map has entries. -/
theorem survives_merged {key : Text} {record : Raw} (hkey : Silent key) (hstore : Storable record)
    (hrender : renderSentinel text (mergedRaw raw key record) = some desc') :
    Survives (some key) desc desc' m ↔ SilentKeys raw ∧ record.Silent := by
  rw [survives_replace hp (replaces_merged raw key record) hkey ?_ hrender]
  · refine and_congr_right fun _ => ?_
    by_cases hempty : record.entries.isEmpty = true
    · simp only [hempty, if_true]
      exact iff_of_true (fun v hv => by cases hv) (silent_of_empty (List.isEmpty_iff.mp hempty))
    · simp only [hempty, Bool.false_eq_true, if_false, Option.some.injEq, forall_eq',
        quiet_encodeMap]
  · intro v hv
    split at hv
    · cases hv
    · cases hv
      exact hstore.encode

/-- A CID is recorded verbatim under its volume, so both texts have to be silent. -/
theorem updateAttachedDiskCID_survives {bareVolid cidVerbatim : Text}
    (h : updateAttachedDiskCID bareVolid cidVerbatim desc = some desc') :
    Survives (some attachedDisksSentinelKey) desc desc' m ↔
      SilentKeys raw ∧ (Silent bareVolid ∧ Silent cidVerbatim) ∧
        Raw.Silent ((recordOf readText desc attachedDisksSentinelKey).erase bareVolid) := by
  unfold updateAttachedDiskCID at h
  split at h
  · cases h
  · obtain ⟨raw', hedit, hrender⟩ := rewrite_eq_some hp h
    obtain ⟨disks, hrec, rfl⟩ := Option.map_eq_some_iff.mp hedit
    rw [Option.getD_some] at hrec hrender
    have hrecord : recordOf readText desc attachedDisksSentinelKey = disks := by
      rw [recordOf, hp.sentinelOf, hrec]
      rfl
    have hstore := (storable_recorded reads_readText hp.encodable hrec).insert (k := bareVolid)
      (v := .str cidVerbatim) (Lib.Json.rawOk_quote _) (show 0 + 2 ≤ Lib.Json.maxDepth by decide)
    have hquiet : Quiet (.str cidVerbatim) ↔ Silent cidVerbatim := by
      simp [Quiet, Value.texts]
    rw [survives_merged hp (by decide) hstore hrender, hrecord, silent_insert, hquiet]

/-- Options that are not empty after the sanitizing are written under the key; the other keys named
are dropped, and need not be silent. -/
theorem setVMDiskOptOverlay_survives {key : Text} {overlay : TextMap Text} {extraKeys : List Text}
    (h : setVMDiskOptOverlay key overlay extraKeys desc = some desc') :
    Survives (some diskOptOverlaysSentinelKey) desc desc' m ↔
      SilentKeys raw ∧
        ((sanitizeDiskOptOverlay overlay).entries ≠ [] →
          Silent key ∧ TextsSilent (sanitizeDiskOptOverlay overlay)) ∧
        Raw.Silent ((dropKeys (recordOf readTextMap desc diskOptOverlaysSentinelKey) key
          extraKeys).erase key) := by
  unfold setVMDiskOptOverlay at h
  split at h
  · cases h
  · obtain ⟨raw', hedit, hrender⟩ := rewrite_eq_some hp h
    dsimp only at hedit
    rw [Option.getD_some] at hedit
    have hstorable : ∀ record, recorded readTextMap raw diskOptOverlaysSentinelKey = some record →
        Storable (dropKeys record key extraKeys) := fun record hrec =>
      storable_dropKeys (storable_recorded reads_readTextMap hp.encodable hrec) key extraKeys
    rw [recordOf, hp.sentinelOf]
    split at hedit
    · rename_i hempty
      have hnil := List.isEmpty_iff.mp hempty
      have hsame : ((recorded readTextMap raw diskOptOverlaysSentinelKey).map
          (dropKeys · key extraKeys)).getD ∅ =
          dropKeys ((recorded readTextMap raw diskOptOverlaysSentinelKey).getD ∅) key
            extraKeys := by
        cases recorded readTextMap raw diskOptOverlaysSentinelKey with
        | some record => rfl
        | none =>
          change ∅ = dropKeys ∅ key extraKeys
          unfold dropKeys
          generalize extraKeys.filter (fun k => !k.isEmpty && k != key) = keys
          induction keys with
          | nil => rfl
          | cons k keys ih => exact ih
      rw [hsame] at hedit
      cases hedit
      have hstore : Storable ((dropKeys ((recorded readTextMap raw
          diskOptOverlaysSentinelKey).getD ∅) key extraKeys).erase key) := by
        refine Storable.erase ?_ key
        cases hrec : recorded readTextMap raw diskOptOverlaysSentinelKey with
        | some record => exact hstorable record hrec
        | none => exact storable_dropKeys storable_empty key extraKeys
      rw [survives_merged hp (by decide) hstore hrender]
      simp only [hnil, ne_eq, not_true_eq_false, false_imp_iff, true_and]
    · rename_i hne
      have hcons : (sanitizeDiskOptOverlay overlay).entries ≠ [] := mt List.isEmpty_iff.mpr hne
      obtain ⟨overlays, hrec, rfl⟩ := Option.map_eq_some_iff.mp hedit
      obtain ⟨record, hrecord, rfl⟩ := Option.map_eq_some_iff.mp hrec
      have hvalue := storable_ofTexts (sanitizeDiskOptOverlay overlay)
      have hstore := (hstorable record hrecord).insert (k := key) hvalue.1 hvalue.2
      rw [survives_merged hp (by decide) hstore hrender, hrecord, silent_insert, quiet_ofTexts]
      simp only [hcons, ne_eq, not_false_eq_true, true_imp_iff, Option.getD_some]

omit hp in
/-- The value of a membership is flat, and quiet exactly when its texts are silent. -/
theorem poolMembership_value (pm : PoolMembership) :
    (pm.value.wf = true ∧ pm.value.depth < Lib.Json.maxDepth) ∧
      (Quiet pm.value ↔ ∀ e ∈ pm.fields, Silent e.1 ∧ Silent e.2) := by
  have hwf : ∀ l : List (Text × Text),
      ((listMembers (l.map fun e => (e.1, Value.str e.2))).mapStr quote).wf = true := by
    intro l
    induction l with
    | nil => rfl
    | cons e l ih =>
      have hv : ((Value.str e.2).mapStr quote).wf = true := Lib.Json.rawOk_quote e.2
      rw [List.map_cons, listMembers, Members.mapStr, Members.wf, ih, Lib.Json.rawOk_quote, hv]
      rfl
  have hdepth : (listMembers (pm.fields.map fun e => (e.1, Value.str e.2))).depth ≤ 0 := by
    refine listMembers_depth fun e he => ?_
    obtain ⟨e', -, rfl⟩ := List.mem_map.mp he
    exact Nat.le_refl _
  have hmax : (2 : Nat) ≤ Lib.Json.maxDepth := by decide
  refine ⟨⟨hwf pm.fields, ?_⟩, ?_⟩
  · rw [PoolMembership.value, Lib.Json.Value.depth_mapStr, Value.depth]
    omega
  · rw [PoolMembership.value, quiet_quote, Quiet, Value.texts]
    constructor
    · intro h e he
      have hmem : (e.1, Value.str e.2) ∈ pm.fields.map fun e => (e.1, Value.str e.2) :=
        List.mem_map.mpr ⟨e, he, rfl⟩
      exact ⟨h _ (mem_listMembers_texts.mpr ⟨_, hmem, .inl rfl⟩),
        h _ (mem_listMembers_texts.mpr ⟨_, hmem, .inr List.mem_cons_self⟩)⟩
    · intro h s hs
      obtain ⟨e, he, hs⟩ := mem_listMembers_texts.mp hs
      obtain ⟨e', he', rfl⟩ := List.mem_map.mp he
      rcases hs with rfl | hs
      · exact (h e' he').1
      · rw [List.mem_singleton.mp hs]
        exact (h e' he').2

omit hp in
/-- The fields of a membership say neither line when its texts do not. -/
theorem poolMembership_silent (pm : PoolMembership) :
    (∀ e ∈ pm.fields, Silent e.1 ∧ Silent e.2) ↔
      Silent pm.name ∧ Silent pm.layer ∧ Silent pm.director ∧ Silent pm.deployment ∧
        Silent pm.instanceGroup := by
  have hnil : Silent [] := by decide
  have hone : ∀ (k s : Text), Silent k →
      (((!s.isEmpty) = true → Silent k ∧ Silent s) ↔ Silent s) := by
    intro k s hk
    cases s with
    | nil => exact iff_of_true (fun h => by cases h) hnil
    | cons c s => simp [hk]
  unfold PoolMembership.fields
  simp only [List.mem_filter, List.mem_cons, List.not_mem_nil, or_false, and_imp, forall_eq_or_imp,
    forall_eq]
  rw [hone _ _ (by decide), hone _ _ (by decide), hone _ _ (by decide), hone _ _ (by decide),
    hone _ _ (by decide)]

/-- A membership is written as a whole, or removed. -/
theorem setPoolMembership_survives {pm : Option PoolMembership}
    (h : setPoolMembershipOnDescription pm desc = some desc') :
    Survives (some poolMembershipSentinelKey) desc desc' m ↔
      SilentKeys raw ∧ ∀ p, pm = some p → Silent p.name ∧ Silent p.layer ∧ Silent p.director ∧
        Silent p.deployment ∧ Silent p.instanceGroup := by
  obtain ⟨raw', hedit, hrender⟩ := rewrite_eq_some hp h
  cases pm with
  | none =>
    cases hedit
    rw [survives_replace hp (replaces_erase _ _) (by decide) (by intro v hv; cases hv) hrender]
    refine and_congr_right fun _ => iff_of_true ?_ ?_
    · intro v hv
      cases hv
    · intro p hpm
      cases hpm
  | some pm =>
    cases hedit
    obtain ⟨hvalue, hquiet⟩ := poolMembership_value pm
    rw [survives_replace hp (replaces_insert _ _ _) (by decide) (by rintro v ⟨⟩; exact hvalue)
      hrender]
    simp only [Option.some.injEq, forall_eq', hquiet, poolMembership_silent]

/-- **Notes keep the marker only by saying it themselves.** -/
theorem annotateNotes_survives {stamped agrees readable : Bool} {notes : Text}
    (h : annotateNotes stamped agrees readable notes desc = some desc') :
    Survives none desc desc' m ↔
      if readable ∧ raw.entries ≠ [] then
        parseStorageAllocationMarker (trimList isSpace notes) = .found m ∧ SilentKeys raw ∧
          (findSentinel (trimList isSpace notes) = none ∨
            ∀ k v, raw.lookup k = some v → SameValue v (trimList isSpace notes) k)
      else
        parseStorageAllocationMarker notes = .found m ∧
          ∀ k v, raw.lookup k = some v → SameValue v notes k := by
  have hplain : ∀ text', Survives none desc text' m ↔
      parseStorageAllocationMarker text' = .found m ∧
      ∀ k v, raw.lookup k = some v → SameValue v text' k := by
    intro text'
    refine and_congr_right fun _ => ?_
    constructor
    · exact fun hall k v hv => hall k (by simp) v (by rw [hp.valueOf, hv])
    · exact fun hall k _ v hv => hall k v (by rw [← hp.valueOf, hv])
  unfold annotateNotes at h
  rw [hp.parse] at h
  split at h
  · cases h
  · cases readable with
    | false =>
      cases h
      rw [if_neg (by simp), hplain]
    | true =>
      simp only [if_true] at h
      by_cases hempty : raw.entries.isEmpty = true
      · rw [if_pos hempty] at h
        cases h
        rw [if_neg (by simp [List.isEmpty_iff.mp hempty]), hplain]
      · have hne : raw.entries ≠ [] := mt List.isEmpty_iff.mpr hempty
        obtain ⟨d, hrender⟩ := hp.encodable.renders (trimList isSpace notes)
        rw [if_neg hempty, hrender, Option.getD_some] at h
        cases h
        rw [if_pos ⟨rfl, hne⟩, hplain]
        constructor
        · rintro ⟨hfound, hsame⟩
          obtain ⟨hsilent, htext⟩ := found_render_imp hp.encodable hne hrender hfound
          refine ⟨htext, fun k v hv => (hsilent k v hv).1, ?_⟩
          cases hfind : findSentinel (trimList isSpace notes) with
          | none => exact .inl rfl
          | some r =>
            refine .inr fun k v hv => ?_
            obtain ⟨v', hv', hsaid⟩ := hsame k v hv
            rw [valueOf_render_of_some (by rw [hfind]; rfl) hrender] at hv'
            exact ⟨v', hv', hsaid⟩
        · rintro ⟨htext, hkeys, hcase⟩
          have hsilent : raw.Silent := fun k v hv => ⟨hkeys k v hv, hp.quiet k v hv⟩
          refine ⟨(found_render hp.encodable htext hrender).mpr hsilent, fun k v hv => ?_⟩
          cases hfind : findSentinel (trimList isSpace notes) with
          | none => exact valueOf_render hp.encodable hfind hrender hv
          | some r =>
            rcases hcase with hnone | hsame
            · rw [hnone] at hfind
              cases hfind
            · obtain ⟨v', hv', hsaid⟩ := hsame k v hv
              rw [← valueOf_render_of_some (by rw [hfind]; rfl) hrender] at hv'
              exact ⟨v', hv', hsaid⟩

end Writers

/-! ## 7. Taking the marker out and writing it again

`set_vm_metadata` is the sibling that preserves the marker, by formatting it anew in front of the
text. -/

theorem format_eq_some {m : Marker} {t : Text} (h : formatStorageAllocationMarker m = some t) :
    validateStorageAllocationMarker m = true ∧
      t = '\n' :: (storageAllocationMarkerStart ++ ('\n' :: (print (markerValue m) ++ ['\n']) ++
        (storageAllocationMarkerEnd ++ ['\n']))) := by
  unfold formatStorageAllocationMarker at h
  split at h
  · rename_i hvalid
    exact ⟨hvalid, (Option.some.inj h).symm⟩
  · cases h

/-- **A marker that is written in front of a text without one is found**, unless its namespace says
the first line. -/
theorem found_format {m : Marker} {t description : Text}
    (h : formatStorageAllocationMarker m = some t) (hsilent : Silent description) :
    parseStorageAllocationMarker (t ++ description) = .found m ↔
      ¬storageAllocationMarkerStart <:+: m.nameSpace := by
  obtain ⟨hvalid, rfl⟩ := format_eq_some h
  rw [← silent_markerValue hvalid, silent_iff]
  have hcount : ∀ d ∈ delimiters, count d ('\n' :: (storageAllocationMarkerStart ++
      ('\n' :: (print (markerValue m) ++ ['\n']) ++ (storageAllocationMarkerEnd ++ ['\n']))) ++
        description) = 1 + count d (print (markerValue m)) := by
    intro d hd
    have hcut :
        '\n' :: (storageAllocationMarkerStart ++ ('\n' :: (print (markerValue m) ++ ['\n']) ++
        (storageAllocationMarkerEnd ++ ['\n']))) ++ description =
        [] ++ '\n' :: (storageAllocationMarkerStart ++ '\n' :: (print (markerValue m) ++
          '\n' :: (storageAllocationMarkerEnd ++ '\n' :: description))) := by simp
    have hlines : ∀ d ∈ delimiters,
        count d storageAllocationMarkerStart + count d storageAllocationMarkerEnd = 1 := by decide
    have hzero := silent_iff.mp hsilent d hd
    have hone := hlines d hd
    have hnil : ∀ d ∈ delimiters, count d [] = 0 := by decide
    rw [hcut, count_delimiter_append hd (by decide), count_delimiter_append hd (by decide),
      count_delimiter_append hd (by decide), count_delimiter_append hd (by decide), hzero,
      hnil d hd]
    omega
  constructor
  · intro hfound d hd
    have hone := count_of_found hfound d hd
    rw [hcount d hd] at hone
    omega
  · intro hzero
    refine found_iff.mpr ⟨?_, ?_, ['\n'], _, '\n' :: description, ?_, decodeMarker_format hvalid⟩
    · rw [hcount _ (by decide), hzero _ (by decide)]
    · rw [hcount _ (by decide), hzero _ (by decide)]
    · simp

/-- A text without a marker has neither of its lines. -/
theorem silent_of_absent {t : Text} (h : parseStorageAllocationMarker t = .absent) : Silent t := by
  unfold parseStorageAllocationMarker at h
  dsimp only at h
  split at h
  · rename_i hzero
    refine silent_iff.mpr fun d hd => ?_
    simp only [delimiters, List.mem_cons, List.not_mem_nil, or_false] at hd
    rcases hd with rfl | rfl
    · exact hzero.1
    · exact hzero.2
  · split at h
    · cases h
    · split at h
      · cases h
      · split at h <;> cases h

/-- A written marker has no tag in it. -/
theorem lt_notMem_format {m : Marker} {t : Text} (h : formatStorageAllocationMarker m = some t) :
    '<' ∉ t := by
  obtain ⟨hvalid, rfl⟩ := format_eq_some h
  have hquote : ∀ s : Text, '<' ∉ quote s := by
    intro s hs
    have hclean := Lib.Json.escapeHtml_clean (quote s)
    rw [Lib.Json.escapeHtml_quote] at hclean
    exact absurd (List.all_eq_true.mp hclean _ hs) (by decide)
  have hkey : ∀ f : MarkerField, '<' ∉ f.key := by
    intro f
    cases f <;> decide
  have htexts : ∀ t ∈ (markerValue m).texts, '<' ∉ t := by
    simp only [markerValue, Value.texts, Members.texts, List.mem_cons, List.not_mem_nil, or_false,
      List.nil_append, List.singleton_append, forall_eq_or_imp, forall_eq]
    exact ⟨hkey _, hkey _, hquote _, hkey _, hquote _, hkey _, hquote _, hkey _, hquote _⟩
  have hprint : '<' ∉ print (markerValue m) := by
    intro hmem
    obtain ⟨a, b, hab⟩ := List.append_of_mem hmem
    have hone : ['<'] <:+: print (markerValue m) := ⟨a, b, by rw [hab]; simp⟩
    rw [Lib.Json.infix_print List.mem_cons_self (by decide) (by decide)
      (markerValue_wf (validMarker hvalid).version)] at hone
    obtain ⟨t, ht, hone⟩ := hone
    exact htexts t ht (hone.subset List.mem_cons_self)
  have hlines : ∀ d ∈ delimiters, '<' ∉ d := by decide
  simp only [List.mem_cons, List.mem_append, List.not_mem_nil, or_false, hprint,
    hlines _ (show storageAllocationMarkerStart ∈ delimiters by decide),
    hlines _ (show storageAllocationMarkerEnd ∈ delimiters by decide), false_or]
  decide

/-- The marker that is written has no sentinel in it. -/
theorem findSentinel_format {m : Marker} {t : Text} (h : formatStorageAllocationMarker m = some t) :
    ∃ front, t = front ++ ['\n'] ∧ findSentinel front = none := by
  have hlt := lt_notMem_format h
  obtain ⟨-, rfl⟩ := format_eq_some h
  refine ⟨'\n' :: (storageAllocationMarkerStart ++ ('\n' :: (print (markerValue m) ++ ['\n']) ++
    storageAllocationMarkerEnd)), by simp, findSentinel_eq_none fun hin => hlt ?_⟩
  have hmem : '<' ∈ '\n' :: (storageAllocationMarkerStart ++ ('\n' :: (print (markerValue m) ++
    ['\n']) ++ storageAllocationMarkerEnd)) := hin.subset (by decide)
  refine List.Sublist.subset ?_ hmem
  exact (((List.sublist_append_left _ _).append_left _).append_left _).cons_cons _

theorem valueOf_behind {front rest : Text} (h : findSentinel front = none) (k : Text) :
    valueOf (front ++ '\n' :: rest) k = valueOf rest k := by
  unfold valueOf parseSentinel
  rw [findSentinel_newline, h]
  cases findSentinel rest with
  | none => rfl
  | some r => rfl

theorem not_infix_trim {t : Text} (h : ¬sentinelOpen <:+: t) :
    ¬sentinelOpen <:+: trimList isSpace t := by
  have hshape : sentinelOpen = '<' :: "!--BOSH:".toList := rfl
  rw [hshape, ← count_eq_zero] at h ⊢
  rw [count_trimList (Lib.Text.forall_of_all (by decide)), h]

/-- **`set_vm_metadata` keeps the marker unless its namespace says the first line.** -/
theorem setVMMetadata_survives {desc desc' text : Text} {raw : Raw} {m : Marker}
    (hp : Parts desc text raw m) (hfound : parseStorageAllocationMarker desc = .found m)
    {metadata : TextMap (Option Text)} (h : setVMMetadataDescription metadata desc = some desc') :
    Survives none desc desc' m ↔ ¬storageAllocationMarkerStart <:+: m.nameSpace := by
  unfold setVMMetadataDescription at h
  rw [hp.parse] at h
  dsimp only at h
  rw [Option.getD_some] at h
  split at h
  · cases h
  · rename_i hopen
    obtain ⟨merged, hmerged, hpreserve⟩ := Option.bind_eq_some_iff.mp h
    unfold preserveVMAllocationMarker at hpreserve
    split at hpreserve
    swap
    · cases hpreserve
    rename_i habsent
    rw [hfound] at hpreserve
    dsimp only at hpreserve
    split at hpreserve
    · cases hpreserve
    · split at hpreserve
      · cases hpreserve
      · obtain ⟨t, hformat, rfl⟩ := Option.map_eq_some_iff.mp hpreserve
        rw [← found_format hformat (silent_of_absent habsent)]
        refine ⟨fun hs => hs.1, fun hs => ⟨hs, fun k _ v hv => ?_⟩⟩
        rw [hp.valueOf] at hv
        obtain ⟨front, rfl, hfront⟩ := findSentinel_format hformat
        rw [if_neg (mt List.isEmpty_iff.mp (entries_ne_nil hv))] at hmerged
        obtain ⟨v', hv', hsaid⟩ := valueOf_render hp.encodable
          (findSentinel_eq_none (not_infix_trim hopen)) hmerged hv
        refine ⟨v', ?_, hsaid⟩
        rw [List.append_assoc, List.singleton_append, valueOf_behind hfront, hv']

/-! ## 8. When the marker survives -/

section Survival

variable (L : Casing) (F : Floats)

/-- What a call must be given for the marker to survive it. -/
def Writer.Spares (desc : Text) (m : Marker) : Writer → Prop
  | .setVMMetadata _ _ => ¬storageAllocationMarkerStart <:+: m.nameSpace
  | .persistMetadata diskCID metadata =>
    SilentKeys (sentinelOf desc) ∧ (Silent diskCID ∧ Quiet (diskMetadataValue metadata)) ∧
      Raw.Silent ((recordOf (readAnyMap F) desc sentinelKeyDiskMetadata).erase diskCID)
  | .applyCustomTagsToVM tags diskCID =>
    SilentKeys (sentinelOf desc) ∧ (Silent diskCID ∧ TextsSilent (dropReservedDiskTags L tags)) ∧
      Raw.Silent ((recordOf readTextMap desc sentinelKeyDiskTags).erase diskCID)
  | .annotateNotes _ _ readable notes =>
    if readable ∧ (sentinelOf desc).entries ≠ [] then
      parseStorageAllocationMarker (trimList isSpace notes) = .found m ∧
        SilentKeys (sentinelOf desc) ∧
        (findSentinel (trimList isSpace notes) = none ∨
          ∀ k v, (sentinelOf desc).lookup k = some v → SameValue v (trimList isSpace notes) k)
    else
      parseStorageAllocationMarker notes = .found m ∧
        ∀ k v, (sentinelOf desc).lookup k = some v → SameValue v notes k
  | .updateAttachedDiskCID bareVolid cidVerbatim =>
    SilentKeys (sentinelOf desc) ∧ (Silent bareVolid ∧ Silent cidVerbatim) ∧
      Raw.Silent ((recordOf readText desc attachedDisksSentinelKey).erase bareVolid)
  | .setVMDiskOptOverlay key overlay extraKeys =>
    SilentKeys (sentinelOf desc) ∧
      ((sanitizeDiskOptOverlay overlay).entries ≠ [] →
        Silent key ∧ TextsSilent (sanitizeDiskOptOverlay overlay)) ∧
      Raw.Silent ((dropKeys (recordOf readTextMap desc diskOptOverlaysSentinelKey) key
        extraKeys).erase key)
  | .setPoolMembership pm =>
    SilentKeys (sentinelOf desc) ∧ ∀ p, pm = some p → Silent p.name ∧ Silent p.layer ∧
      Silent p.director ∧ Silent p.deployment ∧ Silent p.instanceGroup

/-- **When the marker and the other keys survive a write**, for every description that carries a
marker, every writer and every argument it accepts.  By the cases of the writers: five replace a
key, one writes the marker anew, and the notes replace the text that the marker is in. -/
theorem marker_survives_iff {desc desc' : Text} {m : Marker} (hd : Carries desc m) (w : Writer)
    (hw : w.run L F desc = some desc') :
    Survives w.owns desc desc' m ↔ w.Spares L F desc m := by
  obtain ⟨text, raw, hp⟩ := hd.parts
  cases w with
  | setVMMetadata passed metadata =>
    cases passed with
    | false => cases hw
    | true => exact setVMMetadata_survives hp hd.found hw
  | persistMetadata diskCID metadata =>
    rw [Writer.owns, persistMetadata_survives hp hw, Writer.Spares, hp.sentinelOf]
  | applyCustomTagsToVM tags diskCID =>
    rw [Writer.owns, applyCustomTagsToVM_survives hp hw, Writer.Spares, hp.sentinelOf]
  | annotateNotes stamped agrees readable notes =>
    rw [Writer.owns, annotateNotes_survives hp hw, Writer.Spares, hp.sentinelOf]
  | updateAttachedDiskCID bareVolid cidVerbatim =>
    rw [Writer.owns, updateAttachedDiskCID_survives hp hw, Writer.Spares, hp.sentinelOf]
  | setVMDiskOptOverlay key overlay extraKeys =>
    rw [Writer.owns, setVMDiskOptOverlay_survives hp hw, Writer.Spares, hp.sentinelOf]
  | setPoolMembership pm =>
    rw [Writer.owns, setPoolMembership_survives hp hw, Writer.Spares, hp.sentinelOf]

end Survival

/-- A marker by itself is a description that carries it. -/
theorem carries_format {m : Marker} {t : Text} (h : formatStorageAllocationMarker m = some t)
    (hns : ¬storageAllocationMarkerStart <:+: m.nameSpace) : Carries t m := by
  have hopen : ¬sentinelOpen <:+: t := fun hin =>
    lt_notMem_format h (hin.subset (by decide))
  have hfound : parseStorageAllocationMarker (t ++ []) = .found m :=
    (found_format h (by decide)).mpr hns
  rw [List.append_nil] at hfound
  refine ⟨hfound, ?_, fun hin => absurd hin hopen⟩
  have hshape : sentinelOpen = '<' :: "!--BOSH:".toList := rfl
  rw [hshape, count_eq_zero.mpr (hshape ▸ hopen)]
  exact Nat.zero_le 1

/-- A sentinel behind a description without one leaves it a description that carries its marker. -/
theorem Carries.line {t : Text} {m : Marker} {raw : Raw} (h : Carries t m)
    (hplain : ¬sentinelOpen <:+: t) (henc : Encodable raw) (hsilent : raw.Silent) :
    Carries (t ++ '\n' :: sentinelText raw) m := by
  refine ⟨?_, ?_, fun _ => ?_⟩
  · exact (found_append_iff h.found).mpr ((silent_sentinelText henc).mpr hsilent)
  · have hshape : sentinelOpen = '<' :: "!--BOSH:".toList := rfl
    have hfront : count ('<' :: "!--BOSH:".toList) t = 0 := count_eq_zero.mpr (hshape ▸ hplain)
    have hbehind : count ('<' :: "!--BOSH:".toList) (print (sentinelValue raw) ++ sentinelClose) =
        0 := by
      refine count_eq_zero.mpr fun hin => ?_
      rcases List.mem_append.mp (hin.subset List.mem_cons_self) with hlt | hlt
      · exact lt_notMem_print henc.value_wf hlt
      · exact absurd hlt (by decide)
    have hself := count_split (h := '<') (t := "!--BOSH:".toList) (by decide) []
      (print (sentinelValue raw) ++ sentinelClose)
    rw [hbehind] at hself
    rw [hshape, count_append_notMem (by decide), hfront, sentinelText_head]
    exact (Nat.zero_add _).le.trans hself.le
  · refine ⟨t ++ ['\n'], print (sentinelValue raw), [], _, ?_,
      Lib.Json.parse_print henc.value_wf henc.value_depth, ?_⟩
    · rw [findSentinel_newline, findSentinel_eq_none hplain,
        findSentinel_sentinelText henc.value_wf]
      rfl
    · obtain ⟨-, -, x, payload, y, hsplit, -⟩ := found_iff.mp h.found
      exact ⟨x ++ (storageAllocationMarkerStart ++ payload), y ++ ['\n'], by rw [hsplit]; simp⟩

def sampleMarker : Marker :=
  ⟨1, "prod".toList, "6f9619ff-8b86-4d01-b42d-00cf4fc964ff".toList,
    "9f86d081884c7d659a2feaa0c55ad015a3bf4f1b2b0b822cd15d6c15b0f00a08".toList, "vm".toList⟩

def sampleDescription : Text := (formatStorageAllocationMarker sampleMarker).getD []

theorem format_sample : formatStorageAllocationMarker sampleMarker = some sampleDescription := by
  have hvalid : validateStorageAllocationMarker sampleMarker = true := by decide
  rw [sampleDescription, formatStorageAllocationMarker, if_pos hvalid, Option.getD_some]

theorem carries_sample : Carries sampleDescription sampleMarker :=
  carries_format format_sample (by decide)

theorem plain_sample : ¬sentinelOpen <:+: sampleDescription := fun hin =>
  lt_notMem_format format_sample (hin.subset (by decide))

theorem parse_sample : parseSentinel sampleDescription = (sampleDescription, some ∅) := by
  unfold parseSentinel
  rw [findSentinel_eq_none plain_sample]

/-- A key of somebody else. -/
def otherKeys : Raw := AList.singleton "other".toList (.arr (.cons (.bool true) .nil))

/-- The marker, and behind it a sentinel with the other key. -/
def keyedDescription : Text := sampleDescription ++ '\n' :: sentinelText otherKeys

theorem otherKeys_lookup {k : Text} {v : Value} (h : otherKeys.lookup k = some v) :
    k = "other".toList ∧ v = .arr (.cons (.bool true) .nil) := by
  have hmem := List.mem_singleton.mp (AList.mem_lookup_iff.mp h)
  cases hmem
  exact ⟨rfl, rfl⟩

theorem otherKeys_encodable : Encodable otherKeys := by
  constructor
  · intro k v h
    rw [(otherKeys_lookup h).2]
    rfl
  · intro k v h
    rw [(otherKeys_lookup h).2]
    decide

theorem carries_keyed : Carries keyedDescription sampleMarker := by
  refine carries_sample.line plain_sample otherKeys_encodable fun k v h => ?_
  obtain ⟨rfl, rfl⟩ := otherKeys_lookup h
  exact ⟨by decide, by decide⟩

/-- The key map of that description. -/
theorem keyed_values (k : Text) : valueOf keyedDescription k = otherKeys.lookup k := by
  rw [keyedDescription, valueOf_line otherKeys_encodable (findSentinel_eq_none plain_sample)]
  cases h : otherKeys.lookup k with
  | none => rfl
  | some v =>
    rw [(otherKeys_lookup h).2]
    rfl

/-- Integers that a float holds exactly, and nothing else. -/
def smallIntegers : Floats where
  format lit := if Lib.Json.isNumber lit && lit.all Char.isDigit && decide (lit.length ≤ 15)
    then some lit else none
  number := by
    intro lit out h
    split at h
    · rename_i hlit
      cases h
      simp only [Bool.and_eq_true] at hlit
      exact hlit.1.1
    · cases h

theorem updateAttachedDiskCID_run {desc text bareVolid cidVerbatim : Text} {raw disks : Raw}
    (hparse : parseSentinel desc = (text, some raw))
    (hrec : recorded readText raw attachedDisksSentinelKey = some disks) (hvolid : bareVolid ≠ [])
    (hcid : cidVerbatim ≠ []) : updateAttachedDiskCID bareVolid cidVerbatim desc =
      renderSentinel text (mergedRaw raw attachedDisksSentinelKey
        (disks.insert bareVolid (.str cidVerbatim))) := by
  unfold updateAttachedDiskCID rewrite
  rw [if_neg (by simp [hvolid, hcid]), hparse]
  simp only [Option.getD_some, hrec, Option.map_some, Option.bind_some]

/-- A description with a marker and a key of somebody else, and what recording an attached disk
makes of it. -/
theorem marker_survives_sample : ∃ desc',
    (Writer.updateAttachedDiskCID "local-lvm:vm-100-disk-0".toList "pvd-1".toList).run
      asciiCasing smallIntegers keyedDescription = some desc' ∧
    valueOf keyedDescription "other".toList = some (.arr (.cons (.bool true) .nil)) ∧
    SameValue (.arr (.cons (.bool true) .nil)) desc' "other".toList ∧
    Survives (some attachedDisksSentinelKey) keyedDescription desc' sampleMarker := by
  obtain ⟨text, raw, hp⟩ := carries_keyed.parts
  have hlookup : ∀ k, raw.lookup k = otherKeys.lookup k := by
    intro k
    rw [← hp.valueOf k, keyed_values k]
  have hrec : recorded readText raw attachedDisksSentinelKey = some ∅ := by
    rw [recorded, hlookup]
    rfl
  have hstore : Storable (AList.insert "local-lvm:vm-100-disk-0".toList (.str "pvd-1".toList) ∅) :=
    storable_empty.insert (Lib.Json.rawOk_quote _) (show 0 + 2 ≤ Lib.Json.maxDepth by decide)
  obtain ⟨desc', hrender⟩ := (hstore.merged hp.encodable attachedDisksSentinelKey).renders text
  have hrun : (Writer.updateAttachedDiskCID "local-lvm:vm-100-disk-0".toList "pvd-1".toList).run
      asciiCasing smallIntegers keyedDescription = some desc' := by
    rw [Writer.run, updateAttachedDiskCID_run hp.parse hrec (by decide) (by decide)]
    exact hrender
  have hspares : (Writer.updateAttachedDiskCID "local-lvm:vm-100-disk-0".toList
      "pvd-1".toList).Spares asciiCasing smallIntegers keyedDescription sampleMarker := by
    refine ⟨fun k v hv => ?_, by decide, ?_⟩
    · rw [hp.sentinelOf, hlookup] at hv
      rw [(otherKeys_lookup hv).1]
      decide
    · rw [recordOf, hp.sentinelOf, hrec]
      intro k v hv
      cases hv
  have hsurvives := (marker_survives_iff asciiCasing smallIntegers carries_keyed _ hrun).mpr hspares
  have hother : valueOf keyedDescription "other".toList =
      some (.arr (.cons (.bool true) .nil)) := by
    rw [keyed_values]
    rfl
  exact ⟨desc', hrun, hother, hsurvives.2 _ (by decide) _ hother, hsurvives⟩

theorem annotateNotes_run {desc text notes : Text} {raw : Raw} {agrees : Bool}
    (hparse : parseSentinel desc = (text, some raw)) (hempty : raw.entries = []) :
    annotateNotes false agrees true notes desc = some notes := by
  unfold annotateNotes
  rw [hparse]
  simp [hempty]

/-- **Notes lose the marker.** -/
theorem notes_lose_marker :
    Carries sampleDescription sampleMarker ∧
    (Writer.annotateNotes false true true "created by bosh".toList).run
      asciiCasing smallIntegers sampleDescription =
        some "created by bosh".toList ∧
    ¬Survives (Writer.annotateNotes false true true "created by bosh".toList).owns sampleDescription
      "created by bosh".toList sampleMarker := by
  refine ⟨carries_sample, ?_, fun hs => ?_⟩
  · rw [Writer.run, annotateNotes_run parse_sample rfl]
  · have habsent : parseStorageAllocationMarker "created by bosh".toList = .absent := by decide
    have hfound := hs.1
    rw [habsent] at hfound
    cases hfound

end Vm
