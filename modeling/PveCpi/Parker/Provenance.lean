/-
# Writing the record of a parked disk

`projectParkerProvenance` of `pve/parker.go`: the description that a write of one record makes, with
the records left out that nothing needs any more.  A record is left out when no bus slot and no
unused entry of the parker names its volume, it is older than the grace window, and the caller did
not ask to hold it.  A description over the budget is refused.

`project_keeps` says what can be read from the description after the write.  The text is read
without the space around it (`ParseSentinel` trims what stands before a sentinel, and now there is
one), everything else as it was, up to the record that was written and those that were left out.

Collecting is what makes the statement delicate.  A record that nothing needs is left out so that
the description does not grow for ever, and "nothing needs it" is decided from three sources: the
config of the parker, the age of the record, and the caller.  The theorem says it the other way
round: a record that has one of the three reasons to stay is read back.

The text in front of the sentinel is read back trimmed, because that is how `ParseSentinel` reads
any text with a sentinel behind it; before the first record there was none, and then white space was
part of it.
-/
import PveCpi.Parker.Records

namespace Parker

open Vm
  (Text TextMap Raw byteLen parseSentinel renderSentinel mergedRaw encodeMap findSentinel Encodable)
open Lib.Json (Value quote escapeHtml)
open Lib.Text (isSpace trimList)
open Lib.Assoc

/-! ## 1. A VM's config

Keys and values as PVE returns them; a value may be a number. -/

/-- A value of a config; a number is as it is shown without exponent. -/
inductive ConfigValue
  | text (t : Text)
  | number (shown : Text)
  | flag (b : Bool)
  | other

abbrev PveConfig := TextMap ConfigValue

/-- `ConfigStringValue`. -/
def configStringValue : ConfigValue → Option Text
  | .text t => some t
  | .number shown => some shown
  | .flag true => some "1".toList
  | .flag false => some "0".toList
  | .other => none

/-- `ConfigString`. -/
def configString (cfg : PveConfig) (key : Text) : Option Text :=
  (cfg.lookup key).bind configStringValue

def descriptionKey : Text := "description".toList

/-- `DescriptionFromConfig`. -/
def descriptionFromConfig (cfg : PveConfig) : Text := (configString cfg descriptionKey).getD []

/-- The name, followed by digits. -/
def isNumbered (name key : Text) : Bool :=
  name.isPrefixOf key && Lib.Json.isDigits (key.drop name.length)

/-- `diskKeyPattern`. -/
def isBusKey (key : Text) : Bool :=
  isNumbered "scsi".toList key || isNumbered "virtio".toList key || isNumbered "ide".toList key ||
    isNumbered "sata".toList key

/-- `unusedDiskKeyPattern`. -/
def isUnusedKey (key : Text) : Bool := isNumbered "unused".toList key

/-- `bareDriveVolid`. -/
def bareDriveVolid (optstr : Text) : Text := optstr.takeWhile (· != ',')

/-- The text that a bus slot holds; only a string counts. -/
def busText (key : Text) (v : ConfigValue) : Option Text :=
  match v with
  | .text t => if isBusKey key && !t.isEmpty then some t else none
  | _ => none

/-- `qemu.ParseDisks`. -/
def parseDisks (cfg : PveConfig) : List (Text × Text) :=
  cfg.entries.filterMap fun e => (busText e.1 e.2).map fun t => (e.1, t)

/-- The volume that an unused entry names. -/
def unusedVolid (key : Text) (v : ConfigValue) : Option Text :=
  if isUnusedKey key then
    match configStringValue v with
    | some t => if t.isEmpty then none else some (bareDriveVolid t)
    | none => none
  else none

/-- `FindUnusedDiskEntries`. -/
def findUnusedDiskEntries (cfg : PveConfig) : List (Text × Text) :=
  cfg.entries.filterMap fun e => (unusedVolid e.1 e.2).map fun t => (e.1, t)

/-- `parkerReferencedVolids`. -/
def parkerReferencedVolids (cfg : PveConfig) : List Text :=
  (((parseDisks cfg).map fun e => bareDriveVolid e.2) ++
    (findUnusedDiskEntries cfg).map Prod.snd).filter fun v => !v.isEmpty

/-- A bus slot or an unused entry names the volume. -/
def Names (cfg : PveConfig) (volid : Text) : Prop :=
  volid ≠ [] ∧ ∃ key v, cfg.lookup key = some v ∧
    ((∃ t, busText key v = some t ∧ bareDriveVolid t = volid) ∨ unusedVolid key v = some volid)

/-- What is read from the entries of a config is read from one of them. -/
theorem mem_entries_read (cfg : PveConfig) (f : Text → ConfigValue → Option Text) (g : Text → Text)
    (volid : Text) :
    (volid ∈ ((cfg.entries.filterMap fun e => (f e.1 e.2).map fun t => (e.1, t)).map
      fun e => g e.2)) ↔
      ∃ key v, cfg.lookup key = some v ∧ ∃ t, f key v = some t ∧ g t = volid := by
  rw [List.mem_map]
  constructor
  · rintro ⟨e, he, rfl⟩
    obtain ⟨⟨key, v⟩, hmem, hv⟩ := List.mem_filterMap.mp he
    obtain ⟨t, ht, rfl⟩ := Option.map_eq_some_iff.mp hv
    exact ⟨key, v, AList.mem_lookup_iff.mpr hmem, t, ht, rfl⟩
  · rintro ⟨key, v, hlookup, t, ht, rfl⟩
    refine ⟨(key, t), List.mem_filterMap.mpr ⟨⟨key, v⟩, AList.mem_lookup_iff.mp hlookup, ?_⟩, rfl⟩
    rw [ht]
    rfl

theorem mem_referenced {cfg : PveConfig} {volid : Text} :
    volid ∈ parkerReferencedVolids cfg ↔ Names cfg volid := by
  have hbus := mem_entries_read cfg busText bareDriveVolid volid
  have hunused := mem_entries_read cfg unusedVolid id volid
  simp only [id_eq, exists_eq_right] at hunused
  have hne : (!volid.isEmpty) = true ↔ volid ≠ [] := by simp
  rw [parkerReferencedVolids, List.mem_filter, List.mem_append, parseDisks, hbus,
    findUnusedDiskEntries, hne, Names, and_comm]
  refine and_congr_right fun _ => (or_congr_right hunused).trans ?_
  simp only [← exists_or, ← and_or_left]

/-! ## 2. The sentinel of a parker -/

def parkedDisksKey : Text := "bosh_parked_disks".toList

/-- What `parseParkerSentinel` returns: the text, the records (nil is none) and the other keys. -/
structure ParkerSentinel where
  nonBOSH : Text
  disks : Option (TextMap ParkerProvEntry)
  rawOther : Raw

/-- `parseParkerSentinel`. -/
def parseParkerSentinel (desc : Text) : ParkerSentinel where
  nonBOSH := (parseSentinel desc).1
  disks :=
    match (Vm.sentinelOf desc).lookup parkedDisksKey with
    | none => some ∅
    | some rawDisks => readDisks rawDisks
  rawOther := (Vm.sentinelOf desc).erase parkedDisksKey

/-- The records of a parker; none when the map is nil. -/
def parkedDisks (cfg : PveConfig) : TextMap ParkerProvEntry :=
  (parseParkerSentinel (descriptionFromConfig cfg)).disks.getD ∅

/-- `renderParkerSentinel`. -/
def renderParkerSentinel (nonBOSH : Text) (disks : TextMap ParkerProvEntry) (rawOther : Raw) :
    Option Text :=
  renderSentinel nonBOSH (mergedRaw rawOther parkedDisksKey (ofDisks disks))

/-- A description has the text, the records and the other keys given: the records say the same, and
so do the values under the other keys. -/
structure Holds (p : ParkerSentinel) (nonBOSH : Text) (disks : TextMap ParkerProvEntry)
    (rawOther : Raw) : Prop where
  text : p.nonBOSH = nonBOSH
  records : ∃ found, p.disks = some found ∧ ∀ k,
    (∀ e, disks.lookup k = some e → ∃ e', found.lookup k = some e' ∧ e'.Same e) ∧
      (disks.lookup k = none → found.lookup k = none)
  others : ∀ k, k ≠ parkedDisksKey → (p.rawOther.lookup k).map Value.said =
    (rawOther.lookup k).map Value.said

/-! ## 3. Collecting stale records

A record is collected when all three reasons fail. -/

/-- How times are written: `time.Parse` and `Format` with `time.RFC3339`, as nanoseconds. -/
structure TimeFormat where
  parse : Text → Option Int
  format : Int → Text

/-- `provEntryVolid`. -/
def provEntryVolid (key : Text) (entry : ParkerProvEntry) : Text :=
  if (entry.text .volid).isEmpty then key else entry.text .volid

def parkerProvenanceGraceWindow : Int := 3600 * 1000000000

def parkerDescriptionLimit : Nat := 8192
def parkerDescriptionReserve : Nat := 512
def parkerDescriptionBudget : Nat := parkerDescriptionLimit - parkerDescriptionReserve

section Project

variable (T : TimeFormat)

/-- The record was parked less than the grace window ago. -/
def isYoung (now : Int) (entry : ParkerProvEntry) : Bool :=
  match T.parse (entry.text .parkedAt) with
  | some parsed => decide (now - parsed < parkerProvenanceGraceWindow)
  | none => false

/-- The age-and-reference rule takes the record. -/
def isStale (cfg : PveConfig) (keepKey : Text) (now : Int) (key : Text) (entry : ParkerProvEntry) :
    Bool :=
  key != keepKey && !(parkerReferencedVolids cfg).contains (provEntryVolid key entry) &&
    !isYoung T now entry

/-- `staleParkerProvenanceKeys`. -/
def staleParkerProvenanceKeys (disks : TextMap ParkerProvEntry) (cfg : PveConfig) (keepKey : Text)
    (now : Int) : List Text :=
  ((disks.entries.filter fun e => isStale T cfg keepKey now e.1 e.2).map Sigma.fst).insertionSort
    (· ≤ ·)

/-- `collectStaleParkerProvenance`: the records that stay, and the keys of those that do not. -/
def collectStaleParkerProvenance (disks : TextMap ParkerProvEntry) (cfg : PveConfig)
    (keepKey : Text) (now : Int) (held : List Text) : TextMap ParkerProvEntry × List Text :=
  let pruned := (staleParkerProvenanceKeys T disks cfg keepKey now).filter fun key =>
    !held.contains key
  (eraseAll disks pruned, pruned)

/-! ## 4. Writing a record -/

/-- Why there is no description; `nilMap` is the assignment to a nil map, which panics. -/
inductive ProjectErr
  | conflict
  | nilMap
  | marshal (pruned : List Text)
  | full (pruned : List Text) (records bytes : Nat)
deriving DecidableEq

/-- The record to write, with the allocation that the record before it belongs to. -/
def carryAllocation (entry : ParkerProvEntry) :
    Option ParkerProvEntry → Except ProjectErr ParkerProvEntry
  | none => .ok entry
  | some previous =>
    if (previous.text .allocationID).isEmpty then .ok entry
    else if !(entry.text .allocationID).isEmpty &&
        (entry.text .allocationID != previous.text .allocationID ||
          entry.text .allocationNamespace != previous.text .allocationNamespace) then
          .error .conflict
    else
      .ok { entry with text := fun
        | .allocationID => previous.text .allocationID
        | .allocationNamespace => previous.text .allocationNamespace
        | .allocationBacking =>
          if (entry.text .allocationBacking).isEmpty then previous.text .allocationBacking
          else entry.text .allocationBacking
        | f => entry.text f }

/-- `projectParkerProvenance`. -/
def projectParkerProvenance (cfg : PveConfig) (key : Text) (entry : ParkerProvEntry) (now : Int)
    (held : List Text) : Except ProjectErr (Text × List Text) :=
  let p := parseParkerSentinel (descriptionFromConfig cfg)
  match carryAllocation entry (p.disks.bind (·.lookup key)) with
  | .error err => .error err
  | .ok entry =>
    match p.disks with
    | none => .error .nilMap
    | some disks =>
      let (disks, pruned) :=
        collectStaleParkerProvenance T (disks.insert key entry) cfg key now held
      match renderParkerSentinel p.nonBOSH disks p.rawOther with
      | none => .error (.marshal pruned)
      | some desc =>
        if parkerDescriptionBudget < byteLen desc then
          .error (.full pruned disks.entries.length (byteLen desc))
        else .ok (desc, pruned)

/-! ## 5. What is collected -/

variable {T}

theorem mem_stale {disks : TextMap ParkerProvEntry} {cfg : PveConfig} {keepKey k : Text}
    {now : Int} : k ∈ staleParkerProvenanceKeys T disks cfg keepKey now ↔
      ∃ e, disks.lookup k = some e ∧ isStale T cfg keepKey now k e = true := by
  rw [staleParkerProvenanceKeys, List.mem_insertionSort, List.mem_map]
  constructor
  · rintro ⟨⟨k', e⟩, he, rfl⟩
    obtain ⟨hmem, hstale⟩ := List.mem_filter.mp he
    exact ⟨e, AList.mem_lookup_iff.mpr hmem, hstale⟩
  · rintro ⟨e, hlookup, hstale⟩
    exact ⟨⟨k, e⟩, List.mem_filter.mpr ⟨AList.mem_lookup_iff.mp hlookup, hstale⟩, rfl⟩

theorem isStale_iff {cfg : PveConfig} {keepKey k : Text} {now : Int} {e : ParkerProvEntry} :
    isStale T cfg keepKey now k e = true ↔
      k ≠ keepKey ∧ ¬Names cfg (provEntryVolid k e) ∧ isYoung T now e = false := by
  rw [isStale, Bool.and_eq_true, Bool.and_eq_true, bne_iff_ne, Bool.not_eq_true', Bool.not_eq_true',
    ← Bool.not_eq_true, List.contains_iff_mem, mem_referenced, and_assoc]

theorem isYoung_iff {now : Int} {e : ParkerProvEntry} : isYoung T now e = true ↔
    ∃ parsed, T.parse (e.text .parkedAt) = some parsed ∧
    now - parsed < parkerProvenanceGraceWindow := by
  unfold isYoung
  cases T.parse (e.text .parkedAt) with
  | none => simp
  | some parsed => simp

theorem mem_pruned {disks : TextMap ParkerProvEntry} {cfg : PveConfig} {keepKey k : Text}
    {now : Int}
    {held : List Text} : k ∈ (collectStaleParkerProvenance T disks cfg keepKey now held).2 ↔
      (∃ e, disks.lookup k = some e ∧ isStale T cfg keepKey now k e = true) ∧ k ∉ held := by
  rw [collectStaleParkerProvenance, List.mem_filter, mem_stale, Bool.not_eq_true',
    ← Bool.not_eq_true, List.contains_iff_mem]

theorem lookup_kept {disks : TextMap ParkerProvEntry} {cfg : PveConfig} {keepKey k : Text}
    {now : Int} {held : List Text} {e : ParkerProvEntry} (he : disks.lookup k = some e)
    (h : ¬(isStale T cfg keepKey now k e = true ∧ k ∉ held)) :
    (collectStaleParkerProvenance T disks cfg keepKey now held).1.lookup k = some e := by
  refine (lookup_eraseAll_of_notMem disks fun hmem => h ?_).trans he
  obtain ⟨⟨e', he', hstale⟩, hheld⟩ := mem_pruned.mp hmem
  rw [he] at he'
  cases he'
  exact ⟨hstale, hheld⟩

/-- What becomes of the identity of the allocation. -/
structure Carries (entry : ParkerProvEntry) (previous : Option ParkerProvEntry)
    (e : ParkerProvEntry) : Prop where
  opts : ∀ k, e.opts.lookup k = entry.opts.lookup k
  rest : ∀ f, f ≠ .allocationID → f ≠ .allocationNamespace → f ≠ .allocationBacking →
    e.text f = entry.text f
  fresh : (∀ p, previous = some p → p.text .allocationID = []) → e.text = entry.text
  identity : ∀ p, previous = some p → p.text .allocationID ≠ [] →
    e.text .allocationID = p.text .allocationID ∧
      e.text .allocationNamespace = p.text .allocationNamespace ∧
      e.text .allocationBacking = if (entry.text .allocationBacking).isEmpty then
        p.text .allocationBacking else entry.text .allocationBacking

/-- What a new entry takes over from the one it replaces, when the two do not contradict each
other. -/
theorem carries_of_ok {entry e : ParkerProvEntry} {previous : Option ParkerProvEntry}
    (h : carryAllocation entry previous = .ok e) : Carries entry previous e := by
  cases previous with
  | none =>
    cases h
    exact ⟨fun _ => rfl, fun _ _ _ _ => rfl, fun _ => rfl, fun _ hp => by cases hp⟩
  | some p =>
    unfold carryAllocation at h
    dsimp only at h
    split at h
    · rename_i hblank
      cases h
      refine ⟨fun _ => rfl, fun _ _ _ _ => rfl, fun _ => rfl, fun p' hp hne => ?_⟩
      cases hp
      exact absurd (List.isEmpty_iff.mp hblank) hne
    · rename_i hblank
      split at h
      · cases h
      · cases h
        refine ⟨fun _ => rfl, fun f h1 h2 h3 => ?_, fun hall => ?_, fun p' hp _ => ?_⟩
        · cases f with
          | allocationID => exact absurd rfl h1
          | allocationNamespace => exact absurd rfl h2
          | allocationBacking => exact absurd rfl h3
          | _ => rfl
        · exact absurd (List.isEmpty_iff.mpr (hall p rfl)) hblank
        · cases hp
          exact ⟨rfl, rfl, rfl⟩

theorem Carries.same {entry e e' : ParkerProvEntry} {previous : Option ParkerProvEntry}
    (h : Carries entry previous e) (hs : e'.Same e) : Carries entry previous e' :=
  ⟨fun k => (hs.opts k).trans (h.opts k), fun f h1 h2 h3 => hs.text ▸ h.rest f h1 h2 h3,
    fun hall => hs.text.trans (h.fresh hall), fun p hp hne => hs.text ▸ h.identity p hp hne⟩

/-! ## 6. What the new description says

The encoder and the pattern of `Vm.Sentinel`, for the key of the parked disks. -/

/-- The sentinel that is written can be read. -/
theorem encodable_merged {rawOther : Raw} (henc : Encodable rawOther)
    (disks : TextMap ParkerProvEntry) :
    Encodable (mergedRaw rawOther parkedDisksKey (ofDisks disks)) :=
  (storable_ofDisks disks).merged henc parkedDisksKey

theorem encodable_rawOther (desc : Text) : Encodable (parseParkerSentinel desc).rawOther :=
  (Vm.replaces_erase _ parkedDisksKey).encodable (Vm.encodable_sentinelOf desc)
    fun v hv => by cases hv

theorem encodeMap_escaped (m : Raw) : (encodeMap m).mapStr escapeHtml = encodeMap m :=
  Lib.Json.Value.mapStr_of_allStr _ (Lib.Json.Value.allStr_mapStr Lib.Json.escapeHtml_quote _)

/-- **A rendered description is read back**, the text without the space around it.  The other keys
say what they said, and the records are read back one by one. -/
theorem holds_render {nonBOSH desc : Text} {disks : TextMap ParkerProvEntry} {rawOther : Raw}
    (hnone : findSentinel nonBOSH = none) (henc : Encodable rawOther) (hne : disks.entries ≠ [])
    (h : renderParkerSentinel nonBOSH disks rawOther = some desc) :
    Holds (parseParkerSentinel desc) (trimList isSpace nonBOSH) disks rawOther := by
  have hsome : ¬(ofDisks disks).entries.isEmpty = true := by
    rw [List.isEmpty_iff]
    exact fun hnil => hne (entries_mapVals_eq_nil.mp hnil)
  have hrep := Vm.replaces_merged rawOther parkedDisksKey (ofDisks disks)
  rw [if_neg hsome] at hrep
  obtain ⟨raw', hparse, hlookup⟩ := Vm.parseSentinel_render (encodable_merged henc disks)
    (Vm.entries_ne_nil hrep.own) hnone h
  have hsent : Vm.sentinelOf desc = raw' := by rw [Vm.sentinelOf, hparse]; rfl
  constructor
  · rw [parseParkerSentinel, hparse]
  · have hown : (Vm.sentinelOf desc).lookup parkedDisksKey = some (encodeMap (ofDisks disks)) := by
      rw [hsent, hlookup, hrep.own, Option.map_some, encodeMap_escaped]
    obtain ⟨found, hread, hfound⟩ := readDisks_encode disks
    refine ⟨found, by rw [parseParkerSentinel, hown]; exact hread,
      fun k => ⟨fun e he => ?_, fun he => ?_⟩⟩
    · exact ⟨_, by rw [hfound, he, Option.map_some], read_value e⟩
    · rw [hfound, he, Option.map_none]
  · intro k hk
    rw [parseParkerSentinel, hsent, AList.lookup_erase_ne hk, hlookup, hrep.rest k hk,
      Option.map_map]
    cases hv : rawOther.lookup k with
    | none => rfl
    | some v => exact congrArg some (Lib.Json.Value.said_compact (henc.wf k v hv))

/-- What a projection that succeeds did. -/
theorem project_eq_ok {cfg : PveConfig} {key : Text} {entry : ParkerProvEntry} {now : Int}
    {held : List Text} {desc : Text} {pruned : List Text}
    (h : projectParkerProvenance T cfg key entry now held = .ok (desc, pruned)) :
    ∃ disks e, (parseParkerSentinel (descriptionFromConfig cfg)).disks = some disks ∧
      carryAllocation entry (disks.lookup key) = .ok e ∧
      (collectStaleParkerProvenance T (disks.insert key e) cfg key now held).2 = pruned ∧
      renderParkerSentinel (parseParkerSentinel (descriptionFromConfig cfg)).nonBOSH
        (collectStaleParkerProvenance T (disks.insert key e) cfg key now held).1
        (parseParkerSentinel (descriptionFromConfig cfg)).rawOther = some desc ∧
      byteLen desc ≤ parkerDescriptionBudget := by
  unfold projectParkerProvenance at h
  dsimp only at h
  split at h
  · cases h
  · rename_i e hcarry
    split at h
    · cases h
    · rename_i disks hdisks
      rw [hdisks, Option.bind_some] at hcarry
      split at h
      · cases h
      · rename_i d hrender
        split at h
        · cases h
        · rename_i hfits
          cases h
          exact ⟨disks, e, hdisks, hcarry, rfl, hrender, Nat.not_lt.mp hfits⟩

/-- **A write never drops a live record.**  The description fits the budget, and what is read from
it is what was there: the text without the space around it (as it was, when there was a sentinel
before), the other keys, the record that was written with the allocation that it had, and every
other record whose volume is named, that is young, or that is held.  A success has rendered the
collected records with the new one, under the budget (`project_eq_ok`); the rest is reading a
rendered description, and the collector spares what is named, young or held. -/
theorem project_keeps {cfg : PveConfig} {key : Text} {entry : ParkerProvEntry} {now : Int}
    {held : List Text} {desc : Text} {pruned : List Text}
    (h : projectParkerProvenance T cfg key entry now held = .ok (desc, pruned)) :
    byteLen desc ≤ parkerDescriptionBudget ∧
    (parseParkerSentinel desc).nonBOSH =
      trimList isSpace (parseParkerSentinel (descriptionFromConfig cfg)).nonBOSH ∧
    ((findSentinel (descriptionFromConfig cfg)).isSome = true →
      (parseParkerSentinel desc).nonBOSH =
        (parseParkerSentinel (descriptionFromConfig cfg)).nonBOSH) ∧
    (∀ k, k ≠ parkedDisksKey → ((parseParkerSentinel desc).rawOther.lookup k).map Value.said =
      ((parseParkerSentinel (descriptionFromConfig cfg)).rawOther.lookup k).map Value.said) ∧
    ∃ before after, (parseParkerSentinel (descriptionFromConfig cfg)).disks = some before ∧
      (parseParkerSentinel desc).disks = some after ∧
      (∃ e, after.lookup key = some e ∧ Carries entry (before.lookup key) e) ∧
      ∀ k e, before.lookup k = some e → k ≠ key →
        (Names cfg (provEntryVolid k e) ∨
          (∃ parsed, T.parse (e.text .parkedAt) = some parsed ∧
            now - parsed < parkerProvenanceGraceWindow) ∨
          k ∈ held) → ∃ e', after.lookup k = some e' ∧ e'.Same e := by
  obtain ⟨before, e, hbefore, hcarry, -, hrender, hfits⟩ := project_eq_ok h
  have hkept : (collectStaleParkerProvenance T (before.insert key e) cfg key now held).1.lookup
      key = some e := by
    have hfresh : ¬(isStale T cfg key now key e = true ∧ key ∉ held) :=
      fun hs => (isStale_iff.mp hs.1).1 rfl
    exact lookup_kept (AList.lookup_insert _) hfresh
  have henc := encodable_rawOther (descriptionFromConfig cfg)
  have hsome : (collectStaleParkerProvenance T (before.insert key e) cfg key now held).1.entries ≠
      [] := by
    intro hnil
    have hmem := AList.mem_lookup_iff.mp hkept
    rw [hnil] at hmem
    cases hmem
  have hholds : Holds (parseParkerSentinel desc)
      (trimList isSpace (parseParkerSentinel (descriptionFromConfig cfg)).nonBOSH) _ _ :=
    holds_render (Vm.findSentinel_text (descriptionFromConfig cfg)) henc hsome hrender
  obtain ⟨after, hafter, hrecords⟩ := hholds.records
  refine ⟨hfits, hholds.text, fun hhad => ?_, hholds.others, before, after, hbefore, hafter, ?_, ?_⟩
  · obtain ⟨⟨front, j, rest⟩, hfind⟩ := Option.isSome_iff_exists.mp hhad
    have htext : (parseParkerSentinel (descriptionFromConfig cfg)).nonBOSH =
        trimList isSpace front := by
      rw [parseParkerSentinel, parseSentinel, hfind]
    rw [hholds.text, htext, Lib.Tokens.trimList_trimList]
  · obtain ⟨e', he', hsame⟩ := (hrecords key).1 e hkept
    exact ⟨e', he', (carries_of_ok hcarry).same hsame⟩
  · intro k e₀ he₀ hk hlive
    refine (hrecords k).1 e₀ ?_
    have hfresh : ¬(isStale T cfg key now k e₀ = true ∧ k ∉ held) := by
      rintro ⟨hstale, hheld⟩
      obtain ⟨-, hunnamed, hold⟩ := isStale_iff.mp hstale
      rcases hlive with hnamed | hyoung | hin
      · exact hunnamed hnamed
      · rw [isYoung_iff.mpr hyoung] at hold
        cases hold
      · exact hheld hin
    exact lookup_kept (by rw [AList.lookup_insert_ne hk, he₀]) hfresh

end Project

/-! ## 7. Two parkers -/

/-- Two moments as they are written, two hours apart. -/
def sampleTimes : TimeFormat where
  parse t :=
    if t = "2026-01-02T03:04:05Z".toList then some 1767323045000000000
    else if t = "2026-01-02T05:04:05Z".toList then some 1767330245000000000
    else none
  format now :=
    if now = 1767330245000000000 then "2026-01-02T05:04:05Z".toList
      else "2026-01-02T03:04:05Z".toList

/-- A parker with a description and a disk on its first slot. -/
def sampleParker (description : String) : PveConfig :=
  (AList.insert descriptionKey (.text description.toList) ∅).insert "scsi0".toList
    (.text "s:vm-9-disk-0,size=1G".toList)

/-- The record of the disk on the slot, and another key. -/
def sampleRecord : PveConfig :=
  sampleParker ("x <!--BOSH:\x7b\"bosh_parked_disks\":\x7b\"s:vm-9-disk-0\":" ++
    "\x7b\"disk_cid\":\"d\"\x7d\x7d,\"a\":[1]\x7d-->")

/-- Another record is written, and the one of the disk on the slot stays. -/
theorem project_keeps_sample : ∃ desc pruned before after e e',
    projectParkerProvenance sampleTimes sampleRecord "bpd-1".toList {} 1767323045000000000 [] =
      .ok (desc, pruned) ∧
    byteLen desc ≤ parkerDescriptionBudget ∧
    (parseParkerSentinel (descriptionFromConfig sampleRecord)).disks = some before ∧
    (parseParkerSentinel desc).disks = some after ∧
    before.lookup "s:vm-9-disk-0".toList = some e ∧ after.lookup "s:vm-9-disk-0".toList = some e' ∧
    e'.Same e := by
  have hruns :
    (projectParkerProvenance sampleTimes sampleRecord "bpd-1".toList {} 1767323045000000000
    []).toOption.isSome = true := by decide +kernel
  cases h : projectParkerProvenance sampleTimes sampleRecord "bpd-1".toList {} 1767323045000000000
    [] with
  | error err =>
    rw [h] at hruns
    cases hruns
  | ok r =>
    obtain ⟨hfits, -, -, -, before, after, hbefore, hafter, -, hlive⟩ := project_keeps h
    have hrecord : ((parseParkerSentinel (descriptionFromConfig sampleRecord)).disks.bind
        (·.lookup "s:vm-9-disk-0".toList)).map (provEntryVolid "s:vm-9-disk-0".toList) =
          some "s:vm-9-disk-0".toList := by decide +kernel
    rw [hbefore, Option.bind_some] at hrecord
    obtain ⟨e, he, hvolid⟩ := Option.map_eq_some_iff.mp hrecord
    have hnamed : Names sampleRecord (provEntryVolid "s:vm-9-disk-0".toList e) := by
      rw [hvolid]
      exact mem_referenced.mp (by decide +kernel)
    obtain ⟨e', he', hsame⟩ := hlive _ e he (by decide) (.inl hnamed)
    exact ⟨r.1, r.2, before, after, e, e', rfl, hfits, hbefore, hafter, he, he', hsame⟩

/-- The CID of the disk in the record of `sampleRecord`, in a description. -/
def sampleDiskCID (desc : Text) : Option Text :=
  ((parseParkerSentinel desc).disks.bind (·.lookup "s:vm-9-disk-0".toList)).map
    fun e => e.text .diskCID

theorem project_trims_evaluated :
    (∃ desc, projectParkerProvenance sampleTimes sampleRecord "s:vm-9-disk-0".toList {}
        1767323045000000000 [] = .ok (desc, []) ∧ sampleDiskCID desc = some []) ∧
      sampleDiskCID (descriptionFromConfig sampleRecord) = some "d".toList := by
  refine ⟨⟨"x\n<!--BOSH:\x7b\"a\":[1],\"bosh_parked_disks\":\x7b\"s:vm-9-disk-0\":\x7b".toList ++
    "\"disk_cid\":\"\",\"parked_at\":\"\",\"node\":\"\"\x7d\x7d\x7d-->".toList, ?_, ?_⟩, ?_⟩
  · decide +kernel
  · decide +kernel
  · decide +kernel

/-- **Two things that do not stay.**  A text with space around it is not read as it was when there
was no sentinel before.  And a write under a key replaces the record under it, although a slot names
its volume. -/
theorem project_trims :
    (∃ desc, projectParkerProvenance sampleTimes (sampleParker " x") "bpd-1".toList {}
        1767323045000000000 [] = .ok (desc, []) ∧
      (parseParkerSentinel desc).nonBOSH ≠
        (parseParkerSentinel (descriptionFromConfig (sampleParker " x"))).nonBOSH) ∧
    Names sampleRecord "s:vm-9-disk-0".toList ∧
    ∃ desc, projectParkerProvenance sampleTimes sampleRecord "s:vm-9-disk-0".toList {}
        1767323045000000000 [] = .ok (desc, []) ∧
      sampleDiskCID desc ≠ sampleDiskCID (descriptionFromConfig sampleRecord) := by
  obtain ⟨⟨desc, hproject, hafter⟩, hbefore⟩ := project_trims_evaluated
  refine ⟨⟨" x\n<!--BOSH:\x7b\"bosh_parked_disks\":\x7b\"bpd-1\":\x7b".toList ++
    "\"disk_cid\":\"\",\"parked_at\":\"\",\"node\":\"\"\x7d\x7d\x7d-->".toList, ?_, ?_⟩,
    mem_referenced.mp (by decide +kernel), desc, hproject, ?_⟩
  · decide +kernel
  · decide +kernel
  · rw [hafter, hbefore]
    decide

end Parker
