/-
# Corrupt provenance

The calls that edit a description decode part of it into a map and then assign into that map.  The
map is made beforehand, and a decoder that fails leaves it empty; but it accepts `null`, which makes
the map nil, and an assignment into a nil map panics.

Here the eight edits are taken once more with the way they end: a description, no description (an
error, or nothing to write), or a panic.  `never_panics_iff` says which descriptions each of them
survives.

A panic is not an error: it ends the process in the middle of a request, after other writes may have
been made.  To speak of it the edits are written with an outcome, `Stop`, that has it as a case, and
the assignment into a map as a step that may end there.

The same edits are modelled without panics in `Descriptions`.  `written` forgets how an edit ended,
and the `written_` lemmas say that what is left is the edit of that module, so the two models are
one.
-/
import PveCpi.Vm.Descriptions
import PveCpi.Parker.Provenance

namespace Vm.Edit

open Lib.Json (Value Members parse print quote unquote)
open Lib.Text (isSpace trimList)
open Stemcell (putAll Provenance provenanceMembers ownedKeys)
open Parker (PveConfig ParkerProvEntry TimeFormat)

/-! ## 1. How an edit ends -/

/-- How a call ends without a description: with an error or with nothing to write, or with a
panic. -/
inductive Stop
  | refused
  | panic
deriving DecidableEq

/-- An assignment into a map; nil is none. -/
def assign (m : Option Raw) (key : Text) (v : Value) : Except Stop Raw :=
  match m with
  | none => .error .panic
  | some m => .ok (m.insert key v)

/-- `RenderSentinel`. -/
def render (nonBOSH : Text) (raw : Raw) : Except Stop Text :=
  match renderSentinel nonBOSH raw with
  | none => .error .refused
  | some desc => .ok desc

/-! ## 2. The edits -/

/-- `UpdateAttachedDiskCID`. -/
def updateAttachedDiskCID (bareVolid cidVerbatim desc : Text) : Except Stop Text :=
  if cidVerbatim.isEmpty || bareVolid.isEmpty then .error .refused
  else do
    let raw := (parseSentinel desc).2.getD ∅
    let disks ← assign (recorded readText raw attachedDisksSentinelKey) bareVolid (.str cidVerbatim)
    render (parseSentinel desc).1 (mergedRaw raw attachedDisksSentinelKey disks)

/-- `SetVMDiskOptOverlay`. -/
def setVMDiskOptOverlay (key : Text) (overlay : TextMap Text) (extraKeys : List Text)
    (desc : Text) : Except Stop Text :=
  if key.isEmpty then .error .refused
  else
    let raw := (parseSentinel desc).2.getD ∅
    let overlays :=
      (recorded readTextMap raw diskOptOverlaysSentinelKey).map (dropKeys · key extraKeys)
    let clean := sanitizeDiskOptOverlay overlay
    if clean.entries.isEmpty then
      render (parseSentinel desc).1
        (mergedRaw raw diskOptOverlaysSentinelKey ((overlays.getD ∅).erase key))
    else do
      let overlays ← assign overlays key (mapValue (ofTexts clean))
      render (parseSentinel desc).1 (mergedRaw raw diskOptOverlaysSentinelKey overlays)

/-- Replace a key of the sentinel by a record, or delete it when there is none. -/
def setRecord (key : Text) (record : Option Value) (desc : Text) : Except Stop Text :=
  match record with
  | none => render (parseSentinel desc).1 (((parseSentinel desc).2.getD ∅).erase key)
  | some v => do
    let raw ← assign (parseSentinel desc).2 key v
    render (parseSentinel desc).1 raw

/-- `SetPoolMembershipOnDescription`. -/
def setPoolMembershipOnDescription (pm : Option PoolMembership) (desc : Text) : Except Stop Text :=
  setRecord poolMembershipSentinelKey (pm.map PoolMembership.value) desc

def vmStemcellSentinelKey : Text := "bosh_stemcell".toList

/-- `VMStemcell`. -/
structure VMStemcell where
  label : Text
  cid : Text
  kind : Text
  sha8 : Text

/-- What `json.Marshal` writes for it: the fields that are not empty. -/
def VMStemcell.value (sc : VMStemcell) : Value :=
  (Value.obj
    (listMembers
      (([("label".toList, sc.label), ("cid".toList, sc.cid), ("kind".toList, sc.kind),
        ("sha8".toList, sc.sha8)].filter fun e => !e.2.isEmpty).map fun e =>
        (e.1, .str e.2)))).mapStr quote

/-- `SetVMStemcellOnDescription`. -/
def setVMStemcellOnDescription (sc : Option VMStemcell) (desc : Text) : Except Stop Text :=
  setRecord vmStemcellSentinelKey (sc.map VMStemcell.value) desc

/-- The record of one disk in the map under a key of the sentinel. -/
def putRecord (elem : Value → Value) (key diskCID : Text) (record : Value) (desc : Text) :
    Except Stop Text := do
  let records ← assign (recorded elem ((parseSentinel desc).2.getD ∅) key) diskCID record
  let raw ← assign (parseSentinel desc).2 key (encodeMap records)
  render (parseSentinel desc).1 raw

/-- `persistMetadata`. -/
def persistMetadata (F : Floats) (diskCID : Text) (metadata : Option DiskMetadata) (desc : Text) :
    Except Stop Text :=
  putRecord (readAnyMap F) sentinelKeyDiskMetadata diskCID (diskMetadataValue metadata) desc

/-- `applyCustomTagsToVM`, as far as the description goes. -/
def applyCustomTagsToVM (L : Casing) (tags : TextMap Text) (diskCID desc : Text) :
    Except Stop Text :=
  let tags := dropReservedDiskTags L tags
  if tags.entries.isEmpty then .error .refused
  else putRecord readTextMap sentinelKeyDiskTags diskCID (mapValue (ofTexts tags)) desc

/-- `projectParkerProvenance` for a parker with the description. -/
def projectParkerProvenance (T : TimeFormat) (cfg : PveConfig) (key : Text)
    (entry : ParkerProvEntry) (now : Int) (held : List Text) (desc : Text) : Except Stop Text :=
  match Parker.projectParkerProvenance T (cfg.insert Parker.descriptionKey (.text desc)) key entry
    now held with
  | .ok r => .ok r.1
  | .error .nilMap => .error .panic
  | .error _ => .error .refused

/-- The map that a stemcell description is decoded into. -/
def baseOf (desc : Text) : Except Stop (Option Raw) :=
  if (trimList isSpace desc).isEmpty then .ok (some ∅)
  else
    match parse (trimList isSpace desc) with
    | some .null => .ok none
    | some (.obj ms) => .ok (some (putAll ∅ ((membersList ms).map fun e => (unquote e.1, e.2))))
    | _ => .error .refused

/-- Every member is assigned. -/
def assignAll (m : Option Raw) (members : List (Text × Value)) : Except Stop (Option Raw) :=
  members.foldlM (fun m e => (assign m e.1 e.2).map some) m

/-- `json.Marshal` of the map; a value that is nested too deep is refused. -/
def encodeBase (base : Raw) : Except Stop Text :=
  if base.entries.any fun e => Lib.Json.maxDepth ≤ e.2.depth then .error .refused
  else .ok (print (sentinelValue base))

/-- The fresh provenance in place of the owned members. -/
def installProvenance (base : Option Raw) (prov : Provenance) : Except Stop Text := do
  let cleared := base.map fun m => ownedKeys.foldl (fun m k => m.erase k) m
  let merged ← assignAll cleared ((provenanceMembers prov).map fun e => (e.1, e.2.mapStr quote))
  encodeBase (merged.getD ∅)

/-- `mergeProvenanceIntoDescription`. -/
def mergeProvenanceIntoDescription (desc : Text) (prov : Provenance) : Except Stop Text := do
  let base ← baseOf desc
  installProvenance base prov

/-! ## 3. The steps of an edit

A sequence of steps panics when one of them does and those before it went through. -/

/-- What an edit writes, however it ends without it. -/
def written {α : Type} : Except Stop α → Option α
  | .ok a => some a
  | .error _ => none

@[simp] theorem written_bind {α β : Type} (x : Except Stop α) (f : α → Except Stop β) :
    written (x >>= f) = (written x).bind fun a => written (f a) := by
  cases x <;> rfl

@[simp] theorem written_assign (m : Option Raw) (key : Text) (v : Value) :
    written (assign m key v) = m.map fun m => m.insert key v := by
  cases m <;> rfl

@[simp] theorem written_render (nonBOSH : Text) (raw : Raw) :
    written (render nonBOSH raw) = renderSentinel nonBOSH raw := by
  unfold render
  cases renderSentinel nonBOSH raw <;> rfl

/-- A step panics, or the next one does. -/
theorem bind_panics {α β : Type} {x : Except Stop α} {f : α → Except Stop β} :
    x >>= f = .error .panic ↔ x = .error .panic ∨ ∃ a, x = .ok a ∧ f a = .error .panic := by
  cases x with
  | error e =>
    rw [show (Except.error e >>= f : Except Stop β) = .error e from rfl]
    simp
  | ok a =>
    constructor
    · intro h
      exact .inr ⟨a, rfl, h⟩
    · rintro (h | ⟨a', h, hf⟩)
      · cases h
      · cases h
        exact hf

theorem assign_panics {m : Option Raw} {key : Text} {v : Value} :
    assign m key v = .error .panic ↔ m = none := by
  cases m <;> simp [assign]

theorem render_panics {nonBOSH : Text} {raw : Raw} : ¬render nonBOSH raw = .error .panic := by
  unfold render
  cases renderSentinel nonBOSH raw <;> simp

/-- A step that assigns, before one that cannot panic. -/
theorem assign_bind_panics {α : Type} {m : Option Raw} {key : Text} {v : Value}
    {f : Raw → Except Stop α}
    (hf : ∀ raw, ¬f raw = .error .panic) : assign m key v >>= f = .error .panic ↔ m = none := by
  rw [bind_panics, assign_panics]
  constructor
  · rintro (h | ⟨raw, -, h⟩)
    · exact h
    · exact absurd h (hf raw)
  · exact .inl

/-- The map under a key is nil when its value is null. -/
theorem recorded_eq_none {elem : Value → Value} {raw : Raw} {key : Text} :
    recorded elem raw key = none ↔ raw.lookup key = some .null := by
  unfold recorded
  cases raw.lookup key with
  | none => simp
  | some v => cases v <;> simp [readMap]

theorem lookup_getD (desc key : Text) : ((parseSentinel desc).2.getD ∅).lookup key =
    valueOf desc key := by
  unfold valueOf
  cases (parseSentinel desc).2 <;> rfl

/-! ## 4. What an edit writes

One lemma for each edit: forgetting the panic gives the writer. -/

theorem written_setRecord (key : Text) (record : Option Value) (desc : Text) :
    written (setRecord key record desc) = rewrite (fun raw =>
      match record with
      | none => some ((raw.getD ∅).erase key)
      | some v => raw.map fun raw => raw.insert key v) desc := by
  unfold setRecord rewrite
  cases record <;> simp

theorem written_putRecord (elem : Value → Value) (key diskCID : Text) (record : Value)
    (desc : Text) :
    written (putRecord elem key diskCID record desc) = rewrite (fun raw => raw.bind fun raw =>
      (recorded elem raw key).map fun records =>
        raw.insert key (encodeMap (records.insert diskCID record))) desc := by
  unfold putRecord rewrite
  cases hraw : (parseSentinel desc).2 with
  | none => cases recorded elem ∅ key <;> simp
  | some raw => cases hrec : recorded elem raw key <;> simp [hrec]

section Written

variable (L : Casing) (F : Floats)

/-- **The edits are the writers, with the way they end.** -/
theorem written_persistMetadata (diskCID : Text) (metadata : Option DiskMetadata) (desc : Text) :
    written (persistMetadata F diskCID metadata desc) =
      Vm.persistMetadata F diskCID metadata desc :=
  written_putRecord _ _ _ _ _

theorem written_applyCustomTagsToVM (tags : TextMap Text) (diskCID desc : Text) :
    written (applyCustomTagsToVM L tags diskCID desc) =
      Vm.applyCustomTagsToVM L tags diskCID desc := by
  unfold applyCustomTagsToVM Vm.applyCustomTagsToVM
  dsimp only
  split
  · rfl
  · exact written_putRecord _ _ _ _ _

theorem written_updateAttachedDiskCID (bareVolid cidVerbatim desc : Text) :
    written (updateAttachedDiskCID bareVolid cidVerbatim desc) =
      Vm.updateAttachedDiskCID bareVolid cidVerbatim desc := by
  unfold updateAttachedDiskCID Vm.updateAttachedDiskCID rewrite
  split
  · rfl
  · simp only [written_bind, written_assign, written_render]
    cases recorded readText ((parseSentinel desc).2.getD ∅) attachedDisksSentinelKey <;> rfl

theorem written_setVMDiskOptOverlay (key : Text) (overlay : TextMap Text) (extraKeys : List Text)
    (desc : Text) : written (setVMDiskOptOverlay key overlay extraKeys desc) =
      Vm.setVMDiskOptOverlay key overlay extraKeys desc := by
  unfold setVMDiskOptOverlay Vm.setVMDiskOptOverlay rewrite
  split
  · rfl
  · dsimp only
    split
    · simp
    · simp only [written_bind, written_assign, written_render]
      cases recorded readTextMap ((parseSentinel desc).2.getD ∅) diskOptOverlaysSentinelKey <;> rfl

theorem written_setPoolMembership (pm : Option PoolMembership) (desc : Text) :
    written (setPoolMembershipOnDescription pm desc) =
      Vm.setPoolMembershipOnDescription pm desc := by
  refine (written_setRecord _ _ _).trans ?_
  unfold Vm.setPoolMembershipOnDescription
  cases pm <;> rfl

end Written

/-! ## 5. When an edit panics

One lemma for each edit: the map it assigns into is nil exactly when null stands in its place. -/

theorem setRecord_panics {key : Text} {record : Option Value} {desc : Text} :
    setRecord key record desc = .error .panic ↔ record.isSome = true ∧
    (parseSentinel desc).2 = none := by
  unfold setRecord
  cases record with
  | none => simp [render_panics]
  | some v => simp [assign_bind_panics fun _ => render_panics]

theorem putRecord_panics {elem : Value → Value} {key diskCID : Text} {record : Value}
    {desc : Text} : putRecord elem key diskCID record desc = .error .panic ↔
      (parseSentinel desc).2 = none ∨ valueOf desc key = some .null := by
  unfold putRecord
  rw [bind_panics, assign_panics, recorded_eq_none, lookup_getD, or_comm]
  refine or_congr_left ⟨?_, fun hnil => ?_⟩
  · rintro ⟨records, -, h⟩
    exact (assign_bind_panics fun _ => render_panics).mp h
  · -- A nil key map has no value under the key, so the first assignment is into an empty map.
    refine ⟨(∅ : Raw).insert diskCID record, ?_,
      (assign_bind_panics fun _ => render_panics).mpr hnil⟩
    rw [hnil]
    rfl

theorem updateAttachedDiskCID_panics {bareVolid cidVerbatim desc : Text} :
    updateAttachedDiskCID bareVolid cidVerbatim desc = .error .panic ↔
      cidVerbatim ≠ [] ∧ bareVolid ≠ [] ∧ valueOf desc attachedDisksSentinelKey = some .null := by
  unfold updateAttachedDiskCID
  split
  · rename_i hempty
    simp only [Bool.or_eq_true, List.isEmpty_iff] at hempty
    rcases hempty with rfl | rfl <;> simp
  · rename_i hempty
    simp only [Bool.or_eq_true, List.isEmpty_iff, not_or] at hempty
    dsimp only
    rw [assign_bind_panics fun _ => render_panics, recorded_eq_none, lookup_getD]
    simp [hempty]

/-- The overlay is written into a map that `null` makes nil.  Without anything to write the map is
only read, which a nil map allows. -/
theorem setVMDiskOptOverlay_panics {key : Text} {overlay : TextMap Text} {extraKeys : List Text}
    {desc : Text} : setVMDiskOptOverlay key overlay extraKeys desc = .error .panic ↔
      key ≠ [] ∧ (sanitizeDiskOptOverlay overlay).entries ≠ [] ∧
        valueOf desc diskOptOverlaysSentinelKey = some .null := by
  unfold setVMDiskOptOverlay
  split
  · rename_i hempty
    simp [List.isEmpty_iff.mp hempty]
  · rename_i hkey
    dsimp only
    split
    · rename_i hclean
      simp [render_panics, List.isEmpty_iff.mp hclean]
    · rename_i hclean
      rw [assign_bind_panics fun _ => render_panics, Option.map_eq_none_iff, recorded_eq_none,
        lookup_getD]
      simp only [List.isEmpty_iff] at hkey hclean
      simp [hkey, hclean]

theorem applyCustomTagsToVM_panics {L : Casing} {tags : TextMap Text} {diskCID desc : Text} :
    applyCustomTagsToVM L tags diskCID desc = .error .panic ↔
    (dropReservedDiskTags L tags).entries ≠ [] ∧
      ((parseSentinel desc).2 = none ∨ valueOf desc sentinelKeyDiskTags = some .null) := by
  unfold applyCustomTagsToVM
  dsimp only
  split
  · rename_i hempty
    simp [List.isEmpty_iff.mp hempty]
  · rename_i hne
    rw [putRecord_panics]
    simp only [List.isEmpty_iff] at hne
    simp [hne]

theorem readDisks_eq_none {v : Value} : Parker.readDisks v = none ↔ v = .null := by
  cases v <;> simp [Parker.readDisks]

theorem descriptionFromConfig_insert (cfg : PveConfig) (desc : Text) :
    Parker.descriptionFromConfig (cfg.insert Parker.descriptionKey (.text desc)) = desc := by
  rw [Parker.descriptionFromConfig, Parker.configString, AList.lookup_insert]
  rfl

theorem parkerDisks_eq_none {desc : Text} :
    (Parker.parseParkerSentinel desc).disks = none ↔
    valueOf desc Parker.parkedDisksKey = some .null := by
  rw [← lookup_getD]
  show (match ((parseSentinel desc).2.getD ∅).lookup Parker.parkedDisksKey with
    | none => some ∅
    | some rawDisks => Parker.readDisks rawDisks) = none ↔ _
  cases ((parseSentinel desc).2.getD ∅).lookup Parker.parkedDisksKey with
  | none => simp
  | some v => simp [readDisks_eq_none]

theorem carryAllocation_ne_nilMap {entry : ParkerProvEntry} {previous : Option ParkerProvEntry} :
    Parker.carryAllocation entry previous ≠ .error .nilMap := by
  intro h
  unfold Parker.carryAllocation at h
  split at h
  · cases h
  · split at h
    · cases h
    · split at h
      · cases h
      · cases h

/-- The projection assigns into a nil map exactly when the records are null. -/
theorem project_nilMap {T : TimeFormat} {cfg : PveConfig} {key : Text} {entry : ParkerProvEntry}
    {now : Int}
    {held : List Text} : Parker.projectParkerProvenance T cfg key entry now held = .error .nilMap ↔
      (Parker.parseParkerSentinel (Parker.descriptionFromConfig cfg)).disks = none := by
  unfold Parker.projectParkerProvenance
  cases hdisks : (Parker.parseParkerSentinel (Parker.descriptionFromConfig cfg)).disks with
  | none => simp [Parker.carryAllocation, hdisks]
  | some disks =>
    simp only [hdisks, Option.bind_some, reduceCtorEq, iff_false]
    intro h
    split at h
    · rename_i err herr
      cases h
      exact carryAllocation_ne_nilMap herr
    · split at h
      · cases h
      · split at h
        · cases h
        · cases h

/-- A parker always writes an entry, so a record that is `null` always panics. -/
theorem projectParkerProvenance_panics {T : TimeFormat} {cfg : PveConfig} {key : Text}
    {entry : ParkerProvEntry} {now : Int} {held : List Text} {desc : Text} :
    projectParkerProvenance T cfg key entry now held desc = .error .panic ↔
      valueOf desc Parker.parkedDisksKey = some .null := by
  have hnil := @project_nilMap T (cfg.insert Parker.descriptionKey (.text desc)) key entry now held
  rw [descriptionFromConfig_insert, parkerDisks_eq_none] at hnil
  rw [← hnil]
  unfold projectParkerProvenance
  split
  · simp [*]
  · simp [*]
  · rename_i hne herr
    rw [herr]
    simpa using hne

/-- The members of a provenance are never empty: the name is among them. -/
theorem provenanceMembers_ne_nil (prov : Provenance) : provenanceMembers prov ≠ [] := by
  intro h
  have hmem : ((Stemcell.TextField.name.key, .str (prov.text .name)) : Text × Value) ∈
      provenanceMembers prov := by
    simp [provenanceMembers, Stemcell.TextField.all, Stemcell.TextField.always]
  rw [h] at hmem
  cases hmem

theorem assignAll_some (m : Raw) (members : List (Text × Value)) :
    assignAll (some m) members = .ok (some (putAll m members)) := by
  induction members generalizing m with
  | nil => rfl
  | cons e members ih => exact ih (m.insert e.1 e.2)

theorem assignAll_panics {m : Option Raw} {members : List (Text × Value)} (hne : members ≠ []) :
    assignAll m members = .error .panic ↔ m = none := by
  cases m with
  | some m => simp [assignAll_some]
  | none =>
    cases members with
    | nil => exact absurd rfl hne
    | cons e members => exact ⟨fun _ => rfl, fun _ => rfl⟩

theorem encodeBase_panics {base : Raw} : ¬encodeBase base = .error .panic := by
  unfold encodeBase
  split <;> simp

theorem parse_nil : parse [] = none := by decide

/-- The map is nil when the whole description is null. -/
theorem baseOf_none {desc : Text} :
    baseOf desc ≠ .error .panic ∧
    (baseOf desc = .ok none ↔ parse (trimList isSpace desc) = some .null) := by
  unfold baseOf
  split
  · rename_i hblank
    rw [List.isEmpty_iff.mp hblank, parse_nil]
    simp
  · split
    · simp [*]
    · simp [*]
    · rename_i hnull _
      exact ⟨by simp, by simp, fun h => absurd h hnull⟩

theorem installProvenance_panics {base : Option Raw} {prov : Provenance} :
    installProvenance base prov = .error .panic ↔ base = none := by
  have hmembers : (provenanceMembers prov).map (fun e => (e.1, e.2.mapStr quote)) ≠ [] := by
    simpa using provenanceMembers_ne_nil prov
  unfold installProvenance
  dsimp only
  rw [bind_panics, assignAll_panics hmembers, Option.map_eq_none_iff]
  simp [encodeBase_panics]

theorem mergeProvenance_panics {desc : Text} {prov : Provenance} :
    mergeProvenanceIntoDescription desc prov = .error .panic ↔
    parse (trimList isSpace desc) = some .null := by
  unfold mergeProvenanceIntoDescription
  rw [bind_panics, ← baseOf_none.2]
  simp [installProvenance_panics, baseOf_none.1]

/-! ## 6. All of them -/

/-- A call that edits a description. -/
inductive Call
  | updateAttachedDiskCID (bareVolid cidVerbatim : Text)
  | setVMDiskOptOverlay (key : Text) (overlay : TextMap Text) (extraKeys : List Text)
  | setPoolMembership (pm : Option PoolMembership)
  | setVMStemcell (sc : Option VMStemcell)
  | projectParkerProvenance (cfg : PveConfig) (key : Text) (entry : ParkerProvEntry) (now : Int)
      (held : List Text)
  | persistMetadata (diskCID : Text) (metadata : Option DiskMetadata)
  | applyCustomTagsToVM (tags : TextMap Text) (diskCID : Text)
  | mergeProvenance (prov : Provenance)

/-- How a call ends. -/
def Call.run (L : Casing) (F : Floats) (T : TimeFormat) : Call → Text → Except Stop Text
  | .updateAttachedDiskCID bareVolid cidVerbatim, desc =>
    Edit.updateAttachedDiskCID bareVolid cidVerbatim desc
  | .setVMDiskOptOverlay key overlay extraKeys, desc =>
    Edit.setVMDiskOptOverlay key overlay extraKeys desc
  | .setPoolMembership pm, desc => setPoolMembershipOnDescription pm desc
  | .setVMStemcell sc, desc => setVMStemcellOnDescription sc desc
  | .projectParkerProvenance cfg key entry now held, desc =>
    Edit.projectParkerProvenance T cfg key entry now held desc
  | .persistMetadata diskCID metadata, desc => Edit.persistMetadata F diskCID metadata desc
  | .applyCustomTagsToVM tags diskCID, desc => Edit.applyCustomTagsToVM L tags diskCID desc
  | .mergeProvenance prov, desc => mergeProvenanceIntoDescription desc prov

/-- The payload of the sentinel is null. -/
def NullPayload (desc : Text) : Prop :=
  ∃ before jsonStr rest, findSentinel desc = some (before, jsonStr, rest) ∧
    parse jsonStr = some .null

/-- Null stands where the call assigns into a map. -/
def Call.MeetsNull (L : Casing) : Call → Text → Prop
  | .updateAttachedDiskCID bareVolid cidVerbatim, desc =>
    cidVerbatim ≠ [] ∧ bareVolid ≠ [] ∧ valueOf desc attachedDisksSentinelKey = some .null
  | .setVMDiskOptOverlay key overlay _, desc =>
    key ≠ [] ∧ (sanitizeDiskOptOverlay overlay).entries ≠ [] ∧
      valueOf desc diskOptOverlaysSentinelKey = some .null
  | .setPoolMembership pm, desc => pm.isSome = true ∧ NullPayload desc
  | .setVMStemcell sc, desc => sc.isSome = true ∧ NullPayload desc
  | .projectParkerProvenance .., desc => valueOf desc Parker.parkedDisksKey = some .null
  | .persistMetadata .., desc =>
    NullPayload desc ∨ valueOf desc sentinelKeyDiskMetadata = some .null
  | .applyCustomTagsToVM tags _, desc => (dropReservedDiskTags L tags).entries ≠ [] ∧
      (NullPayload desc ∨ valueOf desc sentinelKeyDiskTags = some .null)
  | .mergeProvenance _, desc => parse (trimList isSpace desc) = some .null

/-- The payload is `null` exactly when the sentinel is read without a map. -/
theorem nullPayload_iff {desc : Text} : NullPayload desc ↔ (parseSentinel desc).2 = none := by
  unfold NullPayload parseSentinel
  cases findSentinel desc with
  | none => simp
  | some r =>
    have hnil : decodeRaw r.2.1 = none ↔ parse r.2.1 = some .null := by
      unfold decodeRaw
      split
      · simp [*]
      · simp [*]
      · rename_i hne _
        exact ⟨by simp, fun h => absurd h hne⟩
    dsimp only
    rw [hnil]
    constructor
    · rintro ⟨_, _, _, heq, hnull⟩
      cases heq
      exact hnull
    · intro hnull
      exact ⟨_, _, _, rfl, hnull⟩

/-- **An edit panics exactly when null stands where it assigns into a map.**  Each edit has one map
that it assigns into without making it first, and a decoder leaves it nil for `null` only; the
assignments come before anything else that could end the edit. -/
theorem never_panics_iff (L : Casing) (F : Floats) (T : TimeFormat) (call : Call) (desc : Text) :
    call.run L F T desc ≠ .error .panic ↔ ¬call.MeetsNull L desc := by
  refine not_congr ?_
  cases call with
  | updateAttachedDiskCID bareVolid cidVerbatim => exact updateAttachedDiskCID_panics
  | setVMDiskOptOverlay key overlay extraKeys => exact setVMDiskOptOverlay_panics
  | setPoolMembership pm =>
    refine setRecord_panics.trans ?_
    rw [Option.isSome_map, ← nullPayload_iff]
    rfl
  | setVMStemcell sc =>
    refine setRecord_panics.trans ?_
    rw [Option.isSome_map, ← nullPayload_iff]
    rfl
  | projectParkerProvenance cfg key entry now held => exact projectParkerProvenance_panics
  | persistMetadata diskCID metadata =>
    refine putRecord_panics.trans ?_
    rw [← nullPayload_iff]
    rfl
  | applyCustomTagsToVM tags diskCID =>
    refine applyCustomTagsToVM_panics.trans ?_
    rw [← nullPayload_iff]
    rfl
  | mergeProvenance prov => exact mergeProvenance_panics

/-- The payload `null` makes the write of a pool membership panic. -/
theorem null_payload_panics :
    (Call.setPoolMembership (some ⟨"p".toList, [], [], [], []⟩)).run asciiCasing smallIntegers
      Parker.sampleTimes "<!--BOSH:null-->".toList = .error .panic := by
  have hfound : findSentinel "<!--BOSH:null-->".toList = some ([], "null".toList, []) := by
    decide +kernel
  have hnull : parse "null".toList = some .null := rfl
  rw [Call.run, setPoolMembershipOnDescription, setRecord_panics, ← nullPayload_iff]
  exact ⟨rfl, [], "null".toList, [], hfound, hnull⟩

end Vm.Edit
