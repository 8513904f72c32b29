/-
# Who owns a VM

`cpi/handlers/vm_ownership.go`: `ownVM` decides from the tags of a VM whether the Director that
makes a request may act on it.  The tags it reads are the ones the writers of `Tags.lean` keep in
front of the field, so the answer does not change under them: over any sequence of writes the
cluster and the token of a VM never change, its owner never changes once it has one, and no two
Directors are both told that they own the VM (`owner_stability`).

The decision has many branches and most of them end in a refusal.  For the stability of ownership
only two facts about it are needed: an owned VM passed the comparison of owners, and the values
compared are those under three prefixes of the field (`ownVM_owner`).  So the rest is about fields:
the values under these prefixes are kept by every write (`KeepsHead`).

The condition is that the entries in front fit the cap by themselves.  It holds of every field that
a writer of the CPI wrote, and a field that violates it was put there by hand.
-/
import PveCpi.Lib.Utf8
import PveCpi.Vm.Cid
import PveCpi.Vm.Merge
import Mathlib.Data.List.DropRight
import Mathlib.Logic.Relation

namespace Vm

open Lib.Text (isSpace trimList cutList)
open Lib.Tokens
open Vmcid (VMCID)

/-! ## 1. The decision -/

def unknownCluster : Text := "00000000".toList
def resourceTypeQemu : Text := "qemu".toList
def parkerTag : Tag := "bosh-parker".toList
def stemcellCacheTag : Tag := "bosh-stemcell-cache".toList
def stemcellMarkerTag : Tag := "bosh-stemcell".toList

/-- The reasons for a VM that a Director must not act on. -/
inductive OwnershipReason
  | clusterMismatch | tokenMismatch | tokenMissing | tokenConflict | parker | template
  | otherDirector | notBOSH
deriving DecidableEq

/-- `vmOwnershipVerdict`, less the two answers that `ownVM` never gives. -/
structure OwnershipVerdict where
  owned : Bool := false
  legacy : Bool := false
  gone : Bool := false
  reason : Option OwnershipReason := none
  detail : Text := []
deriving DecidableEq

/-- What `ownVM` fails with: the cluster identity or the notes could not be read. -/
inductive OwnershipError (E : Type)
  | clusterIdentity (cluster : Text) (vmid : Int64) (err : E)
  | notes (err : E)
deriving DecidableEq

/-- `vmOwnershipView`: the tags, and what the reads that may follow answer. -/
structure OwnershipView (E : Type) where
  tags : List Tag
  template : Bool
  type : Text
  description : Except E Text
  clusterMatches : Option (Text → Except E Bool)

/-- `lowerTags`. -/
def lowerTags (L : Casing) (tags : List Tag) : List Tag := tags.map L.toLower

/-- `tagValues`. -/
def tagValues (tags : List Tag) (pre : Tag) : List Text :=
  (distinct (tags.filterMap fun t =>
    if pre.isPrefixOf t then some (t.drop pre.length) else none)).insertionSort (· ≤ ·)

/-- `otherOwner`. -/
def otherOwner (owners : List Text) (request : Text) : Bool :=
  match owners with
  | [] => false
  | [owner] => if request.isEmpty then false else decide (owner ≠ request)
  | _ :: _ :: _ => true

def allEqual (values : List Text) (want : Text) : Bool :=
  values.all (fun v => decide (v = want)) && !values.isEmpty

def foreignVerdict (reason : OwnershipReason) (detail : Text) : OwnershipVerdict :=
  { reason := some reason, detail := detail }

/-- The verdict on a VM that another one has replaced. -/
def goneVerdict (detail : Text) : OwnershipVerdict :=
  { gone := true, reason := some .tokenMismatch, detail := detail }

def orNone (s : Text) : Text := if s.isEmpty then "none".toList else s

/-- `strings.Join` with `" and "`. -/
def joinAnd (values : List Text) : Text := List.intercalate " and ".toList values

/-- The values of the Director's lines in the notes, and whether the name has both parts. -/
structure DirectorLines where
  director : Text := []
  deployment : Text := []
  named : Bool := false

/-- One line of `directorMetadataValues`. -/
def directorLine (found : DirectorLines) (line : Text) : DirectorLines :=
  match cutList ": ".toList (line.rdropWhile fun c => c == '\r') with
  | none => found
  | some (key, rest) =>
    let value := trimList isSpace rest
    if value.isEmpty then found
    else if key = "director".toList then { found with director := value }
    else if key = "deployment".toList then { found with deployment := value }
    else if key = "name".toList then
      match cutList ['/'] value with
      | none => { found with named := false }
      | some (job, id) => { found with named := !job.isEmpty && !id.isEmpty }
    else found

/-- `directorMetadataValues`. -/
def directorMetadataValues (desc : Text) : DirectorLines :=
  (desc.splitOn '\n').foldl directorLine {}

/-- `hasDirectorMetadataLines`. -/
def hasDirectorMetadataLines (desc : Text) : Bool :=
  let found := directorMetadataValues desc
  !found.director.isEmpty && !found.deployment.isEmpty && found.named

section Decision

variable {E : Type}

/-- `ownVMStamp`; `none` when the stamp matched and the other checks still apply.  The stamps of a
parsed CID are hex digits, and are compared as the texts they spell. -/
def ownVMStamp (cid : VMCID) (clusterTags tokenTags : List Text)
    (clusterMatches : Option (Text → Except E Bool)) :
    Except (OwnershipError E) (Option OwnershipVerdict) := do
  let cluster := Lib.Utf8.text cid.cluster
  let token := Lib.Utf8.text cid.token
  if !clusterTags.isEmpty then
    if !allEqual clusterTags cluster then
      return some (foreignVerdict .clusterMismatch ("the CID names cluster ".toList ++ cluster ++
        ", and the VM records cluster ".toList ++ joinAnd clusterTags ++
        (". pve.cluster_stamp_aliases doesn't change " ++
          "this answer, because the VM's own tag records its cluster").toList))
  else
    match clusterMatches with
    | none =>
      return some (foreignVerdict .clusterMismatch ("the CID names cluster ".toList ++ cluster ++
        ", and the VM records no cluster, so the cluster cannot be proven".toList))
    | some proves =>
      match proves cluster with
      | .error err => throw (.clusterIdentity cluster cid.vmid err)
      | .ok true => pure ()
      | .ok false =>
        if cluster = unknownCluster then
          return some (foreignVerdict .clusterMismatch
            ("the CID carries the unknown cluster stamp ".toList ++ cluster ++
              ", and the VM records no cluster, so the cluster cannot be proven".toList))
        else
          return some (foreignVerdict .clusterMismatch ("the CID names cluster ".toList ++
            cluster ++
            ", and the VM records no cluster on a cluster with a different identity".toList))
  if tokenTags.isEmpty then
    return some (foreignVerdict .tokenMissing ("the CID carries token ".toList ++ token ++
      ", and the VM carries no token tag".toList))
  else if allEqual tokenTags token then return none
  else if tokenTags.contains token then
    return some (foreignVerdict .tokenConflict ("the CID carries token ".toList ++ token ++
      ", and the VM carries tokens ".toList ++ joinAnd tokenTags))
  else
    return some (goneVerdict ("the CID carries token ".toList ++ token ++
      ", and the VM at this VMID carries token ".toList ++ joinAnd tokenTags))

/-- The UUID of a request as it is compared with an owner tag. -/
def requestOwner (L : Casing) (requestUUID : Text) : Text :=
  L.toLower (sanitizeTagValue requestUUID)

/-- `ownVM` once the stamp has matched. -/
def ownVMTags (cid : VMCID) (request : Text) (vm : OwnershipView E) :
    Except (OwnershipError E) OwnershipVerdict := do
  let owners := tagValues vm.tags ownerTagPrefix
  if !vm.type.isEmpty && vm.type ≠ resourceTypeQemu then
    return foreignVerdict .notBOSH ("the VMID names a ".toList ++ vm.type ++
      " guest, not a QEMU VM".toList)
  if vm.tags.contains parkerTag then
    return foreignVerdict .parker "the VM is a disk parker".toList
  if vm.template || vm.tags.contains stemcellCacheTag || vm.tags.contains stemcellMarkerTag then
    return foreignVerdict .template "the VM is a stemcell template".toList
  if otherOwner owners request then
    return foreignVerdict .otherDirector ("the VM is owned by Director ".toList ++ joinAnd owners ++
      ", and this request comes from Director ".toList ++ orNone request)
  if !owners.isEmpty then return { owned := true }
  if !vm.tags.contains ownershipTag then
    match vm.description with
    | .error err => throw (.notes err)
    | .ok desc =>
      if !hasDirectorMetadataLines desc then
        return foreignVerdict .notBOSH ("the VM carries no owner tag, no bosh-cpi tag, and no " ++
          "Director metadata in its notes").toList
  return { owned := true, legacy := !cid.stamped }

/-- `ownVM`. -/
def ownVM (L : Casing) (cid : VMCID) (requestUUID : Text) (vm : OwnershipView E) :
    Except (OwnershipError E) OwnershipVerdict := do
  if cid.stamped then
    let stamp ← ownVMStamp cid (tagValues vm.tags clusterStampTagPrefix)
      (tagValues vm.tags cidStampTagPrefix) vm.clusterMatches
    match stamp with
    | some verdict => return verdict
    | none => ownVMTags cid (requestOwner L requestUUID) vm
  else ownVMTags cid (requestOwner L requestUUID) vm

end Decision

/-! ## 2. Reading the values

The values under a prefix are a set, so neither the order of the tags nor a repetition matters. -/

theorem mem_lowerTags {L : Casing} {tags : List Tag} {t : Tag} :
    t ∈ lowerTags L tags ↔ ∃ e ∈ tags, L.toLower e = t := List.mem_map

/-- A value under a prefix is the rest of a tag. -/
theorem mem_tagValues {tags : List Tag} {pre v : Tag} :
    v ∈ tagValues tags pre ↔ v ≠ [] ∧ pre ++ v ∈ tags := by
  rw [tagValues, List.mem_insertionSort, mem_distinct, List.mem_filterMap, and_comm]
  refine and_congr_right fun _ => ⟨?_, fun hmem => ⟨pre ++ v, hmem, ?_⟩⟩
  · rintro ⟨t, ht, heq⟩
    split at heq
    · rename_i hpre
      obtain ⟨rest, rfl⟩ := List.isPrefixOf_iff_prefix.mp hpre
      rw [List.drop_left] at heq
      cases heq
      exact ht
    · cases heq
  · rw [if_pos (List.isPrefixOf_iff_prefix.mpr (List.prefix_append pre v)), List.drop_left]

/-- The values are a set: they are sorted and without repetition. -/
theorem tagValues_congr {tags tags' : List Tag} {pre : Tag}
    (h : ∀ v, v ∈ tagValues tags pre ↔ v ∈ tagValues tags' pre) :
    tagValues tags pre = tagValues tags' pre := by
  have hperm : (tagValues tags pre).Perm (tagValues tags' pre) := by
    refine (List.perm_ext_iff_of_nodup ?_ ?_).mpr h
    · exact (List.perm_insertionSort _ _).nodup_iff.mpr (nodup_distinct _)
    · exact (List.perm_insertionSort _ _).nodup_iff.mpr (nodup_distinct _)
  exact hperm.eq_of_pairwise (fun _ _ _ _ => le_antisymm)
    (List.pairwise_insertionSort _ _) (List.pairwise_insertionSort _ _)

/-- The values under a prefix that a tags field holds. -/
def fieldValues (L : Casing) (s : Text) (pre : Tag) : List Text :=
  tagValues (lowerTags L (parseTagsField s)) pre

theorem mem_fieldValues {L : Casing} {s : Text} {pre v : Tag} :
    v ∈ fieldValues L s pre ↔ v ≠ [] ∧ ∃ e ∈ parseTagsField s, L.toLower e = pre ++ v := by
  rw [fieldValues, mem_tagValues, mem_lowerTags]

/-- The checks of the stamp never answer that the VM is owned. -/
theorem ownVMStamp_owned {E : Type} {cid : VMCID} {clusterTags tokenTags : List Text}
    {clusterMatches : Option (Text → Except E Bool)} {verdict : OwnershipVerdict}
    (h : ownVMStamp cid clusterTags tokenTags clusterMatches = .ok (some verdict)) :
    verdict.owned = false := by
  simp only [ownVMStamp, bind, Except.bind, pure, Except.pure, throw, throwThe,
    MonadExceptOf.throw] at h
  repeat' split at h
  all_goals cases h
  all_goals rfl

/-- An owned VM has passed the comparison of the owners. -/
theorem ownVMTags_owned {E : Type} {cid : VMCID} {request : Text} {vm : OwnershipView E}
    {verdict : OwnershipVerdict} (h : ownVMTags cid request vm = .ok verdict)
    (howned : verdict.owned = true) :
    otherOwner (tagValues vm.tags ownerTagPrefix) request = false := by
  rw [Bool.eq_false_iff]
  intro hother
  simp only [ownVMTags, hother, pure, Except.pure, ↓reduceIte] at h
  repeat' split at h
  all_goals cases h
  all_goals cases howned

theorem otherOwner_eq_false {owners : List Text} {request : Text} (hne : owners ≠ [])
    (hrequest : request ≠ []) (h : otherOwner owners request = false) : owners = [request] := by
  unfold otherOwner at h
  split at h
  · exact absurd rfl hne
  · rw [if_neg (by simpa using hrequest), decide_eq_false_iff_not, not_not] at h
    rw [h]
  · cases h

/-- **An owner that the request names.**  A VM with an owner tag is owned only by the Director it
names. -/
theorem ownVM_owner {E : Type} {L : Casing} {cid : VMCID} {requestUUID : Text}
    {vm : OwnershipView E} {verdict : OwnershipVerdict}
    (h : ownVM L cid requestUUID vm = .ok verdict) (howned : verdict.owned = true)
    (hrequest : requestOwner L requestUUID ≠ []) (hne : tagValues vm.tags ownerTagPrefix ≠ []) :
    tagValues vm.tags ownerTagPrefix = [requestOwner L requestUUID] := by
  have htags : ownVMTags cid (requestOwner L requestUUID) vm = .ok verdict := by
    unfold ownVM at h
    split at h
    · simp only [bind, Except.bind] at h
      split at h
      · cases h
      · rename_i stamp hstamp
        split at h
        · cases h
          rw [ownVMStamp_owned hstamp] at howned
          cases howned
        · exact h
    · exact h
  exact otherOwner_eq_false hne hrequest (ownVMTags_owned htags howned)

/-! ## 3. One write

Each writer hoists the tags of ownership to the front before it merges, so whatever it adds is
behind them and is cut first. -/

/-- The entries that the writers keep in front. -/
def isHead (L : Casing) (e : Tag) : Bool := decide (e = ownershipTag) || hasHeadTagPrefix L e

/-- The entries in front fit in a field by themselves. -/
def HeadFits (L : Casing) (s : Text) : Prop :=
  byteLen (joinTags ((parseTagsField s).filter (isHead L))) ≤ maxTagLength

instance (L : Casing) (s : Text) : Decidable (HeadFits L s) :=
  inferInstanceAs
    (Decidable (byteLen (joinTags ((parseTagsField s).filter (isHead L))) ≤ maxTagLength))

/-- A write of the tags field: `set_vm_metadata` or `set_disk_metadata`, with anything in it.  The
entries come back in any order. -/
inductive TagWrite (L : Casing) (s s' : Text) : Prop
  | setVMMetadata (metadata : TextMap (Option Text)) (vmPrefix directorUUID : Text) (agrees : Bool)
      (hback : (parseTagsField s').Perm
        (parseTagsField (setVMMetadataTags L s metadata vmPrefix directorUUID agrees).1))
  | setDiskMetadata (tags : TextMap Text) (written : Text × List Tag)
      (hwritten : applyCustomTags L s tags = some written)
      (hback : (parseTagsField s').Perm (parseTagsField written.1))

/-- What a write does to the entries in front. -/
structure KeepsHead (L : Casing) (s s' : Text) : Prop where
  kept : ∀ e ∈ parseTagsField s, isHead L e = true → e ∈ parseTagsField s'
  added : ∀ e ∈ parseTagsField s', hasHeadTagPrefix L e = true → e ∈ parseTagsField s ∨
    (hasOwnerTag L (parseTagsField s) = false ∧ ownerTagPrefix <+: L.toLower e)
  fits : HeadFits L s'

section Write

variable {L : Casing}

/-- The front of a hoisted list.  What is added behind a list does not come before its front. -/
theorem hoistHeadTags_front (entries : List Tag) {more : List Tag} (hmore : ownershipTag ∉ more) :
    ∃ front rest, hoistHeadTags L (entries ++ more) = front ++ rest ∧
      front.Perm (entries.filter (isHead L)) := by
  have hnone : (more.filter fun e => decide (e = ownershipTag)) = [] := by
    rw [List.filter_eq_nil_iff]
    intro e he heq
    rw [decide_eq_true_eq] at heq
    exact hmore (heq ▸ he)
  have hown : ((entries.filter (isHead L)).filter fun e => decide (e = ownershipTag)) =
      entries.filter fun e => decide (e = ownershipTag) := by
    rw [List.filter_filter]
    refine List.filter_congr fun e _ => ?_
    by_cases heq : e = ownershipTag
    · simp [isHead, heq]
    · simp [heq]
  have hhead : ((entries.filter (isHead L)).filter fun e => !decide (e = ownershipTag)) =
      entries.filter fun e => !decide (e = ownershipTag) && hasHeadTagPrefix L e := by
    rw [List.filter_filter]
    refine List.filter_congr fun e _ => ?_
    by_cases heq : e = ownershipTag
    · simp [heq]
    · simp [isHead, heq]
  have hperm := List.filter_append_perm (fun e => decide (e = ownershipTag))
    (entries.filter (isHead L))
  rw [hown, hhead] at hperm
  refine ⟨_, (more.filter fun e => !decide (e = ownershipTag) && hasHeadTagPrefix L e) ++
    (entries ++ more).filter fun e => !decide (e = ownershipTag) && !hasHeadTagPrefix L e, ?_,
    hperm⟩
  rw [hoistHeadTags, List.filter_append, hnone, List.append_nil, List.filter_append,
    List.append_assoc, List.append_assoc, List.append_assoc]

theorem perm_hoistHeadTags (entries : List Tag) : (hoistHeadTags L entries).Perm entries := by
  have hhead := List.filter_append_perm (fun e => hasHeadTagPrefix L e)
    (entries.filter fun e => !decide (e = ownershipTag))
  rw [List.filter_filter, List.filter_filter] at hhead
  have hown := List.filter_append_perm (fun e => decide (e = ownershipTag)) entries
  refine List.Perm.trans ?_ hown
  rw [hoistHeadTags, List.append_assoc]
  refine List.Perm.append_left _ ?_
  simpa only [Bool.and_comm] using hhead

theorem mem_hoistHeadTags {entries : List Tag} {e : Tag} :
    e ∈ hoistHeadTags L entries ↔ e ∈ entries := (perm_hoistHeadTags entries).mem_iff

/-- A field whose entries are some of those of a text within the cap fits. -/
theorem headFits_of_written {s : Text} {kept : List Tag}
    (hlen : byteLen (joinTags kept) ≤ maxTagLength) (hback : (parseTagsField s).Perm kept) :
    HeadFits L s := by
  have hsub : ((parseTagsField s).filter (isHead L)).Subperm kept :=
    List.filter_sublist.subperm.trans hback.subperm
  exact (length_joined_le hsub).trans hlen

/-- The entries of `s` that are in front of a merge stay, and no others come in front of them. -/
theorem keepsHead_of_merge {s s' : Text} {existing front rest additions : List Tag}
    (hback : (parseTagsField s').Perm
      (parseTagsField (mergeTagListReporting existing additions maxTagLength).1))
    (hsplit : existing = front ++ rest)
    (hfront : front.Perm ((parseTagsField s).filter (isHead L))) (hfits : HeadFits L s)
    (hclean : ∀ e ∈ existing, TagClean e) (haddClean : ∀ e ∈ additions, TagClean e)
    (hexisting : ∀ e ∈ existing, hasHeadTagPrefix L e = true → e ∈ parseTagsField s ∨
      (hasOwnerTag L (parseTagsField s) = false ∧ ownerTagPrefix <+: L.toLower e))
    (hadditions : ∀ e ∈ additions, hasHeadTagPrefix L e = false) : KeepsHead L s s' := by
  obtain ⟨kept, hkept, hmerged⟩ := merge_kept existing additions maxTagLength
  rw [hkept, hmerged.parse hclean haddClean] at hback
  refine ⟨?_, ?_, headFits_of_written (hmerged.length (by decide)) hback⟩
  · intro e he hhead
    have hmem : e ∈ front := hfront.mem_iff.mpr (List.mem_filter.mpr ⟨he, hhead⟩)
    have hlen : byteLen (joinTags front) ≤ maxTagLength :=
      (length_joined_le hfront.subperm).trans hfits
    exact hback.mem_iff.mpr
      (hmerged.front front rest hsplit hlen e hmem (clean_of_mem_parse he).1)
  · intro e he hhead
    rcases (hmerged.mem_of_kept (hback.mem_iff.mp he)).1 with hmem | hmem
    · exact hexisting e hmem hhead
    · rw [hadditions e hmem] at hhead
      cases hhead

/-- The first letter of an entry with a key of the metadata. -/
theorem reserved_first {e : Tag} (h : hasReservedBoshPrefix e = true) :
    ∃ c rest, e = c :: rest ∧ isTagChar c = true ∧ c.toNat < 128 ∧ c.toLower ≠ 'b' ∧ c ≠ 'b' := by
  obtain ⟨p, hp, rest, rfl⟩ := hasAnyPrefix_iff.mp h
  have hfirst : ∀ q ∈ reservedBoshTagPrefixes, ∃ c r, q = c :: r ∧ isTagChar c = true ∧
      c.toNat < 128 ∧ c.toLower ≠ 'b' ∧ c ≠ 'b' := by
    simp only [reservedBoshTagPrefixes, List.forall_mem_cons, List.not_mem_nil, false_implies,
      implies_true, and_true]
    refine ⟨⟨'d', _, rfl, ?_⟩, ⟨'d', _, rfl, ?_⟩, ⟨'i', _, rfl, ?_⟩, ⟨'j', _, rfl, ?_⟩,
      ⟨'i', _, rfl, ?_⟩, ⟨'v', _, rfl, ?_⟩⟩ <;> decide
  obtain ⟨c, r, rfl, hc⟩ := hfirst p hp
  exact ⟨c, r ++ rest, rfl, hc⟩

/-- The entries in front do not start with a key of the metadata. -/
theorem not_reserved_of_isHead {e : Tag} (h : isHead L e = true) :
    hasReservedBoshPrefix e = false := by
  rw [Bool.eq_false_iff]
  intro hreserved
  obtain ⟨c, rest, rfl, -, hascii, hlower, hne⟩ := reserved_first hreserved
  rw [isHead, Bool.or_eq_true, decide_eq_true_eq] at h
  rcases h with h | h
  · injection h with hc _
    exact hne hc
  · rw [hasHeadTagPrefix, hasAnyPrefix_first hascii fun q hq => ?_] at h
    · cases h
    · obtain ⟨t, rfl⟩ := headTagPrefixes_first q hq
      exact ⟨'b', t, rfl, hlower⟩

theorem isTagChar_lower {c : Char} (h : isTagChar c = true) : isTagChar (L.lower c) = true := by
  have hall : ∀ n : Fin 128, isTagChar (Char.ofNat n) = true →
      isTagChar (Char.ofNat n).toLower = true := by decide
  have hc := hall ⟨c.toNat, isTagChar_ascii h⟩
  rw [Char.ofNat_toNat] at hc
  rw [L.lower_ascii c (isTagChar_ascii h)]
  exact hc h

theorem ownerTagFor_eq {directorUUID : Text} (h : ownerTagFor L directorUUID ≠ []) :
    ∃ v, ownerTagFor L directorUUID = ownerTagPrefix ++ v ∧ ∀ c ∈ v, isTagChar c = true := by
  unfold ownerTagFor at h ⊢
  dsimp only at h ⊢
  split
  · rename_i hempty
    rw [if_pos hempty] at h
    exact absurd rfl h
  · refine ⟨_, rfl, fun c hc => ?_⟩
    obtain ⟨d, hd, rfl⟩ := List.mem_map.mp hc
    exact isTagChar_lower (sanitizeTagValue_chars d hd)

/-- A tag that is backfilled is an owner tag, and there was none. -/
theorem ownerTagBackfill_eq {existing : List Tag} {directorUUID : Text} {agrees : Bool}
    (h : ownerTagBackfill L existing directorUUID agrees ≠ []) :
    hasOwnerTag L existing = false ∧ ∃ v, ownerTagBackfill L existing directorUUID agrees =
      ownerTagPrefix ++ v ∧ ∀ c ∈ v, isTagChar c = true := by
  unfold ownerTagBackfill at h ⊢
  split at h
  · exact absurd rfl h
  · rename_i hkeep
    have hnone : hasOwnerTag L existing = false := by
      rw [Bool.or_eq_true, not_or, Bool.not_eq_true, Bool.not_eq_true] at hkeep
      exact hkeep.2
    split at h
    · exact absurd rfl h
    · split at h
      · rename_i hexcluded hagrees
        rw [if_neg hkeep, if_neg hexcluded, if_pos hagrees]
        exact ⟨hnone, ownerTagFor_eq h⟩
      · exact absurd rfl h

theorem ownerTag_clean {v : Text} (hv : ∀ c ∈ v, isTagChar c = true) :
    TagClean (ownerTagPrefix ++ v) := by
  refine clean_of_chars (fun hnil => ?_) fun c hc => ?_
  · exact absurd (List.append_eq_nil_iff.mp hnil).1 (by decide)
  · rcases List.mem_append.mp hc with hc | hc
    · have hall : ∀ d ∈ ownerTagPrefix, isTagChar d = true :=
        Lib.Text.forall_of_all (by decide)
      exact hall c hc
    · exact hv c hc

theorem ownerTag_starts (v : Text) : ownerTagPrefix <+: L.toLower (ownerTagPrefix ++ v) := by
  have hlower : L.toLower ownerTagPrefix = ownerTagPrefix :=
    toLower_eq_self (Lib.Text.forall_of_all (by decide))
  rw [toLower_append, hlower]
  exact List.prefix_append _ _

theorem ownerTag_ne_ownershipTag (v : Text) : ownershipTag ≠ ownerTagPrefix ++ v := by
  intro h
  have htake : ownerTagPrefix = ownershipTag.take ownerTagPrefix.length := by
    rw [h, List.take_left]
  exact absurd htake (by decide)

/-- **`set_vm_metadata` keeps the front.**  The tags in front are preserved, the metadata cannot
spell one of them, and the owner tag is added only where there is none. -/
theorem setVMMetadata_keepsHead {s s' : Text} {metadata : TextMap (Option Text)}
    {vmPrefix directorUUID : Text} {agrees : Bool} (hfits : HeadFits L s)
    (hback : (parseTagsField s').Perm
      (parseTagsField (setVMMetadataTags L s metadata vmPrefix directorUUID agrees).1)) :
    KeepsHead L s s' := by
  have hstrip : (stripReservedBoshTags (parseTagsField s)).filter (isHead L) =
      (parseTagsField s).filter (isHead L) := by
    rw [stripReservedBoshTags, List.filter_filter]
    refine List.filter_congr fun e _ => ?_
    by_cases hhead : isHead L e = true
    · rw [hhead, not_reserved_of_isHead hhead]
      rfl
    · rw [Bool.not_eq_true] at hhead
      rw [hhead, Bool.false_and]
  have hold : ∀ e ∈ hoistHeadTags L (stripReservedBoshTags (parseTagsField s)),
      e ∈ parseTagsField s := fun e he => List.mem_of_mem_filter (mem_hoistHeadTags.mp he)
  obtain ⟨front, rest, hsplit, hfront⟩ :=
    hoistHeadTags_front (L := L) (stripReservedBoshTags (parseTagsField s)) List.not_mem_nil
  rw [List.append_nil] at hsplit
  rw [hstrip] at hfront
  unfold setVMMetadataTags preservedTags at hback
  dsimp only at hback
  split at hback
  · exact keepsHead_of_merge hback hsplit hfront hfits
      (fun e he => clean_of_mem_parse (hold e he)) (fun e he => buildBoshManagedTags_clean he)
      (fun e he _ => .inl (hold e he)) (fun e he => buildBoshManagedTags_head he)
  · -- The owner tag comes behind the entries that were in front before.
    rename_i howner
    rw [List.isEmpty_iff] at howner
    obtain ⟨hnone, v, hv, hchars⟩ := ownerTagBackfill_eq howner
    rw [hv, withOwnerTag] at hback
    obtain ⟨front', rest', hsplit', hfront'⟩ :=
      hoistHeadTags_front (L := L) (hoistHeadTags L (stripReservedBoshTags (parseTagsField s)))
        (fun hmem => ownerTag_ne_ownershipTag v (List.mem_singleton.mp hmem))
    refine keepsHead_of_merge hback hsplit' (hfront'.trans ?_) hfits ?_
      (fun e he => buildBoshManagedTags_clean he) ?_ (fun e he => buildBoshManagedTags_head he)
    · rw [← hstrip]
      exact (perm_hoistHeadTags _).filter _
    · intro e he
      rcases List.mem_append.mp (mem_hoistHeadTags.mp he) with he | he
      · exact clean_of_mem_parse (hold e he)
      · rw [List.mem_singleton.mp he]
        exact ownerTag_clean hchars
    · intro e he _
      rcases List.mem_append.mp (mem_hoistHeadTags.mp he) with he | he
      · exact .inl (hold e he)
      · rw [List.mem_singleton.mp he]
        exact .inr ⟨hnone, ownerTag_starts v⟩

/-- A custom tag replaces no entry in front. -/
theorem unreplaced_of_isHead {s : Text} {custom : TextMap Text} {e : Tag}
    (he : e ∈ parseTagsField s) (hhead : isHead L e = true) :
    e ∈ unreplacedTags s (buildCustomTags L custom) := by
  rw [unreplacedTags, List.mem_filter, Bool.not_eq_true', Bool.eq_false_iff]
  refine ⟨he, fun hany => ?_⟩
  obtain ⟨p, hp, hpre⟩ := List.any_eq_true.mp hany
  obtain ⟨entry, hentry, hkey⟩ := List.mem_filterMap.mp hp
  have hpe : p <+: e := List.isPrefixOf_iff_prefix.mp hpre
  rw [isHead, Bool.or_eq_true, decide_eq_true_eq] at hhead
  rcases hhead with rfl | hhead
  · -- `bosh-cpi` has no two dashes, so no key ends in it.
    have htake : p = ownershipTag.take p.length := List.prefix_iff_eq_take.mp hpe
    have hlen : p.length < 9 := Nat.lt_succ_of_le hpe.length_le
    have hnone : ∀ n < 9, ¬"--".toList <:+ ownershipTag.take n := by decide
    exact hnone _ hlen (htake ▸ (keyPrefix_eq hkey).2)
  · obtain ⟨q, hq, hqe⟩ := hasAnyPrefix_iff.mp hhead
    have hdashes : ∀ q ∈ headTagPrefixes, DashesLast q := by decide
    have hentryHead : hasHeadTagPrefix L entry = true :=
      hasAnyPrefix_iff.mpr ⟨q, hq, prefix_of_replaced (hdashes q hq) hkey hpe hqe⟩
    rw [buildCustomTags_head hentry] at hentryHead
    cases hentryHead

/-- **`set_disk_metadata` keeps the front.** -/
theorem setDiskMetadata_keepsHead {s s' : Text} {tags : TextMap Text} {written : Text × List Tag}
    (hfits : HeadFits L s) (hwritten : applyCustomTags L s tags = some written)
    (hback : (parseTagsField s').Perm (parseTagsField written.1)) : KeepsHead L s s' := by
  unfold applyCustomTags at hwritten
  dsimp only at hwritten
  split at hwritten
  · cases hwritten
  · cases hwritten
    have hkeep : ∀ e ∈ hoistHeadTags L
        (unreplacedTags s (buildCustomTags L (dropReservedDiskTags L tags))),
        e ∈ parseTagsField s := fun e he => List.mem_of_mem_filter (mem_hoistHeadTags.mp he)
    obtain ⟨front, rest, hsplit, hfront⟩ :=
      hoistHeadTags_front (L := L)
        (unreplacedTags s (buildCustomTags L (dropReservedDiskTags L tags))) List.not_mem_nil
    rw [List.append_nil] at hsplit
    have hsame : (unreplacedTags s (buildCustomTags L (dropReservedDiskTags L tags))).filter
        (isHead L) = (parseTagsField s).filter (isHead L) := by
      rw [unreplacedTags, List.filter_filter]
      refine List.filter_congr fun e he => ?_
      by_cases hhead : isHead L e = true
      · have hmem : e ∈ unreplacedTags s (buildCustomTags L (dropReservedDiskTags L tags)) :=
          unreplaced_of_isHead he hhead
        rw [hhead, Bool.true_and]
        exact (List.mem_filter.mp hmem).2
      · rw [Bool.not_eq_true] at hhead
        rw [hhead, Bool.false_and]
    rw [hsame] at hfront
    exact keepsHead_of_merge hback hsplit hfront hfits
      (fun e he => clean_of_mem_parse (hkeep e he)) (fun e he => buildCustomTags_clean he)
      (fun e he _ => .inl (hkeep e he)) (fun e he => buildCustomTags_head he)

theorem TagWrite.keepsHead {s s' : Text} (h : TagWrite L s s') (hfits : HeadFits L s) :
    KeepsHead L s s' := by
  cases h with
  | setVMMetadata metadata vmPrefix directorUUID agrees hback =>
    exact setVMMetadata_keepsHead hfits hback
  | setDiskMetadata tags written hwritten hback =>
    exact setDiskMetadata_keepsHead hfits hwritten hback

end Write

/-! ## 4. Runs of writes

`TagWrites` is any sequence of the writes, by any Directors. -/

section Runs

variable {L : Casing} {s s' : Text}

/-- Any number of writes. -/
abbrev TagWrites (L : Casing) : Text → Text → Prop := Relation.ReflTransGen (TagWrite L)

theorem TagWrites.fits (h : TagWrites L s s') (hfits : HeadFits L s) : HeadFits L s' := by
  induction h with
  | refl => exact hfits
  | tail _ hwrite ih => exact (hwrite.keepsHead ih).fits

/-- A value that was read under one of the prefixes in front is still there. -/
theorem KeepsHead.value_kept (h : KeepsHead L s s') {pre : Tag} (hpre : pre ∈ headTagPrefixes)
    {v : Text} (hv : v ∈ fieldValues L s pre) : v ∈ fieldValues L s' pre := by
  obtain ⟨hne, e, he, hlower⟩ := mem_fieldValues.mp hv
  have hhead : hasHeadTagPrefix L e = true :=
    hasAnyPrefix_iff.mpr ⟨pre, hpre, hlower ▸ List.prefix_append pre v⟩
  refine mem_fieldValues.mpr ⟨hne, e, h.kept e he ?_, hlower⟩
  rw [isHead, hhead, Bool.or_true]

/-- A value that is read after a write was there before, or it is the first owner. -/
theorem KeepsHead.value_added (h : KeepsHead L s s') {pre : Tag} (hpre : pre ∈ headTagPrefixes)
    {v : Text} (hv : v ∈ fieldValues L s' pre) : v ∈ fieldValues L s pre ∨
      (ownerTagPrefix <+: pre ++ v ∧ hasOwnerTag L (parseTagsField s) = false) := by
  obtain ⟨hne, e, he, hlower⟩ := mem_fieldValues.mp hv
  have hhead : hasHeadTagPrefix L e = true :=
    hasAnyPrefix_iff.mpr ⟨pre, hpre, hlower ▸ List.prefix_append pre v⟩
  rcases h.added e he hhead with hold | ⟨hnone, howner⟩
  · exact .inl (mem_fieldValues.mpr ⟨hne, e, hold, hlower⟩)
  · exact .inr ⟨hlower ▸ howner, hnone⟩

/-- The token and the cluster of a VM do not change in a write. -/
theorem KeepsHead.stamp_eq (h : KeepsHead L s s') {pre : Tag}
    (hpre : pre ∈ [cidStampTagPrefix, clusterStampTagPrefix]) :
    fieldValues L s' pre = fieldValues L s pre := by
  have hmem : pre ∈ headTagPrefixes := List.mem_cons_of_mem _ hpre
  have hapart : ∀ p ∈ [cidStampTagPrefix, clusterStampTagPrefix],
      ¬ownerTagPrefix <+: p ∧ ¬p <+: ownerTagPrefix := by decide
  refine tagValues_congr fun v => ⟨fun hv => ?_, h.value_kept hmem⟩
  rcases h.value_added hmem hv with hold | ⟨howner, -⟩
  · exact hold
  · rcases List.prefix_or_prefix_of_prefix howner (List.prefix_append pre v) with hp | hp
    · exact absurd hp (hapart pre hpre).1
    · exact absurd hp (hapart pre hpre).2

/-- The owner of a VM does not change in a write once it has one. -/
theorem KeepsHead.owner_eq (h : KeepsHead L s s') (hne : fieldValues L s ownerTagPrefix ≠ []) :
    fieldValues L s' ownerTagPrefix = fieldValues L s ownerTagPrefix := by
  have hmem : ownerTagPrefix ∈ headTagPrefixes := List.mem_cons_self
  obtain ⟨w, hw⟩ := List.exists_mem_of_ne_nil _ hne
  obtain ⟨-, e, he, hlower⟩ := mem_fieldValues.mp hw
  have hsome : hasOwnerTag L (parseTagsField s) = true := by
    refine List.any_eq_true.mpr ⟨e, he, List.isPrefixOf_iff_prefix.mpr ?_⟩
    rw [hlower]
    exact List.prefix_append _ _
  refine tagValues_congr fun v => ⟨fun hv => ?_, h.value_kept hmem⟩
  rcases h.value_added hmem hv with hold | ⟨-, hnone⟩
  · exact hold
  · rw [hsome] at hnone
    cases hnone

theorem TagWrites.stamp_eq (h : TagWrites L s s') (hfits : HeadFits L s) {pre : Tag}
    (hpre : pre ∈ [cidStampTagPrefix, clusterStampTagPrefix]) :
    fieldValues L s' pre = fieldValues L s pre := by
  induction h with
  | refl => rfl
  | tail hbefore hwrite ih =>
    exact ((hwrite.keepsHead (TagWrites.fits hbefore hfits)).stamp_eq hpre).trans ih

theorem TagWrites.owner_eq (h : TagWrites L s s') (hfits : HeadFits L s)
    (hne : fieldValues L s ownerTagPrefix ≠ []) :
    fieldValues L s' ownerTagPrefix = fieldValues L s ownerTagPrefix := by
  induction h with
  | refl => rfl
  | tail hbefore hwrite ih =>
    exact ((hwrite.keepsHead (TagWrites.fits hbefore hfits)).owner_eq (ih ▸ hne)).trans ih

theorem TagWrites.ownership (h : TagWrites L s s') (hfits : HeadFits L s)
    (hmem : ownershipTag ∈ parseTagsField s) : ownershipTag ∈ parseTagsField s' := by
  induction h with
  | refl => exact hmem
  | tail hbefore hwrite ih =>
    exact (hwrite.keepsHead (TagWrites.fits hbefore hfits)).kept _ ih (by simp [isHead])

/-- No two Directors are told that they own a VM with an owner, at one time or at two. -/
theorem TagWrites.one_owner {E : Type} (h : TagWrites L s s') (hfits : HeadFits L s)
    (hne : fieldValues L s ownerTagPrefix ≠ []) {cid cid' : VMCID} {requestUUID requestUUID' : Text}
    {vm vm' : OwnershipView E} {verdict verdict' : OwnershipVerdict}
    (htags : vm.tags = lowerTags L (parseTagsField s))
    (htags' : vm'.tags = lowerTags L (parseTagsField s'))
    (hrequest : requestOwner L requestUUID ≠ []) (hrequest' : requestOwner L requestUUID' ≠ [])
    (hown : ownVM L cid requestUUID vm = .ok verdict) (howned : verdict.owned = true)
    (hown' : ownVM L cid' requestUUID' vm' = .ok verdict') (howned' : verdict'.owned = true) :
    requestOwner L requestUUID = requestOwner L requestUUID' := by
  have hsame : fieldValues L s' ownerTagPrefix = fieldValues L s ownerTagPrefix :=
    h.owner_eq hfits hne
  have hfirst : fieldValues L s ownerTagPrefix = [requestOwner L requestUUID] := by
    rw [fieldValues, ← htags] at hne ⊢
    exact ownVM_owner hown howned hrequest hne
  have hsecond : fieldValues L s' ownerTagPrefix = [requestOwner L requestUUID'] := by
    rw [← hsame, fieldValues, ← htags'] at hne
    rw [fieldValues, ← htags']
    exact ownVM_owner hown' howned' hrequest' hne
  rw [hfirst, hsecond] at hsame
  exact (List.singleton_inj.mp hsame).symm

/-- **Owner stability.**  Let the entries in front of a field fit, and let any writes follow.
Between any two points of time, the token and the cluster of the VM stay, its owner stays once it
has one, and so does the tag of the CPI.  So two Directors that are both told that they own it are
one.  One write keeps the front (`KeepsHead`), which is transitive; the decision reads nothing else,
and compares the request with the one owner. -/
theorem owner_stability {E : Type} {s₀ : Text} (hfits : HeadFits L s₀) (h₀ : TagWrites L s₀ s)
    (h : TagWrites L s s') :
    fieldValues L s' cidStampTagPrefix = fieldValues L s cidStampTagPrefix ∧
    fieldValues L s' clusterStampTagPrefix = fieldValues L s clusterStampTagPrefix ∧
    (ownershipTag ∈ parseTagsField s → ownershipTag ∈ parseTagsField s') ∧
    (fieldValues L s ownerTagPrefix ≠ [] →
      fieldValues L s' ownerTagPrefix = fieldValues L s ownerTagPrefix ∧
      ∀ (cid cid' : VMCID) (requestUUID requestUUID' : Text) (vm vm' : OwnershipView E)
        (verdict verdict' : OwnershipVerdict),
        vm.tags = lowerTags L (parseTagsField s) → vm'.tags = lowerTags L (parseTagsField s') →
        requestOwner L requestUUID ≠ [] → requestOwner L requestUUID' ≠ [] →
        requestOwner L requestUUID ≠ requestOwner L requestUUID' →
        ownVM L cid requestUUID vm = .ok verdict → ownVM L cid' requestUUID' vm' = .ok verdict' →
        ¬(verdict.owned = true ∧ verdict'.owned = true)) := by
  have hnow : HeadFits L s := h₀.fits hfits
  refine ⟨h.stamp_eq hnow List.mem_cons_self,
    h.stamp_eq hnow (List.mem_cons_of_mem _ List.mem_cons_self), h.ownership hnow, ?_⟩
  intro hne
  refine ⟨h.owner_eq hnow hne, ?_⟩
  rintro cid cid' requestUUID requestUUID' vm vm' verdict verdict' htags htags' hrequest hrequest'
    hdiffer hown hown' ⟨howned, howned'⟩
  exact hdiffer (h.one_owner hnow hne htags htags' hrequest hrequest' hown howned hown' howned')

/-- The letters of ASCII, and no others. -/
def asciiCasing : Casing := ⟨Char.toLower, Char.toLower, fun _ _ => rfl⟩

/-- A VM of the Director `d1`, and the field after a Director wrote a name that is an owner tag. -/
theorem owner_stability_sample :
    let s := "bosh-cpi;bosh-owner--d1".toList
    let metadata : TextMap (Option Text) :=
      AList.insert "name".toList (some "Bosh-Owner--d2".toList) ∅
    let s' := (setVMMetadataTags asciiCasing s metadata [] "d2".toList true).1
    HeadFits asciiCasing s ∧ fieldValues asciiCasing s ownerTagPrefix = ["d1".toList] ∧
      fieldValues asciiCasing s' ownerTagPrefix = ["d1".toList] := by
  intro s metadata s'
  have hfits : HeadFits asciiCasing s := by decide
  have howner : fieldValues asciiCasing s ownerTagPrefix = ["d1".toList] := by decide
  have hwrite : TagWrite asciiCasing s s' :=
    .setVMMetadata metadata [] "d2".toList true (List.Perm.refl _)
  have hstable := owner_stability (E := Unit) hfits .refl (.single hwrite)
  refine ⟨hfits, howner, ?_⟩
  rw [(hstable.2.2.2 (by rw [howner]; decide)).1, howner]

end Runs

end Vm
