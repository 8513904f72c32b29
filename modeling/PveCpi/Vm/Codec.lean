/-
# The sentinel is a codec

`RenderSentinel` writes a text and a key map, and `ParseSentinel` cuts the description at the first
match of a pattern that ends as soon as it can.  What is written is read back because the encoder
escapes every `>` and every line break, in the keys and in the nested values alike.

* `parse_rendered`: the text comes back as it was, and every key with a value that says the same;
* `rewrite_comm`: two edits that each rewrite a key of their own, from its own current value, do the
  same in either order, down to the letter;
* `deep_value_refused`: a value that is nested as deep as the limit is JSON, but is not written at
  all, because the object around it is one level deeper.

"Says the same" is needed because the encoder respells strings: the text of a nested value is
compacted on the way.  Two key maps that say the same are written letter by letter the same
(`render_congr`), and this is how edits are compared, through what their key maps say and not
through the maps.

An edit in the sense of `RewritesKey` computes the new value of its key from the old value of that
key and leaves the other keys alone.  The second condition is what the writers promise, and the
first is what makes them commute; §4 shows that two writers of the source are such edits.
-/
import PveCpi.Vm.Descriptions

namespace Vm

open Lib.Json (Value Elems Members parse print quote unquote escapeHtml)
open Lib.Text (isSpace trimList)
open Stemcell (sortedMembers mem_sortedMembers nodup_sortedMembers)

variable {raw raw' : Raw}

/-! ## 1. Reading back -/

theorem mapStr_escapeHtml (v : Value) : (v.mapStr escapeHtml).mapStr escapeHtml =
    v.mapStr escapeHtml := by
  have hsame : (fun s => escapeHtml (escapeHtml s)) = escapeHtml := by
    funext s
    exact Lib.Json.escapeHtml_of_clean (Lib.Json.escapeHtml_clean s)
  rw [Lib.Json.Value.mapStr_mapStr, hsame]

/-- **What is rendered is read back**: the same text, and the values compacted.  The pattern finds
the written sentinel and nothing before it, and the object is decoded member by member. -/
theorem parse_rendered (h : Encodable raw) {t d : Text} (htrim : trimList isSpace t = t)
    (hplain : ¬sentinelOpen <:+: t) (hd : renderSentinel t raw = some d) :
    ∃ raw', parseSentinel d = (t, some raw') ∧
      ∀ k, raw'.lookup k = (raw.lookup k).map fun v => v.mapStr escapeHtml := by
  have hnone := findSentinel_eq_none hplain
  by_cases hne : raw.entries = []
  · rcases renderSentinel_eq_some hd with ⟨-, rfl⟩ | ⟨hno, -⟩ | ⟨hno, -⟩
    · refine ⟨∅, by unfold parseSentinel; rw [hnone], fun k => ?_⟩
      cases hlookup : raw.lookup k with
      | none => rfl
      | some v => exact absurd hne (entries_ne_nil hlookup)
    · exact absurd hne hno
    · exact absurd hne hno
  · obtain ⟨raw', hparse, hlookup⟩ := parseSentinel_render h hne hnone hd
    rw [htrim] at hparse
    exact ⟨raw', hparse, hlookup⟩

/-! ## 2. The text depends on what is said

The members are written in the order of their keys, so the order of the map is gone. -/

/-- The members with their values compacted. -/
def compacted (raw : Raw) : List (Text × Value) :=
  (sortedMembers raw).map fun e => (e.1, e.2.mapStr escapeHtml)

theorem mem_compacted {k : Text} {v : Value} :
    (k, v) ∈ compacted raw ↔ (raw.lookup k).map (fun v => v.mapStr escapeHtml) = some v := by
  rw [compacted, List.mem_map, Option.map_eq_some_iff]
  constructor
  · rintro ⟨⟨k', v'⟩, hmem, heq⟩
    cases heq
    exact ⟨v', mem_sortedMembers.mp hmem, rfl⟩
  · rintro ⟨v', hlookup, rfl⟩
    exact ⟨(k, v'), mem_sortedMembers.mpr hlookup, rfl⟩

theorem compacted_nodup (raw : Raw) : ((compacted raw).map Prod.fst).Nodup := by
  rw [compacted, List.map_map]
  exact nodup_sortedMembers raw

theorem compacted_sorted (raw : Raw) : (compacted raw).Pairwise fun a b => a.1 ≤ b.1 := by
  rw [compacted, List.pairwise_map]
  exact List.pairwise_insertionSort _ _

/-- Key maps that say the same are written the same. -/
theorem compacted_congr (h : ∀ k, (raw.lookup k).map (fun v => v.mapStr escapeHtml) =
    (raw'.lookup k).map fun v => v.mapStr escapeHtml) : compacted raw = compacted raw' := by
  have hperm : (compacted raw).Perm (compacted raw') := by
    refine (List.perm_ext_iff_of_nodup (compacted_nodup raw).of_map
      (compacted_nodup raw').of_map).mpr ?_
    rintro ⟨k, v⟩
    rw [mem_compacted, mem_compacted, h k]
  refine hperm.eq_of_pairwise ?_ (compacted_sorted raw) (compacted_sorted raw')
  rintro ⟨k, v⟩ ⟨k', v'⟩ hmem hmem' hle hle'
  obtain rfl : k = k' := le_antisymm hle hle'
  rw [mem_compacted] at hmem hmem'
  rw [← h k, hmem] at hmem'
  rw [Option.some.inj hmem']

theorem sentinelValue_eq (raw : Raw) :
    sentinelValue raw = .obj (listMembers ((compacted raw).map fun e => (quote e.1, e.2))) := by
  rw [sentinelValue, compacted, List.map_map]
  rfl

theorem entries_eq_nil_iff : raw.entries = [] ↔ compacted raw = [] := by
  have hlen : (compacted raw).length = raw.entries.length := by
    rw [compacted, List.length_map, sortedMembers, List.length_insertionSort, List.length_map]
  rw [← List.length_eq_zero_iff, ← List.length_eq_zero_iff, hlen]

/-- **The description that is written depends only on what the key map says.** -/
theorem render_congr (h : Encodable raw) (h' : Encodable raw')
    (hspelled : ∀ k, (raw.lookup k).map (fun v => v.mapStr escapeHtml) =
      (raw'.lookup k).map fun v => v.mapStr escapeHtml) (t : Text) :
    renderSentinel t raw = renderSentinel t raw' := by
  have hsame := compacted_congr hspelled
  have htext : sentinelText raw = sentinelText raw' := by
    rw [sentinelText, sentinelText, sentinelValue_eq, sentinelValue_eq, hsame]
  have hempty : raw.entries = [] ↔ raw'.entries = [] := by
    rw [entries_eq_nil_iff, entries_eq_nil_iff, hsame]
  obtain ⟨d, hd⟩ := h.renders t
  obtain ⟨d', hd'⟩ := h'.renders t
  rw [hd, hd']
  rcases renderSentinel_eq_some hd with ⟨hnil, rfl⟩ | ⟨hno, hblank, rfl⟩ | ⟨hno, hblank, rfl⟩ <;>
    rcases renderSentinel_eq_some hd' with ⟨hnil', rfl⟩ | ⟨hno', hblank', rfl⟩ | ⟨hno', hblank',
      rfl⟩
  · rfl
  · exact absurd (hempty.mp hnil) hno'
  · exact absurd (hempty.mp hnil) hno'
  · exact absurd (hempty.mpr hnil') hno
  · rw [htext]
  · exact absurd hblank hblank'
  · exact absurd (hempty.mpr hnil') hno
  · exact absurd hblank' hblank
  · rw [htext]

/-! ## 3. Edits of different keys

An edit reads a description, not a key map, so the second one sees what the first one wrote: the
text again, and values that say the same. -/

/-- A value that can stand in a sentinel. -/
def Fits (v : Value) : Prop := v.wf = true ∧ v.depth < Lib.Json.maxDepth

/-- An edit of the key map that rewrites one key, from nothing but the value the key has.  It may
fail, and no new value takes the key out. -/
structure RewritesKey (edit : Option Raw → Option Raw) (key : Text)
    (new : Option Value → Option (Option Value)) : Prop where
  fails : ∀ raw, new (raw.lookup key) = none → edit (some raw) = none
  writes : ∀ raw n, new (raw.lookup key) = some n →
    ∃ raw', edit (some raw) = some raw' ∧ Replaces raw raw' key n
  fits : ∀ old v, (∀ w, old = some w → Fits w) → new old = some (some v) → Fits v

section Edits

variable {edit edit' : Option Raw → Option Raw} {key key' : Text}
  {new new' : Option Value → Option (Option Value)}

/-- What an edit makes of a rendered description. -/
theorem rewrite_rendered (he : RewritesKey edit key new) (h : Encodable raw) {t d : Text}
    (htrim : trimList isSpace t = t) (hplain : ¬sentinelOpen <:+: t)
    (hd : renderSentinel t raw = some d) :
    (new ((raw.lookup key).map fun v => v.mapStr escapeHtml) = none ∧ rewrite edit d = none) ∨
      ∃ n raw', new ((raw.lookup key).map fun v => v.mapStr escapeHtml) = some n ∧ Encodable raw' ∧
        rewrite edit d = renderSentinel t raw' ∧ raw'.lookup key = n ∧
        ∀ k, k ≠ key → raw'.lookup k = (raw.lookup k).map fun v => v.mapStr escapeHtml := by
  obtain ⟨read, hparse, hlookup⟩ := parse_rendered h htrim hplain hd
  have hread : Encodable read := by
    constructor
    · intro k v hv
      rw [hlookup] at hv
      obtain ⟨w, hw, rfl⟩ := Option.map_eq_some_iff.mp hv
      exact Lib.Json.Value.wf_mapStr (fun _ => Lib.Json.rawOk_escapeHtml) w (h.wf k w hw)
    · intro k v hv
      rw [hlookup] at hv
      obtain ⟨w, hw, rfl⟩ := Option.map_eq_some_iff.mp hv
      rw [Lib.Json.Value.depth_mapStr]
      exact h.depth k w hw
  have hrewrite : rewrite edit d = (edit (some read)).bind (renderSentinel t) := by
    rw [rewrite, hparse]
  rw [hrewrite, ← hlookup key]
  cases hnew : new (read.lookup key) with
  | none => exact .inl ⟨rfl, by rw [he.fails read hnew]; rfl⟩
  | some n =>
    obtain ⟨raw', hedit, hrep⟩ := he.writes read n hnew
    refine .inr ⟨n, raw', rfl, ?_, by rw [hedit]; rfl, hrep.own, fun k hk => ?_⟩
    · refine hrep.encodable hread fun v hv => ?_
      refine he.fits (read.lookup key) v (fun w hw => ⟨hread.wf _ w hw, hread.depth _ w hw⟩) ?_
      rw [hnew, hv]
    · rw [hrep.rest k hk, hlookup]

/-- One edit after the other, written out. -/
theorem rewrite_twice (he : RewritesKey edit key new) (he' : RewritesKey edit' key' new')
    (hne : key ≠ key')
    (h : Encodable raw) {t d : Text} (htrim : trimList isSpace t = t)
      (hplain : ¬sentinelOpen <:+: t)
    (hd : renderSentinel t raw = some d) :
    ((new ((raw.lookup key).map fun v => v.mapStr escapeHtml) = none ∨
        new' ((raw.lookup key').map fun v => v.mapStr escapeHtml) = none) ∧
      (rewrite edit d).bind (rewrite edit') = none) ∨
    ∃ n n' last, new ((raw.lookup key).map fun v => v.mapStr escapeHtml) = some n ∧
      new' ((raw.lookup key').map fun v => v.mapStr escapeHtml) = some n' ∧ Encodable last ∧
      (rewrite edit d).bind (rewrite edit') = renderSentinel t last ∧
      last.lookup key = n.map (fun v => v.mapStr escapeHtml) ∧ last.lookup key' = n' ∧
      ∀ k, k ≠ key → k ≠ key' → last.lookup k = (raw.lookup k).map fun v =>
        v.mapStr escapeHtml := by
  rcases rewrite_rendered he h htrim hplain hd with ⟨hnone, hfail⟩ | ⟨n, mid, hn, hmid, hwrite,
    hown, hrest⟩
  · exact .inl ⟨.inl hnone, by rw [hfail]; rfl⟩
  · obtain ⟨d', hd'⟩ := hmid.renders t
    rw [hwrite, hd', Option.bind_some]
    -- The second edit sees its own value as it was: compacting it again changes nothing.
    have hkey' : (mid.lookup key').map (fun v => v.mapStr escapeHtml) =
        (raw.lookup key').map fun v => v.mapStr escapeHtml := by
      rw [hrest key' hne.symm, Option.map_map]
      exact Option.map_congr fun v _ => mapStr_escapeHtml v
    rcases rewrite_rendered he' hmid htrim hplain hd' with
      ⟨hnone, hfail⟩ | ⟨n', last, hn', hlast, hwrite', hown', hrest'⟩
    · exact .inl ⟨.inr (by rw [← hkey']; exact hnone), hfail⟩
    · refine .inr ⟨n, n', last, hn, by rw [← hkey']; exact hn', hlast, hwrite', ?_, hown', ?_⟩
      · rw [hrest' key hne, hown]
      · intro k hk hk'
        rw [hrest' k hk', hrest k hk, Option.map_map]
        exact Option.map_congr fun v _ => mapStr_escapeHtml v

/-- **Edits of different keys commute.**  After both, in either order, the key maps say the same
under every key: the two new values were computed from the two old ones. -/
theorem rewrite_comm (he : RewritesKey edit key new) (he' : RewritesKey edit' key' new')
    (hne : key ≠ key')
    (h : Encodable raw) {t d : Text} (htrim : trimList isSpace t = t)
      (hplain : ¬sentinelOpen <:+: t)
    (hd : renderSentinel t raw = some d) :
    (rewrite edit d).bind (rewrite edit') = (rewrite edit' d).bind (rewrite edit) := by
  rcases rewrite_twice he he' hne h htrim hplain hd with
    ⟨hnone, hfail⟩ | ⟨n, n', last, hn, hn', hlast, hwrite, hown, hown', hrest⟩ <;>
    rcases rewrite_twice he' he hne.symm h htrim hplain hd with
      ⟨hnone₂, hfail₂⟩ | ⟨m', m, last₂, hm', hm, hlast₂, hwrite₂, hown₂', hown₂, hrest₂⟩
  · rw [hfail, hfail₂]
  · rcases hnone with hnone | hnone
    · rw [hm] at hnone
      cases hnone
    · rw [hm'] at hnone
      cases hnone
  · rcases hnone₂ with hnone | hnone
    · rw [hn'] at hnone
      cases hnone
    · rw [hn] at hnone
      cases hnone
  · rw [hn] at hm
    rw [hn'] at hm'
    obtain rfl := Option.some.inj hm
    obtain rfl := Option.some.inj hm'
    rw [hwrite, hwrite₂]
    refine render_congr hlast hlast₂ (fun k => ?_) t
    have htwice (o : Option Value) : (o.map fun v => v.mapStr escapeHtml).map
        (fun v => v.mapStr escapeHtml) = o.map fun v => v.mapStr escapeHtml := by
      rw [Option.map_map]
      exact Option.map_congr fun v _ => mapStr_escapeHtml v
    by_cases hk : k = key
    · subst hk
      rw [hown, hown₂, htwice]
    · by_cases hk' : k = key'
      · subst hk'
        rw [hown', hown₂', htwice]
      · rw [hrest k hk hk', hrest₂ k hk' hk]

end Edits

/-! ## 4. Edits of the source -/

/-- The map that is recorded under a key, from the value of the key. -/
def readOwn (elem : Value → Value) : Option Value → Option Raw
  | none => some ∅
  | some v => readMap elem v

theorem recorded_eq (elem : Value → Value) (raw : Raw) (key : Text) :
    recorded elem raw key = readOwn elem (raw.lookup key) := by
  unfold recorded
  cases raw.lookup key <;> rfl

/-- What is read from a record can be stored again: reading elements does not make them deeper. -/
theorem storable_readOwn {elem : Value → Value} (helem : Reads elem) {old : Option Value} {m : Raw}
    (hold : ∀ w, old = some w → Fits w) (h : readOwn elem old = some m) : Storable m := by
  cases old with
  | none =>
    cases h
    exact storable_empty
  | some w =>
    -- The map is read from a key map with this one key.
    have hrep := replaces_insert ∅ ([] : Text) w
    have henc : Encodable ((∅ : Raw).insert [] w) := by
      refine hrep.encodable encodable_empty fun v hv => ?_
      cases hv
      exact hold _ rfl
    have hrecorded : recorded elem ((∅ : Raw).insert [] w) [] = some m := by
      rw [recorded_eq, hrep.own]
      exact h
    exact storable_recorded helem henc hrecorded

/-- An edit of the map that is recorded under a key rewrites that key. -/
theorem merged_rewrites {elem : Value → Value} (helem : Reads elem) (key : Text)
    {f : Option Raw → Option Raw}
    (hf : ∀ o m, (∀ r, o = some r → Storable r) → f o = some m → Storable m) :
    RewritesKey (fun raw => (f (recorded elem (raw.getD ∅) key)).map (mergedRaw (raw.getD ∅) key))
      key
      fun old => (f (readOwn elem old)).map fun m => if m.entries.isEmpty then none
        else some (encodeMap m) where
  fails raw h := by
    rw [Option.getD_some, recorded_eq, Option.map_eq_none_iff.mp h]
    rfl
  writes raw n h := by
    obtain ⟨m, hm, rfl⟩ := Option.map_eq_some_iff.mp h
    refine ⟨mergedRaw raw key m, ?_, replaces_merged raw key m⟩
    rw [Option.getD_some, recorded_eq, hm]
    rfl
  fits old v hold h := by
    obtain ⟨m, hm, hv⟩ := Option.map_eq_some_iff.mp h
    split at hv
    · cases hv
    · cases hv
      exact (hf _ m (fun r hr => storable_readOwn helem hold hr) hm).encode

/-- Recording the CID of a disk changes the one key for attached disks. -/
theorem updateAttachedDiskCID_rewrites (bareVolid cidVerbatim : Text) :
    ∃ new, RewritesKey (fun raw => (recorded readText (raw.getD ∅) attachedDisksSentinelKey).map
      fun disks =>
      mergedRaw (raw.getD ∅) attachedDisksSentinelKey (disks.insert bareVolid (.str cidVerbatim)))
      attachedDisksSentinelKey new := by
  have h := merged_rewrites reads_readText attachedDisksSentinelKey
    (f := fun o => o.map fun disks => disks.insert bareVolid (.str cidVerbatim)) ?_
  · simp only [Option.map_map] at h
    exact ⟨_, h⟩
  · intro o m ho hm
    obtain ⟨r, hr, rfl⟩ := Option.map_eq_some_iff.mp hm
    have htwo : (Value.str cidVerbatim).depth + 2 ≤ Lib.Json.maxDepth := by
      rw [Value.depth]
      decide
    exact (ho r hr).insert (Lib.Json.rawOk_quote cidVerbatim) htwo

/-- The overlays with the entry of one disk replaced. -/
def overlaid (key : Text) (overlay : TextMap Text) (extraKeys : List Text) (o : Option Raw) :
    Option Raw :=
  let overlays := o.map (dropKeys · key extraKeys)
  let clean := sanitizeDiskOptOverlay overlay
  if clean.entries.isEmpty then some ((overlays.getD ∅).erase key)
  else overlays.map fun overlays => overlays.insert key (mapValue (ofTexts clean))

theorem setVMDiskOptOverlay_eq {key : Text} (hkey : ¬key.isEmpty) (overlay : TextMap Text)
    (extraKeys : List Text) (desc : Text) : setVMDiskOptOverlay key overlay extraKeys desc =
      rewrite (fun raw => (overlaid key overlay extraKeys
        (recorded readTextMap (raw.getD ∅) diskOptOverlaysSentinelKey)).map
          (mergedRaw (raw.getD ∅) diskOptOverlaysSentinelKey)) desc := by
  rw [setVMDiskOptOverlay, if_neg hkey]
  refine congrArg (rewrite · desc) (funext fun raw => ?_)
  unfold overlaid
  dsimp only
  split
  · rfl
  · rw [Option.map_map, Option.map_map, Option.map_map]
    rfl

/-- Setting the options of a disk changes the one key for overlays, also when it only drops some. -/
theorem setVMDiskOptOverlay_rewrites (key : Text) (overlay : TextMap Text) (extraKeys : List Text) :
    ∃ new, RewritesKey (fun raw => (overlaid key overlay extraKeys
        (recorded readTextMap (raw.getD ∅) diskOptOverlaysSentinelKey)).map
          (mergedRaw (raw.getD ∅) diskOptOverlaysSentinelKey)) diskOptOverlaysSentinelKey new := by
  refine ⟨_, merged_rewrites reads_readTextMap diskOptOverlaysSentinelKey fun o m ho hm => ?_⟩
  have hdropped : ∀ r, o.map (dropKeys · key extraKeys) = some r → Storable r := by
    intro r hr
    obtain ⟨r', hr', rfl⟩ := Option.map_eq_some_iff.mp hr
    exact storable_dropKeys (ho r' hr') key extraKeys
  unfold overlaid at hm
  dsimp only at hm
  split at hm
  · cases hm
    refine Storable.erase ?_ key
    cases hr : o.map (dropKeys · key extraKeys) with
    | none => exact storable_empty
    | some r => exact hdropped r hr
  · obtain ⟨r, hr, rfl⟩ := Option.map_eq_some_iff.mp hm
    obtain ⟨hwf, hdepth⟩ := storable_ofTexts (sanitizeDiskOptOverlay overlay)
    exact (hdropped r hr).insert hwf hdepth

/-- The record of an attached disk and the record of its options can be written in either order. -/
theorem attached_overlay_comm (h : Encodable raw) {t d : Text} (htrim : trimList isSpace t = t)
    (hplain : ¬sentinelOpen <:+: t) (hd : renderSentinel t raw = some d)
    {bareVolid cidVerbatim key : Text}
    (hargs : ¬(cidVerbatim.isEmpty || bareVolid.isEmpty)) (hkey : ¬key.isEmpty)
      (overlay : TextMap Text)
    (extraKeys : List Text) :
    (updateAttachedDiskCID bareVolid cidVerbatim d).bind
      (setVMDiskOptOverlay key overlay extraKeys) =
      (setVMDiskOptOverlay key overlay extraKeys d).bind
        (updateAttachedDiskCID bareVolid cidVerbatim) := by
  obtain ⟨new, hnew⟩ := updateAttachedDiskCID_rewrites bareVolid cidVerbatim
  obtain ⟨new', hnew'⟩ := setVMDiskOptOverlay_rewrites key overlay extraKeys
  have hcomm := rewrite_comm hnew hnew' (by decide) h htrim hplain hd
  have hattached : updateAttachedDiskCID bareVolid cidVerbatim = rewrite fun raw =>
      (recorded readText (raw.getD ∅) attachedDisksSentinelKey).map fun disks =>
        mergedRaw (raw.getD ∅) attachedDisksSentinelKey
          (disks.insert bareVolid (.str cidVerbatim)) := by
    funext desc
    rw [updateAttachedDiskCID, if_neg hargs]
  rw [hattached, funext (setVMDiskOptOverlay_eq hkey overlay extraKeys)]
  exact hcomm

/-! ## 5. The codec -/

/-- **The sentinel is a codec.**  Behind a trimmed text without the opening of a sentinel, every key
map whose values are JSON nested less than the scanner's limit is read back: the same text, the same
keys, and values that say the same.  Two edits that each rewrite a key of their own give one
description in either order.  The first part is the round trip; the second is `rewrite_comm`, for
which the first edit has to be read back by the second. -/
theorem sentinel_codec (t : Text) (raw : Raw) (htrim : trimList isSpace t = t)
    (hplain : ¬sentinelOpen <:+: t)
    (hraw : ∀ k v, raw.lookup k = some v → v.wf = true ∧ v.depth < Lib.Json.maxDepth) :
    ∃ d raw', renderSentinel t raw = some d ∧ parseSentinel d = (t, some raw') ∧
      (∀ k, (raw'.lookup k).map Value.said = (raw.lookup k).map Value.said) ∧
      ∀ edit edit' key key' new new', RewritesKey edit key new → RewritesKey edit' key' new' →
        key ≠ key' →
        (rewrite edit d).bind (rewrite edit') = (rewrite edit' d).bind (rewrite edit) := by
  have henc : Encodable raw := ⟨fun k v h => (hraw k v h).1, fun k v h => (hraw k v h).2⟩
  obtain ⟨d, hd⟩ := henc.renders t
  obtain ⟨raw', hparse, hlookup⟩ := parse_rendered henc htrim hplain hd
  refine ⟨d, raw', hd, hparse, fun k => ?_, ?_⟩
  · rw [hlookup, Option.map_map]
    exact Option.map_congr fun v hv => Lib.Json.Value.said_compact (henc.wf k v hv)
  · intro edit edit' key key' new new' he he' hne
    exact rewrite_comm he he' hne henc htrim hplain hd

/-- Two keys, an array with a terminator in one of them, behind a line of text. -/
def codecSample : Raw :=
  (AList.singleton "b-->".toList (Value.arr (.cons (.str "-->".toList) .nil))).insert "a".toList
    .null

theorem sentinel_codec_sample : ∃ d raw', renderSentinel "note".toList codecSample = some d ∧
    parseSentinel d = ("note".toList, some raw') ∧
    (raw'.lookup "b-->".toList).map Value.said =
      (codecSample.lookup "b-->".toList).map Value.said := by
  have hraw : ∀ k v, codecSample.lookup k = some v → v.wf = true ∧ v.depth < Lib.Json.maxDepth := by
    intro k v hv
    have hmem := AList.mem_lookup_iff.mp hv
    have hcases : (⟨k, v⟩ : Sigma fun _ : Text => Value) = ⟨"a".toList, .null⟩ ∨
        (⟨k, v⟩ : Sigma fun _ : Text => Value) =
          ⟨"b-->".toList, .arr (.cons (.str "-->".toList) .nil)⟩ := by
      rcases List.mem_cons.mp hmem with hmem | hmem
      · exact .inl hmem
      · exact .inr (List.mem_singleton.mp hmem)
    rcases hcases with heq | heq
    · cases heq
      exact ⟨rfl, by decide⟩
    · cases heq
      exact ⟨by decide, by decide⟩
  obtain ⟨d, raw', hd, hparse, hspelled, -⟩ :=
    sentinel_codec "note".toList codecSample (by decide) (by decide) hraw
  exact ⟨d, raw', hd, hparse, hspelled _⟩

/-- Arrays inside each other. -/
def nested : Nat → Value
  | 0 => .null
  | n + 1 => .arr (.cons (nested n) .nil)

theorem nested_wf (n : Nat) : (nested n).wf = true := by
  induction n with
  | zero => rfl
  | succ n ih => rw [nested, Value.wf, Elems.wf, ih]; rfl

theorem nested_depth (n : Nat) : (nested n).depth = n := by
  induction n with
  | zero => rfl
  | succ n ih =>
    rw [nested, Value.depth, Elems.depth, ih, Elems.depth, Nat.max_eq_left (Nat.zero_le n)]

/-- A value at the limit, alone under a key: it is JSON, and no description is written for it,
because the object around it is one level deeper. -/
theorem limit_value_refused {v : Value} (hwf : v.wf = true) (hdepth : v.depth = Lib.Json.maxDepth)
    (t : Text) :
    (∀ k w, (AList.singleton "k".toList v : Raw).lookup k = some w → parse (print w) = some w) ∧
    ((AList.singleton "k".toList v : Raw).lookup "k".toList).isSome ∧
    renderSentinel t (AList.singleton "k".toList v) = none := by
  refine ⟨fun k w hw => ?_, rfl, ?_⟩
  · have hmem := List.mem_singleton.mp (AList.mem_lookup_iff.mp hw)
    cases hmem
    exact Lib.Json.parse_print hwf hdepth.le
  · have hempty : ¬(AList.singleton "k".toList v : Raw).entries.isEmpty = true := Bool.false_ne_true
    have hdeep : ((AList.singleton "k".toList v : Raw).entries.any fun e =>
        Lib.Json.maxDepth ≤ e.2.depth) = true := by
      rw [List.any_eq_true]
      exact ⟨_, List.mem_singleton.mpr rfl, decide_eq_true hdepth.ge⟩
    rw [renderSentinel, if_neg hempty, if_pos hdeep]

/-- A key map with a value that is nested as deep as the limit. -/
def deepSample : Raw := AList.singleton "k".toList (nested Lib.Json.maxDepth)

/-- **A value at the limit is refused**: every value is JSON, and `RenderSentinel` ends with an
error.  The encoder counts the object around the value, so the value itself must be nested less than
the limit. -/
theorem deep_value_refused : (∀ k v, deepSample.lookup k = some v → parse (print v) = some v) ∧
    (deepSample.lookup "k".toList).isSome ∧ renderSentinel "note".toList deepSample = none := by
  unfold deepSample
  exact limit_value_refused (nested_wf _) (nested_depth _) _

end Vm
