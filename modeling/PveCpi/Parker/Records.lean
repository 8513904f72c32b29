/-
# The records of parked disks

`parkerProvEntry` of `pve/parker.go`, one record of the map that a parker keeps under
`bosh_parked_disks` in the sentinel of its description, and what the JSON encoder and decoder make
of such a map.

The decoder keeps what it can, and its errors are ignored.  A member of the wrong type leaves its
field as it was; `null` leaves a text as it was and makes the options nil; a record of the wrong
type is a record with nothing in it.

* `read_value`: a record that was written is read back as it was.
* `readDisks_encode`: so is the whole map.

The record is read leniently and written strictly, so the two directions differ in strength.
Whatever stands in the description, a record comes out; what was written comes out as it was.  Only
the second is a law, and it is all that the writers need, since a writer reads, edits and writes.

`Same` compares options as maps and every other field as a text: the decoder builds the map of the
options anew, in an order of its own.
-/
import PveCpi.Lib.Assoc
import PveCpi.Vm.Descriptions

namespace Parker

open Vm (Text TextMap Raw foldName membersList listMembers membersList_encoded mapValue ofTexts
  encodeMap)
open Lib.Json (Value Elems Members quote unquote escapeHtml)
open Lib.Assoc
open Stemcell (sortedMembers mem_sortedMembers nodup_sortedMembers)

/-! ## 1. A record -/

/-- The fields of a record that hold a text. -/
inductive ProvField
  | allocationID | allocationNamespace | allocationBacking | diskCID | sourceVMCID | parkedAt | node
  | directorID | volid | slot
deriving DecidableEq

/-- In the order in which the encoder writes them. -/
def ProvField.all : List ProvField :=
  [.allocationID, .allocationNamespace, .allocationBacking, .diskCID, .sourceVMCID, .parkedAt,
    .node, .directorID, .volid, .slot]

def ProvField.key : ProvField → Text
  | .allocationID => "allocation_id".toList
  | .allocationNamespace => "allocation_namespace".toList
  | .allocationBacking => "allocation_backing".toList
  | .diskCID => "disk_cid".toList
  | .sourceVMCID => "source_vm_cid".toList
  | .parkedAt => "parked_at".toList
  | .node => "node".toList
  | .directorID => "director_id".toList
  | .volid => "volid".toList
  | .slot => "slot".toList

/-- The field is written even when it is empty. -/
def ProvField.always : ProvField → Bool
  | .diskCID | .parkedAt | .node => true
  | _ => false

def optsKey : Text := "opts".toList

/-- `parkerProvEntry`; options that are empty stand for nil. -/
structure ParkerProvEntry where
  text : ProvField → Text := fun _ => []
  opts : TextMap Text := ∅

/-- Two records say the same: the options are a map, and its order says nothing. -/
structure ParkerProvEntry.Same (a b : ParkerProvEntry) : Prop where
  text : a.text = b.text
  opts : ∀ k, a.opts.lookup k = b.opts.lookup k

/-! ## 2. Reading a record

Member by member, with what the field had before as the default. -/

/-- The text field that a member is stored in; names are lower case and fold to themselves. -/
def provField (key : Text) : Option ProvField :=
  ProvField.all.find? fun f => decide (f.key = key.map foldName)

/-- A text of a decoded map; anything but a string leaves it empty. -/
def textOf : Value → Text
  | .str s => unquote s
  | _ => []

/-- Decode options into the ones that are there. -/
def readOpts (opts : TextMap Text) : Value → TextMap Text
  | .null => ∅
  | .obj ms => putAll opts ((membersList ms).map fun e => (unquote e.1, textOf e.2))
  | _ => opts

/-- Store a member in its field. -/
def storeProv (e : ParkerProvEntry) (key : Text) (v : Value) : ParkerProvEntry :=
  match provField key with
  | some f =>
    match v with
    | .str s => { e with text := Function.update e.text f (unquote s) }
    | _ => e
  | none => if key.map foldName = optsKey then { e with opts := readOpts e.opts v } else e

/-- A decoded record. -/
def readEntry : Value → ParkerProvEntry
  | .obj ms => (membersList ms).foldl (fun e m => storeProv e (unquote m.1) m.2) {}
  | _ => {}

/-- The map of records that a value decodes to; `null` makes it nil. -/
def readDisks : Value → Option (TextMap ParkerProvEntry)
  | .null => none
  | .obj ms => some (putAll ∅ ((membersList ms).map fun e => (unquote e.1, readEntry e.2)))
  | _ => some ∅

/-! ## 3. Writing a record -/

/-- The members that `json.Marshal` writes for the texts of a record. -/
def ParkerProvEntry.textMembers (e : ParkerProvEntry) : List (Text × Value) :=
  (ProvField.all.filter fun f => f.always || !(e.text f).isEmpty).map fun f =>
    (f.key, .str (e.text f))

/-- The members for its options. -/
def ParkerProvEntry.optMembers (e : ParkerProvEntry) : List (Text × Value) :=
  if e.opts.entries.isEmpty then [] else [(optsKey, mapValue (ofTexts e.opts))]

/-- A record as a value, its strings not yet encoded. -/
def ParkerProvEntry.value (e : ParkerProvEntry) : Value :=
  .obj (listMembers (e.textMembers ++ e.optMembers))

/-- The records as a decoded map. -/
def ofDisks (disks : TextMap ParkerProvEntry) : Raw := mapVals ParkerProvEntry.value disks

/-! ## 4. What was written is read back

Each field is written at most once, under its own name, so nothing is stored twice. -/

theorem ProvField.mem_all (f : ProvField) : f ∈ ProvField.all := by
  cases f <;> decide

theorem provField_key (f : ProvField) : provField f.key = some f := by
  cases f <;> decide

theorem provField_opts : provField optsKey = none := by decide

theorem perm_sortedMembers (m : Raw) : (sortedMembers m).Perm (m.entries.map fun e => (e.1, e.2)) :=
  List.perm_insertionSort _ _

theorem lookup_ofTexts (m : TextMap Text) (k : Text) :
    (ofTexts m).lookup k = (m.lookup k).map Value.str := by
  refine Option.ext fun v => ?_
  rw [Vm.lookup_ofTexts, Option.map_eq_some_iff]
  exact exists_congr fun s => and_congr_right fun _ => eq_comm

/-- Reading encoded texts stores each of them in its field. -/
theorem foldl_storeProv (t : ProvField → Text) (fs : List ProvField) (e : ParkerProvEntry) :
    fs.foldl (fun e f => storeProv e f.key (.str (quote (t f)))) e =
      { e with text := fun f => if f ∈ fs then t f else e.text f } := by
  induction fs generalizing e with
  | nil => simp
  | cons g fs ih =>
    have hstore : storeProv e g.key (.str (quote (t g))) =
        { e with text := Function.update e.text g (t g) } := by
      simp only [storeProv, provField_key, Lib.Json.unquote_quote]
    rw [List.foldl_cons, hstore, ih]
    congr 1
    funext f
    by_cases hf : f ∈ fs
    · rw [if_pos hf, if_pos (List.mem_cons_of_mem _ hf)]
    · by_cases hg : f = g
      · subst hg
        simp [hf]
      · simp [hf, hg]

/-- Encoded options are read as they are. -/
theorem readOpts_encode (opts : TextMap Text) (k : Text) :
    (readOpts ∅ ((mapValue (ofTexts opts)).mapStr quote)).lookup k = opts.lookup k := by
  have hread : readOpts ∅ ((mapValue (ofTexts opts)).mapStr quote) =
      putAll ∅ ((sortedMembers (ofTexts opts)).map fun e => (e.1, textOf (e.2.mapStr quote))) := by
    rw [mapValue, Value.mapStr, readOpts, membersList_encoded, List.map_map]
    congr 1
    refine List.map_congr_left fun e _ => ?_
    rw [Function.comp, Lib.Json.unquote_quote]
  rw [hread, lookup_putAll]
  refine (lastOf_map (fun v => textOf (v.mapStr quote)) k none (sortedMembers (ofTexts opts))).trans
    ?_
  have hsorted := lookup_putAll_of_perm (perm_sortedMembers (ofTexts opts)) k
  rw [lookup_putAll] at hsorted
  rw [show lastOf k none (sortedMembers (ofTexts opts)) = (ofTexts opts).lookup k from hsorted,
    lookup_ofTexts, Option.map_map]
  cases opts.lookup k with
  | none => rfl
  | some s => rw [Option.map_some, Function.comp, Value.mapStr, textOf, Lib.Json.unquote_quote]

/-- **A record that was written is read back as it was.**  Every member that is written has its
field's type, and a field that is not written is empty. -/
theorem read_value (e : ParkerProvEntry) : (readEntry (e.value.mapStr quote)).Same e := by
  have hread : readEntry (e.value.mapStr quote) =
      e.optMembers.foldl (fun e m => storeProv e m.1 (m.2.mapStr quote))
        (e.textMembers.foldl (fun e m => storeProv e m.1 (m.2.mapStr quote)) {}) := by
    rw [ParkerProvEntry.value, Value.mapStr, readEntry, membersList_encoded, List.foldl_map,
      List.foldl_append]
    simp only [Lib.Json.unquote_quote]
  have htexts : e.textMembers.foldl (fun e m => storeProv e m.1 (m.2.mapStr quote)) {} =
      { text := e.text } := by
    rw [ParkerProvEntry.textMembers, List.foldl_map]
    refine (foldl_storeProv e.text _ {}).trans ?_
    congr 1
    funext f
    split
    · rfl
    · rename_i hf
      rw [List.mem_filter, not_and] at hf
      have hblank := hf f.mem_all
      simp only [Bool.or_eq_true, not_or, Bool.not_eq_true, Bool.not_eq_false',
        List.isEmpty_iff] at hblank
      exact hblank.2.symm
  rw [hread, htexts, ParkerProvEntry.optMembers]
  split
  · rename_i hnone
    refine ⟨rfl, fun k => ?_⟩
    have hempty : e.opts = ∅ := AList.ext (List.isEmpty_iff.mp hnone)
    rw [hempty]
    rfl
  · refine ⟨?_, fun k => ?_⟩
    · rw [List.foldl_cons, List.foldl_nil, storeProv, provField_opts]
      rfl
    · rw [List.foldl_cons, List.foldl_nil, storeProv, provField_opts]
      exact readOpts_encode e.opts k

/-- A record can be written inside a map of records. -/
theorem value_storable (e : ParkerProvEntry) :
    (e.value.mapStr quote).wf = true ∧ e.value.depth + 2 ≤ Lib.Json.maxDepth := by
  have hmembers : ∀ m ∈ e.textMembers ++ e.optMembers, (m.2.mapStr quote).wf = true ∧
      m.2.depth ≤ 1 := by
    intro m hm
    rcases List.mem_append.mp hm with hm | hm
    · obtain ⟨f, -, rfl⟩ := List.mem_map.mp hm
      exact ⟨Lib.Json.rawOk_quote _, Nat.zero_le 1⟩
    · unfold ParkerProvEntry.optMembers at hm
      split at hm
      · cases hm
      · cases List.mem_singleton.mp hm
        exact ⟨Vm.ofTexts_wf e.opts, Vm.ofTexts_depth e.opts⟩
  have hdepth : e.value.depth ≤ 2 :=
    Nat.succ_le_succ (Vm.listMembers_depth fun m hm => (hmembers m hm).2)
  have hmax : (4 : Nat) ≤ Lib.Json.maxDepth := by decide
  exact ⟨Vm.listMembers_encoded_wf fun m hm => (hmembers m hm).1, by omega⟩

theorem storable_ofDisks (disks : TextMap ParkerProvEntry) : Vm.Storable (ofDisks disks) := by
  have hentry : ∀ k v, (ofDisks disks).lookup k = some v → ∃ e : ParkerProvEntry, v = e.value := by
    intro k v hv
    rw [ofDisks, lookup_mapVals] at hv
    obtain ⟨e, -, rfl⟩ := Option.map_eq_some_iff.mp hv
    exact ⟨e, rfl⟩
  constructor
  · intro k v hv
    obtain ⟨e, rfl⟩ := hentry k v hv
    exact (value_storable e).1
  · intro k v hv
    obtain ⟨e, rfl⟩ := hentry k v hv
    exact (value_storable e).2

/-- **A map of records that was written is read back**, every record as it was. -/
theorem readDisks_encode (disks : TextMap ParkerProvEntry) :
    ∃ disks', readDisks (encodeMap (ofDisks disks)) = some disks' ∧
      ∀ k, disks'.lookup k = (disks.lookup k).map fun e => readEntry (e.value.mapStr quote) := by
  refine ⟨putAll ∅
    ((sortedMembers (ofDisks disks)).map fun e => (e.1, readEntry (e.2.mapStr quote))),
    ?_, fun k => ?_⟩
  · rw [encodeMap, mapValue, Value.mapStr, readDisks, membersList_encoded, List.map_map]
    congr 2
    refine List.map_congr_left fun e _ => ?_
    rw [Function.comp, Lib.Json.unquote_quote]
  · rw [lookup_putAll]
    refine (lastOf_map (fun v => readEntry (v.mapStr quote)) k none
      (sortedMembers (ofDisks disks))).trans ?_
    have hsorted := lookup_putAll_of_perm (perm_sortedMembers (ofDisks disks)) k
    rw [lookup_putAll] at hsorted
    rw [show lastOf k none (sortedMembers (ofDisks disks)) = (ofDisks disks).lookup k from hsorted,
      ofDisks, lookup_mapVals, Option.map_map]
    rfl

end Parker
