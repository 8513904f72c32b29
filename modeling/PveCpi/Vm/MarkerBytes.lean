/-
# The marker that is written is the marker that is read

`FormatStorageAllocationMarker` checks the fields one by one, and `ParseStorageAllocationMarker`
counts its two lines in the whole description.  The check of the namespace keeps the second line
out, because it has a slash, and lets the first one in.

* `roundTrip_iff`: the marker comes back, in front of and behind texts without its lines, exactly
  when its namespace is UTF-8 and does not say the first line.

Here the fields and the descriptions are Go strings, which are bytes.  The encoder writes a
replacement character for every byte that is not part of a character, so the string that comes back
is another one.

A statement about texts would hide the first of the two conditions: between Lean's strings and Go's
there are the strings that are not UTF-8, and a namespace is not checked for it.  So the marker is
taken once more with byte strings, and the two levels are connected: the encoder writes what the
strings SPELL (`byteMarkerValue_eq`), and from there on everything is a fact about texts.

The description is bytes as well, and a stray byte next to the marker must not be able to disturb
it; that it is not is `text_marked`, since the marker begins and ends with an ASCII character.
-/
import PveCpi.Vm.Marker
import PveCpi.Lib.Utf8

namespace Vm

open Lib.Json (Value Members print quote)
open Lib.Text (isSpace trimList)
open Lib.Occurs
open Lib.Utf8 (encode text valid)

/-! ## 1. Markers of byte strings -/

abbrev Bytes := List UInt8

/-- `StorageAllocationMarker`, with the strings as bytes. -/
structure ByteMarker where
  version : Int
  nameSpace : Bytes
  allocationID : Bytes
  agentSHA256 : Bytes
  kind : Bytes
deriving DecidableEq

/-- The characters that the fields spell. -/
def ByteMarker.spelled (m : ByteMarker) : Marker :=
  ⟨m.version, text m.nameSpace, text m.allocationID, text m.agentSHA256, text m.kind⟩

/-- A marker that was decoded; the decoder returns UTF-8. -/
def Marker.bytes (m : Marker) : ByteMarker :=
  ⟨m.version, encode m.nameSpace, encode m.allocationID, encode m.agentSHA256, encode m.kind⟩

/-- `validateStorageAllocationMarker`.  Everything but the length of the namespace is a question
about the characters, and a byte that is not part of one is neither space nor any letter that is
asked for. -/
def validateByteMarker (m : ByteMarker) : Bool :=
  m.version == 1 && m.kind == encode "vm".toList && storageAllocationUUID (text m.allocationID) &&
  storageAllocationDigest (text m.agentSHA256) &&
    trimList isSpace (text m.nameSpace) == text m.nameSpace &&
  !m.nameSpace.isEmpty && decide (m.nameSpace.length ≤ 1024) &&
  (text m.nameSpace).all (fun c => !(['/', '\\', '\x00', '\r', '\n'].contains c)) &&
  m.nameSpace != encode ".".toList && m.nameSpace != encode "..".toList

/-- The inside of the string that the encoder writes for a byte string: a byte that is not part of a
character becomes a replacement character. -/
def quoteBytes (bs : Bytes) : Text := quote (text bs)

/-- What `json.Marshal` writes. -/
def byteMarkerValue (m : ByteMarker) : Value :=
  .obj (.cons MarkerField.version.key (.num (toString m.version).toList)
    (.cons MarkerField.nameSpace.key (.str (quoteBytes m.nameSpace))
      (.cons MarkerField.allocationID.key (.str (quoteBytes m.allocationID))
        (.cons MarkerField.agentSHA256.key (.str (quoteBytes m.agentSHA256))
          (.cons MarkerField.kind.key (.str (quoteBytes m.kind)) .nil)))))

/-- `FormatStorageAllocationMarker`. -/
def formatByteMarker (m : ByteMarker) : Option Bytes :=
  if validateByteMarker m then
    some (encode ('\n' :: (storageAllocationMarkerStart ++ '\n' :: (print (byteMarkerValue m) ++
      '\n' :: (storageAllocationMarkerEnd ++ ['\n'])))))
  else none

/-- `ParseStorageAllocationMarker`: the two lines are ASCII, and the decoder reads what the bytes
marked them spell. -/
def parseByteMarker (description : Bytes) : Option (Option ByteMarker) :=
  match parseStorageAllocationMarker (text description) with
  | .absent => some none
  | .found m => some (some m.bytes)
  | .rejected => none

/-! ## 2. The text level

Fields that are checked by a pattern spell ASCII characters only, so the namespace is the only one
that need not be UTF-8. -/

theorem spelled_bytes {m : ByteMarker} (hns : valid m.nameSpace = true)
    (hid : valid m.allocationID = true)
    (hsha : valid m.agentSHA256 = true) (hkind : valid m.kind = true) : m.spelled.bytes = m := by
  unfold ByteMarker.spelled Marker.bytes
  rw [Lib.Utf8.encode_text hns, Lib.Utf8.encode_text hid, Lib.Utf8.encode_text hsha,
    Lib.Utf8.encode_text hkind]

/-- A string that spells ASCII characters only is UTF-8. -/
theorem valid_of_text {bs : Bytes} (h : '\ufffd' ∉ text bs) : valid bs = true := by
  rw [valid, List.all_eq_true]
  intro r hr
  cases r with
  | some c => rfl
  | none => exact absurd (List.mem_map.mpr ⟨none, hr, rfl⟩) h

theorem valid_uuid {bs : Bytes} (h : storageAllocationUUID (text bs) = true) : valid bs = true := by
  refine valid_of_text fun hmem => ?_
  simp only [storageAllocationUUID, Journal.allocationIDPattern, String.toList_ofList,
    Bool.and_eq_true, List.all_eq_true] at h
  obtain ⟨i, hi⟩ := List.mem_iff_getElem?.mp hmem
  have hchar : Journal.allocationIDChar i '\ufffd' = true :=
    h.2 ('\ufffd', i) (List.mem_zipIdx_iff_getElem?.mpr hi)
  unfold Journal.allocationIDChar at hchar
  split_ifs at hchar <;> exact absurd hchar (by decide)

theorem valid_digest {bs : Bytes} (h : storageAllocationDigest (text bs) = true) :
    valid bs = true := by
  refine valid_of_text fun hmem => ?_
  simp only [storageAllocationDigest, Journal.validFingerprint, String.toList_ofList,
    Bool.and_eq_true, List.all_eq_true] at h
  exact absurd (h.2 _ hmem) (by decide)

/-- What the checks of a marker say. -/
structure ValidBytes (m : ByteMarker) : Prop where
  kind : valid m.kind = true
  allocationID : valid m.allocationID = true
  agentSHA256 : valid m.agentSHA256 = true
  spelled : valid m.nameSpace = true → validateStorageAllocationMarker m.spelled = true

theorem byteLen_encode (cs : Text) : byteLen cs = (encode cs).length := by
  induction cs with
  | nil => rfl
  | cons c cs ih =>
    have hcons : encode (c :: cs) = String.utf8EncodeChar c ++ encode cs := rfl
    rw [hcons, List.length_append, String.length_utf8EncodeChar, ← ih]
    rfl

/-- The checks of a marker on bytes, as propositions. -/
theorem validBytes {m : ByteMarker} (h : validateByteMarker m = true) : ValidBytes m := by
  simp only [validateByteMarker, Bool.and_eq_true, beq_iff_eq, bne_iff_ne, ne_eq, decide_eq_true_eq,
    Bool.not_eq_true', List.isEmpty_eq_false_iff] at h
  obtain ⟨⟨⟨⟨⟨⟨⟨⟨⟨hversion, hkind⟩, hid⟩, hsha⟩, htrim⟩, hne⟩, hlen⟩, hall⟩, hdot⟩, hdots⟩ := h
  refine ⟨by rw [hkind]; exact Lib.Utf8.valid_encode _, valid_uuid hid, valid_digest hsha,
    fun hns => ?_⟩
  have hencode := Lib.Utf8.encode_text hns
  have hdiffer : ∀ t : Text, ¬m.nameSpace = encode t → text m.nameSpace ≠ t := by
    intro t hno heq
    exact hno (by rw [← heq, hencode])
  simp only [validateStorageAllocationMarker, ByteMarker.spelled, Bool.and_eq_true, beq_iff_eq,
    bne_iff_ne, ne_eq, Bool.not_eq_true', List.isEmpty_eq_false_iff]
  refine ⟨⟨⟨⟨⟨⟨⟨⟨⟨hversion, ?_⟩, hid⟩, hsha⟩, htrim⟩, Lib.Utf8.text_ne_nil hne⟩, ?_⟩, hall⟩,
    hdiffer _ hdot⟩, hdiffer _ hdots⟩
  · rw [hkind, Lib.Utf8.text_encode]
  · refine decide_eq_true ?_
    show byteLen (text m.nameSpace) ≤ 1024
    rw [byteLen_encode, hencode]
    exact hlen

/-- The encoder writes what the strings spell. -/
theorem byteMarkerValue_eq (m : ByteMarker) : byteMarkerValue m = markerValue m.spelled := rfl

/-! ## 3. The marker marked two texts

Where the marker stands between other text, the lines are counted in three parts. -/

/-- A marker marked two texts, line by line. -/
def marked (a payload b : Text) : Text :=
  a ++ '\n' :: (storageAllocationMarkerStart ++ '\n' :: (payload ++ '\n' ::
    (storageAllocationMarkerEnd ++ '\n' :: b)))

/-- The bytes around a marker do not change what it spells. -/
theorem text_marked (a b : Bytes) (payload : Text) :
    text (a ++ encode ('\n' :: (storageAllocationMarkerStart ++ '\n' :: (payload ++ '\n' ::
      (storageAllocationMarkerEnd ++ ['\n'])))) ++ b) = marked (text a) payload (text b) := by
  have hline : String.utf8EncodeChar '\n' = [10] := by decide
  have hsplit : ∀ mid : Text, encode ('\n' :: (mid ++ ['\n'])) = 10 :: (encode mid ++ [10]) := by
    intro mid
    rw [encode, List.flatMap_cons, List.flatMap_append, hline]
    rfl
  have hmid : '\n' :: (storageAllocationMarkerStart ++ '\n' :: (payload ++ '\n' ::
      (storageAllocationMarkerEnd ++ ['\n']))) = '\n' :: ((storageAllocationMarkerStart ++ '\n' ::
        (payload ++ '\n' :: storageAllocationMarkerEnd)) ++ ['\n']) := by
    simp only [List.append_assoc, List.cons_append]
  have hassoc : ∀ mid : Bytes, a ++ (10 :: (mid ++ [10])) ++ b = a ++ 10 :: (mid ++ 10 :: b) := by
    intro mid
    simp only [List.append_assoc, List.cons_append, List.nil_append]
  rw [hmid, hsplit, hassoc, Lib.Utf8.text_cut hline (by decide),
    Lib.Utf8.text_cut hline (by decide), Lib.Utf8.text_encode, marked]
  simp only [List.append_assoc, List.cons_append]

/-- How often each line occurs. -/
theorem count_marked {d : Text} (hd : d ∈ delimiters) {a b : Text} (ha : Silent a) (hb : Silent b)
    (payload : Text) : count d (marked a payload b) = 1 + count d payload := by
  have hone : ∀ d ∈ delimiters,
      count d storageAllocationMarkerStart + count d storageAllocationMarkerEnd = 1 := by decide
  have hsum := hone d hd
  have ha0 := silent_iff.mp ha d hd
  have hb0 := silent_iff.mp hb d hd
  rw [marked, count_delimiter_append hd (by decide), count_delimiter_append hd (by decide),
    count_delimiter_append hd (by decide), count_delimiter_append hd (by decide)]
  omega

/-- **The marker is found exactly when its JSON says neither line.** -/
theorem found_marked {m : Marker} (hvalid : validateStorageAllocationMarker m = true) {a b : Text}
    (ha : Silent a) (hb : Silent b) :
    parseStorageAllocationMarker (marked a (print (markerValue m)) b) = .found m ↔
      Silent (print (markerValue m)) := by
  have hcount := fun d hd => count_marked (d := d) hd ha hb (print (markerValue m))
  constructor
  · intro h
    obtain ⟨hs, he, -⟩ := found_iff.mp h
    rw [hcount _ (by decide)] at hs he
    refine silent_iff.mpr fun d hd => ?_
    simp only [delimiters, List.mem_cons, List.not_mem_nil, or_false] at hd
    rcases hd with rfl | rfl
    · omega
    · omega
  · intro h
    have hzero := silent_iff.mp h
    refine found_iff.mpr ⟨by rw [hcount _ (by decide), hzero _ (by decide)],
      by rw [hcount _ (by decide), hzero _ (by decide)], a ++ ['\n'],
      '\n' :: (print (markerValue m) ++ ['\n']), '\n' :: b, ?_, decodeMarker_format hvalid⟩
    simp only [marked, List.append_assoc, List.cons_append, List.nil_append]

/-! ## 4. Round trip -/

/-- **A marker comes back exactly when its namespace is UTF-8 and does not say the first line.**  A
namespace that is not UTF-8 is written with replacement characters and comes back as another one;
one that says the first line makes that line occur twice; and any other one is read back.  The
second line cannot be said: a namespace has no slash. -/
theorem roundTrip_iff (m : ByteMarker) (out a b : Bytes) (hout : formatByteMarker m = some out)
    (ha : Silent (text a)) (hb : Silent (text b)) :
    parseByteMarker (a ++ out ++ b) = some (some m) ↔
      valid m.nameSpace = true ∧ ¬storageAllocationMarkerStart <:+: text m.nameSpace := by
  unfold formatByteMarker at hout
  split at hout
  · rename_i hvalidate
    have hvalid := validBytes hvalidate
    cases hout
    rw [parseByteMarker, text_marked]
    constructor
    · intro h
      split at h
      · cases h
      · rename_i m' hfound
        have hm : m'.bytes = m := Option.some.inj (Option.some.inj h)
        -- What is decoded is UTF-8.
        have hns : valid m.nameSpace = true := by
          rw [← hm]
          exact Lib.Utf8.valid_encode _
        refine ⟨hns, ?_⟩
        have hspelled : m' = m.spelled := by
          rw [← hm]
          simp only [ByteMarker.spelled, Marker.bytes, Lib.Utf8.text_encode]
        rw [byteMarkerValue_eq, hspelled] at hfound
        have hsilent := (found_marked (hvalid.spelled hns) ha hb).mp hfound
        exact (silent_markerValue (hvalid.spelled hns)).mp hsilent
      · cases h
    · rintro ⟨hns, hstart⟩
      have hsilent := (silent_markerValue (hvalid.spelled hns)).mpr hstart
      rw [byteMarkerValue_eq, (found_marked (hvalid.spelled hns) ha hb).mpr hsilent]
      dsimp only
      rw [spelled_bytes hns hvalid.allocationID hvalid.agentSHA256 hvalid.kind]
  · cases hout

/-- A marker with the given namespace. -/
def sampleByteMarker (nameSpace : String) : ByteMarker where
  version := 1
  nameSpace := encode nameSpace.toList
  allocationID := encode "00000000-0000-4000-8000-000000000000".toList
  agentSHA256 := encode "aaaaaaaaaaaaaaaaaaaaaaaaaaaaaaaaaaaaaaaaaaaaaaaaaaaaaaaaaaaaaaaa".toList
  kind := encode "vm".toList

theorem sampleByteMarker_formats (nameSpace : String)
    (h : validateByteMarker (sampleByteMarker nameSpace) = true) :
    ∃ out, formatByteMarker (sampleByteMarker nameSpace) = some out := by
  unfold formatByteMarker
  rw [if_pos h]
  exact ⟨_, rfl⟩

/-- A marker in front of and behind other text. -/
theorem roundTrip_sample : ∃ out, formatByteMarker (sampleByteMarker "director") = some out ∧
    parseByteMarker (encode "notes".toList ++ out ++ encode "more".toList) =
      some (some (sampleByteMarker "director")) := by
  obtain ⟨out, hout⟩ := sampleByteMarker_formats "director" (by decide +kernel)
  have hbefore : Silent (text (encode "notes".toList)) := by decide +kernel
  have hbehind : Silent (text (encode "more".toList)) := by decide +kernel
  refine ⟨out, hout, (roundTrip_iff _ out _ _ hout hbefore hbehind).mpr ?_⟩
  decide +kernel

/-- The marker with the first line in its namespace, written and read. -/
theorem firstLine_evaluated :
    ((formatByteMarker (sampleByteMarker "[bosh_storage_allocation]")).any fun out =>
      (parseByteMarker out).isNone) = true := by
  decide +kernel

/-- **A namespace that says the first line**: the marker is written, and the description that
carries it is rejected. -/
theorem first_line_rejected : ∃ out,
    formatByteMarker (sampleByteMarker "[bosh_storage_allocation]") = some out ∧
    parseByteMarker out = none := by
  obtain ⟨out, hout, hnone⟩ := (Option.any_eq_true _ _).mp firstLine_evaluated
  exact ⟨out, hout, Option.isNone_iff_eq_none.mp hnone⟩

end Vm
