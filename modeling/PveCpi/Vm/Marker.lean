/-
# The allocation marker in a description

`pve/storage_allocation_marker.go`: a VM that the allocation journal pays for says so in its
description, as one JSON object between two fixed lines.  `ParseStorageAllocationMarker` accepts a
description only when each line occurs once, so any text that repeats one of them anywhere in the
description makes the marker unreadable.

* `found_iff`: a marker is found in a description exactly when it splits at the two lines, and the
  text between them is one strict object;
* `decodeMarker_format`: what `FormatStorageAllocationMarker` writes is read back;
* `decodeMarker_key`: the text between the lines has a key right behind its first quote, so it was
  not cut out of another JSON text.

The parser is strict where it can be: one object, no unknown field, no trailing text, no repeated
key.  It is also strict about the lines: each exactly once in the WHOLE description.  This makes a
marker hard to forge and easy to lose, and both matter to the modules that use this one.

`found_iff` removes the counting: with each line once there is one way to split the description, so
a found marker is the statement that there are two texts around a payload.  `Silent` is the
condition on everything else, and §5 moves it through JSON: a compact text says a line when one of
its strings does.
-/
import PveCpi.Lib.JsonText
import PveCpi.Journal.Types
import PveCpi.Vm.Tags

namespace Vm

open Lib.Json (Value Elems Members parse print quote unquote)
open Lib.Text (isSpace trimList)
open Lib.Occurs

/-! ## 1. Markers -/

def storageAllocationMarkerStart : Text := "[bosh_storage_allocation]".toList
def storageAllocationMarkerEnd : Text := "[/bosh_storage_allocation]".toList

/-- `StorageAllocationMarker`. -/
structure Marker where
  version : Int
  nameSpace : Text
  allocationID : Text
  agentSHA256 : Text
  kind : Text
deriving DecidableEq

/-- `storageAllocationUUID.MatchString`. -/
def storageAllocationUUID (s : Text) : Bool := Journal.allocationIDPattern (String.ofList s)

/-- `storageAllocationDigest.MatchString`. -/
def storageAllocationDigest (s : Text) : Bool := Journal.validFingerprint (String.ofList s)

/-- `validateStorageAllocationMarker`. -/
def validateStorageAllocationMarker (m : Marker) : Bool :=
  m.version == 1 && m.kind == "vm".toList && storageAllocationUUID m.allocationID &&
  storageAllocationDigest m.agentSHA256 && trimList isSpace m.nameSpace == m.nameSpace &&
  !m.nameSpace.isEmpty && decide (byteLen m.nameSpace ≤ 1024) &&
  m.nameSpace.all (fun c => !(['/', '\\', '\x00', '\r', '\n'].contains c)) &&
  m.nameSpace != ".".toList && m.nameSpace != "..".toList

/-! ## 2. Reading -/

inductive MarkerField
  | version | nameSpace | allocationID | agentSHA256 | kind
deriving DecidableEq

def MarkerField.all : List MarkerField := [.version, .nameSpace, .allocationID, .agentSHA256, .kind]

def MarkerField.key : MarkerField → Text
  | .version => "version".toList
  | .nameSpace => "namespace".toList
  | .allocationID => "allocation_id".toList
  | .agentSHA256 => "agent_sha256".toList
  | .kind => "kind".toList

/-- The lower-case letter that a letter folds to.  Outside ASCII only the Kelvin sign and the long
s fold to one. -/
def foldName (c : Char) : Char :=
  if c == '\u212a' then 'k' else if c == '\u017f' then 's' else c.toLower

/-- The field that the decoder stores a member in; names are lower case and fold to themselves. -/
def markerField (key : Text) : Option MarkerField :=
  MarkerField.all.find? fun f => decide (f.key = key.map foldName)

/-- Store a value; null leaves a field as it is. -/
def storeMarker (m : Marker) : MarkerField → Value → Option Marker
  | _, .null => some m
  | .version, .num lit => (Lib.Json.readInt64 lit).map fun n => { m with version := n }
  | .nameSpace, .str s => some { m with nameSpace := unquote s }
  | .allocationID, .str s => some { m with allocationID := unquote s }
  | .agentSHA256, .str s => some { m with agentSHA256 := unquote s }
  | .kind, .str s => some { m with kind := unquote s }
  | _, _ => none

/-- The strict decoder: every member is a field, and has its type. -/
def readMarker : Marker → Members → Option Marker
  | m, .nil => some m
  | m, .cons k v ms =>
    (markerField (unquote k)).bind fun f => (storeMarker m f v).bind fun m => readMarker m ms

/-- The keys of an object as decoded. -/
def decodedKeys : Members → List Text
  | .nil => []
  | .cons k _ ms => unquote k :: decodedKeys ms

/-- What the text between the two lines says. -/
def decodeMarker (payload : Text) : Option Marker :=
  match parse payload with
  | some (.obj ms) =>
    if (decodedKeys ms).Nodup then
      (readMarker ⟨0, [], [], [], []⟩ ms).filter validateStorageAllocationMarker
    else none
  | _ => none

/-- What `ParseStorageAllocationMarker` returns: no marker, one marker, or an error. -/
inductive MarkerReading
  | absent
  | found (m : Marker)
  | rejected
deriving DecidableEq

/-- `ParseStorageAllocationMarker`. -/
def parseStorageAllocationMarker (description : Text) : MarkerReading :=
  let starts := count storageAllocationMarkerStart description
  let ends := count storageAllocationMarkerEnd description
  if starts = 0 ∧ ends = 0 then .absent
  else if starts ≠ 1 ∨ ends ≠ 1 then .rejected
  else
    match between storageAllocationMarkerStart storageAllocationMarkerEnd description with
    | none => .rejected
    | some payload =>
      match decodeMarker payload with
      | none => .rejected
      | some m => .found m

/-! ## 3. Writing -/

/-- What `json.Marshal` writes for a marker. -/
def markerValue (m : Marker) : Value :=
  .obj (.cons MarkerField.version.key (.num (toString m.version).toList)
    (.cons MarkerField.nameSpace.key (.str (quote m.nameSpace))
      (.cons MarkerField.allocationID.key (.str (quote m.allocationID))
        (.cons MarkerField.agentSHA256.key (.str (quote m.agentSHA256))
          (.cons MarkerField.kind.key (.str (quote m.kind)) .nil)))))

/-- `FormatStorageAllocationMarker`. -/
def formatStorageAllocationMarker (m : Marker) : Option Text :=
  if validateStorageAllocationMarker m then
    some ('\n' :: (storageAllocationMarkerStart ++ ('\n' :: (print (markerValue m) ++ ['\n']) ++
      (storageAllocationMarkerEnd ++ ['\n']))))
  else none

/-! ## 4. What a valid marker looks like

Identifiers and digests have no bracket, so they cannot say a line; of a valid marker only the
namespace can. -/

/-- The two lines. -/
def delimiters : List Text := [storageAllocationMarkerStart, storageAllocationMarkerEnd]

/-- A text that says neither line. -/
def Silent (s : Text) : Prop := ∀ d ∈ delimiters, ¬d <:+: s

instance (s : Text) : Decidable (Silent s) :=
  inferInstanceAs (Decidable (∀ d ∈ delimiters, ¬d <:+: s))

theorem silent_of_bracket {s : Text} (h : '[' ∉ s) : Silent s := by
  intro d hd hin
  refine h (hin.subset ?_)
  simp only [delimiters, List.mem_cons, List.not_mem_nil, or_false] at hd
  rcases hd with rfl | rfl <;> decide

theorem bracket_notMem_uuid {s : Text} (h : storageAllocationUUID s = true) : '[' ∉ s := by
  simp only [storageAllocationUUID, Journal.allocationIDPattern, String.toList_ofList,
    Bool.and_eq_true, List.all_eq_true] at h
  intro hmem
  obtain ⟨i, hi⟩ := List.mem_iff_getElem?.mp hmem
  have hchar : Journal.allocationIDChar i '[' = true :=
    h.2 ('[', i) (List.mem_zipIdx_iff_getElem?.mpr hi)
  unfold Journal.allocationIDChar at hchar
  split_ifs at hchar <;> exact absurd hchar (by decide)

theorem bracket_notMem_digest {s : Text} (h : storageAllocationDigest s = true) : '[' ∉ s := by
  simp only [storageAllocationDigest, Journal.validFingerprint, String.toList_ofList,
    Bool.and_eq_true, List.all_eq_true] at h
  intro hmem
  exact absurd (h.2 _ hmem) (by decide)

/-- What the checks say that matters here. -/
structure ValidMarker (m : Marker) : Prop where
  version : m.version = 1
  kind : m.kind = "vm".toList
  allocationID : '[' ∉ m.allocationID
  agentSHA256 : '[' ∉ m.agentSHA256
  slash : '/' ∉ m.nameSpace

theorem validMarker {m : Marker} (h : validateStorageAllocationMarker m = true) :
    ValidMarker m := by
  simp only [validateStorageAllocationMarker, Bool.and_eq_true, beq_iff_eq] at h
  obtain ⟨⟨⟨⟨⟨⟨⟨⟨⟨hversion, hkind⟩, hid⟩, hsha⟩, -⟩, -⟩, -⟩, hall⟩, -⟩, -⟩ := h
  refine ⟨hversion, hkind, bracket_notMem_uuid hid, bracket_notMem_digest hsha, fun hmem => ?_⟩
  exact absurd (List.all_eq_true.mp hall _ hmem) (by decide)

/-! ## 5. Where the two lines can be

Each line starts with a bracket and has no other one, which makes it a pattern of `Lib.Occurs`. -/

theorem start_eq : storageAllocationMarkerStart = '[' :: "bosh_storage_allocation]".toList := rfl

theorem end_eq : storageAllocationMarkerEnd = '[' :: "/bosh_storage_allocation]".toList := rfl

/-- The two lines start with a bracket that they do not open again. -/
theorem delimiter_cases {d : Text} (h : d ∈ delimiters) :
    ∃ t, d = '[' :: t ∧ '[' ∉ t ∧ '_' ∈ d ∧ '"' ∉ d ∧
      ∀ c ∈ d, Lib.Json.isHtml c = false ∧ Lib.Json.isPlain c = true ∧ isSpace c = false := by
  simp only [delimiters, List.mem_cons, List.not_mem_nil, or_false] at h
  rcases h with rfl | rfl
  · exact ⟨_, start_eq, by decide, by decide, by decide, Lib.Text.forall_of_all (by decide)⟩
  · exact ⟨_, end_eq, by decide, by decide, by decide, Lib.Text.forall_of_all (by decide)⟩

theorem between_lines {s payload : Text} (hs : count storageAllocationMarkerStart s = 1)
    (he : count storageAllocationMarkerEnd s = 1) :
    between storageAllocationMarkerStart storageAllocationMarkerEnd s = some payload ↔
      ∃ x y, s = x ++ (storageAllocationMarkerStart ++
        (payload ++ (storageAllocationMarkerEnd ++ y))) := by
  rw [start_eq, end_eq] at *
  exact between_eq_some (by decide) (by decide) hs he

/-- **A marker is found where a description splits at both lines.**  Each line occurs once, so what
the parser finds between them is the middle of the only split (`Lib.Occurs.between_eq_some`). -/
theorem found_iff {description : Text} {m : Marker} :
    parseStorageAllocationMarker description = .found m ↔
      count storageAllocationMarkerStart description = 1 ∧
      count storageAllocationMarkerEnd description = 1 ∧
      ∃ x payload y, description = x ++ (storageAllocationMarkerStart ++
        (payload ++ (storageAllocationMarkerEnd ++ y))) ∧ decodeMarker payload = some m := by
  unfold parseStorageAllocationMarker
  dsimp only
  constructor
  · intro h
    split at h
    · cases h
    · split at h
      · cases h
      · rename_i hone
        rw [not_or, not_not, not_not] at hone
        split at h
        · cases h
        · rename_i payload hbetween
          split at h
          · cases h
          · rename_i m' hdecode
            cases h
            obtain ⟨x, y, hsplit⟩ := (between_lines hone.1 hone.2).mp hbetween
            exact ⟨hone.1, hone.2, x, payload, y, hsplit, hdecode⟩
  · rintro ⟨hs, he, x, payload, y, hsplit, hdecode⟩
    have hbetween := (between_lines hs he).mpr ⟨x, y, hsplit⟩
    rw [hs, he, if_neg (by simp), if_neg (by simp), hbetween]
    simp only [hdecode]

theorem count_pos_of_delimiter {d s : Text} (h : d ∈ delimiters) : 0 < count d s ↔ d <:+: s := by
  obtain ⟨t, rfl, -⟩ := delimiter_cases h
  exact count_pos

theorem silent_iff {s : Text} : Silent s ↔ ∀ d ∈ delimiters, count d s = 0 := by
  refine forall₂_congr fun d hd => ?_
  obtain ⟨t, rfl, -⟩ := delimiter_cases hd
  exact count_eq_zero.symm

/-- A letter that is in neither line cuts a text in two. -/
theorem count_delimiter_append {d : Text} (hd : d ∈ delimiters) {c : Char}
    (hc : ∀ d ∈ delimiters, c ∉ d) (x y : Text) :
    count d (x ++ c :: y) = count d x + count d y := by
  have hcd := hc d hd
  obtain ⟨t, rfl, -⟩ := delimiter_cases hd
  exact count_append_notMem hcd

theorem count_delimiter_trim {d : Text} (hd : d ∈ delimiters) (x : Text) :
    count d (trimList isSpace x) = count d x := by
  obtain ⟨t, rfl, -, -, -, hall⟩ := delimiter_cases hd
  exact count_trimList (fun c hc => (hall c hc).2.2) x

/-- A line occurs in a compact text when it occurs in one of the strings. -/
theorem silent_print {v : Value} (hwf : v.wf = true) :
    Silent (print v) ↔ ∀ t ∈ v.texts, Silent t := by
  have hprint : ∀ d ∈ delimiters, (d <:+: print v ↔ ∃ t ∈ v.texts, d <:+: t) := by
    intro d hd
    obtain ⟨t, -, -, hz, hq, -⟩ := delimiter_cases hd
    exact Lib.Json.infix_print hz (by decide) hq hwf
  constructor
  · intro h t ht d hd hin
    exact h d hd ((hprint d hd).mpr ⟨t, ht, hin⟩)
  · intro h d hd hin
    obtain ⟨t, ht, hin⟩ := (hprint d hd).mp hin
    exact h t ht d hd hin

theorem silent_quote (s : Text) : Silent (quote s) ↔ Silent s := by
  refine forall₂_congr fun d hd => not_congr ?_
  obtain ⟨t, rfl, -, -, -, hall⟩ := delimiter_cases hd
  exact Lib.Json.infix_quote (by decide) (fun c hc => ⟨(hall c hc).1, (hall c hc).2.1⟩) s

theorem silent_escapeHtml (s : Text) : Silent (Lib.Json.escapeHtml s) ↔ Silent s := by
  refine forall₂_congr fun d hd => not_congr ?_
  obtain ⟨t, rfl, -, -, -, hall⟩ := delimiter_cases hd
  refine Lib.Json.infix_escapeHtml (by decide) (fun c hc => (hall c hc).1) (fun hmem => ?_) s
  exact absurd (hall _ hmem).2.1 (by decide)

/-! ## 6. A marker that is written

The fields are written in a fixed order with the encoder's spelling. -/

theorem markerValue_wf {m : Marker} (h : m.version = 1) : (markerValue m).wf = true := by
  have hv : Lib.Json.isNumber (toString m.version).toList = true := by
    rw [h]
    decide
  have hk : ∀ f : MarkerField, Lib.Json.rawOk f.key = true := by
    intro f
    cases f <;> decide
  simp only [markerValue, Value.wf, Members.wf, hv, hk, Lib.Json.rawOk_quote, Bool.and_self]

/-- A marker reads back from its value: the five keys are written once each and taken for their
fields. -/
theorem readMarker_markerValue {m : Marker} (h : m.version = 1) :
    ∀ ms, markerValue m = .obj ms → readMarker ⟨0, [], [], [], []⟩ ms = some m ∧
      (decodedKeys ms).Nodup := by
  have hread : ∀ f : MarkerField, unquote f.key = f.key := by
    intro f
    cases f <;> decide
  have hfield : ∀ f : MarkerField, markerField f.key = some f := by
    intro f
    cases f <;> decide
  have hone : Lib.Json.readInt64 (toString (1 : Int)).toList = some 1 := by decide
  intro ms hms
  rw [markerValue, Value.obj.injEq] at hms
  subst hms
  constructor
  · simp only [readMarker, hread, hfield, storeMarker, h, hone, Option.map_some, Option.bind_some,
      Lib.Json.unquote_quote]
    rw [← h]
  · simp only [decodedKeys, hread]
    decide

/-- **A marker that is written is read back.**  Its text is compact JSON with every field once, and
the strings are read back as they were (`Lib.Json.unquote_quote`). -/
theorem decodeMarker_format {m : Marker} (h : validateStorageAllocationMarker m = true) :
    decodeMarker ('\n' :: (print (markerValue m) ++ ['\n'])) = some m := by
  have hversion := (validMarker h).version
  have hdepth : (markerValue m).depth ≤ Lib.Json.maxDepth := by
    have : (markerValue m).depth = 1 := rfl
    rw [this]
    decide
  have hparse := Lib.Json.parse_print_line (markerValue_wf hversion) hdepth
  obtain ⟨hread, hkeys⟩ := readMarker_markerValue hversion _ rfl
  unfold decodeMarker
  rw [hparse]
  change (if _ then _ else _) = _
  rw [if_pos hkeys, hread, Option.filter_some, if_pos h]

/-- The text of a valid marker says one of the lines only when its namespace does. -/
theorem silent_markerValue {m : Marker} (h : validateStorageAllocationMarker m = true) :
    Silent (print (markerValue m)) ↔ ¬storageAllocationMarkerStart <:+: m.nameSpace := by
  have hvalid := validMarker h
  have hns : Silent m.nameSpace ↔ ¬storageAllocationMarkerStart <:+: m.nameSpace := by
    constructor
    · exact fun hs => hs _ (by decide)
    · intro hs d hd hin
      simp only [delimiters, List.mem_cons, List.not_mem_nil, or_false] at hd
      rcases hd with rfl | rfl
      · exact hs hin
      · exact hvalid.slash (hin.subset (by decide))
  have hkey : ∀ f : MarkerField, Silent f.key := by
    intro f
    cases f <;> exact silent_of_bracket (by decide)
  have hid : Silent (quote m.allocationID) :=
    (silent_quote _).mpr (silent_of_bracket hvalid.allocationID)
  have hsha : Silent (quote m.agentSHA256) :=
    (silent_quote _).mpr (silent_of_bracket hvalid.agentSHA256)
  have hkind : Silent (quote m.kind) := by
    rw [silent_quote, hvalid.kind]
    exact silent_of_bracket (by decide)
  rw [silent_print (markerValue_wf hvalid.version), ← hns, ← silent_quote m.nameSpace]
  simp only [markerValue, Value.texts, Members.texts, List.mem_cons, List.not_mem_nil, or_false,
    List.nil_append, List.singleton_append, forall_eq_or_imp, forall_eq]
  exact ⟨fun hall => hall.2.2.1,
    fun hs => ⟨hkey _, hkey _, hs, hkey _, hid, hkey _, hsha, hkey _, hkind⟩⟩

/-! ## 7. A marker is not cut out of another JSON text -/

/-- **The first quote between the lines opens a key**, and a key does not start with a letter that
follows a string. -/
theorem decodeMarker_key {payload : Text} {m : Marker} (h : decodeMarker payload = some m) :
    ∃ w c rest, payload = w ++ '"' :: c :: rest ∧
      (∀ x ∈ w, x = '{' ∨ Lib.Json.isWs x = true) ∧ Lib.Json.isFollow c = false := by
  unfold decodeMarker at h
  split at h
  · rename_i ms hparse
    split at h
    · obtain ⟨hread, hvalid⟩ := Option.filter_eq_some_iff.mp h
      cases ms with
      | nil =>
        cases hread
        exact absurd hvalid (by decide)
      | cons k v ms =>
        obtain ⟨w, rest, hpayload, hw⟩ := Lib.Json.parse_first_key hparse
        obtain ⟨f, hf, -⟩ := Option.bind_eq_some_iff.mp hread
        have hkey : f.key = (unquote k).map foldName := by
          have hfold := List.find?_some hf
          exact of_decide_eq_true hfold
        cases k with
        | nil => cases f <;> cases hkey
        | cons c k =>
          refine ⟨w, c, k ++ '"' :: rest, hpayload, hw, ?_⟩
          by_contra hc
          rw [Bool.not_eq_false] at hc
          simp only [Lib.Json.isFollow, Bool.or_eq_true, beq_iff_eq] at hc
          have hne : c ≠ '\\' := by
            rintro rfl
            simp at hc
          rw [Lib.Json.unquote_plain hne, List.map_cons] at hkey
          rcases hc with ((rfl | rfl) | rfl) | rfl <;> cases f <;>
            exact absurd (List.cons.inj hkey).1 (by decide)
    · cases h
  · cases h

end Vm
