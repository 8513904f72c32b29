/-
# Disk CIDs

`pve/disk.go`: the CID under which the Director knows a disk is an envelope, a JSON object with
the volume and what was known about it when it was made, written in base64 behind one of two
fixed beginnings.  The plain form is base64 of the JSON; the compressed form, written only where
the plain one would not fit a database column, is base64 of its gzip.  The envelope promises that
what the encoders write can be read back.

* `readEnvelope_marshal`: the JSON of an envelope reads back with every string coerced to UTF-8;
* `parse_plain`, `parse_compressed`: what the parser makes of the two forms.

Strings are byte strings here (`Str`): the JSON encoder replaces what is not UTF-8.

## Three ways to lose

The encoders check nothing of what they are given but that the volume is not empty.  What is lost is
decided by the reader and by the encoding: JSON replaces bytes that are not UTF-8; the parser
refuses a stable ID of more than twenty bytes; and it refuses an envelope that unpacks to more than
64 KiB, a size that the plain form can have.  `diskCID_readsBack_iff` is the conjunction of the
three.

The compressor is a parameter with the one law that its output unpacks to its input; whether it
makes an envelope shorter is its own affair, and appears in the condition.
-/
import PveCpi.Lib.Utf8
import PveCpi.Lib.Base64
import PveCpi.Vm.Marker
import Mathlib.Data.List.AList
import Mathlib.Data.List.Sort

namespace Disk

open Lib.Json (Value Members parse print unquote quote rawOk)
open Lib.Utf8 (encode runes text coerce valid)
open Vm (foldName)

/-! ## 1. Envelopes -/

/-- A Go string. -/
abbrev Str := List UInt8

/-- The string of a text. -/
def str (s : String) : Str := encode s.toList

/-- `DiskCIDMeta`.  A nil and an empty map of options are the same. -/
structure DiskCIDMeta where
  pool : Str
  node : Str
  az : Str
  opts : AList fun _ : Str => Str
  anchor : Bool
  format : Str
  id : Str

def DiskCIDMeta.zero : DiskCIDMeta := ⟨[], [], [], ∅, false, [], []⟩

/-- The condition of `marshalDiskCIDEnvelope` on a `meta` that it writes. -/
def DiskCIDMeta.nonzero (m : DiskCIDMeta) : Bool :=
  m.pool != [] || m.node != [] || m.az != [] || decide (0 < m.opts.entries.length) || m.anchor ||
    m.format != [] || m.id != []

def diskCIDPrefix : Str := str "pvd-"
def diskCIDCompressedPrefix : Str := str "pvz-"
def diskCIDLengthTarget : Nat := 255
def maxDiskCIDEnvelopeBytes : Nat := 64 * 1024
def diskStableIDLen : Nat := 20

/-- The fields of `DiskCIDMeta` that hold a string. -/
inductive TextField
  | pool | node | az | format | id
deriving DecidableEq

/-- The fields of `DiskCIDMeta`. -/
inductive MetaField
  | text (t : TextField)
  | opts
  | anchor
deriving DecidableEq

/-- The fields in the order of their declaration. -/
def MetaField.all : List MetaField :=
  [.text .pool, .text .node, .text .az, .opts, .anchor, .text .format, .text .id]

/-- The name of a field in JSON. -/
def MetaField.key : MetaField → List Char
  | .text .pool => "pool".toList
  | .text .node => "node".toList
  | .text .az => "az".toList
  | .opts => "opts".toList
  | .anchor => "anchor".toList
  | .text .format => "f".toList
  | .text .id => "id".toList

def DiskCIDMeta.get (m : DiskCIDMeta) : TextField → Str
  | .pool => m.pool
  | .node => m.node
  | .az => m.az
  | .format => m.format
  | .id => m.id

def DiskCIDMeta.put (m : DiskCIDMeta) (s : Str) : TextField → DiskCIDMeta
  | .pool => { m with pool := s }
  | .node => { m with node := s }
  | .az => { m with az := s }
  | .format => { m with format := s }
  | .id => { m with id := s }

/-! ## 2. Writing -/

/-- The inside of the JSON string that `json.Marshal` writes; a byte that is not UTF-8 becomes a
replacement character, as it is in the text. -/
def content (s : Str) : List Char := quote (text s)

/-- The members of an object, in order. -/
def members : List (List Char × Value) → Members
  | [] => .nil
  | (k, v) :: ms => .cons k v (members ms)

/-- The options in the order of their keys, as the encoder writes a map. -/
def sortedOpts (opts : AList fun _ : Str => Str) : List (Str × Str) :=
  (opts.entries.map fun e => (e.1, e.2)).insertionSort fun a b => a.1 ≤ b.1

def optsMembers (opts : List (Str × Str)) : List (List Char × Value) :=
  opts.map fun e => (content e.1, .str (content e.2))

/-- The member of a field; an empty field has none. -/
def fieldMembers (m : DiskCIDMeta) : MetaField → List (List Char × Value)
  | .text t =>
    if m.get t = [] then [] else [(MetaField.key (.text t), .str (content (m.get t)))]
  | .opts =>
    if m.opts.entries = [] then []
    else [(MetaField.key .opts, .obj (members (optsMembers (sortedOpts m.opts))))]
  | .anchor => if m.anchor then [(MetaField.key .anchor, .bool true)] else []

def metaValue (m : DiskCIDMeta) : Value :=
  .obj (members (MetaField.all.flatMap (fieldMembers m)))

/-- The fields of the envelope. -/
inductive EnvelopeField
  | v | m
deriving DecidableEq

def EnvelopeField.key : EnvelopeField → List Char
  | .v => ['v']
  | .m => ['m']

/-- The envelope of a volume and what `marshalDiskCIDEnvelope` keeps of its metadata. -/
def envelopeValue (bareCID : Str) (m : Option DiskCIDMeta) : Value :=
  .obj (members ((EnvelopeField.key .v, .str (content bareCID)) ::
    (m.filter DiskCIDMeta.nonzero).toList.map fun m => (EnvelopeField.key .m, metaValue m)))

/-- `marshalDiskCIDEnvelope`. -/
def marshalDiskCIDEnvelope (bareCID : Str) (m : Option DiskCIDMeta) : Str :=
  encode (print (envelopeValue bareCID m))

/-- The compressor: `compress` is what a writer leaves in its buffer, or nothing when a call on it
fails; `read z n` is what a reader of `z` returns when it is asked for at most `n` bytes.  What is
compressed has a header, and reads as what it was. -/
structure Gzip where
  compress : Str → Option Str
  read : Str → Nat → Option Str
  header : ∀ b z, compress b = some z → z ≠ []
  inverts : ∀ b z n, compress b = some z → read z n = some (b.take n)

/-- Why an operation on a CID fails. -/
inductive CIDError
  | emptyBareCID
  | emptyCID
  | unknownPrefix
  | emptyPayload
  | notBase64
  | notGzip
  | tooLarge
  | notJson
  | emptyVolid
  | stableID (id : Str)
deriving DecidableEq

/-- `EncodeDiskCID`. -/
def encodeDiskCID (bareCID : Str) (m : Option DiskCIDMeta) : Except CIDError Str :=
  if bareCID = [] then .error .emptyBareCID
  else .ok (diskCIDPrefix ++ Lib.Base64.encode (marshalDiskCIDEnvelope bareCID m))

/-- `EncodeDiskCIDCompressed`. -/
def encodeDiskCIDCompressed (gz : Gzip) (bareCID : Str) (m : Option DiskCIDMeta) :
    Except CIDError Str :=
  if bareCID = [] then .error .emptyBareCID
  else
    let b := marshalDiskCIDEnvelope bareCID m
    let plain := diskCIDPrefix ++ Lib.Base64.encode b
    if plain.length ≤ diskCIDLengthTarget then .ok plain
    else
      match gz.compress b with
      | none => .ok plain
      | some z =>
        let compressed := diskCIDCompressedPrefix ++ Lib.Base64.encode z
        if compressed.length < plain.length then .ok compressed else .ok plain

/-! ## 3. Reading -/

/-- The field that the decoder stores a member in. -/
def metaField (key : List Char) : Option MetaField :=
  MetaField.all.find? fun f => decide (f.key = key.map foldName)

/-- Read an object into a map of strings; null is the empty string. -/
def readOpts : (AList fun _ : Str => Str) → Members → Option (AList fun _ : Str => Str)
  | opts, .nil => some opts
  | opts, .cons k (.str s) ms =>
    readOpts (opts.insert (encode (unquote k)) (encode (unquote s))) ms
  | opts, .cons k .null ms => readOpts (opts.insert (encode (unquote k)) []) ms
  | _, .cons _ _ _ => none

/-- Store a value in a field; null empties a map and leaves every other field as it is. -/
def storeMeta (m : DiskCIDMeta) : MetaField → Value → Option DiskCIDMeta
  | .text _, .null => some m
  | .text t, .str s => some (m.put (encode (unquote s)) t)
  | .opts, .null => some { m with opts := ∅ }
  | .opts, .obj ms => (readOpts m.opts ms).map fun o => { m with opts := o }
  | .anchor, .null => some m
  | .anchor, .bool b => some { m with anchor := b }
  | _, _ => none

/-- Read the members of an object into a `DiskCIDMeta`; unknown names are skipped. -/
def readMeta : DiskCIDMeta → Members → Option DiskCIDMeta
  | m, .nil => some m
  | m, .cons k v ms =>
    match metaField (unquote k) with
    | none => readMeta m ms
    | some f => (storeMeta m f v).bind fun m => readMeta m ms

/-- `diskCIDEnvelope`. -/
structure Envelope where
  v : Str
  m : Option DiskCIDMeta

def envelopeField (key : List Char) : Option EnvelopeField :=
  [EnvelopeField.v, EnvelopeField.m].find? fun f => decide (f.key = key.map foldName)

/-- Store a value in a field of the envelope.  A second object goes into the metadata of the
first. -/
def storeEnvelope (e : Envelope) : EnvelopeField → Value → Option Envelope
  | .v, .null => some e
  | .v, .str s => some { e with v := encode (unquote s) }
  | .m, .null => some { e with m := none }
  | .m, .obj ms => (readMeta (e.m.getD .zero) ms).map fun m => { e with m := some m }
  | _, _ => none

def readMembers : Envelope → Members → Option Envelope
  | e, .nil => some e
  | e, .cons k v ms =>
    match envelopeField (unquote k) with
    | none => readMembers e ms
    | some f => (storeEnvelope e f v).bind fun e => readMembers e ms

/-- `json.Unmarshal` into an envelope.  Bytes that are not UTF-8 are read as replacement
characters, which only a string may contain. -/
def readEnvelope (raw : Str) : Option Envelope :=
  match parse (text raw) with
  | some (.obj ms) => readMembers ⟨[], none⟩ ms
  | some .null => some ⟨[], none⟩
  | _ => none

/-- `unmarshalDiskCIDEnvelope`. -/
def unmarshalDiskCIDEnvelope (raw : Str) : Except CIDError (Str × Option DiskCIDMeta) :=
  match readEnvelope raw with
  | none => .error .notJson
  | some e =>
    if e.v = [] then .error .emptyVolid
    else
      match e.m with
      | none => .ok (e.v, none)
      | some m =>
        if m.id.length > diskStableIDLen then .error (.stableID m.id) else .ok (e.v, some m)

/-- `parseDiskCIDEnvelope`. -/
def parseDiskCIDEnvelope (cid : Str) : Except CIDError (Str × Option DiskCIDMeta) :=
  let payload := cid.drop diskCIDPrefix.length
  if payload = [] then .error .emptyPayload
  else
    match Lib.Base64.decode payload with
    | none => .error .notBase64
    | some raw => unmarshalDiskCIDEnvelope raw

/-- `parseCompressedDiskCIDEnvelope`. -/
def parseCompressedDiskCIDEnvelope (gz : Gzip) (cid : Str) :
    Except CIDError (Str × Option DiskCIDMeta) :=
  let payload := cid.drop diskCIDCompressedPrefix.length
  if payload = [] then .error .emptyPayload
  else
    match Lib.Base64.decode payload with
    | none => .error .notBase64
    | some raw =>
      match gz.read raw (maxDiskCIDEnvelopeBytes + 1) with
      | none => .error .notGzip
      | some decompressed =>
        if decompressed.length > maxDiskCIDEnvelopeBytes then .error .tooLarge
        else unmarshalDiskCIDEnvelope decompressed

/-- `ParseEncodedDiskCID`. -/
def parseEncodedDiskCID (gz : Gzip) (cid : Str) : Except CIDError (Str × Option DiskCIDMeta) :=
  if cid = [] then .error .emptyCID
  else if diskCIDPrefix <+: cid then parseDiskCIDEnvelope cid
  else if diskCIDCompressedPrefix <+: cid then parseCompressedDiskCIDEnvelope gz cid
  else .error .unknownPrefix

/-! ## 4. The JSON of an envelope

The members of an envelope, in the order of the source's struct, with empty ones left out. -/

section Strings

variable (s : Str)

@[simp] theorem unquote_content : unquote (content s) = text s := Lib.Json.unquote_quote _

@[simp] theorem rawOk_content : rawOk (content s) = true := Lib.Json.rawOk_quote _

end Strings

theorem wf_members {l : List (List Char × Value)}
    (h : ∀ e ∈ l, rawOk e.1 = true ∧ e.2.wf = true) : (members l).wf = true := by
  induction l with
  | nil => rfl
  | cons e l ih =>
    have he := h e (List.mem_cons_self ..)
    have hl := ih fun e' he' => h e' (List.mem_cons_of_mem _ he')
    simp [members, Members.wf, he.1, he.2, hl]

theorem depth_members {n : Nat} {l : List (List Char × Value)} (h : ∀ e ∈ l, e.2.depth ≤ n) :
    (members l).depth ≤ n := by
  induction l with
  | nil => exact Nat.zero_le n
  | cons e l ih =>
    have he := h e (List.mem_cons_self ..)
    have hl := ih fun e' he' => h e' (List.mem_cons_of_mem _ he')
    exact Nat.max_le.mpr ⟨he, hl⟩

theorem optsMembers_spec {opts : List (Str × Str)} :
    ∀ e ∈ optsMembers opts, rawOk e.1 = true ∧ e.2.wf = true ∧ e.2.depth ≤ 0 := by
  intro e he
  obtain ⟨o, -, rfl⟩ := List.mem_map.mp he
  exact ⟨rawOk_content _, rawOk_content _, Nat.le_refl 0⟩

/-- The members that a field writes are well formed and at most one level deep. -/
theorem fieldMembers_spec (m : DiskCIDMeta) (f : MetaField) :
    ∀ e ∈ fieldMembers m f, rawOk e.1 = true ∧ e.2.wf = true ∧ e.2.depth ≤ 1 := by
  have hkey : ∀ f : MetaField, rawOk f.key = true := by
    rintro ((_ | _ | _ | _ | _) | _ | _) <;> decide
  intro e he
  cases f with
  | text t =>
    simp only [fieldMembers] at he
    split at he
    · cases he
    · rw [List.mem_singleton.mp he]
      exact ⟨hkey _, rawOk_content _, Nat.zero_le 1⟩
  | opts =>
    simp only [fieldMembers] at he
    split at he
    · cases he
    · rw [List.mem_singleton.mp he]
      refine ⟨hkey .opts, wf_members fun e' he' => ?_, ?_⟩
      · exact ⟨(optsMembers_spec e' he').1, (optsMembers_spec e' he').2.1⟩
      · exact Nat.succ_le_succ (depth_members fun e' he' => (optsMembers_spec e' he').2.2)
  | anchor =>
    simp only [fieldMembers] at he
    split at he
    · rw [List.mem_singleton.mp he]
      exact ⟨hkey .anchor, rfl, Nat.zero_le 1⟩
    · cases he

theorem metaValue_spec (m : DiskCIDMeta) : (metaValue m).wf = true ∧ (metaValue m).depth ≤ 2 := by
  have hfields : ∀ e ∈ MetaField.all.flatMap (fieldMembers m),
      rawOk e.1 = true ∧ e.2.wf = true ∧ e.2.depth ≤ 1 := by
    intro e he
    obtain ⟨f, -, he⟩ := List.mem_flatMap.mp he
    exact fieldMembers_spec m f e he
  constructor
  · exact wf_members fun e he => ⟨(hfields e he).1, (hfields e he).2.1⟩
  · exact Nat.succ_le_succ (depth_members fun e he => (hfields e he).2.2)

theorem envelopeValue_spec (bareCID : Str) (m : Option DiskCIDMeta) :
    (envelopeValue bareCID m).wf = true ∧ (envelopeValue bareCID m).depth ≤ 3 := by
  have hmembers : ∀ e ∈ (EnvelopeField.key .v, Value.str (content bareCID)) ::
      (m.filter DiskCIDMeta.nonzero).toList.map (fun m => (EnvelopeField.key .m, metaValue m)),
      rawOk e.1 = true ∧ e.2.wf = true ∧ e.2.depth ≤ 2 := by
    intro e he
    rcases List.mem_cons.mp he with rfl | he
    · exact ⟨show rawOk ['v'] = true from rfl, rawOk_content _, Nat.zero_le 2⟩
    · obtain ⟨m', -, rfl⟩ := List.mem_map.mp he
      exact ⟨show rawOk ['m'] = true from rfl, (metaValue_spec m').1, (metaValue_spec m').2⟩
  constructor
  · exact wf_members fun e he => ⟨(hmembers e he).1, (hmembers e he).2.1⟩
  · exact Nat.succ_le_succ (depth_members fun e he => (hmembers e he).2.2)

theorem parse_marshal (bareCID : Str) (m : Option DiskCIDMeta) :
    parse (text (marshalDiskCIDEnvelope bareCID m)) = some (envelopeValue bareCID m) := by
  obtain ⟨hwf, hdepth⟩ := envelopeValue_spec bareCID m
  rw [marshalDiskCIDEnvelope, Lib.Utf8.text_encode]
  refine Lib.Json.parse_print hwf (Nat.le_trans hdepth ?_)
  unfold Lib.Json.maxDepth
  omega

/-! ## 5. What is read back

Fields that were left out are read as empty, which is what they were. -/

/-- The options with every string coerced, the last of several equal keys kept. -/
def coerceOpts (opts : List (Str × Str)) : AList fun _ : Str => Str :=
  opts.foldl (fun o e => o.insert (coerce e.1) (coerce e.2)) ∅

/-- The metadata with every string coerced. -/
def coerceMeta (m : DiskCIDMeta) : DiskCIDMeta :=
  ⟨coerce m.pool, coerce m.node, coerce m.az, coerceOpts (sortedOpts m.opts), m.anchor,
    coerce m.format, coerce m.id⟩

theorem readOpts_members (opts : List (Str × Str)) (o : AList fun _ : Str => Str) :
    readOpts o (members (optsMembers opts)) =
      some (opts.foldl (fun o e => o.insert (coerce e.1) (coerce e.2)) o) := by
  induction opts generalizing o with
  | nil => rfl
  | cons e opts ih =>
    have hcons : members (optsMembers (e :: opts)) =
      .cons (content e.1) (.str (content e.2)) (members (optsMembers opts)) := rfl
    rw [hcons, readOpts, ih, unquote_content, unquote_content]
    rfl

theorem readMeta_append (m : DiskCIDMeta) (a b : List (List Char × Value)) :
    readMeta m (members (a ++ b)) =
      (readMeta m (members a)).bind fun m => readMeta m (members b) := by
  induction a generalizing m with
  | nil => rfl
  | cons e a ih =>
    rw [List.cons_append, members, members, readMeta, readMeta]
    cases metaField (unquote e.1) with
    | none => exact ih m
    | some f =>
      change (storeMeta m f e.2).bind _ = ((storeMeta m f e.2).bind _).bind _
      rw [Option.bind_assoc]
      exact congrArg (storeMeta m f e.2).bind (funext fun m => ih m)

theorem metaField_key (f : MetaField) : metaField (unquote f.key) = some f := by
  rcases f with ((_ | _ | _ | _ | _) | _ | _) <;> decide

theorem readMeta_single (m : DiskCIDMeta) (f : MetaField) (v : Value) :
    readMeta m (members [(f.key, v)]) = storeMeta m f v := by
  rw [members, members, readMeta, metaField_key]
  change (storeMeta m f v).bind some = storeMeta m f v
  cases storeMeta m f v <;> rfl

/-- Reading the member of a text field stores what it says; a field without a member was empty
and stays so. -/
theorem readMeta_text (m m' : DiskCIDMeta) (t : TextField) (h : m'.get t = []) :
    readMeta m' (members (fieldMembers m (.text t))) = some (m'.put (coerce (m.get t)) t) := by
  rw [fieldMembers]
  split
  · rename_i hempty
    have hput : m'.put [] t = m' := by
      cases t <;> simp only [DiskCIDMeta.get] at h <;> simp only [DiskCIDMeta.put, ← h]
    have hcoerce : coerce ([] : Str) = [] := by simp [coerce, text, encode]
    rw [hempty, hcoerce, hput]
    rfl
  · rw [readMeta_single, storeMeta, unquote_content]
    rfl

theorem readMeta_opts (m m' : DiskCIDMeta) (h : m'.opts = ∅) :
    readMeta m' (members (fieldMembers m .opts)) =
      some { m' with opts := coerceOpts (sortedOpts m.opts) } := by
  rw [fieldMembers]
  split
  · rename_i hempty
    have hsorted : sortedOpts m.opts = [] := by rw [sortedOpts, hempty]; rfl
    rw [hsorted, coerceOpts, List.foldl_nil, ← h]
    rfl
  · rw [readMeta_single, storeMeta, readOpts_members, h]
    rfl

theorem readMeta_anchor (m m' : DiskCIDMeta) (h : m'.anchor = false) :
    readMeta m' (members (fieldMembers m .anchor)) = some { m' with anchor := m.anchor } := by
  rw [fieldMembers]
  cases hanchor : m.anchor with
  | false =>
    rw [if_neg Bool.false_ne_true, ← h]
    rfl
  | true => rw [if_pos rfl, readMeta_single, storeMeta]

/-- **The metadata reads back coerced.** -/
theorem readMeta_metaValue (m : DiskCIDMeta) :
    readMeta .zero (members (MetaField.all.flatMap (fieldMembers m))) = some (coerceMeta m) := by
  simp only [MetaField.all, List.flatMap_cons, List.flatMap_nil, readMeta_append]
  rw [readMeta_text m _ .pool rfl, Option.bind_some, readMeta_text m _ .node rfl, Option.bind_some,
    readMeta_text m _ .az rfl, Option.bind_some, readMeta_opts m _ rfl, Option.bind_some,
    readMeta_anchor m _ rfl, Option.bind_some, readMeta_text m _ .format rfl, Option.bind_some,
    readMeta_text m _ .id rfl]
  rfl

/-- **An envelope reads back coerced.**  Each string is written with its stray bytes replaced and
read back as written. -/
theorem readEnvelope_marshal (bareCID : Str) (m : Option DiskCIDMeta) :
    readEnvelope (marshalDiskCIDEnvelope bareCID m) =
      some ⟨coerce bareCID, (m.filter DiskCIDMeta.nonzero).map coerceMeta⟩ := by
  have hfield : ∀ f : EnvelopeField, envelopeField (unquote f.key) = some f := by
    rintro (_ | _) <;> decide
  rw [readEnvelope, parse_marshal]
  change readMembers _ (members _) = _
  rw [members, readMembers, hfield]
  change readMembers ⟨encode (unquote (content bareCID)), none⟩ _ = _
  rw [unquote_content]
  cases m.filter DiskCIDMeta.nonzero with
  | none => rfl
  | some m' =>
    change readMembers _ (.cons (EnvelopeField.key .m) (metaValue m') .nil) = _
    rw [readMembers, hfield]
    change ((readMeta .zero (members _)).map _).bind _ = _
    rw [readMeta_metaValue]
    rfl

/-! ## 6. What the parser makes of the two forms

The beginning of a CID decides its form; base64 and gzip are undone before the JSON is read. -/

theorem marshal_ne_nil (bareCID : Str) (m : Option DiskCIDMeta) :
    marshalDiskCIDEnvelope bareCID m ≠ [] := by
  intro h
  cases Lib.Utf8.encode_eq_nil.mp h

/-- What `unmarshalDiskCIDEnvelope` makes of metadata that was read. -/
def checkID (bareCID : Str) : Option DiskCIDMeta → Except CIDError (Str × Option DiskCIDMeta)
  | none => .ok (bareCID, none)
  | some m =>
    if m.id.length > diskStableIDLen then .error (.stableID m.id) else .ok (bareCID, some m)

theorem unmarshal_marshal {bareCID : Str} (h : bareCID ≠ []) (m : Option DiskCIDMeta) :
    unmarshalDiskCIDEnvelope (marshalDiskCIDEnvelope bareCID m) =
      checkID (coerce bareCID) ((m.filter DiskCIDMeta.nonzero).map coerceMeta) := by
  rw [unmarshalDiskCIDEnvelope, readEnvelope_marshal]
  change (if coerce bareCID = [] then _ else _) = _
  rw [if_neg (Lib.Utf8.coerce_ne_nil h)]
  cases (m.filter DiskCIDMeta.nonzero).map coerceMeta <;> rfl

section Parse

variable (gz : Gzip)

theorem parse_plain {raw : Str} (h : raw ≠ []) :
    parseEncodedDiskCID gz (diskCIDPrefix ++ Lib.Base64.encode raw) =
      unmarshalDiskCIDEnvelope raw := by
  have hne : diskCIDPrefix ++ Lib.Base64.encode raw ≠ [] := by
    simp [Lib.Base64.encode_ne_nil h]
  rw [parseEncodedDiskCID, if_neg hne, if_pos (List.prefix_append _ _), parseDiskCIDEnvelope]
  simp only [List.drop_left]
  rw [if_neg (Lib.Base64.encode_ne_nil h), Lib.Base64.decode_encode]

theorem not_starts_plain (s : Str) : ¬diskCIDPrefix <+: diskCIDCompressedPrefix ++ s := by
  intro h
  have hsame := List.prefix_of_prefix_length_le h (List.prefix_append _ s) (by decide)
  exact absurd hsame (by decide)

/-- The compressed form is unpacked up to the cap, and then read as the plain one. -/
theorem parse_compressed {raw z : Str} (h : gz.compress raw = some z) :
    parseEncodedDiskCID gz (diskCIDCompressedPrefix ++ Lib.Base64.encode z) =
      if maxDiskCIDEnvelopeBytes < raw.length then .error .tooLarge
      else unmarshalDiskCIDEnvelope raw := by
  have hz := Lib.Base64.encode_ne_nil (gz.header raw z h)
  have hne : diskCIDCompressedPrefix ++ Lib.Base64.encode z ≠ [] := by
    simp [hz]
  rw [parseEncodedDiskCID, if_neg hne, if_neg (not_starts_plain _), if_pos (List.prefix_append _ _),
    parseCompressedDiskCIDEnvelope]
  simp only [List.drop_left]
  rw [if_neg hz, Lib.Base64.decode_encode]
  simp only [gz.inverts raw z _ h, List.length_take]
  by_cases hlong : maxDiskCIDEnvelopeBytes < raw.length
  · rw [if_pos hlong, if_pos (by omega)]
  · rw [if_neg hlong, if_neg (by omega), List.take_of_length_le (by omega)]

/-- The compressor makes an envelope shorter. -/
def Shortens (raw : Str) : Prop :=
  ∃ z ∈ gz.compress raw, (Lib.Base64.encode z).length < (Lib.Base64.encode raw).length

theorem encodeDiskCID_ok {bareCID : Str} (h : bareCID ≠ []) (m : Option DiskCIDMeta) :
    encodeDiskCID bareCID m =
      .ok (diskCIDPrefix ++ Lib.Base64.encode (marshalDiskCIDEnvelope bareCID m)) :=
  if_neg h

/-- **Which form the second encoder writes**: the plain one, or the compressed one where that is
shorter. -/
theorem encodeDiskCIDCompressed_cases {bareCID cid : Str} {m : Option DiskCIDMeta}
    (h : encodeDiskCIDCompressed gz bareCID m = .ok cid) :
    cid = diskCIDPrefix ++ Lib.Base64.encode (marshalDiskCIDEnvelope bareCID m) ∨
    ∃ z, gz.compress (marshalDiskCIDEnvelope bareCID m) = some z ∧
      (Lib.Base64.encode z).length <
        (Lib.Base64.encode (marshalDiskCIDEnvelope bareCID m)).length ∧
      cid = diskCIDCompressedPrefix ++ Lib.Base64.encode z := by
  unfold encodeDiskCIDCompressed at h
  split at h
  · cases h
  · dsimp only at h
    split at h
    · exact .inl (Except.ok.inj h).symm
    · split at h
      · exact .inl (Except.ok.inj h).symm
      · rename_i z hz
        split at h
        · rename_i hlt
          refine .inr ⟨z, hz, ?_, (Except.ok.inj h).symm⟩
          have hlen : diskCIDCompressedPrefix.length = diskCIDPrefix.length := by decide
          rw [List.length_append, List.length_append, hlen] at hlt
          exact Nat.lt_of_add_lt_add_left hlt
        · exact .inl (Except.ok.inj h).symm

/-- An envelope over the cap that can be made shorter is compressed. -/
theorem encodeDiskCIDCompressed_long {bareCID z : Str} {m : Option DiskCIDMeta}
    (h : bareCID ≠ []) (hlong : maxDiskCIDEnvelopeBytes < (marshalDiskCIDEnvelope bareCID m).length)
    (hz : gz.compress (marshalDiskCIDEnvelope bareCID m) = some z)
    (hlt : (Lib.Base64.encode z).length <
      (Lib.Base64.encode (marshalDiskCIDEnvelope bareCID m)).length) :
    encodeDiskCIDCompressed gz bareCID m =
      .ok (diskCIDCompressedPrefix ++ Lib.Base64.encode z) := by
  have hlen : diskCIDCompressedPrefix.length = diskCIDPrefix.length := by decide
  have hover : ¬(diskCIDPrefix ++
      Lib.Base64.encode (marshalDiskCIDEnvelope bareCID m)).length ≤ diskCIDLengthTarget := by
    rw [List.length_append, Lib.Base64.length_encode]
    unfold maxDiskCIDEnvelopeBytes at hlong
    unfold diskCIDLengthTarget
    omega
  unfold encodeDiskCIDCompressed
  rw [if_neg h]
  dsimp only
  rw [if_neg hover, hz]
  dsimp only
  rw [if_pos]
  rw [List.length_append, List.length_append, hlen]
  exact Nat.add_lt_add_left hlt _

end Parse

/-! ## 7. The same metadata

Options are compared as maps. -/

/-- Two values say the same: equal fields, and equal options under every key. -/
structure SameMeta (a b : DiskCIDMeta) : Prop where
  texts : ∀ t, a.get t = b.get t
  opts : ∀ k, a.opts.lookup k = b.opts.lookup k
  anchor : a.anchor = b.anchor

/-- Every string of the metadata is UTF-8. -/
structure DiskCIDMeta.Utf8 (m : DiskCIDMeta) : Prop where
  texts : ∀ t, valid (m.get t) = true
  opts : ∀ e ∈ m.opts.entries, valid e.1 = true ∧ valid e.2 = true

theorem coerceOpts_concat (l : List (Str × Str)) (e : Str × Str) :
    coerceOpts (l ++ [e]) = (coerceOpts l).insert (coerce e.1) (coerce e.2) := by
  rw [coerceOpts, List.foldl_append]
  rfl

/-- Whatever is read back is UTF-8. -/
theorem valid_coerceOpts (l : List (Str × Str)) {k v : Str}
    (h : (coerceOpts l).lookup k = some v) : valid k = true ∧ valid v = true := by
  induction l using List.reverseRecOn with
  | nil => cases h
  | append_singleton l e ih =>
    rw [coerceOpts_concat] at h
    by_cases hk : k = coerce e.1
    · rw [hk, AList.lookup_insert] at h
      rw [hk, ← Option.some.inj h]
      exact ⟨Lib.Utf8.valid_coerce _, Lib.Utf8.valid_coerce _⟩
    · rw [AList.lookup_insert_ne hk] at h
      exact ih h

/-- Options that are UTF-8 survive the coercion: distinct keys stay distinct, so no entry overwrites
another. -/
theorem lookup_coerceOpts {l : List (Str × Str)} (hnodup : (l.map Prod.fst).Nodup)
    (hvalid : ∀ e ∈ l, valid e.1 = true ∧ valid e.2 = true) (k v : Str) :
    (coerceOpts l).lookup k = some v ↔ (k, v) ∈ l := by
  induction l using List.reverseRecOn with
  | nil => simp [coerceOpts]
  | append_singleton l e ih =>
    rw [List.map_append, List.nodup_append] at hnodup
    have hprev := ih hnodup.1 fun e' he' => hvalid e' (List.mem_append_left _ he')
    have he := hvalid e (List.mem_append_right _ (List.mem_singleton_self e))
    rw [coerceOpts_concat, Lib.Utf8.coerce_eq_self.mpr he.1, Lib.Utf8.coerce_eq_self.mpr he.2,
      List.mem_append, List.mem_singleton]
    by_cases hk : k = e.1
    · have hnew : (k, v) ∉ l := fun hmem =>
        hnodup.2.2 k (List.mem_map_of_mem hmem) e.1 (by simp) hk
      rw [hk, AList.lookup_insert, Option.some.injEq]
      rw [hk] at hnew
      constructor
      · rintro rfl
        exact .inr rfl
      · rintro (hmem | hmem)
        · exact absurd hmem hnew
        · exact congrArg Prod.snd hmem.symm
    · rw [AList.lookup_insert_ne hk, hprev]
      constructor
      · exact .inl
      · rintro (hmem | hmem)
        · exact hmem
        · exact absurd (congrArg Prod.fst hmem) hk

theorem sortedOpts_perm (opts : AList fun _ : Str => Str) :
    (sortedOpts opts).Perm (opts.entries.map fun e => (e.1, e.2)) :=
  List.perm_insertionSort _ _

theorem mem_sortedOpts {opts : AList fun _ : Str => Str} {k v : Str} :
    (k, v) ∈ sortedOpts opts ↔ opts.lookup k = some v := by
  rw [(sortedOpts_perm opts).mem_iff, ← Option.mem_def, AList.mem_lookup_iff, List.mem_map]
  constructor
  · rintro ⟨e, he, heq⟩
    cases heq
    exact he
  · intro h
    exact ⟨⟨k, v⟩, h, rfl⟩

theorem sortedOpts_nodup (opts : AList fun _ : Str => Str) :
    ((sortedOpts opts).map Prod.fst).Nodup := by
  rw [((sortedOpts_perm opts).map Prod.fst).nodup_iff, List.map_map]
  exact opts.nodupKeys

/-- **Metadata survives exactly when all of it is UTF-8.** -/
theorem sameMeta_coerceMeta {m : DiskCIDMeta} : SameMeta (coerceMeta m) m ↔ m.Utf8 := by
  have hget : ∀ t, (coerceMeta m).get t = coerce (m.get t) := by
    intro t
    cases t <;> rfl
  constructor
  · intro h
    refine ⟨fun t => ?_, fun e he => ?_⟩
    · rw [← Lib.Utf8.coerce_eq_self, ← hget]
      exact h.texts t
    · refine valid_coerceOpts (sortedOpts m.opts) ((h.opts e.1).trans ?_)
      exact AList.mem_lookup_iff.mpr he
  · intro h
    refine ⟨fun t => ?_, fun k => ?_, rfl⟩
    · rw [hget]
      exact Lib.Utf8.coerce_eq_self.mpr (h.texts t)
    · have hvalid : ∀ e ∈ sortedOpts m.opts, valid e.1 = true ∧ valid e.2 = true := by
        intro e he
        exact h.opts ⟨e.1, e.2⟩ (AList.mem_lookup_iff.mp (mem_sortedOpts.mp he))
      refine Option.ext fun v => ?_
      change (coerceOpts (sortedOpts m.opts)).lookup k = some v ↔ m.opts.lookup k = some v
      rw [lookup_coerceOpts (sortedOpts_nodup _) hvalid, mem_sortedOpts]

/-! ## 8. Round trips -/

/-- What a round trip promises: the volume, and the same metadata, none for none and for all
zeros. -/
def ReadsBack (gz : Gzip) (cid bareCID : Str) (m : Option DiskCIDMeta) : Prop :=
  ∃ got, parseEncodedDiskCID gz cid = .ok (bareCID, got) ∧
    Option.Rel SameMeta got (m.filter DiskCIDMeta.nonzero)

/-- The strings are UTF-8, and the stable ID fits a drive serial. -/
structure Faithful (bareCID : Str) (m : Option DiskCIDMeta) : Prop where
  volid : valid bareCID = true
  strings : ∀ m' ∈ m, m'.Utf8
  stableID : ∀ m' ∈ m, m'.id.length ≤ diskStableIDLen

theorem utf8_of_zero {m : DiskCIDMeta} (h : m.nonzero = false) :
    m.Utf8 ∧ m.id.length ≤ diskStableIDLen := by
  simp only [DiskCIDMeta.nonzero, Bool.or_eq_false_iff, bne_eq_false_iff_eq,
    decide_eq_false_iff_not, Nat.not_lt, Nat.le_zero, List.length_eq_zero_iff] at h
  obtain ⟨⟨⟨⟨⟨⟨hpool, hnode⟩, haz⟩, hopts⟩, -⟩, hformat⟩, hid⟩ := h
  refine ⟨⟨fun t => ?_, ?_⟩, by simp [hid]⟩
  · cases t <;> simp [DiskCIDMeta.get, hpool, hnode, haz, hformat, hid, valid]
  · rw [hopts]
    simp

/-- What is lost, in terms of the input: every string is UTF-8, and the stable ID is short. -/
theorem faithful_iff {bareCID : Str} {m : Option DiskCIDMeta} :
    Faithful bareCID m ↔ valid bareCID = true ∧
      ∀ m' ∈ m.filter DiskCIDMeta.nonzero, m'.Utf8 ∧ m'.id.length ≤ diskStableIDLen := by
  constructor
  · intro h
    refine ⟨h.volid, fun m' hm' => ?_⟩
    have hmem := (Option.filter_eq_some_iff.mp hm').1
    exact ⟨h.strings m' hmem, h.stableID m' hmem⟩
  · rintro ⟨hvolid, hmeta⟩
    have hall : ∀ m' ∈ m, m'.Utf8 ∧ m'.id.length ≤ diskStableIDLen := by
      intro m' hm'
      cases hzero : m'.nonzero with
      | false => exact utf8_of_zero hzero
      | true => exact hmeta m' (Option.filter_eq_some_iff.mpr ⟨hm', hzero⟩)
    exact ⟨hvolid, fun m' hm' => (hall m' hm').1, fun m' hm' => (hall m' hm').2⟩

/-- **An envelope that is read whole reads back when it is faithful.** -/
theorem readsBack_iff {gz : Gzip} {cid bareCID : Str} {m : Option DiskCIDMeta} (h : bareCID ≠ [])
    (hparse : parseEncodedDiskCID gz cid =
      unmarshalDiskCIDEnvelope (marshalDiskCIDEnvelope bareCID m)) :
    ReadsBack gz cid bareCID m ↔ Faithful bareCID m := by
  rw [ReadsBack, hparse, unmarshal_marshal h, faithful_iff]
  cases m.filter DiskCIDMeta.nonzero with
  | none =>
    constructor
    · rintro ⟨got, hok, -⟩
      refine ⟨Lib.Utf8.coerce_eq_self.mp ?_, fun m' hm' => by cases hm'⟩
      exact congrArg Prod.fst (Except.ok.inj hok)
    · rintro ⟨hvolid, -⟩
      rw [Lib.Utf8.coerce_eq_self.mpr hvolid]
      exact ⟨none, rfl, .none⟩
  | some m' =>
    rw [Option.map_some, checkID]
    constructor
    · rintro ⟨got, hok, hsame⟩
      split at hok
      · cases hok
      · rename_i hid
        obtain ⟨hvolid, rfl⟩ := Prod.mk.inj (Except.ok.inj hok)
        have hsame : SameMeta (coerceMeta m') m' := by
          cases hsame with
          | some hs => exact hs
        refine ⟨Lib.Utf8.coerce_eq_self.mp hvolid, fun m'' hm'' => ?_⟩
        cases hm''
        refine ⟨sameMeta_coerceMeta.mp hsame, ?_⟩
        have hget : (coerceMeta m').id = m'.id := hsame.texts .id
        rw [← hget]
        exact Nat.le_of_not_lt hid
    · rintro ⟨hvolid, hmeta⟩
      obtain ⟨hutf8, hid⟩ := hmeta m' rfl
      have hsame := sameMeta_coerceMeta.mpr hutf8
      have hget : (coerceMeta m').id = m'.id := hsame.texts .id
      rw [hget, if_neg (Nat.not_lt.mpr hid), Lib.Utf8.coerce_eq_self.mpr hvolid]
      exact ⟨some (coerceMeta m'), rfl, .some hsame⟩

/-- **When disk CIDs read back.**  What the two encoders write for a volume and its metadata is read
back exactly when every string is UTF-8, the stable ID has at most twenty bytes, and the envelope is
not one over 64 KiB that the compressor makes shorter.  Both forms are read as the coerced envelope
(`readEnvelope_marshal`), and a coerced envelope is the envelope exactly when it was UTF-8; the two
caps are the parser's. -/
theorem diskCID_readsBack_iff (gz : Gzip) (bareCID : Str) (m : Option DiskCIDMeta)
    (h : bareCID ≠ []) :
    (∀ cid, encodeDiskCID bareCID m = .ok cid ∨ encodeDiskCIDCompressed gz bareCID m = .ok cid →
      ReadsBack gz cid bareCID m) ↔
    Faithful bareCID m ∧
      ((marshalDiskCIDEnvelope bareCID m).length ≤ maxDiskCIDEnvelopeBytes ∨
        ¬Shortens gz (marshalDiskCIDEnvelope bareCID m)) := by
  have hplain := readsBack_iff h (parse_plain gz (marshal_ne_nil bareCID m))
  constructor
  · intro hall
    refine ⟨hplain.mp (hall _ (.inl (encodeDiskCID_ok h m))), ?_⟩
    by_contra hlong
    rw [not_or, Nat.not_le, not_not] at hlong
    obtain ⟨hlong, z, hz, hlt⟩ := hlong
    obtain ⟨got, hok, -⟩ := hall _ (.inr (encodeDiskCIDCompressed_long gz h hlong hz hlt))
    rw [parse_compressed gz hz, if_pos hlong] at hok
    cases hok
  · rintro ⟨hfaithful, hsize⟩ cid (hcid | hcid)
    · rw [encodeDiskCID_ok h, Except.ok.injEq] at hcid
      rw [← hcid]
      exact hplain.mpr hfaithful
    · rcases encodeDiskCIDCompressed_cases gz hcid with rfl | ⟨z, hz, hlt, rfl⟩
      · exact hplain.mpr hfaithful
      · have hshort := hsize.resolve_right (not_not.mpr ⟨z, hz, hlt⟩)
        refine (readsBack_iff h ?_).mpr hfaithful
        rw [parse_compressed gz hz, if_neg (Nat.not_lt.mpr hshort)]

/-- A compressor that stores what it is given behind a header. -/
def storeOnly : Gzip where
  compress b := some (31 :: 139 :: b)
  read z n := some ((z.drop 2).take n)
  header b z h := by
    cases h
    exact List.cons_ne_nil _ _
  inverts b z n h := by
    cases h
    rfl

/-- The metadata of a disk with a stable ID of twenty bytes. -/
def sampleMeta : DiskCIDMeta :=
  { DiskCIDMeta.zero with
    pool := str "local-lvm", anchor := true, id := str "bpd-0123456789abcdef" }

theorem faithful_sample : Faithful (str "local-lvm:vm-1-disk-0") (some sampleMeta) := by
  have htexts : ∀ t, valid (sampleMeta.get t) = true := by
    intro t
    cases t with
    | pool => exact Lib.Utf8.valid_encode _
    | id => exact Lib.Utf8.valid_encode _
    | node => exact Lib.Utf8.valid_encode []
    | az => exact Lib.Utf8.valid_encode []
    | format => exact Lib.Utf8.valid_encode []
  refine ⟨Lib.Utf8.valid_encode _, ?_, ?_⟩
  · rintro m' ⟨⟩
    exact ⟨htexts, fun e he => by cases he⟩
  · rintro m' ⟨⟩
    exact Nat.le_of_eq rfl

theorem diskCID_readsBack_sample :
    str "local-lvm:vm-1-disk-0" ≠ [] ∧
    ∀ cid, encodeDiskCID (str "local-lvm:vm-1-disk-0") (some sampleMeta) = .ok cid ∨
        encodeDiskCIDCompressed storeOnly (str "local-lvm:vm-1-disk-0") (some sampleMeta) =
          .ok cid →
      ReadsBack storeOnly cid (str "local-lvm:vm-1-disk-0") (some sampleMeta) := by
  have hne : str "local-lvm:vm-1-disk-0" ≠ [] := by
    intro h
    cases Lib.Utf8.encode_eq_nil.mp h
  have hstored : ¬Shortens storeOnly
      (marshalDiskCIDEnvelope (str "local-lvm:vm-1-disk-0") (some sampleMeta)) := by
    rintro ⟨z, hz, hlt⟩
    cases hz
    rw [Lib.Base64.length_encode, Lib.Base64.length_encode, List.length_cons,
      List.length_cons] at hlt
    omega
  exact ⟨hne, (diskCID_readsBack_iff storeOnly _ _ hne).mpr ⟨faithful_sample, .inr hstored⟩⟩

/-- **A stable ID of twenty-one bytes is written and cannot be read.** -/
theorem diskCID_long_stableID :
    ¬∀ (gz : Gzip) (bareCID : Str) (m : Option DiskCIDMeta), bareCID ≠ [] →
      ∀ cid, encodeDiskCID bareCID m = .ok cid ∨ encodeDiskCIDCompressed gz bareCID m = .ok cid →
        ReadsBack gz cid bareCID m := by
  intro hall
  have hne : str "local-lvm:vm-1-disk-0" ≠ [] := by
    intro h
    cases Lib.Utf8.encode_eq_nil.mp h
  have hback := hall storeOnly (str "local-lvm:vm-1-disk-0")
    (some { DiskCIDMeta.zero with id := str "bpd-0123456789abcdef0" }) hne _
    (.inl (encodeDiskCID_ok hne _))
  rw [readsBack_iff hne (parse_plain storeOnly (marshal_ne_nil _ _))] at hback
  exact absurd (hback.stableID _ rfl) (by decide)

end Disk
