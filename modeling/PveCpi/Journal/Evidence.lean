/-
# Evidence texts: canonical JSON, mutation parameters, frozen plans

`evidence.go`, `parameters.go` and the JSON part of `types.go`.  A verification may carry a text
that must be the canonical encoding of a JSON object and hash to the verification's identifier;
a step may carry parameters that must be canonical and drawn from a fixed list of scalar fields;
an intent carries its plan as raw JSON.

Raw JSON is not written to disk as it was handed over: the encoder compacts it (`compactText`).
Parameters survive that unchanged (`compactText_of_parameters`).  A plan may not: it stays valid
(`valid_compactText`), but a padded `null` becomes the `null` that `validateIntent` refuses.

The texts are kept as texts, because their identity is that of their bytes: a verification's
identifier is a digest of its evidence, and a comparison of two plans is one of texts.  What the
JSON layer contributes is `Lib.Json.compact` and its three laws; here they are read off for
`String`.

That a plan may change on its way to disk is the root of one of the two ways in which a record
becomes unreadable (`Durability`).
-/
import PveCpi.Journal.Types

namespace Journal

open Lib.Json (Value Members parse parseFirst valid compact canonicalObject)
open Lib.Sha256 (sha256Hex)

/-! ## 1. Raw JSON on its way to disk -/

/-- `json.Valid`. -/
def jsonValid (raw : String) : Bool := valid raw.toList

/-- What the encoder writes for raw JSON. -/
def compactText (raw : String) : String := String.ofList (compact raw.toList)

/-- How deep raw JSON is nested. -/
def nesting (raw : String) : Nat := Lib.Json.depth raw.toList

@[simp] theorem toList_compactText (raw : String) :
    (compactText raw).toList = compact raw.toList := by
  simp [compactText]

theorem valid_compactText (raw : String) : jsonValid (compactText raw) = jsonValid raw := by
  rw [jsonValid, toList_compactText, Lib.Json.valid_compact, jsonValid]

@[simp] theorem nesting_compactText (raw : String) : nesting (compactText raw) = nesting raw := by
  rw [nesting, toList_compactText, Lib.Json.depth_compact, nesting]

@[simp] theorem compactText_compactText (raw : String) :
    compactText (compactText raw) = compactText raw := by
  rw [compactText, toList_compactText, Lib.Json.compact_compact, compactText]

/-! ## 2. Canonical evidence -/

/-- The bound on a canonical verification payload. -/
def maxEvidenceBytes : Nat := 1048576

/-- Decode the first JSON value of a text, which must be an object, and encode it again. -/
def canonicalEvidence (raw : String) : Except Err String := do
  refuse (byteLen raw > maxEvidenceBytes) ErrKind.corrupt.err
  match parseFirst raw.toList with
  | none => .error ⟨[.plain], "malformed JSON"⟩
  | some (.null, _) => .error ErrKind.corrupt.err
  | some _ =>
    match canonicalObject raw.toList with
    | none => .error ⟨[.plain], "json: cannot unmarshal value into Go value of type map"⟩
    | some encoded => do
      refuse (byteLen (String.ofList encoded) > maxEvidenceBytes) ErrKind.corrupt.err
      pure (String.ofList encoded)

theorem compactText_canonicalEvidence {raw out : String} (h : canonicalEvidence raw = .ok out) :
    compactText out = out := by
  rw [canonicalEvidence, check_bind_eq_ok] at h
  replace h := h.2
  split at h
  · cases h
  · cases h
  · split at h
    · cases h
    · rename_i encoded hc
      rw [check_bind_eq_ok] at h
      have hout : String.ofList encoded = out := by simpa using h.2
      rw [← hout, compactText, String.toList_ofList, Lib.Json.compact_canonicalObject hc]

/-- The payload is canonical and its digest is the evidence identifier. -/
def validateEvidencePayload (v : Verification) : Bool :=
  if v.evidenceJSON == "" then true
  else match canonicalEvidence v.evidenceJSON with
    | .error _ => false
    | .ok canonical => canonical == v.evidenceJSON && v.evidenceID == sha256Hex canonical

/-- A complete attestation. -/
def validateVerification (v : Verification) : Bool :=
  nonblank v.evidenceID && v.complete && validateEvidencePayload v

/-! ## 3. Frozen plans -/

/-- The fingerprints and the plan of an intent. -/
def validateIntent (i : Intent) : Except Err Unit := do
  refuse (i.frozenInputsFingerprint != "" && !validFingerprint i.frozenInputsFingerprint)
    (ErrKind.corrupt.because "invalid frozen input fingerprint")
  refuse (!validFingerprint i.intentFingerprint || !validFingerprint i.policyFingerprint ||
      i.planVersion < 1 || !jsonValid i.plan || i.plan == "null")
    (ErrKind.corrupt.because "invalid fingerprints or versioned plan")

/-- How deep the plan of an attempt may be nested for its record to be written.  The record holds
it four levels down (`attempts`, the attempt, its plan), and the envelope adds one. -/
def maxPlanNesting : Nat := Lib.Json.maxDepth - 5

/-- The plan reads back from disk: it does not compact to `null`. -/
def planReadable (plan : String) : Bool := compactText plan != "null"

/-! ## 4. Mutation parameters -/

def maxMutationParametersBytes : Nat := 65536

/-- The fields a mutation may record. -/
def allowedParameters : List String :=
  ["version", "kind", "vnet", "subnet", "cidr", "rule", "type", "resources", "nodes", "strict",
    "affinity", "disable", "comment", "original_resources", "desired_resources", "digest",
    "absence_verified", "source_allocation", "source_step"]

/-- The members of an object with their keys decoded. -/
def fieldsOf : Members → List (String × Value)
  | .nil => []
  | .cons k v ms => (String.ofList (Lib.Json.unquote k), v) :: fieldsOf ms

/-- A value that decodes to a Go string, bool or float64. -/
def isScalar : Value → Bool
  | .str _ | .bool _ => true
  | .num lit => Lib.Json.isFinite lit
  | _ => false

/-- One field is on the list and scalar. -/
def checkParameter (field : String × Value) : Except Err Unit := do
  refuse (!allowedParameters.contains field.1)
    (ErrKind.corrupt.because "unsupported mutation parameter field")
  refuse (!isScalar field.2)
    (ErrKind.corrupt.because "mutation parameter fields must be scalar")

/-- The kind a parameter object names; `none` when the field is missing or not a string. -/
def parameterKind (fields : List (String × Value)) : Option String :=
  match fields.lookup "kind" with
  | some (.str raw) => some (String.ofList (Lib.Json.unquote raw))
  | _ => none

/-- The object names version 1. -/
def parameterVersionOk (fields : List (String × Value)) : Bool :=
  match fields.lookup "version" with
  | some (.num lit) => Lib.Json.readInt64 lit == some 1
  | _ => false

/-- The object states the observed absence of the volume. -/
def parameterAbsent (fields : List (String × Value)) : Bool :=
  match fields.lookup "absence_verified" with
  | some (.bool b) => b
  | _ => false

/-- The fields of a parameter object. -/
def validateParameterFields (fields : List (String × Value)) : Except Err Unit := do
  refuse (!parameterVersionOk fields || !((parameterKind fields).any nonblank))
    (ErrKind.corrupt.because "mutation parameters require version and kind")
  let birth := parameterKind fields == some "ephemeral_birth" ||
    parameterKind fields == some "persistent_birth"
  refuse (birth && (fields.length != 3 || !parameterAbsent fields))
    (ErrKind.corrupt.because "volume birth requires exact absence observation")
  refuse (!birth && (fields.lookup "absence_verified").isSome)
    (ErrKind.corrupt.because "absence observation only valid for volume birth")
  checkAll checkParameter fields

/-- The parameters of a step: none, or a canonical object of allowed scalar fields. -/
def validateMutationParameters (raw : String) : Except Err Unit :=
  if raw == "" then .ok ()
  else do
    refuse (byteLen raw > maxMutationParametersBytes)
      (ErrKind.corrupt.because "mutation parameters exceed bound")
    refuse (match canonicalEvidence raw with
        | .ok canonical => canonical != raw
        | .error _ => true)
      (ErrKind.corrupt.because "mutation parameters must be canonical object JSON")
    match parse raw.toList with
    | some (.obj ms) => validateParameterFields (fieldsOf ms)
    | _ => .error ErrKind.corrupt.err

/-- **Parameters that pass are written to disk as they are.**  They must be canonical to pass, and a
canonical text is a fixed point of compaction (`Lib.Json.compact_canonical`). -/
theorem compactText_of_parameters {raw : String} (h : validateMutationParameters raw = .ok ()) :
    compactText raw = raw := by
  rw [validateMutationParameters] at h
  split at h
  · rename_i he
    have : raw = "" := by simpa using he
    subst this
    decide
  · simp only [check_bind_eq_ok, refuse_eq_ok] at h
    obtain ⟨_, hc, _⟩ := h
    split at hc
    · rename_i canonical hcan
      have : canonical = raw := by simpa using hc
      exact this ▸ compactText_canonicalEvidence hcan
    · cases hc

end Journal
