/-
# Attempts and retention: the validators of `attempts.go` and `retention.go`

A record carries its attempts.  Attempt 0 has the plan of the intent; every later attempt was
admitted by a proof that the attempt before it left nothing behind, and every attempt but the
last is closed by such a proof.  `validateAttempts` checks all of that on one record,
`validateAttemptTransition` on a pair of records, and `validateVMRetention` checks the proof
under which a deleted VM's artifacts are kept.

A retry is the dangerous moment of an allocation: a second mutation begins although the first may
have left something behind.  So an attempt is only begun with a proof, and the proof is kept in the
record: at the attempt that it admits, at the attempt that it closes, and among the verifications.

`retention.go` has the same shape for the one case in which resources are left on purpose: the VM is
gone, its artifacts stay, and every one of them is named by an observed step of the record.
-/
import PveCpi.Journal.Evidence

namespace Journal

open Lib.Json (Value Elems Members parse)

/-! ## 1. The active attempt -/

/-- The implicit plan of attempt 0. -/
def initialPlan (i : Intent) : AttemptPlan :=
  { version := attemptVersion, policyFingerprint := i.policyFingerprint,
    frozenInputsFingerprint := i.frozenInputsFingerprint, planVersion := i.planVersion,
    plan := i.plan }

/-- A plan as the intent it would have been frozen in. -/
def AttemptPlan.asIntent (p : AttemptPlan) (intentFingerprint : String) : Intent :=
  { intentFingerprint := intentFingerprint, policyFingerprint := p.policyFingerprint,
    frozenInputsFingerprint := p.frozenInputsFingerprint, planVersion := p.planVersion,
    plan := p.plan }

/-- The number of the attempt in progress. -/
def Record.activeAttempt (r : Record) : Int := (r.attempts.length - 1 : Nat)

/-- The last attempt has its completion proof. -/
def attemptClosed (r : Record) : Bool := r.attempts.getLast?.any fun a => a.completion.isSome

/-- The steps of the attempt in progress. -/
def activeSteps (r : Record) : List Step := r.steps.filter fun s => s.attempt == r.activeAttempt

def activeStepCount (r : Record) : Nat := (activeSteps r).length

/-- The attempts, with the implicit first one written out. -/
def attemptsOrInitial (r : Record) : List Attempt :=
  if r.attempts.isEmpty then [{ number := 0, plan := initialPlan r.intent }] else r.attempts

/-! ## 2. Proofs about attempts -/

/-- A step shows that its operation was submitted. -/
def stepMutated (s : Step) : Bool :=
  s.upid != "" || !s.volIDs.isEmpty || s.state == .submitted || s.state == .observed

/-- The proof covers everything attempt `number` may have done. -/
def validateAttemptProof (r : Record) (number : Int) (v : AttemptVerification) :
    Except Err Unit := do
  refuse (!validateVerification v.toVerification || !v.absenceVerified ||
      !v.artifactDispositionVerified || v.retainedArtifacts ||
      (!v.outcomesKnown && !v.noSubmissionVerified))
    (ErrKind.reconciliationRequired.because
      "complete absence, artifact disposition and settled submission outcomes required")
  checkWhen v.noSubmissionVerified <|
    checkAll (fun s => checkWhen (s.attempt == number) do
        refuse (stepMutated s)
          (ErrKind.conflict.because "no-submission proof conflicts with recorded mutation")
        refuse (s.charges.any fun c => c.acquiredBytes > 0)
          (ErrKind.conflict.because "no-submission proof conflicts with acquired bytes"))
      r.steps

/-- The proof that admitted attempt `i`. -/
def validateAdmission (r : Record) (i : Nat) (a : Attempt) : Except Err Unit :=
  if i = 0 then
    refuse a.admission.isSome (ErrKind.corrupt.because "initial attempt has retry admission")
  else match a.admission with
    | none => .error (ErrKind.corrupt.because "retry lacks admission audit")
    | some v => do
      validateAttemptProof r (i - 1 : Nat) v
      refuse (!r.verifications.contains v.toVerification)
        (ErrKind.corrupt.because "retry admission audit missing")

/-- The proof that closed attempt `i`. -/
def validateCompletion (r : Record) (i : Nat) (a : Attempt) : Except Err Unit :=
  match a.completion with
  | none => pure ()
  | some v => do
    validateAttemptProof r i v
    refuse (!r.verifications.contains v.toVerification)
      (ErrKind.corrupt.because "missing attempt audit")

/-- Attempt `i` of a record. -/
def validateAttempt (r : Record) (i : Nat) (a : Attempt) : Except Err Unit := do
  let p := a.plan
  refuse (a.number != i || p.version != attemptVersion ||
      p.policyFingerprint != r.intent.policyFingerprint ||
      p.frozenInputsFingerprint != r.intent.frozenInputsFingerprint ||
      !(validateIntent (p.asIntent r.intent.intentFingerprint)).isOk)
    (ErrKind.corrupt.because "invalid attempt plan/version/boundary")
  refuse (i == 0 && p != initialPlan r.intent) (ErrKind.corrupt.because "initial plan changed")
  validateAdmission r i a
  refuse (i > 0 && !validFingerprint p.frozenInputsFingerprint)
    (ErrKind.corrupt.because "retry lacks frozen membership")
  refuse (i + 1 < r.attempts.length && a.completion.isNone)
    (ErrKind.corrupt.because "prior attempt remains open")
  validateCompletion r i a

/-- Every step belongs to an attempt, and a closed attempt holds the record back. -/
def validateAttemptStepBounds (r : Record) : Except Err Unit := do
  refuse (r.steps.any fun s => s.attempt < 0 || s.attempt > r.activeAttempt)
    (ErrKind.corrupt.because "invalid step attempt")
  refuse (attemptClosed r && r.state != .reconciliationRequired && !terminal r.state)
    (ErrKind.corrupt.because "closed attempt cannot mutate or return CID")

/-- All attempts of a record. -/
def validateAttempts (r : Record) : Except Err Unit := do
  checkFrom (validateAttempt r) 0 r.attempts
  validateAttemptStepBounds r

/-- The allocation may still be retried. -/
def retryEligible (r : Record) : Except Err Unit := do
  refuse (r.cid != "" || r.state == .readyToReturn || r.state == .adopted ||
      generationClosed r.state)
    (ErrKind.conflict.because "allocation lifecycle forbids retry")
  refuse (!validFingerprint r.intent.frozenInputsFingerprint)
    (ErrKind.conflict.because "original frozen membership missing")

/-- Attempt `i` of the record before, against the attempts after: the last one may gain its
completion proof, everything else stays. -/
def validateAttemptKept (before after : List Attempt) (i : Nat) (a : Attempt) :
    Except Err Unit :=
  match after[i]? with
  | none => .error ErrKind.conflict.err
  | some n =>
    if i + 1 = before.length ∧ a.completion = none then do
      refuse n.completion.isNone ErrKind.conflict.err
      refuse ({ a with completion := n.completion } != n) ErrKind.conflict.err
    else refuse (a != n) ErrKind.conflict.err

/-- The write of `CompleteAttempt` and `BeginAttempt`. -/
def validateAttemptTransition (old next : Record) : Except Err Unit := do
  retryEligible old
  refuse (old.steps != next.steps || next.verifications.length != old.verifications.length + 1)
    ErrKind.conflict.err
  let before := attemptsOrInitial old
  refuse (next.attempts.length != before.length && next.attempts.length != before.length + 1)
    ErrKind.conflict.err
  checkFrom (validateAttemptKept before next.attempts) 0 before
  refuse (if next.attempts.length = before.length then
      next.state != .reconciliationRequired || attemptClosed old
    else next.state != .planned || next.attempts.getLast?.any fun a => a.completion.isSome)
    ErrKind.conflict.err
  validateAttempts next

/-! ## 3. Retention -/

/-- What a retention proof says: the VM that is gone and the artifacts that are kept. -/
structure VMRetentionEvidence where
  vmid : Int := 0
  retainedArtifacts : List Target := []
  deriving DecidableEq, Repr

/-- Case folding of the names the decoder matches. -/
def foldChar (c : Char) : Char :=
  if c == '\u017f' then 's' else if c == '\u212a' then 'k' else c.toLower

/-- A key names a field: exactly, or up to case. -/
def namesField (key field : String) : Bool := key.toList.map foldChar == field.toList

/-- A JSON value decoded over what a text field holds; `none` is a type error. -/
def decodeText (prior : String) : Value → Option String
  | .str raw => some (String.ofList (Lib.Json.unquote raw))
  | .null => some prior
  | _ => none

def decodeBool (prior : Bool) : Value → Option Bool
  | .bool b => some b
  | .null => some prior
  | _ => none

def decodeInt (prior : Int) : Value → Option Int
  | .num lit => Lib.Json.readInt64 lit
  | .null => some prior
  | _ => none

def decodeUint64 (prior : UInt64) : Value → Option UInt64
  | .num lit => (Lib.Json.readUint64 lit).map UInt64.ofNat
  | .null => some prior
  | _ => none

/-- One member of a target; unknown keys are skipped. -/
def decodeTargetField (t : Target) (key : String) (v : Value) : Option Target :=
  if namesField key "external" then (decodeBool t.external v).map fun x => { t with external := x }
  else if namesField key "virtual_bytes" then
    (decodeUint64 t.virtualBytes v).map fun x => { t with virtualBytes := x }
  else if namesField key "node" then (decodeText t.node v).map fun x => { t with node := x }
  else if namesField key "storage" then
    (decodeText t.storage v).map fun x => { t with storage := x }
  else if namesField key "backing" then
    (decodeText t.backing v).map fun x => { t with backing := x }
  else if namesField key "vmid" then (decodeInt t.vmid v).map fun x => { t with vmid := x }
  else if namesField key "intended_volume" then
    (decodeText t.intendedVolume v).map fun x => { t with intendedVolume := x }
  else some t

/-- The members of an object, one after the other. -/
def decodeFields {α : Type} (field : α → String → Value → Option α) :
    α → List (String × Value) → Option α
  | a, [] => some a
  | a, (k, v) :: rest => (field a k v).bind fun b => decodeFields field b rest

def decodeTarget (prior : Target) : Value → Option Target
  | .obj ms => decodeFields decodeTargetField prior (fieldsOf ms)
  | .null => some prior
  | _ => none

/-- The elements of an array, decoded over the elements the slice already holds. -/
def decodeTargets : List Target → Elems → Option (List Target)
  | _, .nil => some []
  | prior, .cons v es => do
    let t ← decodeTarget (prior.headD {}) v
    let rest ← decodeTargets prior.tail es
    pure (t :: rest)

def decodeRetentionField (e : VMRetentionEvidence) (key : String) (v : Value) :
    Option VMRetentionEvidence :=
  if namesField key "vmid" then (decodeInt e.vmid v).map fun x => { e with vmid := x }
  else if namesField key "retained_artifacts" then
    match v with
    | .arr es => (decodeTargets e.retainedArtifacts es).map fun x =>
        { e with retainedArtifacts := x }
    | .null => some { e with retainedArtifacts := [] }
    | _ => none
  else some e

/-- `json.Unmarshal` of a retention proof. -/
def decodeRetention (text : String) : Option VMRetentionEvidence :=
  match parse text.toList with
  | some (.obj ms) => decodeFields decodeRetentionField {} (fieldsOf ms)
  | some .null => some {}
  | _ => none

/-- A verification that proves a VM gone with its artifacts kept. -/
def isRetentionProof (v : Verification) : Bool :=
  v.vmAbsenceVerified && v.artifactDispositionVerified && !v.absenceVerified &&
    v.evidenceJSON != ""

/-- A step of the active attempt that owns the artifact. -/
def ownsArtifact (r : Record) (target : Target) (s : Step) : Bool :=
  s.attempt == r.activeAttempt && !s.target.external && s.state == .observed &&
    s.target.node == target.node && s.target.storage == target.storage &&
    s.target.backing == target.backing &&
    (s.target.intendedVolume == target.intendedVolume || s.volIDs.contains target.intendedVolume)

/-- The retained artifacts, each a named volume that a step of the record owns, none twice. -/
def checkArtifacts (r : Record) : List Target → List Target → Except Err Unit
  | _, [] => .ok ()
  | seen, t :: rest => do
    refuse (t.external || !nonblank t.node || !nonblank t.storage || !nonblank t.backing ||
        !(t.storage ++ ":").toList.isPrefixOf t.intendedVolume.toList ||
        byteLen t.intendedVolume ≤ byteLen t.storage + 1 || seen.contains t)
      (ErrKind.corrupt.because "invalid retained artifact target")
    refuse (!r.steps.any (ownsArtifact r t))
      (ErrKind.corrupt.because "retained artifact is outside observed owned targets")
    checkArtifacts r (t :: seen) rest

/-- The proof under which a deleted VM keeps artifacts. -/
def validateVMRetention (r : Record) : Except Err Unit := do
  refuse (r.kind != .vm) (ErrKind.corrupt.because "retained VM state requires VM allocation")
  match r.verifications.reverse.find? isRetentionProof with
  | none =>
    .error (ErrKind.corrupt.because "durable VM absence and retention proof required")
  | some proof =>
    match decodeRetention proof.evidenceJSON with
    | none => .error (ErrKind.corrupt.because "exact retained artifact evidence required")
    | some evidence => do
      refuse (evidence.vmid ≤ 0 || evidence.retainedArtifacts.isEmpty)
        (ErrKind.corrupt.because "exact retained artifact evidence required")
      checkArtifacts r [] evidence.retainedArtifacts
      refuse (!r.steps.any fun s => s.attempt == r.activeAttempt && !s.target.external &&
          s.target.vmid == evidence.vmid)
        (ErrKind.corrupt.because "retention proof VM identity mismatch")

end Journal
