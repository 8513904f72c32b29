/-
# Records: the validators of `types.go` and the decision of a save

`validateRecord` reads one record, `validateUpdate` a record and the record that is to replace
it, and `admitSave` is everything `saveLocked` decides before it writes: the gate of a resumed
handle, the attempt transition, the update.  `stored` is what a record looks like after it went
through the encoder and back.

Each validator is written as a chain of the checks of `Lib.Check`, in the order of the source and
with its messages, so that the first check that fails is the answer there and here.  What a chain
that passed says is stated in `History` and `Retry`, in the words of what a record means.

A save looks at three records: the one in the handle, the one it is asked to write, and, for an
attempt transition, a doctored copy of the first (`Attempts`).  None of these is read from the disk:
that the one in the handle IS on disk is an invariant of the protocol and not a check of the code.
-/
import PveCpi.Journal.Attempts

namespace Journal

/-! ## 1. One record

What every reader and every writer demands, whatever the record was before. -/

/-- A charge is partitioned into acquired and outstanding bytes. -/
def validateCharge (c : Charge) : Except Err Unit :=
  refuse (!nonblank c.backing || c.plannedBytes < 0 || c.acquiredBytes < 0 ||
      c.outstandingBytes < 0 || c.acquiredBytes > Int64.maxValue - c.outstandingBytes ||
      c.acquiredBytes + c.outstandingBytes != c.plannedBytes)
    (ErrKind.corrupt.because "invalid charge")

/-- The states a step may be in. -/
def validStepState (s : State) : Bool :=
  s == .planned || s == .submitted || s == .observed || s == .reconciliationRequired

/-- One step, apart from the uniqueness of its identifier. -/
def validateStep (s : Step) : Except Err Unit := do
  validateMutationParameters s.parameters
  refuse (s.state == .submitted && !nonblank s.upid)
    (ErrKind.corrupt.because "submitted step lacks UPID")
  checkAll validateCharge s.charges
  refuse (!s.volIDs.all nonblank) (ErrKind.corrupt.because "blank volid")

/-- The steps in order; `seen` holds the identifiers of those before. -/
def checkSteps : List String → List Step → Except Err Unit
  | _, [] => .ok ()
  | seen, s :: rest => do
    refuse (!nonblank s.id || seen.contains s.id || !nonblank s.kind || !nonblank s.target.node ||
        s.target.vmid < 0 || !validStepState s.state)
      (ErrKind.corrupt.because "invalid mutation step")
    validateStep s
    checkSteps (s.id :: seen) rest

/-- The steps and the verifications of a record. -/
def validateRecordSteps (r : Record) : Except Err Unit := do
  checkSteps [] r.steps
  refuse (!r.verifications.all validateVerification)
    (ErrKind.corrupt.because "incomplete verification")

/-- What each state demands of the rest of the record. -/
def validateRecordDisposition (r : Record) : Except Err Unit := do
  refuse (r.state == .submitted && !(activeSteps r).any fun s => s.state == .submitted)
    (ErrKind.corrupt.because "missing submitted step")
  refuse (r.state == .observed && r.steps.isEmpty)
    (ErrKind.corrupt.because "no observed resources")
  checkWhen (r.state == .readyToReturn || r.state == .adopted) do
    refuse (!nonblank r.cid || byteLen r.cid > 255 || activeStepCount r == 0 || attemptClosed r)
      (ErrKind.corrupt.because "result lacks CID/resources")
    refuse (!(activeSteps r).all fun s => s.state == .observed)
      (ErrKind.corrupt.because "incomplete result step")
  checkWhen (r.state == .vmDeletedRetained) (validateVMRetention r)
  refuse (r.state == .reconciliationRequired && !nonblank r.reason)
    (ErrKind.corrupt.because "reconciliation lacks reason")
  checkWhen (terminal r.state || r.state == .adopted) <|
    match r.verifications.getLast? with
    | none => .error (ErrKind.corrupt.because "terminal/adoption evidence required")
    | some v =>
      refuse (terminal r.state && (!v.absenceVerified || !v.artifactDispositionVerified) ||
          r.state == .adopted && !v.ownershipVerified)
        (ErrKind.corrupt.because "insufficient lifecycle evidence")

/-- The identity fields that depend on the kind. -/
def validateKind (r : Record) : Except Err Unit :=
  match r.kind with
  | .vm => refuse (!nonblank r.agentID || r.diskToken != "") (ErrKind.corrupt.because "VM identity")
  | .disk =>
    refuse ((match diskCorrelationToken r.id with
        | .ok token => token != r.diskToken
        | .error _ => true) || r.agentID != "")
      (ErrKind.corrupt.because "disk identity")
  | .other _ => .error (ErrKind.corrupt.because "allocation kind")

/-- The identity, version, state and times of a record. -/
def validateIdentity (r : Record) : Except Err Unit :=
  refuse (r.version != version || !allocationIDPattern r.id || !nonblank r.namespace ||
      !nonblank r.clusterID || !allocationIDPattern r.authorityEpoch || !validState r.state ||
      r.createdAt == 0 || r.updatedAt < r.createdAt)
    (ErrKind.corrupt.because "invalid record identity/version/state")

/-- Everything the reader demands of a record. -/
def validateRecord (r : Record) : Except Err Unit := do
  validateIdentity r
  validateIntent r.intent
  validateKind r
  validateAttempts r
  validateRecordSteps r
  validateRecordDisposition r

/-! ## 2. A record and its replacement

Nothing that was recorded may change.  The checks compare position by position: a step, a charge, a
verification keeps its place, and new ones come behind. -/

/-- A returned or adopted record goes straight to observed with fresh evidence. -/
def returnedDisposalAdmitted (old next : Record) : Bool :=
  (old.state == .readyToReturn || old.state == .adopted) && next.state == .observed &&
    next.verifications.length > old.verifications.length &&
    next.verifications.getLast?.any fun v =>
      validateVerification v && (v.ownershipVerified || v.absenceVerified)

/-- The steps of the active attempt are all settled. -/
def activeSettled (r : Record) : Bool := (activeSteps r).all fun s => s.state == .observed

/-- The evidence a move into or out of retention demands.  The two moves differ only in what the
last verification must prove and in their messages. -/
def checkRetentionMove (old next : Record) (insufficient : Verification → Bool)
    (fresh proof reused unsettled : String) : Except Err Unit := do
  refuse (next.verifications.length ≤ old.verifications.length) (ErrKind.corrupt.because fresh)
  checkAll (fun v => do
      refuse (insufficient v) (ErrKind.corrupt.because proof)
      refuse (old.verifications.any fun prior => prior.evidenceID == v.evidenceID)
        (ErrKind.corrupt.because reused))
    next.verifications.getLast?.toList
  refuse (!activeSettled next) (ErrKind.corrupt.because unsettled)

def validateRetentionTransition (old next : Record) : Except Err Unit := do
  checkWhen (old.state == .vmDeletedRetained && terminal next.state) <|
    checkRetentionMove old next (fun v => v.evidenceJSON == "")
      "fresh retained artifact absence required" "durable retained cleanup proof required"
      "retained cleanup proof reused" "unsettled retained cleanup step"
  checkWhen (next.state == .vmDeletedRetained && old.state != .vmDeletedRetained) <|
    checkRetentionMove old next
      (fun v => !v.vmAbsenceVerified || !v.artifactDispositionVerified || v.absenceVerified ||
        v.evidenceJSON == "")
      "fresh VM retention proof required" "fresh retention proof lacks VM disposition"
      "retention proof reused" "unsettled VM deletion step"

/-- One charge and the charge in its place; `observed` tells whether the step is observed now. -/
def chargeKept (observed : Bool) (p : Charge × Charge) : Except Err Unit :=
  refuse (p.1.backing != p.2.backing || p.1.domain != p.2.domain ||
      p.1.plannedBytes != p.2.plannedBytes || p.2.acquiredBytes < p.1.acquiredBytes ||
      p.2.acquiredBytes > p.1.acquiredBytes && !observed)
    (ErrKind.conflict.because "charge identity, acquisition or planned total changed")

/-- The step can no longer change: its attempt is superseded or closed. -/
def stepFrozen (r : Record) (s : Step) : Bool := s.attempt < r.activeAttempt || attemptClosed r

/-- A step of the old record and the step in its place. -/
def stepKept (old : Record) (s n : Step) : Except Err Unit := do
  refuse (stepFrozen old s && s != n) (ErrKind.conflict.because "closed attempt evidence changed")
  refuse (s.parameters != n.parameters || s.attempt != n.attempt || s.id != n.id ||
      s.kind != n.kind || s.target != n.target || (s.upid != "" && s.upid != n.upid) ||
      !s.volIDs.isPrefixOf n.volIDs)
    (ErrKind.conflict.because "mutation evidence changed")
  refuse (s.charges.length != n.charges.length)
    (ErrKind.conflict.because "mutation charge history changed")
  checkAll (chargeKept (n.state == .observed)) (s.charges.zip n.charges)
  refuse (!validTransition s.state n.state || s.state == .observed && n.state != .observed)
    (ErrKind.conflict.because "observed step regressed")

/-- A step that was not there before only states what is going to be done. -/
def stepAdded (old : Record) (s : Step) : Except Err Unit :=
  refuse (s.attempt != old.activeAttempt || attemptClosed old || s.state != .planned ||
      s.upid != "" || !s.volIDs.isEmpty)
    (ErrKind.corrupt.because "new mutation step must first persist intent")

/-- The steps of a record and of its replacement. -/
def validateStepHistory (old next : Record) : Except Err Unit := do
  refuse (next.steps.length < old.steps.length)
    (ErrKind.conflict.because "mutation history removed")
  checkAll (fun p => stepKept old p.1 p.2) (old.steps.zip next.steps)
  checkAll (stepAdded old) (next.steps.drop old.steps.length)

/-- The old record with the fields a save may change taken from the new one. -/
def withMutable (old next : Record) : Record :=
  { old with state := next.state, steps := next.steps, cid := next.cid, reason := next.reason,
             verifications := next.verifications, updatedAt := next.updatedAt }

/-- Everything a save demands of a record and its replacement. -/
def validateUpdate (old next : Record) : Except Err Unit := do
  refuse (withMutable old next != next)
    (ErrKind.conflict.because "immutable allocation identity, intent or plan changed")
  refuse (!validTransition old.state next.state && !returnedDisposalAdmitted old next)
    (ErrKind.corrupt.because
      ("invalid transition " ++ old.state.text ++ " to " ++ next.state.text))
  refuse (terminal old.state && old != next)
    (ErrKind.conflict.because "terminal evidence is immutable")
  refuse (old.cid != "" && old.cid != next.cid) (ErrKind.conflict.because "CID changed")
  refuse (!old.verifications.isPrefixOf next.verifications)
    (ErrKind.conflict.because "verification evidence removed")
  refuse (old.state == .reconciliationRequired && next.state != .reconciliationRequired &&
      next.verifications.length == old.verifications.length)
    ErrKind.reconciliationRequired.err
  validateRetentionTransition old next
  validateStepHistory old next
  validateRecord next

/-! ## 3. What `saveLocked` decides

The order of the three decisions matters: a gated handle refuses before the transition is looked at,
and an attempt transition is validated before the update is. -/

/-- The replacement brings complete evidence of what the allocation holds. -/
def reconciles (old next : Record) : Bool :=
  next.verifications.length > old.verifications.length &&
    next.verifications.getLast?.any fun v => validateVerification v &&
      (v.ownershipVerified || v.absenceVerified ||
        next.state == .vmDeletedRetained && v.vmAbsenceVerified && v.artifactDispositionVerified)

/-- A planned step of the active attempt became observed without a task, and at most gained
volumes. -/
def settlesStep (old : Record) (before after : Step) : Bool :=
  before.attempt == old.activeAttempt && before.state == .planned && after.state == .observed &&
    after.upid == "" && before.volIDs.isPrefixOf after.volIDs &&
    { after with state := before.state, volIDs := before.volIDs } == before

/-- The replacement differs from the record only by settled steps, and there is one. -/
def settlesPlannedSteps (old next : Record) : Bool :=
  old.steps.length == next.steps.length &&
    { old with steps := [], updatedAt := 0 } == { next with steps := [], updatedAt := 0 } &&
    ((old.steps.zip next.steps).all fun p => p.1 == p.2 || settlesStep old p.1 p.2) &&
    (old.steps.zip next.steps).any fun p => p.1 != p.2

/-- Everything a save is refused for before it is written.  `held` is the record of the handle,
`gated` its reconciliation requirement, `attemptTransition` the path of `CompleteAttempt` and
`BeginAttempt`. -/
def admitSave (held : Record) (gated attemptTransition : Bool) (next : Record) :
    Except Err Unit := do
  refuse (gated && next.state != .reconciliationRequired && !reconciles held next &&
      !settlesPlannedSteps held next)
    ErrKind.reconciliationRequired.err
  if attemptTransition then do
    validateAttemptTransition held next
    -- The update is read against the old record as if it already had the new attempts and state.
    validateUpdate { held with attempts := next.attempts, state := next.state } next
  else validateUpdate held next

/-- The evidence identifier has not been used in the record. -/
def checkFresh (r : Record) (v : AttemptVerification) : Except Err Unit :=
  refuse (r.verifications.any fun old => old.evidenceID == v.evidenceID)
    (ErrKind.reconciliationRequired.because "a fresh audit evidence ID is required")

/-- Give the last attempt its completion proof. -/
def closeLast (attempts : List Attempt) (v : AttemptVerification) : List Attempt :=
  match attempts.getLast? with
  | none => []
  | some a => attempts.dropLast ++ [{ a with completion := some v }]

/-- The record `CompleteAttempt` asks to save. -/
def completeAttemptRecord (r : Record) (v : AttemptVerification) : Except Err Record := do
  retryEligible r
  refuse (attemptClosed r) (ErrKind.conflict.because "attempt already closed")
  validateAttemptProof r r.activeAttempt v
  checkFresh r v
  pure { r with attempts := closeLast (attemptsOrInitial r) v,
                verifications := r.verifications ++ [v.toVerification],
                state := .reconciliationRequired,
                reason := "attempt verified absent; a new audited plan is required" }

/-- The record `BeginAttempt` asks to save. -/
def beginAttemptRecord (r : Record) (p : AttemptPlan) (v : AttemptVerification) :
    Except Err Record := do
  retryEligible r
  validateAttemptProof r r.activeAttempt v
  checkFresh r v
  let attempts := attemptsOrInitial r
  let closed := if attemptClosed { r with attempts := attempts } then attempts
    else closeLast attempts v
  pure { r with attempts := closed ++
                  [{ number := closed.length, plan := p, admission := some v }],
                verifications := r.verifications ++ [v.toVerification],
                state := .planned,
                reason := "" }

/-! ## 4. A record on disk

The encoder compacts the raw JSON of plans and parameters.  So the record that is read is `stored`
of the one that was written, and the two differ in texts only. -/

/-- An attempt after its plan went through the encoder. -/
def Attempt.stored (a : Attempt) : Attempt :=
  { a with plan := { a.plan with plan := compactText a.plan.plan } }

/-- A step after its parameters went through the encoder. -/
def Step.stored (s : Step) : Step := { s with parameters := compactText s.parameters }

/-- A record written and read again. -/
def Record.stored (r : Record) : Record :=
  { r with intent := { r.intent with plan := compactText r.intent.plan },
           attempts := r.attempts.map Attempt.stored,
           steps := r.steps.map Step.stored }

/-- The file around the record is not nested too deep.  The encoder goes through the whole
envelope, record included, and has the limit of the reader. -/
def Record.decodable (r : Record) : Bool :=
  nesting r.intent.plan ≤ maxPlanNesting + 2 &&
    r.attempts.all fun a => nesting a.plan.plan ≤ maxPlanNesting

/-- Compacting a plan changes no depth.  So a record that can be written once can be written
again. -/
theorem stored_decodable (r : Record) : r.stored.decodable = r.decodable := by
  simp only [Record.decodable, Record.stored, nesting_compactText, List.all_map,
    Function.comp_def, Attempt.stored]

end Journal
