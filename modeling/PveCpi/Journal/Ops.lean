/-
# The operations of the journal

`journal.go` and the transition methods of `attempts.go`, as programs over the effects of
`World`.  A function that can fail is an `M`; deferred closes are written where they run, so a
lock is released on every path on which the source releases it.  `Local` is the memory of a
process between two calls: the Journal it opened and the handle it holds.  A process of the
source that holds several handles or runs several calls at once is several processes here: they
share nothing but the directory, and a file lock excludes them from each other all the same.

The programs follow the source line by line, with the same order of reads, checks and writes,
because the order is what the protocol rests on: the index is written before the record it names,
the authority is checked after the lock is taken, a lock file outlives the record.

The context of a caller ends where the source waits.  A wait for a lock may end without the lock,
and the loop of `AcquireVM` runs for a number of passes that is a parameter, since it ends only when
somebody else lets go.
-/
import PveCpi.Journal.World
import Mathlib.Data.List.Sort

namespace Journal

open Lib.Interleave (Prog Sys)

/-! ## 1. Programs that can fail -/

abbrev P (α : Type) : Type := Prog Eff Ans α

abbrev M (α : Type) : Type := ExceptT Err (Prog Eff Ans) α

/-- Run a program that does not fail by itself. -/
def act {α : Type} (p : P α) : M α := ExceptT.lift p

/-- Continue with the value of a check, or stop with its error. -/
def check {α : Type} (x : Except Err α) : M α := ExceptT.mk (pure x)

/-! The system calls, with the types of their answers. -/

def lockFile (n : LockName) : P Bool := Prog.perform (Eff.lock n)
def tryLockFile (n : LockName) : P TryLock := Prog.perform (Eff.tryLock n)
def unlockFile (n : LockName) : P Bool := Prog.perform (Eff.unlock n)
def authorityFile : P (Option Authority) := Prog.perform Eff.readAuthority
def indexFile : P (Option Index) := Prog.perform Eff.readIndex
def directory : P (Option (List String)) := Prog.perform Eff.readDir
def recordFile (id : String) : P ReadResult := Prog.perform (Eff.readRecord id)
def lstatRecord (id : String) : P (Option Bool) := Prog.perform (Eff.lstat id)
def replaceIndex (journal : String) (idx : Index) : P Bool :=
  Prog.perform (Eff.writeIndex journal idx)
def replaceRecord (journal : String) (r : Record) : P Bool :=
  Prog.perform (Eff.writeRecord journal r)
def replaceAuthority (journal : String) (a : Authority) : P Bool :=
  Prog.perform (Eff.writeAuthority journal a)
def timeNow (s : Stamp) : P Time := Prog.perform (Eff.now s)
def randomID : P (Option String) := Prog.perform Eff.newID
def planBegin (p : Planning) : P Unit := Prog.perform (Eff.planBegin p)
def planEnd : P Unit := Prog.perform Eff.planEnd
def planRejected : P Unit := Prog.perform Eff.planRejected
def observe (id : String) : P (Option Record) := Prog.perform (Eff.observe id)

/-- A system call failed. -/
def ioErr : Err := ErrKind.io.err

/-- The context of the caller ended. -/
def ctxErr : Err := ⟨[.plain], "context done"⟩

/-- `atomicJSON` failed. -/
def durabilityErr : Err := ErrKind.durability.err

/-- Add the error of a close. -/
def joinClose (e : Err) (closed : Bool) : Err := if closed then e else e.join ioErr

def waitLock (n : LockName) : M Unit := do
  let acquired ← act (lockFile n)
  check (if acquired then .ok () else .error ctxErr)

/-- `defer lock.close()`: the lock is released when `p` ends.  When only the close fails, the
value of `p` is given up by `undo`. -/
def deferUnlock {α : Type} (n : LockName) (undo : α → P Bool) (p : M α) : M α := do
  let r ← act p.run
  let closed ← act (unlockFile n)
  match r with
  | .error e => check (.error (joinClose e closed))
  | .ok a =>
    if closed then pure a
    else do
      let undone ← act (undo a)
      check (.error (joinClose ioErr undone))

/-- Release the lock only when `p` fails: the caller keeps it otherwise. -/
def unlockOnError {α : Type} (n : LockName) (p : M α) : M α := do
  let r ← act p.run
  match r with
  | .ok a => pure a
  | .error e => do
    let closed ← act (unlockFile n)
    check (.error (joinClose e closed))

/-! ## 2. Reading

Each reader is split into the effect and a pure `accept`, which is what the source does with the
bytes.  The pure part is what the later proofs look at. -/

/-- Every provenance identifier is well formed, none twice. -/
def checkProvenance : List String → List String → Except Err Unit
  | _, [] => .ok ()
  | seen, id :: rest => do
    refuse (!allocationIDPattern id || seen.contains id)
      (ErrKind.authority.because "invalid/duplicate provenance ID")
    checkProvenance (id :: seen) rest

def validateEnrollment (e : Enrollment) : Except Err Unit := do
  refuse (!nonblank e.clusterID || !nonblank e.authorityID || !nonblank e.auditID ||
      !e.completeHistoricalAudit || !e.previousWriterFenced)
    (ErrKind.authority.because "complete historical audit and explicit writer fencing required")
  checkProvenance [] e.provenanceIDs

/-- What `readAuthority` makes of the file. -/
def acceptAuthority (ns : String) : Option Authority → Except Err Authority
  | none => .error ioErr
  | some a =>
    if a.version != version || a.namespace != ns || !allocationIDPattern a.epoch ||
        !(validateEnrollment a.enrollment).isOk then
      .error (ErrKind.corrupt.because "invalid authority enrollment")
    else .ok a

def readAuthority (ns : String) : M Authority := do
  let a ← act authorityFile
  check (acceptAuthority ns a)

/-- The authority on disk is the one the Journal was opened with. -/
def sameAuthority (j a : Authority) : Bool :=
  a.epoch == j.epoch && a.enrollment.clusterID == j.enrollment.clusterID &&
    a.enrollment.authorityID == j.enrollment.authorityID

def checkAuthority (j : Authority) : M Unit := do
  let a ← readAuthority j.namespace
  check (refuse (!sameAuthority j a) ErrKind.authority.err)

/-- What `readIndex` makes of the file. -/
def acceptIndex : Option Index → Except Err Index
  | none => .error ioErr
  | some idx =>
    if idx.version != version then
      .error (ErrKind.corrupt.because "invalid generation index")
    else if idx.activeVMs.entries.all fun e => validFingerprint e.1 && allocationIDPattern e.2 then
      .ok idx
    else .error (ErrKind.corrupt.because "invalid generation index entry")

def readIndex : M Index := do
  let idx ← act indexFile
  check (acceptIndex idx)

/-- What `Inspect` makes of the file. -/
def acceptRecord (j : Authority) (id : String) : ReadResult → Except Err Record
  | .failed => .error ioErr
  | .missing => .error ⟨[.io], "file does not exist"⟩
  | .malformed => .error (ErrKind.corrupt.because "malformed envelope")
  | .found r => do
    validateRecord r
    refuse (r.id != id || r.namespace != j.namespace) (ErrKind.corrupt.because "misplaced record")
    pure r

def invalidID : Err := ⟨[.plain], "journal: invalid allocation UUID"⟩

def inspect (j : Authority) (id : String) : M Record := do
  check (refuse (!allocationIDPattern id) invalidID)
  let found ← act (recordFile id)
  check (acceptRecord j id found)

def inspectAll (j : Authority) : List String → M (List Record)
  | [] => pure []
  | id :: ids => do
    let r ← inspect j id
    let rs ← inspectAll j ids
    pure (r :: rs)

/-- Records in the order of their identifiers. -/
def sortByID (records : List Record) : List Record :=
  records.insertionSort fun a b => a.id ≤ b.id

def list (j : Authority) : M (List Record) := do
  let names ← act directory
  let ids ← check (match names with
    | none => .error ioErr
    | some ids => .ok ids)
  let records ← inspectAll j ids
  pure (sortByID records)

/-- The record file must not exist. -/
def requireAbsent (id : String) : M Unit := do
  let found ← act (lstatRecord id)
  check (match found with
    | none => .error ioErr
    | some true => .error ErrKind.conflict.err
    | some false => .ok ())

/-- An index entry names a VM record of the agent it stands under. -/
def indexEntryOk (records : List Record) (e : Sigma fun _ : String => String) : Bool :=
  match records.find? fun r => r.id == e.2 with
  | none => false
  | some r => r.kind == .vm && pathKey r.agentID == e.1

/-- An open VM record stands in the index. -/
def generationIndexed (idx : Index) (r : Record) : Bool :=
  !(r.kind == .vm && !generationClosed r.state) ||
    idx.activeVMs.lookup (pathKey r.agentID) == some r.id

def validateGenerationRecords (idx : Index) (records : List Record) : Except Err Unit := do
  refuse (!idx.activeVMs.entries.all (indexEntryOk records))
    (ErrKind.reconciliationRequired.because "index points to absent or mismatched generation")
  refuse (!records.all (generationIndexed idx))
    (ErrKind.reconciliationRequired.because
      "nonterminal VM generation is missing from active index")

def validateGenerationIndex (j : Authority) (idx : Index) : M Unit := do
  let records ← list j
  check (validateGenerationRecords idx records)

/-- Every provenance identifier has a readable record. -/
def inspectProvenance (j : Authority) : List String → M Unit
  | [] => pure ()
  | id :: ids => do
    let r ← act (inspect j id).run
    match r with
    | .error e => check (.error (ErrKind.reconciliationRequired.around
        ("provenance missing from journal: " ++ id) e))
    | .ok _ => inspectProvenance j ids

def validateProvenance (j : Authority) (ids : List String) : M Unit := do
  inspectProvenance j ids
  let _ ← list j

/-! ## 3. New records

The token and the times of a record are made here, and the record is validated before it is
returned; a new record is therefore valid by construction. -/

/-- Only disks carry a correlation token. -/
def tokenFor (kind : Kind) (id : String) : Except Err String :=
  if kind = .disk then diskCorrelationToken id else pure ""

/-- The record made for an intent at a given time. -/
def recordAt (j : Authority) (id : String) (kind : Kind) (agentID : String) (intent : Intent)
    (now : Time) : Except Err Record := do
  let token ← tokenFor kind id
  let r : Record :=
    { version := version, id := id, «namespace» := j.namespace,
      clusterID := j.enrollment.clusterID, authorityEpoch := j.epoch, kind := kind,
      agentID := agentID, diskToken := token, intent := intent,
      attempts := [{ number := 0, plan := initialPlan intent }], state := .planned,
      createdAt := now, updatedAt := now }
  validateRecord r
  pure r

def newRecord (j : Authority) (id : String) (kind : Kind) (agentID : String) (intent : Intent) :
    M Record := do
  check (validateIntent intent)
  let now ← act (timeNow (.create intent))
  check (recordAt j id kind agentID intent now)

/-- `NewAllocationID`. -/
def newAllocationID : M String := do
  let id ← act randomID
  check (match id with
    | none => .error ioErr
    | some id => .ok id)

/-- `atomicJSON`, through the Journal `j`. -/
def writeIndex (j : Authority) (idx : Index) : M Unit := do
  let landed ← act (replaceIndex j.epoch idx)
  check (if landed then .ok () else .error durabilityErr)

def writeRecord (j : Authority) (r : Record) : M Unit := do
  let landed ← act (replaceRecord j.epoch r)
  check (if landed then .ok () else .error durabilityErr)

def writeAuthority (j a : Authority) : M Unit := do
  let landed ← act (replaceAuthority j.epoch a)
  check (if landed then .ok () else .error durabilityErr)

/-! ## 4. Handles

A handle is memory of a process.  It is poisoned by a write that failed, since then nobody knows
what is on disk, and every later call on it is refused. -/

/-- A handle: the record it holds and what it may still do. -/
structure Handle where
  record : Record
  resumed : Bool := false
  closed : Bool := false
  poisoned : Bool := false
  requiresReconciliation : Bool := false
  deriving DecidableEq, Repr

def Handle.lockName (h : Handle) : LockName := .record h.record.id

/-- The handle of an existing record. -/
def Handle.resume (r : Record) : Handle :=
  { record := r, resumed := true, requiresReconciliation := true }

/-- The end of `Handle.saveLocked`: the record is stamped and replaced. -/
def persist (j : Authority) (h : Handle) (next : Record) : P (Except Err Unit × Handle) := do
  let now ← timeNow (.save next)
  let landed ← (writeRecord j { next with updatedAt := now }).run
  match landed with
  | .error e => pure (.error e, { h with poisoned := true })
  | .ok () => pure (.ok (),
      { h with record := { next with updatedAt := now },
               requiresReconciliation :=
                 h.requiresReconciliation && !reconciles h.record next })

/-- `Handle.saveLocked`. -/
def saveLocked (j : Authority) (h : Handle) (next : Record) (attemptTransition : Bool) :
    P (Except Err Unit × Handle) :=
  if h.closed then pure (.error ErrKind.closed.err, h)
  else if h.poisoned then pure (.error ErrKind.reconciliationRequired.err, h)
  else do
    let authorized ← (checkAuthority j).run
    match authorized with
    | .error e => pure (.error e, h)
    | .ok () =>
      match admitSave h.record h.requiresReconciliation attemptTransition next with
      | .error e => pure (.error e, h)
      | .ok () =>
        if terminal h.record.state then pure (.ok (), h) else persist j h next

/-- The three calls that write through a handle. -/
inductive HandleCall where
  | save (next : Record)
  | completeAttempt (v : AttemptVerification)
  | beginAttempt (p : AttemptPlan) (v : AttemptVerification)

def HandleCall.run (j : Authority) (h : Handle) : HandleCall → P (Except Err Unit × Handle)
  | .save next => saveLocked j h next false
  | .completeAttempt v =>
    match completeAttemptRecord h.record v with
    | .error e => pure (.error e, h)
    | .ok next => saveLocked j h next true
  | .beginAttempt p v =>
    match beginAttemptRecord h.record p v with
    | .error e => pure (.error e, h)
    | .ok next => saveLocked j h next true

/-- `Handle.Close`. -/
def Handle.close (h : Handle) : P Bool :=
  if h.closed then pure true else unlockFile h.lockName

/-! ## 5. Acquisition -/

/-- A planning callback.  It may list and inspect; it takes no lock and writes no file. -/
structure VMPlanFunc where
  run : String → List Record → P (Except Err Intent)
  readOnly : ∀ id siblings, (run id siblings).Only Eff.isRead

/-- Plan while the index lock is held.  A refused plan is marked in the call's history. -/
def runPlan (j : Authority) (id agentID : String) (intent : Intent) (plan : Option VMPlanFunc) :
    M Intent :=
  match plan with
  | none => pure intent
  | some f => do
    let siblings ← list j
    act (planBegin ⟨agentID, siblings⟩)
    let planned ← act (f.run id siblings)
    act planEnd
    match planned with
    | .ok intent => pure intent
    | .error e => do
      act planRejected
      check (.error e)

/-- The record of a new generation; a rejected intent is marked in the call's history. -/
def generationRecord (j : Authority) (id agentID : String) (intent : Intent) : M Record := do
  let r ← act (newRecord j id .vm agentID intent).run
  match r with
  | .ok r => pure r
  | .error e => do
    act planRejected
    check (.error e)

/-- The index with a new generation of the agent. -/
def Index.set (idx : Index) (key id : String) : Index :=
  { idx with activeVMs := idx.activeVMs.insert key id }

/-- Take the lock of a record that nobody else may hold. -/
def claimLock (id : String) (busy : Err) : M Unit := do
  let l ← act (tryLockFile (.record id))
  check (match l with
    | .acquired => .ok ()
    | .busy => .error busy
    | .failed => .error ioErr)

/-- The part of `acquireVMUnderIndex` that starts a new generation. -/
def createGeneration (j : Authority) (agentID : String) (intent : Intent)
    (plan : Option VMPlanFunc) (idx : Index) : M Handle := do
  let id ← newAllocationID
  requireAbsent id
  let intent ← runPlan j id agentID intent plan
  let r ← generationRecord j id agentID intent
  claimLock id (ErrKind.conflict.because "UUID collision")
  unlockOnError (.record id) do
    -- Index first: a crash before record creation leaves a blocked generation.
    writeIndex j (idx.set (pathKey agentID) id)
    writeRecord j r
    pure { record := r }

/-- The part that looks at the indexed generation, whose lock is held: a handle on an open one,
nothing when it is closed. -/
def resumeGeneration (j : Authority) (agentID id : String) (intent : Intent) :
    M (Option Handle) := do
  let r ← act (inspect j id).run
  match r with
  | .error e => check (.error
      (ErrKind.reconciliationRequired.around "indexed generation unavailable" e))
  | .ok r => do
    check (refuse (r.kind != .vm || r.agentID != agentID)
      (ErrKind.corrupt.because "incorrect agent generation"))
    if generationClosed r.state then pure none
    else do
      check (refuse (r.intent.intentFingerprint != intent.intentFingerprint) ErrKind.conflict.err)
      pure (some (Handle.resume r))

/-- What `acquireVMUnderIndex` returns. -/
structure UnderIndex where
  handle : Option Handle := none
  busy : Bool := false
  err : Option Err := none

/-- A result, with the error of a close added. -/
def UnderIndex.of (r : Except Err Handle) (closed : Bool) : UnderIndex :=
  match r with
  | .ok h => { handle := some h, err := if closed then none else some ioErr }
  | .error e => { err := some (joinClose e closed) }

/-- The index, after everything that has to agree with it was checked. -/
def readGenerations (j : Authority) : M Index := do
  checkAuthority j
  let idx ← readIndex
  validateGenerationIndex j idx
  pure idx

def acquireVMUnderIndex (j : Authority) (agentID : String) (intent : Intent)
    (plan : Option VMPlanFunc) : P UnderIndex := do
  let idx ← (readGenerations j).run
  match idx with
  | .error e => pure { err := some e }
  | .ok idx =>
    let id := (idx.activeVMs.lookup (pathKey agentID)).getD ""
    if id = "" then do
      let created ← (createGeneration j agentID intent plan idx).run
      pure (.of created true)
    else do
      let l ← tryLockFile (.record id)
      match l with
      | .failed => pure { busy := true, err := some ioErr }
      | .busy => pure { busy := true }
      | .acquired => do
        let resumed ← (resumeGeneration j agentID id intent).run
        match resumed with
        | .ok (some h) => pure { handle := some h }
        | .error e => do
          let closed ← unlockFile (.record id)
          pure (.of (.error e) closed)
        | .ok none => do
          let created ← (createGeneration j agentID intent plan idx).run
          let closed ← unlockFile (.record id)
          pure (.of created closed)

/-- Give up a handle that was acquired although the call failed. -/
def releaseHandle : Option Handle → P Bool
  | none => pure true
  | some h => h.close

/-- One pass of the retry loop: a handle, or nothing when another process holds the generation. -/
def acquirePass (j : Authority) (agentID : String) (intent : Intent) (plan : Option VMPlanFunc) :
    M (Option Handle) := do
  waitLock .index
  let r ← act (acquireVMUnderIndex j agentID intent plan)
  let closed ← act (unlockFile .index)
  match (if closed then r.err else some (r.err.elim ioErr fun e => e.join ioErr)) with
  | some e => do
    let released ← act (releaseHandle r.handle)
    check (.error (joinClose e released))
  | none => pure (if r.busy then none else r.handle)

/-- The retry loop; `passes` is how often it pauses for a busy generation before the context of
the caller ends. -/
def acquireVM (j : Authority) (agentID : String) (intent : Intent) (plan : Option VMPlanFunc) :
    Nat → M Handle
  | 0 => do
    let h ← acquirePass j agentID intent plan
    match h with
    | some h => pure h
    | none => check (.error ctxErr)
  | passes + 1 => do
    let h ← acquirePass j agentID intent plan
    match h with
    | some h => pure h
    | none => acquireVM j agentID intent plan passes

/-- `AcquireVM` and `AcquireVMPlanned` check their arguments before they take the index lock. -/
def acquireVMChecked (j : Authority) (agentID : String) (intent : Intent)
    (plan : Option VMPlanFunc) (passes : Nat) : M Handle := do
  check (refuse (plan.isNone && !validFingerprint intent.intentFingerprint)
    ⟨[.plain], "journal: invalid caller intent fingerprint"⟩)
  check (refuse (!nonblank agentID) ⟨[.plain], "journal: agent ID is required"⟩)
  acquireVM j agentID intent plan passes

def validateTokenUnique (token : String) (records : List Record) : Except Err Unit :=
  refuse (records.any fun r => r.diskToken == token)
    (ErrKind.conflict.because "shortened disk token collision")

def createDisk (j : Authority) (id : String) (intent : Intent) : M Handle := do
  check (refuse (!allocationIDPattern id) invalidID)
  waitLock .index
  deferUnlock .index Handle.close do
    let _ ← readGenerations j
    requireAbsent id
    claimLock id ErrKind.conflict.err
    unlockOnError (.record id) do
      let r ← newRecord j id .disk "" intent
      let records ← list j
      check (validateTokenUnique r.diskToken records)
      writeRecord j r
      pure { record := r }

def acquire (j : Authority) (id : String) : M Handle := do
  check (refuse (!allocationIDPattern id) invalidID)
  waitLock (.record id)
  unlockOnError (.record id) do
    checkAuthority j
    let r ← inspect j id
    pure (Handle.resume r)

/-! ## 6. Recovery -/

/-- Nothing to give up when only a close fails. -/
def noUndo (_ : Unit) : P Bool := pure true

/-- The tombstone of a generation whose record was never written. -/
def tombstone (r : Record) (v : Verification) : Record :=
  { r with state := .cleaned,
           reason := "indexed record absent; complete historical audit verified cleanup",
           verifications := [v] }

def resolveMissingVMGeneration (j : Authority) (agentID id : String) (intent : Intent)
    (v : Verification) : M Unit := do
  check (refuse (!nonblank agentID || !allocationIDPattern id || !validateVerification v ||
      !v.absenceVerified || !v.artifactDispositionVerified)
    (ErrKind.reconciliationRequired.because "complete verified absence required"))
  waitLock .index
  deferUnlock .index noUndo do
    checkAuthority j
    let idx ← readIndex
    check (refuse (idx.activeVMs.lookup (pathKey agentID) != some id) ErrKind.conflict.err)
    claimLock id ErrKind.conflict.err
    deferUnlock (.record id) noUndo do
      requireAbsent id
      let r ← newRecord j id .vm agentID intent
      check (validateRecord (tombstone r v))
      writeRecord j (tombstone r v)

/-- Take the lock of every record, run `p`, and release them in reverse order. -/
def withRecordLocks : List Record → M Unit → M Unit
  | [], p => p
  | r :: rs, p => do
    claimLock r.id (ErrKind.authority.because "allocation writer still active")
    deferUnlock (.record r.id) noUndo (withRecordLocks rs p)

/-- The authority of a new epoch. -/
def writeNewEpoch (j : Authority) (e : Enrollment) : M Unit := do
  let epoch ← newAllocationID
  writeAuthority j
    { version := version, «namespace» := j.namespace, epoch := epoch, enrollment := e }

/-- No allocation that is still alive may change its cluster. -/
def checkRebinding (j : Authority) (e : Enrollment) (records : List Record) : Except Err Unit :=
  refuse (e.clusterID != j.enrollment.clusterID && !records.all fun r => terminal r.state)
    (ErrKind.authority.because "live or unresolved allocations prevent cluster rebinding")

def recoverAuthority (j : Authority) (e : Enrollment) : M Unit := do
  check (validateEnrollment e)
  waitLock .index
  deferUnlock .index noUndo do
    checkAuthority j
    let records ← list j
    withRecordLocks records do
      -- Reread after locking: a lifecycle writer may have completed since the first list.
      let records ← list j
      validateProvenance j e.provenanceIDs
      let idx ← readIndex
      validateGenerationIndex j idx
      check (checkRebinding j e records)
      writeNewEpoch j e

/-- Every identifier of an index that could be read has a readable record. -/
def requireIndexed (j : Authority) : List String → M Unit
  | [] => pure ()
  | id :: ids => do
    let r ← act (inspect j id).run
    match r with
    | .error _ => check (.error
        (ErrKind.reconciliationRequired.because "indexed record still missing"))
    | .ok _ => requireIndexed j ids

/-- A parseable index retains evidence of a missing generation. -/
def requireOldIndexed (j : Authority) : M Unit := do
  let old ← act readIndex.run
  match old with
  | .error _ => pure ()
  | .ok old => requireIndexed j (old.activeVMs.entries.map fun e => e.2)

/-- The records chosen for the rebuilt index, and the index itself. -/
structure Choosing where
  chosen : AList fun _ : String => Record
  activeVMs : AList fun _ : String => String

def Choosing.add (c : Choosing) (r : Record) : Choosing :=
  { chosen := c.chosen.insert (pathKey r.agentID) r,
    activeVMs := c.activeVMs.insert (pathKey r.agentID) r.id }

/-- One record on its way into the rebuilt index: an open generation, or the latest closed one. -/
def chooseGeneration (c : Choosing) (r : Record) : Except Err Choosing :=
  if r.kind != .vm then .ok c
  else match c.chosen.lookup (pathKey r.agentID) with
    | none => .ok (c.add r)
    | some previous =>
      if !generationClosed previous.state && !generationClosed r.state then
        .error (ErrKind.reconciliationRequired.because "duplicate live generations require audit")
      else if generationClosed previous.state &&
          (!generationClosed r.state || previous.createdAt < r.createdAt) then
        .ok (c.add r)
      else .ok c

def chooseGenerations : Choosing → List Record → Except Err Choosing
  | c, [] => .ok c
  | c, r :: rs => do
    let c ← chooseGeneration c r
    chooseGenerations c rs

def rebuildIndex (records : List Record) : Except Err Index := do
  let c ← chooseGenerations ⟨∅, ∅⟩ records
  pure { version := version, activeVMs := c.activeVMs }

def recoverIndex (j : Authority) (e : Enrollment) : M Unit := do
  check (validateEnrollment e)
  check (refuse (e.clusterID != j.enrollment.clusterID) ErrKind.authority.err)
  waitLock .index
  deferUnlock .index noUndo do
    checkAuthority j
    let records ← list j
    withRecordLocks records do
      let records ← list j
      validateProvenance j e.provenanceIDs
      requireOldIndexed j
      let idx ← check (rebuildIndex records)
      writeIndex j idx
      writeNewEpoch j e

/-! ## 7. The system -/

/-- One call on the current handle: the record on disk before and after, and its outcome. -/
structure CallEntry where
  before : Option Record
  after : Option Record
  ok : Bool

/-- The memory of a process between two calls. -/
structure Local where
  journal : Option Authority := none
  handle : Option Handle := none
  log : List CallEntry := []

/-- The calls a process can make. -/
inductive Op where
  | «open» («namespace» clusterID : String)
  | acquireVM (agentID : String) (intent : Intent) (passes : Nat)
  | acquireVMPlanned (agentID : String) (plan : VMPlanFunc) (passes : Nat)
  | createDisk (id : String) (intent : Intent)
  | acquire (id : String)
  | call (c : HandleCall)
  | close
  | resolveMissingVMGeneration (agentID id : String) (intent : Intent) (v : Verification)
  | recoverAuthority (e : Enrollment)
  | recoverIndex (e : Enrollment)

/-- `Open`: the Journal carries the authority it read. -/
def openJournal (ns clusterID : String) : M Authority := do
  let a ← readAuthority ns
  check (refuse (a.enrollment.clusterID != clusterID) ErrKind.authority.err)
  pure a

/-- Keep a new handle, with an empty history. -/
def keepHandle (l : Local) (p : M Handle) : P Local := do
  let r ← p.run
  match r with
  | .ok h => pure { l with handle := some h, log := [] }
  | .error _ => pure l

/-- Keep nothing of a call. -/
def keepNothing (l : Local) (p : M Unit) : P Local := do
  let _ ← p.run
  pure l

/-- A call on the handle, recorded with what is on disk before and after. -/
def recordedCall (l : Local) (j : Authority) (h : Handle) (c : HandleCall) : P Local := do
  let before ← observe h.record.id
  let r ← c.run j h
  let after ← observe h.record.id
  pure { l with handle := some r.2, log := l.log ++ [⟨before, after, r.1.isOk⟩] }

/-- The handle is gone or closed, so the process may acquire again. -/
def Local.idle (l : Local) : Bool := l.handle.all fun h => h.closed

/-- The program of each call; `none` when the process has no Journal or no handle for it. -/
def Op.prog (l : Local) : Op → Option (P Local)
  | .open ns clusterID =>
    if l.idle then some do
      let r ← (openJournal ns clusterID).run
      match r with
      | .ok a => pure { journal := some a }
      | .error _ => pure l
    else none
  | .acquireVM agentID intent passes =>
    if l.idle then l.journal.map fun j =>
      keepHandle l (acquireVMChecked j agentID intent none passes)
    else none
  | .acquireVMPlanned agentID plan passes =>
    if l.idle then l.journal.map fun j =>
      keepHandle l (acquireVMChecked j agentID {} (some plan) passes)
    else none
  | .createDisk id intent =>
    if l.idle then l.journal.map fun j => keepHandle l (Journal.createDisk j id intent) else none
  | .acquire id =>
    if l.idle then l.journal.map fun j => keepHandle l (Journal.acquire j id) else none
  | .call c => l.journal.bind fun j => l.handle.map fun h => recordedCall l j h c
  | .close => l.handle.map fun h => do
      let _ ← h.close
      pure { l with handle := some { h with closed := true } }
  | .resolveMissingVMGeneration agentID id intent v =>
    if l.idle then l.journal.map fun j =>
      keepNothing l (Journal.resolveMissingVMGeneration j agentID id intent v)
    else none
  | .recoverAuthority e =>
    if l.idle then l.journal.map fun j => keepNothing l (Journal.recoverAuthority j e) else none
  | .recoverIndex e =>
    if l.idle then l.journal.map fun j => keepNothing l (Journal.recoverIndex j e) else none

/-- The journal of one namespace, shared by any number of processes. -/
abbrev journalSys : Sys where
  σ := World
  E := Eff
  Ans := Ans
  Ch := Choice
  L := Local
  Op := Op
  exec := exec
  prog o l := o.prog l
  enter i _ w := w.setCall i {}
  halt := halt
  boot := {}

/-- A namespace just enrolled: no record, an empty index, nobody inside. -/
def enrolled (a : Authority) : World where
  authority := a
  index := { version := version, activeVMs := ∅ }
  records := ∅
  locks := fun _ => none
  issued := [a.epoch]
  clock := []
  stamps := []
  log := []
  planning := fun _ => none
  call := fun _ => {}

end Journal
