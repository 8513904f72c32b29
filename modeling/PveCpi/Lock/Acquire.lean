/-
# The cluster lock

`AcquireClusterLock` and `Release` of `pve/cluster_lock.go`, as programs of any number of acquirers
that share one sentinel and one clock.  PVE creates the sentinel only when it is not there, and it
deletes whatever is there: there is no conditional delete, and this pool service checks nothing
before a delete.

A call is sent, it takes effect at a moment of its own, at most `clusterLockRoundTrip` after it was
sent or not at all, and its answer may be lost.  A caller that has given up on an answer goes on
while the call is still under way, and its effect may come later.

The loops run as long as their deadline says, so here they are cut after any number of rounds.  What
the state remembers for the theorems: who created the sentinel and when, who has been handed the
lock and has not called `Release` (`holders`), and whether a delete has gone astray (`strayed`).

The protocol makes up for the missing conditional delete by time.  A stealer waits for a grace after
the expiry, a creator confirms its claim by a second read after a grace, and every call has a bound
on how late it can take effect.  Each of these durations is a constant of the source and is used as
such; `Settings` collects what the caller chooses.

The history fields are not read by any program.  `strayed` is set by a delete that is sent while the
claim of another acquirer is on the sentinel; the theorem is about runs in which it stays unset.
-/
import PveCpi.Lock.Claim
import PveCpi.Lib.Interleave

namespace Lock

open Lib.Interleave (Prog Sys)

/-! ## 1. Settings -/

def clusterLockPollInterval : Int := 500000000
def clusterLockStealBudget : Int := 2000000000
def clusterLockRoundTrip : Int := 500000000
def clusterLockDefaultGrace : Int := clusterLockStealBudget + clusterLockRoundTrip
def clusterLockReleaseTimeout : Int := 10000000000
def clusterLockReadTimeout : Int := 10000000000
def clusterLockCompletionAllowance : Int := 5000000000
def clusterLockContextMargin : Int := clusterLockReleaseTimeout + clusterLockCompletionAllowance

/-- `clusterLockSettings`. -/
structure Settings where
  grace : Bool
  noWait : Bool
  claimReserve : Int

namespace Settings

variable (s : Settings)

/-- `graceDuration`, with the default grace. -/
def graceDuration : Int := if s.grace then clusterLockDefaultGrace else 0

def releaseMargin : Int := clusterLockStealBudget + s.graceDuration + clusterLockRoundTrip

def claimNeed : Int := max s.releaseMargin s.claimReserve

def claimAttemptDuration : Int :=
  clusterLockRoundTrip * (1 + if s.grace then 2 else 1) + s.graceDuration

end Settings

/-- What an acquire is called with, the deadline of its context included. -/
structure Acquire where
  ttl : Int
  timeout : Int
  requestDeadline : Option Int
  settings : Settings
  ttl_lt : ttl < 2 ^ 63

/-- `ClusterLockHandle`. -/
structure Handle where
  owner : Text
  claim : Text
  settings : Settings
  released : Bool
  expiry : Int

/-- `clusterLockDeadline`. -/
def clusterLockDeadline (requestDeadline : Option Int) (now timeout : Int) : Int × Bool :=
  match requestDeadline with
  | none => (now + timeout, false)
  | some d =>
    if d - clusterLockContextMargin < now + timeout then (d - clusterLockContextMargin, true)
    else (now + timeout, false)

/-- `lockReadDeadline`. -/
def lockReadDeadline (requestDeadline : Option Int) (now deadline : Int) : Int :=
  let bound := max deadline (now + clusterLockReadTimeout)
  match requestDeadline with
  | none => bound
  | some d => min bound (d - clusterLockContextMargin)

/-! ## 2. Effects

One call of the pool service is two effects, sending it and waiting for the answer, so that others
can act in between. -/

/-- Why a sentinel is deleted: the claim is the caller's own, or it is an expired one and the steal
started at this moment. -/
inductive Purpose
  | own
  | steal (started : Int)
deriving DecidableEq

/-- A call of the pool service.  A read has the time it may take, a delete the claim it expects. -/
inductive Request
  | create (comment : Text)
  | read (bound : Option Int)
  | delete (expected : Text) (purpose : Purpose)
deriving DecidableEq

/-- What a call answers.  A create finds the sentinel there (`duplicate`), never leaves the client
(`notAttempted`) or is refused by PVE with a 4xx (`refused`); `failed` says nothing about what was
done. -/
inductive Reply
  | created
  | duplicate
  | notAttempted
  | refused
  | comment (c : Option Text)
  | deleted
  | notFound
  | claimChanged
  | failed
deriving DecidableEq

/-- The points where others can act.  The last three are steps of the clock and of PVE. -/
inductive Effect
  | enroll
  | now
  | jitter
  | send (r : Request)
  | await (id : Nat)
  | nap (d : Int)
  | woke
  | hand (expiry : Int)
  | tick (d : Nat)
  | land (id : Nat)
  | refuse (id : Nat)

/-- The answer to an effect: the owner token, a moment, a jitter, the number of the call, what it
answered, and whether a sleep was over or interrupted. -/
abbrev Answer : Effect → Type
  | .enroll => Text
  | .now => Int
  | .jitter => Int
  | .send _ => Nat
  | .await _ => Reply
  | .nap _ => Unit
  | .woke => Bool
  | .hand _ => Unit
  | .tick _ => Unit
  | .land _ => Unit
  | .refuse _ => Unit

abbrev Call := Prog Effect Answer

/-- Perform one effect. -/
def perform (e : Effect) : Call (Answer e) := Prog.perform e

/-- A call of the pool service. -/
def request (r : Request) : Call Reply := do
  let id ← perform (.send r)
  perform (.await id)

/-- `GetPoolComment`: the comment, if there is a sentinel; `none` when the read failed. -/
def getPoolComment (bound : Option Int) : Call (Option (Option Text)) := do
  match ← request (.read bound) with
  | .comment c => return some c
  | _ => return none

/-- `clk.sleep`; whether it was over. -/
def sleep (d : Int) : Call Bool := do
  perform (.nap d)
  perform .woke

/-- `clusterLockPollWait`. -/
def clusterLockPollWait (now deadline : Int) : Call Int := do
  let jitter ← perform .jitter
  return min (clusterLockPollInterval + jitter) (deadline - now)

/-! ## 3. The acquire

Create, confirm, steal, in the order of the source. -/

/-- Where a create failed. -/
inductive CreateStep
  | createSentinelPool
  | stealRecreateLock
deriving DecidableEq

/-- Which step that would judge the holder failed. -/
inductive HolderStep
  | readHolder
  | rereadHolder
  | stealDelete
deriving DecidableEq

/-- What the acquire waited for when its time was over. -/
inductive TimeoutCause
  | noTimeToWait
  | duplicate
  | displaced
deriving DecidableEq

/-- The errors of an acquire.  `cut` is not one of the code: the rounds are over. -/
inductive AcquireError
  | ownerEmpty
  | ttlNotPositive (ttl : Int)
  | timeoutNotPositive (timeout : Int)
  | timedOut (clamped : Bool) (cause : TimeoutCause)
  | held
  | interruptedWaiting
  | interruptedConfirming
  | createNotAttempted (step : CreateStep)
  | createRefused (step : CreateStep)
  | createUnknown (step : CreateStep)
  | stateUnknown
  | holderUnknown (step : HolderStep)
  | claimTooShort (remaining need : Int)
  | cut
deriving DecidableEq

/-- How a confirm fails: with an error, or with a `shortClaimRefusal`. -/
inductive Stop
  | error (err : AcquireError)
  | short (err : AcquireError) (released : Bool)
deriving DecidableEq

section Acquire

variable (owner : Text) (a : Acquire)

/-- `readLockClaim`. -/
def readLockClaim (deadline : Int) : Call (Option (Option Text)) := do
  let now ← perform .now
  getPoolComment (some (lockReadDeadline a.requestDeadline now deadline - now))

/-- `sentinelClaim`: the comment and whether it is ours. -/
def sentinelClaim (deadline : Int) : Call (Option (Text × Bool)) := do
  match ← readLockClaim a deadline with
  | none => return none
  | some none => return some ([], false)
  | some (some comment) => return some (comment, carriesClaim comment owner)

/-- `abandonLockCreate`: whether our claim is gone. -/
def abandonLockCreate : Call Bool := do
  match ← getPoolComment (some clusterLockReleaseTimeout) with
  | none | some none => return false
  | some (some comment) =>
    match decodeLockOwner comment, decodeLockExpiry comment with
    | some holder, some exp =>
      if holder ≠ owner then return false
      else
        let now ← perform .now
        if now + a.settings.releaseMargin < exp then
          match ← request (.delete comment .own) with
          | .deleted | .notFound => return true
          | _ => return false
        else return false
    | _, _ => return false

/-- `giveUpLockCreate`. -/
def giveUpLockCreate (cause : AcquireError) : Call AcquireError := do
  let _ ← abandonLockCreate owner a
  return cause

/-- `createFailed`. -/
def createFailed (step : CreateStep) : Reply → Call AcquireError
  | .notAttempted => return .createNotAttempted step
  | .refused => return .createRefused step
  | _ => giveUpLockCreate owner a (.createUnknown step)

/-- The reads of one pass of `confirmLockCreate`: those that fail are made again until the
deadline. -/
def confirmRead (deadline : Int) : Nat → Call (Except AcquireError (Text × Bool))
  | 0 => return .error .cut
  | rounds + 1 => do
    match ← sentinelClaim owner a deadline with
    | some claim => return .ok claim
    | none =>
      let now ← perform .now
      if now < deadline then
        let wait ← clusterLockPollWait now deadline
        if ← sleep wait then confirmRead deadline rounds
        else return .error (← giveUpLockCreate owner a .stateUnknown)
      else return .error (← giveUpLockCreate owner a .stateUnknown)

/-- The end of `confirmLockCreate`: the claim was ours on every read. -/
def handOut (expiry : Int) (claim : Text) : Call (Except Stop (Option Handle)) := do
  let need := a.settings.claimNeed
  let now ← perform .now
  if now + need < expiry then
    return .ok (some ⟨owner, claim, a.settings, false, expiry⟩)
  else
    let now ← perform .now
    let released ← abandonLockCreate owner a
    return .error (.short (.claimTooShort (expiry - now) need) released)

/-- `confirmLockCreate`: one pass, and a second one after the grace. -/
def confirmLockCreate (expiry deadline : Int) (rounds : Nat) :
    Call (Except Stop (Option Handle)) := do
  match ← confirmRead owner a deadline rounds with
  | .error err => return .error (.error err)
  | .ok (_, false) => return .ok none
  | .ok (claim, true) =>
    if a.settings.grace then
      if ← sleep a.settings.graceDuration then
        match ← confirmRead owner a deadline rounds with
        | .error err => return .error (.error err)
        | .ok (_, false) => return .ok none
        | .ok (claim, true) => handOut owner a expiry claim
      else return .error (.error (← giveUpLockCreate owner a .interruptedConfirming))
    else handOut owner a expiry claim

/-- `retakeShortClaim`: the error, or `none` to take the claim again. -/
def retakeShortClaim (deadline : Int) : Stop → Call (Option AcquireError)
  | .error err => return some err
  | .short err false => return some err
  | .short err true => do
    let now ← perform .now
    let need := a.settings.claimNeed
    let confirmed := now + a.settings.claimAttemptDuration
    let usableUntil :=
      match a.requestDeadline with
      | some d => d - clusterLockContextMargin
      | none => deadline
    if confirmed ≤ deadline ∧ confirmed + need < claimExpiry now a.ttl ∧
        confirmed + need ≤ usableUntil then
      return none
    else return some err

/-- The delete and the new create of a steal that started at `started`. -/
def stealExpired (deadline : Int) (rounds : Nat) (comment : Text) (started : Int) :
    Call (Except Stop (Option Handle)) := do
  let now ← perform .now
  if clusterLockStealBudget < now - started then return .ok none
  else
    match ← request (.delete comment (.steal started)) with
    | .deleted | .notFound =>
      let now ← perform .now
      if clusterLockStealBudget < now - started then return .ok none
      else
        let now ← perform .now
        let expiry := claimExpiry now a.ttl
        match ← request (.create (encodeLockComment owner expiry)) with
        | .created => confirmLockCreate owner a expiry deadline rounds
        | .duplicate => return .ok none
        | reply => return .error (.error (← createFailed owner a .stealRecreateLock reply))
    | .claimChanged => return .ok none
    | _ => return .error (.error (.holderUnknown .stealDelete))

/-- `tryStealExpired`. -/
def tryStealExpired (deadline : Int) (rounds : Nat) : Call (Except Stop (Option Handle)) := do
  match ← readLockClaim a deadline with
  | none => return .error (.error (.holderUnknown .readHolder))
  | some none => return .ok none
  | some (some comment) =>
    let now ← perform .now
    match (decodeLockExpiry comment).filter fun exp => decide (now < exp) with
    | some exp =>
      -- A live claim: our own is confirmed, and any other is waited on.
      if decodeLockOwner comment = some owner then
        let now ← perform .now
        if now + a.settings.releaseMargin < exp then
          confirmLockCreate owner a exp deadline rounds
        else return .ok none
      else return .ok none
    | none =>
      let started ← perform .now
      match ← readLockClaim a deadline with
      | none => return .error (.error (.holderUnknown .rereadHolder))
      | some none => return .ok none
      | some (some current) =>
        if current = comment then stealExpired owner a deadline rounds comment started
        else return .ok none

/-- What the loop does with the end of a confirm: it returns, it starts again, or it goes on. -/
inductive Next
  | done (result : Except AcquireError Handle)
  | again
  | goOn

/-- The error of a confirm goes through `retakeShortClaim`. -/
def afterConfirm (deadline : Int) : Except Stop (Option Handle) → Call Next
  | .ok (some handle) => return .done (.ok handle)
  | .ok none => return .goOn
  | .error stop => do
    match ← retakeShortClaim a deadline stop with
    | none => return .again
    | some err => return .done (.error err)

/-- The sentinel is there: steal it or wait, and then go on with `again`. -/
def stealOrWait (deadline : Int) (clamped : Bool) (rounds : Nat) (cause : TimeoutCause)
    (again : Call (Except AcquireError Handle)) : Call (Except AcquireError Handle) := do
  match ← afterConfirm a deadline (← tryStealExpired owner a deadline rounds) with
  | .done result => return result
  | .again => again
  | .goOn =>
    if a.settings.noWait then return .error .held
    else
      let now ← perform .now
      if now < deadline then
        let wait ← clusterLockPollWait now deadline
        if ← sleep wait then again else return .error .interruptedWaiting
      else return .error (.timedOut clamped cause)

/-- The loop of `acquireClusterLockWithClock`. -/
def acquireLoop (deadline : Int) (clamped : Bool) : Nat → Call (Except AcquireError Handle)
  | 0 => return .error .cut
  | rounds + 1 => do
    let now ← perform .now
    let expiry := claimExpiry now a.ttl
    match ← request (.create (encodeLockComment owner expiry)) with
    | .created =>
      match ← afterConfirm a deadline (← confirmLockCreate owner a expiry deadline rounds) with
      | .done result => return result
      | .again => acquireLoop deadline clamped rounds
      | .goOn =>
        stealOrWait owner a deadline clamped rounds .displaced (acquireLoop deadline clamped rounds)
    | .duplicate =>
      stealOrWait owner a deadline clamped rounds .duplicate (acquireLoop deadline clamped rounds)
    | reply => return .error (← createFailed owner a .createSentinelPool reply)

/-- `acquireClusterLockWithClock`. -/
def acquireClusterLock (rounds : Nat) : Call (Except AcquireError Handle) := do
  if owner.isEmpty then return .error .ownerEmpty
  else if a.ttl ≤ 0 then return .error (.ttlNotPositive a.ttl)
  else if a.timeout ≤ 0 then return .error (.timeoutNotPositive a.timeout)
  else
    let now ← perform .now
    let (deadline, clamped) := clusterLockDeadline a.requestDeadline now a.timeout
    let now ← perform .now
    if now < deadline then acquireLoop owner a deadline clamped rounds
    else return .error (.timedOut clamped .noTimeToWait)

end Acquire

/-! ## 4. The release -/

/-- `IsZero` of a moment: the first of January of the year one. -/
def zeroTime : Int := -62135596800 * second

/-- The delete of `Release`; a failure leaves the handle as it is. -/
def releaseDelete (h : Handle) : Call (Except Unit Handle) := do
  match ← request (.delete h.claim .own) with
  | .deleted | .notFound | .claimChanged => return .ok { h with released := true }
  | _ => return .error ()

/-- `Release`. -/
def release (h : Handle) : Call (Except Unit Handle) := do
  if h.released then return .ok h
  else
    let margin := h.settings.releaseMargin
    match ← getPoolComment none with
    | some none => return .ok { h with released := true }
    | some (some comment) =>
      match decodeLockOwner comment, decodeLockExpiry comment with
      | some owner, some exp =>
        if owner ≠ h.owner then return .ok { h with released := true }
        else
          let now ← perform .now
          if now + margin < exp then releaseDelete h else return .ok { h with released := true }
      | _, _ => return .ok { h with released := true }
    | none =>
      if h.expiry = zeroTime then releaseDelete h
      else
        let now ← perform .now
        if now + margin < h.expiry then releaseDelete h else return .ok { h with released := true }

/-! ## 5. The system

The clock and the effects of calls under way are steps as well, of no process in particular. -/

/-- A call that is under way. -/
structure Flight where
  id : Nat
  who : Nat
  request : Request
  sentAt : Int
deriving DecidableEq

/-- The sentinel, with the acquirer that created it and when. -/
structure Sentinel where
  comment : Text
  creator : Option Nat
  since : Int
deriving DecidableEq

structure Shared where
  clock : Int
  sentinel : Option Sentinel
  flights : List Flight := []
  replies : Nat → Option Reply := fun _ => none
  issued : Nat := 0
  wake : Nat → Int := fun _ => 0
  enrolled : List Nat := []
  holders : List (Nat × Int) := []
  strayed : Bool := false

namespace Shared

/-- A delete goes astray: one of a claim of one's own, while the claim of another acquirer is on the
sentinel, or one of a steal whose budget is over. -/
def strays (s : Shared) (i : Nat) : Request → Bool
  | .delete _ .own =>
    match s.sentinel with
    | none => false
    | some c => c.creator.any fun k => decide (k ≠ i)
  | .delete _ (.steal started) => decide (started + clusterLockStealBudget ≤ s.clock)
  | _ => false

/-- A call is sent. -/
def send (s : Shared) (i : Nat) (r : Request) : Shared :=
  { s with
    flights := ⟨s.issued, i, r, s.clock⟩ :: s.flights
    issued := s.issued + 1
    strayed := s.strayed || s.strays i r }

/-- What a call answers and what it leaves of the sentinel. -/
def effect (s : Shared) (f : Flight) : Reply × Option Sentinel :=
  match f.request with
  | .create comment =>
    match s.sentinel with
    | some c => (.duplicate, some c)
    | none => (.created, some ⟨comment, some f.who, s.clock⟩)
  | .read _ => (.comment (s.sentinel.map fun c => c.comment), s.sentinel)
  | .delete _ _ =>
    match s.sentinel with
    | some _ => (.deleted, none)
    | none => (.notFound, none)

/-- Call `f` is over, with this answer. -/
def close (s : Shared) (f : Flight) (reply : Reply) : Shared :=
  { s with
    flights := s.flights.filter fun g => decide (g.id ≠ f.id)
    replies := fun n => if n = f.id then some reply else s.replies n }

/-- Call `f` takes effect. -/
def land (s : Shared) (f : Flight) : Shared :=
  { s.close f (s.effect f).1 with sentinel := (s.effect f).2 }

/-- Acquirer `i` does not hold the lock any more. -/
def drop (s : Shared) (i : Nat) : Shared :=
  { s with holders := s.holders.filter fun h => decide (h.1 ≠ i) }

end Shared

/-- What the code does not decide. -/
inductive Choice
  | ok
  | fail
  | value (n : Nat)
deriving DecidableEq

/-- The answer of a call that does nothing. -/
def refusal : Choice → Reply
  | .ok => .refused
  | .fail => .failed
  | .value _ => .notAttempted

/-- What an effect of process `i` does. -/
def exec (O : Owners) (i : Nat) (e : Effect) (ch : Choice) (s : Shared) :
    Option (Answer e × Shared) :=
  match e with
  | .enroll =>
    if i ∈ s.enrolled then none else some (O.token i, { s with enrolled := i :: s.enrolled })
  | .now => some (s.clock, s)
  | .jitter =>
    match ch with
    | .value n => some ((n : Int) % clusterLockPollInterval, s)
    | _ => some (0, s)
  | .send r => some (s.issued, s.send i r)
  | .await id =>
    if ch = .fail then some (.failed, s) else (s.replies id).map fun reply => (reply, s)
  | .nap d => some ((), { s with wake := fun j => if j = i then s.clock + d else s.wake j })
  | .woke =>
    if ch = .fail then some (false, s) else if s.wake i ≤ s.clock then some (true, s) else none
  | .hand expiry => some ((), { s with holders := (i, expiry) :: s.holders })
  | .tick d => if s.clock + d ≤ horizon then some ((), { s with clock := s.clock + d }) else none
  | .land id =>
    match s.flights.find? fun f => decide (f.id = id) with
    | none => none
    | some f => if s.clock ≤ f.sentAt + clusterLockRoundTrip then some ((), s.land f) else none
  | .refuse id =>
    match s.flights.find? fun f => decide (f.id = id) with
    | none => none
    | some f => some ((), s.close f (refusal ch))

/-- What a process can be asked to do. -/
inductive Op
  | acquire (a : Acquire) (rounds : Nat)
  | release
  | tick (d : Nat)
  | land (id : Nat)
  | refuse (id : Nat)

/-- What a process remembers between two calls. -/
inductive Memory
  | nothing
  | handle (h : Handle)

/-- The calls.  An acquire takes the grace, and a release needs a handle. -/
def prog : Op → Memory → Option (Call Memory)
  | .acquire a rounds, .nothing =>
    if a.settings.grace then some do
      let owner ← perform .enroll
      match ← acquireClusterLock owner a rounds with
      | .error _ => return .nothing
      | .ok h =>
        perform (.hand h.expiry)
        return .handle h
    else none
  | .acquire _ _, .handle _ => none
  | .release, .nothing => none
  | .release, .handle h => some do
    match ← release h with
    | .error _ => return .handle h
    | .ok h => return .handle h
  | .tick d, m => some do
    perform (.tick d)
    return m
  | .land id, m => some do
    perform (.land id)
    return m
  | .refuse id, m => some do
    perform (.refuse id)
    return m

/-- An acquirer that calls `Release` does not hold the lock from then on. -/
def enter (i : Nat) : Op → Shared → Shared
  | .release, s => s.drop i
  | _, s => s

/-- Any number of acquirers of one lock. -/
abbrev system (O : Owners) : Sys where
  σ := Shared
  E := Effect
  Ans := Answer
  Ch := Choice
  L := Memory
  Op := Op
  exec := exec O
  prog := prog
  enter := enter
  halt _ s := s
  boot := .nothing

end Lock
