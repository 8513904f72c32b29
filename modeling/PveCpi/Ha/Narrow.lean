/-
# The barrier around a narrowing change

`ha/narrow.go` with the pins of `ha/rules.go` and `ha/pin.go`: a change to an HA-managed VM that
leaves it fewer nodes runs while the HA resource is ignored, so that the CRM cannot move the VM in
between.  The barrier requests ignored, waits until the CRM and the LRM have let go of the VM,
writes the narrower pin, runs the mutation, checks where the VM landed and puts back the state the
resource had.

Everything outside the barrier is an effect: the cluster API, the state reads, the settle wait, the
mutation, the pin writes, the caller's callbacks and the clock.  Each may be answered by anything.
The drain loop has no bound of its own, so it is cut after `rounds` rounds; a run of any length is a
run for enough rounds.  The fallback behind `narrowUseRemoval` is not embedded: the switch is off.

## What the barrier cannot know

Between a request and its effect lie the CRM and the LRM, two daemons that act on their own.  The
barrier sees them only through reads of their status, which may be old, may be of an unknown form
and may fail.  So it requires an order of what it reads: a round of the CRM that is younger than the
request and does not list the service, and then a round of the LRM that is younger than that.
`round` is this decision, a pure function of the times and of one read; the loop around it only
waits.

The token that the barrier writes into the comment of the resource is the memory of a barrier that
does not come back: `Recovery` is about it.

The last section says of each step which kinds of calls it makes.  There are two kinds that matter
later, `Requests` (reads and updates of the resource) and `Aside` (checks, callbacks and pin writes,
which leave the resource alone), and a step that makes calls of one kind only is dealt with by one
lemma, whatever is proved about it.
-/
import PveCpi.Lib.Answers
import PveCpi.Lib.Text
import Mathlib.Data.List.AList

namespace Ha

open Lib.Interleave
open Lib.Text

/-! ## 1. Pins

A pin is a node affinity rule; a strict one confines, any other one only prefers. -/

/-- One HA rule, as far as a pin uses it. -/
structure Rule where
  type : String := "node-affinity"
  affinity : String := "positive"
  strict : Bool
  disabled : Bool := false
  nodes : AList fun _ : String => Int
  resources : List String := []
  comment : String := ""

/-- `allowedNodes`: the nodes a pin confines its VM to, as a set; `none` when it confines it to
none. -/
def allowedNodes : Option Rule → Option (List String)
  | none => none
  | some pin => if !pin.strict || pin.disabled then none else some pin.nodes.keys

/-- A pin admits a node. -/
def admits (pin : Option Rule) (node : String) : Bool :=
  match allowedNodes pin with
  | none => true
  | some nodes => nodes.contains node

/-- `Narrows`. -/
def narrows (old next : Option Rule) : Bool :=
  match allowedNodes next with
  | none => false
  | some nextSet =>
    match allowedNodes old with
    | none => true
    | some oldSet => oldSet.any fun n => !nextSet.contains n

def sameNodes (a b : AList fun _ : String => Int) : Bool :=
  decide (a.keys.length = b.keys.length) &&
    a.entries.all fun e => decide (b.lookup e.1 = some e.2)

/-- `SameRule`: no field that `RuleDiff` compares differs. -/
def sameRule : Option Rule → Option Rule → Bool
  | none, none => true
  | some want, some got =>
    decide (want.type = got.type) && decide (want.disabled = got.disabled) &&
      decide (want.resources = got.resources) && decide (want.comment = got.comment) &&
      decide (want.affinity = got.affinity) &&
      (decide (want.type ≠ "node-affinity") ||
        (decide (want.strict = got.strict) && sameNodes want.nodes got.nodes))
  | _, _ => false

/-! ## 2. What the barrier reads and writes -/

def haStateStarted : String := "started"
def haStateIgnored : String := "ignored"
def haStateError : String := "error"

/-- An error from outside the barrier; `notFound` is what `isRuleNotFound` answers for it. -/
structure Fault where
  notFound : Bool := false
  text : String := ""
  deriving DecidableEq, Repr

/-- `GetHaResourcesResponse`. -/
structure Resource where
  state : Option String
  comment : Option String
  deriving DecidableEq, Repr

/-- `UpdateHaResourcesParams`. -/
structure UpdateParams where
  state : String
  comment : Option String := none
  delete : Option String := none
  deriving DecidableEq, Repr

/-- `pve.HAServiceState`, as far as the barrier reads it. -/
structure ServiceState where
  known : Bool
  reason : String := ""
  inCRM : Bool := false
  raw : String := ""
  node : String
  entryTime : Int := 0
  crmStamp : Int := 0
  lrmStamp : Int := 0
  deriving DecidableEq, Repr

/-- `pve.VMLocation`. -/
structure VMLocation where
  node : String := ""
  found : Bool := false
  deriving DecidableEq, Repr

/-- `pve.VMConfigMutation`: which VM on which node; what it applies is the caller's. -/
structure Mutation where
  vmid : Int
  node : String
  deriving DecidableEq, Repr

/-- What a re-registration does next: run the change on a node, or end. -/
inductive Reregistration where
  | between (node : String)
  | done (loc : VMLocation) (err : Option Fault)
  deriving DecidableEq, Repr

/-- Why the barrier stopped: one constructor for each message, with what it prints. -/
inductive Err where
  | required (vmid : Int)
  | sysConsole (vmid : Int)
  | readResource (vmid : Int) (cause : Fault)
  | fault (cause : Fault)
  | writePin (vmid : Int) (cause : Fault)
  | keepsPin (vmid : Int) (cause : Fault) (node : String)
  | errorState (vmid : Int)
  | unreachable (vmid : Int) (cause : Fault)
  | outside (vmid : Int) (node : String)
  | drainError (vmid : Int)
  | drainedOutside (vmid : Int) (node : String)
  | undrained (vmid : Int) (budget : Int) (why : String)
  | readState (vmid : Int) (cause : Fault)
  | unknown (vmid : Int) (reason : String)
  | request (state : String) (sid : String) (cause : Fault)
  deriving DecidableEq, Repr

/-- How a call ends when it does not succeed.  A nil dereference panics, and `unfinished` is a drain
that is still going after its last round. -/
inductive Stop where
  | failed (loc : VMLocation) (e : Err)
  | panicked
  | unfinished
  deriving DecidableEq, Repr

/-- The effects of the barrier. -/
inductive Op where
  | getResource
  | updateResource (p : UpdateParams)
  | readState (node : String)
  | settle
  | mutate (m : Mutation)
  | writePin (pin : Option Rule)
  | checkReach (node : String)
  | unchanged (node : String)
  | moving (node : String)
  | reregister (st : ServiceState) (change : Option (Except Stop VMLocation))
  | now
  | sleep (d : Int)

/-- The answers; a nil error is `none`. -/
abbrev Ans : Op → Type
  | .getResource => Except Fault (Option Resource)
  | .updateResource _ | .writePin _ | .checkReach _ | .sleep _ => Option Fault
  | .readState _ => Except Fault (Option ServiceState)
  | .settle | .mutate _ => VMLocation × Option Fault
  | .unchanged _ | .moving _ => Except Fault Bool
  | .reregister _ _ => Reregistration
  | .now => Int

/-- A piece of the barrier. -/
abbrev Run := Prog Op Ans

namespace Api

def getResource : Run (Except Fault (Option Resource)) := @Prog.perform Op Ans .getResource

def updateResource (p : UpdateParams) : Run (Option Fault) :=
  @Prog.perform Op Ans (.updateResource p)

def readState (node : String) : Run (Except Fault (Option ServiceState)) :=
  @Prog.perform Op Ans (.readState node)

def settle : Run (VMLocation × Option Fault) := @Prog.perform Op Ans .settle

def mutate (m : Mutation) : Run (VMLocation × Option Fault) := @Prog.perform Op Ans (.mutate m)

def writePin (pin : Option Rule) : Run (Option Fault) := @Prog.perform Op Ans (.writePin pin)

def checkReach (node : String) : Run (Option Fault) := @Prog.perform Op Ans (.checkReach node)

def unchanged (node : String) : Run (Except Fault Bool) := @Prog.perform Op Ans (.unchanged node)

def moving (node : String) : Run (Except Fault Bool) := @Prog.perform Op Ans (.moving node)

def reregister (st : ServiceState) (change : Option (Except Stop VMLocation)) :
    Run Reregistration := @Prog.perform Op Ans (.reregister st change)

def now : Run Int := @Prog.perform Op Ans .now

def sleep (d : Int) : Run (Option Fault) := @Prog.perform Op Ans (.sleep d)

end Api

/-- `NarrowInput`.  A callback is an effect; the flag says whether the caller supplied it. -/
structure NarrowInput where
  vmid : Int
  node : String
  oldPin : Option Rule
  newPin : Option Rule
  hasWritePin : Bool := true
  hasMutation : Bool := true
  mutationNode : String := ""
  hasCheckReach : Bool := true
  hasUnchanged : Bool := true
  hasMoving : Bool := true
  hasReregister : Bool := true
  sysConsole : Bool := true
  budget : Int := 0
  pollInterval : Int := 0

/-- The state of the barrier: its input, the comment without the token, the state to put back, and
whether the resource carries the token. -/
structure Barrier where
  input : NarrowInput
  comment : Option String := none
  restore : String := ""
  marked : Bool := false

/-! ## 3. The token on the comment

The comment belongs to the operator.  The token is a word at its end, and taking it off must give
the comment back. -/

def narrowMarkKey : String := "bosh-narrow-from="

/-- `narrowMarkOf`. -/
def narrowMarkOf (comment : Option String) : Option String :=
  (fields (comment.getD "")).findSome? fun f =>
    (cutPrefix f narrowMarkKey).filter fun state => decide (state ≠ "")

/-- `stripNarrowMark`. -/
def stripNarrowMark : Option String → Option String
  | none => none
  | some comment => some <| (fields comment).foldl
      (fun out f =>
        if !hasPrefix f narrowMarkKey then out
        else if contains out (" " ++ f) then replaceFirst out (" " ++ f) ""
        else replaceFirst out f "") comment

/-- `withNarrowMark`. -/
def withNarrowMark (comment : Option String) (restore : String) : String :=
  if comment.getD "" = "" then narrowMarkKey ++ restore
  else comment.getD "" ++ " " ++ narrowMarkKey ++ restore

/-! ## 4. Requests -/

namespace Barrier

def sid (b : Barrier) : String := "vm:" ++ toString b.input.vmid

/-- The parameters of a request. -/
def params (b : Barrier) (state : String) (mark : Bool) : UpdateParams :=
  if mark then { state := state, comment := some (withNarrowMark b.comment b.restore) }
  else if b.comment.getD "" ≠ "" then { state := state, comment := b.comment }
  else if b.marked then { state := state, delete := some "comment" }
  else { state := state }

/-- A read that settles a held error: the resource shows the state and the token as requested. -/
def settles (state : String) (mark : Bool) : Except Fault (Option Resource) → Bool
  | .ok (some got) =>
    decide (got.state = some state) && decide ((narrowMarkOf got.comment).isSome = mark)
  | _ => false

/-- `request`. -/
def request (b : Barrier) (state : String) (mark : Bool) : Run (Barrier × Option Err) := do
  match ← Api.updateResource (b.params state mark) with
  | none => pure ({ b with marked := mark }, none)
  | some cause =>
    let got ← Api.getResource
    if settles state mark got then pure ({ b with marked := mark }, none)
    else pure (b, some (.request state b.sid cause))

/-- `finish`. -/
def finish (b : Barrier) : Run (Option Err) :=
  if !b.marked && decide (b.restore = haStateIgnored) then pure none
  else do
    let r ← b.request b.restore false
    pure r.2

/-- `restoreAfter`: a failed restore is only logged. -/
def restoreAfter {α : Type} (b : Barrier) (loc : VMLocation) (cause : Err) :
    Run (Except Stop α) := do
  let _ ← b.finish
  pure (.error (.failed loc cause))

/-! ## 5. The steps of the barrier -/

/-- `mutate`. -/
def mutate (b : Barrier) (node : String) : Run (VMLocation × Option Fault) :=
  Api.mutate { vmid := b.input.vmid, node := if node ≠ "" then node else b.input.mutationNode }

def inNarrowSet (b : Barrier) (node : String) : Bool := admits b.input.newPin node

/-- A callback the caller may leave out. -/
def checkReach (b : Barrier) (node : String) : Run (Option Fault) :=
  if b.input.hasCheckReach then Api.checkReach node else pure none

/-- `checkLanding`. -/
def checkLanding (b : Barrier) (node : String) : Run (Option Err) := do
  match ← b.checkReach node with
  | some cause => pure (some (.unreachable b.input.vmid cause))
  | none => pure (if !b.inNarrowSet node then some (.outside b.input.vmid node) else none)

/-- `mutateAndCheck`. -/
def mutateAndCheck (b : Barrier) (node : String) : Run (Except Stop VMLocation) := do
  match ← b.mutate node with
  | (loc, some cause) => pure (.error (.failed loc (.fault cause)))
  | (loc, none) =>
    match ← b.checkReach loc.node with
    | some cause => pure (.error (.failed loc (.fault cause)))
    | none => pure (.ok loc)

/-- `widen`. -/
def widen (b : Barrier) : Run (Except Stop VMLocation) := do
  match ← b.mutate b.input.node with
  | (loc, some cause) => pure (.error (.failed loc (.fault cause)))
  | (loc, none) =>
    if b.input.hasWritePin && !sameRule b.input.newPin b.input.oldPin then
      match ← Api.writePin b.input.newPin with
      | some cause => pure (.error (.failed loc (.fault cause)))
      | none => pure (.ok loc)
    else pure (.ok loc)

/-- `readState`. -/
def readState (b : Barrier) (node : String) : Run (Except Err ServiceState) := do
  match ← Api.readState node with
  | .error cause => pure (.error (.readState b.input.vmid cause))
  | .ok none => pure (.error (.unknown b.input.vmid "no state"))
  | .ok (some st) =>
    pure (if st.known then .ok st else .error (.unknown b.input.vmid st.reason))

/-- The change that a re-registration runs while the VM has no HA resource. -/
def between (b : Barrier) (node : String) : Run (Except Stop VMLocation) := do
  match ← b.mutate node with
  | (loc, some cause) => pure (.error (.failed loc (.fault cause)))
  | (loc, none) =>
    match ← b.checkLanding loc.node with
    | some e => pure (.error (.failed loc e))
    | none => pure (.ok loc)

/-- A re-registration, which may run the change on the way. -/
def reregistering (b : Barrier) (st : ServiceState) :
    Nat → Option (Except Stop VMLocation) → Run (Except Stop VMLocation)
  | 0, _ => pure (.error .unfinished)
  | rounds + 1, change => do
    match ← Api.reregister st change with
    | .done loc none => pure (.ok loc)
    | .done loc (some cause) => pure (.error (.failed loc (.fault cause)))
    | .between node =>
      let r ← b.between node
      reregistering b st rounds (some r)

/-- `errored`. -/
def errored (b : Barrier) (rounds : Nat) (st : ServiceState) : Run (Except Stop VMLocation) :=
  if !b.input.hasReregister then pure (.error (.failed {} (.errorState b.input.vmid)))
  else b.reregistering st rounds none

/-- `revertPin`; the answer is a task that is still running. -/
def revertPin (b : Barrier) (node : String) : Run Bool :=
  if !b.input.hasUnchanged || !b.input.hasWritePin || decide (node = "") || !b.input.hasMoving then
    pure false
  else do
    match ← Api.moving node with
    | .error _ => pure false
    | .ok true => pure true
    | .ok false =>
      match ← Api.unchanged node with
      | .error _ => pure false
      | .ok false => pure false
      | .ok true =>
        let _ ← Api.writePin b.input.oldPin
        pure false

/-! ## 6. The drain

`again` is what a round does when it has to wait: it looks at the clock, and sleeps and goes on, or
gives up and puts the state back. -/

/-- What one read of the drain means. -/
inductive Round where
  /-- The service went into the error state. -/
  | errored
  /-- Not drained yet; `0` forgets the round in which the CRM dropped the service. -/
  | wait (dropRound : Int) (why : String)
  /-- The CRM and the LRM have let go of the service. -/
  | released

/-- The cases of the drain loop for a state that was read. -/
def round (b : Barrier) (requestTime dropRound : Int) (st : ServiceState) : Round :=
  if !st.known then .wait dropRound st.reason
  else if st.raw = haStateError then .errored
  else if st.inCRM then .wait 0 ("the CRM still lists " ++ b.sid ++ " as " ++ st.raw)
  else if st.crmStamp ≤ requestTime then
    .wait dropRound "no CRM round has run since the ignored request"
  else
    let drop := if dropRound = 0 then st.crmStamp else dropRound
    if st.lrmStamp ≤ drop then
      .wait drop ("the LRM of node " ++ st.node ++
        " has not reported since the CRM dropped the service")
    else .released

/-- The end of a round of `drain` that did not drain: give up at the deadline, else sleep and read
again. -/
def again (b : Barrier) (deadline : Int) (next : String → Int → Run (Except Stop VMLocation))
    (node : String) (dropRound : Int) (why : String) : Run (Except Stop VMLocation) := do
  let now ← Api.now
  if deadline ≤ now then b.restoreAfter {} (.undrained b.input.vmid b.input.budget why)
  else
    match ← Api.sleep b.input.pollInterval with
    | some cause => pure (.error (.failed {} (.fault cause)))
    | none => next node dropRound

/-- `drain`, for at most `rounds` reads. -/
def drainLoop (b : Barrier) (requestTime deadline : Int) :
    Nat → String → Int → Run (Except Stop VMLocation)
  | 0, _, _ => pure (.error .unfinished)
  | rounds + 1, node, dropRound => do
    let again := b.again deadline (drainLoop b requestTime deadline rounds)
    match ← Api.readState node with
    | .error cause => again node dropRound cause.text
    | .ok none => pure (.error .panicked)
    | .ok (some st) =>
      match b.round requestTime dropRound st with
      | .errored => pure (.error (.failed {} (.drainError b.input.vmid)))
      | .wait drop why => again node drop why
      | .released =>
        match ← Api.settle with
        | (loc, some cause) => b.restoreAfter loc (.fault cause)
        | (loc, none) =>
          if loc.node ≠ st.node then
            again loc.node 0 ("the VM is on " ++ loc.node ++ " but the state read named " ++
              st.node)
          else if !b.inNarrowSet loc.node then
            b.restoreAfter loc (.drainedOutside b.input.vmid loc.node)
          else pure (.ok loc)

/-- `drain`. -/
def drain (b : Barrier) (rounds : Nat) (requestTime : Int) (node : String) :
    Run (Except Stop VMLocation) := do
  let now ← Api.now
  b.drainLoop requestTime (now + b.input.budget) rounds node 0

/-! ## 7. The barrier -/

/-- The write of the narrower pin. -/
def writeNewPin (b : Barrier) : Run (Option Fault) :=
  if b.input.hasWritePin then Api.writePin b.input.newPin else pure none

/-- The end of `viaIgnored`, after the drain. -/
def change (b : Barrier) (drained : VMLocation) : Run (Except Stop VMLocation) := do
  match ← b.writeNewPin with
  | some cause => b.restoreAfter drained (.writePin b.input.vmid cause)
  | none =>
    match ← b.mutate drained.node with
    | (loc, some cause) =>
      let running ← b.revertPin drained.node
      b.restoreAfter loc
        (if running then .keepsPin b.input.vmid cause drained.node else .fault cause)
    | (loc, none) =>
      match ← b.checkLanding loc.node with
      | some e => pure (.error (.failed loc e))
      | none =>
        match ← b.finish with
        | some e => pure (.error (.failed loc e))
        | none => pure (.ok loc)

/-- The ignored request, unless the resource is ignored already. -/
def hold (b : Barrier) (resumed : Bool) : Run (Barrier × Option Err) :=
  if !resumed && decide (b.restore ≠ haStateIgnored) then b.request haStateIgnored true
  else pure (b, none)

/-- `viaIgnored`. -/
def viaIgnored (b : Barrier) (rounds : Nat) (resumed : Bool) : Run (Except Stop VMLocation) := do
  match ← b.readState b.input.node with
  | .error e => pure (.error (.failed {} e))
  | .ok st =>
    if st.raw = haStateError then b.errored rounds st
    else
      match ← b.hold resumed with
      | (_, some e) => pure (.error (.failed {} e))
      | (b, none) =>
        match ← b.readState st.node with
        | .error e => b.restoreAfter {} e
        | .ok after =>
          match ← b.drain rounds after.entryTime after.node with
          | .error e => pure (.error e)
          | .ok loc => b.change loc

end Barrier

def narrowDefaultBudget : Int := 300000000000
def narrowDefaultPoll : Int := 2000000000

/-- `defaults`. -/
def NarrowInput.defaults (i : NarrowInput) : NarrowInput :=
  { i with
    budget := if i.budget ≤ 0 then narrowDefaultBudget else i.budget
    pollInterval := if i.pollInterval ≤ 0 then narrowDefaultPoll else i.pollInterval }

/-- The requested state of a resource; started is the default. -/
def Resource.current (res : Resource) : String :=
  match res.state with
  | none => haStateStarted
  | some s => if s = "" then haStateStarted else s

/-- An earlier barrier crashed: the resource is ignored and carries the token. -/
def Resource.resumed (res : Resource) : Bool :=
  (narrowMarkOf res.comment).isSome && decide (res.current = haStateIgnored)

/-- The barrier for a resource as it was read. -/
def Barrier.ofResource (i : NarrowInput) (res : Resource) : Barrier where
  input := i
  comment := stripNarrowMark res.comment
  restore := if res.resumed then (narrowMarkOf res.comment).getD "" else res.current
  marked := res.resumed

/-- `NarrowActive`. -/
def narrowActive (rounds : Nat) (i : NarrowInput) : Run (Except Stop VMLocation) :=
  let b : Barrier := { input := i.defaults }
  if i.vmid ≤ 0 ∨ !i.hasMutation then pure (.error (.failed {} (.required i.vmid)))
  else if !i.sysConsole then
    if !narrows i.oldPin i.newPin then b.widen
    else pure (.error (.failed {} (.sysConsole i.vmid)))
  else do
    match ← Api.getResource with
    | .error cause =>
      if cause.notFound then
        if !narrows i.oldPin i.newPin then b.widen else b.mutateAndCheck i.node
      else pure (.error (.failed {} (.readResource i.vmid cause)))
    | .ok none => pure (.error .panicked)
    | .ok (some res) =>
      let b := Barrier.ofResource i.defaults res
      if !narrows i.oldPin i.newPin && !res.resumed then b.widen
      else b.viaIgnored rounds res.resumed

/-! ## 8. The effects of a step

One lemma for each function, by the rule of `Prog.Only` for the way it is built. -/

/-- A write or a read of the resource. -/
def Requests : Op → Prop
  | .updateResource _ | .getResource => True
  | _ => False

/-- An effect that touches neither the VM nor its resource: a question, or a write of the new or the
old pin. -/
def Aside (i : NarrowInput) : Op → Prop
  | .writePin pin => i.hasWritePin = true ∧ (pin = i.newPin ∨ pin = i.oldPin)
  | .checkReach _ | .unchanged _ | .moving _ => True
  | _ => False

namespace Barrier

variable {b : Barrier}

theorem request_requests (state : String) (mark : Bool) :
    (b.request state mark).Only Requests := by
  refine ⟨trivial, fun a => ?_⟩
  cases a with
  | none => trivial
  | some cause =>
    refine ⟨trivial, fun got => ?_⟩
    dsimp only [bind, Prog.bind]
    split <;> trivial

theorem finish_requests : b.finish.Only Requests := by
  unfold finish
  split
  · trivial
  · exact (request_requests _ _).bind fun _ => trivial

theorem restoreAfter_requests {α : Type} (loc : VMLocation) (cause : Err) :
    (b.restoreAfter loc cause : Run (Except Stop α)).Only Requests :=
  finish_requests.bind fun _ => trivial

theorem checkReach_aside (node : String) : (b.checkReach node).Only (Aside b.input) := by
  unfold checkReach
  split
  · exact ⟨trivial, fun _ => trivial⟩
  · trivial

theorem checkLanding_aside (node : String) : (b.checkLanding node).Only (Aside b.input) := by
  refine (checkReach_aside node).bind fun a => ?_
  cases a with
  | none => trivial
  | some cause => trivial

theorem writeNewPin_aside : b.writeNewPin.Only (Aside b.input) := by
  unfold writeNewPin
  split
  · rename_i hset
    exact ⟨⟨hset, .inl rfl⟩, fun _ => trivial⟩
  · trivial

/-- Taking the pin back asks questions and writes one of the two pins; neither the VM nor its
resource is touched. -/
theorem revertPin_aside (node : String) : (b.revertPin node).Only (Aside b.input) := by
  unfold revertPin
  split
  · trivial
  · rename_i hset
    simp only [Bool.or_eq_true, Bool.not_eq_true', decide_eq_true_eq, not_or,
      Bool.not_eq_false] at hset
    refine ⟨trivial, fun moving => ?_⟩
    rcases moving with cause | _ | _
    · trivial
    · refine ⟨trivial, fun unchanged => ?_⟩
      rcases unchanged with cause | _ | _
      · trivial
      · trivial
      · exact ⟨⟨hset.1.1.2, .inr rfl⟩, fun _ => trivial⟩
    · trivial

/-- A mutation, and what follows it. -/
theorem mutate_then {α : Type} {P : Op → Prop} (hP : ∀ m, P (.mutate m)) (node : String)
    {f : VMLocation × Option Fault → Run α} (hf : ∀ r, (f r).Only P) :
    (b.mutate node >>= f).Only P := ⟨hP _, hf⟩

/-- A widening change mutates, writes the new pin and requests nothing. -/
theorem widen_only {P : Op → Prop} (hm : ∀ m, P (.mutate m))
    (hw : b.input.hasWritePin = true → P (.writePin b.input.newPin)) : b.widen.Only P := by
  refine mutate_then hm _ fun r => ?_
  obtain ⟨loc, cause⟩ := r
  cases cause with
  | some cause => trivial
  | none =>
    dsimp only
    split
    · rename_i hset
      rw [Bool.and_eq_true] at hset
      refine ⟨hw hset.1, fun a => ?_⟩
      cases a with
      | some cause => trivial
      | none => trivial
    · trivial

end Barrier

end Ha
