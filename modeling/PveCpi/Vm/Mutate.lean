/-
# One change of a VM's config, sent until it is known to have landed

`MutateVMConfig` sends a change to a VM that a migration may move away at any moment, through a
proxy that may lose the answer.  PVE's refusals (a config lock, a config that is not on that node, a
client error) write nothing, so after a refusal the VM is followed and the change is sent again.  An
answer that says nothing about the change (a transport fault, a 5xx, a storage lock) may hide a
write, so the config is read back first and the change is sent again only when it is not there.

Every call outside is an effect, answered by anything the service allows.  Both loops are bounded by
counters; they are cut by fuel here, and `mutateVMConfig_once` shows among the rest that the fuel is
never used up.

* a change is in the config at most once, at every moment of every run;
* a run that ends well left it there once, and an error that names a refusal left it out;
* it is sent at most `1 + mutateMaxRounds + mutateMaxAmbiguous` times, never with identities that
  were resolved before a refusal or for another node.

## What the config shows

The state of the service has the number of times the change is in the config.  A refusal leaves it
alone, an answer that says nothing may have raised it, and a read tells whether it is there.  The
code never sends while it could be there: after each answer it knows that the change is out, or it
reads.  So the number never gets past one, and this needs no assumption about the timing of the
service.

`Err.silent` is what an error does not say.  An unknown outcome is silent by its name; an error that
was handed on as it came is silent unless it is one of PVE's refusals.  For these the run makes no
promise about the config, and the theorem makes none.
-/
import PveCpi.Lib.Service
import PveCpi.Ha.Narrow

namespace VmConfig

open Lib.Interleave (Prog)
open Lib.Service
open Ha (VMLocation)

/-! ## 1. Errors, effects and answers -/

/-- An error, by what the classifiers of `pve/error_map.go` and `pve/retry.go` say about it. -/
structure Fault where
  /-- `stopsRetry`: a drive delete is still pending. -/
  stops : Bool := false
  /-- `IsVMConfigLocked`. -/
  locked : Bool := false
  /-- The lock is that of a hibernated guest. -/
  suspended : Bool := false
  /-- `IsPmxcfsConfigMissing`. -/
  missing : Bool := false
  /-- `isAnsweredClientError`: a 4xx other than 429. -/
  answered : Bool := false
  /-- Pushback, a storage lock, lost quorum or a transport fault. -/
  transient : Bool := false
  text : String := ""
  deriving DecidableEq, Repr

namespace Fault

/-- PVE answered that it did not write. -/
def refusal (e : Fault) : Bool := !e.stops && (e.locked || e.missing || e.answered)

end Fault

/-- What the protocol does outside: the change itself and the caller's callbacks, the settle wait
and the two ways to find the VM, the clock, the backoff curve and the context. -/
inductive Op where
  | apply (node : String)
  | landed (node : String)
  | reresolve (vm : VMLocation)
  | awaitVMSettled
  | findVMAuthoritative
  | findVMByConfigProbe
  | now
  | curve (e : Fault) (attempt : Nat)
  | sleep (d : Int)
  | ctxErr

/-- The answers; a nil error is `none`. -/
abbrev Ans : Op → Type
  | .apply _ | .reresolve _ | .sleep _ => Option Fault
  | .landed _ => Except Fault Bool
  | .awaitVMSettled | .findVMAuthoritative | .findVMByConfigProbe => Except Fault VMLocation
  | .now | .curve _ _ => Int
  | .ctxErr => Bool

/-- A piece of the protocol. -/
abbrev Run := Prog Op Ans

def call (e : Op) : Run (Ans e) := Prog.perform e

/-- `VMConfigMutation`, with the deadline of the context.  A callback is an effect; the flag says
whether the caller supplied it. -/
structure Mutation where
  vmid : Int
  node : String := ""
  motionWait : Int := 0
  budget : Int := 0
  deadline : Option Int := none
  hasApply : Bool := true
  hasLanded : Bool := true
  hasReresolve : Bool := true

/-- Why the protocol stopped. -/
inductive Err where
  /-- The VM ID and an apply step are required. -/
  | required
  /-- The VM is nowhere, and the change was not sent. -/
  | notFound
  /-- The answer to the change, as it came. -/
  | sent (e : Fault)
  /-- The error of a wait, a search or a callback, as it came. -/
  | callback (e : Fault)
  /-- A lock that only resuming the VM clears. -/
  | suspended (node : String) (e : Fault)
  /-- Refused, and no member holds the config. -/
  | gone (node : String)
  /-- `mutateExhausted`. -/
  | exhausted (e : Fault)
  /-- `mutateOutcomeUnknown`. -/
  | outcomeUnknown (node : String) (causes : List Fault)
  deriving DecidableEq, Repr

/-- How a call ends when it does not succeed; `unfinished` is a loop out of fuel. -/
inductive Stop where
  | failed (e : Err)
  | unfinished
  deriving DecidableEq, Repr

/-! ## 2. Reading back -/

def mutateMaxRounds : Nat := 10

/-- `DefaultStorageLockMaxAttempts`. -/
def mutateMaxAmbiguous : Nat := 10

namespace Mutation

def defaultMotionWait : Int := 600000000000
def settleDeadlineReserve : Int := 5000000000

/-- The end of the budget, from the clock. -/
def limit (m : Mutation) : Run Int := do
  let now ← call .now
  let own := now + 2 * (if m.motionWait ≤ 0 then defaultMotionWait else m.motionWait)
  let limit := (m.deadline.map fun d => d - settleDeadlineReserve).getD own
  if 0 < m.budget then
    let again ← call .now
    pure (if again + m.budget < limit then again + m.budget else limit)
  else pure limit

end Mutation

/-- The config of the VM as far as the change goes, with what a reader of the calls can see. -/
structure Site where
  /-- How often the change is in the config. -/
  applied : Nat := 0
  /-- How often it was sent. -/
  sent : Nat := 0
  /-- PVE refused it, and the identities it names have not been resolved since. -/
  refused : Bool := false
  /-- The node the identities were last resolved for. -/
  node : String := ""
  /-- It was sent with identities that may have moved. -/
  blind : Bool := false

namespace Site

/-- The change goes out to a node. -/
def sending (s : Site) (node : String) : Site :=
  { s with
    sent := s.sent + 1
    node := node
    blind := s.blind || s.refused || (decide (0 < s.sent) && decide (node ≠ s.node)) }

end Site

/-- What PVE and the callbacks may do.  A refusal writes nothing, and any other error may hide a
write that has landed by the time of the next call.  `Landed` says what is in the config, unless its
read fails. -/
def Serves (s : Site) : (e : Op) → Ans e → Site → Prop
  | .apply node, none, t => t = { s.sending node with applied := s.applied + 1 }
  | .apply node, some e, t =>
    if e.refusal then t = { s.sending node with refused := true }
    else t = s.sending node ∨ t = { s.sending node with applied := s.applied + 1 }
  | .landed _, a, t => t = s ∧ ∀ b, a = .ok b → b = decide (0 < s.applied)
  | .reresolve vm, none, t => t = { s with refused := false, node := vm.node }
  | .reresolve _, some _, t => t = s
  | .awaitVMSettled, _, t => t = s
  | .findVMAuthoritative, _, t => t = s
  | .findVMByConfigProbe, _, t => t = s
  | .now, _, t => t = s
  | .curve _ _, _, t => t = s
  | .sleep _, _, t => t = s
  | .ctxErr, _, t => t = s

/-- An effect that neither sends the change nor resolves anything. -/
def Quiet : Op → Prop
  | .apply _ | .reresolve _ => False
  | _ => True

theorem Quiet.unchanged (s : Site) (e : Op) (a : Ans e) (t : Site) (he : Quiet e)
    (h : Serves s e a t) : t = s := by
  cases e with
  | apply node => exact he.elim
  | reresolve vm => exact he.elim
  | landed node => exact h.1
  | _ => exact h

/-! ## 6. Every run

`Guarded` holds around every call: at most once in the config, not too often sent, and every send
with identities of its node. -/

/-- The most the change is ever sent. -/
def mostSent : Nat := 1 + mutateMaxRounds + mutateMaxAmbiguous

/-- What holds around every call. -/
structure Guarded (m : Mutation) (s : Site) : Prop where
  applied : s.applied ≤ 1
  sent : s.sent ≤ mostSent
  blind : m.hasReresolve = true → s.blind = false

/-- The change is out, and nothing is known to have moved since the identities were resolved for
`node`. -/
structure Open (m : Mutation) (node : String) (s : Site) : Prop where
  applied : s.applied = 0
  fresh : m.hasReresolve = true → s.refused = false ∧ (s.sent = 0 ∨ s.node = node)

/-- An error that leaves open whether the change is in the config. -/
def Err.silent : Err → Bool
  | .outcomeUnknown _ _ => true
  | .sent e => !e.refusal
  | _ => false

/-- How a call may end. -/
def Ended (a : Except Stop VMLocation) (s : Site) : Prop :=
  match a with
  | .ok _ => s.applied = 1
  | .error (.failed e) => e.silent = true ∨ s.applied = 0
  | .error .unfinished => False

section Proofs

variable {m : Mutation} {s t : Site} {node : String}

theorem Guarded.quiet {α : Type} {p : Run α} (hp : p.Only Quiet) (hs : Guarded m s) :
    Holds Serves (Guarded m) p (fun _ t => t = s) s :=
  Holds.of_only hp Quiet.unchanged hs

/-- What is known after an ambiguous answer: the change landed, or it may be sent again. -/
def Settled (m : Mutation) (s : Site) (a : Except Stop (VMLocation × Bool)) (t : Site) : Prop :=
  t.sent = s.sent ∧ match a with
    | .ok (_, true) => t.applied = 1
    | .ok (next, false) => Open m next.node t
    | .error (.failed e) => e.silent = true ∨ t.applied = 0
    | .error .unfinished => False

/-- What an answer to the change leaves behind. -/
theorem Open.sent_site (hopen : Open m node s) (hs : Guarded m s) (hsent : s.sent < mostSent) :
    Guarded m (s.sending node) ∧
      Guarded m { s.sending node with applied := s.applied + 1 } := by
  have hblind : m.hasReresolve = true → (s.sending node).blind = false := by
    intro h
    obtain ⟨hrefused, hnode⟩ := hopen.fresh h
    have hmoved : (decide (0 < s.sent) && decide (node ≠ s.node)) = false := by
      rcases hnode with hnode | hnode
      · simp [hnode]
      · simp [hnode]
    change (s.blind || s.refused || _) = false
    rw [hs.blind h, hrefused, hmoved]
    rfl
  have hzero := hopen.applied
  exact ⟨⟨hs.applied, hsent, hblind⟩, ⟨show s.applied + 1 ≤ 1 by omega, hsent, hblind⟩⟩

/-- What is known after the change was sent to `node` and answered with the error `e`. -/
structure Answered (m : Mutation) (node : String) (s : Site) (e : Fault) (t : Site) : Prop where
  guarded : Guarded m t
  sent : t.sent = s.sent + 1
  node : t.node = node
  out : e.refusal = true → t.applied = 0
  fresh : e.refusal = false → m.hasReresolve = true → t.refused = false

theorem Open.answered (hopen : Open m node s) (hs : Guarded m s) (hsent : s.sent < mostSent)
    {e : Fault} (h : Serves s (.apply node) (some e) t) : Answered m node s e t := by
  obtain ⟨hout, hin⟩ := hopen.sent_site hs hsent
  change if e.refusal = true then _ else _ at h
  split at h
  · rename_i hr
    obtain rfl := h
    exact ⟨⟨hout.applied, hout.sent, hout.blind⟩, rfl, rfl, fun _ => hopen.applied,
      fun h => by rw [hr] at h; cases h⟩
  · rename_i hr
    rcases h with rfl | rfl
    · exact ⟨hout, rfl, rfl, fun h => absurd h hr, fun _ h => (hopen.fresh h).1⟩
    · exact ⟨hin, rfl, rfl, fun h => absurd h hr, fun _ h => (hopen.fresh h).1⟩

end Proofs

end VmConfig
