/-
# The references of a cache template

`registerStemcellDirectorRef` and `deregisterStemcellDirectorRef` of
`cpi/handlers/stemcell_refs.go`, and `destroyTemplateVM` of `delete_stemcell.go`, as programs that
share one template.  A registration adds a Director to the references in the description.  A
deregistration removes it, and the one that removes the last stamps a tag, gives up the lock and
destroys the template; a call that finds the tag takes the destroy up again.

The body of a call runs under the lock of the VM.  Everything between two steps of a process is up
to the others: a process may crash, a read or a write may fail, the answer to a write may be lost,
and PVE may delete the VM long after it was asked to, in a task.

What the state remembers besides the template is for the theorems: who registered and has not called
deregister since (`live`), which calls are between two points of theirs (`calls`), and every destroy
with the Directors that were live then (`log`).

The lock is a cluster lock and is taken to be exclusive here: while a process holds it, no other one
is between its read and its write.  What that is worth is the subject of `Lock.Exclusion`.

A deregistration ends its body with a decision, and the decision is carried out after the lock is
released.  That order is in the source for a reason (a destroy takes long, and a lock has an
expiry), and it is what makes the design delicate.
-/
import PveCpi.Stemcell.Provenance
import PveCpi.Vm.Ownership
import PveCpi.Lib.Interleave

namespace Stemcell

open Vm (Text Tag Casing parseTagsField joinTags sanitizeTagValue stemcellCacheTag)
open Lib.Interleave (Prog Sys)

/-! ## 1. Tags and references -/

def unknownDirectorRef : Ref := "unknown-director".toList
def stemcellDestroyPendingTag : Tag := "bosh-destroy-pending".toList
def directorTagPrefix : Tag := "director--".toList

/-- `directorRefOrSentinel`. -/
def directorRefOrSentinel (directorUUID : Text) : Ref :=
  if directorUUID.isEmpty then unknownDirectorRef else directorUUID

/-- `directorTagFor`. -/
def directorTagFor (ref : Ref) : Tag := directorTagPrefix ++ sanitizeTagValue ref

/-- `stringSliceEnsure`. -/
def stringSliceEnsure (tags : List Tag) (tag : Tag) : List Tag × Bool :=
  if tags.contains tag then (tags, false) else (tags ++ [tag], true)

/-- `stringSliceRemove`. -/
def stringSliceRemove (tags : List Tag) (tag : Tag) : List Tag × Bool :=
  (tags.filter fun t => decide (t ≠ tag), tags.contains tag)

/-- `removeStringFromSlice`. -/
def removeStringFromSlice (s : List Ref) (want : Ref) : List Ref :=
  s.filter fun v => decide (v ≠ want)

/-- `pve.HasStemcellGenerationMarker`. -/
def hasStemcellGenerationMarker (tags : List Tag) : Bool :=
  tags.any fun t => decide (t = stemcellCacheTag) ||
    (directorTagPrefix.isPrefixOf t && decide (directorTagPrefix.length < t.length))

/-- `dropDirectorTagForKept`; `none` when the tag stays. -/
def dropDirectorTagForKept (L : Casing) (tags : List Tag) (dropTag : Tag)
    (remainingRefs : List Ref) : Option (List Tag) :=
  if remainingRefs.any fun ref => L.equalFold (directorTagFor ref) dropTag then none
  else if tags.any fun t => L.equalFold t dropTag then
    let kept := tags.filter fun t => !L.equalFold t dropTag
    if hasStemcellGenerationMarker kept then some kept
    else some (stringSliceEnsure kept stemcellCacheTag).1
  else none

/-! ## 2. Effects

Reads, writes and the lock are effects; so are the beginning and the end of a call, which only the
history sees. -/

/-- What is stored of the template. -/
structure Template where
  description : Description
  tags : Text

/-- A write of the config: the fields it sets. -/
structure Write where
  description : Option Description
  tags : Option Text

/-- The template after a write. -/
def Template.apply (t : Template) (w : Write) : Template :=
  { description := w.description.getD t.description, tags := w.tags.getD t.tags }

/-- Who reads the config under the lock. -/
inductive Caller
  | register (ref : Ref)
  | deregister (ref : Ref)

/-- How the body of a call ended. -/
inductive BodyEnd
  | nothing
  | registered (ref : Ref)
  | destroys (ref : Ref)

/-- Why a config could not be read. -/
inductive ReadFault
  | notFound
  | other
deriving DecidableEq

/-- What PVE says to a delete: the VM is not there, it was deleted, a task will do it, an error that
is retried, or another one. -/
inductive DeleteAnswer
  | gone
  | deleted
  | task
  | transient
  | failed
deriving DecidableEq

/-- The points where other processes can act.  `fire` is a step of PVE. -/
inductive Effect
  | lock
  | unlock (how : BodyEnd)
  | config (who : Caller)
  | update (w : Write)
  | delete (ref : Ref)
  | await
  | returned (registered : Option Ref)
  | fire (n : Nat)

/-- The answer to an effect. -/
abbrev Answer : Effect → Type
  | .lock => Bool
  | .unlock _ => Unit
  | .config _ => Except ReadFault Template
  | .update _ => Bool
  | .delete _ => DeleteAnswer
  | .await => Bool
  | .returned _ => Unit
  | .fire _ => Unit

abbrev Call := Prog Effect Answer

/-- Perform one effect. -/
def perform (e : Effect) : Call (Answer e) := Prog.perform e

/-! ## 3. The calls

The bodies are pure functions of the template (`registerWrite`, `deregisterWrite`), with the effects
around them. -/

/-- The errors of the calls. -/
inductive Fault
  | lock
  | templateGone
  | readConfig
  | merge (err : MergeError)
  | tooLarge
  | write
  | destroy (resumed : Bool)
deriving DecidableEq

/-- What `registerStemcellDirectorRef` writes to the template it read; `none` when there is nothing
to write.  `tooLarge` is `checkStemcellDescriptionSize`. -/
def registerWrite (L : Casing) (tooLarge : Description → Bool) (ref : Ref) (t : Template) :
    Except Fault (Option Write) :=
  let currentTags := parseTagsField t.tags
  let prov := (parseStemcellProvenanceFromDescription L t.description).getD {}
  let refAdded := !prov.directorRefs.contains ref
  let prov := if refAdded then { prov with directorRefs := prov.directorRefs ++ [ref] } else prov
  match mergeProvenanceIntoDescription t.description prov with
  | .error err => .error (.merge err)
  | .ok newDesc =>
    if refAdded && tooLarge newDesc then .error .tooLarge
    else
      let ensured := stringSliceEnsure currentTags (directorTagFor ref)
      let removed := stringSliceRemove ensured.1 stemcellDestroyPendingTag
      if !refAdded && !ensured.2 && !removed.2 then .ok none
      else
        .ok (some {
          description := if refAdded then some newDesc else none
          tags := if ensured.2 || removed.2 then some (joinTags removed.1) else none })

/-- The body of `registerStemcellDirectorRef`. -/
def registerBody (L : Casing) (tooLarge : Description → Bool) (ref : Ref) :
    Call (Except Fault Unit) := do
  match ← perform (.config (.register ref)) with
  | .error .notFound => return .error .templateGone
  | .error .other => return .error .readConfig
  | .ok t =>
    match registerWrite L tooLarge ref t with
    | .error err => return .error err
    | .ok none => return .ok ()
    | .ok (some w) =>
      if ← perform (.update w) then return .ok () else return .error .write

/-- `withVMIDLock`: the body runs under the lock, and `how` says how it ended. -/
def withVMIDLock {α : Type} (body : Call (Except Fault α)) (how : Except Fault α → BodyEnd) :
    Call (Except Fault α) := do
  if ← perform .lock then
    let r ← body
    perform (.unlock (how r))
    return r
  else return .error .lock

/-- `registerStemcellDirectorRef`. -/
def registerStemcellDirectorRef (L : Casing) (tooLarge : Description → Bool) (directorUUID : Text) :
    Call (Except Fault Unit) :=
  let ref := directorRefOrSentinel directorUUID
  withVMIDLock (registerBody L tooLarge ref) fun
    | .ok _ => .registered ref
    | .error _ => .nothing

/-- How the body of a deregistration decides: the template is gone, it stays, or it is to be
destroyed. -/
inductive Decision
  | gone
  | keep (remaining : List Ref)
  | destroy (resumed : Bool)
deriving DecidableEq

/-- What `deregisterStemcellDirectorRefWith` decides about the template it read and writes to it,
with the one option that `delete_stemcell` sets, the tag to drop. -/
def deregisterWrite (L : Casing) (ref : Ref) (t : Template) :
    Except Fault (Decision × Option Write) :=
  let currentTags := parseTagsField t.tags
  if currentTags.contains stemcellDestroyPendingTag then .ok (.destroy true, none)
  else
    match parseStemcellProvenanceFromDescription L t.description with
    | none => .ok (.keep [], none)
    | some prov =>
      let updatedRefs := removeStringFromSlice prov.directorRefs ref
      if updatedRefs.isEmpty then
        let stamped := stringSliceEnsure currentTags stemcellDestroyPendingTag
        .ok (.destroy false,
          if stamped.2 then some ⟨none, some (joinTags stamped.1)⟩ else none)
      else
        match mergeProvenanceIntoDescription t.description
          { prov with directorRefs := updatedRefs } with
        | .error err => .error (.merge err)
        | .ok newDesc =>
          let kept := dropDirectorTagForKept L currentTags (directorTagFor ref) updatedRefs
          .ok (.keep updatedRefs, some ⟨some newDesc, kept.map joinTags⟩)

/-- The body of `deregisterStemcellDirectorRefWith`. -/
def deregisterBody (L : Casing) (ref : Ref) : Call (Except Fault Decision) := do
  match ← perform (.config (.deregister ref)) with
  | .error .notFound => return .ok .gone
  | .error .other => return .error .readConfig
  | .ok t =>
    match deregisterWrite L ref t with
    | .error err => return .error err
    | .ok (decision, none) => return .ok decision
    | .ok (decision, some w) =>
      if ← perform (.update w) then return .ok decision else return .error .write

/-- `DeleteQemu` with the retries around it. -/
def deleteQemu (ref : Ref) : Nat → Call DeleteAnswer
  | 0 => perform (.delete ref)
  | tries + 1 => do
    match ← perform (.delete ref) with
    | .transient => deleteQemu ref tries
    | answer => return answer

/-- `destroyTemplateVM`, for a call that removes `ref`. -/
def destroyTemplateVM (ref : Ref) (tries : Nat) : Call Bool := do
  match ← deleteQemu ref tries with
  | .gone | .deleted => return true
  | .transient | .failed => return false
  | .task => perform .await

/-- `deregisterStemcellDirectorRef`; the answer is what it reports as destroyed and remaining. -/
def deregisterStemcellDirectorRef (L : Casing) (tries : Nat) (directorUUID : Text) :
    Call (Except Fault (Bool × List Ref)) := do
  let ref := directorRefOrSentinel directorUUID
  match ← withVMIDLock (deregisterBody L ref) fun
      | .ok (.destroy _) => .destroys ref
      | _ => .nothing with
  | .error err => return .error err
  | .ok .gone => return .ok (true, [])
  | .ok (.keep remaining) => return .ok (false, remaining)
  | .ok (.destroy resumed) =>
    if ← destroyTemplateVM ref tries then return .ok (true, [])
    else return .error (.destroy resumed)

/-! ## 4. The system -/

/-- Where a call is: its registration has taken effect, or it is going to destroy the template. -/
inductive Stage
  | registered (ref : Ref)
  | dooming (ref : Ref)
deriving DecidableEq

/-- A destroy of the template: by whom, and who was live. -/
structure Destroyed where
  ref : Ref
  live : List Ref
deriving DecidableEq

structure Shared where
  template : Option Template
  lock : Option Nat := none
  /-- The tasks in which PVE is to delete the VM, by the reference of the call. -/
  tasks : List Ref := []
  calls : List (Nat × Stage) := []
  live : List Ref := []
  log : List Destroyed := []
  overlapped : Bool := false

namespace Shared

/-- The references whose registration has taken effect. -/
def held (s : Shared) : List Ref :=
  s.live ++ s.calls.filterMap fun c =>
    match c.2 with
    | .registered r => some r
    | .dooming _ => none

/-- The references of the destroys that are under way. -/
def doomed (s : Shared) : List Ref :=
  s.tasks ++ s.calls.filterMap fun c =>
    match c.2 with
    | .registered _ => none
    | .dooming r => some r

/-- Process `i` is at no stage any more. -/
def leave (s : Shared) (i : Nat) : Shared :=
  { s with calls := s.calls.filter fun c => decide (c.1 ≠ i) }

def enterStage (s : Shared) (i : Nat) (stage : Stage) : Shared :=
  { s with calls := (i, stage) :: s.calls.filter fun c => decide (c.1 ≠ i) }

/-- The lock is given up.  A registration that takes effect while another Director's destroy is
under way is remembered. -/
def unlock (s : Shared) (i : Nat) : BodyEnd → Shared
  | .nothing => { s with lock := none }
  | .registered ref =>
    { s.enterStage i (.registered ref) with
      lock := none, overlapped := s.overlapped || s.doomed.any fun d => decide (d ≠ ref) }
  | .destroys ref => { s.enterStage i (.dooming ref) with lock := none }

/-- The config is read.  A deregistration of a Director that has registered since is remembered. -/
def read (s : Shared) : Caller → Shared
  | .register _ => s
  | .deregister ref => { s with overlapped := s.overlapped || s.held.contains ref }

/-- `UpdateQemuConfig`. -/
def update (s : Shared) (w : Write) : Shared :=
  { s with template := s.template.map fun t => t.apply w }

/-- The VM is deleted. -/
def delete (s : Shared) (ref : Ref) : Shared :=
  match s.template with
  | none => s
  | some _ => { s with template := none, log := ⟨ref, s.live⟩ :: s.log }

end Shared

/-- What the code does not decide: everything works, the request fails, its answer is lost, or PVE
starts a task for it. -/
inductive Choice
  | ok
  | fail
  | transient
  | lost (retried : Bool)
  | task
  | lostTask (retried : Bool)
deriving DecidableEq

/-- A wait for the lock ends with the lock or with an error. -/
def execLock (i : Nat) (ch : Choice) (s : Shared) : Option (Bool × Shared) :=
  if ch = .fail then some (false, s)
  else if s.lock = none then some (true, { s with lock := some i }) else none

/-- What a read answers. -/
def execConfig (who : Caller) (ch : Choice) (s : Shared) : Except ReadFault Template × Shared :=
  if ch = .fail then (.error .other, s)
  else
    match s.template with
    | none => (.error .notFound, s)
    | some t => (.ok t, s.read who)

/-- What a write does and answers. -/
def execUpdate (w : Write) (ch : Choice) (s : Shared) : Bool × Shared :=
  match ch with
  | .fail => (false, s)
  | .lost _ => (false, s.update w)
  | _ => (s.template.isSome, s.update w)

/-- What a delete does and answers. -/
def execDelete (ref : Ref) (ch : Choice) (s : Shared) : DeleteAnswer × Shared :=
  match ch with
  | .fail => (.failed, s)
  | .transient => (.transient, s)
  | .ok => if s.template.isNone then (.gone, s) else (.deleted, s.delete ref)
  | .lost retried => (if retried then .transient else .failed, s.delete ref)
  | .task => if s.template.isNone then (.gone, s) else (.task, { s with tasks := ref :: s.tasks })
  | .lostTask retried =>
    (if retried then .transient else .failed, { s with tasks := ref :: s.tasks })

/-- A task of PVE ends, with or without the VM deleted. -/
def execFire (n : Nat) (ch : Choice) (s : Shared) : Shared :=
  match s.tasks[n]? with
  | none => s
  | some ref =>
    if ch = .fail then { s with tasks := s.tasks.eraseIdx n }
    else { s.delete ref with tasks := s.tasks.eraseIdx n }

/-- What an effect of process `i` does. -/
def exec (i : Nat) (e : Effect) (ch : Choice) (s : Shared) : Option (Answer e × Shared) :=
  match e with
  | .lock => execLock i ch s
  | .unlock how => some ((), s.unlock i how)
  | .config who => some (execConfig who ch s)
  | .update w => some (execUpdate w ch s)
  | .delete ref => some (execDelete ref ch s)
  | .await => some (decide (ch ≠ .fail), s)
  | .returned registered => some ((), { s.leave i with live := registered.toList ++ s.live })
  | .fire n => some ((), execFire n ch s)

/-- The calls, and PVE working on a task. -/
inductive Op
  | register (directorUUID : Text)
  | deregister (directorUUID : Text) (tries : Nat)
  | worker (n : Nat)

/-- A call runs to its end, and then it returns. -/
def prog (L : Casing) (tooLarge : Description → Bool) : Op → Call Unit
  | .register directorUUID => do
    let r ← registerStemcellDirectorRef L tooLarge directorUUID
    perform (.returned
      (if r.isOk then some (directorRefOrSentinel directorUUID) else none))
  | .deregister directorUUID tries => do
    let _ ← deregisterStemcellDirectorRef L tries directorUUID
    perform (.returned none)
  | .worker n => perform (.fire n)

/-- A Director that calls deregister is not live from then on. -/
def enter : Op → Shared → Shared
  | .deregister directorUUID _, s =>
    { s with live := s.live.filter fun r => decide (r ≠ directorRefOrSentinel directorUUID) }
  | _, s => s

/-- Any number of processes of any Directors on one template. -/
abbrev system (L : Casing) (tooLarge : Description → Bool) : Sys where
  σ := Shared
  E := Effect
  Ans := Answer
  Ch := Choice
  L := Unit
  Op := Op
  exec := exec
  prog op _ := some (prog L tooLarge op)
  enter _ op s := enter op s
  halt i s := { s.leave i with lock := if s.lock = some i then none else s.lock }
  boot := ()

end Stemcell
