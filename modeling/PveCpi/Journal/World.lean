/-
# The shared directory and what a process can do to it

A namespace is one directory: `authority.json`, `index.json`, one file for each record and one
lock file for each name.  Processes share nothing else.  An effect (`Eff`) is one system call or
one atomic replacement of a file; between two effects any other process may act, and a process
may crash before any of them.  `exec` says what each effect does, up to a `Choice` that decides
what the code does not: clock readings, random identifiers, failed reads, and whether a
replacement fails before or after its rename.

The last fields of the state are history: clock readings, stamps, the durable writes in order,
and what each call did.  No program reads them (`observe` and the plan marks only write them or
report to the caller's own history).

## What the step of a write stands for

A write of the source creates a temporary file, writes, syncs, renames and syncs the directory.  One
effect here is all of that.  `Journal.WholeFiles` shows that this is sound: in every interleaving of
the system calls a file is always the whole of one write, and each call replaces one file or none.
What remains of the inner steps is that a write may report a failure although it landed, and that is
one of the three faults of a `Choice`.

Readers take no lock.  `inspect` and `list` may run between any two steps of a writer, and the model
gives them exactly what is on disk at that moment, a different one for each file.
-/
import PveCpi.Journal.Record
import PveCpi.Lib.Interleave
import Mathlib.Data.List.AList

namespace Journal

open Lib.Interleave (Prog)

/-! ## 1. State

`locks` gives the holder of each lock file, `planning` and `call` what each process is doing;
everything else is the directory or its history. -/

/-- The lock files. -/
inductive LockName where
  | index
  | record (id : String)
  deriving DecidableEq, Repr

/-- The generation index: from the key of an agent to its current VM allocation. -/
structure Index where
  version : Int
  activeVMs : AList fun _ : String => String

/-- What a clock reading goes into. -/
inductive Stamp where
  /-- The creation and update time of a record made for this intent. -/
  | create (intent : Intent)
  /-- The update time of this record. -/
  | save (next : Record)

/-- The file a durable write replaced. -/
inductive File where
  | record (id : String)
  | index
  | authority (epoch : String)
  deriving DecidableEq, Repr

/-- One durable write: who wrote, the epoch of the Journal it wrote through, the epoch on disk at
that moment, and the file. -/
structure Written where
  process : Nat
  journal : String
  disk : String
  file : File
  deriving DecidableEq, Repr

/-- A planning callback that is running. -/
structure Planning where
  agentID : String
  siblings : List Record

/-- What the current call of a process has done. -/
structure Call where
  plans : Nat := 0
  rejected : Bool := false
  wrote : Bool := false
  deriving DecidableEq, Repr

/-- The directory, the locks, and the history. -/
structure World where
  authority : Authority
  index : Index
  records : AList fun _ : String => Record
  locks : LockName → Option Nat
  issued : List String
  clock : List Time
  stamps : List (Time × Stamp)
  log : List Written
  planning : Nat → Option Planning
  call : Nat → Call

/-! ## 2. Effects

A blocked `lock` has no step (`exec` is `none`), so a run in which a process waits for ever is a run
in which it takes no step; no fairness is assumed, and no result says that a call ends. -/

/-- Whether and where a system call fails. -/
inductive Fault where
  | none
  | before
  | after
  deriving DecidableEq, Repr

/-- What the code does not decide. -/
structure Choice where
  fault : Fault := .none
  time : Time := 0
  id : String := ""

inductive Eff where
  /-- `waitLock`. -/
  | lock (n : LockName)
  | tryLock (n : LockName)
  /-- `fileLock.close`. -/
  | unlock (n : LockName)
  | readAuthority
  | readIndex
  | readDir
  | readRecord (id : String)
  | lstat (id : String)
  /-- `atomicJSON` of each file, through a Journal of the given epoch. -/
  | writeIndex (journal : String) (idx : Index)
  | writeRecord (journal : String) (r : Record)
  | writeAuthority (journal : String) (a : Authority)
  /-- `time.Now`. -/
  | now (s : Stamp)
  /-- `NewAllocationID`. -/
  | newID
  | planBegin (p : Planning)
  | planEnd
  | planRejected
  | observe (id : String)

/-- The answer of `tryLock`. -/
inductive TryLock where
  | acquired
  | busy
  | failed
  deriving DecidableEq, Repr

/-- What a read of a record file finds. -/
inductive ReadResult where
  | failed
  | missing
  | malformed
  | found (r : Record)

/-- The answer of each effect. -/
def Ans : Eff → Type
  | .lock _ | .unlock _ => Bool
  | .tryLock _ => TryLock
  | .readAuthority => Option Authority
  | .readIndex => Option Index
  | .readDir => Option (List String)
  | .readRecord _ => ReadResult
  | .lstat _ => Option Bool
  | .writeIndex _ _ | .writeRecord _ _ | .writeAuthority _ _ => Bool
  | .now _ => Time
  | .newID => Option String
  | .planBegin _ | .planEnd | .planRejected => Unit
  | .observe _ => Option Record

/-- The effects that only read files. -/
def Eff.isRead : Eff → Prop
  | .readAuthority | .readIndex | .readDir | .readRecord _ | .lstat _ => True
  | _ => False

namespace World

/-- Replace the holder of a lock. -/
def setLock (w : World) (n : LockName) (holder : Option Nat) : World :=
  { w with locks := fun m => if m = n then holder else w.locks m }

/-- A durable write happened. -/
def landed (w : World) (i : Nat) (journal : String) (file : File) : World :=
  { w with
    log := ⟨i, journal, w.authority.epoch, file⟩ :: w.log
    call := fun j => if j = i then { w.call i with wrote := true } else w.call j }

def putIndex (w : World) (i : Nat) (journal : String) (idx : Index) : World :=
  { w.landed i journal .index with index := idx }

def putRecord (w : World) (i : Nat) (journal : String) (r : Record) : World :=
  { w.landed i journal (.record r.id) with records := w.records.insert r.id r.stored }

def putAuthority (w : World) (i : Nat) (journal : String) (a : Authority) : World :=
  { w.landed i journal (.authority a.epoch) with authority := a }

def setPlanning (w : World) (i : Nat) (p : Option Planning) : World :=
  { w with planning := fun j => if j = i then p else w.planning j }

def setCall (w : World) (i : Nat) (c : Call) : World :=
  { w with call := fun j => if j = i then c else w.call j }

/-- An atomic replacement: it lands, fails before the rename, or fails after it. -/
def commit (ch : Choice) (w w' : World) : Option (Bool × World) :=
  match ch.fault with
  | .none => some (true, w')
  | .before => some (false, w)
  | .after => some (false, w')

/-- What a read of a record file finds on this disk. -/
def readRecord (w : World) (id : String) : ReadResult :=
  match w.records.lookup id with
  | none => .missing
  | some r => if r.decodable then .found r else .malformed

end World

/-- Fail without effect, or go on. -/
def orFail {α : Type} (ch : Choice) (failed : α) (w : World) (step : Option (α × World)) :
    Option (α × World) :=
  match ch.fault with
  | .none => step
  | _ => some (failed, w)

/-- One effect of process `i`; `none` while it has to wait. -/
def exec (i : Nat) : (e : Eff) → Choice → World → Option (Ans e × World)
  -- Waiting ends with the lock, or with the context of the caller.
  | .lock n, ch, w => orFail ch false w <|
      if w.locks n = none then some (true, w.setLock n (some i)) else none
  | .tryLock n, ch, w => orFail ch .failed w <| some <|
      if w.locks n = none then (.acquired, w.setLock n (some i)) else (.busy, w)
  -- Closing the file releases the lock even when it reports an error.
  | .unlock n, ch, w =>
      some (decide (ch.fault = .none), if w.locks n = some i then w.setLock n none else w)
  | .readAuthority, ch, w => orFail ch none w <| some (some w.authority, w)
  | .readIndex, ch, w => orFail ch none w <| some (some w.index, w)
  | .readDir, ch, w => orFail ch none w <| some (some w.records.keys, w)
  | .readRecord id, ch, w => orFail ch .failed w <| some (w.readRecord id, w)
  | .lstat id, ch, w => orFail ch none w <| some (some (w.records.lookup id).isSome, w)
  | .writeIndex journal idx, ch, w => w.commit ch (w.putIndex i journal idx)
  | .writeRecord journal r, ch, w =>
      -- A record nested too deep is not encoded, and the file stays as it was.
      if r.decodable then w.commit ch (w.putRecord i journal r) else some (false, w)
  | .writeAuthority journal a, ch, w => w.commit ch (w.putAuthority i journal a)
  | .now s, ch, w =>
      some (ch.time, { w with clock := ch.time :: w.clock, stamps := (ch.time, s) :: w.stamps })
  | .newID, ch, w => orFail ch none w <|
      if allocationIDPattern ch.id && !w.issued.contains ch.id then
        some (some ch.id, { w with issued := ch.id :: w.issued })
      else none
  | .planBegin p, _, w =>
      some ((), (w.setPlanning i (some p)).setCall i
        { w.call i with plans := (w.call i).plans + 1 })
  | .planEnd, _, w => some ((), w.setPlanning i none)
  | .planRejected, _, w => some ((), w.setCall i { w.call i with rejected := true })
  | .observe id, _, w => some (w.records.lookup id, w)

/-- A crash releases every lock of the process. -/
def halt (i : Nat) (w : World) : World :=
  { (w.setPlanning i none).setCall i {} with
    locks := fun n => if w.locks n = some i then none else w.locks n }

end Journal
