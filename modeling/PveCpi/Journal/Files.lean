/-
# The files under the journal

`allocationjournal/filesystem.go` writes a file through a temporary one: create it, write, sync the
file, close it, rename it over the name, sync the directory.  It reads a file in pieces, from an
inode that it compares before and after the open.  Nothing locks readers out, a process may die
between any two system calls, any of them may fail (a rename even after it took place), and the
power may go at any moment.

The directory here is what POSIX promises.  A name leads to an inode, a read sees the inode that was
opened whatever happens to the name, and what a power loss leaves of a name is one of the inodes it
has had since the last sync of the directory; the contents of an inode that was not synced are then
anything.

This module has the code, the directory it runs on, and what each system call keeps (`exec_ok`).

## The history of a name

What a reader may see is a statement about the past, so a disk keeps, for every name, the inodes it
has led to (`past`), and up to which of them the directory was synced (`floor`).  Nothing in the
code reads these.  The k-th version of a file is the k-th inode of its name, and an inode that a
name has led to is never written again: that is the invariant, and it is why the bytes under a name
are always the whole of one write.

A process owns the inode behind its temporary file until it renames it (`Own`).  The names of
temporary files are drawn from 128 random bits, and the model draws none of them twice.
-/
import PveCpi.Lib.Interleave

namespace Files

open Lib.Interleave

/-! ## 1. A directory

Inodes and names are separate, as in a file system: a rename moves a name, not bytes. -/

abbrev Bytes := List UInt8

/-- A file without a name. -/
structure Inode where
  content : Bytes := []
  synced : Bool := false

/-- The directory, and what the statements below say about the calls made so far. -/
structure Disk where
  inodes : Nat → Inode := fun _ => {}
  /-- Inodes from here on have not been used. -/
  used : Nat := 0
  entries : String → Option Nat := fun _ => none
  /-- The inodes a name has had, oldest first. -/
  past : String → List Nat := fun _ => []
  /-- How many of them were there at the last sync of the directory. -/
  floor : String → Nat := fun _ => 0
  /-- The process that created an inode. -/
  owner : Nat → Option Nat := fun _ => none
  /-- The process that drew a temporary name. -/
  drawer : String → Option Nat := fun _ => none
  /-- What a write was asked to put under a name. -/
  asked : List (String × Bytes) := []
  /-- How many inodes the name had when the read of a process began. -/
  began : Nat → Nat := fun _ => 0
  /-- How many inodes the name had after the last rename of a process. -/
  rank : Nat → Nat := fun _ => 0
  /-- The writes that returned nil. -/
  wrote : List (String × Nat × Bytes) := []
  /-- The reads that returned bytes. -/
  reads : List (String × Nat × Bytes) := []

/-- The temporary names. -/
def tempPrefix : String := ".tmp-"

def isTemp (name : String) : Bool := tempPrefix.toList.isPrefixOf name.toList

theorem isTemp_temp (id : String) : isTemp (tempPrefix ++ id) = true := by
  unfold isTemp
  rw [String.toList_append]
  exact List.isPrefixOf_iff_prefix.mpr (List.prefix_append _ _)

/-! ## 2. System calls -/

/-- What `Lstat` says of a name. -/
inductive Stat where
  | failed
  | missing
  | found (inode : Nat)
  deriving DecidableEq

/-- The system calls, and the return of a call as it is remembered. -/
inductive Eff where
  | lstat (name : String)
  | newID
  | openat (name : String) (create : Bool)
  | fstat (inode : Nat)
  | write (inode : Nat) (data : Bytes)
  | syncFile (inode : Nat)
  | close (inode : Nat)
  | rename (old new : String)
  | syncDir
  | remove (name : String)
  | readAt (inode offset : Nat)
  | wrote (name : String) (data : Bytes)
  | got (name : String) (data : Bytes)

/-- The answers; `none` and `false` are errors. -/
abbrev Ans : Eff → Type
  | .lstat _ => Stat
  | .newID => Option String
  | .openat _ _ => Option Nat
  | .write _ _ => Option Nat
  | .readAt _ _ => Option Bytes
  | .fstat _ | .syncFile _ | .close _ | .rename _ _ | .syncDir | .remove _ => Bool
  | .wrote _ _ | .got _ _ => Unit

/-- What the system decides: whether a call fails, whether it took place all the same, how many
bytes it moves, and the identifier that is drawn. -/
structure Choice where
  fails : Bool := false
  landed : Bool := false
  count : Nat := 0
  id : String := ""

namespace Disk

def setInode (d : Disk) (i : Nat) (n : Inode) : Disk :=
  { d with inodes := fun j => if j = i then n else d.inodes j }

def setEntry (d : Disk) (name : String) (i : Option Nat) : Disk :=
  { d with entries := fun n => if n = name then i else d.entries n }

/-- Create a file under a name that is free. -/
def create (d : Disk) (p : Nat) (name : String) : Disk :=
  { d.setEntry name (some d.used) with
    inodes := fun j => if j = d.used then {} else d.inodes j
    used := d.used + 1
    owner := fun j => if j = d.used then some p else d.owner j }

/-- A name takes the inode of another one. -/
def move (d : Disk) (p : Nat) (old new : String) (i : Nat) : Disk :=
  { (d.setEntry old none).setEntry new (some i) with
    past := fun n => if n = new then d.past n ++ [i] else d.past n
    rank := fun q => if q = p then (d.past new).length + 1 else d.rank q }

end Disk

/-- One system call of process `p`. -/
def exec (p : Nat) : (e : Eff) → Choice → Disk → Option (Ans e × Disk)
  | .lstat name, ch, d => some
      (if ch.fails then .failed else match d.entries name with
        | none => .missing
        | some i => .found i, d)
  | .newID, ch, d =>
    if ch.fails then some (none, d)
    -- An identifier has 128 random bits: it is never drawn twice.
    else match d.drawer (tempPrefix ++ ch.id) with
      | some _ => none
      | none => some (some ch.id,
          { d with drawer := fun n => if n = tempPrefix ++ ch.id then some p else d.drawer n })
  | .openat name create, ch, d =>
    if ch.fails then some (none, d)
    else match create, d.entries name with
      | false, i => some (i, d)
      | true, none => some (some d.used, d.create p name)
      -- `O_EXCL` refuses a name that is there.
      | true, some _ => some (none, d)
  | .fstat _, ch, d => some (!ch.fails, d)
  | .write i data, ch, d => some
      (if ch.fails then none else some (min ch.count data.length),
        d.setInode i { content := (d.inodes i).content ++ data.take ch.count, synced := false })
  | .syncFile i, ch, d =>
    if ch.fails then some (false, d)
    else some (true, d.setInode i { d.inodes i with synced := true })
  | .close _, ch, d => some (!ch.fails, d)
  | .rename old new, ch, d =>
    match d.entries old with
    | none => some (false, d)
    | some i =>
      if ch.fails && !ch.landed then some (false, d) else some (!ch.fails, d.move p old new i)
  | .syncDir, ch, d =>
    if ch.fails then some (false, d)
      else some (true, { d with floor := fun n => (d.past n).length })
  | .remove name, ch, d => if ch.fails then some (false, d) else some (true, d.setEntry name none)
  | .readAt i offset, ch, d => some
      (if ch.fails then none else some (((d.inodes i).content.drop offset).take (ch.count + 1)), d)
  | .wrote name data, _, d => some ((), { d with wrote := (name, d.rank p, data) :: d.wrote })
  | .got name data, _, d => some ((), { d with reads := (name, d.began p, data) :: d.reads })

/-! ## 3. The code

Each function is cut at its system calls.  Whatever fails, the code goes on as the source does: it
closes, removes the temporary file, and returns the error. -/

/-- The errors, by what the callers tell apart. -/
inductive Err where
  /-- A system call failed, or a file was not private. -/
  | os
  /-- `ErrReconciliationRequired`: the file changed during the open. -/
  | changed
  /-- The file is larger than a record may be. -/
  | corrupt
  /-- The record is larger than a file may be. -/
  | tooLarge
  /-- The reads went on for longer than the bound of the model. -/
  | unfinished
  deriving DecidableEq

abbrev Run := Prog Eff Ans

def sys (e : Eff) : Run (Ans e) := Prog.perform e

/-- `openPrivate`: the inode must be the one the name had before. -/
def openPrivate (name : String) (create : Bool) : Run (Except Err Nat) := do
  let prior ← sys (.lstat name)
  if prior = .failed then pure (.error .os)
  else
    match ← sys (.openat name create) with
    | none => pure (.error .os)
    | some i =>
      if !(← sys (.fstat i)) then
        let _ ← sys (.close i)
        pure (.error .os)
      else if prior = .missing ∨ prior = .found i then pure (.ok i)
      else
        let _ ← sys (.close i)
        pure (.error .changed)

def readRetries : Nat := 3

/-- The open of `readEnvelope`, tried again while the file changes. -/
def openRetrying (name : String) : Nat → Run (Except Err Nat)
  | 0 => openPrivate name false
  | left + 1 => do
    match ← openPrivate name false with
    | .error .changed => openRetrying name left
    | r => pure r

/-- `8 << 20`. -/
def maxRecordBytes : Nat := 8388608

/-- `io.ReadAll` of a reader that ends one byte past the limit, for at most `rounds` reads. -/
def readAll (i : Nat) : Nat → Bytes → Run (Except Err Bytes)
  | 0, _ => pure (.error .unfinished)
  | rounds + 1, data =>
    if maxRecordBytes < data.length then pure (.ok data)
    else do
      match ← sys (.readAt i data.length) with
      | none => pure (.error .os)
      | some chunk =>
        if chunk = [] then pure (.ok data)
        else readAll i rounds (data ++ chunk.take (maxRecordBytes + 1 - data.length))

/-- `readEnvelope`, up to the bytes that are decoded. -/
def readEnvelope (rounds : Nat) (name : String) : Run (Except Err Bytes) := do
  match ← openRetrying name readRetries with
  | .error e => pure (.error e)
  | .ok i =>
    let read ← readAll i rounds []
    let closed ← sys (.close i)
    match read with
    | .error e => pure (.error e)
    | .ok data =>
      if !closed then pure (.error .os)
      else if maxRecordBytes < data.length then pure (.error .corrupt)
      else pure (.ok data)

/-- The deferred clean-up of a write that did not rename. -/
def abandon (i : Nat) (temp : String) (closed : Bool) : Run (Except Err Unit) := do
  if !closed then
    let _ ← sys (.close i)
    let _ ← sys (.remove temp)
    pure (.error .os)
  else
    let _ ← sys (.remove temp)
    pure (.error .os)

/-- The writes of `atomicEnvelope`, once the temporary file is open. -/
def replace (name temp : String) (i : Nat) (data : Bytes) : Run (Except Err Unit) := do
  if (← sys (.write i data)) ≠ some data.length then abandon i temp false
  else if !(← sys (.syncFile i)) then abandon i temp false
  else if !(← sys (.close i)) then abandon i temp true
  else if !(← sys (.rename temp name)) then abandon i temp true
  else if !(← sys .syncDir) then pure (.error .os)
  else pure (.ok ())

/-- `atomicEnvelope`, of a payload that is encoded. -/
def atomicEnvelope (name : String) (data : Bytes) : Run (Except Err Unit) :=
  if maxRecordBytes < data.length then pure (.error .tooLarge)
  else do
    if (← sys (.lstat name)) = .failed then pure (.error .os)
    else
      match ← sys .newID with
      | none => pure (.error .os)
      | some id =>
        match ← openPrivate (tempPrefix ++ id) true with
        | .error e => pure (.error e)
        | .ok i => replace name (tempPrefix ++ id) i data

/-! ## 4. Processes -/

/-- A call of the journal on its directory. -/
inductive Op where
  | write (name : String) (data : Bytes)
  | read (name : String) (rounds : Nat)

/-- A call, and the moment it returns well. -/
def program : Op → Run Unit
  | .write name data => do
    match ← atomicEnvelope name data with
    | .ok () => sys (.wrote name data)
    | .error _ => pure ()
  | .read name rounds => do
    match ← readEnvelope rounds name with
    | .ok data => sys (.got name data)
    | .error _ => pure ()

/-- The name a call is about. -/
def Op.name : Op → String
  | .write name _ | .read name _ => name

/-- What is remembered of the start of a call. -/
def enter (p : Nat) (o : Op) (d : Disk) : Disk :=
  match o with
  | .write name data => { d with asked := (name, data) :: d.asked }
  | .read name _ => { d with began := fun q => if q = p then (d.past name).length else d.began q }

/-- Any number of processes on one directory. -/
def fileSys : Sys where
  σ := Disk
  E := Eff
  Ans := Ans
  Ch := Choice
  L := Unit
  Op := Op
  exec := exec
  prog o _ := if isTemp o.name then none else some (program o)
  enter := enter
  halt _ d := d
  boot := ()

/-! ## 5. Power losses

What survives is chosen per name between the last sync and now; the bytes of an inode that was not
synced are arbitrary. -/

namespace Disk

/-- What is under a name. -/
def file (d : Disk) (name : String) : Option Bytes :=
  (d.entries name).map fun i => (d.inodes i).content

/-- What a power loss may leave.  A name has one of the inodes it had since the last sync of the
directory; an inode that was not synced may hold anything, and so may the temporary names. -/
structure PowerLoss (d d' : Disk) : Prop where
  version : ∀ n, isTemp n = false → ∃ v, d.floor n ≤ v ∧ v ≤ (d.past n).length ∧
    d'.past n = (d.past n).take v ∧ d'.floor n = v ∧ d'.entries n = ((d.past n).take v).getLast?
  inodes : ∀ i, (d.inodes i).synced = true → d'.inodes i = d.inodes i
  used : d'.used = d.used
  drawer : d'.drawer = d.drawer
  asked : d'.asked = d.asked
  wrote : d'.wrote = d.wrote
  reads : d'.reads = []

end Disk

/-- The disks that a history of runs and power losses leads to. -/
inductive Lives : Disk → Prop where
  | fresh : Lives {}
  | cut {d d' : Disk} {c : Config fileSys} (hd : Lives d) (hr : Reach (Config.initial d) c)
      (hl : c.shared.PowerLoss d') : Lives d'

/-! ## 6. What every system call keeps

`Guar` is what a call of one process may do to the history of the names, and `Inv.step` is the part
of the invariant that follows from it.  Each call then has to show what is new about the disk
only. -/

/-- An inode that some file has, or has had. -/
def Placed (d : Disk) (i : Nat) : Prop := ∃ n, isTemp n = false ∧ i ∈ d.past n

/-- The `k`-th file under a name, counted from one, and its bytes. -/
def Version (d : Disk) (n : String) (k : Nat) (data : Bytes) : Prop :=
  0 < k ∧ ∃ i, (d.past n)[k - 1]? = some i ∧ (d.inodes i).content = data

structure Inv (d : Disk) : Prop where
  entries : ∀ n, isTemp n = false → d.entries n = (d.past n).getLast?
  placed : ∀ n i, isTemp n = false → i ∈ d.past n → i < d.used ∧ (d.inodes i).synced = true ∧
    (d.inodes i).content.length ≤ maxRecordBytes ∧ (n, (d.inodes i).content) ∈ d.asked
  floor : ∀ n, isTemp n = false → d.floor n ≤ (d.past n).length
  wrote : ∀ n k data, (n, k, data) ∈ d.wrote → isTemp n = false ∧ k ≤ d.floor n ∧ Version d n k data
  reads : ∀ n b data, (n, b, data) ∈ d.reads → isTemp n = false ∧ ∃ j, b ≤ j ∧ Version d n j data

/-- What process `p` may do in one system call. -/
structure Guar (p : Nat) (d d' : Disk) : Prop where
  used : d.used ≤ d'.used
  owner : ∀ i, i < d.used → d'.owner i = d.owner i
  inodes : ∀ i, i < d.used → (d.owner i ≠ some p ∨ Placed d i) → d'.inodes i = d.inodes i
  placed : ∀ i, i < d.used → d.owner i ≠ some p → Placed d' i → Placed d i
  temps : ∀ n, isTemp n = true → d.drawer n ≠ some p → d'.entries n = d.entries n
  drawer : ∀ n q, d.drawer n = some q → d'.drawer n = some q
  past : ∃ m, isTemp m = false ∧ (∀ n, n ≠ m → d'.past n = d.past n) ∧
    (d'.past m = d.past m ∨ ∃ i, d'.past m = d.past m ++ [i])
  floor : ∀ n, isTemp n = false → d.floor n ≤ d'.floor n
  asked : ∀ x, x ∈ d.asked → x ∈ d'.asked
  began : ∀ q, q ≠ p → d'.began q = d.began q
  rank : ∀ q, q ≠ p → d'.rank q = d.rank q

theorem Guar.past_grows {p : Nat} {d d' : Disk} (h : Guar p d d') (n : String) :
    ∃ more, d'.past n = d.past n ++ more := by
  obtain ⟨m, _, hother, hm⟩ := h.past
  by_cases hn : n = m
  · subst hn
    rcases hm with hm | ⟨i, hm⟩
    · exact ⟨[], by rw [hm, List.append_nil]⟩
    · exact ⟨[i], hm⟩
  · exact ⟨[], by rw [hother n hn, List.append_nil]⟩

/-- The versions of a file stay. -/
theorem Guar.version {p : Nat} {d d' : Disk} (h : Guar p d d') (hd : Inv d) {n : String} {k : Nat}
    {data : Bytes} (hn : isTemp n = false) (hv : Version d n k data) : Version d' n k data := by
  obtain ⟨hk, i, hi, hdata⟩ := hv
  obtain ⟨more, hmore⟩ := h.past_grows n
  have hmem : i ∈ d.past n := List.mem_of_getElem? hi
  refine ⟨hk, i, ?_, ?_⟩
  · rw [hmore, List.getElem?_append_left (List.getElem?_eq_some_iff.mp hi).1]
    exact hi
  · rw [h.inodes i (hd.placed n i hn hmem).1 (Or.inr ⟨n, hn, hmem⟩)]
    exact hdata

theorem Guar.refl (p : Nat) (d : Disk) : Guar p d d where
  used := Nat.le_refl _
  owner _ _ := rfl
  inodes _ _ _ := rfl
  placed _ _ _ h := h
  temps _ _ _ := rfl
  drawer _ _ h := h
  past := ⟨"", by decide, fun _ _ => rfl, Or.inl rfl⟩
  floor _ _ := Nat.le_refl _
  asked _ h := h
  began _ _ := rfl
  rank _ _ := rfl

/-- The invariant, once what is new about the disk is in order. -/
theorem Inv.step {p : Nat} {d d' : Disk} (hd : Inv d) (hg : Guar p d d')
    (entries : ∀ n, isTemp n = false → d'.entries n = (d'.past n).getLast?)
    (placed : ∀ n i, isTemp n = false → i ∈ d'.past n → i ∉ d.past n → i < d'.used ∧
      (d'.inodes i).synced = true ∧ (d'.inodes i).content.length ≤ maxRecordBytes ∧
      (n, (d'.inodes i).content) ∈ d'.asked)
    (floor : ∀ n, isTemp n = false → d'.floor n ≤ (d'.past n).length)
    (wrote : ∀ n k data, (n, k, data) ∈ d'.wrote → (n, k, data) ∈ d.wrote ∨
      isTemp n = false ∧ k ≤ d'.floor n ∧ Version d' n k data)
    (reads : ∀ n b data, (n, b, data) ∈ d'.reads → (n, b, data) ∈ d.reads ∨
      isTemp n = false ∧ ∃ j, b ≤ j ∧ Version d' n j data) : Inv d' := by
  refine ⟨entries, ?_, floor, ?_, ?_⟩
  · intro n i hn hi
    by_cases hold : i ∈ d.past n
    · obtain ⟨hlt, hsync, hlen, hask⟩ := hd.placed n i hn hold
      rw [hg.inodes i hlt (Or.inr ⟨n, hn, hold⟩)]
      exact ⟨Nat.lt_of_lt_of_le hlt hg.used, hsync, hlen, hg.asked _ hask⟩
    · exact placed n i hn hi hold
  · intro n k data hw
    rcases wrote n k data hw with hold | hnew
    · obtain ⟨hn, hk, hv⟩ := hd.wrote n k data hold
      exact ⟨hn, Nat.le_trans hk (hg.floor n hn), hg.version hd hn hv⟩
    · exact hnew
  · intro n b data hr
    rcases reads n b data hr with hold | hnew
    · obtain ⟨hn, j, hj, hv⟩ := hd.reads n b data hold
      exact ⟨hn, j, hj, hg.version hd hn hv⟩
    · exact hnew

/-- An inode of process `p` that is no file yet. -/
structure Own (p : Nat) (d : Disk) (i : Nat) : Prop where
  used : i < d.used
  owner : d.owner i = some p
  unplaced : ¬ Placed d i

/-- When process `p` may make a system call. -/
def Allowed (p : Nat) : Eff → Disk → Prop
  | .openat name true, d => isTemp name = true ∧ d.drawer name = some p
  | .write i _, d | .syncFile i, d => Own p d i
  | .rename old new, d => isTemp old = true ∧ isTemp new = false ∧ d.drawer old = some p ∧
      ∀ i, d.entries old = some i → Own p d i ∧ (d.inodes i).synced = true ∧
        (d.inodes i).content.length ≤ maxRecordBytes ∧ (new, (d.inodes i).content) ∈ d.asked
  | .remove name, d => isTemp name = true ∧ d.drawer name = some p
  | .wrote name data, d =>
    isTemp name = false ∧ d.rank p ≤ d.floor name ∧ Version d name (d.rank p) data
  | .got name data, d => isTemp name = false ∧ ∃ j, d.began p ≤ j ∧ Version d name j data
  | _, _ => True

section Calls

variable {p : Nat} {d d' : Disk}

/-- Creating a temporary file: the inode is new, and the name was drawn by this process. -/
theorem create_ok (hd : Inv d) {name : String} (ht : isTemp name = true)
    (hdraw : d.drawer name = some p) : Inv (d.create p name) ∧ Guar p d (d.create p name) := by
  have hg : Guar p d (d.create p name) := by
    refine { Guar.refl p d with used := Nat.le_succ _, owner := ?_, inodes := ?_, temps := ?_ }
    · intro i hi
      exact if_neg (Nat.ne_of_lt hi)
    · intro i hi _
      exact if_neg (Nat.ne_of_lt hi)
    · intro n _ hn
      refine if_neg ?_
      rintro rfl
      exact hn hdraw
  refine ⟨hd.step hg ?_ (fun n i _ h hnot => absurd h hnot) hd.floor (fun _ _ _ h => Or.inl h)
    (fun _ _ _ h => Or.inl h), hg⟩
  intro n hn
  have hne : n ≠ name := by
    rintro rfl
    rw [ht] at hn
    cases hn
  exact (if_neg hne).trans (hd.entries n hn)

theorem setInode_ok (hd : Inv d) {i : Nat} (hi : Own p d i) (x : Inode) :
    Inv (d.setInode i x) ∧ Guar p d (d.setInode i x) := by
  have hg : Guar p d (d.setInode i x) := by
    refine { Guar.refl p d with inodes := ?_ }
    intro j _ hj
    refine if_neg ?_
    rintro rfl
    rcases hj with hj | hj
    · exact hj hi.owner
    · exact hi.unplaced hj
  exact ⟨hd.step hg hd.entries (fun n i _ h hnot => absurd h hnot) hd.floor
    (fun _ _ _ h => Or.inl h) (fun _ _ _ h => Or.inl h), hg⟩

/-- Removing a temporary file touches no version, since versions have names that are not
temporary. -/
theorem remove_ok (hd : Inv d) {name : String} (ht : isTemp name = true)
    (hdraw : d.drawer name = some p) :
    Inv (d.setEntry name none) ∧ Guar p d (d.setEntry name none) := by
  have hg : Guar p d (d.setEntry name none) := by
    refine { Guar.refl p d with temps := ?_ }
    intro n _ hn
    refine if_neg ?_
    rintro rfl
    exact hn hdraw
  refine ⟨hd.step hg ?_ (fun n i _ h hnot => absurd h hnot) hd.floor (fun _ _ _ h => Or.inl h)
    (fun _ _ _ h => Or.inl h), hg⟩
  intro n hn
  have hne : n ≠ name := by
    rintro rfl
    rw [ht] at hn
    cases hn
  exact (if_neg hne).trans (hd.entries n hn)

theorem drawn_ok (hd : Inv d) {name : String} (hfree : d.drawer name = none) :
    Inv { d with drawer := fun n => if n = name then some p else d.drawer n } ∧
      Guar p d { d with drawer := fun n => if n = name then some p else d.drawer n } := by
  refine ⟨⟨hd.entries, hd.placed, hd.floor, hd.wrote, hd.reads⟩, ?_⟩
  refine { Guar.refl p d with drawer := ?_ }
  intro n q hq
  refine (if_neg ?_).trans hq
  rintro rfl
  rw [hfree] at hq
  cases hq

theorem syncDir_ok (hd : Inv d) : Inv { d with floor := fun n => (d.past n).length } ∧
    Guar p d { d with floor := fun n => (d.past n).length } := by
  have hg : Guar p d { d with floor := fun n => (d.past n).length } :=
    { Guar.refl p d with floor := hd.floor }
  exact ⟨hd.step hg hd.entries (fun n i _ h hnot => absurd h hnot) (fun _ _ => Nat.le_refl _)
    (fun _ _ _ h => Or.inl h) (fun _ _ _ h => Or.inl h), hg⟩

/-- A rename puts the whole of the temporary file under the name. -/
theorem move_ok (hd : Inv d) {old new : String} {i : Nat} (ht : isTemp old = true)
    (hnew : isTemp new = false)
    (hdraw : d.drawer old = some p) (hi : Own p d i) (hsync : (d.inodes i).synced = true)
    (hlen : (d.inodes i).content.length ≤ maxRecordBytes)
      (hask : (new, (d.inodes i).content) ∈ d.asked) :
    Inv (d.move p old new i) ∧ Guar p d (d.move p old new i) := by
  have hpast : ∀ n, n ≠ new → (d.move p old new i).past n = d.past n := fun n hn => if_neg hn
  have hpast' : (d.move p old new i).past new = d.past new ++ [i] := if_pos rfl
  have hg : Guar p d (d.move p old new i) := by
    refine { Guar.refl p d with
      placed := ?_, temps := ?_, past := ⟨new, hnew, hpast, Or.inr ⟨i, hpast'⟩⟩, rank := ?_ }
    · rintro j _ hj ⟨n, hn, hmem⟩
      by_cases hnn : n = new
      · subst hnn
        rw [hpast', List.mem_append, List.mem_singleton] at hmem
        rcases hmem with hmem | rfl
        · exact ⟨n, hn, hmem⟩
        · exact absurd hi.owner hj
      · rw [hpast n hnn] at hmem
        exact ⟨n, hn, hmem⟩
    · intro n hn hne
      have h1 : n ≠ new := by
        rintro rfl
        rw [hnew] at hn
        cases hn
      have h2 : n ≠ old := by
        rintro rfl
        exact hne hdraw
      exact (if_neg h1).trans (if_neg h2)
    · intro q hq
      exact if_neg hq
  refine ⟨hd.step hg ?_ ?_ ?_ (fun _ _ _ h => Or.inl h) (fun _ _ _ h => Or.inl h), hg⟩
  · intro n hn
    by_cases hnn : n = new
    · subst hnn
      rw [hpast', List.getLast?_append, List.getLast?_singleton]
      exact if_pos rfl
    · have h2 : n ≠ old := by
        rintro rfl
        rw [ht] at hn
        cases hn
      rw [hpast n hnn, ← hd.entries n hn]
      exact (if_neg hnn).trans (if_neg h2)
  · intro n j hn hmem hold
    by_cases hnn : n = new
    · subst hnn
      rw [hpast', List.mem_append, List.mem_singleton] at hmem
      obtain rfl := hmem.resolve_left hold
      exact ⟨hi.used, hsync, hlen, hask⟩
    · rw [hpast n hnn] at hmem
      exact absurd hmem hold
  · intro n hn
    obtain ⟨more, hmore⟩ := hg.past_grows n
    rw [hmore, List.length_append]
    exact Nat.le_trans (hd.floor n hn) (Nat.le_add_right _ _)

/-- **One system call.**  One case for each call: most leave the disk alone, a write goes to an
inode of its own, and a rename puts a synced inode under the name. -/
theorem exec_ok {e : Eff} {ch : Choice} {a : Ans e} (hd : Inv d) (ha : Allowed p e d)
    (hx : exec p e ch d = some (a, d')) : Inv d' ∧ Guar p d d' := by
  have same : d = d' → Inv d' ∧ Guar p d d' := by
    rintro rfl
    exact ⟨hd, Guar.refl p d⟩
  cases e with
  | lstat | fstat | close | readAt =>
    simp only [exec, Option.some.injEq, Prod.mk.injEq] at hx
    exact same hx.2
  | newID =>
    simp only [exec] at hx
    split at hx
    · cases hx
      exact same rfl
    · split at hx
      · cases hx
      · rename_i hfree
        cases hx
        exact drawn_ok hd hfree
  | openat name create =>
    simp only [exec] at hx
    split at hx
    · cases hx
      exact same rfl
    · split at hx
      · cases hx
        exact same rfl
      · cases hx
        exact create_ok hd ha.1 ha.2
      · cases hx
        exact same rfl
  | write i data =>
    simp only [exec, Option.some.injEq, Prod.mk.injEq] at hx
    obtain ⟨_, rfl⟩ := hx
    exact setInode_ok hd ha _
  | syncFile i =>
    simp only [exec] at hx
    split at hx
    · cases hx
      exact same rfl
    · cases hx
      exact setInode_ok hd ha _
  | rename old new =>
    simp only [exec] at hx
    split at hx
    · cases hx
      exact same rfl
    · rename_i i hold
      obtain ⟨ht, hnew, hdraw, hrest⟩ := ha
      obtain ⟨hi, hsync, hlen, hask⟩ := hrest i hold
      split at hx
      · cases hx
        exact same rfl
      · cases hx
        exact move_ok hd ht hnew hdraw hi hsync hlen hask
  | syncDir =>
    simp only [exec] at hx
    split at hx
    · cases hx
      exact same rfl
    · cases hx
      exact syncDir_ok hd
  | remove name =>
    simp only [exec] at hx
    split at hx
    · cases hx
      exact same rfl
    · cases hx
      exact remove_ok hd ha.1 ha.2
  | wrote name data =>
    simp only [exec, Option.some.injEq, Prod.mk.injEq] at hx
    obtain ⟨_, rfl⟩ := hx
    refine ⟨⟨hd.entries, hd.placed, hd.floor, ?_, hd.reads⟩, { Guar.refl p d with }⟩
    intro n k x hmem
    rcases List.mem_cons.mp hmem with heq | hold
    · cases heq
      exact ha
    · exact hd.wrote n k x hold
  | got name data =>
    simp only [exec, Option.some.injEq, Prod.mk.injEq] at hx
    obtain ⟨_, rfl⟩ := hx
    refine ⟨⟨hd.entries, hd.placed, hd.floor, hd.wrote, ?_⟩, { Guar.refl p d with }⟩
    intro n b x hmem
    rcases List.mem_cons.mp hmem with heq | hold
    · cases heq
      exact ha
    · exact hd.reads n b x hold

end Calls

end Files
