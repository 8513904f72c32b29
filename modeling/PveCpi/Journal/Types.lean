/-
# The allocation journal: its data

The journal keeps one record for each allocation, one index from an agent to its current VM
generation, and one authority that says who may write.  This file has the data of
`allocationjournal/types.go` and `attempts.go`, the errors, and the predicates on single values
(`identity.go`).

Conventions of the embedding:

* a text is a `String`: every text that reaches the journal was decoded from JSON and is UTF-8;
* a time is an `Int`, an instant of the wall clock, and `0` is Go's zero time;
* `State` and the kind of a record are Go strings, so each has a case for a string the journal
  does not know;
* byte counts of charges are 64-bit integers, as in the source; other integers are `Int`;
* a nil slice and an empty slice are the same list.

The order of the journal's modules follows a write from the inside out.  `Types`, `Evidence`,
`Attempts` and `Record` are the data and the validators, without a directory; `World` and `Ops` are
the directory and the code that runs on it; `History`, `Retry` and `Readback` say what the
validators admit; `Protocol`, `Effects` and `Rules` set up the rely-guarantee proof that `Saves`,
`Creation`, `Acquisition`, `Recovery` and `Safety` carry out; and `Guarantees`, `Durability`,
`Reindex` and `Shortcut` have the results.

A record here has every field that a validator reads.  `State` is not a set of phases with a table
of transitions only: `validTransition` is the table, but other validators look at the state too, and
`closed_of_validTransition` is the one fact about the table that the rest uses as such.
-/
import PveCpi.Lib.Check
import PveCpi.Lib.Json
import PveCpi.Lib.Text
import PveCpi.Lib.Sha256

namespace Journal

open Lib.Sha256 (sha256Hex)

/-! ## 1. Errors

Callers tell errors apart by the sentinels they wrap, so an error carries the list of them beside
its text. -/

/-- The sentinel errors, and the classes of error that carry no sentinel. -/
inductive ErrKind where
  | notInitialized
  | conflict
  | reconciliationRequired
  | authority
  | corrupt
  | closed
  | durability
  | io
  | plain
  deriving DecidableEq, Repr

/-- The text of a sentinel. -/
def ErrKind.text : ErrKind → String
  | .notInitialized =>
    "journal authority is not initialized; historical provenance audit required"
  | .conflict => "allocation intent conflicts with active generation"
  | .reconciliationRequired => "allocation requires reconciliation"
  | .authority => "journal authority mismatch or recovery required"
  | .corrupt => "invalid journal evidence"
  | .closed => "journal allocation handle is closed"
  | .durability => "journal durability failure; reconcile before mutation"
  | .io => "input/output error"
  | .plain => "journal"

/-- An error: the sentinels it wraps, outermost first, and its text. -/
structure Err where
  kinds : List ErrKind
  text : String
  deriving DecidableEq, Repr

/-- A sentinel returned as it is. -/
def ErrKind.err (k : ErrKind) : Err := ⟨[k], k.text⟩

/-- A sentinel wrapped with a message. -/
def ErrKind.because (k : ErrKind) (message : String) : Err := ⟨[k], k.text ++ ": " ++ message⟩

/-- A sentinel wrapped with a message around another error. -/
def ErrKind.around (k : ErrKind) (message : String) (inner : Err) : Err :=
  ⟨k :: inner.kinds, k.text ++ ": " ++ message ++ ": " ++ inner.text⟩

/-- `errors.Join` of two errors. -/
def Err.join (a b : Err) : Err := ⟨a.kinds ++ b.kinds, a.text ++ "\n" ++ b.text⟩

export Lib.Check (refuse checkWhen checkAll checkFrom refuse_eq_ok checkWhen_eq_ok bind_eq_ok
  check_bind_eq_ok pure_eq_ok checkAll_eq_ok checkFrom_eq_ok)

/-! ## 2. Single values -/

abbrev Time := Int

/-- The journal record schema. -/
def version : Int := 1

/-- The frozen retry-plan schema. -/
def attemptVersion : Int := 1

export Lib.Text (byteLen isSpace nonblank)

/-- A lower-case hexadecimal digit. -/
def isLowerHex (c : Char) : Bool := ('0' ≤ c && c ≤ '9') || ('a' ≤ c && c ≤ 'f')

/-- A SHA-256 digest in hexadecimal. -/
def validFingerprint (s : String) : Bool := s.toList.length == 64 && s.toList.all isLowerHex

/-- What stands at each position of a version 4 UUID. -/
def allocationIDChar (i : Nat) (c : Char) : Bool :=
  if i == 8 || i == 13 || i == 18 || i == 23 then c == '-'
  else if i == 14 then c == '4'
  else if i == 19 then c == '8' || c == '9' || c == 'a' || c == 'b'
  else isLowerHex c

/-- `allocationIDPattern.MatchString`. -/
def allocationIDPattern (s : String) : Bool :=
  s.toList.length == 36 && s.toList.zipIdx.all fun p => allocationIDChar p.2 p.1

/-- The name of a text inside the journal directory. -/
def pathKey (value : String) : String := sha256Hex value

/-- The parked disk identifier derived from an allocation. -/
def diskCorrelationToken (id : String) : Except Err String := do
  refuse (!allocationIDPattern id) ⟨[.plain], "journal: invalid allocation UUID"⟩
  let sum := sha256Hex ("bosh-proxmox-cpi/disk-correlation/v1\x00" ++ id)
  pure ("bpd-" ++ String.ofList (sum.toList.take 16))

/-! ## 3. Records -/

/-- Allocation progress and resource disposition. -/
inductive State where
  | planned
  | submitted
  | observed
  | readyToReturn
  | reconciliationRequired
  | adopted
  | deleted
  | cleaned
  | vmDeletedRetained
  | other (s : String)
  deriving DecidableEq, Repr

/-- The text of a state. -/
def State.text : State → String
  | .planned => "planned"
  | .submitted => "submitted"
  | .observed => "observed"
  | .readyToReturn => "ready_to_return"
  | .reconciliationRequired => "reconciliation_required"
  | .adopted => "adopted"
  | .deleted => "deleted"
  | .cleaned => "cleaned"
  | .vmDeletedRetained => "vm_deleted_retained"
  | .other s => s

/-- What a record allocates. -/
inductive Kind where
  | vm
  | disk
  | other (s : String)
  deriving DecidableEq, Repr

/-- Caller identity, policy identity and the frozen plan. -/
structure Intent where
  intentFingerprint : String := ""
  policyFingerprint : String := ""
  frozenInputsFingerprint : String := ""
  planVersion : Int := 0
  plan : String := ""
  deriving DecidableEq, Repr

/-- The physical resource a step affects. -/
structure Target where
  external : Bool := false
  virtualBytes : UInt64 := 0
  node : String := ""
  storage : String := ""
  backing : String := ""
  vmid : Int := 0
  intendedVolume : String := ""
  deriving DecidableEq, Repr

/-- Planned capacity and its partition into acquired and outstanding. -/
structure Charge where
  backing : String
  domain : String := ""
  plannedBytes : Int64
  acquiredBytes : Int64
  outstandingBytes : Int64
  deriving DecidableEq, Repr

/-- One mutation. -/
structure Step where
  parameters : String := ""
  attempt : Int := 0
  id : String
  kind : String
  target : Target
  state : State
  upid : String := ""
  volIDs : List String := []
  charges : List Charge := []
  deriving DecidableEq, Repr

/-- An attestation about remote resources. -/
structure Verification where
  evidenceID : String
  evidenceJSON : String := ""
  complete : Bool
  ownershipVerified : Bool := false
  vmAbsenceVerified : Bool := false
  absenceVerified : Bool := false
  artifactDispositionVerified : Bool := false
  deriving DecidableEq, Repr

/-- One frozen ranking. -/
structure AttemptPlan where
  version : Int
  policyFingerprint : String
  frozenInputsFingerprint : String
  planVersion : Int
  plan : String
  deriving DecidableEq, Repr

/-- External evidence about everything one attempt may have done. -/
structure AttemptVerification extends Verification where
  outcomesKnown : Bool := false
  noSubmissionVerified : Bool := false
  retainedArtifacts : Bool := false
  deriving DecidableEq, Repr

/-- One attempt: its plan, the proof that closed it and the proof that admitted it. -/
structure Attempt where
  number : Int
  plan : AttemptPlan
  completion : Option AttemptVerification := none
  admission : Option AttemptVerification := none
  deriving DecidableEq, Repr

/-- Immutable allocation intent and append-only mutation evidence. -/
structure Record where
  version : Int
  id : String
  «namespace» : String
  clusterID : String
  authorityEpoch : String
  kind : Kind
  agentID : String := ""
  diskToken : String := ""
  intent : Intent
  attempts : List Attempt := []
  state : State
  steps : List Step := []
  cid : String := ""
  reason : String := ""
  verifications : List Verification := []
  createdAt : Time
  updatedAt : Time
  deriving DecidableEq, Repr

/-- Operator evidence for an enrollment. -/
structure Enrollment where
  clusterID : String
  authorityID : String
  auditID : String
  completeHistoricalAudit : Bool
  previousWriterFenced : Bool
  provenanceIDs : List String := []
  deriving DecidableEq, Repr

/-- Who may write, and since when. -/
structure Authority where
  version : Int
  «namespace» : String
  epoch : String
  enrollment : Enrollment
  deriving DecidableEq, Repr

/-! ## 4. States

Three states close a generation, and two of these are terminal: a VM that was deleted with its
artifacts kept makes room for a new VM of its agent, but its own record goes on. -/

/-- Nothing of the allocation is left. -/
def terminal (s : State) : Bool := s == .deleted || s == .cleaned

/-- The agent may have a new VM. -/
def generationClosed (s : State) : Bool := terminal s || s == .vmDeletedRetained

/-- A state the journal knows. -/
def validState : State → Bool
  | .other _ => false
  | _ => true

/-- Which state may follow which. -/
def validTransition («from» «to» : State) : Bool :=
  if terminal «from» then «from» == «to»
  else if «from» == .vmDeletedRetained then
    «to» == .vmDeletedRetained || «to» == .deleted || «to» == .cleaned
  else if «to» == .vmDeletedRetained then
    «from» == .observed || «from» == .readyToReturn || «from» == .adopted ||
      «from» == .reconciliationRequired
  else if «from» == «to» || «to» == .reconciliationRequired || «to» == .deleted ||
    «to» == .cleaned then
    true
  else match «from» with
    | .planned => «to» == .submitted || «to» == .observed
    | .submitted => «to» == .observed
    | .observed => «to» == .planned || «to» == .submitted || «to» == .readyToReturn
    | .readyToReturn => «to» == .adopted
    | .reconciliationRequired =>
      «to» == .planned || «to» == .submitted || «to» == .observed || «to» == .readyToReturn ||
        «to» == .adopted
    | _ => false

/-- **A closed generation stays closed.**  This is a property of the table, by its cases; with it,
what the index promises about an agent needs no look at the later history of the record it names. -/
theorem closed_of_validTransition {s t : State} (h : validTransition s t = true)
    (hs : generationClosed s = true) : generationClosed t = true := by
  unfold validTransition at h
  split_ifs at h with h1 h2
  · have : s = t := by simpa using h
    exact this ▸ hs
  · simp only [Bool.or_eq_true, beq_iff_eq] at h
    rcases h with (rfl | rfl) | rfl <;> rfl
  all_goals
    simp only [generationClosed, Bool.or_eq_true] at hs
    rcases hs with hs | hs <;> contradiction

end Journal
