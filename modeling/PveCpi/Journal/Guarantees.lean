/-
# What holds in every run of the journal

The statements below are about every configuration that any number of processes can reach from
a namespace just enrolled, through any interleaving of the calls of `Op`, with crashes and failed
writes in between.

Each section has one result, and none of them does an induction over runs.  What holds of one state
is read off the invariant (`Run.inv`); what relates two states is a relation that every guarantee
keeps (`Run.rel`); what concerns one process is its local assertion (`Run.loc`).

* §2  One open generation of an agent: `Inv.generation`, through the index.
* §3  Evidence is only appended: `History` along the run.
* §4  Retries: `RetrySafe` of every record, and where an attempt can come from.
* §5  Fencing: the log of durable writes and the epochs in it.
* §6  The gate: the history of a resumed handle, from its local assertion.
* §7  Planning: the planning clause of the invariant, and the call clause.

The witnesses are moments of two runs, which are evaluated once each.
-/
import PveCpi.Journal.Safety

namespace Journal

open Lib.Interleave (Config Act Reach StepTo Protocol runActs reach_of_runActs)

variable {a : Authority} {c c' : Config journalSys}

/-! ## 1. Runs -/

theorem Run.inv (h : Run a c) : Inv c.shared := h.ok.inv

theorem Run.reach (h : Run a c) (hr : Reach c c') : Run a c' := Relation.ReflTransGen.trans h hr

/-- What a process knows between two calls, in a run. -/
theorem Run.loc (h : Run a c) {i : Nat} {l : Local} (hl : c.actor i = .idle l) :
    LocOk i l c.shared := by
  have hact := h.ok.actors i
  rw [hl] at hact
  exact hact c.shared h.inv Relation.ReflTransGen.refl

/-- One step does what its process guarantees, or nothing. -/
theorem Run.step (h : Run a c) (hs : StepTo c c') :
    c'.shared = c.shared ∨ ∃ i, Guar i c.shared c'.shared := by
  obtain ⟨act, hact⟩ := hs
  rcases (h.ok.next hact).2 with heq | hg
  · exact Or.inl heq
  · exact Or.inr ⟨act.who, hg⟩

/-- A relation that every guarantee keeps holds between any two moments of a run. -/
theorem Run.rel (h : Run a c) (hr : Reach c c') {R : World → World → Prop} (hrefl : ∀ w, R w w)
    (htrans : ∀ s t u, Inv s → R s t → R t u → R s u)
    (hG : ∀ i s t, Inv s → Guar i s t → R s t) : R c.shared c'.shared :=
  Protocol.Ok.reach_rel (P := journalProtocol) hrefl htrans hG h.ok hr

/-! ### Three runs

In the first run one mutation of an allocation is written down, and its attempt is given up and
begun again.  In the second an allocation is ended, another process makes the VM of another agent,
and then the first agent gets its next VM: its planning callback runs beside the ended record and
the other agent's record.  In the third a VM is lost track of, and another process resumes its
record.  The runs show that the hypotheses of the results below are met. -/

def sampleDigest : String := "aaaaaaaaaaaaaaaaaaaaaaaaaaaaaaaaaaaaaaaaaaaaaaaaaaaaaaaaaaaaaaaa"

def sampleEpoch : String := "00000001-0000-4000-8000-000000000000"

def sampleID : String := "00000002-0000-4000-8000-000000000000"

def otherID : String := "00000003-0000-4000-8000-000000000000"

def nextID : String := "00000004-0000-4000-8000-000000000000"

def sampleEnrollment : Enrollment :=
  { clusterID := "cluster", authorityID := "operator", auditID := "audit",
    completeHistoricalAudit := true, previousWriterFenced := true }

def sampleAuthority : Authority :=
  { version := version, «namespace» := "director", epoch := sampleEpoch,
    enrollment := sampleEnrollment }

def sampleIntent (plan : String) : Intent :=
  { intentFingerprint := sampleDigest, policyFingerprint := sampleDigest, planVersion := 1,
    plan := plan }

def samplePlan : VMPlanFunc :=
  { run := fun _ _ => pure (.ok (sampleIntent "{}")), readOnly := fun _ _ => trivial }

/-- The record of the sample agent, made for `intent` at time 5. -/
def sampleRecord (intent : Intent) : Record :=
  { version := version, id := sampleID, «namespace» := "director", clusterID := "cluster",
    authorityEpoch := sampleEpoch, kind := .vm, agentID := "agent", intent := intent,
    attempts := [{ number := 0, plan := initialPlan intent }], state := .planned, createdAt := 5,
    updatedAt := 5 }

/-! #### The first run -/

/-- An intent with the frozen membership that a retry asks for. -/
def retryIntent : Intent := { sampleIntent "{}" with frozenInputsFingerprint := sampleDigest }

/-- The mutation that is going to be made, and what it is charged. -/
def sampleStep : Step :=
  { id := "clone", kind := "clone", target := { node := "pve1" }, state := .planned,
    charges := [{ backing := "pool", plannedBytes := 4, acquiredBytes := 0,
                  outstandingBytes := 4 }] }

/-- The mutation is written down. -/
def sampleStepped : Record :=
  { sampleRecord retryIntent with steps := [sampleStep], updatedAt := 6 }

/-- The audit that closes attempt 0 and admits attempt 1: nothing was submitted. -/
def sampleAudit : AttemptVerification :=
  { evidenceID := "audit", complete := true, absenceVerified := true,
    artifactDispositionVerified := true, noSubmissionVerified := true }

/-- The second attempt has begun. -/
def sampleRetried : Record :=
  { sampleStepped with
    attempts := [
      { number := 0, plan := initialPlan retryIntent, completion := some sampleAudit },
      { number := 1, plan := initialPlan retryIntent, admission := some sampleAudit }]
    verifications := [sampleAudit.toVerification]
    updatedAt := 7 }

/-- `n` effects of process `i`, with one clock reading and one new identifier for all of them. -/
def effects (i n : Nat) (time : Time) (id : String) : List (Act journalSys) :=
  List.replicate n (.run i { time := time, id := id })

/-- One call of process `i` with `n` effects. -/
def oneCall (i : Nat) (o : Op) (n : Nat) (time : Time) (id : String) : List (Act journalSys) :=
  .start i o :: effects i n time id ++ [.finish i]

/-- Up to the mutation that is written down. -/
def sampleStepping : List (Act journalSys) :=
  oneCall 0 (.open "director" "cluster") 1 5 "" ++
    oneCall 0 (.acquireVM "agent" retryIntent 0) 11 5 sampleID ++
    oneCall 0 (.call (.save sampleStepped)) 5 6 ""

def sampleRetry : List (Act journalSys) :=
  oneCall 0 (.call (.beginAttempt (initialPlan retryIntent) sampleAudit)) 5 7 ""

/-- The record on disk under an identifier. -/
def holdsRecord (id : String) (r : Record) (c : Config journalSys) : Bool :=
  c.shared.records.lookup id == some r

theorem lookup_of_holdsRecord {id : String} {r : Record} {c : Config journalSys}
    (h : holdsRecord id r c = true) : c.shared.records.lookup id = some r := by
  rw [holdsRecord, beq_iff_eq] at h
  exact h

theorem exists_of_runActs {as : List (Act journalSys)} {c : Config journalSys}
    {p : Config journalSys → Bool} (h : (runActs as c).any p = true) :
    ∃ c', Reach c c' ∧ p c' = true := by
  obtain ⟨c', hc', hp⟩ := (Option.any_eq_true _ _).mp h
  exact ⟨c', reach_of_runActs hc', hp⟩

theorem retry_evaluated :
    ((runActs sampleStepping (.initial (enrolled sampleAuthority))).any fun c₁ =>
      holdsRecord sampleID sampleStepped c₁ &&
      (runActs sampleRetry c₁).any fun c₂ => holdsRecord sampleID sampleRetried c₂) = true := by
  decide +kernel

theorem retry_run : ∃ c₁ c₂ : Config journalSys, Run sampleAuthority c₁ ∧ Reach c₁ c₂ ∧
    c₁.shared.records.lookup sampleID = some sampleStepped ∧
    c₂.shared.records.lookup sampleID = some sampleRetried := by
  obtain ⟨c₁, h1, hc1⟩ := exists_of_runActs retry_evaluated
  rw [Bool.and_eq_true] at hc1
  obtain ⟨c₂, h2, hc2⟩ := exists_of_runActs hc1.2
  exact ⟨c₁, c₂, h1, h2, lookup_of_holdsRecord hc1.1, lookup_of_holdsRecord hc2⟩

/-! #### A returned record -/

/-- A sample record that was returned, with its one step observed. -/
def sampleReturned : Record :=
  { sampleRecord (sampleIntent "{}") with
    state := .readyToReturn, cid := "100",
    steps := [{ id := "s", kind := "clone", target := { node := "n" }, state := .observed,
                parameters := "" }] }

/-- Evidence of ownership, and the record that was returned observed with it. -/
def sampleOwned : Verification :=
  { evidenceID := "audit", complete := true, ownershipVerified := true }

def sampleObserved : Record :=
  { sampleReturned with state := .observed, verifications := [sampleOwned] }

/-- The returned record is valid, and the direct way is open. -/
theorem sampleReturned_valid : validateRecord sampleReturned = .ok () := by
  decide +kernel

theorem sampleObserved_accepted : validateUpdate sampleReturned sampleObserved = .ok () := by
  decide +kernel

/-! #### The second run -/

/-- The audit at the end of an allocation. -/
def sampleAbsence : Verification :=
  { evidenceID := "absence", complete := true, absenceVerified := true,
    artifactDispositionVerified := true }

/-- Nothing is left of the allocation. -/
def sampleEnded : Record :=
  { sampleRecord (sampleIntent "{}") with
    state := .deleted, verifications := [sampleAbsence], updatedAt := 6 }

/-- The VM of the other agent. -/
def otherRecord : Record :=
  { sampleRecord (sampleIntent "{}") with
    id := otherID, agentID := "other", createdAt := 6, updatedAt := 6 }

/-- The next VM of the first agent. -/
def nextRecord : Record :=
  { sampleRecord (sampleIntent "{}") with id := nextID, createdAt := 7, updatedAt := 7 }

/-- The end of an allocation, the other agent, and the next VM up to its planning callback. -/
def samplePlanning : List (Act journalSys) :=
  oneCall 0 (.open "director" "cluster") 1 5 "" ++
    oneCall 0 (.acquireVM "agent" (sampleIntent "{}") 0) 11 5 sampleID ++
    oneCall 0 (.call (.save sampleEnded)) 5 6 "" ++ oneCall 0 .close 1 6 "" ++
    oneCall 1 (.open "director" "cluster") 1 6 "" ++
    oneCall 1 (.acquireVM "other" (sampleIntent "{}") 0) 12 6 otherID ++
    oneCall 1 .close 1 6 "" ++
    .start 0 (.acquireVMPlanned "agent" samplePlan 0) :: effects 0 14 7 nextID

/-- The second run goes through its two moments. -/
def plannedMoments : Bool :=
  (runActs samplePlanning (.initial (enrolled sampleAuthority))).any fun c₁ =>
    (holdsRecord sampleID sampleEnded c₁ && holdsRecord otherID otherRecord c₁ &&
      (c₁.shared.planning 0).any fun p => p.agentID == "agent") &&
    (runActs (effects 0 7 7 "" ++ [.finish 0]) c₁).any fun c₂ =>
      holdsRecord sampleID sampleEnded c₂ && holdsRecord otherID otherRecord c₂ &&
        holdsRecord nextID nextRecord c₂

theorem plannedMoments_eq : plannedMoments = true := by
  decide +kernel

/-- The two moments of the second run: the callback is running, the VM is acquired. -/
structure PlannedRun (c₁ c₂ : Config journalSys) : Prop where
  planning : Run sampleAuthority c₁ ∧ c₁.shared.records.lookup sampleID = some sampleEnded ∧
    c₁.shared.records.lookup otherID = some otherRecord ∧
    ∃ p, c₁.shared.planning 0 = some p ∧ p.agentID = "agent"
  acquired : Run sampleAuthority c₂ ∧ c₂.shared.records.lookup sampleID = some sampleEnded ∧
    c₂.shared.records.lookup otherID = some otherRecord ∧
    c₂.shared.records.lookup nextID = some nextRecord

theorem planned_run : ∃ c₁ c₂ : Config journalSys, PlannedRun c₁ c₂ := by
  obtain ⟨c₁, h1, hc1⟩ := exists_of_runActs plannedMoments_eq
  simp only [Bool.and_eq_true] at hc1
  obtain ⟨⟨⟨hended1, hother1⟩, hplan⟩, hrest⟩ := hc1
  obtain ⟨p, hp, hagent⟩ := (Option.any_eq_true _ _).mp hplan
  obtain ⟨c₂, h2, hc2⟩ := exists_of_runActs hrest
  simp only [Bool.and_eq_true] at hc2
  obtain ⟨⟨hended2, hother2⟩, hnext⟩ := hc2
  exact ⟨c₁, c₂, {
    planning := ⟨h1, lookup_of_holdsRecord hended1, lookup_of_holdsRecord hother1, p, hp,
      beq_iff_eq.mp hagent⟩
    acquired := ⟨Run.reach h1 h2, lookup_of_holdsRecord hended2, lookup_of_holdsRecord hother2,
      lookup_of_holdsRecord hnext⟩ }⟩

/-! #### The third run -/

def sampleLost : Record :=
  { nextRecord with state := .reconciliationRequired, reason := "task lost", updatedAt := 8 }

/-- The VM is acquired and lost track of. -/
def sampleLosing : List (Act journalSys) :=
  oneCall 0 (.open "director" "cluster") 1 7 "" ++
    oneCall 0 (.acquireVM "agent" (sampleIntent "{}") 0) 11 7 nextID ++
    oneCall 0 (.call (.save sampleLost)) 5 8 ""

/-- Close, and resume in the other process. -/
def sampleResume : List (Act journalSys) :=
  oneCall 0 .close 1 8 "" ++ oneCall 1 (.open "director" "cluster") 1 8 "" ++
    oneCall 1 (.acquire nextID) 3 8 "" ++
    oneCall 1 (.call (.save { sampleLost with reason := "task still lost" })) 5 9 ""

/-- The process holds a resumed handle and saved through it. -/
def resumedCalls (c : Config journalSys) (i : Nat) : Bool :=
  match c.actor i with
  | .idle l => l.handle.any (fun h => h.resumed) && l.log.any fun e => e.ok
  | .running _ => false

/-- The third run goes through its two moments. -/
def lostMoments : Bool :=
  (runActs sampleLosing (.initial (enrolled sampleAuthority))).any fun c₁ =>
    (holdsRecord nextID sampleLost c₁ && decide (Tidy c₁.shared) &&
      decide (MonoClock c₁.shared) && c₁.shared.authority == sampleAuthority) &&
    (runActs sampleResume c₁).any fun c₂ => resumedCalls c₂ 1

theorem lostMoments_eq : lostMoments = true := by
  decide +kernel

/-- The two moments of the third run: the VM is lost, its record is resumed. -/
structure LostRun (c₁ c₂ : Config journalSys) : Prop where
  lost : Run sampleAuthority c₁ ∧ c₁.shared.records.lookup nextID = some sampleLost ∧
    Tidy c₁.shared ∧ MonoClock c₁.shared ∧ c₁.shared.authority = sampleAuthority
  resumed : Run sampleAuthority c₂ ∧ ∃ l h, c₂.actor 1 = .idle l ∧ l.handle = some h ∧
    h.resumed = true ∧ l.log.any (fun e => e.ok) = true

theorem resumed_of_calls {c : Config journalSys} {i : Nat} (h : resumedCalls c i = true) :
    ∃ l hd, c.actor i = .idle l ∧ l.handle = some hd ∧ hd.resumed = true ∧
      l.log.any (fun e => e.ok) = true := by
  unfold resumedCalls at h
  cases hact : c.actor i with
  | running p => rw [hact] at h; cases h
  | idle l =>
    rw [hact] at h
    rw [Bool.and_eq_true] at h
    obtain ⟨hd, hh, hres⟩ := (Option.any_eq_true _ _).mp h.1
    exact ⟨l, hd, rfl, hh, hres, h.2⟩

theorem lost_run : ∃ c₁ c₂ : Config journalSys, LostRun c₁ c₂ := by
  obtain ⟨c₁, h1, hc1⟩ := exists_of_runActs lostMoments_eq
  simp only [Bool.and_eq_true, decide_eq_true_eq, beq_iff_eq] at hc1
  obtain ⟨⟨⟨⟨hlost, htidy⟩, hmono⟩, hauth⟩, hrest⟩ := hc1
  obtain ⟨c₂, h2, hc2⟩ := exists_of_runActs hrest
  exact ⟨c₁, c₂, {
    lost := ⟨h1, lookup_of_holdsRecord hlost, htidy, hmono, hauth⟩
    resumed := ⟨Run.reach h1 h2, resumed_of_calls hc2⟩ }⟩

/-! ## 2. One open generation of an agent

A disk has no agent and no generation; the statement is about the records of VMs. -/

/-- The record still holds its agent's place. -/
structure Record.Open (r : Record) : Prop where
  deleted : r.state ≠ .deleted
  cleaned : r.state ≠ .cleaned
  retained : r.state ≠ .vmDeletedRetained

theorem Record.open_iff {r : Record} : r.Open ↔ generationClosed r.state = false := by
  simp only [generationClosed, terminal, Bool.or_eq_false_iff, beq_eq_false_iff_ne]
  constructor
  · intro h
    exact ⟨⟨h.deleted, h.cleaned⟩, h.retained⟩
  · rintro ⟨⟨h1, h2⟩, h3⟩
    exact ⟨h1, h2, h3⟩

/-- **In every reachable state an agent has at most one open VM record.**  The index maps a key to
one identifier, and every open record stands under the key of its agent: two open records of one
agent are both what the index has there.  The key is a digest, and this direction needs nothing of
it. -/
theorem open_generation_unique (h : Run a c) {id id' : String} {r r' : Record}
    (hr : c.shared.records.lookup id = some r) (hr' : c.shared.records.lookup id' = some r')
    (hk : r.kind = .vm) (hk' : r'.kind = .vm) (hagent : r.agentID = r'.agentID) (ho : r.Open)
    (ho' : r'.Open) : id = id' ∧ r = r' := by
  have h1 := h.inv.generation id r hr hk (Record.open_iff.mp ho)
  have h2 := h.inv.generation id' r' hr' hk' (Record.open_iff.mp ho')
  rw [hagent, h2] at h1
  obtain rfl : id' = id := Option.some.inj h1
  exact ⟨rfl, Option.some.inj (hr.symm.trans hr')⟩

theorem open_generation_unique_sample : ∃ c : Config journalSys, Run sampleAuthority c ∧
    c.shared.records.lookup sampleID = some sampleEnded ∧ ¬sampleEnded.Open ∧
    c.shared.records.lookup otherID = some otherRecord ∧ otherRecord.Open ∧
    c.shared.records.lookup nextID = some nextRecord ∧ nextRecord.Open ∧
    ∀ id' r', c.shared.records.lookup id' = some r' → r'.kind = .vm →
      nextRecord.agentID = r'.agentID → r'.Open → nextID = id' ∧ nextRecord = r' := by
  obtain ⟨_, c₂, hs⟩ := planned_run
  obtain ⟨hrun, hended, hother, hnext⟩ := hs.acquired
  have hopen : nextRecord.Open := ⟨nofun, nofun, nofun⟩
  refine ⟨c₂, hrun, hended, fun h => h.deleted rfl, hother, ⟨nofun, nofun, nofun⟩, hnext, hopen,
    ?_⟩
  intro id' r' hr' hk ha ho
  exact open_generation_unique hrun hnext hr' rfl hk ha hopen ho

/-! ## 3. Evidence is only appended

`History` compares what is on disk at two moments, so the compaction of plans is behind it: a record
that has been stored once does not change by being stored again. -/

/-- Every record of the first state is in the second, later in its history. -/
def Extended (s t : World) : Prop :=
  ∀ id r, s.records.lookup id = some r → ∃ r', t.records.lookup id = some r' ∧ History r r'

theorem Run.extended (h : Run a c) (hr : Reach c c') : Extended c.shared c'.shared := by
  refine h.rel hr ?_ ?_ ?_
  · intro w id r hl
    exact ⟨r, hl, History.refl r⟩
  · intro s t u hs hst htu id r hl
    obtain ⟨r1, hl1, hh1⟩ := hst id r hl
    obtain ⟨r2, hl2, hh2⟩ := htu id r1 hl1
    exact ⟨r2, hl2, hh1.trans (hs.record id r hl).bounded hh2⟩
  · intro i s t _ hg id r hl
    exact hg.history hl

theorem RecordOk.balanced {w : World} {id : String} {r : Record} (h : RecordOk w id r) :
    ChargesBalanced r := by
  obtain ⟨m, t, hm, rfl⟩ := h.written
  have hm' : ChargesBalanced m := chargesBalanced_of_valid hm
  have hb : ChargesBalanced { m with updatedAt := t } := hm'
  exact hb.stored

/-- **Append-only evidence.**  A record persisted at one moment of a run is there at every later
one, extended: nothing that was recorded is changed or lost.  Each step of any process leaves a
record or rewrites it by a save step, which is a step of its history, and the history is transitive.
That the charges balance is a property of every record on disk and so holds at both ends. -/
theorem evidence_append_only (h : Run a c) (hr : Reach c c') {id : String} {r : Record}
    (hl : c.shared.records.lookup id = some r) :
    ∃ r', c'.shared.records.lookup id = some r' ∧ History r r' ∧ ChargesBalanced r ∧
      ChargesBalanced r' := by
  obtain ⟨r', hl', hh⟩ := h.extended hr id r hl
  exact ⟨r', hl', hh, (h.inv.record id r hl).balanced,
    ((h.reach hr).inv.record id r' hl').balanced⟩

theorem evidence_append_only_sample : ∃ (c c' : Config journalSys) (r' : Record),
    Run sampleAuthority c ∧ Reach c c' ∧
    c.shared.records.lookup sampleID = some sampleStepped ∧
    c'.shared.records.lookup sampleID = some r' ∧ History sampleStepped r' ∧ ChargesBalanced r' ∧
    r'.steps = [sampleStep] ∧ r'.attempts.length = 2 ∧ r'.verifications.length = 1 := by
  obtain ⟨c₁, c₂, h1, h2, hl, hl'⟩ := retry_run
  obtain ⟨r', hr', hh, _, hb⟩ := evidence_append_only h1 h2 hl
  obtain rfl : r' = sampleRetried := Option.some.inj (hr'.symm.trans hl')
  exact ⟨c₁, c₂, _, h1, h2, hl, hr', hh, hb, rfl, rfl, rfl⟩

/-! ## 4. Retries -/

theorem RetryEligible.stored {r : Record} (h : RetryEligible r) : RetryEligible r.stored :=
  ⟨h.cid, h.readyToReturn, h.adopted, h.open_, h.membership⟩

/-- A rewrite that adds an attempt starts from a record that may be retried. -/
theorem Rewrite.eligible {r r' : Record} (h : Rewrite r r')
    (hlt : r.attempts.length < r'.attempts.length) : RetryEligible r := by
  obtain ⟨old, next, t, rfl, rfl, hstep, _⟩ := h
  refine (hstep.eligible ?_).stored
  rw [stored_attempts, stored_attempts, List.length_map, List.length_map] at hlt
  exact hlt

/-- **Retry safety.**  Every record of every reachable state is retry safe; a record appears with
its initial attempt at most, and a step that adds another starts from a record that has no CID and
was neither returned nor adopted nor closed.  The first part is the invariant.  For the rest one
step is looked at: a creation writes a record with one attempt at most, and only `BeginAttempt` adds
one, behind its own check of the record. -/
theorem retry_safety (h : Run a c) :
    (∀ id r, c.shared.records.lookup id = some r → RetrySafe r) ∧
    ∀ c', StepTo c c' → ∀ id r', c'.shared.records.lookup id = some r' →
      (c.shared.records.lookup id = none → r'.attempts.length ≤ 1) ∧
      ∀ r, c.shared.records.lookup id = some r → r.attempts.length < r'.attempts.length →
        RetryEligible r := by
  refine ⟨fun id r hl => (h.inv.record id r hl).retry, ?_⟩
  intro c' hs id r' hl'
  rcases h.step hs with heq | ⟨i, hg⟩
  · rw [heq] at hl'
    constructor
    · intro hn
      rw [hn] at hl'
      cases hl'
    · intro r hl hlt
      obtain rfl : r = r' := Option.some.inj (hl.symm.trans hl')
      exact absurd hlt (lt_irrefl _)
  · constructor
    · intro hn
      exact (hg.created id r' hn hl').2.2
    · intro r hl hlt
      obtain ⟨r'', hl'', hkept⟩ := hg.kept id r hl
      obtain rfl : r'' = r' := Option.some.inj (hl''.symm.trans hl')
      rcases hkept with rfl | ⟨_, hw⟩
      · exact absurd hlt (lt_irrefl _)
      · exact hw.eligible hlt

theorem retry_safety_sample : ∃ (c : Config journalSys) (r : Record), Run sampleAuthority c ∧
    c.shared.records.lookup sampleID = some r ∧ r.attempts.length = 2 ∧ r.steps ≠ [] ∧
    RetrySafe r ∧ ∃ a v, r.attempts[1]? = some a ∧ a.admission = some v ∧ SettledProof v ∧
      v.toVerification ∈ r.verifications ∧ Uncontradicted r 0 v := by
  obtain ⟨_, c₂, h1, h2, _, hl⟩ := retry_run
  have hrun := h1.reach h2
  have hsafe := (retry_safety hrun).1 _ _ hl
  obtain ⟨v, hv, hproof⟩ := hsafe.admitted 0 _ rfl
  exact ⟨c₂, sampleRetried, hrun, hl, rfl, nofun, hsafe, _, v, rfl, hv, hproof⟩

/-! ## 5. Fencing

A Journal carries the epoch it was opened under, and every durable write is logged with that epoch
and with the one on disk.  The log is fenced when the two agree at every write and no epoch comes
back. -/

/-- After an authority write, every later write was made under an epoch that was never in force
before it. -/
theorem fenced_after {w : Written} {new : String} {earlier : List Written}
    (hfile : w.file = .authority new) : ∀ {later : List Written} {epoch : String},
    Fenced epoch (later ++ w :: earlier) →
    epoch ∉ w.disk :: earlier.map (fun x => x.disk) ∧
      ∀ x ∈ later, x.journal = x.disk ∧ x.disk ∉ w.disk :: earlier.map fun x => x.disk := by
  intro later
  induction later with
  | nil =>
    intro epoch h
    obtain ⟨_, hmatch, _⟩ := h
    rw [hfile] at hmatch
    obtain ⟨rfl, hnew⟩ := hmatch
    exact ⟨hnew, fun x hx => by cases hx⟩
  | cons x later ih =>
    intro epoch h
    obtain ⟨hjournal, hmatch, hrest⟩ := h
    obtain ⟨hdisk, hall⟩ := ih hrest
    refine ⟨?_, ?_⟩
    · cases hf : x.file with
      | record id => rw [hf] at hmatch; rw [hmatch]; exact hdisk
      | index => rw [hf] at hmatch; rw [hmatch]; exact hdisk
      | authority e =>
        rw [hf] at hmatch
        obtain ⟨rfl, hnew⟩ := hmatch
        intro hmem
        refine hnew (List.mem_cons_of_mem _ ?_)
        have hsub : w.disk :: earlier.map (fun x => x.disk) ⊆
            (later ++ w :: earlier).map fun x => x.disk := by
          rw [List.map_append, List.map_cons]
          exact List.subset_append_right _ _
        exact hsub hmem
    · intro y hy
      rcases List.mem_cons.mp hy with rfl | hy
      · exact ⟨hjournal, hdisk⟩
      · exact hall y hy

/-- A step that changes the epoch is an authority write on top of the log. -/
theorem epoch_step (h : Run a c) (hs : StepTo c c')
    (hne : c'.shared.authority.epoch ≠ c.shared.authority.epoch) :
    ∃ w new, c'.shared.log = w :: c.shared.log ∧ w.disk = c.shared.authority.epoch ∧
      w.file = .authority new := by
  rcases h.step hs with heq | ⟨i, hg⟩
  · rw [heq] at hne
    exact absurd rfl hne
  · rcases hg.log with ⟨_, heq⟩ | ⟨w, hlog, hdisk⟩
    · exact absurd heq hne
    · have hf := (h.reach (Relation.ReflTransGen.single hs)).inv.fenced
      rw [hlog] at hf
      obtain ⟨_, hmatch, _⟩ := hf
      refine ⟨w, ?_⟩
      cases hfile : w.file with
      | record id => rw [hfile] at hmatch; exact absurd (hmatch.trans hdisk) hne
      | index => rw [hfile] at hmatch; exact absurd (hmatch.trans hdisk) hne
      | authority e => exact ⟨e, hlog, hdisk, rfl⟩

theorem Run.log_suffix (h : Run a c) (hr : Reach c c') : c.shared.log <:+ c'.shared.log := by
  refine h.rel hr (R := fun s t => s.log <:+ t.log) (fun _ => List.suffix_refl _)
    (fun _ _ _ _ h1 h2 => h1.trans h2) ?_
  intro i s t _ hg
  rcases hg.log with ⟨heq, _⟩ | ⟨x, heq, _⟩
  · exact ⟨[], heq.symm⟩
  · rw [heq]
    exact List.suffix_cons x _

/-- **Epoch fencing.**  Once a step has written a new epoch, every durable write that lands after it
was made through a Journal of the epoch then on disk, and that epoch was never in force before the
step; so no Journal opened before it, at any moment `c₀` of the run, writes again.  The log only
grows, so the writes after the step are a front part of it, and the log is fenced: below the
authority write stand the epochs of the past, above it those that came later.  A Journal that was
opened before the step has an epoch of the past. -/
theorem epoch_fencing {c₀ c'' : Config journalSys} (h : Run a c₀) (h₀ : Reach c₀ c)
    (hs : StepTo c c') (hne : c'.shared.authority.epoch ≠ c.shared.authority.epoch)
    (hr : Reach c' c'') :
    ∃ later, c''.shared.log = later ++ c'.shared.log ∧ ∀ w ∈ later, w.journal = w.disk ∧
      w.journal ∉ c.shared.epochs ∧
      ∀ i l j, c₀.actor i = .idle l → l.journal = some j → w.journal ≠ j.epoch := by
  have hrun := h.reach h₀
  have hrun' := hrun.reach (Relation.ReflTransGen.single hs)
  obtain ⟨w, new, hlog, hdisk, hfile⟩ := epoch_step hrun hs hne
  obtain ⟨later, hlater⟩ := hrun'.log_suffix hr
  refine ⟨later, hlater.symm, ?_⟩
  have hfenced := (hrun'.reach hr).inv.fenced
  rw [← hlater, hlog] at hfenced
  have hall := (fenced_after hfile hfenced).2
  have hepochs : c.shared.epochs = w.disk :: c.shared.log.map fun x => x.disk := by
    rw [hdisk]
    rfl
  intro x hx
  obtain ⟨hj, hold⟩ := hall x hx
  rw [← hepochs] at hold
  refine ⟨hj, hj ▸ hold, ?_⟩
  rintro i l j hl hjl heq
  -- The epoch of a Journal was in force when it was opened, and is remembered.
  have hknown := (h.loc hl).journal j hjl
  have hpast : ∀ e ∈ c₀.shared.epochs, e ∈ c.shared.epochs :=
    h.rel h₀ (R := fun s t => ∀ e ∈ s.epochs, e ∈ t.epochs) (fun _ _ he => he)
      (fun _ _ _ _ h1 h2 e he => h2 e (h1 e he)) (fun _ _ _ _ hg => hg.past)
  rw [hj] at heq
  exact hold (heq ▸ hpast _ hknown)

/-- A recovery up to its authority write. -/
def sampleRecovery : List (Act journalSys) :=
  .start 0 (.recoverAuthority sampleEnrollment) :: effects 0 8 5 sampleID

/-- The end of that recovery, and another one through a Journal of the new epoch. -/
def sampleNextRecovery : List (Act journalSys) :=
  effects 0 1 5 "" ++ [.finish 0] ++ oneCall 0 (.open "director" "cluster") 1 5 "" ++
    .start 0 (.recoverAuthority sampleEnrollment) ::
      effects 0 9 5 "00000003-0000-4000-8000-000000000000"

/-- The process is between two calls and has a Journal. -/
def hasJournal (c : Config journalSys) (i : Nat) : Bool :=
  match c.actor i with
  | .idle l => l.journal.isSome
  | .running _ => false

theorem recovery_evaluated :
    ((runActs (oneCall 0 (.open "director" "cluster") 1 5 "")
        (.initial (enrolled sampleAuthority))).any fun c₀ => hasJournal c₀ 0 &&
      (runActs sampleRecovery c₀).any fun c => (runActs (effects 0 1 5 "") c).any fun c' =>
        c'.shared.authority.epoch != c.shared.authority.epoch &&
        (runActs sampleNextRecovery c').any fun c'' =>
          c''.shared.log.length != c'.shared.log.length) = true := by
  decide +kernel

theorem epoch_fencing_sample : ∃ (c₀ c c' c'' : Config journalSys) (l : Local) (j : Authority)
    (later : List Written), Run sampleAuthority c₀ ∧ Reach c₀ c ∧ StepTo c c' ∧ Reach c' c'' ∧
    c'.shared.authority.epoch ≠ c.shared.authority.epoch ∧ c₀.actor 0 = .idle l ∧
    l.journal = some j ∧ c''.shared.log = later ++ c'.shared.log ∧ later ≠ [] ∧
    ∀ w ∈ later, w.journal ≠ j.epoch := by
  obtain ⟨c₀, h0, hc0⟩ := exists_of_runActs recovery_evaluated
  rw [Bool.and_eq_true] at hc0
  obtain ⟨c, h1, hc⟩ := exists_of_runActs hc0.2
  obtain ⟨c', hc', hrest⟩ := (Option.any_eq_true _ _).mp hc
  rw [Bool.and_eq_true, bne_iff_ne] at hrest
  obtain ⟨c'', h2, hlen⟩ := exists_of_runActs hrest.2
  have hstep : StepTo c c' := by
    refine ⟨.run 0 { time := 5, id := "" }, ?_⟩
    obtain ⟨d, hd, hnil⟩ := Option.bind_eq_some_iff.mp hc'
    rw [hd]
    exact hnil
  have hjournal := hc0.1
  unfold hasJournal at hjournal
  cases hact : c₀.actor 0 with
  | running p => rw [hact] at hjournal; cases hjournal
  | idle l =>
    rw [hact] at hjournal
    obtain ⟨j, hj⟩ := Option.isSome_iff_exists.mp hjournal
    obtain ⟨later, hlater, hall⟩ := epoch_fencing h0 h1 hstep hrest.1 h2
    refine ⟨c₀, c, c', c'', l, j, later, h0, h1, hstep, h2, hrest.1, hact, hj, hlater, ?_, ?_⟩
    · rintro rfl
      rw [hlater] at hlen
      simp at hlen
    · intro w hw
      exact (hall w hw).2.2 0 l j hact hj

/-! ## 6. The gate of resumed handles -/

/-- **Resume gate.**  In the history of a resumed handle, every successful call up to the first one
that brings evidence only asks for reconciliation or settles planned steps.  This is the local
assertion of the process that holds the handle.  Every call that it makes goes through `admitSave`
with the gate as it stands, and only a save with evidence lifts it. -/
theorem resume_gate (h : Run a c) {i : Nat} {l : Local} {hd : Handle}
    (hl : c.actor i = .idle l) (hh : l.handle = some hd) (hr : hd.resumed = true) :
    GateHeld l.log :=
  ((h.loc hl).gate hd hh hr).1

theorem resume_gate_sample : ∃ (c : Config journalSys) (l : Local) (hd : Handle),
    Run sampleAuthority c ∧ c.actor 1 = .idle l ∧ l.handle = some hd ∧ hd.resumed = true ∧
      l.log.any (fun e => e.ok) = true ∧ GateHeld l.log := by
  obtain ⟨_, c₂, hs⟩ := lost_run
  obtain ⟨hrun, l, hd, hl, hh, hr, hlog⟩ := hs.resumed
  exact ⟨c₂, l, hd, hrun, hl, hh, hr, hlog, resume_gate hrun hl hh hr⟩

/-! ## 7. Planning -/

/-- **Serialized planning.**  While a callback runs no record appears, its siblings cover the
directory, and its agent has no open generation; a call runs at most one callback, and has written
nothing when its plan was refused.  The index lock is held from the listing to the end of the
callback, and creating a record needs it; the two clauses of the invariant say the rest. -/
theorem serialized_planning (h : Run a c) :
    (∀ i p, c.shared.planning i = some p →
      (∀ c' id, StepTo c c' → c.shared.records.lookup id = none →
        c'.shared.records.lookup id = none) ∧
      (∀ id r, c.shared.records.lookup id = some r →
        ∃ s ∈ p.siblings, s.id = id ∧ History s r) ∧
      ∀ id r, c.shared.records.lookup id = some r → r.kind = .vm → r.agentID = p.agentID →
        ¬r.Open) ∧
    ∀ i, (c.shared.call i).plans ≤ 1 ∧
      ((c.shared.call i).rejected = true → (c.shared.call i).wrote = false) := by
  refine ⟨?_, h.inv.call⟩
  intro i p hp
  have hok := h.inv.planning i p hp
  refine ⟨?_, ?_, ?_⟩
  · intro c' id hs hn
    rcases h.step hs with heq | ⟨k, hg⟩
    · rw [heq]
      exact hn
    · cases hl : c'.shared.records.lookup id with
      | none => rfl
      | some r =>
        -- A record is created under the index lock, which the planner holds.
        obtain ⟨hlock, hquiet, _⟩ := hg.created id r hn hl
        rw [hok.lock] at hlock
        obtain rfl : i = k := Option.some.inj hlock
        rw [hp] at hquiet
        cases hquiet
  · intro id r hr
    obtain ⟨s, hs, hlist⟩ := hok.siblings id r hr
    obtain ⟨r', hr', hh⟩ := hlist.history
    obtain rfl : r' = r := Option.some.inj (hr'.symm.trans hr)
    exact ⟨s, hs, hlist.id_eq, hh⟩
  · intro id r hr hk hagent ho
    have hclosed := hok.closed id r hr hk hagent
    rw [Record.open_iff.mp ho] at hclosed
    cases hclosed

theorem serialized_planning_sample : ∃ (c : Config journalSys) (p : Planning),
    Run sampleAuthority c ∧ c.shared.planning 0 = some p ∧ p.agentID = "agent" ∧
    (c.shared.call 0).plans ≤ 1 ∧
    (∃ s ∈ p.siblings, s.id = otherID ∧ History s otherRecord) ∧
    (∃ s ∈ p.siblings, s.id = sampleID ∧ History s sampleEnded) ∧ sampleEnded.agentID = "agent" ∧
    ∀ id r, c.shared.records.lookup id = some r → r.kind = .vm → r.agentID = p.agentID →
      ¬r.Open := by
  obtain ⟨c₁, _, hs⟩ := planned_run
  obtain ⟨hrun, hended, hother, p, hp, hagent⟩ := hs.planning
  obtain ⟨hplanning, hcall⟩ := serialized_planning hrun
  obtain ⟨_, hsiblings, hclosed⟩ := hplanning 0 p hp
  exact ⟨c₁, p, hrun, hp, hagent, (hcall 0).1, hsiblings _ _ hother, hsiblings _ _ hended, rfl,
    hclosed⟩

end Journal
