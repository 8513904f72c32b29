/-
# What a save may do to a record

`SaveStep old next` is the step every write of an existing record takes: a plain `Save`, a
`CompleteAttempt` or a `BeginAttempt`, each with the checks of its path.  `History r r'` is what
relates any record to any later version of it: identity and intent are fixed, evidence only
grows, closed attempts are frozen and terminal records do not change.  A save step is a history
step (`SaveStep.history`), and history is transitive (`History.trans`) although the attempt path
reads the update against a doctored old record.

## Why a relation and not the validators

`validateUpdate` is not transitive as it stands: it compares a record with its replacement, and an
attempt transition compares with a copy of the old record in which the attempts and the state are
already the new ones.  A statement about two moments of a run has any number of saves between them.
So the part of the validators that does compose is brought out as `History`, and every save is shown
to be a step of it, the doctored one included.

* §1-2  The relation, reflexive, and transitive on records whose steps belong to their attempts
  (`StepsBounded`).  The bound is needed for the frozen steps: a step of a superseded attempt is
  frozen later only because attempts are not taken away.
* §3  An accepted update, read as propositions (`validateUpdate_iff`), and as a history step.
* §4  The attempt path.
* §5  `SaveStep`, the three ways to write an existing record.
* §6  The relation survives the stamp and the encoder, so it holds between what is on disk.
-/
import PveCpi.Journal.Record
import PveCpi.Lib.Extends

namespace Journal

open Lib (Extends)

/-! ## 1. Growing evidence

`Extends` at three levels: charges in a step, steps in a record, attempts in a record. -/

/-- A charge keeps its identity and its total, and acquires. -/
structure ChargeExtends (c c' : Charge) : Prop where
  backing : c'.backing = c.backing
  domain : c'.domain = c.domain
  planned : c'.plannedBytes = c.plannedBytes
  acquired : c.acquiredBytes ≤ c'.acquiredBytes

/-- A step keeps what it says, and its evidence grows. -/
structure StepExtends (s s' : Step) : Prop where
  id : s'.id = s.id
  kind : s'.kind = s.kind
  target : s'.target = s.target
  parameters : s'.parameters = s.parameters
  attempt : s'.attempt = s.attempt
  upid : s.upid ≠ "" → s'.upid = s.upid
  volIDs : s.volIDs <+: s'.volIDs
  charges_length : s'.charges.length = s.charges.length
  charges : Extends ChargeExtends s.charges s'.charges
  observed : s.state = .observed → s'.state = .observed

/-- An attempt keeps its plan and its admission, and a completion once given. -/
structure AttemptExtends (a a' : Attempt) : Prop where
  number : a'.number = a.number
  plan : a'.plan = a.plan
  admission : a'.admission = a.admission
  completion : ∀ v, a.completion = some v → a'.completion = some v

/-- `r'` is `r` at some later time. -/
structure History (r r' : Record) : Prop where
  version : r'.version = r.version
  id : r'.id = r.id
  namespace_eq : r'.namespace = r.namespace
  clusterID : r'.clusterID = r.clusterID
  authorityEpoch : r'.authorityEpoch = r.authorityEpoch
  kind : r'.kind = r.kind
  agentID : r'.agentID = r.agentID
  diskToken : r'.diskToken = r.diskToken
  intent : r'.intent = r.intent
  createdAt : r'.createdAt = r.createdAt
  verifications : r.verifications <+: r'.verifications
  cid : r.cid ≠ "" → r'.cid = r.cid
  attempts : Extends AttemptExtends r.attempts r'.attempts
  steps : Extends StepExtends r.steps r'.steps
  frozen : ∀ (i : Nat) (s : Step), r.steps[i]? = some s → stepFrozen r s = true →
    r'.steps[i]? = some s
  closed : generationClosed r.state = true → generationClosed r'.state = true
  terminal : terminal r.state = true → r' = r

theorem ChargeExtends.refl (c : Charge) : ChargeExtends c c := ⟨rfl, rfl, rfl, Int64.le_refl _⟩

theorem ChargeExtends.trans (c c' c'' : Charge) (h : ChargeExtends c c')
    (h' : ChargeExtends c' c'') : ChargeExtends c c'' :=
  ⟨h'.backing.trans h.backing, h'.domain.trans h.domain, h'.planned.trans h.planned,
    Int64.le_trans h.acquired h'.acquired⟩

theorem StepExtends.refl (s : Step) : StepExtends s s :=
  ⟨rfl, rfl, rfl, rfl, rfl, fun _ => rfl, List.prefix_refl _, rfl,
    Extends.refl ChargeExtends.refl _, fun h => h⟩

/-- What a step says is fixed field by field, and its charges only grow, so the relation
composes. -/
theorem StepExtends.trans (s s' s'' : Step) (h : StepExtends s s') (h' : StepExtends s' s'') :
    StepExtends s s'' where
  id := h'.id.trans h.id
  kind := h'.kind.trans h.kind
  target := h'.target.trans h.target
  parameters := h'.parameters.trans h.parameters
  attempt := h'.attempt.trans h.attempt
  upid := by
    intro hu
    have h1 := h.upid hu
    exact (h'.upid (h1 ▸ hu)).trans h1
  volIDs := h.volIDs.trans h'.volIDs
  charges_length := h'.charges_length.trans h.charges_length
  charges := h.charges.trans ChargeExtends.trans h'.charges
  observed := fun ho => h'.observed (h.observed ho)

theorem AttemptExtends.refl (a : Attempt) : AttemptExtends a a := ⟨rfl, rfl, rfl, fun _ h => h⟩

theorem AttemptExtends.trans (a a' a'' : Attempt) (h : AttemptExtends a a')
    (h' : AttemptExtends a' a'') : AttemptExtends a a'' :=
  ⟨h'.number.trans h.number, h'.plan.trans h.plan, h'.admission.trans h.admission,
    fun v hv => h'.completion v (h.completion v hv)⟩

theorem History.refl (r : Record) : History r r :=
  ⟨rfl, rfl, rfl, rfl, rfl, rfl, rfl, rfl, rfl, rfl, List.prefix_refl _, fun _ => rfl,
    Extends.refl AttemptExtends.refl _, Extends.refl StepExtends.refl _, fun _ _ h _ => h,
    fun h => h, fun _ => rfl⟩

/-! ## 2. History is transitive -/

/-- Every step of the record belongs to an attempt up to the active one. -/
def StepsBounded (r : Record) : Prop := ∀ s ∈ r.steps, s.attempt ≤ r.activeAttempt

theorem activeAttempt_le {r r' : Record} (h : r.attempts.length ≤ r'.attempts.length) :
    r.activeAttempt ≤ r'.activeAttempt := by
  unfold Record.activeAttempt
  omega

/-- A closed attempt is closed later, or superseded. -/
theorem closed_or_superseded {r r' : Record} (h : Extends AttemptExtends r.attempts r'.attempts)
    (hc : attemptClosed r = true) :
    attemptClosed r' = true ∨ r.activeAttempt < r'.activeAttempt := by
  unfold attemptClosed at hc
  rw [Option.any_eq_true] at hc
  obtain ⟨a, hlast, hcomp⟩ := hc
  rw [List.getLast?_eq_getElem?] at hlast
  have hlen := h.length_le
  have hpos := (List.getElem?_eq_some_iff.mp hlast).1
  rcases Nat.lt_or_ge r.attempts.length r'.attempts.length with hlt | hge
  · right
    unfold Record.activeAttempt
    omega
  · left
    obtain ⟨a', ha', hext⟩ := h _ a hlast
    obtain ⟨v, hv⟩ := Option.isSome_iff_exists.mp hcomp
    have heq : r'.attempts.length = r.attempts.length := by omega
    unfold attemptClosed
    rw [List.getLast?_eq_getElem?, heq, ha', Option.any_some, hext.completion v hv]
    rfl

/-- A frozen step is frozen later. -/
theorem stepFrozen_mono {r r' : Record} (h : Extends AttemptExtends r.attempts r'.attempts)
    (hb : StepsBounded r) {s : Step} (hs : s ∈ r.steps) (hf : stepFrozen r s = true) :
    stepFrozen r' s = true := by
  have hle := activeAttempt_le h.length_le
  have hbound := hb s hs
  simp only [stepFrozen, Bool.or_eq_true, decide_eq_true_eq] at hf ⊢
  rcases hf with hf | hf
  · left
    omega
  · rcases closed_or_superseded h hf with hc | hc
    · exact Or.inr hc
    · left
      omega

/-- **History composes.**  The one clause with an argument is that of frozen steps: a step that was
frozen in the first record is frozen in the second (`stepFrozen_mono`), so it is kept twice. -/
theorem History.trans {r r' r'' : Record} (hb : StepsBounded r) (h : History r r')
    (h' : History r' r'') : History r r'' where
  version := h'.version.trans h.version
  id := h'.id.trans h.id
  namespace_eq := h'.namespace_eq.trans h.namespace_eq
  clusterID := h'.clusterID.trans h.clusterID
  authorityEpoch := h'.authorityEpoch.trans h.authorityEpoch
  kind := h'.kind.trans h.kind
  agentID := h'.agentID.trans h.agentID
  diskToken := h'.diskToken.trans h.diskToken
  intent := h'.intent.trans h.intent
  createdAt := h'.createdAt.trans h.createdAt
  verifications := h.verifications.trans h'.verifications
  cid := by
    intro hc
    have h1 := h.cid hc
    exact (h'.cid (h1 ▸ hc)).trans h1
  attempts := h.attempts.trans AttemptExtends.trans h'.attempts
  steps := h.steps.trans StepExtends.trans h'.steps
  frozen := by
    intro i s hs hf
    have hmem : s ∈ r.steps := List.mem_iff_getElem?.mpr ⟨i, hs⟩
    exact h'.frozen i s (h.frozen i s hs hf) (stepFrozen_mono h.attempts hb hmem hf)
  closed := fun hc => h'.closed (h.closed hc)
  terminal := by
    intro ht
    have h1 := h.terminal ht
    have h2 : Journal.terminal r'.state = true := h1 ▸ ht
    exact (h'.terminal h2).trans h1

/-! ## 3. What an accepted update says

The equivalence is used from left to right for runs, and from right to left where a replacement is
shown to be accepted (`Disposal`, `Shortcut`). -/

/-- Everything `validateUpdate` accepts. -/
structure Update (old next : Record) : Prop where
  same : withMutable old next = next
  transition : validTransition old.state next.state = true ∨
    returnedDisposalAdmitted old next = true
  terminal : terminal old.state = true → old = next
  cid : old.cid ≠ "" → old.cid = next.cid
  verifications : old.verifications <+: next.verifications
  fresh : old.state = .reconciliationRequired → next.state ≠ .reconciliationRequired →
    next.verifications.length ≠ old.verifications.length
  retention : validateRetentionTransition old next = .ok ()
  steps : validateStepHistory old next = .ok ()
  valid : validateRecord next = .ok ()

/-- The checks of an update as one proposition, with a field for each. -/
theorem validateUpdate_iff {old next : Record} :
    validateUpdate old next = .ok () ↔ Update old next := by
  unfold validateUpdate
  simp only [check_bind_eq_ok, refuse_eq_ok, bne_eq_false_iff_eq, Bool.and_eq_false_iff,
    Bool.not_eq_false', List.isPrefixOf_iff_prefix, beq_eq_false_iff_ne]
  constructor
  · rintro ⟨h1, h2, h3, h4, h5, h6, h7, h8, h9⟩
    refine ⟨h1, h2, ?_, ?_, h5, ?_, h7, h8, h9⟩
    · intro ht
      rcases h3 with h3 | h3
      · rw [ht] at h3; cases h3
      · exact h3
    · intro hc
      rcases h4 with h4 | h4
      · exact absurd h4 hc
      · exact h4
    · intro ho hn
      rcases h6 with (h6 | h6) | h6
      · exact absurd ho h6
      · exact absurd h6 hn
      · exact h6
  · intro h
    refine ⟨h.same, h.transition, ?_, ?_, h.verifications, ?_, h.retention, h.steps, h.valid⟩
    · by_cases ht : Journal.terminal old.state = true
      · exact Or.inr (h.terminal ht)
      · exact Or.inl (by simpa using ht)
    · by_cases hc : old.cid = ""
      · exact Or.inl hc
      · exact Or.inr (h.cid hc)
    · by_cases ho : old.state = .reconciliationRequired
      · by_cases hn : next.state = .reconciliationRequired
        · exact Or.inl (Or.inr hn)
        · exact Or.inr (h.fresh ho hn)
      · exact Or.inl (Or.inl ho)

theorem chargeKept_extends {observed : Bool} {p : Charge × Charge}
    (h : chargeKept observed p = .ok ()) : ChargeExtends p.1 p.2 := by
  unfold chargeKept at h
  simp only [refuse_eq_ok, Bool.or_eq_false_iff, bne_eq_false_iff_eq, decide_eq_false_iff_not]
    at h
  obtain ⟨⟨⟨⟨h1, h2⟩, h3⟩, h4⟩, _⟩ := h
  exact ⟨h1.symm, h2.symm, h3.symm, Int64.not_lt.mp h4⟩

/-- A kept step extends the step before, and equals it when that one is frozen. -/
theorem stepKept_extends {old : Record} {s n : Step} (h : stepKept old s n = .ok ()) :
    StepExtends s n ∧ (stepFrozen old s = true → n = s) := by
  unfold stepKept at h
  simp only [check_bind_eq_ok, refuse_eq_ok, checkAll_eq_ok, Bool.or_eq_false_iff,
    Bool.and_eq_false_iff, bne_eq_false_iff_eq, beq_eq_false_iff_ne, Bool.not_eq_false',
    List.isPrefixOf_iff_prefix] at h
  obtain ⟨hfrozen, ⟨⟨⟨⟨⟨⟨hpar, hatt⟩, hid⟩, hkind⟩, htarget⟩, hupid⟩, hvol⟩, hlen, hcharges,
    _, hobs⟩ := h
  refine ⟨⟨hid.symm, hkind.symm, htarget.symm, hpar.symm, hatt.symm, ?_, hvol, hlen.symm, ?_, ?_⟩,
    ?_⟩
  · intro hu
    rcases hupid with h | h
    · exact absurd h hu
    · exact h.symm
  · exact Extends.iff_zip.mpr ⟨hlen.le, fun p hp => chargeKept_extends (hcharges p hp)⟩
  · intro ho
    rcases hobs with h | h
    · exact absurd ho h
    · exact h
  · intro hf
    rcases hfrozen with h | h
    · rw [hf] at h; cases h
    · exact h.symm

/-- The comparison of the steps, position by position: every old step has a successor in its place,
and a frozen one is its own successor. -/
theorem validateStepHistory_extends {old next : Record}
    (h : validateStepHistory old next = .ok ()) :
    Extends StepExtends old.steps next.steps ∧
      ∀ (i : Nat) (s : Step), old.steps[i]? = some s → stepFrozen old s = true →
        next.steps[i]? = some s := by
  unfold validateStepHistory at h
  simp only [check_bind_eq_ok, refuse_eq_ok, checkAll_eq_ok, decide_eq_false_iff_not] at h
  obtain ⟨hlen, hkept, _⟩ := h
  have hext : Extends (fun s n => stepKept old s n = .ok ()) old.steps next.steps :=
    Extends.iff_zip.mpr ⟨by omega, hkept⟩
  refine ⟨hext.mono fun s n hsn => (stepKept_extends hsn).1, ?_⟩
  intro i s hs hf
  obtain ⟨n, hn, hsn⟩ := hext i s hs
  rw [hn, (stepKept_extends hsn).2 hf]

/-- A returned or adopted record is not closed, so no transition reopens a generation. -/
theorem Update.closed {old next : Record} (h : Update old next)
    (hc : generationClosed old.state = true) : generationClosed next.state = true := by
  rcases h.transition with ht | ht
  · exact closed_of_validTransition ht hc
  · simp only [returnedDisposalAdmitted, Bool.and_eq_true, Bool.or_eq_true, beq_iff_eq] at ht
    rcases ht.1.1.1 with hs | hs <;> (rw [hs] at hc; cases hc)

/-- A plain save is a step of the history.  It cannot touch the attempts, so what concerns them is
immediate. -/
theorem Update.history {old next : Record} (h : Update old next) : History old next := by
  have hs := h.same
  obtain ⟨hext, hfrozen⟩ := validateStepHistory_extends h.steps
  have hatt : next.attempts = old.attempts := by rw [← hs]; rfl
  exact {
    version := by rw [← hs]; rfl
    id := by rw [← hs]; rfl
    namespace_eq := by rw [← hs]; rfl
    clusterID := by rw [← hs]; rfl
    authorityEpoch := by rw [← hs]; rfl
    kind := by rw [← hs]; rfl
    agentID := by rw [← hs]; rfl
    diskToken := by rw [← hs]; rfl
    intent := by rw [← hs]; rfl
    createdAt := by rw [← hs]; rfl
    verifications := h.verifications
    cid := fun hc => (h.cid hc).symm
    attempts := by rw [hatt]; exact Extends.refl AttemptExtends.refl _
    steps := hext
    frozen := hfrozen
    closed := h.closed
    terminal := fun ht => (h.terminal ht).symm }

/-! ## 4. The attempt path

The doctored record has the attempts and the state of the new one and everything else of the old
one.  So the update says nothing about attempts, and the transition says all about them. -/

/-- An attempt that is kept is extended: it may be closed, and what it says stays. -/
theorem validateAttemptKept_extends {before after : List Attempt} {i : Nat} {a : Attempt}
    (h : validateAttemptKept before after i a = .ok ()) :
    ∃ n, after[i]? = some n ∧ AttemptExtends a n := by
  unfold validateAttemptKept at h
  cases hn : after[i]? with
  | none => rw [hn] at h; cases h
  | some n =>
    rw [hn] at h
    refine ⟨n, rfl, ?_⟩
    simp only at h
    split at h
    · rename_i hopen
      simp only [check_bind_eq_ok, refuse_eq_ok, bne_eq_false_iff_eq] at h
      have heq := h.2
      refine ⟨?_, ?_, ?_, ?_⟩
      · rw [← heq]
      · rw [← heq]
      · rw [← heq]
      · intro v hv
        rw [hopen.2] at hv
        cases hv
    · simp only [refuse_eq_ok, bne_eq_false_iff_eq] at h
      exact h ▸ AttemptExtends.refl a

/-- What an accepted attempt transition says. -/
structure AttemptMove (old next : Record) : Prop where
  eligible : retryEligible old = .ok ()
  steps : next.steps = old.steps
  attempts : Extends AttemptExtends (attemptsOrInitial old) next.attempts
  valid : validateAttempts next = .ok ()

theorem AttemptMove.of_ok {old next : Record}
    (h : validateAttemptTransition old next = .ok ()) : AttemptMove old next := by
  unfold validateAttemptTransition at h
  simp only [check_bind_eq_ok, refuse_eq_ok, Bool.or_eq_false_iff, bne_eq_false_iff_eq] at h
  obtain ⟨h1, ⟨h2, _⟩, _, h4, _, h6⟩ := h
  refine ⟨h1, h2.symm, ?_, h6⟩
  intro i a ha
  rw [checkFrom_eq_ok] at h4
  have := h4 i a ha
  rw [Nat.zero_add] at this
  exact validateAttemptKept_extends this

/-- What makes an allocation eligible for a retry. -/
structure RetryEligible (r : Record) : Prop where
  cid : r.cid = ""
  readyToReturn : r.state ≠ .readyToReturn
  adopted : r.state ≠ .adopted
  open_ : generationClosed r.state = false
  membership : validFingerprint r.intent.frozenInputsFingerprint = true

theorem retryEligible_iff {r : Record} : retryEligible r = .ok () ↔ RetryEligible r := by
  unfold retryEligible
  simp only [check_bind_eq_ok, refuse_eq_ok, Bool.or_eq_false_iff, bne_eq_false_iff_eq,
    beq_eq_false_iff_ne, Bool.not_eq_false']
  constructor
  · rintro ⟨⟨⟨⟨h1, h2⟩, h3⟩, h4⟩, h5⟩
    exact ⟨h1, h2, h3, h4, h5⟩
  · intro h
    exact ⟨⟨⟨⟨h.cid, h.readyToReturn⟩, h.adopted⟩, h.open_⟩, h.membership⟩

/-- The record itself is extended by its attempts with the first one written out. -/
theorem extends_attemptsOrInitial (r : Record) :
    Extends AttemptExtends r.attempts (attemptsOrInitial r) := by
  unfold attemptsOrInitial
  split
  · rename_i he
    have hnil : r.attempts = [] := List.isEmpty_iff.mp he
    intro i a ha
    rw [hnil] at ha
    cases ha
  · exact Extends.refl AttemptExtends.refl _

/-- The old record as the attempt path doctors it. -/
def doctored (old next : Record) : Record :=
  { old with attempts := next.attempts, state := next.state }

/-- **The doctored old record does not weaken the history.**  The update is read against a record
with the new attempts and state, but steps are compared with the real old record and the attempts
are checked one by one.  What the update does not compare, the transition has compared. -/
theorem history_of_attempt {old next : Record} (hm : AttemptMove old next)
    (hu : Update (doctored old next) next) : History old next := by
  have hs := hu.same
  have hopen := (retryEligible_iff.mp hm.eligible).open_
  have hnot : terminal old.state = false := by
    simp only [generationClosed, Bool.or_eq_false_iff] at hopen
    exact hopen.1
  exact {
    version := by rw [← hs]; rfl
    id := by rw [← hs]; rfl
    namespace_eq := by rw [← hs]; rfl
    clusterID := by rw [← hs]; rfl
    authorityEpoch := by rw [← hs]; rfl
    kind := by rw [← hs]; rfl
    agentID := by rw [← hs]; rfl
    diskToken := by rw [← hs]; rfl
    intent := by rw [← hs]; rfl
    createdAt := by rw [← hs]; rfl
    verifications := hu.verifications
    cid := fun hc => (hu.cid hc).symm
    attempts := (extends_attemptsOrInitial old).trans AttemptExtends.trans hm.attempts
    steps := by rw [hm.steps]; exact Extends.refl StepExtends.refl _
    frozen := fun i s hi _ => by rw [hm.steps]; exact hi
    closed := fun hc => by rw [hopen] at hc; cases hc
    terminal := fun ht => by rw [hnot] at ht; cases ht }

/-! ## 5. The save step -/

/-- One write of an existing record, by any of the three calls. -/
inductive SaveStep (old : Record) : Record → Prop
  | save {next : Record} (hu : Update old next) : SaveStep old next
  | complete {next : Record} {v : AttemptVerification}
      (hr : completeAttemptRecord old v = .ok next) (hm : AttemptMove old next)
      (hu : Update (doctored old next) next) : SaveStep old next
  | begin {next : Record} {p : AttemptPlan} {v : AttemptVerification}
      (hr : beginAttemptRecord old p v = .ok next) (hm : AttemptMove old next)
      (hu : Update (doctored old next) next) : SaveStep old next

theorem SaveStep.valid {old next : Record} (h : SaveStep old next) :
    validateRecord next = .ok () := by
  cases h with
  | save hu => exact hu.valid
  | complete _ _ hu => exact hu.valid
  | begin _ _ hu => exact hu.valid

/-- **A save step is a step of the history.**  The three cases are the plain update, and the two
attempt transitions through the doctored record. -/
theorem SaveStep.history {old next : Record} (h : SaveStep old next) : History old next := by
  cases h with
  | save hu => exact hu.history
  | complete _ hm hu => exact history_of_attempt hm hu
  | begin _ hm hu => exact history_of_attempt hm hu

/-- The checks of a plain save. -/
theorem admitSave_save {held next : Record} {gated : Bool}
    (h : admitSave held gated false next = .ok ()) : Update held next := by
  unfold admitSave at h
  simp only [check_bind_eq_ok] at h
  exact validateUpdate_iff.mp (by simpa using h.2)

/-- The checks of the attempt path. -/
theorem admitSave_attempt {held next : Record} {gated : Bool}
    (h : admitSave held gated true next = .ok ()) :
    AttemptMove held next ∧ Update (doctored held next) next := by
  unfold admitSave at h
  simp only [check_bind_eq_ok, if_true] at h
  exact ⟨AttemptMove.of_ok h.2.1, validateUpdate_iff.mp h.2.2⟩

/-! ## 6. Histories on disk -/

/-- The update time is outside the history of a record that may still change. -/
theorem History.stamp {r r' : Record} (h : History r r') (hr : Journal.terminal r.state = false)
    (t : Time) : History r { r' with updatedAt := t } :=
  { h with terminal := fun ht => by rw [hr] at ht; cases ht }

theorem StepExtends.stored {s s' : Step} (h : StepExtends s s') :
    StepExtends s.stored s'.stored :=
  { h with parameters := congrArg compactText h.parameters }

theorem AttemptExtends.stored {a a' : Attempt} (h : AttemptExtends a a') :
    AttemptExtends a.stored a'.stored :=
  { h with plan := by rw [Attempt.stored, Attempt.stored, h.plan] }

@[simp] theorem stored_activeAttempt (r : Record) : r.stored.activeAttempt = r.activeAttempt := by
  simp [Record.activeAttempt, Record.stored]

@[simp] theorem stored_attemptClosed (r : Record) : attemptClosed r.stored = attemptClosed r := by
  unfold attemptClosed Record.stored
  rw [List.getLast?_map, Option.any_map]
  rfl

theorem History.stored {r r' : Record} (h : History r r') : History r.stored r'.stored :=
  { h with
    intent := by rw [Record.stored, Record.stored, h.intent]
    attempts := h.attempts.map Attempt.stored fun _ _ => AttemptExtends.stored
    steps := h.steps.map Step.stored fun _ _ => StepExtends.stored
    frozen := by
      intro i s hs hf
      simp only [Record.stored, List.getElem?_map, Option.map_eq_some_iff] at hs
      obtain ⟨s0, hs0, rfl⟩ := hs
      have hf0 : stepFrozen r s0 = true := by
        simpa [stepFrozen, Step.stored] using hf
      simp only [Record.stored, List.getElem?_map, h.frozen i s0 hs0 hf0, Option.map_some]
    terminal := fun ht => by rw [h.terminal ht] }

theorem stored_stored (r : Record) : r.stored.stored = r.stored := by
  have ha : ∀ a : Attempt, a.stored.stored = a.stored := by
    intro a
    simp [Attempt.stored]
  have hs : ∀ s : Step, s.stored.stored = s.stored := by
    intro s
    simp [Step.stored]
  simp [Record.stored, ha, hs]

end Journal
