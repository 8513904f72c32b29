/-
# Retries and charges: what every record of the journal satisfies

`RetrySafe r` says that no attempt of `r` after the first was begun without proof: each has an
admission proof that is complete and verifies absence, each attempt before it is closed by such
a proof, no two admissions share an audit, and a proof that nothing was submitted is not
contradicted by a recorded step.  It is not a property of single validators only: that audits
are not shared holds because `BeginAttempt` asks for a fresh one, so it is carried along the
save steps (`SaveStep.retrySafe`).

The validators see one record at a time.  All parts of `RetrySafe` but one can be read off one
record and follow from `validateAttempts`; the last one, that two attempts never share an audit,
cannot, because a record that repeats an audit passes every check of the reader.  It holds of the
records that the journal writes, since each was reached by save steps and `BeginAttempt` refuses an
audit that is recorded already.  That is why the invariant of the protocol has `RetrySafe` in it and
not only validity.

§4 has the same for charges: that acquired and outstanding bytes add up to the planned ones over the
integers, and not only as machine words.
-/
import PveCpi.Journal.History

namespace Journal

open Lib (Extends)

/-! ## 1. Proofs -/

/-- A proof that an attempt left nothing behind. -/
structure SettledProof (v : AttemptVerification) : Prop where
  verification : validateVerification v.toVerification = true
  complete : v.complete = true
  absence : v.absenceVerified = true
  disposition : v.artifactDispositionVerified = true
  retains_nothing : v.retainedArtifacts = false
  settled : v.outcomesKnown = true ∨ v.noSubmissionVerified = true

/-- A step without any sign that its operation was submitted. -/
structure Unsubmitted (s : Step) : Prop where
  upid : s.upid = ""
  volIDs : s.volIDs = []
  acquired : ∀ c ∈ s.charges, ¬ 0 < c.acquiredBytes
  submitted : s.state ≠ .submitted
  observed : s.state ≠ .observed

/-- A proof about attempt `number` agrees with the steps of the record. -/
def Uncontradicted (r : Record) (number : Int) (v : AttemptVerification) : Prop :=
  v.noSubmissionVerified = true → ∀ s ∈ r.steps, s.attempt = number → Unsubmitted s

/-- The check of a proof as two conditions: the proof settles the attempt, and nothing in the record
contradicts it. -/
theorem validateAttemptProof_iff {r : Record} {number : Int} {v : AttemptVerification} :
    validateAttemptProof r number v = .ok () ↔ SettledProof v ∧ Uncontradicted r number v := by
  unfold validateAttemptProof
  simp only [check_bind_eq_ok, refuse_eq_ok, checkWhen_eq_ok, checkAll_eq_ok, stepMutated,
    Bool.or_eq_false_iff, Bool.not_eq_false', Bool.and_eq_false_iff, bne_eq_false_iff_eq,
    beq_eq_false_iff_ne, beq_iff_eq, List.any_eq_false, decide_eq_true_eq, List.isEmpty_iff]
  constructor
  · rintro ⟨⟨⟨⟨⟨h1, h2⟩, h3⟩, h4⟩, h5⟩, h6⟩
    have hc : v.complete = true := by
      simp only [validateVerification, Bool.and_eq_true] at h1
      exact h1.1.2
    refine ⟨⟨h1, hc, h2, h3, h4, h5⟩, ?_⟩
    intro hn s hs hnum
    obtain ⟨⟨⟨⟨hu, hv⟩, hsub⟩, hobs⟩, hacq⟩ := h6 hn s hs hnum
    exact ⟨hu, hv, hacq, hsub, hobs⟩
  · rintro ⟨hp, hu⟩
    refine ⟨⟨⟨⟨⟨hp.verification, hp.absence⟩, hp.disposition⟩, hp.retains_nothing⟩, hp.settled⟩,
      ?_⟩
    intro hn s hs hnum
    have h := hu hn s hs hnum
    exact ⟨⟨⟨⟨h.upid, h.volIDs⟩, h.submitted⟩, h.observed⟩, h.acquired⟩

/-! ## 2. Retry safety of one record

Attempt 0 has no admission; it is admitted by the creation of the record. -/

/-- Two attempts were not admitted by the same audit. -/
def AuditsDiffer (a b : Attempt) : Prop :=
  ∀ v w, a.admission = some v → b.admission = some w → v.evidenceID ≠ w.evidenceID

structure RetrySafe (r : Record) : Prop where
  /-- Attempt 0 needs no admission. -/
  initial : ∀ a, r.attempts[0]? = some a → a.admission = none
  /-- Every later attempt was admitted by a recorded proof about the attempt before it. -/
  admitted : ∀ (i : Nat) (a : Attempt), r.attempts[i + 1]? = some a →
    ∃ v, a.admission = some v ∧ SettledProof v ∧ v.toVerification ∈ r.verifications ∧
      Uncontradicted r i v
  /-- Every completion is such a proof about its own attempt. -/
  completion : ∀ (i : Nat) (a : Attempt) (v : AttemptVerification), r.attempts[i]? = some a →
    a.completion = some v → SettledProof v ∧ Uncontradicted r i v
  /-- Every attempt before the last is closed. -/
  completed : ∀ (i : Nat) (a : Attempt), r.attempts[i]? = some a → i + 1 < r.attempts.length →
    a.completion.isSome = true
  /-- No two attempts share their audit. -/
  distinct : r.attempts.Pairwise AuditsDiffer

theorem RetrySafe.stamp {r : Record} (h : RetrySafe r) (t : Time) :
    RetrySafe { r with updatedAt := t } :=
  ⟨h.initial, h.admitted, h.completion, h.completed, h.distinct⟩

/-- What an accepted attempt says. -/
theorem validateAttempt_spec {r : Record} {i : Nat} {a : Attempt}
    (h : validateAttempt r i a = .ok ()) :
    (i = 0 → a.admission = none) ∧
    (∀ k, i = k + 1 → ∃ v, a.admission = some v ∧ SettledProof v ∧
      v.toVerification ∈ r.verifications ∧ Uncontradicted r k v) ∧
    (∀ v, a.completion = some v → SettledProof v ∧ Uncontradicted r i v) ∧
    (i + 1 < r.attempts.length → a.completion.isSome = true) := by
  unfold validateAttempt at h
  simp only [check_bind_eq_ok] at h
  obtain ⟨_, _, hadm, _, hopen, hcomp⟩ := h
  refine ⟨?_, ?_, ?_, ?_⟩
  · rintro rfl
    simpa [validateAdmission] using hadm
  · rintro k rfl
    unfold validateAdmission at hadm
    rw [if_neg (Nat.succ_ne_zero k)] at hadm
    cases hv : a.admission with
    | none => rw [hv] at hadm; cases hadm
    | some v =>
      rw [hv] at hadm
      simp only [check_bind_eq_ok, refuse_eq_ok, Bool.not_eq_false', List.contains_iff_mem] at hadm
      obtain ⟨hp, hu⟩ := validateAttemptProof_iff.mp hadm.1
      exact ⟨v, rfl, hp, hadm.2, hu⟩
  · intro v hv
    unfold validateCompletion at hcomp
    rw [hv] at hcomp
    simp only [check_bind_eq_ok] at hcomp
    exact validateAttemptProof_iff.mp hcomp.1
  · intro hlt
    rw [refuse_eq_ok, Bool.and_eq_false_iff] at hopen
    rcases hopen with ho | ho
    · simp only [decide_eq_false_iff_not] at ho
      exact absurd hlt ho
    · simpa using ho

/-- What `validateAttempts` leaves to the save steps: that audits are not shared. -/
theorem RetrySafe.of_valid {r : Record} (h : validateAttempts r = .ok ())
    (hd : r.attempts.Pairwise AuditsDiffer) : RetrySafe r := by
  unfold validateAttempts at h
  rw [check_bind_eq_ok, checkFrom_eq_ok] at h
  have hat : ∀ i a, r.attempts[i]? = some a → validateAttempt r i a = .ok () := by
    intro i a ha
    have := h.1 i a ha
    rwa [Nat.zero_add] at this
  refine ⟨?_, ?_, ?_, ?_, hd⟩
  · intro a ha
    exact (validateAttempt_spec (hat 0 a ha)).1 rfl
  · intro i a ha
    exact (validateAttempt_spec (hat (i + 1) a ha)).2.1 i rfl
  · intro i a v ha hv
    exact (validateAttempt_spec (hat i a ha)).2.2.1 v hv
  · intro i a ha hlt
    exact (validateAttempt_spec (hat i a ha)).2.2.2 hlt

theorem validateAttempts_of_record {r : Record} (h : validateRecord r = .ok ()) :
    validateAttempts r = .ok () := by
  unfold validateRecord at h
  simp only [check_bind_eq_ok] at h
  exact h.2.2.2.1

theorem stepsBounded_of_valid {r : Record} (h : validateAttempts r = .ok ()) : StepsBounded r := by
  unfold validateAttempts validateAttemptStepBounds at h
  simp only [check_bind_eq_ok, refuse_eq_ok, List.any_eq_false, Bool.or_eq_true,
    decide_eq_true_eq, not_or] at h
  intro s hs
  have := (h.2.1 s hs).2
  omega

/-- An admission, wherever it stands, is in the recorded verifications. -/
theorem RetrySafe.admission_recorded {r : Record} (h : RetrySafe r) {a : Attempt}
    (ha : a ∈ r.attempts) {v : AttemptVerification} (hv : a.admission = some v) :
    v.toVerification ∈ r.verifications := by
  obtain ⟨i, hi⟩ := List.mem_iff_getElem?.mp ha
  cases i with
  | zero =>
    rw [h.initial a hi] at hv
    cases hv
  | succ i =>
    obtain ⟨w, hw, _, hmem, _⟩ := h.admitted i a hi
    have : w = v := Option.some.inj (hw.symm.trans hv)
    exact this ▸ hmem

/-! ## 3. Save steps keep it

Only `BeginAttempt` adds an attempt, and its checks are exactly what the invariant needs of the new
one. -/

theorem closeLast_pairwise {l : List Attempt} {v : AttemptVerification}
    (h : l.Pairwise AuditsDiffer) : (closeLast l v).Pairwise AuditsDiffer := by
  unfold closeLast
  cases hl : l.getLast? with
  | none => exact List.Pairwise.nil
  | some a =>
    rw [← List.dropLast_append_getLast? a hl, List.pairwise_append] at h
    simp only [List.pairwise_append]
    refine ⟨h.1, List.pairwise_singleton _ _, ?_⟩
    intro b hb c hc
    rw [List.mem_singleton] at hc
    subst hc
    exact h.2.2 b hb a (List.mem_singleton_self a)

theorem mem_closeLast {l : List Attempt} {v : AttemptVerification} {a : Attempt}
    (h : a ∈ closeLast l v) : ∃ b ∈ l, b.admission = a.admission := by
  unfold closeLast at h
  cases hl : l.getLast? with
  | none => rw [hl] at h; cases h
  | some b =>
    rw [hl] at h
    rcases List.mem_append.mp h with h | h
    · exact ⟨a, List.dropLast_subset l h, rfl⟩
    · rw [List.mem_singleton] at h
      exact ⟨b, List.mem_of_getLast? hl, by rw [h]⟩

theorem attemptsOrInitial_pairwise {r : Record} (h : r.attempts.Pairwise AuditsDiffer) :
    (attemptsOrInitial r).Pairwise AuditsDiffer := by
  unfold attemptsOrInitial
  split
  · exact List.pairwise_singleton _ _
  · exact h

theorem RetrySafe.attemptsOrInitial_recorded {r : Record} (h : RetrySafe r) {a : Attempt}
    (ha : a ∈ attemptsOrInitial r) {v : AttemptVerification} (hv : a.admission = some v) :
    v.toVerification ∈ r.verifications := by
  unfold attemptsOrInitial at ha
  split at ha
  · rw [List.mem_singleton] at ha
    subst ha
    cases hv
  · exact h.admission_recorded ha hv

theorem checkFresh_spec {r : Record} {v : AttemptVerification} (h : checkFresh r v = .ok ()) :
    ∀ w ∈ r.verifications, w.evidenceID ≠ v.evidenceID := by
  simpa [checkFresh] using h

/-- The audits of the attempts stay pairwise different.  Only an attempt transition adds one, and it
refuses an audit whose identifier is in use. -/
theorem SaveStep.distinct {old next : Record} (hs : RetrySafe old) (h : SaveStep old next) :
    next.attempts.Pairwise AuditsDiffer := by
  cases h with
  | save hu =>
    have hatt : next.attempts = old.attempts := by rw [← hu.same]; rfl
    rw [hatt]
    exact hs.distinct
  | @complete v hr _ _ =>
    unfold completeAttemptRecord at hr
    simp only [check_bind_eq_ok, pure_eq_ok] at hr
    obtain ⟨_, _, _, _, rfl⟩ := hr
    exact closeLast_pairwise (attemptsOrInitial_pairwise hs.distinct)
  | @begin p v hr _ _ =>
    unfold beginAttemptRecord at hr
    simp only [check_bind_eq_ok, pure_eq_ok] at hr
    obtain ⟨_, _, hfresh, rfl⟩ := hr
    -- The attempts so far, closed or not, have the admissions of the old record.
    have hprior : ∀ a ∈ (if attemptClosed { old with attempts := attemptsOrInitial old } = true
          then attemptsOrInitial old else closeLast (attemptsOrInitial old) v),
        ∀ w, a.admission = some w → w.toVerification ∈ old.verifications := by
      intro a ha w hw
      split at ha
      · exact hs.attemptsOrInitial_recorded ha hw
      · obtain ⟨b, hb, heq⟩ := mem_closeLast ha
        exact hs.attemptsOrInitial_recorded hb (heq.trans hw)
    have hpair : (if attemptClosed { old with attempts := attemptsOrInitial old } = true
          then attemptsOrInitial old else closeLast (attemptsOrInitial old) v).Pairwise
        AuditsDiffer := by
      split
      · exact attemptsOrInitial_pairwise hs.distinct
      · exact closeLast_pairwise (attemptsOrInitial_pairwise hs.distinct)
    simp only [List.pairwise_append]
    refine ⟨hpair, List.pairwise_singleton _ _, ?_⟩
    intro a ha b hb w w' hw hw'
    rw [List.mem_singleton] at hb
    subst hb
    have hv : w' = v := (Option.some.inj hw').symm
    rw [hv]
    exact checkFresh_spec hfresh _ (hprior a ha w hw)

/-- **A save step keeps retry safety.**  A plain save leaves the attempts alone, a completion adds a
proof to the last one, and a new attempt comes with a fresh audit that closes the one before it. -/
theorem SaveStep.retrySafe {old next : Record} (hs : RetrySafe old) (h : SaveStep old next) :
    RetrySafe next :=
  RetrySafe.of_valid (validateAttempts_of_record h.valid) (h.distinct hs)

/-- An attempt is only begun on a record that may still be retried. -/
theorem SaveStep.eligible {old next : Record} (h : SaveStep old next)
    (hlt : old.attempts.length < next.attempts.length) : RetryEligible old := by
  cases h with
  | save hu =>
    have hatt : next.attempts = old.attempts := by rw [← hu.same]; rfl
    rw [hatt] at hlt
    omega
  | complete _ hm _ => exact retryEligible_iff.mp hm.eligible
  | begin _ hm _ => exact retryEligible_iff.mp hm.eligible

/-! ## 4. Charges

The check adds machine words, so a sum that wraps could pass; it refuses such a sum before it
compares. -/

/-- A charge is split into its acquired and its outstanding bytes, over the integers. -/
def Charge.Balanced (c : Charge) : Prop :=
  c.acquiredBytes.toInt + c.outstandingBytes.toInt = c.plannedBytes.toInt

/-- The check on machine integers rules out that the sum wraps. -/
theorem balanced_of_valid {c : Charge} (h : validateCharge c = .ok ()) : c.Balanced := by
  unfold validateCharge at h
  simp only [refuse_eq_ok, Bool.or_eq_false_iff, decide_eq_false_iff_not, bne_eq_false_iff_eq]
    at h
  obtain ⟨⟨⟨⟨_, hacq⟩, hout⟩, hle⟩, hsum⟩ := h
  rw [Int64.lt_iff_toInt_lt] at hacq hout
  have hz : (0 : Int64).toInt = 0 := rfl
  have hmax : Int64.maxValue.toInt = 2 ^ 63 - 1 := Int64.toInt_maxValue
  have ho := c.outstandingBytes.toInt_lt
  have ha := c.acquiredBytes.toInt_lt
  have hsub : (Int64.maxValue - c.outstandingBytes).toInt =
      2 ^ 63 - 1 - c.outstandingBytes.toInt := by
    rw [Int64.toInt_sub, hmax]
    exact Int.bmod_eq_of_le (by omega) (by omega)
  rw [gt_iff_lt, Int64.lt_iff_toInt_lt, hsub] at hle
  unfold Charge.Balanced
  rw [← hsum, Int64.toInt_add]
  exact (Int.bmod_eq_of_le (by omega) (by omega)).symm

/-- Every charge of the record is balanced. -/
def ChargesBalanced (r : Record) : Prop := ∀ s ∈ r.steps, ∀ c ∈ s.charges, c.Balanced

theorem checkSteps_each {seen : List String} {steps : List Step}
    (h : checkSteps seen steps = .ok ()) : ∀ s ∈ steps, validateStep s = .ok () := by
  induction steps generalizing seen with
  | nil => intro s hs; cases hs
  | cons s rest ih =>
    unfold checkSteps at h
    simp only [check_bind_eq_ok] at h
    intro t ht
    rcases List.mem_cons.mp ht with rfl | ht
    · exact h.2.1
    · exact ih h.2.2 t ht

theorem validateSteps_of_record {r : Record} (h : validateRecord r = .ok ()) :
    ∀ s ∈ r.steps, validateStep s = .ok () := by
  unfold validateRecord validateRecordSteps at h
  simp only [check_bind_eq_ok] at h
  exact checkSteps_each h.2.2.2.2.1.1

theorem chargesBalanced_of_valid {r : Record} (h : validateRecord r = .ok ()) :
    ChargesBalanced r := by
  intro s hs c hc
  have hstep := validateSteps_of_record h s hs
  unfold validateStep at hstep
  simp only [check_bind_eq_ok, checkAll_eq_ok] at hstep
  exact balanced_of_valid (hstep.2.2.1 c hc)

/-! ## 5. On disk -/

@[simp] theorem stored_steps (r : Record) : r.stored.steps = r.steps.map Step.stored := rfl

@[simp] theorem stored_attempts (r : Record) :
    r.stored.attempts = r.attempts.map Attempt.stored := rfl

theorem Unsubmitted.stored {s : Step} (h : Unsubmitted s) : Unsubmitted s.stored :=
  ⟨h.upid, h.volIDs, h.acquired, h.submitted, h.observed⟩

theorem Uncontradicted.stored {r : Record} {n : Int} {v : AttemptVerification}
    (h : Uncontradicted r n v) : Uncontradicted r.stored n v := by
  intro hn s hs hnum
  rw [stored_steps, List.mem_map] at hs
  obtain ⟨s0, hs0, rfl⟩ := hs
  exact (h hn s0 hs0 hnum).stored

/-- Storing compacts plans and changes nothing else that the condition reads. -/
theorem RetrySafe.stored {r : Record} (h : RetrySafe r) : RetrySafe r.stored := by
  have hget : ∀ (i : Nat) (a : Attempt), r.stored.attempts[i]? = some a →
      ∃ b, r.attempts[i]? = some b ∧ b.stored = a := by
    intro i a ha
    rw [stored_attempts, List.getElem?_map, Option.map_eq_some_iff] at ha
    exact ha
  refine ⟨?_, ?_, ?_, ?_, ?_⟩
  · intro a ha
    obtain ⟨b, hb, rfl⟩ := hget 0 a ha
    exact h.initial b hb
  · intro i a ha
    obtain ⟨b, hb, rfl⟩ := hget (i + 1) a ha
    obtain ⟨v, hv, hp, hm, hu⟩ := h.admitted i b hb
    exact ⟨v, hv, hp, hm, hu.stored⟩
  · intro i a v ha hv
    obtain ⟨b, hb, rfl⟩ := hget i a ha
    obtain ⟨hp, hu⟩ := h.completion i b v hb hv
    exact ⟨hp, hu.stored⟩
  · intro i a ha hlt
    obtain ⟨b, hb, rfl⟩ := hget i a ha
    exact h.completed i b hb (by simpa using hlt)
  · rw [stored_attempts, List.pairwise_map]
    exact h.distinct

theorem StepsBounded.stored {r : Record} (h : StepsBounded r) : StepsBounded r.stored := by
  intro s hs
  rw [stored_steps, List.mem_map] at hs
  obtain ⟨s0, hs0, rfl⟩ := hs
  rw [stored_activeAttempt]
  exact h s0 hs0

theorem ChargesBalanced.stored {r : Record} (h : ChargesBalanced r) : ChargesBalanced r.stored := by
  intro s hs
  rw [stored_steps, List.mem_map] at hs
  obtain ⟨s0, hs0, rfl⟩ := hs
  exact h s0 hs0

end Journal
