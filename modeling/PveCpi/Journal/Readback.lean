/-
# What was validated reads back, and when

A save validates the record in memory, stamps it, and only then encodes it.  Two things happen
to the record after its validation: its update time is replaced by a clock reading, and its
plans are compacted.  `validateRecord_readback` says that the reader accepts what the writer
validated when the reading is not before the creation time and every plan is readable; each of
the two conditions is needed.

The reader runs the validators on another record than the writer did, and most of them read neither
of the fields that changed.  So the module first says, for each validator, which fields it reads
(`SameEvidence` and the `_congr` lemmas), and is then left with two: the order of the times and the
plans.  A validator that comes to read another field breaks one lemma here.
-/
import PveCpi.Journal.Retry

namespace Journal

/-! ## 1. Steps are written as they are

Their parameters must be canonical to be accepted, and canonical texts survive the encoder. -/

theorem step_stored_of_valid {s : Step} (h : validateStep s = .ok ()) : s.stored = s := by
  unfold validateStep at h
  simp only [check_bind_eq_ok] at h
  rw [Step.stored, compactText_of_parameters h.1]

theorem stored_steps_of_valid {r : Record} (h : validateRecord r = .ok ()) :
    r.stored.steps = r.steps := by
  rw [stored_steps]
  have hid : ∀ s ∈ r.steps, s.stored = id s := fun s hs =>
    step_stored_of_valid (validateSteps_of_record h s hs)
  rw [List.map_congr_left hid, List.map_id]

/-! ## 2. What the validators read

Two records with the same steps, verifications, state and active attempt are the same to these
validators. -/

/-- Two records agree on everything the checks of steps and states read. -/
structure SameEvidence (r r' : Record) : Prop where
  state : r'.state = r.state
  kind : r'.kind = r.kind
  steps : r'.steps = r.steps
  active : r'.activeAttempt = r.activeAttempt
  attemptClosed : attemptClosed r' = attemptClosed r
  verifications : r'.verifications = r.verifications
  cid : r'.cid = r.cid
  reason : r'.reason = r.reason

theorem checkArtifacts_congr {r r' : Record} (hs : r'.steps = r.steps)
    (ha : r'.activeAttempt = r.activeAttempt) (seen targets : List Target) :
    checkArtifacts r' seen targets = checkArtifacts r seen targets := by
  induction targets generalizing seen with
  | nil => rfl
  | cons t rest ih =>
    have howns : ownsArtifact r' t = ownsArtifact r t := by
      funext s
      simp only [ownsArtifact, ha]
    simp only [checkArtifacts, howns, hs, ih]

theorem validateVMRetention_congr {r r' : Record} (h : SameEvidence r r') :
    validateVMRetention r' = validateVMRetention r := by
  simp only [validateVMRetention, h.kind, h.verifications, h.steps, h.active,
    checkArtifacts_congr h.steps h.active]

theorem validateRecordDisposition_congr {r r' : Record} (h : SameEvidence r r') :
    validateRecordDisposition r' = validateRecordDisposition r := by
  simp only [validateRecordDisposition, activeStepCount, activeSteps, h.state, h.steps, h.active,
    h.attemptClosed, h.verifications, h.cid, h.reason, validateVMRetention_congr h]

theorem validateRecordSteps_congr {r r' : Record} (h : SameEvidence r r') :
    validateRecordSteps r' = validateRecordSteps r := by
  simp only [validateRecordSteps, h.steps, h.verifications]

theorem validateAttemptProof_congr {r r' : Record} (h : r'.steps = r.steps) (n : Int)
    (v : AttemptVerification) : validateAttemptProof r' n v = validateAttemptProof r n v := by
  simp only [validateAttemptProof, h]

theorem validateAttemptStepBounds_congr {r r' : Record} (h : SameEvidence r r') :
    validateAttemptStepBounds r' = validateAttemptStepBounds r := by
  simp only [validateAttemptStepBounds, h.steps, h.active, h.attemptClosed, h.state]

theorem sameEvidence_readback {r : Record} (h : validateRecord r = .ok ()) (t : Time) :
    SameEvidence r { r with updatedAt := t }.stored :=
  ⟨rfl, rfl, show r.stored.steps = r.steps from stored_steps_of_valid h, stored_activeAttempt _,
    stored_attemptClosed _, rfl, rfl, rfl⟩

/-! ## 3. Plans -/

/-- Every plan of the record reads back. -/
def PlansReadable (r : Record) : Prop :=
  planReadable r.intent.plan = true ∧ ∀ a ∈ r.attempts, planReadable a.plan.plan = true

instance (r : Record) : Decidable (PlansReadable r) :=
  inferInstanceAs (Decidable (planReadable r.intent.plan = true ∧
    ∀ a ∈ r.attempts, planReadable a.plan.plan = true))

/-- The intent as it is on disk. -/
def Intent.stored (i : Intent) : Intent := { i with plan := compactText i.plan }

theorem validateIntent_stored {i : Intent} (h : validateIntent i = .ok ())
    (hp : planReadable i.plan = true) : validateIntent i.stored = .ok () := by
  rw [planReadable, bne_iff_ne] at hp
  unfold validateIntent at h ⊢
  simp only [check_bind_eq_ok, refuse_eq_ok, Bool.or_eq_false_iff, Bool.not_eq_false',
    beq_eq_false_iff_ne, Intent.stored, valid_compactText] at h ⊢
  obtain ⟨h1, ⟨⟨h2, h3⟩, _⟩⟩ := h
  exact ⟨h1, ⟨h2, h3⟩, hp⟩

theorem isOk_iff {x : Except Err Unit} : x.isOk = true ↔ x = .ok () := by
  cases x with
  | error e => simp [Except.isOk, Except.toBool]
  | ok u => simp [Except.isOk, Except.toBool]

/-- An attempt that was valid is valid as it is stored.  Storing compacts the plan, and a plan that
does not compact to `null` stays a plan. -/
theorem validateAttempt_stored {r r' : Record} {i : Nat} {a : Attempt}
    (hi : r'.intent = r.intent.stored) (hs : r'.steps = r.steps)
    (hv : r'.verifications = r.verifications)
    (hl : r'.attempts.length = r.attempts.length) (hp : planReadable a.plan.plan = true)
    (h : validateAttempt r i a = .ok ()) : validateAttempt r' i a.stored = .ok () := by
  unfold validateAttempt at h ⊢
  simp only [check_bind_eq_ok, refuse_eq_ok, Bool.or_eq_false_iff, Bool.not_eq_false',
    bne_eq_false_iff_eq, isOk_iff] at h ⊢
  obtain ⟨⟨⟨⟨⟨h1, h2⟩, h3⟩, h4⟩, h5⟩, h6, h7, h8, h9, h10⟩ := h
  refine ⟨⟨⟨⟨⟨h1, h2⟩, ?_⟩, ?_⟩, ?_⟩, ?_, ?_, h8, ?_, ?_⟩
  · rw [hi]; exact h3
  · rw [hi]; exact h4
  · rw [hi]; exact validateIntent_stored h5 hp
  · rw [Bool.and_eq_false_iff] at h6 ⊢
    rcases h6 with h6 | h6
    · exact Or.inl h6
    · right
      rw [bne_eq_false_iff_eq] at h6 ⊢
      simp only [Attempt.stored, h6, hi]
      rfl
  · simpa only [validateAdmission, Attempt.stored, hv, validateAttemptProof_congr hs] using h7
  · rw [hl]; exact h9
  · simpa only [validateCompletion, Attempt.stored, hv, validateAttemptProof_congr hs] using h10

/-! ## 4. The record -/

/-- **What was validated reads back** when it is stamped no earlier than its creation and its plans
are readable.  The times are in order by the first condition, the plans pass by the second, and
nothing else that a validator reads has changed. -/
theorem validateRecord_readback {r : Record} {t : Time} (h : validateRecord r = .ok ())
    (ht : r.createdAt ≤ t) (hp : PlansReadable r) :
    validateRecord { r with updatedAt := t }.stored = .ok () := by
  have hsame := sameEvidence_readback h t
  unfold validateRecord at h ⊢
  simp only [check_bind_eq_ok] at h ⊢
  obtain ⟨h1, h2, h3, h4, h5, h6⟩ := h
  refine ⟨?_, validateIntent_stored h2 hp.1, h3, ?_, ?_, ?_⟩
  · unfold validateIdentity at h1 ⊢
    simp only [refuse_eq_ok, Bool.or_eq_false_iff, decide_eq_false_iff_not] at h1 ⊢
    exact ⟨h1.1, not_lt.mpr ht⟩
  · unfold validateAttempts at h4 ⊢
    simp only [check_bind_eq_ok, checkFrom_eq_ok, Nat.zero_add] at h4 ⊢
    refine ⟨?_, by rw [validateAttemptStepBounds_congr hsame]; exact h4.2⟩
    intro i a ha
    rw [stored_attempts, List.getElem?_map, Option.map_eq_some_iff] at ha
    obtain ⟨b, hb, rfl⟩ := ha
    have hmem : b ∈ r.attempts := List.mem_iff_getElem?.mpr ⟨i, hb⟩
    exact validateAttempt_stored rfl hsame.steps rfl (by simp) (hp.2 b hmem) (h4.1 i b hb)
  · rw [validateRecordSteps_congr hsame]
    exact h5
  · rw [validateRecordDisposition_congr hsame]
    exact h6

/-- In memory only the order of the two times is checked again. -/
theorem validateRecord_stamp {r : Record} {t : Time} (h : validateRecord r = .ok ())
    (ht : r.createdAt ≤ t) : validateRecord { r with updatedAt := t } = .ok () := by
  have hsame : SameEvidence r { r with updatedAt := t } := ⟨rfl, rfl, rfl, rfl, rfl, rfl, rfl, rfl⟩
  unfold validateRecord at h ⊢
  simp only [check_bind_eq_ok] at h ⊢
  obtain ⟨h1, h2, h3, h4, h5, h6⟩ := h
  refine ⟨?_, h2, h3, ?_, ?_, ?_⟩
  · unfold validateIdentity at h1 ⊢
    simp only [refuse_eq_ok, Bool.or_eq_false_iff, decide_eq_false_iff_not] at h1 ⊢
    exact ⟨h1.1, not_lt.mpr ht⟩
  · unfold validateAttempts at h4 ⊢
    rw [check_bind_eq_ok] at h4 ⊢
    refine ⟨?_, by rw [validateAttemptStepBounds_congr hsame]; exact h4.2⟩
    rw [checkFrom_eq_ok] at h4 ⊢
    exact h4.1
  · rw [validateRecordSteps_congr hsame]
    exact h5
  · rw [validateRecordDisposition_congr hsame]
    exact h6

end Journal
