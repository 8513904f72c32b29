/-
# No dead end: every unfinished record can be disposed of

`disposed r v` is the record that appends the verification `v` and is deleted; when the VM was
already gone with its artifacts kept, the steps of the active attempt are settled with it.
`update_disposed` walks through all the validators: whatever a valid record looks like, this
replacement passes them, so evidence of complete absence always ends an allocation.

A journal that accumulates evidence can paint itself into a corner: a record may have become such
that no later record passes the comparison with it.  Here the corner is excluded.  The replacement
is as small as it can be, the verification at the end of the list and the state `deleted`, and the
walk is over all the validators, for a record in any state, with any attempts and any steps.

The one case that needs more is a VM that was deleted with its artifacts kept.  Its record is in a
closed state, and leaving it is allowed only when the steps of the active attempt are settled; so
they are settled in the same write.  That an attempt in this state is not closed
(`not_closed_of_retained`) is what makes its steps writable.
-/
import PveCpi.Journal.Readback

namespace Journal

open Lib (Extends)

/-! ## 1. The replacement -/

/-- Settle a step of the active attempt. -/
def settleStep (r : Record) (s : Step) : Step :=
  if s.attempt = r.activeAttempt then { s with state := .observed } else s

/-- The steps of the replacement: settled when only artifacts were left. -/
def disposedSteps (r : Record) : List Step :=
  if r.state = .vmDeletedRetained then r.steps.map (settleStep r) else r.steps

/-- The record, deleted under the evidence `v`. -/
def disposed (r : Record) (v : Verification) : Record :=
  { r with state := .deleted, verifications := r.verifications ++ [v], steps := disposedSteps r }

/-- Evidence that nothing of an allocation is left, not used in the record before. -/
structure AbsenceEvidence (r : Record) (v : Verification) : Prop where
  valid : validateVerification v = true
  absence : v.absenceVerified = true
  disposition : v.artifactDispositionVerified = true
  payload : v.evidenceJSON ≠ ""
  fresh : ∀ w ∈ r.verifications, w.evidenceID ≠ v.evidenceID

@[simp] theorem settleStep_attempt (r : Record) (s : Step) :
    (settleStep r s).attempt = s.attempt := by
  unfold settleStep
  split <;> rfl

@[simp] theorem settleStep_id (r : Record) (s : Step) : (settleStep r s).id = s.id := by
  unfold settleStep
  split <;> rfl

theorem disposed_steps (r : Record) (v : Verification) :
    (disposed r v).steps = disposedSteps r := rfl

theorem mem_disposedSteps {r : Record} {n : Step} (h : n ∈ disposedSteps r) :
    ∃ s ∈ r.steps, n = s ∨ r.state = .vmDeletedRetained ∧ n = settleStep r s := by
  unfold disposedSteps at h
  split at h
  · rename_i hr
    obtain ⟨s, hs, rfl⟩ := List.mem_map.mp h
    exact ⟨s, hs, Or.inr ⟨hr, rfl⟩⟩
  · exact ⟨n, h, Or.inl rfl⟩

/-! ## 2. The record alone

Settling a step changes its state only, so bounds, identifiers and charges pass as before.  A proof
that nothing was submitted could be contradicted by a settled step, but such a proof is about
another attempt. -/

/-- Settling changes the state of a step and nothing that the checks of the steps compare. -/
theorem checkSteps_settle {r : Record} {seen : List String} {steps : List Step}
    (h : checkSteps seen steps = .ok ()) :
    checkSteps seen (steps.map (settleStep r)) = .ok () := by
  induction steps generalizing seen with
  | nil => rfl
  | cons s rest ih =>
    unfold checkSteps at h
    rw [List.map_cons]
    unfold checkSteps
    simp only [check_bind_eq_ok] at h ⊢
    obtain ⟨h1, h2, h3⟩ := h
    refine ⟨?_, ?_, by rw [settleStep_id]; exact ih h3⟩
    · unfold settleStep
      split
      · simp only [refuse_eq_ok, Bool.or_eq_false_iff] at h1 ⊢
        exact ⟨h1.1, rfl⟩
      · exact h1
    · unfold settleStep
      split
      · unfold validateStep at h2 ⊢
        simp only [check_bind_eq_ok] at h2 ⊢
        exact ⟨h2.1, rfl, h2.2.2⟩
      · exact h2

theorem checkSteps_disposed {r : Record} (h : checkSteps [] r.steps = .ok ()) :
    checkSteps [] (disposedSteps r) = .ok () := by
  unfold disposedSteps
  split
  · exact checkSteps_settle h
  · exact h

/-- A closed attempt holds the record back, so its VM was never deleted with artifacts kept. -/
theorem not_closed_of_retained {r : Record} (h : validateAttemptStepBounds r = .ok ())
    (hr : r.state = .vmDeletedRetained) : attemptClosed r = false := by
  unfold validateAttemptStepBounds at h
  simp only [check_bind_eq_ok, refuse_eq_ok, Bool.and_eq_false_iff, hr] at h
  rcases h.2 with (h | h) | h
  · exact h
  · cases h
  · cases h

/-- A proof about an attempt that is closed or superseded is not touched by settling. -/
theorem uncontradicted_disposed {r : Record} {n : Int} {v : AttemptVerification}
    (hn : r.state = .vmDeletedRetained → n ≠ r.activeAttempt) (w : Verification)
    (h : Uncontradicted r n v) : Uncontradicted (disposed r w) n v := by
  intro hs t ht hnum
  rw [disposed_steps] at ht
  obtain ⟨s, hmem, rfl | ⟨hr, rfl⟩⟩ := mem_disposedSteps ht
  · exact h hs t hmem hnum
  · rw [settleStep_attempt] at hnum
    have hne : s.attempt ≠ r.activeAttempt := hnum ▸ hn hr
    have hsame : settleStep r s = s := if_neg hne
    rw [hsame]
    exact h hs s hmem hnum

theorem validateAttemptProof_disposed {r : Record} {n : Int} {v : AttemptVerification}
    (hn : r.state = .vmDeletedRetained → n ≠ r.activeAttempt) (w : Verification)
    (h : validateAttemptProof r n v = .ok ()) :
    validateAttemptProof (disposed r w) n v = .ok () := by
  rw [validateAttemptProof_iff] at h ⊢
  exact ⟨h.1, uncontradicted_disposed hn w h.2⟩

/-- An attempt is valid after the disposal.  What is checked of an attempt is its proof against the
evidence and the steps it had, and both are still there, the steps in their places. -/
theorem validateAttempt_disposed {r : Record} {i : Nat} {a : Attempt} (w : Verification)
    (hb : validateAttemptStepBounds r = .ok ()) (ha : r.attempts[i]? = some a)
    (h : validateAttempt r i a = .ok ()) : validateAttempt (disposed r w) i a = .ok () := by
  have hlt := (List.getElem?_eq_some_iff.mp ha).1
  unfold validateAttempt at h ⊢
  simp only [check_bind_eq_ok] at h ⊢
  obtain ⟨h1, h2, h3, h4, h5, h6⟩ := h
  have hrec : ∀ v : Verification, r.verifications.contains v = true →
      (disposed r w).verifications.contains v = true := by
    intro v hv
    rw [List.contains_iff_mem] at hv ⊢
    exact List.mem_append_left _ hv
  refine ⟨h1, h2, ?_, h4, h5, ?_⟩
  · unfold validateAdmission at h3 ⊢
    split at h3
    · rename_i h0
      rw [if_pos h0]
      exact h3
    · rename_i h0
      rw [if_neg h0]
      cases hv : a.admission with
      | none => rw [hv] at h3; cases h3
      | some v =>
        rw [hv] at h3
        simp only [check_bind_eq_ok, refuse_eq_ok, Bool.not_eq_false'] at h3 ⊢
        refine ⟨validateAttemptProof_disposed ?_ w h3.1, hrec _ h3.2⟩
        intro _
        unfold Record.activeAttempt
        omega
  · unfold validateCompletion at h6 ⊢
    cases hv : a.completion with
    | none => rfl
    | some v =>
      rw [hv] at h6
      simp only [check_bind_eq_ok, refuse_eq_ok, Bool.not_eq_false'] at h6 ⊢
      refine ⟨validateAttemptProof_disposed ?_ w h6.1, hrec _ h6.2⟩
      intro hr heq
      -- The last attempt would be closed, but the record is retained.
      have hopen := not_closed_of_retained hb hr
      have hlast : i = r.attempts.length - 1 := by
        unfold Record.activeAttempt at heq
        omega
      unfold attemptClosed at hopen
      rw [List.getLast?_eq_getElem?, ← hlast, ha, Option.any_some, hv] at hopen
      cases hopen

/-- All attempts, and the bounds of their steps. -/
theorem validateAttempts_disposed {r : Record} (w : Verification)
    (h : validateAttempts r = .ok ()) : validateAttempts (disposed r w) = .ok () := by
  unfold validateAttempts at h ⊢
  simp only [check_bind_eq_ok, checkFrom_eq_ok, Nat.zero_add] at h ⊢
  obtain ⟨h1, h2⟩ := h
  refine ⟨fun i a ha => validateAttempt_disposed w h2 ha (h1 i a ha), ?_⟩
  unfold validateAttemptStepBounds at h2 ⊢
  simp only [check_bind_eq_ok, refuse_eq_ok, List.any_eq_false] at h2 ⊢
  refine ⟨?_, by simp [disposed, terminal]⟩
  intro n hn
  obtain ⟨s, hs, rfl | ⟨_, rfl⟩⟩ := mem_disposedSteps hn
  · exact h2.1 n hs
  · rw [settleStep_attempt]
    exact h2.1 s hs

/-- **The disposed record is valid.**  The identity, the intent and the kind are untouched; the new
state asks for evidence of absence, which is what `AbsenceEvidence` provides. -/
theorem validateRecord_disposed {r : Record} {v : Verification} (h : validateRecord r = .ok ())
    (hv : AbsenceEvidence r v) : validateRecord (disposed r v) = .ok () := by
  unfold validateRecord at h ⊢
  simp only [check_bind_eq_ok] at h ⊢
  obtain ⟨h1, h2, h3, h4, h5, _⟩ := h
  refine ⟨?_, h2, h3, validateAttempts_disposed v h4, ?_, ?_⟩
  · unfold validateIdentity at h1 ⊢
    simp only [refuse_eq_ok, Bool.or_eq_false_iff] at h1 ⊢
    exact ⟨⟨⟨h1.1.1.1, rfl⟩, h1.1.2⟩, h1.2⟩
  · unfold validateRecordSteps at h5 ⊢
    simp only [check_bind_eq_ok, refuse_eq_ok, Bool.not_eq_false', List.all_eq_true] at h5 ⊢
    refine ⟨checkSteps_disposed h5.1, ?_⟩
    intro w hw
    rcases List.mem_append.mp hw with hw | hw
    · exact h5.2 w hw
    · rw [List.mem_singleton] at hw
      exact hw ▸ hv.valid
  · unfold validateRecordDisposition
    simp [disposed, terminal, hv.absence, hv.disposition]

/-! ## 3. The step from the record

Everything is compared with itself, except for the settled steps and the new verification. -/

theorem validTransition_refl (s : State) : validTransition s s = true := by
  unfold validTransition
  split_ifs with h1 h2 h3 <;> simp_all

theorem validTransition_deleted {s : State} (h : terminal s = false) :
    validTransition s .deleted = true := by
  unfold validTransition
  rw [h]
  split_ifs <;> simp_all

theorem chargesKept_refl (observed : Bool) (charges : List Charge) :
    ∀ p ∈ charges.zip charges, chargeKept observed p = .ok () := by
  have hext : Extends (fun a b => a = b) charges charges := Extends.refl (fun _ => rfl) charges
  intro p hp
  have heq := (Extends.iff_zip.mp hext).2 p hp
  unfold chargeKept
  rw [heq]
  simp

theorem stepKept_refl (r : Record) (s : Step) : stepKept r s s = .ok () := by
  unfold stepKept
  simp only [check_bind_eq_ok, refuse_eq_ok, checkAll_eq_ok]
  refine ⟨by simp, by simp, by simp, chargesKept_refl _ _, ?_⟩
  rw [validTransition_refl]
  simp

/-- A step state the journal writes may always become observed. -/
theorem validTransition_observed {s : State} (h : validStepState s = true) :
    validTransition s .observed = true := by
  simp only [validStepState, Bool.or_eq_true, beq_iff_eq] at h
  rcases h with ((rfl | rfl) | rfl) | rfl <;> rfl

theorem stepKept_settle {r : Record} {s : Step} (hstate : validStepState s.state = true)
    (hclosed : attemptClosed r = false) : stepKept r s (settleStep r s) = .ok () := by
  unfold settleStep
  split
  · rename_i ha
    unfold stepKept
    simp only [check_bind_eq_ok, refuse_eq_ok, checkAll_eq_ok]
    refine ⟨?_, by simp, by simp, chargesKept_refl _ _, ?_⟩
    · simp [stepFrozen, ha, hclosed]
    · rw [validTransition_observed hstate]
      simp
  · exact stepKept_refl r s

theorem stepState_of_checkSteps {seen : List String} {steps : List Step}
    (h : checkSteps seen steps = .ok ()) : ∀ s ∈ steps, validStepState s.state = true := by
  induction steps generalizing seen with
  | nil => intro s hs; cases hs
  | cons s rest ih =>
    unfold checkSteps at h
    simp only [check_bind_eq_ok, refuse_eq_ok, Bool.or_eq_false_iff, Bool.not_eq_false'] at h
    intro t ht
    rcases List.mem_cons.mp ht with rfl | ht
    · exact h.1.2
    · exact ih h.2.2 t ht

/-- No step is lost or rewritten: each one keeps its place, and the only change is that a step of
the active attempt may have become observed. -/
theorem validateStepHistory_disposed {r : Record} (v : Verification)
    (h : validateRecord r = .ok ()) : validateStepHistory r (disposed r v) = .ok () := by
  unfold validateRecord validateAttempts validateRecordSteps at h
  simp only [check_bind_eq_ok] at h
  obtain ⟨_, _, _, ⟨_, hbounds⟩, ⟨hsteps, _⟩, _⟩ := h
  have hstate := stepState_of_checkSteps hsteps
  have hlen : (disposedSteps r).length = r.steps.length := by
    unfold disposedSteps
    split
    · exact List.length_map _
    · rfl
  have hext : Extends (fun s n => stepKept r s n = .ok ()) r.steps (disposedSteps r) := by
    unfold disposedSteps
    split
    · rename_i hr
      intro i s hs
      refine ⟨settleStep r s, by rw [List.getElem?_map, hs]; rfl, ?_⟩
      exact stepKept_settle (hstate s (List.mem_iff_getElem?.mpr ⟨i, hs⟩))
        (not_closed_of_retained hbounds hr)
    · exact Extends.refl (stepKept_refl r) _
  unfold validateStepHistory
  simp only [check_bind_eq_ok, refuse_eq_ok, checkAll_eq_ok, disposed_steps, hlen]
  refine ⟨by simp, (Extends.iff_zip.mp hext).2, ?_⟩
  rw [List.drop_eq_nil_of_le (by omega)]
  intro s hs
  cases hs

/-- Every step of the active attempt is observed, since the disposal of a retained record settles
them. -/
theorem activeSettled_disposed {r : Record} {v : Verification} (hr : r.state = .vmDeletedRetained) :
    activeSettled (disposed r v) = true := by
  unfold activeSettled activeSteps
  rw [List.all_eq_true]
  intro n hn
  rw [List.mem_filter, disposed_steps] at hn
  obtain ⟨hmem, hact⟩ := hn
  unfold disposedSteps at hmem
  rw [if_pos hr] at hmem
  obtain ⟨s, _, rfl⟩ := List.mem_map.mp hmem
  have hatt : s.attempt = r.activeAttempt := by
    simpa [disposed, Record.activeAttempt] using hact
  unfold settleStep
  rw [if_pos hatt]
  rfl

/-- A retained record is disposed of with evidence that its artifacts are gone; for other records
there is nothing to check. -/
theorem validateRetentionTransition_disposed {r : Record} {v : Verification}
    (hv : AbsenceEvidence r v) : validateRetentionTransition r (disposed r v) = .ok () := by
  unfold validateRetentionTransition
  simp only [check_bind_eq_ok, checkWhen_eq_ok]
  refine ⟨?_, ?_⟩
  · intro hcond
    simp only [Bool.and_eq_true, beq_iff_eq] at hcond
    unfold checkRetentionMove
    simp only [check_bind_eq_ok, refuse_eq_ok, checkAll_eq_ok, activeSettled_disposed hcond.1]
    refine ⟨by simp [disposed], ?_, rfl⟩
    intro w hw
    have hw' : w = v := by simpa [disposed] using hw
    subst hw'
    simp only [beq_eq_false_iff_ne, List.any_eq_false, beq_iff_eq]
    exact ⟨hv.payload, hv.fresh⟩
  · intro hcond
    simp [disposed] at hcond

/-- **The replacement passes the update validator**, whatever the record looks like.  The record
alone passes by §2 and the comparison by §3; the evidence is what the retention rules and the state
ask for. -/
theorem update_disposed {r : Record} {v : Verification} (h : validateRecord r = .ok ())
    (ht : terminal r.state = false) (hv : AbsenceEvidence r v) : Update r (disposed r v) where
  same := rfl
  transition := Or.inl (validTransition_deleted ht)
  terminal := fun hterm => by rw [ht] at hterm; cases hterm
  cid := fun _ => rfl
  verifications := List.prefix_append _ _
  fresh := fun _ _ => by simp [disposed]
  retention := validateRetentionTransition_disposed hv
  steps := validateStepHistory_disposed v h
  valid := validateRecord_disposed h hv

theorem reconciles_disposed {r : Record} {v : Verification} (hv : AbsenceEvidence r v) :
    reconciles r (disposed r v) = true := by
  simp [reconciles, disposed, hv.valid, hv.absence]

/-- **The save of the replacement is admitted**, on a fresh handle and on a resumed one.  The gate
lets it through because a complete proof of absence is what the gate waits for. -/
theorem admitSave_disposed {r : Record} {v : Verification} (gated : Bool)
    (h : validateRecord r = .ok ()) (ht : terminal r.state = false) (hv : AbsenceEvidence r v) :
    admitSave r gated false (disposed r v) = .ok () := by
  unfold admitSave
  rw [check_bind_eq_ok, refuse_eq_ok, reconciles_disposed hv]
  refine ⟨by simp, ?_⟩
  simpa using validateUpdate_iff.mpr (update_disposed h ht hv)

end Journal
