/-
# The direct way from a returned record to its disposal

A record that was returned or adopted cannot become observed by the table of transitions.
`returnedDisposalAdmitted` lets it through all the same when the replacement brings fresh evidence,
and its comment gives the reason: the journal accepts the same result as two writes, one to
`reconciliation_required` and one to `observed`.

`direct_disposal_iff` is that sentence.  The record in between differs from the old one by its state
and its reason, and no validator but that of the state reads either of them, so the rules for the
steps, the evidence and the attempts are the same from both.

The comment could be wrong in either direction.  The direct way could admit something that two
writes do not, which would weaken the journal, or it could refuse something that two writes admit,
which would make a caller's choice of path visible.  The equivalence excludes both, for every valid
record and every replacement with new evidence.

In one direction the record in between has to be made up: any reason that is not blank will do.
-/
import PveCpi.Journal.Guarantees
import PveCpi.Journal.Disposal

namespace Journal

/-- The record moved to `reconciliation_required` with a reason. -/
def Record.held (r : Record) (reason : String) : Record :=
  { r with state := .reconciliationRequired, reason := reason }

/-! ## 1. The record in between

A valid record that is not at its end may be held, for any reason. -/

section Held

variable {r : Record} {reason : String}

theorem validateAttempts_held (h : validateAttempts r = .ok ()) :
    validateAttempts (r.held reason) = .ok () := by
  unfold validateAttempts at h ⊢
  simp only [check_bind_eq_ok] at h ⊢
  refine ⟨h.1, ?_⟩
  have hbounds := h.2
  unfold validateAttemptStepBounds at hbounds ⊢
  simp only [check_bind_eq_ok, refuse_eq_ok] at hbounds ⊢
  exact ⟨hbounds.1, by simp [Record.held]⟩

theorem validateRecord_held (h : validateRecord r = .ok ()) (hreason : nonblank reason = true) :
    validateRecord (r.held reason) = .ok () := by
  unfold validateRecord at h ⊢
  simp only [check_bind_eq_ok] at h ⊢
  obtain ⟨h1, h2, h3, h4, h5, -⟩ := h
  refine ⟨?_, h2, h3, validateAttempts_held h4, h5, ?_⟩
  · unfold validateIdentity at h1 ⊢
    simp only [refuse_eq_ok, Bool.or_eq_false_iff] at h1 ⊢
    exact ⟨⟨⟨h1.1.1.1, rfl⟩, h1.1.2⟩, h1.2⟩
  · unfold validateRecordDisposition
    simp [Record.held, hreason, terminal]

theorem validateStepHistory_refl (r : Record) : validateStepHistory r r = .ok () := by
  have hext : Lib.Extends (fun s n => stepKept r s n = .ok ()) r.steps r.steps :=
    Lib.Extends.refl (stepKept_refl r) _
  unfold validateStepHistory
  simp only [check_bind_eq_ok, refuse_eq_ok, checkAll_eq_ok, List.drop_length]
  exact ⟨by simp, (Lib.Extends.iff_zip.mp hext).2, fun s hs => by cases hs⟩

/-- A record that is not at its end may always be held. -/
theorem update_held (h : validateRecord r = .ok ()) (hopen : generationClosed r.state = false)
    (hreason : nonblank reason = true) : Update r (r.held reason) where
  same := rfl
  transition := by
    refine Or.inl ?_
    have hterminal : terminal r.state = false := (Bool.or_eq_false_iff.mp hopen).1
    have hretained : (r.state == .vmDeletedRetained) = false := (Bool.or_eq_false_iff.mp hopen).2
    unfold validTransition
    simp [hterminal, hretained, Record.held]
  terminal hterminal := by
    rw [(Bool.or_eq_false_iff.mp hopen).1] at hterminal
    cases hterminal
  cid _ := rfl
  verifications := List.prefix_refl _
  fresh _ hne := absurd rfl hne
  retention := by
    have hretained : (r.state == .vmDeletedRetained) = false := (Bool.or_eq_false_iff.mp hopen).2
    unfold validateRetentionTransition
    simp only [check_bind_eq_ok, checkWhen_eq_ok]
    exact ⟨by simp [hretained], by simp [Record.held]⟩
  steps := validateStepHistory_refl r
  valid := validateRecord_held h hreason

end Held

/-! ## 2. The two ways

What is left of the validators on either way is the same list of checks, on the same records. -/

/-- The rules of an update that read neither the state nor the reason of the old record. -/
structure Continues (old next : Record) : Prop where
  same : withMutable old next = next
  cid : old.cid ≠ "" → old.cid = next.cid
  verifications : old.verifications <+: next.verifications
  steps : validateStepHistory old next = .ok ()
  valid : validateRecord next = .ok ()

section Ways

variable {old next : Record} {reason : String}

theorem validateRetentionTransition_observed (hold : old.state ≠ .vmDeletedRetained)
    (hnext : next.state = .observed) : validateRetentionTransition old next = .ok () := by
  unfold validateRetentionTransition
  simp [check_bind_eq_ok, checkWhen_eq_ok, hold, hnext]

theorem Update.continues (h : Update old next) : Continues old next :=
  ⟨h.same, h.cid, h.verifications, h.steps, h.valid⟩

/-- From the record in between, with fresh evidence: its state admits the transition, and it differs
from the old record in nothing that the other rules read. -/
theorem update_from_held (hnext : next.state = .observed)
    (hlen : old.verifications.length < next.verifications.length) :
    Update (old.held reason) next ↔ Continues old next := by
  constructor
  · intro h
    exact ⟨h.same, h.cid, h.verifications, h.steps, h.valid⟩
  · intro h
    refine ⟨h.same, Or.inl ?_, fun hterminal => (by cases hterminal), h.cid, h.verifications,
      fun _ _ => (Nat.ne_of_lt hlen).symm, ?_, h.steps, h.valid⟩
    · rw [hnext]
      rfl
    · exact validateRetentionTransition_observed (by simp [Record.held]) hnext

/-- The direct way, with fresh evidence that proves ownership or absence. -/
theorem update_direct (hold : old.state = .readyToReturn ∨ old.state = .adopted)
    (hnext : next.state = .observed) (hlen : old.verifications.length < next.verifications.length)
    {v : Verification} (hlast : next.verifications.getLast? = some v)
    (hproves : v.ownershipVerified = true ∨ v.absenceVerified = true) :
    Update old next ↔ Continues old next := by
  constructor
  · exact Update.continues
  · intro h
    -- The record is valid, so all its evidence is complete.
    have hv : validateVerification v = true := by
      have hall := h.valid
      unfold validateRecord validateRecordSteps at hall
      simp only [check_bind_eq_ok, refuse_eq_ok, Bool.not_eq_false', List.all_eq_true] at hall
      exact hall.2.2.2.2.1.2 v (List.mem_of_getLast? hlast)
    have hadmitted : returnedDisposalAdmitted old next = true := by
      unfold returnedDisposalAdmitted
      rw [hlast, hnext]
      simpa [hlen, hv, hold] using hproves
    have hterminal : terminal old.state = false := by
      rcases hold with hold | hold
      · rw [hold]
        rfl
      · rw [hold]
        rfl
    refine ⟨h.same, Or.inr hadmitted, fun ht => ?_, h.cid, h.verifications, fun hrec => ?_, ?_,
      h.steps, h.valid⟩
    · rw [hterminal] at ht
      cases ht
    · rcases hold with hold | hold
      · rw [hold] at hrec
        cases hrec
      · rw [hold] at hrec
        cases hrec
    · refine validateRetentionTransition_observed ?_ hnext
      rcases hold with hold | hold
      · rw [hold]
        decide
      · rw [hold]
        decide

end Ways

/-- **The direct disposal is the two-step path.**  A valid record that was returned or adopted may
become an observed one, with new evidence that proves ownership or absence, exactly when it may be
held for some reason first and become the observed record then.  On both ways the evidence must be
complete.  Both ways reduce to `Continues`, the rules that read neither the state nor the reason of
the old record (`update_direct`, `update_from_held`). -/
theorem direct_disposal_iff {old next : Record} (hvalid : validateRecord old = .ok ())
    (hold : old.state = .readyToReturn ∨ old.state = .adopted) (hnext : next.state = .observed)
    (hlen : old.verifications.length < next.verifications.length) {v : Verification}
    (hlast : next.verifications.getLast? = some v)
    (hproves : v.ownershipVerified = true ∨ v.absenceVerified = true) :
    validateUpdate old next = .ok () ↔ ∃ reason, nonblank reason = true ∧
      validateUpdate old (old.held reason) = .ok () ∧
      validateUpdate (old.held reason) next = .ok () := by
  have hopen : generationClosed old.state = false := by
    rcases hold with hold | hold
    · rw [hold]
      rfl
    · rw [hold]
      rfl
  simp only [validateUpdate_iff, update_direct hold hnext hlen hlast hproves,
    update_from_held hnext hlen]
  constructor
  · intro h
    have hreason : nonblank "disposal" = true := by decide
    exact ⟨"disposal", hreason, update_held hvalid hopen hreason, h⟩
  · rintro ⟨reason, -, -, h⟩
    exact h

theorem direct_disposal_sample : validateUpdate sampleReturned sampleObserved = .ok () ∧
    ∃ reason, nonblank reason = true ∧
      validateUpdate sampleReturned (sampleReturned.held reason) = .ok () ∧
      validateUpdate (sampleReturned.held reason) sampleObserved = .ok () := by
  have hdirect := sampleObserved_accepted
  exact ⟨hdirect, (direct_disposal_iff sampleReturned_valid (Or.inl rfl) rfl (by decide)
    (v := sampleOwned) rfl (Or.inl rfl)).mp hdirect⟩

end Journal
