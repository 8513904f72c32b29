/-
# The gate of a resumed handle

A handle on an existing record starts gated: until a save brings complete evidence of what the
allocation holds, it may only ask for reconciliation or settle planned steps.  The history of a
handle (`Local.log`) records each call with the record on disk before and after it, and the gate
is stated on those, not on what the caller meant: `GateHeld`.

The gate is a field of the handle, and a property of the field alone would say little: it must be
tied to what reached the disk.  So each call is logged with the record on disk at its start and at
its end.  `Proves` and `OnlySettles` then speak of these two records, in the form they have on disk.

`GateOk` is the invariant: the log respects the gate, and as long as the log has no evidence the
field is still set.  The second half is needed for the induction, since the next call is judged by
the field.
-/
import PveCpi.Journal.Recovery

namespace Journal

variable {i : Nat}

/-! ## 1. What a call may do

The code decides on the record in memory; the lemmas carry its decisions over to the stored
records. -/

/-- The replacement appended a complete verification that proves what the allocation holds. -/
def Proves (b a : Record) : Prop :=
  ∃ v ∈ a.verifications.drop b.verifications.length, validateVerification v = true ∧
    (v.ownershipVerified = true ∨ v.absenceVerified = true ∨
      a.state = .vmDeletedRetained ∧ v.vmAbsenceVerified = true ∧
        v.artifactDispositionVerified = true)

/-- A planned step of the active attempt was settled without a task. -/
structure Settles (b : Record) (s s' : Step) : Prop where
  active : s.attempt = b.activeAttempt
  planned : s.state = .planned
  observed : s'.state = .observed
  upid : s'.upid = ""
  volIDs : s.volIDs <+: s'.volIDs
  rest : { s' with state := s.state, volIDs := s.volIDs } = s

/-- A record without its steps and its update time. -/
def Record.bare (r : Record) : Record := { r with steps := [], updatedAt := 0 }

/-- Only planned steps were settled; everything else but the update time is the same. -/
structure OnlySettles (b a : Record) : Prop where
  rest : b.bare = a.bare
  length : a.steps.length = b.steps.length
  steps : ∀ (k : Nat) (s s' : Step), b.steps[k]? = some s → a.steps[k]? = some s' →
    s' = s ∨ Settles b s s'

theorem settles_of_settlesStep {b : Record} {s s' : Step} (h : settlesStep b s s' = true) :
    Settles b.stored s.stored s'.stored := by
  simp only [settlesStep, Bool.and_eq_true, beq_iff_eq, List.isPrefixOf_iff_prefix] at h
  obtain ⟨⟨⟨⟨⟨h1, h2⟩, h3⟩, h4⟩, h5⟩, h6⟩ := h
  exact {
    active := by rw [stored_activeAttempt]; exact h1
    planned := h2
    observed := h3
    upid := h4
    volIDs := h5
    rest := congrArg Step.stored h6 }

theorem bare_stored (r : Record) (t : Time) :
    ({ r with updatedAt := t } : Record).stored.bare = r.bare.stored := rfl

/-- The test that the gate makes compares the records without their steps and the steps in pairs;
stored and stamped records pass it in the same way. -/
theorem onlySettles_of_settled {b a : Record} (h : settlesPlannedSteps b a = true) (t : Time) :
    OnlySettles b.stored { a with updatedAt := t }.stored := by
  simp only [settlesPlannedSteps, Bool.and_eq_true, beq_iff_eq, List.all_eq_true,
    Bool.or_eq_true] at h
  obtain ⟨⟨⟨hlen, hrest⟩, hall⟩, _⟩ := h
  have hbare : b.stored.bare = ({ a with updatedAt := t } : Record).stored.bare := by
    rw [bare_stored a t, bare_stored b b.updatedAt]
    exact congrArg Record.stored hrest
  refine ⟨hbare, by simp [Record.stored, hlen], ?_⟩
  intro k s s' hs hs'
  simp only [Record.stored, List.getElem?_map, Option.map_eq_some_iff] at hs hs'
  obtain ⟨s0, hs0, rfl⟩ := hs
  obtain ⟨s0', hs0', rfl⟩ := hs'
  have hmem : (s0, s0') ∈ b.steps.zip a.steps := by
    refine List.mem_iff_getElem?.mpr ⟨k, ?_⟩
    rw [List.getElem?_zip_eq_some]
    exact ⟨hs0, hs0'⟩
  rcases hall _ hmem with heq | hset
  · exact Or.inl (congrArg Step.stored heq).symm
  · exact Or.inr (settles_of_settlesStep hset)

theorem proves_of_reconciles {b a : Record} (h : reconciles b a = true) (t : Time) :
    Proves b.stored { a with updatedAt := t }.stored := by
  simp only [reconciles, Bool.and_eq_true, decide_eq_true_eq, Option.any_eq_true,
    Bool.or_eq_true, beq_iff_eq] at h
  obtain ⟨hlen, v, hv, hvalid, hkind⟩ := h
  refine ⟨v, ?_, hvalid, ?_⟩
  · have hlast : (a.verifications.drop b.verifications.length).getLast? = some v := by
      rw [List.getLast?_drop, if_neg (by omega), hv]
    exact List.mem_of_getLast? hlast
  · rcases hkind with (h1 | h1) | h1
    · exact Or.inl h1
    · exact Or.inr (Or.inl h1)
    · exact Or.inr (Or.inr ⟨h1.1.1, h1.1.2, h1.2⟩)

/-! ## 2. The history of a handle

`GateHeld` speaks of every beginning of the log without evidence, so it is kept by appending. -/

/-- The call succeeded and brought the evidence. -/
def CallEntry.Proves (e : CallEntry) : Prop :=
  e.ok = true ∧ ∃ b a, e.before = some b ∧ e.after = some a ∧ Journal.Proves b a

/-- When the call succeeded, it asked for reconciliation or only settled steps. -/
def CallEntry.Gated (e : CallEntry) : Prop :=
  e.ok = true → ∃ b a, e.before = some b ∧ e.after = some a ∧
    (a.state = .reconciliationRequired ∨ OnlySettles b a)

/-- Up to the first call that brings evidence, every call is gated. -/
def GateHeld (log : List CallEntry) : Prop :=
  ∀ earlier e later, log = earlier ++ e :: later → (∀ p ∈ earlier ++ [e], ¬p.Proves) → e.Gated

/-- The history of a resumed handle respects the gate, and the gate is only lifted by evidence. -/
def GateOk (h : Handle) (log : List CallEntry) : Prop :=
  h.resumed = true → GateHeld log ∧ ((∀ e ∈ log, ¬e.Proves) → h.requiresReconciliation = true)

theorem gateHeld_nil : GateHeld [] := by
  intro earlier e later h
  simp at h

theorem GateHeld.append {log : List CallEntry} {e : CallEntry} (h : GateHeld log)
    (he : (∀ p ∈ log ++ [e], ¬p.Proves) → e.Gated) : GateHeld (log ++ [e]) := by
  intro earlier x later heq hno
  rcases List.eq_nil_or_concat later with rfl | ⟨rest, y, rfl⟩
  · obtain ⟨rfl, hx⟩ := List.append_inj' heq rfl
    obtain rfl : e = x := by simpa using hx
    exact he hno
  · have heq' : log ++ [e] = (earlier ++ x :: rest) ++ [y] := by simpa using heq
    obtain ⟨hlog, _⟩ := List.append_inj' heq' rfl
    exact h earlier x rest hlog hno

/-- **One more call.**  It respects the gate while no evidence was brought, and only evidence
lifts it. -/
theorem GateOk.call {h h' : Handle} {log : List CallEntry} {e : CallEntry} (hg : GateOk h log)
    (hresumed : h'.resumed = h.resumed)
    (hfailed : e.ok = false → h'.requiresReconciliation = h.requiresReconciliation)
    (hsaved : e.ok = true → Saved h h' ∧ e.before = some h.record.stored ∧
      e.after = some h'.record.stored) : GateOk h' (log ++ [e]) := by
  intro hr
  rw [hresumed] at hr
  obtain ⟨hheld, hgate⟩ := hg hr
  have hon : (∀ p ∈ log ++ [e], ¬p.Proves) → h.requiresReconciliation = true := by
    intro hno
    exact hgate fun p hp => hno p (List.mem_append_left _ hp)
  constructor
  · refine hheld.append ?_
    intro hno hok
    obtain ⟨⟨_, _, _, next, now, hpassed, hrec, _⟩, hb, ha⟩ := hsaved hok
    rw [hrec] at ha
    refine ⟨_, _, hb, ha, ?_⟩
    rcases hpassed.passed (hon hno) with hstate | hrecon | hsettles
    · exact Or.inl hstate
    · exact absurd ⟨hok, _, _, hb, ha, proves_of_reconciles hrecon now⟩ (hno e (by simp))
    · exact Or.inr (onlySettles_of_settled hsettles now)
  · intro hno
    cases hok : e.ok with
    | false =>
      rw [hfailed hok]
      exact hon hno
    | true =>
      obtain ⟨⟨_, _, _, next, now, _, hrec, hrr⟩, hb, ha⟩ := hsaved hok
      rw [hrec] at ha
      rw [hrr, hon hno, Bool.true_and, Bool.not_eq_true']
      by_contra hrecon
      exact hno e (by simp) ⟨hok, _, _, hb, ha, proves_of_reconciles (by simpa using hrecon) now⟩

end Journal
