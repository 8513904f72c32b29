/-
# Saving through a handle

`HandleOk` is what a process knows of an open handle between two calls: it holds the record's
lock, and unless a write failed the file is what the handle remembers.  The lock also pins the
authority: a new epoch is only written by a process that holds the lock of every record.  So the
authority checked at the start of a save is still in force when the record is replaced, although
the check and the write are separate steps.

A save is admitted against the record in the handle, but it replaces the one on disk.  That the two
are the same is `HandleOk`, and it is broken by one thing only, a write that failed: the handle is
then poisoned and admits nothing.  So every write that goes through is a save step from what is on
disk, which is what `Guar` asks.
-/
import PveCpi.Journal.Rules

namespace Journal

open Lib.Interleave (Prog wp_bind wp_mono wp_ret wp_kept)

variable {i : Nat}

/-! ## 1. Open handles

Nothing in `HandleOk` is about the authority, which may change between two calls; a save checks it
again. -/

/-- What a process knows of a handle it holds. -/
structure HandleOk (i : Nat) (h : Handle) (w : World) : Prop where
  lock : w.locks h.lockName = some i
  retry : RetrySafe h.record
  disk : h.poisoned = false → w.records.lookup h.record.id = some h.record.stored
  valid : Tidy w → validateRecord h.record = .ok ()

theorem handleOk_stable (h : Handle) : Stands i (HandleOk i h) := by
  intro k hk s t hs ht hg hok
  exact {
    lock := holds_stable _ k hk s t hs ht hg hok.lock
    retry := hok.retry
    disk := fun hp => (record_stable _ _ k hk s t hs ht hg ⟨hok.lock, hok.disk hp⟩).2
    valid := tidy_stable _ k hk s t hs ht hg hok.valid }

/-- A handle in use: no callback runs, and nothing was rejected in this call. -/
structure Ready (i : Nat) (h : Handle) (w : World) : Prop where
  handle : HandleOk i h w
  planning : w.planning i = none
  accepted : (w.call i).rejected = false

theorem ready_stable (h : Handle) : Stands i (Ready i h) := by
  intro k hk s t hs ht hg hr
  exact {
    handle := handleOk_stable h k hk s t hs ht hg hr.handle
    planning := unplanned_stable k hk s t hs ht hg hr.planning
    accepted := call_stable (fun c => c.rejected = false) k hk s t hs ht hg hr.accepted }

/-- The handle is in use, and the authority of its Journal is in force. -/
structure Authorized (i : Nat) (j : Authority) (h : Handle) (w : World) : Prop
    extends Ready i h w where
  unpoisoned : h.poisoned = false
  epoch : w.authority.epoch = j.epoch

/-- **The lock of one record pins the authority.**  A new epoch is only written under the lock of
every record, and this process holds one of them. -/
theorem authorized_stable (j : Authority) (h : Handle) : Stands i (Authorized i j h) := by
  intro k hk s t hs ht hg ha
  refine {
    toReady := ready_stable h k hk s t hs ht hg ha.toReady
    unpoisoned := ha.unpoisoned
    epoch := ?_ }
  rcases hg.authority with heq | ⟨_, hall⟩
  · rw [heq]
    exact ha.epoch
  · exact absurd (hall _ _ (ha.handle.disk ha.unpoisoned)) (not_holds hk ha.handle.lock)

/-! ## 2. The saved record -/

/-- A save step leaves a terminal record as it is. -/
theorem SaveStep.terminal_eq {old next : Record} (h : SaveStep old next)
    (ht : terminal old.state = true) : next = old := by
  have hclosed : generationClosed old.state = true := by
    simp only [generationClosed, ht, Bool.true_or]
  cases h with
  | save hu => exact (hu.terminal ht).symm
  | complete _ hm _ =>
    rw [(retryEligible_iff.mp hm.eligible).open_] at hclosed
    cases hclosed
  | begin _ hm _ =>
    rw [(retryEligible_iff.mp hm.eligible).open_] at hclosed
    cases hclosed

section Stamped

variable {w : World} {h : Handle} {next : Record} {now : Time}

/-- The record a save writes may be written. -/
theorem writable_saved (hw : Inv w) (hok : HandleOk i h w) (hp : h.poisoned = false)
    (hstep : SaveStep h.record next) (hstamp : (now, Stamp.save next) ∈ w.stamps) :
    Writable w { next with updatedAt := now } := by
  have hh := hstep.history
  have hdisk := hw.record _ _ (hok.disk hp)
  exact {
    namespace_eq := hh.namespace_eq.trans hdisk.namespace_eq
    written := ⟨next, now, hstep.valid, rfl⟩
    retry := (hstep.retrySafe hok.retry).stamp now
    created := by
      have : next.createdAt = h.record.stored.createdAt := hh.createdAt
      rw [show ({ next with updatedAt := now } : Record).createdAt = next.createdAt from rfl, this]
      exact hdisk.created
    readable := by
      intro ht
      have hstampOk : StampOk now (.save next) := ht _ hstamp
      exact hstampOk }

/-- The state after the record was replaced, and the handle that remembers it. -/
theorem handleOk_saved {journal : String} {h' : Handle} (hok : HandleOk i h w)
    (hstep : SaveStep h.record next) (hstamp : (now, Stamp.save next) ∈ w.stamps)
    (hr : h'.record = { next with updatedAt := now }) :
    HandleOk i h' (w.putRecord i journal { next with updatedAt := now }) := by
  have hid : h'.record.id = h.record.id := by rw [hr]; exact hstep.history.id
  exact {
    lock := by
      unfold Handle.lockName
      rw [hid]
      exact hok.lock
    retry := by
      rw [hr]
      exact (hstep.retrySafe hok.retry).stamp now
    disk := by
      intro _
      rw [hr]
      exact lookup_putRecord w i journal _
    valid := by
      intro ht
      rw [hr]
      have hs : StampOk now (.save next) := ht _ hstamp
      exact validateRecord_stamp hstep.valid hs.1 }

end Stamped

/-! ## 3. Saving

`Called` is the postcondition of all three calls, with the outcome in it: a refused call has left
the handle as it was, a failed write has poisoned it, and a successful one has moved it on. -/

/-- The gate of a handle lets a save through. -/
structure GatePassed (h : Handle) (next : Record) : Prop where
  passed : h.requiresReconciliation = true → next.state = .reconciliationRequired ∨
    reconciles h.record next = true ∨ settlesPlannedSteps h.record next = true

/-- What a successful save did: the handle remembers the stamped record, and the gate is lifted
by evidence only. -/
def Saved (h h' : Handle) : Prop :=
  h.closed = false ∧ h.poisoned = false ∧ h'.poisoned = false ∧
    ∃ (next : Record) (now : Time), GatePassed h next ∧
      h'.record = { next with updatedAt := now } ∧
      h'.requiresReconciliation = (h.requiresReconciliation && !reconciles h.record next)

/-- What a call on a handle leaves of it. -/
structure Called (i : Nat) (h : Handle) (r : Except Err Unit × Handle) (w : World) : Prop where
  planning : w.planning i = none
  handle : h.closed = false → HandleOk i r.2 w
  closed : r.2.closed = h.closed
  resumed : r.2.resumed = h.resumed
  id : r.2.record.id = h.record.id
  /-- A call that failed does not lift the gate. -/
  failed : ∀ e, r.1 = .error e → r.2.requiresReconciliation = h.requiresReconciliation
  saved : r.1 = .ok () → Saved h r.2

theorem called_keeps (h : Handle) (r : Except Err Unit × Handle) : Keeps i (Called i h r) := by
  intro s t ht he hc
  exact { hc with
    planning := unplanned_stable.kept s t ht he hc.planning
    handle := fun hcl => (handleOk_stable r.2).kept s t ht he (hc.handle hcl) }

/-- A call that was refused. -/
theorem called_refused {h : Handle} {e : Err} {w : World} (hp : w.planning i = none)
    (hok : h.closed = false → HandleOk i h w) : Called i h (.error e, h) w :=
  ⟨hp, hok, rfl, rfl, rfl, fun _ _ => rfl, nofun⟩

/-- A call whose write failed: the handle is poisoned, and forgets the file. -/
theorem called_poisoned {h : Handle} {e : Err} {w : World} (hp : w.planning i = none)
    (hok : HandleOk i { h with poisoned := true } w) :
    Called i h (.error e, { h with poisoned := true }) w :=
  ⟨hp, fun _ => hok, rfl, rfl, rfl, fun _ _ => rfl, nofun⟩

/-- What a poisoned handle still knows. -/
theorem HandleOk.poison {h : Handle} {w : World} (hok : HandleOk i h w) :
    HandleOk i { h with poisoned := true } w :=
  ⟨hok.lock, hok.retry, nofun, hok.valid⟩

/-- What a resumed handle admits has passed the gate, or the handle is not gated any more. -/
theorem gatePassed_of_admitted {h : Handle} {next : Record} {attemptTransition : Bool}
    (hadmitted : admitSave h.record h.requiresReconciliation attemptTransition next = .ok ()) :
    GatePassed h next := by
  unfold admitSave at hadmitted
  rw [check_bind_eq_ok, refuse_eq_ok] at hadmitted
  constructor
  intro hg
  have hgate := hadmitted.1
  rw [hg] at hgate
  simp only [Bool.true_and, Bool.and_eq_false_iff, bne_eq_false_iff_eq, Bool.not_eq_false']
    at hgate
  rcases hgate with (hgate | hgate) | hgate
  · exact Or.inl hgate
  · exact Or.inr (Or.inl hgate)
  · exact Or.inr (Or.inr hgate)

/-- The authority is in force, and the clock was read for this record. -/
structure Stamped (i : Nat) (j : Authority) (h : Handle) (now : Time) (next : Record) (w : World) :
    Prop extends Authorized i j h w where
  stamp : (now, Stamp.save next) ∈ w.stamps

theorem stamped_stable (j : Authority) (h : Handle) (now : Time) (next : Record) :
    Stands i (Stamped i j h now next) := by
  intro k hk s t hs ht hg hst
  exact ⟨authorized_stable j h k hk s t hs ht hg hst.toAuthorized, hg.stamps _ hst.stamp⟩

/-- **The write of a save.**  The clock is read, the record is replaced, and either the file and the
handle move together or the handle is poisoned. -/
theorem wp_persist {j : Authority} {h : Handle} {next : Record} {s : World} (hs : Inv s)
    (hstep : SaveStep h.record next) (hgate : GatePassed h next) (hopen : h.closed = false)
    (hterm : terminal h.record.state = false) (ha : Authorized i j h s) :
    WP i (persist j h next) (Called i h) s := by
  refine wp_bind (wp_timeNow (authorized_stable j h).kept ha (fun _ => wp_kept _ _) ?_) hs
  intro t ht hat
  have hdisk := ht.record _ _ (hat.handle.disk hat.unpoisoned)
  have hcreated : next.createdAt ∈ t.clock := by
    have heq : next.createdAt = h.record.stored.createdAt := hstep.history.createdAt
    rw [heq]
    exact hdisk.created
  refine ⟨fun n hn => by cases hn; exact hcreated, fun now => ?_⟩
  have ht' : Inv (t.stamped now (.save next)) :=
    inv_stamped ht fun n hn => by cases hn; exact hcreated
  have hst : Stamped i j h now next (t.stamped now (.save next)) := {
    handle := ⟨hat.handle.lock, hat.handle.retry, hat.handle.disk,
      fun htidy => hat.handle.valid (tidy_of_stamped htidy)⟩
    planning := hat.planning
    accepted := hat.accepted
    unpoisoned := hat.unpoisoned
    epoch := hat.epoch
    stamp := List.mem_cons_self }
  have hid : ({ next with updatedAt := now } : Record).id = h.record.id := hstep.history.id
  -- Both ends of the write leave a handle; a failed one is poisoned.
  refine wp_run (R := fun _ => Called i h (.ok (), { h with
      record := { next with updatedAt := now },
      requiresReconciliation := h.requiresReconciliation && !reconciles h.record next }))
    (Y := fun w => w.planning i = none ∧ HandleOk i { h with poisoned := true } w) ht'
    (wpE_writeRecord ht' (stamped_stable j h now next).kept hst (fun _ => called_keeps h _)
      (unplanned_stable.and (handleOk_stable _)).kept ?_ ?_ ?_) ?_ ?_
  · intro u hu hsu hd
    have hlookup : u.records.lookup ({ next with updatedAt := now } : Record).id =
        some h.record.stored := by
      rw [hid]
      exact hsu.handle.disk hsu.unpoisoned
    refine ⟨inv_rewriteRecord hu hlookup ((hstep.history.stamp hterm now).stored) hsu.accepted
      hsu.epoch (writable_saved hu hsu.handle hsu.unpoisoned hstep hsu.stamp) hd,
      guar_rewriteRecord ?_ hlookup ⟨h.record, next, now, rfl, rfl, hstep, hterm⟩, ?_⟩
    · rw [hid]
      exact hsu.handle.lock
    · exact {
        planning := hsu.planning
        handle := fun _ => handleOk_saved hsu.handle hstep hsu.stamp rfl
        closed := rfl
        resumed := rfl
        id := hid
        failed := nofun
        saved := fun _ => ⟨hopen, hsu.unpoisoned, hsu.unpoisoned, next, now, hgate, rfl, rfl⟩ }
  · intro u _ hsu
    exact ⟨hsu.planning, hsu.handle.poison⟩
  · intro u _ hsu
    exact ⟨hsu.planning, hsu.handle.lock, hsu.handle.retry, nofun, hsu.handle.valid⟩
  · intro _ u _ hcalled
    exact wp_ret (called_keeps h _) hcalled
  · intro e u _ hpo
    exact wp_ret (called_keeps h _) (called_poisoned hpo.1 hpo.2)

/-- **One save.**  A closed or poisoned handle and a refused replacement write nothing; otherwise
the record is rewritten under its lock by a step of the history, and a failure to write poisons the
handle. -/
theorem wp_saveLocked {j : Authority} {h : Handle} {next : Record} {attemptTransition : Bool}
    {s : World} (hs : Inv s)
    (hstep : admitSave h.record h.requiresReconciliation attemptTransition next = .ok () →
      SaveStep h.record next)
    (hp : s.planning i = none) (hc : (s.call i).rejected = false)
    (hh : h.closed = false → HandleOk i h s) :
    WP i (saveLocked j h next attemptTransition) (Called i h) s := by
  unfold saveLocked
  by_cases hclosed : h.closed = true
  · rw [if_pos hclosed]
    exact wp_ret (called_keeps h _) (called_refused hp hh)
  by_cases hpoisoned : h.poisoned = true
  · rw [if_neg hclosed, if_pos hpoisoned]
    exact wp_ret (called_keeps h _) (called_refused hp hh)
  rw [if_neg hclosed, if_neg hpoisoned]
  have hopen : h.closed = false := by simpa using hclosed
  have hclean : h.poisoned = false := by simpa using hpoisoned
  have hready : Ready i h s := ⟨hh hopen, hp, hc⟩
  have hRkeeps := (ready_stable (i := i) h).kept
  refine wp_run (R := fun _ => Authorized i j h) hs (wpE_checkAuthority hs hRkeeps hready
    (fun _ => (authorized_stable j h).kept) (fun _ => hRkeeps)
    (fun t _ hr he _ => ⟨hr, hclean, he⟩) (fun _ _ _ h => h)) ?_ ?_
  · intro u t ht ha
    cases hadmitted : admitSave h.record h.requiresReconciliation attemptTransition next with
    | error e => exact wp_ret (called_keeps h _) (called_refused ha.planning fun _ => ha.handle)
    | ok v =>
      have hsave := hstep hadmitted
      have hgate := gatePassed_of_admitted hadmitted
      by_cases hterm : terminal h.record.state = true
      · -- A terminal record is only confirmed.
        have hsame := hsave.terminal_eq hterm
        subst hsame
        simp only [hterm, if_true]
        refine wp_ret (called_keeps h _) ?_
        refine { called_refused (e := ioErr) ha.planning fun _ => ha.handle with
          failed := nofun
          saved := fun _ => ⟨hopen, hclean, hclean, h.record, h.record.updatedAt, hgate, rfl, ?_⟩ }
        simp [reconciles]
      · simp only [hterm]
        exact wp_persist ht hsave hgate hopen (by simpa using hterm) ha
  · intro e t _ hr
    exact wp_ret (called_keeps h _) (called_refused hr.planning fun _ => hr.handle)

/-- **Every call on a handle** keeps what the process knows of it.  Refusals come before any effect;
behind them stands the write of a save. -/
theorem wp_handleCall {j : Authority} {h : Handle} {c : HandleCall} {s : World} (hs : Inv s)
    (hp : s.planning i = none) (hc : (s.call i).rejected = false)
    (hh : h.closed = false → HandleOk i h s) : WP i (c.run j h) (Called i h) s := by
  cases c with
  | save next => exact wp_saveLocked hs (fun h => .save (admitSave_save h)) hp hc hh
  | completeAttempt v =>
    simp only [HandleCall.run]
    cases hr : completeAttemptRecord h.record v with
    | error e => exact wp_ret (called_keeps h _) (called_refused hp hh)
    | ok next =>
      refine wp_saveLocked hs (fun hadmitted => ?_) hp hc hh
      obtain ⟨hm, hu⟩ := admitSave_attempt hadmitted
      exact .complete hr hm hu
  | beginAttempt p v =>
    simp only [HandleCall.run]
    cases hr : beginAttemptRecord h.record p v with
    | error e => exact wp_ret (called_keeps h _) (called_refused hp hh)
    | ok next =>
      refine wp_saveLocked hs (fun hadmitted => ?_) hp hc hh
      obtain ⟨hm, hu⟩ := admitSave_attempt hadmitted
      exact .begin hr hm hu

end Journal
