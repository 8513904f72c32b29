/-
# The journal keeps its protocol

`LocOk` is what a process knows between two calls.  Each call of `Op` starts from it and ends in
it (`start_ok` of `journalProtocol`), whatever the other processes do in between, so by the one
induction over runs the invariant and the guarantee hold of every run from a namespace just
enrolled.

Everything before this module is about one call at one moment.  Here the calls are put together:
`journalProtocol` is the record that `Lib.Interleave` asks for, with `Inv` and `Guar` of `Protocol`
and `LocOk` for the local assertions, and its proof obligations are the rules of the modules before.

`Run a c` starts from a directory just enrolled with the authority `a`.  The enrollment itself is
not part of a run: it creates the directory, and nothing can be shared before it has ended.
-/
import PveCpi.Journal.Gate

namespace Journal

open Lib.Interleave (Prog Kept Protocol Config Reach wp_bind wp_mono wp_ret wp_kept wp_frame
  wpE_bind wpE_pure wpE_mono wpE_kept stable_const)

variable {i : Nat}

/-! ## 1. Between two calls

What a process remembers is a Journal, a handle and the history of the handle's calls.  A Journal
may be out of date; the only thing known of it is that its epoch was in force at some time. -/

/-- The epoch of the process's Journal was in force when it was opened. -/
def JournalKnown (l : Local) (w : World) : Prop := ∀ j, l.journal = some j → j.epoch ∈ w.epochs

/-- What a process knows between two calls. -/
structure LocOk (i : Nat) (l : Local) (w : World) : Prop where
  quiet : Quiet i w
  journal : JournalKnown l w
  handle : ∀ h, l.handle = some h → h.closed = false → HandleOk i h w
  gate : ∀ h, l.handle = some h → GateOk h l.log

theorem journalKnown_guar {k : Nat} {s t : World} {l : Local} (hg : Guar k s t)
    (h : JournalKnown l s) : JournalKnown l t :=
  fun j hj => hg.past _ (h j hj)

theorem locOk_keeps (l : Local) : Keeps i (LocOk i l) := by
  intro s t ht he h
  exact {
    quiet := quiet_keeps s t ht he h.quiet
    journal := fun j hj => (epoch_past_stable _).kept s t ht he (h.journal j hj)
    handle := fun hd hh hc => (handleOk_stable hd).kept s t ht he (h.handle hd hh hc)
    gate := h.gate }

/-- A process without an open handle knows little. -/
theorem locOk_idle {l : Local} {w w' : World} (h : LocOk i l w) (hidle : l.idle = true)
    (hq : Quiet i w') (hj : JournalKnown l w') : LocOk i l w' where
  quiet := hq
  journal := hj
  handle := by
    intro hd hh hc
    unfold Local.idle at hidle
    rw [hh] at hidle
    have : hd.closed = true := by simpa using hidle
    rw [hc] at this
    cases this
  gate := h.gate

/-- A handle just acquired, with an empty history. -/
theorem locOk_acquired {l : Local} {h : Handle} {w : World} (ha : Acquired i h w)
    (hj : JournalKnown l w) : LocOk i { l with handle := some h, log := [] } w where
  quiet := ha.planning
  journal := hj
  handle := by
    intro hd hh _
    cases hh
    exact ha.handle
  gate := by
    intro hd hh hr
    cases hh
    exact ⟨gateHeld_nil, fun _ => by rw [ha.gated]; exact hr⟩

theorem HandleOk.setCall {h : Handle} {w : World} (hok : HandleOk i h w) (c : Call) :
    HandleOk i h (w.setCall i c) :=
  ⟨hok.lock, hok.retry, hok.disk, hok.valid⟩

/-- A call starts. -/
theorem LocOk.enter {l : Local} {w : World} (h : LocOk i l w) : LocOk i l (w.setCall i {}) where
  quiet := h.quiet
  journal := h.journal
  handle := fun hd hh hc => (h.handle hd hh hc).setCall {}
  gate := h.gate

theorem LocOk.untouched {l : Local} {w : World} (h : LocOk i l w) :
    Untouched i (w.setCall i {}) :=
  ⟨h.quiet, by simp [World.setCall]⟩

/-! ## 2. Calls that acquire, and calls that keep nothing -/

section Calls

variable {l : Local} {s : World}

theorem wp_keepHandle {p : M Handle} (hs : Inv s) (hl : LocOk i l s) (hidle : l.idle = true)
    (hp : WPE i p (fun h => Acquired i h) (fun _ => Quiet i) s) :
    WP i (keepHandle l p) (LocOk i) s := by
  have hframe := wp_frame (R := JournalKnown l) (fun _ _ _ _ _ hg h => journalKnown_guar hg h)
    hl.journal hp
  refine wp_bind (wp_mono ?_ hframe) hs
  rintro r t _ ⟨hr, hj⟩
  cases r with
  | ok h => exact wp_ret (locOk_keeps _) (locOk_acquired hr hj)
  | error e => exact wp_ret (locOk_keeps _) (locOk_idle hl hidle hr hj)

theorem wp_keepNothing {p : M Unit} (hs : Inv s) (hl : LocOk i l s) (hidle : l.idle = true)
    (hp : WPE i p (fun _ => Quiet i) (fun _ => Quiet i) s) :
    WP i (keepNothing l p) (LocOk i) s := by
  have hframe := wp_frame (R := JournalKnown l) (fun _ _ _ _ _ hg h => journalKnown_guar hg h)
    hl.journal hp
  refine wp_bind (wp_mono ?_ hframe) hs
  rintro r t _ ⟨hr, hj⟩
  have hq : Quiet i t := by
    cases r with
    | ok u => exact hr
    | error e => exact hr
  exact wp_ret (locOk_keeps _) (locOk_idle hl hidle hq hj)

/-- `Open` remembers the authority it read. -/
theorem wpE_openJournal (ns clusterID : String) (hs : Inv s) (hq : Quiet i s) :
    WPE i (openJournal ns clusterID) (fun a w => Quiet i w ∧ a.epoch ∈ w.epochs)
      (fun _ => Quiet i) s := by
  have hQ : ∀ a : Authority, Keeps i fun w => Quiet i w ∧ a.epoch ∈ w.epochs :=
    fun a => quiet_keeps.and (epoch_past_stable _).kept
  refine wpE_bind hs (fun _ => quiet_keeps) (wpE_readAuthority hs quiet_keeps hq
    (fun _ => wpE_kept _ _ _) (fun _ => quiet_keeps) ?_ (fun _ _ _ h => h))
  intro t ht hqt _
  refine wpE_skip ht (fun _ => quiet_keeps) (readOnly_check _) (hQ t.authority)
    ⟨hqt, List.mem_cons_self⟩ (fun _ _ _ h => h.1) ?_
  intro _ u _ hu
  exact wpE_pure (hQ _) hu

/-! ## 3. Calls on a handle -/

/-- A call on the handle is recorded with the record on disk before and after it. -/
theorem wp_recordedCall {j : Authority} {h : Handle} {c : HandleCall} (hs : Inv s)
    (hl : LocOk i l s) (hh : l.handle = some h) (hc : s.call i = {}) :
    WP i (recordedCall l j h c) (LocOk i) s := by
  -- What is known in front of the call.
  have hA : Keeps i fun w => (LocOk i l w ∧ w.call i = {}) :=
    (locOk_keeps l).and (call_stable fun c => c = {}).kept
  have hobserve : WP i (observe h.record.id) (fun b w => (LocOk i l w ∧ w.call i = {}) ∧
      (h.closed = false → h.poisoned = false → b = some h.record.stored)) s := by
    refine wp_observe hA ⟨hl, hc⟩ (fun _ => hA.and (stable_const _).kept) ?_
    intro t _ ht
    exact ⟨ht, fun hcl hp => (ht.1.handle h hh hcl).disk hp⟩
  refine wp_bind (wp_mono ?_ hobserve) hs
  rintro before t ht ⟨⟨hlt, hct⟩, hbefore⟩
  -- The call itself; the epoch of the Journal stays known.
  have hcall := wp_frame (R := JournalKnown l) (fun _ _ _ _ _ hg h => journalKnown_guar hg h)
    hlt.journal (wp_handleCall (j := j) (c := c) ht hlt.quiet (by rw [hct])
      (fun hcl => hlt.handle h hh hcl))
  refine wp_bind (wp_mono ?_ hcall) ht
  rintro r u hu ⟨hcalled, hju⟩
  have hB : Keeps i fun w => Called i h r w ∧ JournalKnown l w := by
    intro s t ht he h
    exact ⟨called_keeps _ r s t ht he h.1,
      fun j hj => (epoch_past_stable _).kept s t ht he (h.2 j hj)⟩
  refine wp_bind (wp_observe hB ⟨hcalled, hju⟩ (fun _ => wp_kept _ _) ?_) hu
  rintro v _ ⟨hv, hjv⟩
  refine wp_ret (locOk_keeps _) ?_
  exact {
    quiet := hv.planning
    journal := hjv
    handle := by
      intro hd hhd hcl
      cases hhd
      exact hv.handle (hv.closed.symm.trans hcl)
    gate := by
      intro hd hhd
      cases hhd
      refine (hl.gate h hh).call hv.resumed ?_ ?_
      · intro hok
        cases hr1 : r.1 with
        | ok x => rw [hr1] at hok; cases hok
        | error e => exact hv.failed e hr1
      · intro hok
        have hr1 : r.1 = .ok () := by
          cases hr1 : r.1 with
          | ok x => rfl
          | error e => rw [hr1] at hok; cases hok
        have hsaved := hv.saved hr1
        obtain ⟨hcl, hp, hp', _⟩ := id hsaved
        refine ⟨hsaved, hbefore hcl hp, ?_⟩
        have hdisk := (hv.handle hcl).disk hp'
        rw [hv.id] at hdisk
        exact hdisk }

/-- A closed handle is known to be closed. -/
theorem wp_closing {h : Handle} (hs : Inv s) (hl : LocOk i l s) (hh : l.handle = some h) :
    WP i (do let _ ← h.close
             pure { l with handle := some { h with closed := true } }) (LocOk i) s := by
  have hframe := wp_frame (R := JournalKnown l) (fun _ _ _ _ _ hg h => journalKnown_guar hg h)
    hl.journal (wp_close (h := h) hl.quiet)
  refine wp_bind (wp_mono ?_ hframe) hs
  rintro _ t _ ⟨hq, hj⟩
  refine wp_ret (locOk_keeps _) ⟨hq, hj, ?_, ?_⟩
  · intro hd hhd hcl
    cases hhd
    cases hcl
  · intro hd hhd
    cases hhd
    exact hl.gate h hh

end Calls

/-! ## 4. The protocol

One case for each call of `Op`. -/

/-- A call that needs an idle process with a Journal. -/
theorem idle_prog {l : Local} {f : Authority → P Local} {p : P Local}
    (h : (if l.idle then l.journal.map f else none) = some p) :
    l.idle = true ∧ ∃ j, p = f j := by
  split at h
  · rename_i hidle
    obtain ⟨j, _, hj⟩ := Option.map_eq_some_iff.mp h
    exact ⟨hidle, j, hj.symm⟩
  · cases h

/-- Every call starts from what the process knows and ends in it. -/
theorem wp_op {o : Op} {l : Local} {p : P Local} {s : World} (hs : Inv (s.setCall i {}))
    (hl : LocOk i l s) (hp : o.prog l = some p) : WP i p (LocOk i) (s.setCall i {}) := by
  have hle := hl.enter
  have hu := hl.untouched
  cases o with
  | «open» ns clusterID =>
    simp only [Op.prog] at hp
    split at hp
    · rename_i hidle
      cases hp
      have hframe := wp_frame (R := JournalKnown l)
        (fun _ _ _ _ _ hg h => journalKnown_guar hg h) hle.journal
        (wpE_openJournal ns clusterID hs hle.quiet)
      refine wp_bind (wp_mono ?_ hframe) hs
      rintro r t _ ⟨hr, hj⟩
      cases r with
      | error e => exact wp_ret (locOk_keeps _) (locOk_idle hle hidle hr hj)
      | ok a =>
        refine wp_ret (locOk_keeps _) ⟨hr.1, ?_, ?_, ?_⟩
        · intro j hja
          cases hja
          exact hr.2
        · intro h hh
          cases hh
        · intro h hh
          cases hh
    · cases hp
  | acquireVM agentID intent passes =>
    obtain ⟨hidle, j, rfl⟩ := idle_prog hp
    exact wp_keepHandle hs hle hidle (wpE_acquireVMChecked hs hu)
  | acquireVMPlanned agentID plan passes =>
    obtain ⟨hidle, j, rfl⟩ := idle_prog hp
    exact wp_keepHandle hs hle hidle (wpE_acquireVMChecked hs hu)
  | createDisk id intent =>
    obtain ⟨hidle, j, rfl⟩ := idle_prog hp
    exact wp_keepHandle hs hle hidle (wpE_createDisk hs hu)
  | acquire id =>
    obtain ⟨hidle, j, rfl⟩ := idle_prog hp
    exact wp_keepHandle hs hle hidle (wpE_acquire hs hu.planning)
  | call c =>
    obtain ⟨j, _, hj⟩ := Option.bind_eq_some_iff.mp hp
    obtain ⟨h, hh, rfl⟩ := Option.map_eq_some_iff.mp hj
    exact wp_recordedCall hs hle hh hu.call
  | close =>
    obtain ⟨h, hh, rfl⟩ := Option.map_eq_some_iff.mp hp
    exact wp_closing hs hle hh
  | resolveMissingVMGeneration agentID id intent v =>
    obtain ⟨hidle, j, rfl⟩ := idle_prog hp
    exact wp_keepNothing hs hle hidle (wpE_resolveMissingVMGeneration hs hu)
  | recoverAuthority e =>
    obtain ⟨hidle, j, rfl⟩ := idle_prog hp
    exact wp_keepNothing hs hle hidle (wpE_recoverAuthority hs hu)
  | recoverIndex e =>
    obtain ⟨hidle, j, rfl⟩ := idle_prog hp
    exact wp_keepNothing hs hle hidle (wpE_recoverIndex hs hu)

/-- A process without memory knows nothing. -/
theorem locOk_boot {w : World} (hq : Quiet i w) : LocOk i {} w := by
  refine ⟨hq, ?_, ?_, ?_⟩
  · intro j hj
    cases hj
  · intro h hh
    cases hh
  · intro h hh
    cases hh

/-- **The rely-guarantee proof of the journal.** -/
def journalProtocol : Protocol journalSys where
  Inv := Inv
  Guar := Guar
  Loc := LocOk
  start_ok := by
    intro i o l p s hs hl hp
    have hs' : Inv (s.setCall i {}) := inv_setCall hs ⟨Nat.zero_le 1, fun h => by cases h⟩
    exact ⟨hs', guar_setCall, wp_op hs' hl hp⟩
  halt_ok := by
    intro i s hs
    exact ⟨inv_halt hs, guar_halt, locOk_boot (by simp [Quiet, halt, World.setPlanning,
      World.setCall])⟩
  boot_kept := fun _ => locOk_keeps {}

/-- A new directory meets the invariant: it has no records, and nothing is under way. -/
theorem inv_enrolled (a : Authority) : Inv (enrolled a) where
  record := by
    intro id r hr
    cases hr
  generation := by
    intro id r hr
    cases hr
  stamps := by
    intro _ t next hmem
    cases hmem
  planning := by
    intro i p hp
    cases hp
  call := fun i => ⟨Nat.zero_le 1, fun h => by cases h⟩
  fenced := trivial
  issued := by
    intro e he
    exact he

/-- A run of the journal from a namespace just enrolled. -/
def Run (a : Authority) (c : Config journalSys) : Prop :=
  Reach (Config.initial (enrolled a)) c

/-- **Every reachable configuration keeps the invariant and every process's assertion.**  The one
use of `Protocol.reachable`; all results about runs start from it. -/
theorem Run.ok {a : Authority} {c : Config journalSys} (h : Run a c) : journalProtocol.Ok c :=
  Protocol.reachable (inv_enrolled a) (fun _ => locOk_boot (show Quiet _ (enrolled a) from rfl)) h

end Journal
