/-
# Acquiring handles

`AcquireVM` and `AcquireVMPlanned` loop over a pass that takes the index lock, looks at the
indexed generation and either resumes it, waits for it, or starts a new one.  What the proofs
carry through the loop is that a pass which ends without a handle did nothing (`UnderOk.waiting`),
so the callback of a planned acquisition runs at most once however often the loop goes round.
`CreateDisk` and `Acquire` have no loop.

A pass has four ways to end: an error, a handle on the generation it resumed, a handle on a new one,
and a generation that somebody else holds.  Only after the last does the loop go round again.  The
postcondition of a pass (`UnderOk`) answers what the loop has to know: is a callback still running,
has anything happened, does the handle, if any, hold its record.

`Acquire` resumes a record by its identifier under its own lock, without the index; it can run
beside a pass that looks at the same record, and the record lock decides between them.
-/
import PveCpi.Journal.Creation

namespace Journal

open Lib.Interleave (Prog Kept wp_bind wp_mono wp_ret wp_kept wpE_bind wpE_pure wpE_mono wpE_kept
  stable_const)

variable {i : Nat} {j : Authority}

/-! ## 1. Looking at the index

The index is validated against the records before it is believed. -/

/-- The process has the index lock, did nothing in this call yet, and checked the authority. -/
structure Looking (i : Nat) (j : Authority) (idx : Index) (w : World) : Prop where
  lock : w.locks .index = some i
  epoch : w.authority.epoch = j.epoch
  namespace_eq : w.authority.namespace = j.namespace
  index : w.index = idx
  planning : w.planning i = none
  call : w.call i = {}

theorem looking_stable (idx : Index) : Stands i (Looking i j idx) := by
  intro k hk s t hs ht hg h
  have ha := hg.authority_eq hk h.lock
  exact {
    lock := holds_stable .index k hk s t hs ht hg h.lock
    epoch := by rw [ha]; exact h.epoch
    namespace_eq := by rw [ha]; exact h.namespace_eq
    index := (index_stable idx k hk s t hs ht hg ⟨h.lock, h.index⟩).2
    planning := unplanned_stable k hk s t hs ht hg h.planning
    call := call_stable (fun c => c = {}) k hk s t hs ht hg h.call }

/-- Where the index names a closed generation, or none, a new one may be started. -/
theorem Looking.site {idx : Index} {key : String} {w : World} (h : Looking i j idx w)
    (hc : ∀ id, idx.activeVMs.lookup key = some id →
      ∃ r, w.records.lookup id = some r ∧ generationClosed r.state = true) :
    Site i j key idx w where
  lock := h.lock
  epoch := h.epoch
  namespace_eq := h.namespace_eq
  index := h.index
  closed := hc
  accepted := by rw [h.call]
  unwritten := by rw [h.call]

/-- A process that just took the index lock. -/
structure Entered (i : Nat) (w : World) : Prop where
  lock : w.locks .index = some i
  planning : w.planning i = none
  call : w.call i = {}

theorem entered_stable : Stands i (Entered i) := by
  intro k hk s t hs ht hg h
  exact ⟨holds_stable .index k hk s t hs ht hg h.lock,
    unplanned_stable k hk s t hs ht hg h.planning,
    call_stable (fun c => c = {}) k hk s t hs ht hg h.call⟩

/-- Under the index lock the epoch and the index are read.  What was read stays true, since only a
holder of that lock writes them (`Looking`). -/
theorem wpE_readGenerations {s : World} (hs : Inv s) (h : Entered i s) :
    WPE i (readGenerations j) (fun idx w => Looking i j idx w ∧ IndexValid idx)
      (fun _ w => w.planning i = none) s := by
  have hquietK : Keeps i fun w => w.planning i = none := unplanned_stable.kept
  have hQ : ∀ idx, Keeps i fun w => Looking i j idx w ∧ IndexValid idx :=
    fun idx => (looking_stable idx).kept.and (stable_const _).kept
  have hInside : Keeps i fun w => Entered i w ∧ Inside i j w :=
    entered_stable.kept.and (inside_stable j).kept
  refine wpE_bind hs (fun _ => hquietK) (wpE_checkAuthority hs entered_stable.kept h
    (fun _ => wpE_kept _ _ _) (fun _ => hquietK) ?_ (fun _ _ _ h => h.planning))
  intro t ht hent hep hns
  have hin : Inside i j t := ⟨⟨hent.lock, hent.planning, by rw [hent.call]⟩, hep, hns⟩
  refine wpE_bind ht (fun _ => hquietK) (wpE_readIndex ht hInside ⟨hent, hin⟩
    (fun _ => wpE_kept _ _ _) (fun _ => hquietK) ?_ (fun _ _ _ h => h.1.planning))
  rintro u hu ⟨heu, hiu⟩ hvalid
  refine wpE_skip hu (fun _ => hquietK) (readOnly_validateGenerationIndex j _)
    (looking_stable (i := i) (j := j) u.index).kept
    ⟨hiu.lock, hiu.epoch, hiu.namespace_eq, rfl, hiu.planning, heu.call⟩
    (fun _ _ _ h => h.planning) ?_
  intro _ v _ hv
  exact wpE_pure (hQ _) ⟨hv, hvalid⟩

/-! ## 2. Resuming -/

/-- A record that was just read under its lock makes a handle. -/
theorem acquired_resume {id : String} {r : Record} {w : World} (hw : Inv w)
    (hl : w.locks (.record id) = some i) (hp : w.planning i = none)
    (hr : w.records.lookup id = some r) (hv : validateRecord r = .ok ()) :
    Acquired i (Handle.resume r) w := by
  have hok := hw.record id r hr
  refine ⟨⟨?_, hok.retry, fun _ => ?_, fun _ => hv⟩, hp, rfl⟩
  · show w.locks (.record r.id) = some i
    rw [hok.id_eq]
    exact hl
  · show w.records.lookup r.id = some r.stored
    rw [hok.id_eq, hok.stored_eq]
    exact hr

/-- Under the lock of the indexed generation: an open one is resumed, a closed one is closed. -/
def Resumed (i : Nat) (j : Authority) (idx : Index) (id : String) (w : World) :
    Option Handle → Prop
  | some h => Acquired i h w
  | none => Looking i j idx w ∧
      ∃ r, w.records.lookup id = some r ∧ generationClosed r.state = true

theorem resumed_keeps (idx : Index) (id : String) (o : Option Handle) :
    Keeps i fun w => Resumed i j idx id w o := by
  cases o with
  | some h => exact (acquired_stable h).kept
  | none => exact (looking_stable idx).kept.and (closed_stable id).kept

/-- The record that the index names is read under its lock.  A record of another agent or of another
intent is an error; a closed one makes room for the next generation. -/
theorem wpE_resumeGeneration {idx : Index} {id : String} (agentID : String) (intent : Intent)
    {s : World} (hs : Inv s) (h : Looking i j idx s) (hl : s.locks (.record id) = some i) :
    WPE i (resumeGeneration j agentID id intent) (fun o w => Resumed i j idx id w o)
      (fun _ w => w.planning i = none) s := by
  have hquietK : Keeps i fun w => w.planning i = none := unplanned_stable.kept
  have hA : Keeps i fun w => Looking i j idx w ∧ w.locks (.record id) = some i :=
    (looking_stable idx).kept.and (holds_stable _).kept
  have hread : ∀ r, Keeps i fun w => (Looking i j idx w ∧ w.locks (.record id) = some i) ∧
      (w.locks (.record id) = some i ∧ w.records.lookup id = some r) ∧
        validateRecord r = .ok () :=
    fun r => hA.and ((record_stable id r).kept.and (stable_const _).kept)
  have hQ : ∀ o, Keeps i fun w => Resumed i j idx id w o := resumed_keeps idx id
  refine wpE_run hs (fun _ => hquietK) (wpE_inspect hs hA ⟨h, hl⟩ hread (fun _ => hA)
    (fun t r _ hAt hr hv => ⟨hAt, ⟨hAt.2, hr⟩, hv⟩) (fun _ _ _ h => h)) ?_ ?_
  · intro r t ht hrt
    refine wpE_skip ht (fun _ => hquietK) (readOnly_check _) (hread r) hrt
      (fun _ _ _ h => h.1.1.planning) ?_
    rintro _ u hu ⟨⟨hlook, hlock⟩, ⟨_, hlookup⟩, hv⟩
    by_cases hclosed : generationClosed r.state = true
    · simp only [hclosed, if_true]
      exact wpE_pure (hQ none) ⟨hlook, r, hlookup, hclosed⟩
    · simp only [hclosed]
      refine wpE_skip hu (fun _ => hquietK) (readOnly_check _) (hread r)
        ⟨⟨hlook, hlock⟩, ⟨hlock, hlookup⟩, hv⟩ (fun _ _ _ h => h.1.1.planning) ?_
      rintro _ v hv' ⟨⟨hlook', hlock'⟩, ⟨_, hlookup'⟩, _⟩
      exact wpE_pure (hQ (some _)) (acquired_resume hv' hlock' hlook'.planning hlookup' hv)
  · intro e t _ ht
    exact wpE_fail hQ (fun _ => hquietK) ht.1.planning

/-! ## 3. One pass

Under the index lock from its start to its end. -/

/-- What `acquireVMUnderIndex` leaves behind. -/
structure UnderOk (i : Nat) (u : UnderIndex) (w : World) : Prop where
  planning : w.planning i = none
  handle : ∀ h, u.handle = some h → Acquired i h w
  /-- A pass that ends without a handle and without an error did nothing. -/
  waiting : u.err = none → (u.busy = true ∨ u.handle = none) → w.call i = {}

theorem underOk_keeps (u : UnderIndex) : Keeps i (UnderOk i u) := by
  intro s t ht he h
  exact {
    planning := unplanned_stable.kept s t ht he h.planning
    handle := fun hd hh => (acquired_stable hd).kept s t ht he (h.handle hd hh)
    waiting := fun h1 h2 => (call_stable fun c => c = {}).kept s t ht he (h.waiting h1 h2) }

theorem underOk_error {e : Err} {busy : Bool} {w : World} (hp : w.planning i = none) :
    UnderOk i { busy := busy, err := some e } w := by
  refine ⟨hp, ?_, ?_⟩
  · intro h hh
    cases hh
  · intro he
    cases he

theorem underOk_busy {w : World} (hp : w.planning i = none) (hc : w.call i = {}) :
    UnderOk i { busy := true } w := by
  refine ⟨hp, ?_, fun _ _ => hc⟩
  intro h hh
  cases hh

theorem underOk_handle {h : Handle} {e : Option Err} {w : World} (ha : Acquired i h w) :
    UnderOk i { handle := some h, err := e } w := by
  refine ⟨ha.planning, ?_, ?_⟩
  · intro h' hh
    cases hh
    exact ha
  · rintro _ (hb | hn)
    · cases hb
    · cases hn

theorem underOk_of {r : Except Err Handle} {closed : Bool} {w : World} (hp : w.planning i = none)
    (hr : ∀ h, r = .ok h → Acquired i h w) : UnderOk i (.of r closed) w := by
  cases r with
  | ok h => exact underOk_handle (hr h rfl)
  | error e => exact underOk_error hp

/-- What is known of the outcome of a creation: a handle, on another record than `old`. -/
def Created (i : Nat) (old : Option String) (r : Except Err Handle) (w : World) : Prop :=
  w.planning i = none ∧
    ∀ h, r = .ok h → Acquired i h w ∧ ∀ id, old = some id → h.record.id ≠ id

theorem created_keeps (old : Option String) (r : Except Err Handle) :
    Keeps i (Created i old r) := by
  rintro s t ht he ⟨hp, hr⟩
  exact ⟨unplanned_stable.kept s t ht he hp,
    fun h hh => ⟨(acquired_stable h).kept s t ht he (hr h hh).1, (hr h hh).2⟩⟩

/-- The creation of a generation, with its result as the caller sees it. -/
theorem wp_createGeneration {idx : Index} {agentID : String} {intent : Intent}
    {plan : Option VMPlanFunc} {s : World} (hs : Inv s) (hsite : Site i j (pathKey agentID) idx s)
    (hp : s.planning i = none) (hc : s.call i = {}) :
    WP i (createGeneration j agentID intent plan idx).run
      (Created i (idx.activeVMs.lookup (pathKey agentID))) s := by
  refine wp_mono ?_ (wpE_createGeneration intent plan hs hsite hp hc)
  intro r t _ hr
  cases r with
  | error e =>
    refine ⟨hr, ?_⟩
    intro h hh
    cases hh
  | ok h =>
    refine ⟨hr.1.planning, ?_⟩
    intro h' hh
    cases hh
    exact hr

/-- What happens under the index lock: the generation that the index names is resumed, or a new one
is made, or the lock of the record is busy and the caller has to wait outside. -/
theorem wp_acquireVMUnderIndex {agentID : String} {intent : Intent} {plan : Option VMPlanFunc}
    {s : World} (hs : Inv s) (hent : Entered i s) :
    WP i (acquireVMUnderIndex j agentID intent plan) (UnderOk i) s := by
  refine wp_run hs (wpE_readGenerations (j := j) hs hent) ?_ ?_
  · rintro idx t ht ⟨hlook, hvalid⟩
    simp only
    by_cases hid : (idx.activeVMs.lookup (pathKey agentID)).getD "" = ""
    · -- No generation is indexed: the empty string is no identifier.
      rw [if_pos hid]
      have hnone : idx.activeVMs.lookup (pathKey agentID) = none := by
        cases hl : idx.activeVMs.lookup (pathKey agentID) with
        | none => rfl
        | some id =>
          rw [hl] at hid
          have hpat := hvalid _ _ hl
          have : id = "" := hid
          subst this
          revert hpat
          decide
      have hsite : Site i j (pathKey agentID) idx t :=
        hlook.site fun id hl => by rw [hnone] at hl; cases hl
      refine wp_bind (wp_mono ?_ (wp_createGeneration ht hsite hlook.planning hlook.call)) ht
      intro r u _ hr
      exact wp_ret (underOk_keeps _) (underOk_of hr.1 fun h hh => (hr.2 h hh).1)
    · rw [if_neg hid]
      obtain ⟨id, hl⟩ : ∃ id, idx.activeVMs.lookup (pathKey agentID) = some id := by
        cases hl : idx.activeVMs.lookup (pathKey agentID) with
        | none => rw [hl] at hid; exact absurd rfl hid
        | some id => exact ⟨id, rfl⟩
      rw [hl, Option.getD_some]
      refine wp_bind (wp_tryLockFile (looking_stable idx).kept hlook (fun _ => wp_kept _ _) ?_) ht
      intro u hu hlu
      refine ⟨?_, ?_, ?_⟩
      · exact wp_ret (underOk_keeps _) (underOk_error hlu.planning)
      · exact wp_ret (underOk_keeps _) (underOk_busy hlu.planning hlu.call)
      · intro hfree
        have hu' := inv_take (i := i) hu hfree
        have hlook' : Looking i j idx (u.setLock (.record id) (some i)) :=
          ⟨by simpa [World.setLock] using hlu.lock, hlu.epoch, hlu.namespace_eq, hlu.index,
            hlu.planning, hlu.call⟩
        refine wp_run hu' (wpE_resumeGeneration agentID intent hu' hlook'
          (by simp [World.setLock])) ?_ ?_
        · intro o v hv hres
          cases o with
          | some h => exact wp_ret (underOk_keeps _) (underOk_handle hres)
          | none =>
            obtain ⟨hlv, hclosed⟩ := hres
            have hsite : Site i j (pathKey agentID) idx v := by
              refine hlv.site ?_
              intro id' hid'
              have : id = id' := Option.some.inj (hl.symm.trans hid')
              subst this
              exact hclosed
            refine wp_bind (wp_mono ?_
              (wp_createGeneration hv hsite hlv.planning hlv.call)) hv
            intro r x hx hr
            refine wp_bind (wp_unlockFile (created_keeps _ r) hr (fun _ => wp_kept _ _) ?_) hx
            rintro y _ ⟨hpy, hry⟩
            refine ⟨hpy, fun closed => wp_ret (underOk_keeps _) (underOk_of ?_ ?_)⟩
            · rw [released_planning]
              exact hpy
            · intro h hh
              obtain ⟨ha, hne⟩ := hry h hh
              refine ha.released ?_
              intro heq
              have : h.record.id = id := by simpa [Handle.lockName] using heq
              exact hne id hl this
        · intro e v hv hpv
          refine wp_bind (wp_unlockFile unplanned_stable.kept hpv (fun _ => wp_kept _ _) ?_) hv
          intro y _ hpy
          refine ⟨hpy, fun closed => wp_ret (underOk_keeps _) (underOk_of ?_ ?_)⟩
          · rw [released_planning]
            exact hpy
          · intro h hh
            cases hh
  · intro e t _ hp
    exact wp_ret (underOk_keeps _) (underOk_error hp)

/-! ## 4. The loop

The invariant of the loop is that nothing has happened yet. -/

/-- Nothing was done in this call. -/
structure Untouched (i : Nat) (w : World) : Prop where
  planning : w.planning i = none
  call : w.call i = {}

theorem untouched_stable : Stands i (Untouched i) := by
  intro k hk s t hs ht hg h
  exact ⟨unplanned_stable k hk s t hs ht hg h.planning,
    call_stable (fun c => c = {}) k hk s t hs ht hg h.call⟩

/-- What a pass returns: a handle, or nothing after doing nothing. -/
def Passed (i : Nat) (w : World) : Option Handle → Prop
  | some h => Acquired i h w
  | none => Untouched i w

theorem passed_keeps (o : Option Handle) : Keeps i fun w => Passed i w o := by
  cases o with
  | some h => exact (acquired_stable h).kept
  | none => exact untouched_stable.kept

theorem lockName_ne_index (h : Handle) : h.lockName ≠ .index := nofun

theorem UnderOk.released {u : UnderIndex} {w : World} (h : UnderOk i u w) :
    UnderOk i u (w.released .index i) where
  planning := by rw [released_planning]; exact h.planning
  handle := fun hd hh => (h.handle hd hh).released (lockName_ne_index hd)
  waiting := by rw [released_call]; exact h.waiting

/-- Closing a handle leaves no callback running. -/
theorem wp_close {h : Handle} {s : World} (hp : s.planning i = none) :
    WP i h.close (fun _ w => w.planning i = none) s := by
  unfold Handle.close
  split
  · exact wp_ret unplanned_stable.kept hp
  · refine wp_unlockFile unplanned_stable.kept hp (fun _ => unplanned_stable.kept) ?_
    intro t _ ht
    refine ⟨ht, fun _ => ?_⟩
    rw [released_planning]
    exact ht

theorem wp_releaseHandle {o : Option Handle} {s : World} (hp : s.planning i = none) :
    WP i (releaseHandle o) (fun _ w => w.planning i = none) s := by
  cases o with
  | none => exact wp_ret unplanned_stable.kept hp
  | some h => exact wp_close hp

/-- One pass of the loop: take the index, look, release the index, and then wait for the record if
it was busy. -/
theorem wpE_acquirePass {agentID : String} {intent : Intent} {plan : Option VMPlanFunc}
    {s : World} (hs : Inv s) (hu : Untouched i s) :
    WPE i (acquirePass j agentID intent plan) (fun o w => Passed i w o)
      (fun _ w => w.planning i = none) s := by
  have hquietK : Keeps i fun w => w.planning i = none := unplanned_stable.kept
  refine wpE_bind hs (fun _ => hquietK) (wpE_waitLock hs untouched_stable.kept hu
    (fun _ => wpE_kept _ _ _) hquietK ?_ (fun _ _ h => h.planning))
  intro t ht hut hfree
  have ht' := inv_take (i := i) ht hfree
  have hent : Entered i (t.setLock .index (some i)) :=
    ⟨by simp [World.setLock], hut.planning, hut.call⟩
  refine wpE_step ht' (fun _ => hquietK)
    (wp_mono ?_ (wp_acquireVMUnderIndex (j := j) ht' hent))
  intro r v hv hr
  refine wpE_step hv (fun _ => hquietK)
    (wp_unlockFile (underOk_keeps r) hr (fun _ => wpE_kept _ _ _) ?_)
  intro x hx hrx
  refine ⟨hrx.planning, fun closed => ?_⟩
  have hx' : Inv (x.released .index i) := inv_released hx hrx.planning
  have hrx' := hrx.released
  cases hm : (if closed = true then r.err else some (r.err.elim ioErr fun e => e.join ioErr)) with
  | some e =>
    simp only
    refine wpE_step hx' (fun _ => hquietK) (wp_mono ?_ (wp_releaseHandle hrx'.planning))
    intro released y _ hy
    exact wpE_fail passed_keeps (fun _ => hquietK) hy
  | none =>
    simp only
    have herr : r.err = none := by
      split at hm
      · exact hm
      · cases hm
    refine wpE_pure (passed_keeps _) ?_
    by_cases hbusy : r.busy = true
    · rw [if_pos hbusy]
      exact ⟨hrx'.planning, hrx'.waiting herr (Or.inl hbusy)⟩
    · rw [if_neg hbusy]
      cases hh : r.handle with
      | none => exact ⟨hrx'.planning, hrx'.waiting herr (Or.inr hh)⟩
      | some h => exact hrx'.handle h hh

/-- **The loop** ends with a handle or an error, however often it goes round.  By induction on the
number of passes: a pass that goes round again has written nothing and started no callback, so the
next one starts where the first did. -/
theorem wpE_acquireVM {agentID : String} {intent : Intent} {plan : Option VMPlanFunc}
    (passes : Nat) : ∀ {s : World}, Inv s → Untouched i s →
      WPE i (acquireVM j agentID intent plan passes) (fun h => Acquired i h)
        (fun _ w => w.planning i = none) s := by
  have hquietK : Keeps i fun w => w.planning i = none := unplanned_stable.kept
  induction passes with
  | zero =>
    intro s hs hu
    refine wpE_bind hs (fun _ => hquietK) (wpE_mono ?_ (fun _ _ _ h => h) (wpE_acquirePass hs hu))
    intro o t ht ho
    cases o with
    | some h => exact wpE_pure (acquired_stable h).kept ho
    | none => exact wpE_fail (fun h => (acquired_stable h).kept) (fun _ => hquietK) ho.planning
  | succ passes ih =>
    intro s hs hu
    refine wpE_bind hs (fun _ => hquietK) (wpE_mono ?_ (fun _ _ _ h => h) (wpE_acquirePass hs hu))
    intro o t ht ho
    cases o with
    | some h => exact wpE_pure (acquired_stable h).kept ho
    | none => exact ih ht ho

theorem wpE_acquireVMChecked {agentID : String} {intent : Intent} {plan : Option VMPlanFunc}
    {passes : Nat} {s : World} (hs : Inv s) (hu : Untouched i s) :
    WPE i (acquireVMChecked j agentID intent plan passes) (fun h => Acquired i h)
      (fun _ w => w.planning i = none) s := by
  have hquietK : Keeps i fun w => w.planning i = none := unplanned_stable.kept
  refine wpE_skip hs (fun _ => hquietK) (readOnly_check _) untouched_stable.kept hu
    (fun _ _ _ h => h.planning) ?_
  intro _ t ht htu
  refine wpE_skip ht (fun _ => hquietK) (readOnly_check _) untouched_stable.kept htu
    (fun _ _ _ h => h.planning) ?_
  intro _ v hv hvu
  exact wpE_acquireVM passes hv hvu

/-! ## 5. Disks and existing records -/

/-- **A new disk record.** -/
theorem wpE_createDisk {id : String} {intent : Intent} {s : World} (hs : Inv s)
    (hu : Untouched i s) :
    WPE i (createDisk j id intent) (fun h => Acquired i h) (fun _ w => w.planning i = none) s := by
  have hquietK : Keeps i fun w => w.planning i = none := unplanned_stable.kept
  have hQ : ∀ h : Handle, Keeps i (Acquired i h) := fun h => (acquired_stable h).kept
  refine wpE_skip hs (fun _ => hquietK) (readOnly_check _) untouched_stable.kept hu
    (fun _ _ _ h => h.planning) ?_
  intro _ s1 hs1 hu1
  refine wpE_bind hs1 (fun _ => hquietK) (wpE_waitLock hs1 untouched_stable.kept hu1
    (fun _ => wpE_kept _ _ _) hquietK ?_ (fun _ _ h => h.planning))
  intro t ht hut hfree
  have ht' := inv_take (i := i) ht hfree
  refine wpE_deferUnlock ht' hQ hquietK hQ hquietK ?_ ?_ ?_
  · -- Under the index lock.
    refine wpE_bind ht' (fun _ => hquietK) (wpE_mono ?_ (fun _ _ _ h => h)
      (wpE_readGenerations (j := j) ht' ⟨by simp [World.setLock], hut.planning, hut.call⟩))
    rintro idx u hu' ⟨hlook, _⟩
    have hL : Keeps i (Looking i j idx) := (looking_stable idx).kept
    refine wpE_bind hu' (fun _ => hquietK) (wpE_requireAbsent hu' hL hlook
      (fun _ => wpE_kept _ _ _) hquietK ?_ (fun _ _ h => h.planning))
    intro v hv hlv habsent
    have hA : Keeps i fun w => Looking i j idx w ∧
        (w.locks .index = some i ∧ w.records.lookup id = none) :=
      hL.and (absent_stable id).kept
    refine wpE_bind hv (fun _ => hquietK) (wpE_claimLock hv hA ⟨hlv, hlv.lock, habsent⟩
      (fun _ => wpE_kept _ _ _) hquietK ?_ (fun _ _ h => h.1.planning))
    rintro x hx ⟨hlx, _, hax⟩ hfreex
    have hx' := inv_take (i := i) hx hfreex
    have hB : Keeps i fun w => (Looking i j idx w ∧
        (w.locks .index = some i ∧ w.records.lookup id = none)) ∧
        w.locks (.record id) = some i := hA.and (holds_stable _).kept
    have hlook' : Looking i j idx (x.setLock (.record id) (some i)) :=
      ⟨by simpa [World.setLock] using hlx.lock, hlx.epoch, hlx.namespace_eq, hlx.index,
        hlx.planning, hlx.call⟩
    refine wpE_unlockOnError hx' hquietK hQ hquietK ?_ ?_
    · refine wpE_bind hx' (fun _ => hquietK) (wpE_mono ?_ (fun _ _ _ h => h.1.1.planning)
        (wpE_make (j := j) hx' hB ⟨⟨hlook', hlook'.lock, hax⟩, by simp [World.setLock]⟩
          (fun w h => h.1.1.namespace_eq) ?_))
      · rintro r y hy ⟨hy1, hmade⟩
        obtain rfl : r.id = id := hmade.id_eq
        have hC := hB.and (writable_stable (i := i) r).kept
        refine wpE_skip hy (fun _ => hquietK) (readOnly_list j) hC hy1
          (fun _ _ _ h => h.1.1.1.planning) ?_
        intro records z hz hz1
        refine wpE_skip hz (fun _ => hquietK) (readOnly_check _) hC hz1
          (fun _ _ _ h => h.1.1.1.planning) ?_
        intro _ z' hz' hz1'
        refine wpE_bind hz' (fun _ => hquietK) (wpE_mono ?_ (fun _ _ _ h => h)
          (wpE_create (j := j) hz' hC hz1' ?_ hmade.valid ?_))
        · intro _ w _ ha
          exact wpE_pure (hQ _) ha
        · rintro w ⟨⟨⟨hlw, _, haw⟩, how⟩, hww⟩
          exact ⟨hlw.lock, how, hlw.epoch, hlw.planning, by rw [hlw.call], haw, hww,
            hmade.attempts_le⟩
        · intro w _ hk
          rw [hmade.kind_eq] at hk
          cases hk
      · rintro w now ⟨⟨hlw, hlock, haw⟩, how⟩
        exact ⟨⟨⟨hlw.lock, hlw.epoch, hlw.namespace_eq, hlw.index, hlw.planning, hlw.call⟩,
          hlock, haw⟩, how⟩
    · intro y _ hy
      exact ⟨hy, by rw [released_planning]; exact hy⟩
  · intro h y _ hy
    have hrel := hy.released (lockName_ne_index h)
    exact ⟨hy.planning, hrel, wp_close hrel.planning⟩
  · intro y _ hy
    exact ⟨hy, by rw [released_planning]; exact hy⟩

/-- **An existing record** is acquired under its lock alone. -/
theorem wpE_acquire {id : String} {s : World} (hs : Inv s) (hp : s.planning i = none) :
    WPE i (acquire j id) (fun h => Acquired i h) (fun _ w => w.planning i = none) s := by
  have hquietK : Keeps i fun w => w.planning i = none := unplanned_stable.kept
  have hQ : ∀ h : Handle, Keeps i (Acquired i h) := fun h => (acquired_stable h).kept
  refine wpE_skip hs (fun _ => hquietK) (readOnly_check _) hquietK hp (fun _ _ _ h => h) ?_
  intro _ t ht hpt
  refine wpE_bind ht (fun _ => hquietK) (wpE_waitLock ht hquietK hpt (fun _ => wpE_kept _ _ _)
    hquietK ?_ (fun _ _ h => h))
  intro u hu hpu hfree
  have hu' := inv_take (i := i) hu hfree
  have hA : Keeps i fun w => w.planning i = none ∧ w.locks (.record id) = some i :=
    hquietK.and (holds_stable _).kept
  refine wpE_unlockOnError hu' hquietK hQ hquietK ?_ ?_
  · refine wpE_bind hu' (fun _ => hquietK) (wpE_checkAuthority hu' hA
      ⟨hpu, by simp [World.setLock]⟩ (fun _ => wpE_kept _ _ _) (fun _ => hquietK) ?_
      (fun _ _ _ h => h.1))
    intro v hv hav _ _
    refine wpE_bind hv (fun _ => hquietK) (wpE_inspect hv hA hav (fun _ => wpE_kept _ _ _)
      (fun _ => hquietK) ?_ (fun _ _ _ h => h.1))
    intro x r hx hax hr hvalid
    exact wpE_pure (hQ _) (acquired_resume hx hax.2 hax.1 hr hvalid)
  · intro y _ hy
    exact ⟨hy, by rw [released_planning]; exact hy⟩

end Journal
