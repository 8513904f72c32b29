/-
# Creating records

A new generation is created under the index lock: identifier, plan, record, lock, index, file.
`Site` is what holds all the way: the authority was checked, the index is the one that was read,
and the generation it names for the agent, if any, is closed.  The callback runs in between, so
it runs while no open generation of the agent exists, and a refused plan leaves before anything
was written.  Disks and tombstones are created the same way, without an index entry.

The order is the argument.  The index names the new generation before the record exists, so at no
moment is there an open record that the index does not name; a crash in between leaves an entry
without a record, which `Recovery` resolves by a tombstone.  The other order would leave an open
record that nobody finds, and a second generation could be started beside it.

`Site.no_open` is where one generation per agent comes from: the index was read under its lock, the
generation it names for the agent was seen closed, and closed generations stay closed without any
lock.
-/
import PveCpi.Journal.Saves

namespace Journal

open Lib.Interleave (Prog Kept wp_bind wp_mono wp_ret wp_kept wpE_bind wpE_pure wpE_mono wpE_kept)

variable {i : Nat} {j : Authority}

/-! ## 1. New records -/

/-- What is known of a record just made. -/
structure Made (id : String) (kind : Kind) (agentID : String) (r : Record) : Prop where
  id_eq : r.id = id
  kind_eq : r.kind = kind
  agentID_eq : r.agentID = agentID
  valid : validateRecord r = .ok ()
  attempts : ∃ a, r.attempts = [a]

theorem recordAt_spec {id agentID : String} {kind : Kind} {intent : Intent} {now : Time}
    {r : Record} (h : recordAt j id kind agentID intent now = .ok r) :
    Made id kind agentID r ∧ r.namespace = j.namespace ∧ r.createdAt = now ∧ r.updatedAt = now ∧
      (planReadable intent.plan = true → PlansReadable r) := by
  unfold recordAt at h
  obtain ⟨token, _, h⟩ := bind_eq_ok.mp h
  simp only [check_bind_eq_ok, pure_eq_ok] at h
  obtain ⟨hv, rfl⟩ := h
  refine ⟨⟨rfl, rfl, rfl, hv, _, rfl⟩, rfl, rfl, rfl, fun hp => ⟨hp, ?_⟩⟩
  intro a ha
  rw [List.mem_singleton] at ha
  subst ha
  exact hp

theorem Made.retrySafe {id agentID : String} {kind : Kind} {r : Record}
    (h : Made id kind agentID r) : RetrySafe r := by
  refine RetrySafe.of_valid (validateAttempts_of_record h.valid) ?_
  obtain ⟨a, ha⟩ := h.attempts
  rw [ha]
  exact List.pairwise_singleton _ _

theorem Made.attempts_le {id agentID : String} {kind : Kind} {r : Record}
    (h : Made id kind agentID r) : r.attempts.length ≤ 1 := by
  obtain ⟨a, ha⟩ := h.attempts
  rw [ha, List.length_singleton]

theorem writable_stable (r : Record) : Stands i fun w => Writable w r :=
  fun _ _ _ _ _ _ hg h => h.guar hg

/-- A new record may be written in the namespace it was made for. -/
theorem writable_new {w : World} {id agentID : String} {kind : Kind} {intent : Intent}
    {now : Time} {r : Record} (hns : w.authority.namespace = j.namespace)
    (h : recordAt j id kind agentID intent now = .ok r) :
    Writable (w.stamped now (.create intent)) r := by
  obtain ⟨hmade, hns', hcreated, hupdated, hplans⟩ := recordAt_spec h
  have hself : { r with updatedAt := now } = r := by rw [← hupdated]
  exact {
    namespace_eq := hns'.trans hns.symm
    written := ⟨r, now, hmade.valid, hself.symm⟩
    retry := hmade.retrySafe
    created := by rw [hcreated]; exact List.mem_cons_self
    readable := by
      intro ht
      have hstamp : StampOk now (.create intent) := ht _ List.mem_cons_self
      exact ⟨le_of_eq (hcreated.trans hupdated.symm), hplans hstamp⟩ }

/-- Making a record keeps what survives a look at the clock. -/
theorem wpE_make {A : World → Prop} {s : World} {id agentID : String} {kind : Kind}
    {intent : Intent} (hs : Inv s) (hA : Keeps i A) (hAs : A s)
    (hns : ∀ w, A w → w.authority.namespace = j.namespace)
    (hclock : ∀ w now, A w → A (w.stamped now (.create intent))) :
    WPE i (newRecord j id kind agentID intent)
      (fun r w => (A w ∧ Writable w r) ∧ Made id kind agentID r) (fun _ => A) s := by
  refine wpE_newRecord hs hA hAs ?_ hA ?_ (fun _ _ h => h) (fun t now _ h => hclock t now h)
  · intro r
    exact (hA.and (writable_stable r).kept).and (Lib.Interleave.stable_const _).kept
  · intro t now r _ hAt hr
    exact ⟨⟨hclock t now hAt, writable_new (hns t hAt) hr⟩, (recordAt_spec hr).1⟩

/-! ## 2. The site of a new generation

`Spot` adds the new identifier, which no record has. -/

/-- Under the index lock, before anything was written: the authority is checked, `idx` is the
index on disk, and what it names under `key` is closed. -/
structure Site (i : Nat) (j : Authority) (key : String) (idx : Index) (w : World) : Prop where
  lock : w.locks .index = some i
  epoch : w.authority.epoch = j.epoch
  namespace_eq : w.authority.namespace = j.namespace
  index : w.index = idx
  closed : ∀ id, idx.activeVMs.lookup key = some id →
    ∃ r, w.records.lookup id = some r ∧ generationClosed r.state = true
  accepted : (w.call i).rejected = false
  unwritten : (w.call i).wrote = false

/-- The site, and the place of the new record is free. -/
structure Spot (i : Nat) (j : Authority) (key : String) (idx : Index) (id : String) (w : World) :
    Prop extends Site i j key idx w where
  absent : w.records.lookup id = none

section Site

variable {key : String} {idx : Index} {id : String} {w w' : World}

theorem site_stable : Stands i (Site i j key idx) := by
  intro k hk s t hs ht hg h
  have ha := hg.authority_eq hk h.lock
  have hcall := hg.call i fun he => hk he.symm
  exact {
    lock := holds_stable .index k hk s t hs ht hg h.lock
    epoch := by rw [ha]; exact h.epoch
    namespace_eq := by rw [ha]; exact h.namespace_eq
    index := (index_stable idx k hk s t hs ht hg ⟨h.lock, h.index⟩).2
    closed := fun id hid => closed_stable id k hk s t hs ht hg (h.closed id hid)
    accepted := by rw [hcall]; exact h.accepted
    unwritten := by rw [hcall]; exact h.unwritten }

theorem spot_stable : Stands i (Spot i j key idx id) := by
  intro k hk s t hs ht hg h
  exact ⟨site_stable k hk s t hs ht hg h.toSite,
    (absent_stable id k hk s t hs ht hg ⟨h.lock, h.absent⟩).2⟩

/-- Steps that touch neither a file nor the index lock keep the site. -/
theorem Site.of_same (h : Site i j key idx w) (hl : w'.locks .index = w.locks .index)
    (ha : w'.authority = w.authority) (hi : w'.index = w.index) (hr : w'.records = w.records)
    (hc : (w'.call i).rejected = (w.call i).rejected)
    (hw : (w'.call i).wrote = (w.call i).wrote) : Site i j key idx w' where
  lock := hl.trans h.lock
  epoch := by rw [ha]; exact h.epoch
  namespace_eq := by rw [ha]; exact h.namespace_eq
  index := hi.trans h.index
  closed := by rw [hr]; exact h.closed
  accepted := hc.trans h.accepted
  unwritten := hw.trans h.unwritten

theorem Spot.of_same (h : Spot i j key idx id w) (hl : w'.locks .index = w.locks .index)
    (ha : w'.authority = w.authority) (hi : w'.index = w.index) (hr : w'.records = w.records)
    (hc : (w'.call i).rejected = (w.call i).rejected)
    (hw : (w'.call i).wrote = (w.call i).wrote) : Spot i j key idx id w' :=
  ⟨h.toSite.of_same hl ha hi hr hc hw, by rw [hr]; exact h.absent⟩

/-- **No open generation of the agent exists on the site.**  An open record stands in the index
under its agent's key, and the index has a closed one, or none, there. -/
theorem Site.no_open {agentID : String} (hw : Inv w) (h : Site i j (pathKey agentID) idx w)
    {id : String} {r : Record} (hr : w.records.lookup id = some r) (hk : r.kind = .vm)
    (ha : r.agentID = agentID) : generationClosed r.state = true := by
  by_contra hopen
  have hidx := hw.generation id r hr hk (by simpa using hopen)
  rw [h.index, ha] at hidx
  obtain ⟨r', hr', hc⟩ := h.closed id hidx
  have : r' = r := Option.some.inj (hr'.symm.trans hr)
  subst this
  exact hopen hc

/-- The new entry of the index takes the place of a closed generation. -/
theorem Site.indexed (hw : Inv w) (h : Site i j key idx w) (new : String) {id : String}
    {r : Record} (hr : w.records.lookup id = some r) (hk : r.kind = .vm)
    (ho : generationClosed r.state = false) :
    (idx.set key new).activeVMs.lookup (pathKey r.agentID) = some id := by
  have hidx := hw.generation id r hr hk ho
  rw [h.index] at hidx
  have hne : pathKey r.agentID ≠ key := by
    intro heq
    rw [heq] at hidx
    obtain ⟨r', hr', hc⟩ := h.closed id hidx
    have : r' = r := Option.some.inj (hr'.symm.trans hr)
    subst this
    rw [ho] at hc
    cases hc
  exact (AList.lookup_insert_ne hne).trans hidx

end Site

/-! ## 3. Planning

The callback is foreign code.  It may list and inspect, and what it returns is checked like any
intent; while it runs the index lock is held, so the siblings it saw are all there are. -/

section Planning

variable {idx : Index} {id agentID : String}

/-- A callback is started at most once, on a site without an open generation, with a list that
covers the directory; when it is refused nothing was written. -/
theorem wpE_runPlan {intent : Intent} {plan : Option VMPlanFunc} {s : World} (hs : Inv s)
    (hspot : Spot i j (pathKey agentID) idx id s) (hp : s.planning i = none)
    (hc : s.call i = {}) :
    WPE i (runPlan j id agentID intent plan)
      (fun _ w => Spot i j (pathKey agentID) idx id w ∧ w.planning i = none)
      (fun _ w => w.planning i = none) s := by
  have hspotK : Keeps i (Spot i j (pathKey agentID) idx id) := spot_stable.kept
  have hquietK : Keeps i fun w => w.planning i = none := unplanned_stable.kept
  have hXK : ∀ e : Err, Keeps i ((fun _ w => w.planning i = none : Err → World → Prop) e) :=
    fun _ => hquietK
  cases plan with
  | none => exact wpE_pure (hspotK.and hquietK) ⟨hspot, hp⟩
  | some f =>
    have hA : Keeps i fun w => Spot i j (pathKey agentID) idx id w ∧ w.planning i = none ∧
        w.call i = {} :=
      hspotK.and (hquietK.and (call_stable fun c => c = {}).kept)
    have hlist := wpE_list (j := j) hs hA (fun w h => h.1.lock) ⟨hspot, hp, hc⟩
      (fun id r => hA.and (listing_stable id r).kept)
      (fun t id r ht _ hr _ => ⟨(ht.record id r hr).id_eq, (ht.record id r hr).bounded, r, hr,
        History.refl r⟩)
    refine wpE_bind hs hXK (wpE_mono ?_ (fun _ _ _ h => h.2.1) hlist)
    intro siblings t ht hcov
    -- The callback starts.
    have hCK := covered_keeps hA (fun w h => h.1.lock)
      (fun id r => hA.and (listing_stable id r).kept) siblings
    refine wpE_step ht hXK (wp_planBegin hCK hcov (fun _ => wpE_kept _ _ _) ?_)
    rintro u hu ⟨⟨hsp, hpl, hcall⟩, hcovered⟩
    have hplanning : PlanningOk u i ⟨agentID, siblings⟩ := {
      lock := hsp.lock
      siblings := fun id r hr => hcovered.find hr
      closed := fun id r hr hk ha => hsp.no_open hu hr hk ha }
    refine ⟨hplanning, hcall, ?_⟩
    have hu' := inv_planStarted hu hplanning hcall
    have hsp' : Spot i j (pathKey agentID) idx id (u.planStarted i ⟨agentID, siblings⟩) :=
      hsp.of_same rfl rfl rfl rfl (by simp [World.planStarted, World.setCall])
        (by simp [World.planStarted, World.setCall])
    -- It only reads.
    refine wpE_step hu' hXK (wp_mono ?_ (wp_readOnly (f.readOnly id siblings) hspotK hsp'))
    intro planned v hv hspv
    -- It ends.
    refine wpE_step hv hXK (wp_planEnd hspotK hspv (fun _ => wpE_kept _ _ _) ?_)
    intro x hx hspx
    have hspx' : Spot i j (pathKey agentID) idx id (x.setPlanning i none) :=
      hspx.of_same rfl rfl rfl rfl rfl rfl
    have hnone : (x.setPlanning i none).planning i = none := by simp [World.setPlanning]
    cases planned with
    | ok intent => exact wpE_pure (hspotK.and hquietK) ⟨hspx', hnone⟩
    | error e =>
      refine wpE_step (inv_planEnded hx) hXK (wp_planRejected (hspotK.and hquietK)
        ⟨hspx', hnone⟩ (fun _ => wpE_kept _ _ _) ?_)
      intro y _ hy
      exact ⟨hy.1.unwritten, wpE_fail (fun _ => hspotK.and hquietK) hXK hy.2⟩

/-- The record of a generation; when the intent is rejected nothing was written. -/
theorem wpE_generationRecord {intent : Intent} {key : String} {s : World} (hs : Inv s)
    (hspot : Spot i j key idx id s) (hp : s.planning i = none) :
    WPE i (generationRecord j id agentID intent)
      (fun r w => ((Spot i j key idx id w ∧ w.planning i = none) ∧ Writable w r) ∧
        Made id .vm agentID r)
      (fun _ w => w.planning i = none) s := by
  have hquietK : Keeps i fun w => w.planning i = none := unplanned_stable.kept
  have hA : Keeps i fun w => Spot i j key idx id w ∧ w.planning i = none :=
    spot_stable.kept.and hquietK
  have hQ : ∀ r, Keeps i fun w => ((Spot i j key idx id w ∧ w.planning i = none) ∧
      Writable w r) ∧ Made id .vm agentID r :=
    fun r => (hA.and (writable_stable r).kept).and (Lib.Interleave.stable_const _).kept
  refine wpE_run hs (fun _ => hquietK)
    (wpE_make hs hA ⟨hspot, hp⟩ (fun w h => h.1.namespace_eq)
      (fun w now h => ⟨h.1.of_same rfl rfl rfl rfl rfl rfl, h.2⟩)) ?_ ?_
  · intro r t _ h
    exact wpE_pure (hQ r) h
  · intro e t ht h
    refine wpE_step ht (fun _ => hquietK) (wp_planRejected hA h (fun _ => wpE_kept _ _ _) ?_)
    intro u _ hu
    exact ⟨hu.1.unwritten, wpE_fail hQ (fun _ => hquietK) hu.2⟩

end Planning

/-! ## 4. The new generation

`Placed` is the state between the two writes. -/

/-- A handle just acquired: it is gated when it was resumed. -/
structure Acquired (i : Nat) (h : Handle) (w : World) : Prop where
  handle : HandleOk i h w
  planning : w.planning i = none
  gated : h.requiresReconciliation = h.resumed

theorem acquired_stable (h : Handle) : Stands i (Acquired i h) := by
  intro k hk s t hs ht hg ha
  exact ⟨handleOk_stable h k hk s t hs ht hg ha.handle,
    unplanned_stable k hk s t hs ht hg ha.planning, ha.gated⟩

/-- Releasing another lock leaves the handle. -/
theorem HandleOk.released {h : Handle} {w : World} (hok : HandleOk i h w) {n : LockName}
    (hn : h.lockName ≠ n) : HandleOk i h (w.released n i) where
  lock := (released_locks_ne hn).trans hok.lock
  retry := hok.retry
  disk := by
    rw [(sameFiles_released w n i).records]
    exact hok.disk
  valid := fun ht => hok.valid ((sameFiles_released w n i).tidy.mp ht)

theorem Acquired.released {h : Handle} {w : World} (ha : Acquired i h w) {n : LockName}
    (hn : h.lockName ≠ n) : Acquired i h (w.released n i) :=
  ⟨ha.handle.released hn, by rw [released_planning]; exact ha.planning, ha.gated⟩

/-- Ready to write a record nobody has: the index lock and its own lock are held. -/
structure Placed (i : Nat) (j : Authority) (r : Record) (w : World) : Prop where
  lock : w.locks .index = some i
  own : w.locks (.record r.id) = some i
  epoch : w.authority.epoch = j.epoch
  planning : w.planning i = none
  accepted : (w.call i).rejected = false
  absent : w.records.lookup r.id = none
  writable : Writable w r
  attempts : r.attempts.length ≤ 1

theorem placed_stable (r : Record) : Stands i (Placed i j r) := by
  intro k hk s t hs ht hg h
  have ha := hg.authority_eq hk h.lock
  exact {
    lock := holds_stable .index k hk s t hs ht hg h.lock
    own := holds_stable _ k hk s t hs ht hg h.own
    epoch := by rw [ha]; exact h.epoch
    planning := unplanned_stable k hk s t hs ht hg h.planning
    accepted := call_stable (fun c => c.rejected = false) k hk s t hs ht hg h.accepted
    absent := (absent_stable _ k hk s t hs ht hg ⟨h.lock, h.absent⟩).2
    writable := h.writable.guar hg
    attempts := h.attempts }

/-- **The write of a new record.**  An open generation must stand in the index by now. -/
theorem wpE_create {A : World → Prop} {r : Record} {s : World} (hs : Inv s) (hA : Keeps i A)
    (hAs : A s) (hplaced : ∀ w, A w → Placed i j r w) (hv : validateRecord r = .ok ())
    (hgen : ∀ w, A w → r.kind = .vm → generationClosed r.state = false →
      w.index.activeVMs.lookup (pathKey r.agentID) = some r.id) :
    WPE i (writeRecord j r) (fun _ => Acquired i { record := r })
      (fun _ w => w.planning i = none) s := by
  refine wpE_writeRecord hs hA hAs (fun _ => (acquired_stable _).kept) unplanned_stable.kept ?_
    (fun t _ h => (hplaced t h).planning) (fun t _ h => (hplaced t h).planning)
  intro t ht hAt hd
  have hpl := hplaced t hAt
  refine ⟨inv_createRecord ht hpl.lock hpl.planning hpl.accepted hpl.epoch hpl.writable hd
    (hgen t hAt), guar_createRecord hpl.lock hpl.planning hpl.absent hpl.attempts, ?_⟩
  exact {
    handle := {
      lock := hpl.own
      retry := hpl.writable.retry
      disk := fun _ => lookup_putRecord t i j.epoch r
      valid := fun _ => hv }
    planning := hpl.planning
    gated := rfl }

section Generation

variable {idx : Index} {agentID : String}

theorem index_set_lookup (idx : Index) (key id : String) :
    (idx.set key id).activeVMs.lookup key = some id :=
  AList.lookup_insert idx.activeVMs

/-- Index first, then the record. -/
theorem wpE_commitGeneration {r : Record} {s : World} (hs : Inv s)
    (hmade : Made r.id .vm agentID r) (hspot : Spot i j (pathKey agentID) idx r.id s)
    (hp : s.planning i = none) (hw : Writable s r) (hown : s.locks (.record r.id) = some i) :
    WPE i (do writeIndex j (idx.set (pathKey agentID) r.id)
              writeRecord j r
              pure { record := r })
      (fun h w => Acquired i h w ∧ h = { record := r }) (fun _ w => w.planning i = none) s := by
  have hquietK : Keeps i fun w => w.planning i = none := unplanned_stable.kept
  have hA : Keeps i fun w => (Spot i j (pathKey agentID) idx r.id w ∧ w.planning i = none) ∧
      Writable w r ∧ w.locks (.record r.id) = some i :=
    (spot_stable.kept.and hquietK).and ((writable_stable r).kept.and (holds_stable _).kept)
  refine wpE_bind hs (fun _ => hquietK) (wpE_writeIndex hs hA ⟨⟨hspot, hp⟩, hw, hown⟩
    (fun _ => wpE_kept _ _ _) hquietK ?_ (fun _ _ h => h.1.2) (fun _ _ h => h.1.2))
  rintro t ht ⟨⟨hsp, hpl⟩, hwr, hl⟩
  have hinv : Inv (t.putIndex i j.epoch (idx.set (pathKey agentID) r.id)) :=
    inv_putIndex ht hsp.accepted hsp.epoch (fun _ _ hr hk ho => hsp.indexed ht _ hr hk ho)
  have hguar : Guar i t (t.putIndex i j.epoch (idx.set (pathKey agentID) r.id)) :=
    guar_putIndex hsp.lock
  refine ⟨hinv, hguar, ?_⟩
  -- The entry is in place; the record follows.
  have hB : Keeps i fun w => Placed i j r w ∧
      (w.locks .index = some i ∧ w.index = idx.set (pathKey agentID) r.id) :=
    (placed_stable r).kept.and (index_stable _).kept
  refine wpE_bind hinv (fun _ => hquietK) (wpE_mono ?_ (fun _ _ _ h => h)
    (wpE_create (j := j) hinv hB ⟨?_, hsp.lock, rfl⟩ (fun _ h => h.1) hmade.valid ?_))
  · intro _ u _ ha
    exact wpE_pure (((acquired_stable _).kept).and (Lib.Interleave.stable_const _).kept) ⟨ha, rfl⟩
  · exact {
      lock := hsp.lock
      own := hl
      epoch := hsp.epoch
      planning := hpl
      accepted := by simpa [World.putIndex, World.landed] using hsp.accepted
      absent := hsp.absent
      writable := hwr.guar hguar
      attempts := hmade.attempts_le }
  · intro w h _ _
    rw [h.2.2, hmade.agentID_eq]
    exact index_set_lookup idx _ _

/-- **A new generation** is acquired by the process that created it, under an identifier that is not
the one it replaces.  Each write is preceded by what it needs: the index lock and the checked
authority for both, the lock of the new record for the second. -/
theorem wpE_createGeneration (intent : Intent) (plan : Option VMPlanFunc) {s : World}
    (hs : Inv s) (hsite : Site i j (pathKey agentID) idx s) (hp : s.planning i = none)
    (hc : s.call i = {}) :
    WPE i (createGeneration j agentID intent plan idx)
      (fun h w => Acquired i h w ∧
        ∀ old, idx.activeVMs.lookup (pathKey agentID) = some old → h.record.id ≠ old)
      (fun _ w => w.planning i = none) s := by
  have hquietK : Keeps i fun w => w.planning i = none := unplanned_stable.kept
  have hQ : ∀ h : Handle, Keeps i fun w => Acquired i h w ∧
      ∀ old, idx.activeVMs.lookup (pathKey agentID) = some old → h.record.id ≠ old :=
    fun h => ((acquired_stable h).kept).and (Lib.Interleave.stable_const _).kept
  have hA : Keeps i fun w => Site i j (pathKey agentID) idx w ∧ w.planning i = none ∧
      w.call i = {} :=
    site_stable.kept.and (hquietK.and (call_stable fun c => c = {}).kept)
  refine wpE_bind hs (fun _ => hquietK) (wpE_newAllocationID hs hA ⟨hsite, hp, hc⟩
    (fun _ => wpE_kept _ _ _) hquietK ?_ (fun _ _ h => h.2.1))
  rintro t id ht ⟨hst, hpl, hcall⟩ _ _
  have ht' : Inv (t.withID id) := inv_withID ht
  refine wpE_bind ht' (fun _ => hquietK) (wpE_requireAbsent ht' hA
    ⟨hst.of_same rfl rfl rfl rfl rfl rfl, hpl, hcall⟩ (fun _ => wpE_kept _ _ _) hquietK ?_
    (fun _ _ h => h.2.1))
  rintro u hu ⟨hsu, hpu, hcu⟩ habsent
  -- The indexed generation is on disk, so the new identifier is another one.
  have hfresh : ∀ old, idx.activeVMs.lookup (pathKey agentID) = some old → id ≠ old := by
    rintro old hold rfl
    obtain ⟨r, hr, _⟩ := hsu.closed id hold
    rw [habsent] at hr
    cases hr
  refine wpE_bind hu (fun _ => hquietK) (wpE_mono ?_ (fun _ _ _ h => h)
    (wpE_runPlan hu ⟨hsu, habsent⟩ hpu hcu))
  rintro intent v hv ⟨hspv, hpv⟩
  refine wpE_bind hv (fun _ => hquietK) (wpE_mono ?_ (fun _ _ _ h => h)
    (wpE_generationRecord hv hspv hpv))
  rintro r x hx ⟨⟨⟨hspx, hpx⟩, hwx⟩, hmade⟩
  obtain rfl : r.id = id := hmade.id_eq
  have hB : Keeps i fun w => (Spot i j (pathKey agentID) idx r.id w ∧ w.planning i = none) ∧
      Writable w r :=
    (spot_stable.kept.and hquietK).and (writable_stable r).kept
  refine wpE_bind hx (fun _ => hquietK) (wpE_claimLock hx hB ⟨⟨hspx, hpx⟩, hwx⟩
    (fun _ => wpE_kept _ _ _) hquietK ?_ (fun _ _ h => h.1.2))
  rintro y hy ⟨⟨hspy, hpy⟩, hwy⟩ hfree
  have hy' := inv_take (i := i) hy hfree
  refine wpE_unlockOnError hy' hquietK hQ hquietK (wpE_mono ?_ (fun _ _ _ h => h)
    (wpE_commitGeneration hy' hmade (hspy.of_same (by simp [World.setLock]) rfl rfl rfl rfl rfl)
      hpy (hwy.guar (guar_take (i := i) hfree)) (by simp [World.setLock]))) ?_
  · rintro h z _ ⟨ha, rfl⟩
    exact ⟨ha, hfresh⟩
  · intro z _ hz
    exact ⟨hz, by rw [released_planning]; exact hz⟩

end Generation

end Journal
