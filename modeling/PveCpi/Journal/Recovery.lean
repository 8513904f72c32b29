/-
# Recovery

`ResolveMissingVMGeneration` writes the tombstone of a generation whose record was never
written.  `RecoverAuthority` and `RecoverIndex` replace the authority, and the second one the
index too, while they hold the index lock and the lock of every record (`Sealed`): nobody else can
be between a check of the old epoch and a write under it.  `RecoverIndex` rebuilds the index from
the records; `rebuildIndex_open` is why an open generation cannot get lost there.

The two recoveries differ in what they write; what they do before is one program (`wpE_recovering`).
They list the records under the index lock, and then take the lock of each.  The list cannot grow in
the meantime, so in the end they hold the lock of EVERY record, and this is exactly what `Guar` asks
of a change of the authority.

A process that fails to get one lock gives up and releases the others; it never waits for a record
while it holds the index lock.
-/
import PveCpi.Journal.Acquisition

namespace Journal

open Lib.Interleave (Prog Kept wp_bind wp_mono wp_ret wp_kept wpE_bind wpE_pure wpE_mono wpE_kept
  stable_const)

variable {i : Nat} {j : Authority}

/-! ## 1. Tombstones -/

/-- The record of a tombstone may be written when the record it is made from may. -/
theorem writable_tombstone {w : World} {r : Record} {v : Verification} {agentID : String}
    (h : Writable w r) (hmade : Made r.id .vm agentID r)
    (hv : validateRecord (tombstone r v) = .ok ()) : Writable w (tombstone r v) where
  namespace_eq := h.namespace_eq
  written := ⟨tombstone r v, r.updatedAt, hv, rfl⟩
  retry := by
    refine RetrySafe.of_valid (validateAttempts_of_record hv) ?_
    obtain ⟨a, ha⟩ := hmade.attempts
    have heq : (tombstone r v).attempts = [a] := ha
    rw [heq]
    exact List.pairwise_singleton _ _
  created := h.created
  readable := h.readable

/-! ## 2. The rebuilt index

Here only that open generations are found again; what the index says about closed ones is in
`Reindex`. -/

/-- An open generation was chosen for the key. -/
def Chosen (c : Choosing) (key id : String) : Prop :=
  c.activeVMs.lookup key = some id ∧
    ∃ r, c.chosen.lookup key = some r ∧ generationClosed r.state = false

theorem chosen_add {c : Choosing} {r : Record} {key id : String} (h : Chosen c key id)
    (hne : key ≠ pathKey r.agentID) : Chosen (c.add r) key id := by
  obtain ⟨h1, p, hp, ho⟩ := h
  exact ⟨(AList.lookup_insert_ne hne).trans h1, p, (AList.lookup_insert_ne hne).trans hp, ho⟩

theorem chosen_added (c : Choosing) {r : Record} (ho : generationClosed r.state = false) :
    Chosen (c.add r) (pathKey r.agentID) r.id :=
  ⟨AList.lookup_insert _, r, AList.lookup_insert _, ho⟩

/-- **One record.**  An open choice stays, and an open record is chosen. -/
theorem chooseGeneration_spec {c c' : Choosing} {r : Record}
    (h : chooseGeneration c r = .ok c') :
    (∀ key id, Chosen c key id → Chosen c' key id) ∧
      (r.kind = .vm → generationClosed r.state = false →
        Chosen c' (pathKey r.agentID) r.id) := by
  unfold chooseGeneration at h
  by_cases hk : r.kind = .vm
  · simp only [hk, bne_self_eq_false, Bool.false_eq_true, if_false] at h
    cases hl : c.chosen.lookup (pathKey r.agentID) with
    | none =>
      rw [hl] at h
      simp only [Except.ok.injEq] at h
      subst h
      refine ⟨?_, fun _ ho => chosen_added c ho⟩
      intro key id hch
      refine chosen_add hch ?_
      rintro rfl
      obtain ⟨_, p, hp, _⟩ := hch
      rw [hl] at hp
      cases hp
    | some p =>
      rw [hl] at h
      simp only at h
      split at h
      · cases h
      · rename_i hboth
        split at h
        · rename_i hadd
          simp only [Except.ok.injEq] at h
          subst h
          refine ⟨?_, fun _ ho => chosen_added c ho⟩
          intro key id hch
          refine chosen_add hch ?_
          rintro rfl
          obtain ⟨_, q, hq, ho⟩ := hch
          have : p = q := Option.some.inj (hl.symm.trans hq)
          subst this
          rw [ho] at hadd
          simp at hadd
        · rename_i hadd
          simp only [Except.ok.injEq] at h
          subst h
          refine ⟨fun _ _ hch => hch, ?_⟩
          intro _ ho
          -- The record is open: either choice before it makes one of the tests fire.
          cases hp : generationClosed p.state with
          | false =>
            rw [hp, ho] at hboth
            simp at hboth
          | true =>
            rw [hp, ho] at hadd
            simp at hadd
  · simp only [bne_iff_ne.mpr hk, if_true, Except.ok.injEq] at h
    subst h
    exact ⟨fun _ _ hch => hch, fun hk' => absurd hk' hk⟩

/-- The choice keeps what was chosen and chooses every open generation.  A second open generation of
an agent is an error, so a choice is never overwritten. -/
theorem chooseGenerations_spec {records : List Record} : ∀ {c c' : Choosing},
    chooseGenerations c records = .ok c' →
    (∀ key id, Chosen c key id → Chosen c' key id) ∧
      ∀ r ∈ records, r.kind = .vm → generationClosed r.state = false →
        Chosen c' (pathKey r.agentID) r.id := by
  induction records with
  | nil =>
    intro c c' h
    simp only [chooseGenerations, Except.ok.injEq] at h
    subst h
    exact ⟨fun _ _ h => h, fun r hr => by cases hr⟩
  | cons r rs ih =>
    intro c c' h
    unfold chooseGenerations at h
    obtain ⟨d, hd, hrest⟩ := bind_eq_ok.mp h
    obtain ⟨hkeep, hnew⟩ := chooseGeneration_spec hd
    obtain ⟨hkeep', hall⟩ := ih hrest
    refine ⟨fun key id hch => hkeep' key id (hkeep key id hch), ?_⟩
    intro r' hr' hk ho
    rcases List.mem_cons.mp hr' with rfl | hmem
    · exact hkeep' _ _ (hnew hk ho)
    · exact hall r' hmem hk ho

/-- **Every open generation stands in the rebuilt index.**  An open record is chosen when it comes,
and no later record takes its place: a closed one is worse, and a second open one is an error. -/
theorem rebuildIndex_open {records : List Record} {idx : Index}
    (h : rebuildIndex records = .ok idx) {r : Record} (hr : r ∈ records) (hk : r.kind = .vm)
    (ho : generationClosed r.state = false) :
    idx.activeVMs.lookup (pathKey r.agentID) = some r.id := by
  unfold rebuildIndex at h
  obtain ⟨c, hc, hidx⟩ := bind_eq_ok.mp h
  rw [pure_eq_ok] at hidx
  subst hidx
  exact ((chooseGenerations_spec hc).2 r hr hk ho).1

/-! ## 3. Resolving a missing generation -/

/-- No callback of the process runs. -/
def Quiet (i : Nat) (w : World) : Prop := w.planning i = none

theorem quiet_keeps : Keeps i (Quiet i) := unplanned_stable.kept

/-- A deferred close with nothing to give up. -/
theorem wpE_deferQuiet {n : LockName} {p : M Unit} {s : World} (hs : Inv s)
    (hp : WPE i p (fun _ => Quiet i) (fun _ => Quiet i) s) :
    WPE i (deferUnlock n noUndo p) (fun _ => Quiet i) (fun _ => Quiet i) s := by
  have hrel : ∀ w : World, Quiet i w → Quiet i (w.released n i) := by
    intro w hq
    unfold Quiet
    rw [released_planning]
    exact hq
  refine wpE_deferUnlock hs (fun _ => quiet_keeps) quiet_keeps (fun _ => quiet_keeps) quiet_keeps
    hp ?_ ?_
  · intro _ w _ hq
    exact ⟨hq, hrel w hq, wp_ret quiet_keeps (hrel w hq)⟩
  · intro w _ hq
    exact ⟨hq, hrel w hq⟩

/-- **A tombstone** is written under both locks, where no record is. -/
theorem wpE_resolveMissingVMGeneration {agentID id : String} {intent : Intent}
    {v : Verification} {s : World} (hs : Inv s) (hu : Untouched i s) :
    WPE i (resolveMissingVMGeneration j agentID id intent v) (fun _ => Quiet i)
      (fun _ => Quiet i) s := by
  have hquietK : Keeps i (Quiet i) := quiet_keeps
  refine wpE_skip hs (fun _ => hquietK) (readOnly_check _) untouched_stable.kept hu
    (fun _ _ _ h => h.planning) ?_
  intro _ s1 hs1 hu1
  refine wpE_bind hs1 (fun _ => hquietK) (wpE_waitLock hs1 untouched_stable.kept hu1
    (fun _ => wpE_kept _ _ _) hquietK ?_ (fun _ _ h => h.planning))
  intro t ht hut hfree
  have ht' := inv_take (i := i) ht hfree
  have hent : Held i (t.setLock .index (some i)) :=
    ⟨by simp [World.setLock], hut.planning, by
      show (t.call i).rejected = false
      rw [hut.call]⟩
  refine wpE_deferQuiet ht' ?_
  refine wpE_bind ht' (fun _ => hquietK) (wpE_checkAuthority ht' held_stable.kept hent
    (fun _ => wpE_kept _ _ _) (fun _ => hquietK) ?_ (fun _ _ _ h => h.planning))
  intro u hu' hheld hep hns
  have hI : Keeps i (Inside i j) := (inside_stable j).kept
  refine wpE_skip hu' (fun _ => hquietK) readOnly_readIndex hI ⟨hheld, hep, hns⟩
    (fun _ _ _ h => h.planning) ?_
  intro idx u1 hu1 hin1
  refine wpE_skip hu1 (fun _ => hquietK) (readOnly_check _) hI hin1
    (fun _ _ _ h => h.planning) ?_
  intro _ u2 hu2 hin2
  refine wpE_bind hu2 (fun _ => hquietK) (wpE_claimLock hu2 hI hin2
    (fun _ => wpE_kept _ _ _) hquietK ?_ (fun _ _ h => h.planning))
  intro x hx hinx hfreex
  have hx' := inv_take (i := i) hx hfreex
  have hA : Keeps i fun w => Inside i j w ∧ w.locks (.record id) = some i :=
    hI.and (holds_stable _).kept
  have hin' : Inside i j (x.setLock (.record id) (some i)) :=
    ⟨⟨by simpa [World.setLock] using hinx.lock, hinx.planning, hinx.accepted⟩, hinx.epoch,
      hinx.namespace_eq⟩
  refine wpE_deferQuiet hx' ?_
  refine wpE_bind hx' (fun _ => hquietK) (wpE_requireAbsent hx' hA
    ⟨hin', by simp [World.setLock]⟩ (fun _ => wpE_kept _ _ _) hquietK ?_
    (fun _ _ h => h.1.planning))
  rintro y hy ⟨hiny, howny⟩ habsent
  have hB : Keeps i fun w => (Inside i j w ∧ w.locks (.record id) = some i) ∧
      (w.locks .index = some i ∧ w.records.lookup id = none) := hA.and (absent_stable id).kept
  refine wpE_bind hy (fun _ => hquietK) (wpE_mono ?_ (fun _ _ _ h => h.1.1.planning)
    (wpE_make (j := j) hy hB ⟨⟨hiny, howny⟩, hiny.lock, habsent⟩
      (fun w h => h.1.1.namespace_eq) ?_))
  · rintro r z hz ⟨⟨hBz, hwz⟩, hmade⟩
    obtain rfl : r.id = id := hmade.id_eq
    have hC := hB.and (writable_stable (i := i) r).kept
    refine wpE_bind hz (fun _ => hquietK) (wpE_check (fun _ => wpE_kept _ _ _)
      (fun _ => hquietK) ?_ (fun _ _ => hBz.1.1.planning))
    intro _ hvalid
    refine wpE_mono (fun _ _ _ h => h.planning) (fun _ _ _ h => h)
      (wpE_create (j := j) hz hC ⟨hBz, hwz⟩ ?_ hvalid ?_)
    · rintro w ⟨⟨⟨hiw, how⟩, _, haw⟩, hww⟩
      exact ⟨hiw.lock, how, hiw.epoch, hiw.planning, hiw.accepted, haw,
        writable_tombstone hww hmade hvalid, hmade.attempts_le⟩
    · intro w _ _ hopen
      cases hopen
  · rintro w now ⟨⟨hiw, how⟩, hlw, haw⟩
    exact ⟨⟨⟨⟨hiw.lock, hiw.planning, hiw.accepted⟩, hiw.epoch, hiw.namespace_eq⟩, how⟩, hlw, haw⟩

/-! ## 4. All locks

`Sealed` is the index lock, the checked authority, and the lock of every record on disk. -/

/-- The index lock and the lock of every record are held. -/
structure Sealed (i : Nat) (j : Authority) (ids : List String) (w : World) : Prop
    extends Inside i j w where
  names : ∀ id r, w.records.lookup id = some r → id ∈ ids
  locked : ∀ id ∈ ids, w.locks (.record id) = some i

theorem sealed_stable (ids : List String) : Stands i (Sealed i j ids) := by
  intro k hk s t hs ht hg h
  exact {
    toInside := inside_stable j k hk s t hs ht hg h.toInside
    names := (names_stable (· ∈ ids) k hk s t hs ht hg ⟨h.lock, h.names⟩).2
    locked := fun id hid => holds_stable _ k hk s t hs ht hg (h.locked id hid) }

theorem Sealed.all {ids : List String} {w : World} (h : Sealed i j ids w) {id : String}
    {r : Record} (hr : w.records.lookup id = some r) : w.locks (.record id) = some i :=
  h.locked id (h.names id r hr)

/-- Under all locks a record that was read stays what it is. -/
theorem sealed_record_keeps (ids : List String) (id : String) (r : Record) :
    Keeps i fun w => Sealed i j ids w ∧ w.records.lookup id = some r := by
  rintro s t ht he ⟨hsl, hr⟩
  exact ⟨(sealed_stable ids).kept s t ht he hsl,
    ((record_stable id r).kept s t ht he ⟨hsl.all hr, hr⟩).2⟩

/-- Locks are taken one by one, and released whatever happens. -/
theorem wpE_withRecordLocks {B : World → Prop} {p : M Unit} (hB : Keeps i B)
    (hset : ∀ w id, B w → B (w.setLock (.record id) (some i))) (hquiet : ∀ w, B w → Quiet i w)
    (rs : List Record) : ∀ (taken : List String) {s : World}, Inv s → B s →
      (∀ id ∈ taken, s.locks (.record id) = some i) →
      (∀ t, Inv t → B t → (∀ id ∈ rs.map (fun r => r.id) ++ taken,
        t.locks (.record id) = some i) → WPE i p (fun _ => Quiet i) (fun _ => Quiet i) t) →
      WPE i (withRecordLocks rs p) (fun _ => Quiet i) (fun _ => Quiet i) s := by
  induction rs with
  | nil =>
    intro taken s hs hBs htaken hp
    exact hp s hs hBs htaken
  | cons r rs ih =>
    intro taken s hs hBs htaken hp
    have hA : Keeps i fun w => B w ∧ ∀ id ∈ taken, w.locks (.record id) = some i := by
      intro s t ht he h
      exact ⟨hB s t ht he h.1, fun id hid => (holds_stable _).kept s t ht he (h.2 id hid)⟩
    refine wpE_bind hs (fun _ => quiet_keeps) (wpE_claimLock hs hA ⟨hBs, htaken⟩
      (fun _ => wpE_kept _ _ _) quiet_keeps ?_ (fun t _ h => hquiet t h.1))
    rintro t ht ⟨hBt, htk⟩ hfree
    refine wpE_deferQuiet (inv_take ht hfree) (ih (r.id :: taken) (inv_take ht hfree)
      (hset t r.id hBt) ?_ ?_)
    · intro id hid
      by_cases heq : id = r.id
      · simp [World.setLock, heq]
      · rcases List.mem_cons.mp hid with h | h
        · exact absurd h heq
        · simpa [World.setLock, heq] using htk id h
    · intro u hu hBu hall
      refine hp u hu hBu ?_
      intro id hid
      refine hall id ?_
      simp only [List.map_cons, List.cons_append, List.mem_cons, List.mem_append] at hid ⊢
      tauto

/-- The locks of a list that covers the directory are all locks. -/
theorem sealed_of_listed {records : List Record} {w : World} (hin : Inside i j w)
    (hcov : Covered (fun id r _ => r.id = id) records w)
    (hall : ∀ id ∈ records.map (fun r => r.id) ++ [], w.locks (.record id) = some i) :
    Sealed i j (records.map fun r => r.id) w where
  toInside := hin
  names := by
    intro id r hr
    obtain ⟨r', hr', rfl⟩ := hcov.find hr
    exact List.mem_map_of_mem hr'
  locked := fun id hid => hall id (by simpa using hid)

/-- List the directory and lock every record of it, then run `p`. -/
theorem wpE_sealed {p : M Unit} {s : World} (hs : Inv s) (hin : Inside i j s)
    (hp : ∀ ids t, Inv t → Sealed i j ids t →
      WPE i p (fun _ => Quiet i) (fun _ => Quiet i) t) :
    WPE i (list j >>= fun records => withRecordLocks records p) (fun _ => Quiet i)
      (fun _ => Quiet i) s := by
  have hI : Keeps i (Inside i j) := (inside_stable j).kept
  have hF : ∀ (id : String) (r : Record), Keeps i fun w => Inside i j w ∧ r.id = id :=
    fun id r => hI.and (stable_const _).kept
  refine wpE_bind hs (fun _ => quiet_keeps) (wpE_mono ?_ (fun _ _ _ h => h.planning)
    (wpE_list (j := j) (F := fun id r _ => r.id = id) hs hI (fun _ h => h.lock) hin hF
      (fun t id r ht _ hr _ => (ht.record id r hr).id_eq)))
  intro records t ht h
  refine wpE_withRecordLocks (covered_keeps hI (fun _ h => h.lock) hF records) ?_
    (fun _ h => h.1.planning) records [] ht h (fun id hid => by cases hid) ?_
  · rintro w id ⟨hw, hcov⟩
    exact ⟨⟨⟨by simpa [World.setLock] using hw.lock, hw.planning, hw.accepted⟩, hw.epoch,
      hw.namespace_eq⟩, hcov⟩
  · intro u hu hBu hall
    exact hp _ u hu (sealed_of_listed hBu.1 hBu.2 hall)

/-! ## 5. A new epoch -/

/-- **The authority is replaced** under all locks, by an epoch that was never in force.  Every epoch
so far is among the identifiers that were handed out, and the new one is not. -/
theorem wpE_writeNewEpoch (ids : List String) {e : Enrollment} {s : World} (hs : Inv s)
    (hsl : Sealed i j ids s) :
    WPE i (writeNewEpoch j e) (fun _ => Quiet i) (fun _ => Quiet i) s := by
  refine wpE_bind hs (fun _ => quiet_keeps) (wpE_newAllocationID hs (sealed_stable ids).kept hsl
    (fun _ => wpE_kept _ _ _) quiet_keeps ?_ (fun _ _ h => h.planning))
  intro t epoch ht hst _ hfresh
  have hissued : Stands i fun w => epoch ∈ w.issued := fun _ _ _ _ _ _ hg h => hg.issued _ h
  have hA : Keeps i fun w => Sealed i j ids w ∧
      (w.locks .index = some i ∧ epoch ∉ w.epochs) ∧ epoch ∈ w.issued :=
    (sealed_stable ids).kept.and ((epoch_unused_stable epoch).kept.and hissued.kept)
  have hst' : Sealed i j ids (t.withID epoch) :=
    ⟨⟨⟨hst.lock, hst.planning, hst.accepted⟩, hst.epoch, hst.namespace_eq⟩, hst.names,
      hst.locked⟩
  have hunused : epoch ∉ (t.withID epoch).epochs := by
    intro hmem
    exact hfresh (ht.issued epoch hmem)
  refine wpE_writeAuthority (inv_withID ht) hA ⟨hst', ⟨hst.lock, hunused⟩, List.mem_cons_self⟩
    (fun _ => quiet_keeps) quiet_keeps ?_ (fun _ _ h => h.1.planning) (fun _ _ h => h.1.planning)
  rintro u hu ⟨hsu, ⟨_, hnew⟩, hiss⟩
  exact ⟨inv_putAuthority hu hsu.accepted hsu.epoch hsu.namespace_eq.symm hnew hiss,
    guar_putAuthority hsu.lock hsu.namespace_eq.symm (fun id r hr => hsu.all hr), hsu.planning⟩

/-- The start of both recoveries: the index lock, the authority, and all locks. -/
theorem wpE_recovering {p : M Unit} {s : World} (hs : Inv s) (hu : Untouched i s)
    (hp : ∀ ids t, Inv t → Sealed i j ids t →
      WPE i p (fun _ => Quiet i) (fun _ => Quiet i) t) :
    WPE i (do waitLock .index
              deferUnlock .index noUndo do
                checkAuthority j
                let records ← list j
                withRecordLocks records p)
      (fun _ => Quiet i) (fun _ => Quiet i) s := by
  refine wpE_bind hs (fun _ => quiet_keeps) (wpE_waitLock hs untouched_stable.kept hu
    (fun _ => wpE_kept _ _ _) quiet_keeps ?_ (fun _ _ h => h.planning))
  intro t ht hut hfree
  have ht' := inv_take (i := i) ht hfree
  have hheld : Held i (t.setLock .index (some i)) :=
    ⟨by simp [World.setLock], hut.planning, by
      show (t.call i).rejected = false
      rw [hut.call]⟩
  refine wpE_deferQuiet ht' (wpE_bind ht' (fun _ => quiet_keeps) (wpE_checkAuthority ht'
    held_stable.kept hheld (fun _ => wpE_kept _ _ _) (fun _ => quiet_keeps) ?_
    (fun _ _ _ h => h.planning)))
  intro u hu' hh hep hns
  exact wpE_sealed hu' ⟨hh, hep, hns⟩ hp

/-- The recovery of the authority: under the index lock and with every record locked, a new epoch is
written.  All the checks before that only read. -/
theorem wpE_recoverAuthority {e : Enrollment} {s : World} (hs : Inv s) (hu : Untouched i s) :
    WPE i (recoverAuthority j e) (fun _ => Quiet i) (fun _ => Quiet i) s := by
  refine wpE_skip hs (fun _ => quiet_keeps) (readOnly_check _) untouched_stable.kept hu
    (fun _ _ _ h => h.planning) ?_
  intro _ s1 hs1 hu1
  refine wpE_recovering hs1 hu1 ?_
  intro ids t ht hst
  have hS : Keeps i (Sealed i j ids) := (sealed_stable ids).kept
  have herr : ∀ (e : Err) (w : World), Inv w → Sealed i j ids w → Quiet i w :=
    fun _ _ _ h => h.planning
  refine wpE_skip ht (fun _ => quiet_keeps) (readOnly_list j) hS hst herr ?_
  intro records t1 ht1 hst1
  refine wpE_skip ht1 (fun _ => quiet_keeps) (readOnly_validateProvenance j _) hS hst1 herr ?_
  intro _ t2 ht2 hst2
  refine wpE_skip ht2 (fun _ => quiet_keeps) readOnly_readIndex hS hst2 herr ?_
  intro idx t3 ht3 hst3
  refine wpE_skip ht3 (fun _ => quiet_keeps) (readOnly_validateGenerationIndex j idx) hS hst3
    herr ?_
  intro _ t4 ht4 hst4
  refine wpE_skip ht4 (fun _ => quiet_keeps) (readOnly_check _) hS hst4 herr ?_
  intro _ t5 ht5 hst5
  exact wpE_writeNewEpoch ids ht5 hst5

/-- The recovery of the index: with every record locked and read, the chosen generations are all the
open ones, which is what the invariant asks of an index. -/
theorem wpE_recoverIndex {e : Enrollment} {s : World} (hs : Inv s) (hu : Untouched i s) :
    WPE i (recoverIndex j e) (fun _ => Quiet i) (fun _ => Quiet i) s := by
  refine wpE_skip hs (fun _ => quiet_keeps) (readOnly_check _) untouched_stable.kept hu
    (fun _ _ _ h => h.planning) ?_
  intro _ s1 hs1 hu1
  refine wpE_skip hs1 (fun _ => quiet_keeps) (readOnly_check _) untouched_stable.kept hu1
    (fun _ _ _ h => h.planning) ?_
  intro _ s2 hs2 hu2
  refine wpE_recovering hs2 hu2 ?_
  intro ids t ht hst
  have hS : Keeps i (Sealed i j ids) := (sealed_stable ids).kept
  -- Under all locks the list is the directory itself.
  have hF := sealed_record_keeps (i := i) (j := j) ids
  refine wpE_bind ht (fun _ => quiet_keeps) (wpE_mono ?_ (fun _ _ _ h => h.planning)
    (wpE_list (j := j) (F := fun id r w => w.records.lookup id = some r) ht hS
      (fun _ h => h.lock) hst hF (fun _ _ _ _ _ hr _ => hr)))
  intro records t1 ht1 hst1
  have hC := covered_keeps hS (fun _ h => h.lock) hF records
  refine wpE_skip ht1 (fun _ => quiet_keeps) (readOnly_validateProvenance j _) hC hst1
    (fun _ _ _ h => h.1.planning) ?_
  intro _ t2 ht2 hst2
  refine wpE_skip ht2 (fun _ => quiet_keeps) (readOnly_requireOldIndexed j) hC hst2
    (fun _ _ _ h => h.1.planning) ?_
  intro _ t3 ht3 hst3
  refine wpE_bind ht3 (fun _ => quiet_keeps) (wpE_check (fun _ => wpE_kept _ _ _)
    (fun _ => quiet_keeps) ?_ (fun _ _ => hst3.1.planning))
  intro idx hidx
  refine wpE_bind ht3 (fun _ => quiet_keeps) (wpE_writeIndex ht3 hC hst3 (fun _ => wpE_kept _ _ _)
    quiet_keeps ?_ (fun _ _ h => h.1.planning) (fun _ _ h => h.1.planning))
  rintro t4 ht4 ⟨hst4, hcov⟩
  have hinv : Inv (t4.putIndex i j.epoch idx) := by
    refine inv_putIndex ht4 hst4.accepted hst4.epoch ?_
    intro id r hr hk ho
    obtain ⟨r', hmem, hr'⟩ := hcov.find hr
    have heq : r' = r := Option.some.inj (hr'.symm.trans hr)
    subst heq
    rw [rebuildIndex_open hidx hmem hk ho, (ht4.record id r' hr).id_eq]
  refine ⟨hinv, guar_putIndex hst4.lock, wpE_writeNewEpoch ids hinv ?_⟩
  exact ⟨⟨⟨hst4.lock, hst4.planning, by
    simpa [World.putIndex, World.landed] using hst4.accepted⟩, hst4.epoch, hst4.namespace_eq⟩,
    hst4.names, hst4.locked⟩

end Journal
