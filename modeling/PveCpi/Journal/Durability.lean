/-
# What was written can be read, and can be ended

Two results about one process that is left alone (`alone`) in a reachable state.  The first says
that the journal reads back what it wrote; the second that every allocation can be ended with
evidence that nothing is left of it.  Both need that the records can be read at all, and that is
not a matter of course: a save validates the record before it is stamped and encoded, so a clock
that steps behind the creation time, or a plan that is `null` with space around it, leaves a
record on disk that every reader refuses.

## The two conditions

`Tidy` is about the history of the run: every clock reading that was stamped into a save is no
earlier than the creation of the record, and every plan that was stored is one the reader accepts.
A clock can step backwards by itself; a plan of the second kind has to be handed in.  `MonoClock`
and `PlansTidy` are the same in terms of the environment, and `tidy_of_plans` connects them.

Under these conditions a record on disk is valid, and then both results are about one process that
runs to its end: reading is a matter of following the readers, and disposal is `Disposal.lean` with
the effects around it.  Neither condition can be dropped, and the two counterexamples are runs in
which one of them fails and everything else is as usual.
-/
import PveCpi.Journal.Guarantees
import PveCpi.Journal.Disposal

namespace Journal

open Lib.Interleave (Config Act Reach alone alone_bind runActs)

/-! ## 1. One process alone

`solo` evaluates a program with one choice for every effect.  What others do in the meantime does
not enter here: the statements are about the state that the readers find. -/

section Alone

variable {k : Nat} {ch : Choice} {w t : World} {α β : Type}

/-- Run a program of the journal with nobody else acting. -/
abbrev solo (k : Nat) (ch : Choice) (p : P α) (w : World) : Option (α × World) :=
  alone (S := journalSys) k ch p w

theorem solo_bind {p : M α} {f : α → M β} {x : α} (h : solo k ch p.run w = some (.ok x, t)) :
    solo k ch (p >>= f).run w = solo k ch (f x).run t :=
  alone_bind h

theorem solo_act {p : P α} {x : α} (h : solo k ch p w = some (x, t)) :
    solo k ch (act p).run w = some (.ok x, t) :=
  alone_bind h

theorem solo_check (x : Except Err α) : solo k ch (check x).run w = some (x, w) := rfl

theorem solo_recordFile (hf : ch.fault = .none) (id : String) :
    solo k ch (recordFile id) w = some (w.readRecord id, w) := by
  simp [solo, alone, recordFile, Lib.Interleave.Prog.perform, exec, orFail, hf]

theorem solo_directory (hf : ch.fault = .none) :
    solo k ch directory w = some (some w.records.keys, w) := by
  simp [solo, alone, directory, Lib.Interleave.Prog.perform, exec, orFail, hf]

theorem solo_authorityFile (hf : ch.fault = .none) :
    solo k ch authorityFile w = some (some w.authority, w) := by
  simp [solo, alone, authorityFile, Lib.Interleave.Prog.perform, exec, orFail, hf]

end Alone

/-! ## 2. Reading back

A record is `Readable` for a Journal when it is on disk under its name, valid, decodable and of the
Journal's namespace. -/

section Reading

variable {k : Nat} {ch : Choice} {w : World} {j : Authority}

theorem allocationID_of_valid {r : Record} (h : validateRecord r = .ok ()) :
    allocationIDPattern r.id = true := by
  unfold validateRecord validateIdentity at h
  simp only [check_bind_eq_ok, refuse_eq_ok, Bool.or_eq_false_iff, Bool.not_eq_false'] at h
  exact h.1.1.1.1.1.1.1.2

/-- A record on disk that its checks accept. -/
structure Readable (j : Authority) (w : World) (id : String) (r : Record) : Prop where
  lookup : w.records.lookup id = some r
  id_eq : r.id = id
  namespace_eq : r.namespace = j.namespace
  valid : validateRecord r = .ok ()
  decodable : r.decodable = true

/-- Without faults and with nobody else acting, a readable record is inspected as it is. -/
theorem solo_inspect (hf : ch.fault = .none) {id : String} {r : Record}
    (h : Readable j w id r) : solo k ch (inspect j id).run w = some (.ok r, w) := by
  have hid : refuse (!allocationIDPattern id) invalidID = .ok () := by
    rw [refuse_eq_ok, ← h.id_eq, allocationID_of_valid h.valid]
    rfl
  have hread : w.readRecord id = .found r := by
    unfold World.readRecord
    rw [h.lookup]
    exact if_pos h.decodable
  have haccept : acceptRecord j id (.found r) = .ok r := by
    simp only [acceptRecord, check_bind_eq_ok, pure_eq_ok, refuse_eq_ok, h.valid, h.id_eq,
      h.namespace_eq, bne_self_eq_false, Bool.or_self, and_self]
  unfold inspect
  rw [solo_bind (x := ()) (by rw [solo_check, hid]),
    solo_bind (solo_act (solo_recordFile hf id)), solo_check, hread, haccept]

theorem solo_inspectAll (hf : ch.fault = .none) {ids : List String}
    (h : ∀ id ∈ ids, ∃ r, Readable j w id r) :
    ∃ rs, solo k ch (inspectAll j ids).run w = some (.ok rs, w) := by
  induction ids with
  | nil => exact ⟨[], rfl⟩
  | cons id ids ih =>
    obtain ⟨r, hr⟩ := h id List.mem_cons_self
    obtain ⟨rs, hrs⟩ := ih fun id' hid' => h id' (List.mem_cons_of_mem _ hid')
    refine ⟨r :: rs, ?_⟩
    rw [inspectAll, solo_bind (solo_inspect hf hr), solo_bind hrs]
    rfl

theorem solo_list (hf : ch.fault = .none)
    (h : ∀ id r, w.records.lookup id = some r → Readable j w id r) :
    ∃ rs, solo k ch (list j).run w = some (.ok rs, w) := by
  have hall : ∀ id ∈ w.records.keys, ∃ r, Readable j w id r := by
    intro id hid
    obtain ⟨r, hr⟩ := Option.isSome_iff_exists.mp (AList.lookup_isSome.mpr (AList.mem_keys.mpr hid))
    exact ⟨r, h id r hr⟩
  obtain ⟨rs, hrs⟩ := solo_inspectAll (k := k) hf hall
  refine ⟨sortByID rs, ?_⟩
  unfold list
  rw [solo_bind (solo_act (solo_directory hf)), solo_bind (solo_check _), solo_bind hrs]
  rfl

end Reading

variable {a : Authority} {c : Config journalSys}

theorem Run.readable (h : Run a c) (ht : Tidy c.shared) {j : Authority}
    (hj : j.namespace = c.shared.authority.namespace) {id : String} {r : Record}
    (hr : c.shared.records.lookup id = some r) : Readable j c.shared id r := by
  have hok := h.inv.record id r hr
  exact ⟨hr, hok.id_eq, hok.namespace_eq.trans hj.symm, hok.readable ht, hok.decodable⟩

/-- **What was written can be read.**  In a run in which every save was stamped no earlier than the
creation of its record and every plan is readable, `Inspect` of each record and `List` succeed.  The
writer validated each record, and with the conditions the reader's checks are those of the writer
(`validateRecord_readback`). -/
theorem reads_back (h : Run a c) (ht : Tidy c.shared) {j : Authority}
    (hj : j.namespace = c.shared.authority.namespace) (k : Nat) (ch : Choice)
    (hf : ch.fault = .none) :
    (∀ id r, c.shared.records.lookup id = some r →
      solo k ch (inspect j id).run c.shared = some (.ok r, c.shared)) ∧
    ∃ rs, solo k ch (list j).run c.shared = some (.ok rs, c.shared) := by
  constructor
  · intro id r hr
    exact solo_inspect hf (h.readable ht hj hr)
  · exact solo_list hf fun id r hr => h.readable ht hj hr

theorem reads_back_sample : ∃ c : Config journalSys, Run sampleAuthority c ∧ Tidy c.shared ∧
    solo 1 {} (inspect sampleAuthority nextID).run c.shared =
      some (.ok sampleLost, c.shared) := by
  obtain ⟨c₁, _, hs⟩ := lost_run
  obtain ⟨hrun, hl, ht, _, hauth⟩ := hs.lost
  have hj : sampleAuthority.namespace = c₁.shared.authority.namespace := by rw [hauth]
  exact ⟨c₁, hrun, ht, (reads_back hrun ht hj 1 {} rfl).1 _ _ hl⟩

/-- The program ends with an error. -/
def fails {α : Type} : Option (Except Err α × World) → Bool
  | some (.error _, _) => true
  | _ => false

/-- The process is between two calls, the last of which succeeded on its handle. -/
def lastSucceeded (c : Config journalSys) (i : Nat) : Bool :=
  match c.actor i with
  | .idle l => l.log.getLast?.any fun e => e.ok
  | .running _ => false

/-- Acquire at time 5, and save the same record at time 3. -/
def sampleBackwards : List (Act journalSys) :=
  oneCall 0 (.open "director" "cluster") 1 5 "" ++
    oneCall 0 (.acquireVM "agent" (sampleIntent "{}") 0) 11 5 sampleID ++
    oneCall 0 (.call (.save (sampleRecord (sampleIntent "{}")))) 5 3 ""

/-- The save goes through, and both readers fail. -/
theorem backwards_evaluated :
    ((runActs sampleBackwards (.initial (enrolled sampleAuthority))).any fun c =>
      lastSucceeded c 0 && (fails (solo 1 {} (inspect sampleAuthority sampleID).run c.shared) &&
        fails (solo 1 {} (list sampleAuthority).run c.shared))) = true := by
  decide +kernel

/-- **A clock that steps backwards leaves an unreadable record**: the save succeeds, and both
readers fail after it.  The record was validated before it was stamped, and nothing compares the
stamp with the creation time until somebody reads. -/
theorem unreadable_after_save : ∃ c : Config journalSys, Run sampleAuthority c ∧
    lastSucceeded c 0 = true ∧
    fails (solo 1 {} (inspect sampleAuthority sampleID).run c.shared) = true ∧
    fails (solo 1 {} (list sampleAuthority).run c.shared) = true := by
  obtain ⟨c, hrun, hc⟩ := exists_of_runActs backwards_evaluated
  simp only [Bool.and_eq_true] at hc
  exact ⟨c, hrun, hc.1, hc.2.1, hc.2.2⟩

/-! ## 3. Every allocation can be ended

The replacement is `disposed`, which needs nothing but the record and evidence that is fresh. -/

section Saving

variable {k : Nat} {ch : Choice} {w : World} {j : Authority}

/-- The Journal was opened on the authority that is on disk. -/
def Current (j : Authority) (w : World) : Prop :=
  acceptAuthority j.namespace (some w.authority) = .ok j

theorem Current.eq (h : Current j w) : w.authority = j :=
  Option.some.inj (acceptAuthority_ok h).1

theorem solo_checkAuthority (hf : ch.fault = .none) (hj : Current j w) :
    solo k ch (checkAuthority j).run w = some (.ok (), w) := by
  have hread : solo k ch (readAuthority j.namespace).run w = some (.ok j, w) := by
    unfold readAuthority
    rw [solo_bind (solo_act (solo_authorityFile hf)), solo_check]
    exact congrArg (fun x => some (x, w)) hj
  unfold checkAuthority
  rw [solo_bind hread, solo_check]
  have hsame : refuse (!sameAuthority j j) ErrKind.authority.err = .ok () := by
    simp [sameAuthority]
  rw [hsame]

/-- The save is accepted and lands. -/
def Accepted (k : Nat) (ch : Choice) (j : Authority) (h : Handle) (next : Record) (w : World) :
    Prop :=
  ∃ h' w', solo k ch (saveLocked j h next false) w = some ((.ok (), h'), w') ∧
    w'.records.lookup h.record.id = some { next with updatedAt := ch.time }.stored

theorem solo_writeRecord (hf : ch.fault = .none) {r : Record} (he : r.decodable = true) :
    solo k ch (writeRecord j r).run w = some (.ok (), w.putRecord k j.epoch r) := by
  have hwrite : solo k ch (replaceRecord j.epoch r) w =
      some (true, w.putRecord k j.epoch r) := by
    simp only [solo, alone, replaceRecord, Lib.Interleave.Prog.perform, exec, he, World.commit, hf]
    rfl
  unfold writeRecord
  rw [solo_bind (solo_act hwrite), solo_check]
  rfl

/-- Without faults, what the handle admits is written: the remaining checks of a save are about the
handle and about the size of the text, and both are hypotheses. -/
theorem accepted_of_admitted (hf : ch.fault = .none) (hj : Current j w) {h : Handle} {next : Record}
    (hopen : h.closed = false) (hclean : h.poisoned = false)
    (hadmitted : admitSave h.record h.requiresReconciliation false next = .ok ())
    (hterm : terminal h.record.state = false) (hid : next.id = h.record.id)
    (he : next.decodable = true) : Accepted k ch j h next w := by
  have hnow : solo k ch (timeNow (.save next)) w =
      some (ch.time, w.stamped ch.time (.save next)) := rfl
  have hwrite : solo k ch (writeRecord j { next with updatedAt := ch.time }).run
      (w.stamped ch.time (.save next)) = some (.ok (),
        (w.stamped ch.time (.save next)).putRecord k j.epoch { next with updatedAt := ch.time }) :=
    solo_writeRecord hf he
  refine ⟨{ h with
      record := { next with updatedAt := ch.time }
      requiresReconciliation := h.requiresReconciliation && !reconciles h.record next },
    (w.stamped ch.time (.save next)).putRecord k j.epoch { next with updatedAt := ch.time }, ?_, ?_⟩
  · unfold saveLocked
    rw [if_neg (by simp [hopen]), if_neg (by simp [hclean])]
    unfold solo
    rw [alone_bind (solo_checkAuthority (k := k) hf hj)]
    simp only [hadmitted, hterm, Bool.false_eq_true, if_false]
    unfold persist
    rw [alone_bind hnow, alone_bind hwrite]
    rfl
  · rw [← hid]
    exact lookup_putRecord _ k j.epoch { next with updatedAt := ch.time }

/-- Without faults, a readable record whose lock is free is acquired and resumed. -/
theorem solo_acquire (hf : ch.fault = .none) (hj : Current j w) {id : String} {r : Record}
    (hr : Readable j w id r) (hfree : w.locks (.record id) = none) :
    solo k ch (acquire j id).run w =
      some (.ok (Handle.resume r), w.setLock (.record id) (some k)) := by
  have hid : refuse (!allocationIDPattern id) invalidID = .ok () := by
    rw [refuse_eq_ok, ← hr.id_eq, allocationID_of_valid hr.valid]
    rfl
  have hlock : solo k ch (lockFile (.record id)) w =
      some (true, w.setLock (.record id) (some k)) := by
    simp only [solo, alone, lockFile, Lib.Interleave.Prog.perform, exec, orFail, hf, hfree, if_true]
    rfl
  have hr' : Readable j (w.setLock (.record id) (some k)) id r :=
    ⟨hr.lookup, hr.id_eq, hr.namespace_eq, hr.valid, hr.decodable⟩
  have hbody : solo k ch (do checkAuthority j
                             let r ← inspect j id
                             pure (Handle.resume r) : M Handle).run
      (w.setLock (.record id) (some k)) =
      some (.ok (Handle.resume r), w.setLock (.record id) (some k)) := by
    have hj' : Current j (w.setLock (.record id) (some k)) := hj
    rw [solo_bind (solo_checkAuthority hf hj'), solo_bind (solo_inspect hf hr')]
    rfl
  have hwait : solo k ch (waitLock (.record id)).run w =
      some (.ok (), w.setLock (.record id) (some k)) := by
    unfold waitLock
    rw [solo_bind (solo_act hlock), solo_check]
    rfl
  unfold acquire
  rw [solo_bind (x := ()) (by rw [solo_check, hid]), solo_bind hwait]
  unfold unlockOnError
  rw [solo_bind (solo_act hbody)]
  rfl

end Saving

/-- The replacement appends exactly `v` and is deleted; nothing else changes, except that steps
of the active attempt become observed when only artifacts were left. -/
structure Disposes (r next : Record) (v : Verification) : Prop where
  state : next.state = .deleted
  verifications : next.verifications = r.verifications ++ [v]
  rest : { next with state := r.state, verifications := r.verifications, steps := r.steps } = r
  steps : r.state ≠ .vmDeletedRetained → next.steps = r.steps
  settled : next.steps.length = r.steps.length ∧
    ∀ (i : Nat) (s s' : Step), r.steps[i]? = some s → next.steps[i]? = some s' →
      s' = s ∨ s.attempt = r.activeAttempt ∧ s' = { s with state := .observed }

/-- The disposed record of `Disposal` is a replacement as the result asks for it. -/
theorem disposes_disposed (r : Record) (v : Verification) : Disposes r (disposed r v) v where
  state := rfl
  verifications := rfl
  rest := rfl
  steps := fun hr => if_neg hr
  settled := by
    rw [disposed_steps]
    unfold disposedSteps
    split
    · refine ⟨List.length_map _, ?_⟩
      intro i s s' hs hs'
      rw [List.getElem?_map, hs] at hs'
      obtain rfl : settleStep r s = s' := Option.some.inj hs'
      unfold settleStep
      split
      · rename_i hact
        exact Or.inr ⟨hact, rfl⟩
      · exact Or.inl rfl
    · refine ⟨rfl, ?_⟩
      intro i s s' hs hs'
      exact Or.inl (Option.some.inj (hs'.symm.trans hs))

/-- Every plan that came with a stamp so far is readable. -/
def PlansTidy (w : World) : Prop :=
  ∀ p ∈ w.stamps, match p.2 with
    | .create intent => planReadable intent.plan = true
    | .save next => PlansReadable next

/-- With a clock that never steps backwards, readable plans are all it takes. -/
theorem tidy_of_plans {w : World} (hw : Inv w) (hm : MonoClock w) (hp : PlansTidy w) : Tidy w := by
  rintro ⟨t, s⟩ hmem
  have hplan := hp _ hmem
  cases s with
  | create intent => exact hplan
  | save next => exact ⟨hw.stamps hm t next hmem, hplan⟩

/-- The disposal of a valid record is accepted on any handle that holds it. -/
theorem accepted_disposed {k : Nat} {ch : Choice} {j : Authority} {w : World} {h : Handle}
    {v : Verification} (hf : ch.fault = .none) (hj : Current j w) (hopen : h.closed = false)
    (hclean : h.poisoned = false) (hv : validateRecord h.record = .ok ())
    (hd : h.record.decodable = true) (hterm : terminal h.record.state = false)
    (he : AbsenceEvidence h.record v) : Accepted k ch j h (disposed h.record v) w :=
  accepted_of_admitted hf hj hopen hclean (admitSave_disposed _ hv hterm he) hterm rfl hd

/-- **No dead end.**  In a run with a clock that never steps backwards and with readable plans,
fresh evidence of absence ends every allocation: the same replacement is accepted on a fresh handle
and on a resumed one, which `Acquire` returns while nobody holds the record, and also on every
handle that a process of the run holds.  With the conditions every record on disk is valid, and of a
valid record the disposal is always admitted (`admitSave_disposed`); a handle of the run that is not
poisoned holds what is on disk. -/
theorem disposal_accepted (h : Run a c) (hm : MonoClock c.shared) (hp : PlansTidy c.shared)
    {j : Authority} (hj : Current j c.shared) (ch : Choice) (hf : ch.fault = .none) (k : Nat) :
    (∀ id r v, c.shared.records.lookup id = some r → terminal r.state = false →
      AbsenceEvidence r v → ∃ next, Disposes r next v ∧
        Accepted k ch j { record := r } next c.shared ∧
        Accepted k ch j (Handle.resume r) next c.shared ∧
        (c.shared.locks (.record id) = none → ∃ w',
          solo k ch (acquire j id).run c.shared = some (.ok (Handle.resume r), w') ∧
          Accepted k ch j (Handle.resume r) next w')) ∧
    ∀ i l hd v, c.actor i = .idle l → l.handle = some hd → hd.closed = false →
      hd.poisoned = false → terminal hd.record.state = false → AbsenceEvidence hd.record v →
      ∃ next, Disposes hd.record next v ∧ Accepted i ch j hd next c.shared := by
  have ht := tidy_of_plans h.inv hm hp
  have hns : j.namespace = c.shared.authority.namespace := by rw [hj.eq]
  constructor
  · intro id r v hr hterm hev
    have hread := h.readable ht hns hr
    have hd : r.decodable = true := hread.decodable
    refine ⟨disposed r v, disposes_disposed r v, ?_, ?_, ?_⟩
    · exact accepted_disposed (h := { record := r }) hf hj rfl rfl hread.valid hd hterm hev
    · exact accepted_disposed (h := Handle.resume r) hf hj rfl rfl hread.valid hd hterm hev
    · intro hfree
      refine ⟨_, solo_acquire hf hj hread hfree, ?_⟩
      exact accepted_disposed (h := Handle.resume r) hf
        (w := c.shared.setLock (.record id) (some k)) hj rfl rfl hread.valid hd hterm hev
  · intro i l hd v hl hh hopen hclean hterm hev
    have hok := (h.loc hl).handle hd hh hopen
    have hdisk := h.inv.record _ _ (hok.disk hclean)
    have hdepth : hd.record.decodable = true := by
      rw [← stored_decodable]
      exact hdisk.decodable
    exact ⟨_, disposes_disposed hd.record v, accepted_disposed hf hj hopen hclean (hok.valid ht)
      hdepth hterm hev⟩

/-- Evidence of absence for the sample. -/
def sampleEvidence : Verification :=
  { evidenceID := "44136fa355b3678a1146ad16f7e8649e94fb4fc21fe77e8310c060f61caaff8a",
    evidenceJSON := "{}", complete := true, absenceVerified := true,
    artifactDispositionVerified := true }

theorem disposal_accepted_sample : ∃ c : Config journalSys, Run sampleAuthority c ∧
    MonoClock c.shared ∧ PlansTidy c.shared ∧ Current sampleAuthority c.shared ∧
    AbsenceEvidence sampleLost sampleEvidence ∧
    ∃ next, Disposes sampleLost next sampleEvidence ∧
      Accepted 1 { time := 9 } sampleAuthority (Handle.resume sampleLost) next c.shared := by
  obtain ⟨c₁, _, hs⟩ := lost_run
  obtain ⟨hrun, hl, ht, hm, hauth⟩ := hs.lost
  have hplans : PlansTidy c₁.shared := by
    rintro ⟨t, s⟩ hmem
    have hs := ht _ hmem
    cases s with
    | create intent => exact hs
    | save next => exact hs.2
  have hj : Current sampleAuthority c₁.shared := by
    unfold Current
    rw [hauth]
    decide +kernel
  have hev : AbsenceEvidence sampleLost sampleEvidence := by
    refine ⟨by decide +kernel, rfl, rfl, by decide, ?_⟩
    intro w hw
    cases hw
  obtain ⟨next, hd, _, hacc, _⟩ := (disposal_accepted hrun hm hplans hj { time := 9 } rfl 1).1
    nextID sampleLost sampleEvidence hl rfl hev
  exact ⟨c₁, hrun, hm, hplans, hj, hev, next, hd, hacc⟩

/-- Acquire with a plan that is `null` with a space in front. -/
def sampleNull : List (Act journalSys) :=
  oneCall 0 (.open "director" "cluster") 1 5 "" ++
    oneCall 0 (.acquireVM "agent" (sampleIntent " null") 0) 11 5 sampleID

/-- The record is on disk with its plan compacted. -/
theorem null_evaluated :
    ((runActs sampleNull (.initial (enrolled sampleAuthority))).any fun c =>
      decide (MonoClock c.shared) &&
        holdsRecord sampleID (sampleRecord (sampleIntent "null")) c) = true := by
  decide +kernel

/-- **A padded `null` leaves a dead end**: the record is on disk and not terminal, but no
replacement of it is ever admitted on a handle that holds what is on disk.  The reader refuses the
plan `null`, and so does the writer of every replacement, since a replacement has the plan of the
record. -/
theorem null_plan_dead_end : ∃ (c : Config journalSys) (r : Record), Run sampleAuthority c ∧
    MonoClock c.shared ∧ c.shared.records.lookup sampleID = some r ∧ terminal r.state = false ∧
    ∀ gated next, admitSave r gated false next ≠ .ok () := by
  obtain ⟨c, hrun, hc⟩ := exists_of_runActs null_evaluated
  rw [Bool.and_eq_true, decide_eq_true_eq] at hc
  refine ⟨c, _, hrun, hc.1, lookup_of_holdsRecord hc.2, rfl, ?_⟩
  intro gated next hadmitted
  have hu := admitSave_save hadmitted
  -- The intent cannot be changed, and it is not valid.
  have hintent : next.intent = sampleIntent "null" := hu.history.intent
  have hvalid := hu.valid
  unfold validateRecord validateIntent at hvalid
  simp only [check_bind_eq_ok, refuse_eq_ok, Bool.or_eq_false_iff, beq_eq_false_iff_ne, hintent]
    at hvalid
  exact hvalid.2.1.2.2 rfl

end Journal
