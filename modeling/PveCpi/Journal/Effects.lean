/-
# Every effect keeps the invariant and stays inside the guarantee

One pair of lemmas for each effect that changes the state: what must hold before it, that `Inv`
holds after it, and that the change is one `Guar` allows.  The programs are then read through
these rules only.

The invariant has many clauses and an effect touches few fields, so the work is ordered by what an
effect leaves alone.  `SameFiles` collects the effects that touch no file: for these every clause
about files is inherited at once, and only the planning and the call clause are looked at.  The
durable writes come last, records after index and authority, with `Writable` as what a process must
know of the record that it writes.

The two lemmas of a pair are kept apart because they are used apart: `wp` asks for both at once, but
the proof of the second never looks inside the invariant.
-/
import PveCpi.Journal.Protocol

namespace Journal

/-! ## 1. Changes that touch no file

Locks, clock readings, identifiers and marks. -/

/-- The files, the clock and the log are the same, and identifiers were at most added. -/
structure SameFiles (w w' : World) : Prop where
  authority : w'.authority = w.authority
  index : w'.index = w.index
  records : w'.records = w.records
  clock : w'.clock = w.clock
  stamps : w'.stamps = w.stamps
  log : w'.log = w.log
  issued : ∀ e ∈ w.issued, e ∈ w'.issued

theorem SameFiles.epochs {w w' : World} (h : SameFiles w w') : w'.epochs = w.epochs := by
  unfold World.epochs
  rw [h.authority, h.log]

theorem SameFiles.tidy {w w' : World} (h : SameFiles w w') : Tidy w' ↔ Tidy w := by
  unfold Tidy
  rw [h.stamps]

theorem SameFiles.recordOk {w w' : World} (h : SameFiles w w') {id : String} {r : Record}
    (hr : RecordOk w id r) : RecordOk w' id r where
  id_eq := hr.id_eq
  namespace_eq := by rw [h.authority]; exact hr.namespace_eq
  written := hr.written
  retry := hr.retry
  created := by rw [h.clock]; exact hr.created
  readable := fun ht => hr.readable (h.tidy.mp ht)
  decodable := hr.decodable

/-- An effect that writes no file keeps the invariant when it keeps what the invariant says of the
calls under way. -/
theorem SameFiles.inv {w w' : World} (h : SameFiles w w') (hw : Inv w)
    (hplan : ∀ i p, w'.planning i = some p → PlanningOk w' i p)
    (hcall : ∀ i, (w'.call i).plans ≤ 1 ∧ ((w'.call i).rejected = true →
      (w'.call i).wrote = false)) : Inv w' where
  record := by
    intro id r hr
    rw [h.records] at hr
    exact h.recordOk (hw.record id r hr)
  generation := by
    intro id r hr hk ho
    rw [h.records] at hr
    rw [h.index]
    exact hw.generation id r hr hk ho
  stamps := by
    intro hm
    unfold MonoClock at hm
    rw [h.clock] at hm
    rw [h.stamps]
    exact hw.stamps hm
  planning := hplan
  call := hcall
  fenced := by rw [h.authority, h.log]; exact hw.fenced
  issued := by
    intro e he
    rw [h.epochs] at he
    exact h.issued e (hw.issued e he)

/-- An effect that writes no file keeps the guarantee when it leaves the locks and the calls of the
others alone. -/
theorem SameFiles.guar {i : Nat} {w w' : World} (h : SameFiles w w')
    (hlocks : ∀ n j, j ≠ i → w.locks n = some j → w'.locks n = some j)
    (hplan : ∀ j, j ≠ i → w'.planning j = w.planning j)
    (hcall : ∀ j, j ≠ i → w'.call j = w.call j) : Guar i w w' where
  locks := hlocks
  index := fun _ => h.index
  created := by
    intro id r hn hs
    rw [h.records, hn] at hs
    cases hs
  kept := by
    intro id r hr
    exact ⟨r, by rw [h.records]; exact hr, Or.inl rfl⟩
  authority := Or.inl h.authority
  namespace_eq := by rw [h.authority]
  epochs := by
    intro e he
    rw [h.epochs] at he
    exact Or.inl he
  past := by
    intro e he
    rw [h.epochs]
    exact he
  log := Or.inl ⟨h.log, by rw [h.authority]⟩
  planning := hplan
  call := hcall
  clock := by rw [h.clock]; exact fun _ hx => hx
  stamps := by rw [h.stamps]; exact fun _ hx => hx
  issued := h.issued

theorem Guar.refl (i : Nat) (w : World) : Guar i w w :=
  SameFiles.guar ⟨rfl, rfl, rfl, rfl, rfl, rfl, fun _ h => h⟩ (fun _ _ _ h => h)
    (fun _ _ => rfl) (fun _ _ => rfl)

/-- The planning clause of a state with the same records. -/
theorem PlanningOk.of_same {w w' : World} {i : Nat} {p : Planning} (h : PlanningOk w i p)
    (hr : w'.records = w.records) (hl : w'.locks .index = some i) : PlanningOk w' i p where
  lock := hl
  siblings := by
    intro id r hid
    rw [hr] at hid
    obtain ⟨s, hs, hl⟩ := h.siblings id r hid
    exact ⟨s, hs, hl.id_eq, hl.bounded, by rw [hr]; exact hl.history⟩
  closed := by rw [hr]; exact h.closed

/-! ## 2. Locks -/

theorem sameFiles_setLock (w : World) (n : LockName) (o : Option Nat) :
    SameFiles w (w.setLock n o) := ⟨rfl, rfl, rfl, rfl, rfl, rfl, fun _ h => h⟩

theorem inv_take {i : Nat} {w : World} {n : LockName} (hw : Inv w) (hn : w.locks n = none) :
    Inv (w.setLock n (some i)) := by
  refine (sameFiles_setLock w n (some i)).inv hw ?_ hw.call
  intro k p hp
  have hk := hw.planning k p hp
  refine hk.of_same rfl ?_
  have hne : LockName.index ≠ n := by
    rintro rfl
    rw [hk.lock] at hn
    cases hn
  simp only [World.setLock, if_neg hne]
  exact hk.lock

theorem guar_take {i : Nat} {w : World} {n : LockName} (hn : w.locks n = none) :
    Guar i w (w.setLock n (some i)) := by
  refine (sameFiles_setLock w n (some i)).guar ?_ (fun _ _ => rfl) (fun _ _ => rfl)
  intro m j _ hm
  have hne : m ≠ n := by
    rintro rfl
    rw [hn] at hm
    cases hm
  simp only [World.setLock, if_neg hne]
  exact hm

/-- The state after process `i` closed a lock file. -/
def World.released (w : World) (n : LockName) (i : Nat) : World :=
  if w.locks n = some i then w.setLock n none else w

theorem sameFiles_released (w : World) (n : LockName) (i : Nat) :
    SameFiles w (w.released n i) := by
  unfold World.released
  split
  · exact sameFiles_setLock w n none
  · exact ⟨rfl, rfl, rfl, rfl, rfl, rfl, fun _ h => h⟩

theorem released_planning (w : World) (n : LockName) (i : Nat) :
    (w.released n i).planning = w.planning := by
  unfold World.released
  split <;> rfl

theorem released_call (w : World) (n : LockName) (i : Nat) :
    (w.released n i).call = w.call := by
  unfold World.released
  split <;> rfl

/-- Releasing a lock leaves the locks of other names and of other processes. -/
theorem released_locks_ne {w : World} {n m : LockName} {i : Nat} (h : m ≠ n) :
    (w.released n i).locks m = w.locks m := by
  unfold World.released
  split
  · simp only [World.setLock, if_neg h]
  · rfl

theorem released_locks_other {w : World} {n m : LockName} {i j : Nat} (hj : j ≠ i)
    (h : w.locks m = some j) : (w.released n i).locks m = some j := by
  unfold World.released
  split
  · rename_i hn
    have hne : m ≠ n := by
      rintro rfl
      rw [h] at hn
      exact hj (Option.some.inj hn)
    simp only [World.setLock, if_neg hne]
    exact h
  · exact h

theorem inv_released {i : Nat} {w : World} {n : LockName} (hw : Inv w)
    (hp : w.planning i = none) : Inv (w.released n i) := by
  refine (sameFiles_released w n i).inv hw ?_ (by rw [released_call]; exact hw.call)
  intro k p hk
  rw [released_planning] at hk
  have hok := hw.planning k p hk
  have hne : k ≠ i := by
    rintro rfl
    rw [hp] at hk
    cases hk
  exact hok.of_same (sameFiles_released w n i).records (released_locks_other hne hok.lock)

theorem guar_released {i : Nat} {w : World} {n : LockName} : Guar i w (w.released n i) := by
  refine (sameFiles_released w n i).guar ?_ ?_ ?_
  · intro m j hj hm
    exact released_locks_other hj hm
  · intro j _
    rw [released_planning]
  · intro j _
    rw [released_call]

/-! ## 3. The clock, identifiers and the marks of a call -/

/-- The state after a clock reading. -/
def World.stamped (w : World) (t : Time) (s : Stamp) : World :=
  { w with clock := t :: w.clock, stamps := (t, s) :: w.stamps }

theorem guar_stamped {i : Nat} {w : World} (t : Time) (s : Stamp) :
    Guar i w (w.stamped t s) :=
  { Guar.refl i w with
    clock := fun _ hx => List.mem_cons_of_mem _ hx
    stamps := fun _ hx => List.mem_cons_of_mem _ hx }

theorem tidy_of_stamped {w : World} {t : Time} {s : Stamp} (h : Tidy (w.stamped t s)) : Tidy w :=
  fun p hp => h p (List.mem_cons_of_mem _ hp)

/-- Reading the clock.  The reading is added to the times a record may carry, so every record stays
within them. -/
theorem inv_stamped {w : World} {t : Time} {s : Stamp} (hw : Inv w)
    (hs : ∀ next, s = .save next → next.createdAt ∈ w.clock) : Inv (w.stamped t s) :=
  { hw with
    record := by
      intro id r hr
      have h := hw.record id r hr
      exact {
        id_eq := h.id_eq
        namespace_eq := h.namespace_eq
        written := h.written
        retry := h.retry
        created := List.mem_cons_of_mem _ h.created
        readable := fun ht => h.readable (tidy_of_stamped ht)
        decodable := h.decodable }
    stamps := by
      intro hm t' next hmem
      obtain ⟨hlast, hrest⟩ := List.pairwise_cons.mp hm
      rcases List.mem_cons.mp hmem with heq | hmem
      · obtain ⟨rfl, rfl⟩ := Prod.mk.inj heq
        exact hlast _ (hs next rfl)
      · exact hw.stamps hrest t' next hmem
    planning := fun i p hp => (hw.planning i p hp).of_same rfl (hw.planning i p hp).lock }

/-- The state after an identifier was handed out. -/
def World.withID (w : World) (id : String) : World := { w with issued := id :: w.issued }

theorem sameFiles_withID (w : World) (id : String) : SameFiles w (w.withID id) :=
  ⟨rfl, rfl, rfl, rfl, rfl, rfl, fun _ h => List.mem_cons_of_mem _ h⟩

theorem inv_withID {w : World} {id : String} (hw : Inv w) : Inv (w.withID id) :=
  (sameFiles_withID w id).inv hw
    (fun i p hp => (hw.planning i p hp).of_same rfl (hw.planning i p hp).lock) hw.call

theorem guar_withID {i : Nat} {w : World} {id : String} : Guar i w (w.withID id) :=
  (sameFiles_withID w id).guar (fun _ _ _ h => h) (fun _ _ => rfl) (fun _ _ => rfl)

/-- The state after a planning callback was started. -/
def World.planStarted (w : World) (i : Nat) (p : Planning) : World :=
  (w.setPlanning i (some p)).setCall i { w.call i with plans := (w.call i).plans + 1 }

/-- A planning call begins: the only thing that changes is what is known of this call. -/
theorem inv_planStarted {i : Nat} {w : World} {p : Planning} (hw : Inv w)
    (hp : PlanningOk w i p) (hc : w.call i = {}) : Inv (w.planStarted i p) := by
  refine SameFiles.inv (w := w) ⟨rfl, rfl, rfl, rfl, rfl, rfl, fun _ h => h⟩ hw ?_ ?_
  · intro k q hk
    by_cases hki : k = i
    · subst hki
      have : p = q := by simpa [World.planStarted, World.setPlanning, World.setCall] using hk
      subst this
      exact hp.of_same rfl hp.lock
    · have hk' : w.planning k = some q := by
        simpa [World.planStarted, World.setPlanning, World.setCall, hki] using hk
      exact (hw.planning k q hk').of_same rfl (hw.planning k q hk').lock
  · intro k
    by_cases hki : k = i
    · subst hki
      simp [World.planStarted, World.setCall, hc]
    · simpa [World.planStarted, World.setPlanning, World.setCall, hki] using hw.call k

theorem guar_planStarted {i : Nat} {w : World} {p : Planning} :
    Guar i w (w.planStarted i p) := by
  refine SameFiles.guar ⟨rfl, rfl, rfl, rfl, rfl, rfl, fun _ h => h⟩ (fun _ _ _ h => h) ?_ ?_
  · intro j hj
    simp [World.planStarted, World.setPlanning, World.setCall, hj]
  · intro j hj
    simp [World.planStarted, World.setPlanning, World.setCall, hj]

theorem inv_planEnded {i : Nat} {w : World} (hw : Inv w) : Inv (w.setPlanning i none) := by
  refine SameFiles.inv (w := w) ⟨rfl, rfl, rfl, rfl, rfl, rfl, fun _ h => h⟩ hw ?_ hw.call
  intro k q hk
  by_cases hki : k = i
  · simp [World.setPlanning, hki] at hk
  · have hk' : w.planning k = some q := by simpa [World.setPlanning, hki] using hk
    exact (hw.planning k q hk').of_same rfl (hw.planning k q hk').lock

theorem guar_planEnded {i : Nat} {w : World} : Guar i w (w.setPlanning i none) := by
  refine SameFiles.guar ⟨rfl, rfl, rfl, rfl, rfl, rfl, fun _ h => h⟩ (fun _ _ _ h => h) ?_
    (fun _ _ => rfl)
  intro j hj
  simp [World.setPlanning, hj]

theorem inv_setCall {i : Nat} {w : World} {c : Call} (hw : Inv w)
    (hc : c.plans ≤ 1 ∧ (c.rejected = true → c.wrote = false)) : Inv (w.setCall i c) := by
  refine SameFiles.inv (w := w) ⟨rfl, rfl, rfl, rfl, rfl, rfl, fun _ h => h⟩ hw ?_ ?_
  · intro k p hp
    exact (hw.planning k p hp).of_same rfl (hw.planning k p hp).lock
  · intro k
    by_cases hki : k = i
    · subst hki
      simpa [World.setCall] using hc
    · simpa [World.setCall, hki] using hw.call k

theorem guar_setCall {i : Nat} {w : World} {c : Call} : Guar i w (w.setCall i c) := by
  refine SameFiles.guar ⟨rfl, rfl, rfl, rfl, rfl, rfl, fun _ h => h⟩ (fun _ _ _ h => h)
    (fun _ _ => rfl) ?_
  intro j hj
  simp [World.setCall, hj]

/-- A crash releases the locks of the process and ends its call.  What it had on disk stays, and so
does the history. -/
theorem inv_halt {i : Nat} {w : World} (hw : Inv w) : Inv (halt i w) := by
  refine SameFiles.inv (w := w) ⟨rfl, rfl, rfl, rfl, rfl, rfl, fun _ h => h⟩ hw ?_ ?_
  · intro k p hk
    by_cases hki : k = i
    · simp [halt, World.setPlanning, World.setCall, hki] at hk
    · have hk' : w.planning k = some p := by
        simpa [halt, World.setPlanning, World.setCall, hki] using hk
      have hok := hw.planning k p hk'
      refine hok.of_same rfl ?_
      have hne : w.locks .index ≠ some i := by
        rw [hok.lock]
        intro he
        exact hki (Option.some.inj he)
      simp only [halt, if_neg hne]
      exact hok.lock
  · intro k
    by_cases hki : k = i
    · simp [halt, World.setCall, hki]
    · simpa [halt, World.setPlanning, World.setCall, hki] using hw.call k

theorem guar_halt {i : Nat} {w : World} : Guar i w (halt i w) := by
  refine SameFiles.guar ⟨rfl, rfl, rfl, rfl, rfl, rfl, fun _ h => h⟩ ?_ ?_ ?_
  · intro n j hj hn
    have hne : w.locks n ≠ some i := by
      rw [hn]
      intro he
      exact hj (Option.some.inj he)
    simp only [halt, if_neg hne]
    exact hn
  · intro j hj
    simp [halt, World.setPlanning, World.setCall, hj]
  · intro j hj
    simp [halt, World.setPlanning, World.setCall, hj]

/-! ## 4. Durable writes

Each write appends to the log, so each has to show that the log is still fenced; the epoch on disk
at that moment is known because the authority was checked under a lock that pins it. -/

/-- The call clause after a durable write of a call that had nothing rejected. -/
theorem call_landed {i : Nat} {w : World} (journal : String) (file : File) (hw : Inv w)
    (hc : (w.call i).rejected = false) (k : Nat) :
    ((w.landed i journal file).call k).plans ≤ 1 ∧
      (((w.landed i journal file).call k).rejected = true →
        ((w.landed i journal file).call k).wrote = false) := by
  by_cases hki : k = i
  · subst hki
    simp only [World.landed, if_true]
    exact ⟨(hw.call k).1, fun h => by rw [hc] at h; cases h⟩
  · simpa [World.landed, hki] using hw.call k

/-- A write through a Journal of the epoch in force keeps the log fenced. -/
theorem fenced_landed {w : World} {i : Nat} {journal : String} {file : File} (hw : Inv w)
    (he : w.authority.epoch = journal) (hf : ∀ e, file ≠ .authority e) :
    Fenced w.authority.epoch (⟨i, journal, w.authority.epoch, file⟩ :: w.log) := by
  refine ⟨he.symm, ?_, hw.fenced⟩
  cases file with
  | record id => rfl
  | index => rfl
  | authority e => exact absurd rfl (hf e)

/-- The index is written.  That it names every open generation is the writer's proof, and the rest
of the invariant does not look at it. -/
theorem inv_putIndex {i : Nat} {w : World} {journal : String} {idx : Index} (hw : Inv w)
    (hc : (w.call i).rejected = false) (he : w.authority.epoch = journal)
    (hgen : ∀ id r, w.records.lookup id = some r → r.kind = .vm →
      generationClosed r.state = false → idx.activeVMs.lookup (pathKey r.agentID) = some id) :
    Inv (w.putIndex i journal idx) where
  record := by
    intro id r hr
    have h := hw.record id r hr
    exact ⟨h.id_eq, h.namespace_eq, h.written, h.retry, h.created, h.readable, h.decodable⟩
  generation := hgen
  stamps := hw.stamps
  planning := fun k p hp => (hw.planning k p hp).of_same rfl (hw.planning k p hp).lock
  call := call_landed journal .index hw hc
  fenced := fenced_landed hw he (by intro e h; cases h)
  issued := by
    intro e hmem
    simp only [World.epochs, World.putIndex, World.landed, List.map_cons, List.mem_cons] at hmem
    refine hw.issued e ?_
    simp only [World.epochs, List.mem_cons]
    tauto

theorem guar_putIndex {i : Nat} {w : World} {journal : String} {idx : Index}
    (hl : w.locks .index = some i) : Guar i w (w.putIndex i journal idx) :=
  { Guar.refl i w with
    index := fun hn => absurd hl hn
    epochs := fun _ _ => Or.inr hl
    past := by
      intro e he
      simp only [World.epochs, World.putIndex, World.landed, List.map_cons, List.mem_cons] at he ⊢
      tauto
    log := Or.inr ⟨_, rfl, rfl⟩
    call := fun j hj => by simp [World.putIndex, World.landed, hj] }

/-- A new epoch is written.  It was issued and never used before, so the epochs of the past stay
apart; the namespace is the old one, so the records stay valid in it. -/
theorem inv_putAuthority {i : Nat} {w : World} {journal : String} {a : Authority} (hw : Inv w)
    (hc : (w.call i).rejected = false) (he : w.authority.epoch = journal)
    (hns : a.namespace = w.authority.namespace) (hnew : a.epoch ∉ w.epochs)
    (hissued : a.epoch ∈ w.issued) : Inv (w.putAuthority i journal a) where
  record := by
    intro id r hr
    have h := hw.record id r hr
    exact ⟨h.id_eq, h.namespace_eq.trans hns.symm, h.written, h.retry, h.created, h.readable,
      h.decodable⟩
  generation := hw.generation
  stamps := hw.stamps
  planning := fun k p hp => (hw.planning k p hp).of_same rfl (hw.planning k p hp).lock
  call := call_landed journal (.authority a.epoch) hw hc
  fenced := ⟨he.symm, ⟨rfl, hnew⟩, hw.fenced⟩
  issued := by
    intro e hmem
    simp only [World.epochs, World.putAuthority, World.landed, List.map_cons, List.mem_cons]
      at hmem
    rcases hmem with rfl | hmem
    · exact hissued
    · refine hw.issued e ?_
      simpa only [World.epochs, List.mem_cons] using hmem

/-- The process that changes the epoch holds the index and every record, so nobody else relies on
the epoch at that moment. -/
theorem guar_putAuthority {i : Nat} {w : World} {journal : String} {a : Authority}
    (hl : w.locks .index = some i) (hns : a.namespace = w.authority.namespace)
    (hall : ∀ id r, w.records.lookup id = some r → w.locks (.record id) = some i) :
    Guar i w (w.putAuthority i journal a) :=
  { Guar.refl i w with
    authority := Or.inr ⟨hl, hall⟩
    namespace_eq := hns
    epochs := fun _ _ => Or.inr hl
    past := by
      intro e he
      simp only [World.epochs, World.putAuthority, World.landed, List.map_cons, List.mem_cons]
        at he ⊢
      exact Or.inr he
    log := Or.inr ⟨_, rfl, rfl⟩
    call := fun j hj => by simp [World.putAuthority, World.landed, hj] }

/-! ### Records -/

theorem lookup_putRecord (w : World) (i : Nat) (journal : String) (r : Record) :
    (w.putRecord i journal r).records.lookup r.id = some r.stored :=
  AList.lookup_insert w.records

theorem lookup_putRecord_ne {w : World} {i : Nat} {journal : String} {r : Record} {id : String}
    (h : id ≠ r.id) :
    (w.putRecord i journal r).records.lookup id = w.records.lookup id :=
  AList.lookup_insert_ne h

/-- What a process must know of the record it writes. -/
structure Writable (w : World) (r : Record) : Prop where
  namespace_eq : r.namespace = w.authority.namespace
  written : ∃ (m : Record) (t : Time), validateRecord m = .ok () ∧ r = { m with updatedAt := t }
  retry : RetrySafe r
  created : r.createdAt ∈ w.clock
  readable : Tidy w → r.createdAt ≤ r.updatedAt ∧ PlansReadable r

/-- What may be written is, as it is stored, a record of the invariant. -/
theorem Writable.recordOk {w : World} {r : Record} (h : Writable w r)
    (hd : r.decodable = true) : RecordOk w r.id r.stored where
  id_eq := rfl
  namespace_eq := h.namespace_eq
  written := by
    obtain ⟨m, t, hm, rfl⟩ := h.written
    exact ⟨m, t, hm, rfl⟩
  retry := h.retry.stored
  created := h.created
  readable := by
    intro ht
    obtain ⟨hle, hplans⟩ := h.readable ht
    obtain ⟨m, t, hm, rfl⟩ := h.written
    exact validateRecord_readback hm hle hplans
  decodable := by rw [stored_decodable, hd]

/-- What may be written may be written later. -/
theorem Writable.guar {i : Nat} {w w' : World} {r : Record} (h : Writable w r)
    (hg : Guar i w w') : Writable w' r where
  namespace_eq := h.namespace_eq.trans hg.namespace_eq.symm
  written := h.written
  retry := h.retry
  created := hg.clock _ h.created
  readable := fun ht => h.readable (hg.tidy ht)

/-- The common part of writing a record: everything but the index and the callbacks. -/
theorem inv_putRecord {i : Nat} {w : World} {journal : String} {r : Record} (hw : Inv w)
    (hc : (w.call i).rejected = false) (he : w.authority.epoch = journal) (hr : Writable w r)
    (hd : r.decodable = true)
    (hgen : r.kind = .vm → generationClosed r.state = false →
      w.index.activeVMs.lookup (pathKey r.agentID) = some r.id)
    (hplan : ∀ k p, w.planning k = some p → PlanningOk (w.putRecord i journal r) k p) :
    Inv (w.putRecord i journal r) where
  record := by
    intro id r' hr'
    by_cases hid : id = r.id
    · subst hid
      rw [lookup_putRecord] at hr'
      have : r.stored = r' := Option.some.inj hr'
      subst this
      have h := hr.recordOk hd
      exact ⟨h.id_eq, h.namespace_eq, h.written, h.retry, h.created, h.readable, h.decodable⟩
    · rw [lookup_putRecord_ne hid] at hr'
      have h := hw.record id r' hr'
      exact ⟨h.id_eq, h.namespace_eq, h.written, h.retry, h.created, h.readable, h.decodable⟩
  generation := by
    intro id r' hr' hk ho
    by_cases hid : id = r.id
    · subst hid
      rw [lookup_putRecord] at hr'
      have : r.stored = r' := Option.some.inj hr'
      subst this
      exact hgen hk ho
    · rw [lookup_putRecord_ne hid] at hr'
      exact hw.generation id r' hr' hk ho
  stamps := hw.stamps
  planning := hplan
  call := call_landed journal (.record r.id) hw hc
  fenced := fenced_landed hw he (by intro e h; cases h)
  issued := by
    intro e hmem
    simp only [World.epochs, World.putRecord, World.landed, List.map_cons, List.mem_cons] at hmem
    refine hw.issued e ?_
    simp only [World.epochs, List.mem_cons]
    tauto

/-- A record that was not there is created under the index lock. -/
theorem inv_createRecord {i : Nat} {w : World} {journal : String} {r : Record} (hw : Inv w)
    (hl : w.locks .index = some i) (hp : w.planning i = none)
    (hc : (w.call i).rejected = false) (he : w.authority.epoch = journal) (hr : Writable w r)
    (hd : r.decodable = true)
    (hgen : r.kind = .vm → generationClosed r.state = false →
      w.index.activeVMs.lookup (pathKey r.agentID) = some r.id) :
    Inv (w.putRecord i journal r) := by
  refine inv_putRecord hw hc he hr hd hgen ?_
  intro k p hk
  -- Nobody else can be planning: a callback runs under the index lock.
  have hlock := (hw.planning k p hk).lock
  rw [hl] at hlock
  have hki : i = k := Option.some.inj hlock
  rw [← hki, hp] at hk
  cases hk

theorem mem_epochs_putRecord {w : World} {i : Nat} {journal : String} {r : Record} {e : String} :
    e ∈ (w.putRecord i journal r).epochs ↔ e ∈ w.epochs := by
  simp only [World.epochs, World.putRecord, World.landed, List.map_cons, List.mem_cons]
  tauto

/-- A record is created under the index lock, and not by a process that is planning. -/
theorem guar_createRecord {i : Nat} {w : World} {journal : String} {r : Record}
    (hl : w.locks .index = some i) (hp : w.planning i = none)
    (hn : w.records.lookup r.id = none) (ha : r.attempts.length ≤ 1) :
    Guar i w (w.putRecord i journal r) :=
  { Guar.refl i w with
    created := by
      intro id r' hnone hr'
      refine ⟨hl, hp, ?_⟩
      by_cases hid : id = r.id
      · subst hid
        rw [lookup_putRecord] at hr'
        have heq : r.stored = r' := Option.some.inj hr'
        rw [← heq, stored_attempts, List.length_map]
        exact ha
      · rw [lookup_putRecord_ne hid, hnone] at hr'
        cases hr'
    kept := by
      intro id r' hr'
      have hne : id ≠ r.id := by
        rintro rfl
        rw [hn] at hr'
        cases hr'
      exact ⟨r', by rw [lookup_putRecord_ne hne]; exact hr', Or.inl rfl⟩
    epochs := fun e he => Or.inl (mem_epochs_putRecord.mp he)
    past := fun e he => mem_epochs_putRecord.mpr he
    log := Or.inr ⟨_, rfl, rfl⟩
    call := fun j hj => by simp [World.putRecord, World.landed, hj] }

/-- A record is rewritten under its own lock.  The new version is a save step away from the old one,
so what the index says about its agent stays true: a closed generation is not opened again. -/
theorem inv_rewriteRecord {i : Nat} {w : World} {journal : String} {old r : Record} (hw : Inv w)
    (hold : w.records.lookup r.id = some old) (hh : History old r.stored)
    (hc : (w.call i).rejected = false) (he : w.authority.epoch = journal) (hr : Writable w r)
    (hd : r.decodable = true) :
    Inv (w.putRecord i journal r) := by
  refine inv_putRecord hw hc he hr hd ?_ ?_
  · intro hk ho
    have hko : old.kind = .vm := hh.kind.symm.trans hk
    have hoo : generationClosed old.state = false := by
      by_contra hcl
      have hcl' := hh.closed (by simpa using hcl)
      have : generationClosed r.stored.state = false := ho
      rw [this] at hcl'
      cases hcl'
    have hagent : old.agentID = r.agentID := hh.agentID.symm
    rw [← hagent]
    exact hw.generation r.id old hold hko hoo
  · intro k p hk
    have hok := hw.planning k p hk
    refine ⟨hok.lock, ?_, ?_⟩
    · intro id r' hr'
      by_cases hid : id = r.id
      · subst hid
        obtain ⟨s, hs, hl⟩ := hok.siblings _ old hold
        obtain ⟨old', hold', hsh⟩ := hl.history
        have : old' = old := Option.some.inj (hold'.symm.trans hold)
        subst this
        exact ⟨s, hs, hl.id_eq, hl.bounded, r.stored, lookup_putRecord w i journal r,
          hsh.trans hl.bounded hh⟩
      · rw [lookup_putRecord_ne hid] at hr'
        obtain ⟨s, hs, hl⟩ := hok.siblings id r' hr'
        refine ⟨s, hs, hl.id_eq, hl.bounded, ?_⟩
        rw [lookup_putRecord_ne hid]
        exact hl.history
    · intro id r' hr' hkind hagent
      by_cases hid : id = r.id
      · subst hid
        rw [lookup_putRecord] at hr'
        have : r.stored = r' := Option.some.inj hr'
        subst this
        exact hh.closed (hok.closed _ old hold (hh.kind.symm.trans hkind)
          (hh.agentID.symm.trans hagent))
      · rw [lookup_putRecord_ne hid] at hr'
        exact hok.closed id r' hr' hkind hagent

/-- A record is rewritten under its lock, and by a step of its history.  Others rely on nothing more
of a record they do not hold. -/
theorem guar_rewriteRecord {i : Nat} {w : World} {journal : String} {old r : Record}
    (hl : w.locks (.record r.id) = some i) (hold : w.records.lookup r.id = some old)
    (hrw : Rewrite old r.stored) : Guar i w (w.putRecord i journal r) :=
  { Guar.refl i w with
    created := by
      intro id r' hn hs
      have hne : id ≠ r.id := by
        rintro rfl
        rw [hold] at hn
        cases hn
      rw [lookup_putRecord_ne hne, hn] at hs
      cases hs
    kept := by
      intro id r' hr'
      by_cases hid : id = r.id
      · subst hid
        have : old = r' := Option.some.inj (hold.symm.trans hr')
        subst this
        exact ⟨r.stored, lookup_putRecord w i journal r, Or.inr ⟨hl, hrw⟩⟩
      · exact ⟨r', by rw [lookup_putRecord_ne hid]; exact hr', Or.inl rfl⟩
    epochs := fun e he => Or.inl (mem_epochs_putRecord.mp he)
    past := fun e he => mem_epochs_putRecord.mpr he
    log := Or.inr ⟨_, rfl, rfl⟩
    call := fun j hj => by simp [World.putRecord, World.landed, hj] }

end Journal
