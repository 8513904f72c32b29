/-
# The protocol of the directory

What every process may count on and what it owes to the others:

* `Inv` holds of the directory at every moment: every record was validated when it was written,
  an open VM generation stands in the index, durable writes were made under the epoch in force;
* `Guar i` bounds one step of process `i`: it leaves the locks of others alone, changes the index
  only under the index lock, creates a record only under the index lock, rewrites a record only
  under that record's lock and by a save step, and changes the authority only while it holds the
  index lock and the lock of every record;
* `LocOk i` is what a process knows between two calls: its handle, if open, holds the record's
  lock and remembers what is on disk.

The second half lists what survives the steps of others (`Stable`): with the index lock the
index, the absence of a record and the authority are fixed; with a record's lock that record is
fixed, and so is the authority; and without any lock a closed generation stays closed.

## Which lock protects what

The index lock protects the index and the SET of records: nobody else can create one.  The lock of a
record protects its contents.  The authority is protected by all the locks together, and this is the
subtle part: a save holds one record lock only, checks the authority and writes later, and it is
safe because whoever wants a new epoch has to hold that lock as well (`Saves.authorized_stable`).

`Inv` says less about the contents of records than the validators do.  A record on disk was valid
when it was written, before it was stamped and compacted, and it need not be valid now; the results
that need it say so (`Tidy`).
-/
import PveCpi.Journal.Readback
import PveCpi.Journal.Ops

namespace Journal

open Lib.Interleave (Prog wp wpE Kept Stable)

/-! ## 1. History of the clock and of the writes

`Fenced` goes down the log from the newest write.  It is a property of the list alone, which is why
it can be an invariant although it speaks of the past. -/

/-- The reading goes into a record that can be read back. -/
def StampOk (t : Time) : Stamp → Prop
  | .create intent => planReadable intent.plan = true
  | .save next => next.createdAt ≤ t ∧ PlansReadable next

/-- Every stamp so far went into a record that can be read back. -/
def Tidy (w : World) : Prop := ∀ p ∈ w.stamps, StampOk p.1 p.2

/-- The clock never stepped backwards; the latest reading is first. -/
def MonoClock (w : World) : Prop := w.clock.Pairwise fun later earlier => earlier ≤ later

instance (t : Time) (s : Stamp) : Decidable (StampOk t s) :=
  match s with
  | .create intent => inferInstanceAs (Decidable (planReadable intent.plan = true))
  | .save next => inferInstanceAs (Decidable (next.createdAt ≤ t ∧ PlansReadable next))

instance (w : World) : Decidable (Tidy w) :=
  inferInstanceAs (Decidable (∀ p ∈ w.stamps, StampOk p.1 p.2))

instance (w : World) : Decidable (MonoClock w) :=
  inferInstanceAs (Decidable (w.clock.Pairwise fun later earlier => earlier ≤ later))

/-- The epochs that are or were in force, the current one first. -/
def World.epochs (w : World) : List String := w.authority.epoch :: w.log.map fun e => e.disk

/-- The writes of a log were fenced, when `epoch` is in force after them: each was made through a
Journal of the epoch then in force, and a new epoch was never in force before. -/
def Fenced : String → List Written → Prop
  | _, [] => True
  | epoch, e :: earlier =>
    e.journal = e.disk ∧
    (match e.file with
      | .authority new => epoch = new ∧ new ∉ e.disk :: earlier.map fun x => x.disk
      | _ => epoch = e.disk) ∧
    Fenced e.disk earlier

/-! ## 2. The invariant

The planning clause belongs to the invariant and not to a process: while a callback runs, every
OTHER process must leave the set of records alone. -/

/-- What holds of a record on disk. -/
structure RecordOk (w : World) (id : String) (r : Record) : Prop where
  id_eq : r.id = id
  namespace_eq : r.namespace = w.authority.namespace
  written : ∃ (m : Record) (t : Time), validateRecord m = .ok () ∧
    r = { m with updatedAt := t }.stored
  retry : RetrySafe r
  created : r.createdAt ∈ w.clock
  readable : Tidy w → validateRecord r = .ok ()
  /-- It was encoded, so it can be decoded. -/
  decodable : r.decodable = true

/-- `s` is the record under `id`, at some point of its history. -/
structure Listing (id : String) (s : Record) (w : World) : Prop where
  id_eq : s.id = id
  bounded : StepsBounded s
  history : ∃ r, w.records.lookup id = some r ∧ History s r

/-- A list of records has every record on disk. -/
def Listed (records : List Record) (w : World) : Prop :=
  ∀ id r, w.records.lookup id = some r → ∃ s ∈ records, Listing id s w

/-- What holds while a planning callback runs. -/
structure PlanningOk (w : World) (i : Nat) (p : Planning) : Prop where
  lock : w.locks .index = some i
  siblings : Listed p.siblings w
  closed : ∀ id r, w.records.lookup id = some r → r.kind = .vm → r.agentID = p.agentID →
    generationClosed r.state = true

/-- What holds of the directory at every moment. -/
structure Inv (w : World) : Prop where
  record : ∀ id r, w.records.lookup id = some r → RecordOk w id r
  generation : ∀ id r, w.records.lookup id = some r → r.kind = .vm →
    generationClosed r.state = false →
    w.index.activeVMs.lookup (pathKey r.agentID) = some id
  stamps : MonoClock w → ∀ t next, (t, Stamp.save next) ∈ w.stamps → next.createdAt ≤ t
  planning : ∀ i p, w.planning i = some p → PlanningOk w i p
  call : ∀ i, (w.call i).plans ≤ 1 ∧ ((w.call i).rejected = true → (w.call i).wrote = false)
  fenced : Fenced w.authority.epoch w.log
  issued : ∀ e ∈ w.epochs, e ∈ w.issued

/-! ## 3. The guarantee

Each field is an implication "if this changed, then that lock was mine", so that a process that
holds the lock knows that nobody else has changed it. -/

/-- A record on disk was replaced by a save step. -/
def Rewrite (r r' : Record) : Prop :=
  ∃ (old next : Record) (t : Time), r = old.stored ∧ r' = { next with updatedAt := t }.stored ∧
    SaveStep old next ∧ terminal old.state = false

/-- What one step of process `i` may do. -/
structure Guar (i : Nat) (s t : World) : Prop where
  locks : ∀ n j, j ≠ i → s.locks n = some j → t.locks n = some j
  index : s.locks .index ≠ some i → t.index = s.index
  created : ∀ id r, s.records.lookup id = none → t.records.lookup id = some r →
    s.locks .index = some i ∧ s.planning i = none ∧ r.attempts.length ≤ 1
  kept : ∀ id r, s.records.lookup id = some r → ∃ r', t.records.lookup id = some r' ∧
    (r' = r ∨ s.locks (.record id) = some i ∧ Rewrite r r')
  authority : t.authority = s.authority ∨ s.locks .index = some i ∧
    ∀ id r, s.records.lookup id = some r → s.locks (.record id) = some i
  namespace_eq : t.authority.namespace = s.authority.namespace
  epochs : ∀ e ∈ t.epochs, e ∈ s.epochs ∨ s.locks .index = some i
  past : ∀ e ∈ s.epochs, e ∈ t.epochs
  log : t.log = s.log ∧ t.authority.epoch = s.authority.epoch ∨
    ∃ x, t.log = x :: s.log ∧ x.disk = s.authority.epoch
  planning : ∀ j, j ≠ i → t.planning j = s.planning j
  call : ∀ j, j ≠ i → t.call j = s.call j
  clock : ∀ x ∈ s.clock, x ∈ t.clock
  stamps : ∀ x ∈ s.stamps, x ∈ t.stamps
  issued : ∀ x ∈ s.issued, x ∈ t.issued

theorem Rewrite.history {r r' : Record} (h : Rewrite r r') : History r r' := by
  obtain ⟨old, next, t, rfl, rfl, hstep, hterm⟩ := h
  exact (hstep.history.stamp hterm t).stored

/-- Every record is still there, later in its history.  A step rewrites a record by a save step or
leaves it, and a save step is a step of the history. -/
theorem Guar.history {i : Nat} {s t : World} (h : Guar i s t) {id : String} {r : Record}
    (hr : s.records.lookup id = some r) :
    ∃ r', t.records.lookup id = some r' ∧ History r r' := by
  obtain ⟨r', hr', heq | ⟨_, hw⟩⟩ := h.kept id r hr
  · exact ⟨r', hr', heq ▸ History.refl r⟩
  · exact ⟨r', hr', hw.history⟩

/-- A later tidy history was tidy all along. -/
theorem Guar.tidy {i : Nat} {s t : World} (h : Guar i s t) (ht : Tidy t) : Tidy s :=
  fun p hp => ht p (h.stamps p hp)

theorem RecordOk.bounded {w : World} {id : String} {r : Record} (h : RecordOk w id r) :
    StepsBounded r := by
  obtain ⟨m, t, hm, rfl⟩ := h.written
  have hm' := stepsBounded_of_valid (validateAttempts_of_record hm)
  have hb : StepsBounded { m with updatedAt := t } := hm'
  exact hb.stored

theorem RecordOk.stored_eq {w : World} {id : String} {r : Record} (h : RecordOk w id r) :
    r.stored = r := by
  obtain ⟨m, t, _, rfl⟩ := h.written
  exact stored_stored _

/-! ## 4. Programs of a process -/

abbrev WP {α : Type} (i : Nat) (p : P α) (Q : α → World → Prop) (s : World) : Prop :=
  wp (S := journalSys) Inv Guar i p Q s

abbrev WPE {α : Type} (i : Nat) (p : M α) (Q : α → World → Prop) (X : Err → World → Prop)
    (s : World) : Prop :=
  wpE (S := journalSys) Inv Guar i p Q X s

abbrev Keeps (i : Nat) (A : World → Prop) : Prop := Kept (S := journalSys) Inv Guar i A

abbrev Stands (i : Nat) (A : World → Prop) : Prop := Stable (S := journalSys) Inv Guar i A

/-! ## 5. What survives the steps of others

One lemma for each assertion that a program carries across an effect.  They are all of one form:
another process could only break the assertion under a lock that this one holds. -/

section Survives

variable {i : Nat}

theorem holds_stable (n : LockName) : Stands i fun w => w.locks n = some i := by
  intro j hj s t _ _ hg h
  exact hg.locks n i (fun he => hj he.symm) h

/-- A process that is not `i` cannot hold a lock that `i` holds. -/
theorem not_holds {j : Nat} {w : World} {n : LockName} (hj : j ≠ i) (h : w.locks n = some i) :
    w.locks n ≠ some j := by
  intro hn
  rw [h] at hn
  exact hj (Option.some.inj hn).symm

/-- No callback of the process runs. -/
theorem unplanned_stable : Stands i fun w => w.planning i = none := by
  intro j hj s t _ _ hg h
  exact (hg.planning i fun he => hj he.symm).trans h

/-- The index lock is held, no callback runs, and nothing was rejected. -/
structure Held (i : Nat) (w : World) : Prop where
  lock : w.locks .index = some i
  planning : w.planning i = none
  accepted : (w.call i).rejected = false

theorem held_stable : Stands i (Held i) := by
  intro j hj s t hs ht hg h
  have hij : i ≠ j := fun he => hj he.symm
  exact ⟨holds_stable .index j hj s t hs ht hg h.lock, (hg.planning i hij).trans h.planning,
    by rw [hg.call i hij]; exact h.accepted⟩

/-- Held, and the authority was checked. -/
structure Inside (i : Nat) (j : Authority) (w : World) : Prop extends Held i w where
  epoch : w.authority.epoch = j.epoch
  namespace_eq : w.authority.namespace = j.namespace

theorem Guar.authority_eq {k : Nat} {s t : World} (hk : k ≠ i) (hg : Guar k s t)
    (h : s.locks .index = some i) : t.authority = s.authority := by
  rcases hg.authority with ha | ⟨hl, _⟩
  · exact ha
  · exact absurd hl (not_holds hk h)

theorem inside_stable (j : Authority) : Stands i (Inside i j) := by
  intro k hk s t hs ht hg h
  have ha := hg.authority_eq hk h.lock
  exact {
    toHeld := held_stable k hk s t hs ht hg h.toHeld
    epoch := by rw [ha]; exact h.epoch
    namespace_eq := by rw [ha]; exact h.namespace_eq }

/-- What the current call of the process did, as far as `p` tells. -/
theorem call_stable (p : Call → Prop) : Stands i fun w => p (w.call i) := by
  intro j hj s t _ _ hg h
  rw [hg.call i fun he => hj he.symm]
  exact h

theorem index_stable (idx : Index) :
    Stands i fun w => w.locks .index = some i ∧ w.index = idx := by
  intro k hk s t hs ht hg h
  exact ⟨holds_stable .index k hk s t hs ht hg h.1,
    (hg.index (not_holds hk h.1)).trans h.2⟩

theorem absent_stable (id : String) :
    Stands i fun w => w.locks .index = some i ∧ w.records.lookup id = none := by
  intro k hk s t hs ht hg h
  refine ⟨holds_stable .index k hk s t hs ht hg h.1, ?_⟩
  cases hr : t.records.lookup id with
  | none => rfl
  | some r => exact absurd (hg.created id r h.2 hr).1 (not_holds hk h.1)

/-- Nobody else rewrites a record whose lock is held. -/
theorem record_stable (id : String) (r : Record) :
    Stands i fun w => w.locks (.record id) = some i ∧ w.records.lookup id = some r := by
  intro k hk s t hs ht hg h
  refine ⟨holds_stable _ k hk s t hs ht hg h.1, ?_⟩
  obtain ⟨r', hr', heq | ⟨hl, _⟩⟩ := hg.kept id r h.2
  · exact heq ▸ hr'
  · exact absurd hl (not_holds hk h.1)

/-- A closed generation stays closed, whoever writes. -/
theorem closed_stable (id : String) : Stands i fun w => ∃ r, w.records.lookup id = some r ∧
    generationClosed r.state = true := by
  rintro k _ s t _ _ hg ⟨r, hr, hc⟩
  obtain ⟨r', hr', hh⟩ := hg.history hr
  exact ⟨r', hr', hh.closed hc⟩

theorem epoch_unused_stable (e : String) :
    Stands i fun w => w.locks .index = some i ∧ e ∉ w.epochs := by
  intro k hk s t hs ht hg h
  refine ⟨holds_stable .index k hk s t hs ht hg h.1, ?_⟩
  intro he
  rcases hg.epochs e he with hmem | hl
  · exact h.2 hmem
  · exact not_holds hk h.1 hl

theorem epoch_past_stable (e : String) : Stands i fun w => e ∈ w.epochs := by
  intro k _ s t _ _ hg h
  exact hg.past e h

/-- What follows from a tidy history may be remembered. -/
theorem tidy_stable (p : Prop) : Stands i fun w => Tidy w → p := by
  intro k _ s t _ _ hg h ht
  exact h (hg.tidy ht)

/-- What was listed stays a point of the history. -/
theorem Listing.guar {k : Nat} {s t : World} {id : String} {r : Record} (h : Listing id r s)
    (hg : Guar k s t) : Listing id r t := by
  obtain ⟨r1, hr1, hh1⟩ := h.history
  obtain ⟨r2, hr2, hh2⟩ := hg.history hr1
  exact ⟨h.id_eq, h.bounded, r2, hr2, hh1.trans h.bounded hh2⟩

theorem listing_stable (id : String) (r : Record) : Stands i (Listing id r) := by
  intro k _ s t _ _ hg h
  exact h.guar hg

/-- While the index lock is held, no name appears. -/
theorem names_stable (p : String → Prop) : Stands i fun w => w.locks .index = some i ∧
    ∀ id r, w.records.lookup id = some r → p id := by
  intro k hk s t hs ht hg h
  refine ⟨holds_stable .index k hk s t hs ht hg h.1, ?_⟩
  intro id r' hr'
  cases hr : s.records.lookup id with
  | none => exact absurd (hg.created id r' hr hr').1 (not_holds hk h.1)
  | some r => exact h.2 id r hr

end Survives

end Journal
