/-
# What a planning first placement can rely on

While a first placement plans, it holds the index lock.  Others may go on with the records they
created, but nobody adds one.  So the list that the callback was given still has every record on
disk, and every record that charges now was listed as charging, with the same plan (`Settled`).

Nothing is assumed of the directory that the processes start from: the records in it may be any.

The invariant and the guarantee are smaller than those of `Journal.Protocol`, and the start is more
general: any directory will do.  Nothing is said about validity, epochs or the index, since joint
admission needs none of it.  What is needed is that records keep their plans, that a record which
does not charge does not start to, and that nobody adds one while somebody plans.

So the rely-guarantee proof is done once more, with rules of the same shape over the same programs.
The functions of the journal that touch none of this are skipped as a whole (`wp_aside`).
-/
import PveCpi.Managed.FirstPlacement
import PveCpi.Journal.Safety

namespace Managed

open Lib.Interleave
open Storage
open Journal (Record World Planning LockName Eff Choice Handle Authority P M Err act check exec)

/-! ## 1. How a record may change

`Settled r r'`: the same plan, and `r'` charges only if `r` did. -/

/-- `r'` is `r` after saves that kept its plan and did not take it out of rest. -/
structure Settled (r r' : Record) : Prop where
  id : r'.id = r.id
  plan : activePlan r' = activePlan r
  charging : storageAllocationCharging r'.state = true → storageAllocationCharging r.state = true

theorem Settled.refl (r : Record) : Settled r r := ⟨rfl, rfl, fun hc => hc⟩

theorem Settled.trans {r r' r'' : Record} (h : Settled r r') (h' : Settled r' r'') :
    Settled r r'' :=
  ⟨h'.id.trans h.id, h'.plan.trans h.plan, fun hc => h.charging (h'.charging hc)⟩

/-- The list has every record on disk, as it is or as it was. -/
def Covers (siblings : List Record) (w : World) : Prop :=
  ∀ id r, w.records.lookup id = some r → ∃ s ∈ siblings, s.id = id ∧ Settled s r

/-! ## 2. Invariant and guarantee -/

/-- Who plans holds the index lock, and was given every record. -/
def Inv (w : World) : Prop :=
  ∀ i p, w.planning i = some p → w.locks .index = some i ∧ Covers p.siblings w

/-- What one step of process `i` may do. -/
structure Guar (i : Nat) (s t : World) : Prop where
  locks : ∀ n j, j ≠ i → s.locks n = some j → t.locks n = some j
  created : ∀ id r, s.records.lookup id = none → t.records.lookup id = some r →
    s.locks .index = some i
  kept : ∀ id r, s.records.lookup id = some r → ∃ r', t.records.lookup id = some r' ∧
    (r' = r ∨ s.locks (.record id) = some i ∧ Settled r r')
  planning : ∀ j, j ≠ i → t.planning j = s.planning j

/-- The records, the locks and the callbacks under way are the same. -/
structure Same (s t : World) : Prop where
  records : t.records = s.records
  locks : t.locks = s.locks
  planning : t.planning = s.planning

variable {i : Nat} {s t : World}

theorem Same.refl (s : World) : Same s s := ⟨rfl, rfl, rfl⟩

theorem Same.inv (h : Same s t) (hs : Inv s) : Inv t := by
  intro k p hp
  rw [h.planning] at hp
  obtain ⟨hlock, hcovers⟩ := hs k p hp
  unfold Covers
  rw [h.locks, h.records]
  exact ⟨hlock, hcovers⟩

theorem Same.guar (h : Same s t) : Guar i s t where
  locks n j _ hn := by rw [h.locks]; exact hn
  created id r hnone hsome := by
    rw [h.records, hnone] at hsome
    cases hsome
  kept id r hr := ⟨r, by rw [h.records]; exact hr, .inl rfl⟩
  planning j _ := by rw [h.planning]

/-- An assertion about the records, the locks and the callbacks under way. -/
def Plain (A : World → Prop) : Prop := ∀ s t, Same s t → A s → A t

/-- An effect that touches none of them. -/
def Aside : Eff → Prop
  | .lock _ | .tryLock _ | .unlock _ | .writeRecord _ _ | .planBegin _ | .planEnd => False
  | _ => True

/-- The effects of this protocol other than locks, records and callbacks leave all that it speaks of
alone. -/
theorem exec_aside {e : Eff} (he : Aside e) {ch : Choice} {a : Journal.Ans e}
    (h : exec i e ch s = some (a, t)) : Same s t := by
  cases e with
  | lock n | tryLock n | unlock n | writeRecord j r | planBegin p | planEnd => exact he.elim
  | readAuthority | readIndex | readDir | readRecord id | lstat id =>
    have heq := Journal.exec_read (by trivial) h
    rw [heq]
    exact .refl s
  | writeIndex j idx | writeAuthority j a =>
    simp only [exec, World.commit] at h
    split at h <;> cases h <;> exact ⟨rfl, rfl, rfl⟩
  | now st =>
    cases h
    exact ⟨rfl, rfl, rfl⟩
  | newID =>
    simp only [exec, Journal.orFail] at h
    split at h
    · split at h
      · cases h
        exact ⟨rfl, rfl, rfl⟩
      · cases h
    · cases h
      exact .refl _
  | planRejected =>
    cases h
    exact ⟨rfl, rfl, rfl⟩
  | observe id =>
    cases h
    exact .refl _

theorem aside_of_isRead {e : Eff} (he : e.isRead) : Aside e := by
  cases e with
  | readAuthority | readIndex | readDir | readRecord id | lstat id => trivial
  | _ => exact he.elim

/-! ## 3. What survives the steps of others

With the index lock the set of names is fixed; with a record's lock that record is. -/

section Survives

variable (decode : Decoder)

abbrev WP {α : Type} (i : Nat) (p : P α) (Q : α → World → Prop) (s : World) : Prop :=
  wp (S := placementSys decode) Inv Guar i p Q s

abbrev WPE {α : Type} (i : Nat) (p : M α) (Q : α → World → Prop) (X : Err → World → Prop)
    (s : World) : Prop :=
  wpE (S := placementSys decode) Inv Guar i p Q X s

abbrev Keeps (i : Nat) (A : World → Prop) : Prop :=
  Kept (S := placementSys decode) Inv Guar i A

abbrev Stands (i : Nat) (A : World → Prop) : Prop :=
  Stable (S := placementSys decode) Inv Guar i A

variable {decode}

theorem unplanned_stands : Stands decode i fun w => w.planning i = none := by
  intro j hj s t _ _ hg h
  exact (hg.planning i fun he => hj he.symm).trans h

theorem locked_stands (n : LockName) : Stands decode i fun w => w.locks n = some i := by
  intro j hj s t _ _ hg h
  exact hg.locks n i (fun he => hj he.symm) h

/-- The process has the index lock and runs no callback. -/
structure Inside (i : Nat) (w : World) : Prop where
  lock : w.locks .index = some i
  planning : w.planning i = none

theorem inside_stands : Stands decode i (Inside i) := by
  intro j hj s t hs ht hg h
  exact ⟨locked_stands .index j hj s t hs ht hg h.lock,
    unplanned_stands j hj s t hs ht hg h.planning⟩

/-- Under the index lock nobody else creates a record. -/
theorem absent_stands (id : String) :
    Stands decode i fun w => w.locks .index = some i ∧ w.records.lookup id = none := by
  rintro j hj s t hs ht hg ⟨hlock, hnone⟩
  refine ⟨locked_stands .index j hj s t hs ht hg hlock, ?_⟩
  cases hr : t.records.lookup id with
  | none => rfl
  | some r =>
    have hj' := hg.created id r hnone hr
    rw [hlock] at hj'
    exact absurd (Option.some.inj hj').symm hj

/-- Under its lock nobody else saves a record. -/
theorem record_stands (id : String) (r : Record) :
    Stands decode i fun w => w.locks (.record id) = some i ∧ w.records.lookup id = some r := by
  rintro j hj s t hs ht hg ⟨hlock, hr⟩
  refine ⟨locked_stands _ j hj s t hs ht hg hlock, ?_⟩
  obtain ⟨r', hr', rfl | ⟨hlock', -⟩⟩ := hg.kept id r hr
  · exact hr'
  · rw [hlock] at hlock'
    exact absurd (Option.some.inj hlock').symm hj

/-- A record that was read is on disk, settled. -/
def Listed (id : String) (r : Record) (w : World) : Prop :=
  r.id = id ∧ ∃ r', w.records.lookup id = some r' ∧ Settled r r'

theorem listed_stands (id : String) (r : Record) : Stands decode i (Listed id r) := by
  rintro j hj s t hs ht hg ⟨hid, r', hr', hset⟩
  obtain ⟨r'', hr'', rfl | ⟨-, hset'⟩⟩ := hg.kept id r' hr'
  · exact ⟨hid, _, hr'', hset⟩
  · exact ⟨hid, _, hr'', hset.trans hset'⟩

/-- Under the index lock the names are fixed. -/
theorem names_stands (ids : List String) : Stands decode i fun w => w.locks .index = some i ∧
    ∀ id r, w.records.lookup id = some r → id ∈ ids := by
  rintro j hj s t hs ht hg ⟨hlock, hids⟩
  refine ⟨locked_stands .index j hj s t hs ht hg hlock, fun id r hr => ?_⟩
  cases hs : s.records.lookup id with
  | some r' => exact hids id r' hs
  | none =>
    have hj' := hg.created id r hs hr
    rw [hlock] at hj'
    exact absurd (Option.some.inj hj').symm hj

end Survives

/-! ## 4. What each step does -/

section Steps

theorem inv_take {n : LockName} (hs : Inv s) (hn : s.locks n = none) :
    Inv (s.setLock n (some i)) := by
  intro k p hp
  obtain ⟨hlock, hcovers⟩ := hs k p hp
  refine ⟨?_, hcovers⟩
  have hne : LockName.index ≠ n := by
    rintro rfl
    rw [hlock] at hn
    cases hn
  simp only [World.setLock, if_neg hne]
  exact hlock

theorem guar_take {n : LockName} (hn : s.locks n = none) : Guar i s (s.setLock n (some i)) where
  locks m j _ hm := by
    have hne : m ≠ n := by
      rintro rfl
      rw [hn] at hm
      cases hm
    simp only [World.setLock, if_neg hne]
    exact hm
  created id r hnone hsome := by
    rw [show (s.setLock n (some i)).records = s.records from rfl, hnone] at hsome
    cases hsome
  kept id r hr := ⟨r, hr, .inl rfl⟩
  planning _ _ := rfl

theorem released_records (w : World) (n : LockName) (i : Nat) :
    (w.released n i).records = w.records := by
  unfold World.released
  split <;> rfl

theorem inv_released {n : LockName} (hs : Inv s) (hp : s.planning i = none) :
    Inv (s.released n i) := by
  intro k p hk
  rw [Journal.released_planning] at hk
  obtain ⟨hlock, hcovers⟩ := hs k p hk
  have hki : k ≠ i := by
    rintro rfl
    rw [hp] at hk
    cases hk
  refine ⟨Journal.released_locks_other hki hlock, ?_⟩
  unfold Covers
  rw [released_records]
  exact hcovers

theorem guar_released (n : LockName) : Guar i s (s.released n i) where
  locks m j hj hm := Journal.released_locks_other hj hm
  created id r hnone hsome := by
    rw [released_records, hnone] at hsome
    cases hsome
  kept id r hr := ⟨r, by rw [released_records]; exact hr, .inl rfl⟩
  planning j _ := by rw [Journal.released_planning]

/-- A callback starts with the records listed. -/
theorem inv_planStarted {p : Planning} (hs : Inv s) (hlock : s.locks .index = some i)
    (hcovers : Covers p.siblings s) : Inv (s.planStarted i p) := by
  intro k q hq
  by_cases hk : k = i
  · subst hk
    have hpq : p = q := by simpa [World.planStarted, World.setPlanning, World.setCall] using hq
    rw [← hpq]
    exact ⟨hlock, hcovers⟩
  · refine hs k q ?_
    simpa [World.planStarted, World.setPlanning, World.setCall, hk] using hq

theorem guar_planStarted (p : Planning) : Guar i s (s.planStarted i p) where
  locks _ _ _ hn := hn
  created id r hnone hsome := by
    rw [show (s.planStarted i p).records = s.records from rfl, hnone] at hsome
    cases hsome
  kept id r hr := ⟨r, hr, .inl rfl⟩
  planning j hj := by simp [World.planStarted, World.setPlanning, World.setCall, hj]

theorem inv_planEnded (hs : Inv s) : Inv (s.setPlanning i none) := by
  intro k q hq
  refine hs k q ?_
  by_cases hk : k = i
  · simp [World.setPlanning, hk] at hq
  · simpa [World.setPlanning, hk] using hq

theorem guar_planEnded : Guar i s (s.setPlanning i none) where
  locks _ _ _ hn := hn
  created id r hnone hsome := by
    rw [show (s.setPlanning i none).records = s.records from rfl, hnone] at hsome
    cases hsome
  kept id r hr := ⟨r, hr, .inl rfl⟩
  planning j hj := by simp [World.setPlanning, hj]

/-- **A record is created** while nobody plans: the creator has the index lock and is done.  So
there is no list that it could be missing from. -/
theorem inv_created (j : String) (r : Record) (hs : Inv s) (h : Inside i s) :
    Inv (s.putRecord i j r) := by
  intro k p hp
  obtain ⟨hlock, -⟩ := hs k p hp
  obtain rfl : i = k := Option.some.inj (h.lock.symm.trans hlock)
  have hnone : s.planning i = some p := hp
  rw [h.planning] at hnone
  cases hnone

theorem guar_created {j : String} {r : Record} (h : Inside i s)
    (hnone : s.records.lookup r.id = none) : Guar i s (s.putRecord i j r) where
  locks _ _ _ hn := hn
  created _ _ _ _ := h.lock
  kept id r' hr' := by
    have hne : id ≠ r.id := by
      rintro rfl
      rw [hnone] at hr'
      cases hr'
    exact ⟨r', by rw [Journal.lookup_putRecord_ne hne]; exact hr', .inl rfl⟩
  planning _ _ := rfl

/-- **A record is saved** by who holds its lock, and settles.  Every list that has an earlier
version of it still covers the directory. -/
theorem inv_saved {j : String} {r r₀ : Record} (hs : Inv s)
    (hr₀ : s.records.lookup r.id = some r₀) (hset : Settled r₀ r.stored) :
    Inv (s.putRecord i j r) := by
  intro k p hp
  obtain ⟨hlock, hcovers⟩ := hs k p hp
  refine ⟨hlock, fun id r' hr' => ?_⟩
  by_cases hid : id = r.id
  · subst hid
    rw [Journal.lookup_putRecord] at hr'
    obtain rfl := Option.some.inj hr'
    obtain ⟨sib, hmem, hsid, hsib⟩ := hcovers _ _ hr₀
    exact ⟨sib, hmem, hsid, hsib.trans hset⟩
  · rw [Journal.lookup_putRecord_ne hid] at hr'
    exact hcovers id r' hr'

/-- A save that keeps the plan of its record, and does not let it charge again, changes nothing that
others have counted. -/
theorem guar_saved {j : String} {r r₀ : Record} (hlock : s.locks (.record r.id) = some i)
    (hr₀ : s.records.lookup r.id = some r₀) (hset : Settled r₀ r.stored) :
    Guar i s (s.putRecord i j r) where
  locks _ _ _ hn := hn
  created id r' hnone hsome := by
    have hne : id ≠ r.id := by
      rintro rfl
      rw [hr₀] at hnone
      cases hnone
    rw [Journal.lookup_putRecord_ne hne, hnone] at hsome
    cases hsome
  kept id r' hr' := by
    by_cases hid : id = r.id
    · subst hid
      obtain rfl := Option.some.inj (hr₀.symm.trans hr')
      exact ⟨r.stored, Journal.lookup_putRecord _ _ _ _, .inr ⟨hlock, hset⟩⟩
    · exact ⟨r', by rw [Journal.lookup_putRecord_ne hid]; exact hr', .inl rfl⟩
  planning _ _ := rfl

end Steps

/-! ## 5. Rules for the system calls -/

section Rules

variable {decode : Decoder} {α β : Type} {A : World → Prop}

/-- A program whose effects touch nothing of what matters keeps what survives. -/
theorem wp_aside {p : P α} (hp : p.Only Aside) (hA : Keeps decode i A) (hplain : Plain A)
    (hs : A s) : WP decode i p (fun _ => A) s := by
  refine wp_each hA ?_ hp hs
  intro e he ch s a t hs hAs hx
  have hsame := exec_aside he hx
  exact ⟨hsame.inv hs, hsame.guar, hplain s t hsame hAs⟩

theorem wpE_aside {p : M α} (hp : Prog.Only Aside (ExceptT.run p)) (hA : Keeps decode i A)
    (hplain : Plain A) (hs : A s) : WPE decode i p (fun _ => A) (fun _ => A) s := by
  refine wp_mono ?_ (wp_aside hp hA hplain hs)
  intro r t _ ht
  cases r with
  | ok a => exact ht
  | error e => exact ht

theorem aside_of_readOnly {p : M α} (hp : Journal.ReadOnly p) :
    Prog.Only Aside (ExceptT.run p) := Prog.Only.mono hp fun _ => aside_of_isRead

/-- In front of the rest, such a program is skipped. -/
theorem wpE_skip {p : M β} {k : β → M α} {Q : α → World → Prop} {X : Err → World → Prop}
    (hs : Inv s) (hX : ∀ e, Keeps decode i (X e)) (hp : Prog.Only Aside (ExceptT.run p))
    (hA : Keeps decode i A) (hplain : Plain A) (hAs : A s) (herr : ∀ e t, Inv t → A t → X e t)
    (h : ∀ b t, Inv t → A t → WPE decode i (k b) Q X t) : WPE decode i (p >>= k) Q X s :=
  wpE_bind hs hX (wpE_mono (fun b t ht hb => h b t ht hb) (fun e t ht he => herr e t ht he)
    (wpE_aside hp hA hplain hAs))

theorem wpE_step {p : P β} {k : β → M α} {Q : α → World → Prop} {X : Err → World → Prop}
    (hs : Inv s) (hX : ∀ e, Keeps decode i (X e))
    (h : WP decode i p (fun b => WPE decode i (k b) Q X) s) : WPE decode i (act p >>= k) Q X s :=
  wpE_bind hs hX (wpE_lift hs (fun _ => wpE_kept _ _ _) h)

theorem wpE_fail {e : Err} {Q : α → World → Prop} {X : Err → World → Prop}
    (hX : ∀ e, Keeps decode i (X e)) (h : X e s) : WPE decode i (check (.error e)) Q X s :=
  wpE_throw (hX e) h

/-- A read, whose answer is about the state in which it happens. -/
theorem wp_read {e : Eff} {Q : Journal.Ans e → World → Prop} (he : e.isRead)
    (hA : Keeps decode i A) (hs : A s) (hQ : ∀ a, Keeps decode i (Q a))
    (h : ∀ t, Inv t → A t → ∀ ch a, exec i e ch t = some (a, t) → Q a t) :
    WP decode i (Prog.perform e) Q s := by
  refine wp_perform hA hs hQ ?_
  intro t ht hAt ch a t' hx
  obtain rfl := Journal.exec_read he hx
  exact ⟨ht, (Same.refl _).guar, h _ ht hAt ch a hx⟩

/-- Waiting for a lock, as in `Journal.Rules`, over the invariant of this protocol. -/
theorem wp_lockFile {n : LockName} {Q : Bool → World → Prop} (hA : Keeps decode i A) (hs : A s)
    (hQ : ∀ a, Keeps decode i (Q a))
    (h : ∀ t, Inv t → A t → Q false t ∧ (t.locks n = none → Q true (t.setLock n (some i)))) :
    WP decode i (Journal.lockFile n) Q s := by
  refine wp_perform hA hs hQ ?_
  intro t ht hAt ch a t' hx
  simp only [exec, Journal.orFail] at hx
  obtain ⟨h1, h2⟩ := h t ht hAt
  split at hx
  · split at hx
    · rename_i hn
      cases hx
      exact ⟨inv_take ht hn, guar_take hn, h2 hn⟩
    · cases hx
  · cases hx
    exact ⟨ht, (Same.refl _).guar, h1⟩

/-- Trying a lock, over the invariant of this protocol. -/
theorem wp_tryLockFile {n : LockName} {Q : Journal.TryLock → World → Prop}
    (hA : Keeps decode i A) (hs : A s) (hQ : ∀ a, Keeps decode i (Q a))
    (h : ∀ t, Inv t → A t → Q .failed t ∧ Q .busy t ∧
      (t.locks n = none → Q .acquired (t.setLock n (some i)))) :
    WP decode i (Journal.tryLockFile n) Q s := by
  refine wp_perform hA hs hQ ?_
  intro t ht hAt ch a t' hx
  simp only [exec, Journal.orFail] at hx
  obtain ⟨h1, h2, h3⟩ := h t ht hAt
  split at hx
  · replace hx := Option.some.inj hx
    split at hx
    · rename_i hn
      cases hx
      exact ⟨inv_take ht hn, guar_take hn, h3 hn⟩
    · cases hx
      exact ⟨ht, (Same.refl _).guar, h2⟩
  · cases hx
    exact ⟨ht, (Same.refl _).guar, h1⟩

theorem wp_unlockFile {n : LockName} {Q : Bool → World → Prop} (hA : Keeps decode i A) (hs : A s)
    (hQ : ∀ a, Keeps decode i (Q a))
    (h : ∀ t, Inv t → A t → t.planning i = none ∧ ∀ b, Q b (t.released n i)) :
    WP decode i (Journal.unlockFile n) Q s := by
  refine wp_perform hA hs hQ ?_
  intro t ht hAt ch a t' hx
  simp only [exec] at hx
  obtain ⟨h1, h2⟩ := h t ht hAt
  cases hx
  exact ⟨inv_released ht h1, guar_released _, h2 _⟩

/-- A replacement of a record: nothing changed, or it landed. -/
theorem wp_replaceRecord {j : String} {r : Record} {Q : Bool → World → Prop}
    (hA : Keeps decode i A) (hs : A s) (hQ : ∀ a, Keeps decode i (Q a))
    (hkept : ∀ t, Inv t → A t → Q false t)
    (h : ∀ t, Inv t → A t → Inv (t.putRecord i j r) ∧ Guar i t (t.putRecord i j r) ∧
      ∀ b, Q b (t.putRecord i j r)) :
    WP decode i (Journal.replaceRecord j r) Q s := by
  refine wp_perform hA hs hQ ?_
  intro t ht hAt ch b t' hx
  obtain ⟨h1, h2, h3⟩ := h t ht hAt
  by_cases he : r.decodable = true
  · have hx' : t.commit ch (t.putRecord i j r) = some (b, t') := (if_pos he).symm.trans hx
    unfold World.commit at hx'
    split at hx' <;> cases hx'
    · exact ⟨h1, h2, h3 _⟩
    · exact ⟨ht, (Same.refl _).guar, hkept _ ht hAt⟩
    · exact ⟨h1, h2, h3 _⟩
  · have hx' : some (false, t) = some (b, t') := (if_neg he).symm.trans hx
    cases hx'
    exact ⟨ht, (Same.refl _).guar, hkept _ ht hAt⟩

theorem wp_planBegin {p : Planning} {Q : Unit → World → Prop} (hA : Keeps decode i A) (hs : A s)
    (hQ : ∀ a, Keeps decode i (Q a))
    (h : ∀ t, Inv t → A t → t.locks .index = some i ∧ Covers p.siblings t ∧
      Q () (t.planStarted i p)) :
    WP decode i (Journal.planBegin p) Q s := by
  refine wp_perform hA hs hQ ?_
  intro t ht hAt ch a t' hx
  simp only [exec] at hx
  obtain ⟨h1, h2, h3⟩ := h t ht hAt
  cases hx
  exact ⟨inv_planStarted ht h1 h2, guar_planStarted _, h3⟩

theorem wp_planEnd {Q : Unit → World → Prop} (hA : Keeps decode i A) (hs : A s)
    (hQ : ∀ a, Keeps decode i (Q a)) (h : ∀ t, Inv t → A t → Q () (t.setPlanning i none)) :
    WP decode i Journal.planEnd Q s := by
  refine wp_perform hA hs hQ ?_
  intro t ht hAt ch a t' hx
  simp only [exec] at hx
  cases hx
  exact ⟨inv_planEnded ht, guar_planEnded, h t ht hAt⟩

end Rules

/-! ## 6. Listing and planning

A list is read record by record while others save; each entry is what the record was at its own
moment, and the record has settled from there. -/

section Lists

variable {decode : Decoder} {A : World → Prop}

/-- A record that is accepted is the one on disk, under its own identifier. -/
theorem acceptRecord_ok {j : Authority} {id : String} {w : World} {r : Record}
    (h : Journal.acceptRecord j id (w.readRecord id) = .ok r) :
    w.records.lookup id = some r ∧ r.id = id := by
  unfold World.readRecord at h
  cases hl : w.records.lookup id with
  | none => rw [hl] at h; cases h
  | some r' =>
    rw [hl] at h
    simp only at h
    split at h
    · simp only [Journal.acceptRecord, Lib.Check.check_bind_eq_ok, Lib.Check.pure_eq_ok,
        Lib.Check.refuse_eq_ok, Bool.or_eq_false_iff, bne_eq_false_iff_eq] at h
      obtain ⟨-, ⟨hid, -⟩, rfl⟩ := h
      exact ⟨rfl, hid⟩
    · cases h

/-- An inspected record is listed. -/
theorem wpE_inspect {j : Authority} {id : String} (hs : Inv s) (hA : Keeps decode i A) (hAs : A s) :
    WPE decode i (Journal.inspect j id) (fun r w => A w ∧ Listed id r w) (fun _ => A) s := by
  have hQ : ∀ r, Keeps decode i fun w => A w ∧ Listed id r w :=
    fun r => hA.and (listed_stands id r).kept
  refine wpE_bind hs (fun _ => hA)
    (wpE_of (fun _ => wpE_kept _ _ _) (fun _ => hA) (fun _ _ => ?_) fun _ _ => hAs)
  refine wpE_step hs (fun _ => hA) (wp_read (e := .readRecord id) trivial hA hAs
    (fun _ => wpE_kept _ _ _) ?_)
  intro t _ hAt ch a hx
  refine wpE_of hQ (fun _ => hA) (fun r hr => ⟨hAt, ?_⟩) fun _ _ => hAt
  simp only [exec, Journal.orFail] at hx
  split at hx <;> cases hx
  · obtain ⟨hlookup, hid⟩ := acceptRecord_ok hr
    exact ⟨hid, r, hlookup, Settled.refl r⟩
  · cases hr

/-- Every record of the listing is among the siblings.  Records may be rewritten while the others
are read, so what is known of each is what survives a rewrite (`Listed`). -/
theorem wpE_inspectAll {j : Authority} (ids : List String) : ∀ {A : World → Prop} {s : World},
    Keeps decode i A → Inv s → A s →
    WPE decode i (Journal.inspectAll j ids)
      (fun rs w => A w ∧ ∀ id ∈ ids, ∃ r ∈ rs, Listed id r w) (fun _ => A) s := by
  induction ids with
  | nil =>
    intro A s hA _ hAs
    refine wpE_pure ?_ ⟨hAs, fun id hid => by cases hid⟩
    exact fun s t ht he h => ⟨hA s t ht he h.1, fun id hid => by cases hid⟩
  | cons id ids ih =>
    intro A s hA hs hAs
    have hkeep : ∀ rs : List Record, Keeps decode i fun w =>
        A w ∧ ∀ id' ∈ id :: ids, ∃ r ∈ rs, Listed id' r w := by
      intro rs s t ht he h
      refine ⟨hA s t ht he h.1, fun id' hid => ?_⟩
      obtain ⟨r, hr, hl⟩ := h.2 id' hid
      exact ⟨r, hr, (listed_stands id' r).kept s t ht he hl⟩
    refine wpE_bind hs (fun _ => hA) (wpE_mono ?_ (fun _ _ _ h => h) (wpE_inspect hs hA hAs))
    rintro r t ht hAt
    refine wpE_bind ht (fun _ => hA) (wpE_mono ?_ (fun _ _ _ h => h.1)
      (ih (hA.and (listed_stands id r).kept) ht hAt))
    rintro rs u hu ⟨⟨hAu, hlu⟩, hall⟩
    refine wpE_pure (hkeep _) ⟨hAu, fun id' hid => ?_⟩
    rcases List.mem_cons.mp hid with rfl | hid
    · exact ⟨r, List.mem_cons_self, hlu⟩
    · obtain ⟨r', hr', hl⟩ := hall id' hid
      exact ⟨r', List.mem_cons_of_mem _ hr', hl⟩

/-- Under the index lock a covering list stays one. -/
theorem covers_stands (rs : List Record) :
    Stands decode i fun w => w.locks .index = some i ∧ Covers rs w := by
  rintro j hj s t hs ht hg ⟨hlock, hcovers⟩
  refine ⟨locked_stands .index j hj s t hs ht hg hlock, fun id r hr => ?_⟩
  cases hold : s.records.lookup id with
  | none =>
    have hj' := hg.created id r hold hr
    rw [hlock] at hj'
    exact absurd (Option.some.inj hj').symm hj
  | some r₀ =>
    obtain ⟨sib, hmem, hid, hsib⟩ := hcovers id r₀ hold
    obtain ⟨r', hr', hcase⟩ := hg.kept id r₀ hold
    obtain rfl := Option.some.inj (hr.symm.trans hr')
    rcases hcase with rfl | ⟨-, hset⟩
    · exact ⟨sib, hmem, hid, hsib⟩
    · exact ⟨sib, hmem, hid, hsib.trans hset⟩

/-- **A list under the index lock covers the directory.** -/
theorem wpE_list {j : Authority} (hs : Inv s) (hA : Keeps decode i A)
    (hlock : ∀ w, A w → w.locks .index = some i) (hAs : A s) :
    WPE decode i (Journal.list j) (fun rs w => A w ∧ Covers rs w) (fun _ => A) s := by
  have hQ : ∀ rs, Keeps decode i fun w => A w ∧ Covers rs w := fun rs s t ht he h =>
    ⟨hA s t ht he h.1, ((covers_stands rs).kept s t ht he ⟨hlock s h.1, h.2⟩).2⟩
  have hnames : ∀ ids : List String, Keeps decode i fun w => A w ∧
      ∀ id r, w.records.lookup id = some r → id ∈ ids := fun ids s t ht he h =>
    ⟨hA s t ht he h.1, ((names_stands ids).kept s t ht he ⟨hlock s h.1, h.2⟩).2⟩
  refine wpE_step hs (fun _ => hA) (wp_read (e := .readDir) trivial hA hAs
    (fun _ => wpE_kept _ _ _) ?_)
  intro t ht hAt ch a hx
  refine wpE_bind ht (fun _ => hA) (wpE_of (fun _ => wpE_kept _ _ _) (fun _ => hA)
    (fun ids hids => ?_) fun _ _ => hAt)
  have hkeys : ∀ id r, t.records.lookup id = some r → id ∈ ids := by
    intro id r hr
    have hmem : id ∈ t.records.keys :=
      AList.mem_keys.mp (AList.lookup_isSome.mp (by rw [hr]; rfl))
    simp only [exec, Journal.orFail] at hx
    split at hx <;> cases hx
    · cases hids
      exact hmem
    · cases hids
  refine wpE_bind ht (fun _ => hA) (wpE_mono ?_ (fun _ _ _ h => h.1)
    (wpE_inspectAll ids (hnames ids) ht ⟨hAt, hkeys⟩))
  rintro rs u hu ⟨⟨hAu, hkeysu⟩, hall⟩
  refine wpE_pure (hQ _) ⟨hAu, fun id r hr => ?_⟩
  obtain ⟨r', hmem, hid, r'', hr'', hset⟩ := hall id (hkeysu id r hr)
  obtain rfl := Option.some.inj (hr.symm.trans hr'')
  exact ⟨r', Journal.mem_sortByID.mpr hmem, hid, hset⟩

end Lists

/-! ## 7. Acquiring -/

section Acquiring

variable {decode : Decoder} {A : World → Prop} {j : Authority} {held : Option String}

/-- A handle of a record that the process created has its lock, and the record as it was written. -/
def Owned (i : Nat) (h : Handle) (w : World) : Prop :=
  h.resumed = false → h.closed = false → h.poisoned = false →
    (w.locks h.lockName = some i ∧ w.records.lookup h.record.id = some h.record.stored) ∧
      Journal.validState h.record.state = true

theorem owned_stands (h : Handle) : Stands decode i (Owned i h) := by
  intro k hk s t hs ht hg hown h1 h2 h3
  obtain ⟨hheld, hvalid⟩ := hown h1 h2 h3
  exact ⟨record_stands _ _ k hk s t hs ht hg hheld, hvalid⟩

theorem owned_plain (h : Handle) : Plain (Owned i h) := by
  intro s t hsame hown
  unfold Owned
  rw [hsame.locks, hsame.records]
  exact hown

/-- Inside the index lock, perhaps with the lock of an earlier generation. -/
structure Site (i : Nat) (held : Option String) (w : World) : Prop extends Inside i w where
  held : ∀ id ∈ held, w.locks (.record id) = some i

theorem site_stands : Stands decode i (Site i held) := by
  intro k hk s t hs ht hg h
  exact ⟨inside_stands k hk s t hs ht hg h.toInside,
    fun id hid => locked_stands _ k hk s t hs ht hg (h.held id hid)⟩

theorem site_plain : Plain (Site i held) := by
  intro s t hsame h
  refine ⟨⟨?_, ?_⟩, ?_⟩
  · rw [hsame.locks]
    exact h.lock
  · rw [hsame.planning]
    exact h.planning
  · rw [hsame.locks]
    exact h.held

/-- The site of a record that is not there yet. -/
def Vacant (i : Nat) (held : Option String) (id : String) (w : World) : Prop :=
  Site i held w ∧ w.records.lookup id = none

theorem vacant_keeps (id : String) : Keeps decode i (Vacant i held id) := by
  intro s t ht he h
  exact ⟨site_stands.kept s t ht he h.1,
    ((absent_stands id).kept s t ht he ⟨h.1.lock, h.2⟩).2⟩

theorem vacant_plain (id : String) : Plain (Vacant i held id) := by
  intro s t hsame h
  refine ⟨site_plain s t hsame h.1, ?_⟩
  rw [hsame.records]
  exact h.2

/-- What is left of it while the callback runs. -/
def Busy (i : Nat) (held : Option String) (id : String) (w : World) : Prop :=
  (∀ id ∈ held, w.locks (.record id) = some i) ∧
    w.locks .index = some i ∧ w.records.lookup id = none

theorem busy_keeps (id : String) : Keeps decode i (Busy i held id) := by
  rintro s t ht he ⟨hheld, habsent⟩
  exact ⟨fun id hid => (locked_stands _).kept s t ht he (hheld id hid),
    (absent_stands id).kept s t ht he habsent⟩

/-- **Planning.**  The callback is given a list that covers the directory. -/
theorem wpE_runPlan {id agentID : String} (p : ManagedVMFirstPlacement) (hs : Inv s)
    (h : Vacant i held id s) :
    WPE decode i (Journal.runPlan j id agentID {} (some (p.callback decode)))
      (fun _ => Vacant i held id) (fun _ => Vacant i held id) s := by
  have hV : Keeps decode i (Vacant i held id) := vacant_keeps id
  refine wpE_bind hs (fun _ => hV) (wpE_mono ?_ (fun _ _ _ h => h)
    (wpE_list hs hV (fun _ h => h.1.lock) h))
  intro siblings t ht hcovered
  have hC : Keeps decode i fun w => Vacant i held id w ∧ Covers siblings w :=
    fun s t ht he h => ⟨hV s t ht he h.1,
      ((covers_stands siblings).kept s t ht he ⟨h.1.1.lock, h.2⟩).2⟩
  refine wpE_step ht (fun _ => hV) (wp_planBegin hC hcovered (fun _ => wpE_kept _ _ _) ?_)
  rintro u hu ⟨⟨hsite, hnone⟩, hcovers⟩
  refine ⟨hsite.lock, hcovers, ?_⟩
  have hu' : Inv (u.planStarted i ⟨agentID, siblings⟩) := inv_planStarted hu hsite.lock hcovers
  have hbusy : Busy i held id (u.planStarted i ⟨agentID, siblings⟩) :=
    ⟨hsite.held, hsite.lock, hnone⟩
  refine wpE_step hu' (fun _ => hV) (wp_ret (fun _ => wp_kept _ _ _) ?_)
  refine wpE_step hu' (fun _ => hV) (wp_planEnd (busy_keeps id) hbusy (fun _ => wpE_kept _ _ _) ?_)
  rintro v hv ⟨hheld, hlock, hnone'⟩
  have hv' := inv_planEnded (i := i) hv
  have hvacant : Vacant i held id (v.setPlanning i none) :=
    ⟨⟨⟨hlock, by simp [World.setPlanning]⟩, hheld⟩, hnone'⟩
  split
  · exact wpE_pure hV hvacant
  · refine wpE_step hv' (fun _ => hV) (wp_mono ?_
      (wp_aside (p := Journal.planRejected) ⟨trivial, fun _ => trivial⟩ hV
        (vacant_plain id) hvacant))
    intro _ x _ hx
    exact wpE_fail (fun _ => hV) hx

theorem validState_of_record {r : Record} (h : Journal.validateRecord r = .ok ()) :
    Journal.validState r.state = true := by
  unfold Journal.validateRecord Journal.validateIdentity at h
  simp only [Lib.Check.check_bind_eq_ok, Lib.Check.refuse_eq_ok, Bool.or_eq_false_iff,
    Bool.not_eq_false'] at h
  exact h.1.1.1.2

/-- The record of a new generation is under the new name. -/
theorem wpE_generationRecord {id agentID : String} (intent : Journal.Intent) (hs : Inv s)
    (h : Vacant i held id s) :
    WPE decode i (Journal.generationRecord j id agentID intent)
      (fun r w => Vacant i held id w ∧ r.id = id ∧ Journal.validState r.state = true)
      (fun _ => Vacant i held id) s := by
  have hV : Keeps decode i (Vacant i held id) := vacant_keeps id
  have hQ : ∀ r : Record, Keeps decode i fun w =>
      Vacant i held id w ∧ r.id = id ∧ Journal.validState r.state = true :=
    fun r s t ht he h => ⟨hV s t ht he h.1, h.2⟩
  have hnew : WPE decode i (Journal.newRecord j id .vm agentID intent)
      (fun r w => Vacant i held id w ∧ r.id = id ∧ Journal.validState r.state = true)
      (fun _ => Vacant i held id) s := by
    refine wpE_bind hs (fun _ => hV) (wpE_of (fun _ => wpE_kept _ _ _) (fun _ => hV)
      (fun _ _ => ?_) fun _ _ => h)
    refine wpE_step hs (fun _ => hV) (wp_mono ?_
      (wp_aside (p := Journal.timeNow (.create intent)) ⟨trivial, fun _ => trivial⟩ hV
        (vacant_plain id) h))
    intro now t _ ht
    refine wpE_of hQ (fun _ => hV) (fun r hr => ⟨ht, ?_⟩) fun _ _ => ht
    have hmade := (Journal.recordAt_spec hr).1
    exact ⟨hmade.id_eq, validState_of_record hmade.valid⟩
  refine wpE_step hs (fun _ => hV) (wp_mono ?_ hnew)
  intro r t ht hr
  cases r with
  | ok r => exact wpE_pure (hQ r) hr
  | error e =>
    refine wpE_step ht (fun _ => hV) (wp_mono ?_
      (wp_aside (p := Journal.planRejected) ⟨trivial, fun _ => trivial⟩ hV (vacant_plain id) hr))
    intro _ u _ hu
    exact wpE_fail (fun _ => hV) hu

/-- What a creation leaves behind: a handle on a record whose lock was not held before. -/
def Created (i : Nat) (held : Option String) (h : Handle) (w : World) : Prop :=
  Site i held w ∧ Owned i h w ∧ ∀ id ∈ held, id ≠ h.record.id

theorem created_keeps (h : Handle) : Keeps decode i (Created i held h) := by
  rintro s t ht he ⟨hsite, hown, hne⟩
  exact ⟨site_stands.kept s t ht he hsite, (owned_stands h).kept s t ht he hown, hne⟩

/-- A record that was claimed, and is not written yet. -/
def Claimed (i : Nat) (held : Option String) (id : String) (w : World) : Prop :=
  Vacant i held id w ∧ w.locks (.record id) = some i ∧ ∀ id' ∈ held, id' ≠ id

theorem claimed_keeps (id : String) : Keeps decode i (Claimed i held id) := by
  rintro s t ht he ⟨hvacant, hlock, hne⟩
  exact ⟨vacant_keeps id s t ht he hvacant, (locked_stands _).kept s t ht he hlock, hne⟩

theorem claimed_plain (id : String) : Plain (Claimed i held id) := by
  rintro s t hsame ⟨hvacant, hlock, hne⟩
  refine ⟨vacant_plain id s t hsame hvacant, ?_, hne⟩
  rw [hsame.locks]
  exact hlock

theorem inside_released {n : LockName} (h : Inside i s) (hn : n ≠ .index) :
    Inside i (s.released n i) := by
  refine ⟨?_, ?_⟩
  · rw [Journal.released_locks_ne fun he => hn he.symm]
    exact h.lock
  · rw [Journal.released_planning]
    exact h.planning

theorem site_released {n : LockName} (h : Site i held s) (hn : n ≠ .index)
    (hheld : ∀ id ∈ held, n ≠ .record id) : Site i held (s.released n i) := by
  refine ⟨inside_released h.toInside hn, fun id hid => ?_⟩
  rw [Journal.released_locks_ne fun he => hheld id hid he.symm]
  exact h.held id hid

/-- What a claim whose record may be written or not leaves to be released. -/
def Spent (i : Nat) (held : Option String) (id : String) (w : World) : Prop :=
  Site i held w ∧ ∀ id' ∈ held, id' ≠ id

theorem spent_keeps (id : String) : Keeps decode i (Spent i held id) := by
  rintro s t ht he ⟨hsite, hne⟩
  exact ⟨site_stands.kept s t ht he hsite, hne⟩

/-- The two writes of a new generation, index first. -/
theorem wpE_writeGeneration {idx : Journal.Index} {r : Record} (hs : Inv s)
    (hvalid : Journal.validState r.state = true) (h : Claimed i held r.id s) :
    WPE decode i (do
        Journal.writeIndex j idx
        Journal.writeRecord j r
        pure { record := r } : M Handle)
      (Created i held) (fun _ => Spent i held r.id) s := by
  have hS : Keeps decode i (Spent i held r.id) := spent_keeps r.id
  have hspent : ∀ w, Claimed i held r.id w → Spent i held r.id w := fun w hw => ⟨hw.1.1, hw.2.2⟩
  have hindex : Prog.Only Aside (ExceptT.run (Journal.writeIndex j idx)) :=
    ⟨trivial, fun _ => trivial⟩
  refine wpE_skip hs (fun _ => hS) hindex (claimed_keeps r.id) (claimed_plain r.id) h
    (fun _ t _ ht => hspent t ht) ?_
  intro _ t ht hclaimed
  refine wpE_bind ht (fun _ => hS) (wpE_step ht (fun _ => hS)
    (wp_replaceRecord (claimed_keeps r.id) hclaimed (fun _ => wpE_kept _ _ _) ?_ ?_))
  · intro u _ hu
    exact wpE_fail (fun _ => hS) (hspent u hu)
  · rintro u hu ⟨⟨hsite, hnone⟩, hlock, hne⟩
    have hsite' : Site i held (u.putRecord i j.epoch r) :=
      ⟨⟨hsite.lock, hsite.planning⟩, hsite.held⟩
    refine ⟨inv_created _ _ hu hsite.toInside, guar_created hsite.toInside hnone, fun landed => ?_⟩
    cases landed with
    | false => exact wpE_fail (fun _ => hS) ⟨hsite', hne⟩
    | true =>
      refine wpE_of (fun _ => wpE_kept _ _ _) (fun _ => hS) (fun _ _ => ?_) fun _ he => by cases he
      refine wpE_pure (created_keeps _) ⟨hsite', fun _ _ _ => ⟨⟨hlock, ?_⟩, hvalid⟩, hne⟩
      exact Journal.lookup_putRecord _ _ _ _

/-- **A first placement creates its record** under the index lock, after it planned. -/
theorem wpE_createGeneration {idx : Journal.Index} {agentID : String} (p : ManagedVMFirstPlacement)
    (hs : Inv s) (h : Site i held s) :
    WPE decode i (Journal.createGeneration j agentID {} (some (p.callback decode)) idx)
      (Created i held) (fun _ => Site i held) s := by
  have hS : Keeps decode i (Site i held) := site_stands.kept
  have hid : Prog.Only Aside (ExceptT.run Journal.newAllocationID) := ⟨trivial, fun _ => trivial⟩
  refine wpE_skip hs (fun _ => hS) hid hS site_plain h (fun _ _ _ h => h) ?_
  intro id t ht hsite
  refine wpE_bind ht (fun _ => hS) (wpE_step ht (fun _ => hS) (wp_read (e := .lstat id) trivial hS
    hsite (fun _ => wpE_kept _ _ _) ?_))
  intro u hu hsite' ch a hx
  refine wpE_of (fun _ => wpE_kept _ _ _) (fun _ => hS) (fun _ hok => ?_) fun _ _ => hsite'
  have hvacant : Vacant i held id u := by
    refine ⟨hsite', ?_⟩
    simp only [exec, Journal.orFail] at hx
    split at hx <;> cases hx
    · cases hl : u.records.lookup id with
      | none => rfl
      | some r =>
        rw [hl] at hok
        cases hok
    · cases hok
  refine wpE_bind hu (fun _ => hS) (wpE_mono ?_ (fun _ _ _ h => h.1) (wpE_runPlan p hu hvacant))
  intro intent v hv hvacant
  refine wpE_bind hv (fun _ => hS) (wpE_mono ?_ (fun _ _ _ h => h.1)
    (wpE_generationRecord intent hv hvacant))
  rintro r w hw ⟨hvacant, rfl, hvalid⟩
  refine wpE_bind hw (fun _ => hS) (wpE_step hw (fun _ => hS)
    (wp_tryLockFile (vacant_keeps r.id) hvacant (fun _ => wpE_kept _ _ _) ?_))
  intro x hx hvacant
  refine ⟨wpE_fail (fun _ => hS) hvacant.1, wpE_fail (fun _ => hS) hvacant.1, fun hfree => ?_⟩
  have hx' := inv_take (i := i) hx hfree
  have hne : ∀ id' ∈ held, id' ≠ r.id := by
    rintro id' hid' rfl
    rw [hvacant.1.held _ hid'] at hfree
    cases hfree
  have hclaimed : Claimed i held r.id (x.setLock (.record r.id) (some i)) := by
    refine ⟨⟨⟨⟨?_, hvacant.1.planning⟩, fun id' hid' => ?_⟩, hvacant.2⟩, ?_, hne⟩
    · simpa [World.setLock] using hvacant.1.lock
    · simpa [World.setLock, hne id' hid'] using hvacant.1.held id' hid'
    · simp [World.setLock]
  refine wpE_of (fun _ => wpE_kept _ _ _) (fun _ => hS) (fun _ _ => ?_) fun _ he => by cases he
  refine wpE_step hx' (fun _ => hS) (wp_mono ?_ (wpE_writeGeneration hx' hvalid hclaimed))
  intro res y hy hres
  cases res with
  | ok hd => exact wpE_pure (created_keeps hd) hres
  | error e =>
    refine wpE_step hy (fun _ => hS) (wp_unlockFile (spent_keeps r.id) hres
      (fun _ => wpE_kept _ _ _) ?_)
    rintro z _ ⟨hsite, hne⟩
    refine ⟨hsite.planning,
      fun closed => wpE_fail (fun _ => hS) (site_released hsite (fun h => by cases h) ?_)⟩
    intro id' hid' heq
    exact hne id' hid' (by cases heq; rfl)

/-- Resuming reads under the lock of the record, and gives a handle that is marked as resumed. -/
theorem wpE_resumeGeneration (agentID id : String) (hs : Inv s) (h : Site i held s) :
    WPE decode i (Journal.resumeGeneration j agentID id {})
      (fun o w => Site i held w ∧ ∀ hd, o = some hd → hd.resumed = true)
      (fun _ => Site i held) s := by
  have hS : Keeps decode i (Site i held) := site_stands.kept
  have hQ : ∀ o : Option Handle, Keeps decode i fun w =>
      Site i held w ∧ ∀ hd, o = some hd → hd.resumed = true :=
    fun o s t ht he h => ⟨hS s t ht he h.1, h.2⟩
  have hread : (ExceptT.run (Journal.inspect j id)).Only Aside :=
    aside_of_readOnly (Journal.readOnly_inspect j id)
  refine wpE_step hs (fun _ => hS) (wp_mono ?_ (wp_aside hread hS site_plain h))
  intro r t ht hsite
  cases r with
  | error e => exact wpE_fail (fun _ => hS) hsite
  | ok r =>
    refine wpE_bind ht (fun _ => hS) (wpE_of (fun _ => wpE_kept _ _ _) (fun _ => hS)
      (fun _ _ => ?_) fun _ _ => hsite)
    split
    · refine wpE_pure (hQ none) ⟨hsite, ?_⟩
      intro hd hhd
      cases hhd
    · refine wpE_bind ht (fun _ => hS) (wpE_of (fun _ => wpE_kept _ _ _) (fun _ => hS)
        (fun _ _ => ?_) fun _ _ => hsite)
      refine wpE_pure (hQ (some _)) ⟨hsite, ?_⟩
      intro hd hhd
      cases hhd
      rfl

/-- What an acquisition leaves behind under the index lock. -/
def Under (i : Nat) (u : Journal.UnderIndex) (w : World) : Prop :=
  Inside i w ∧ ∀ h, u.handle = some h → Owned i h w

theorem under_keeps (u : Journal.UnderIndex) : Keeps decode i (Under i u) := by
  rintro s t ht he ⟨hin, hown⟩
  exact ⟨inside_stands.kept s t ht he hin,
    fun h hh => (owned_stands h).kept s t ht he (hown h hh)⟩

theorem under_error {e : Option Err} {busy : Bool} (h : Inside i s) :
    Under i { busy := busy, err := e } s := by
  refine ⟨h, fun hd hhd => ?_⟩
  cases hhd

theorem under_of {r : Except Err Handle} {closed : Bool} (h : Inside i s)
    (hr : ∀ hd, r = .ok hd → Owned i hd s) : Under i (.of r closed) s := by
  cases r with
  | error e => exact under_error h
  | ok hd =>
    refine ⟨h, fun hd' hhd => ?_⟩
    cases hhd
    exact hr hd rfl

theorem owned_of_resumed {h : Handle} (hres : h.resumed = true) : Owned i h s := by
  intro hfresh
  rw [hres] at hfresh
  cases hfresh

theorem owned_released {h : Handle} {n : LockName} (hown : Owned i h s) (hn : h.lockName ≠ n) :
    Owned i h (s.released n i) := by
  intro h1 h2 h3
  rw [Journal.released_locks_ne hn, released_records]
  exact hown h1 h2 h3

/-- Closing the lock of an earlier generation, with a new one created or not. -/
theorem wp_closeEarlier {id : String} {r : Except Err Handle} (hs : Inv s)
    (h : Outcome (S := placementSys decode) (Created i (some id)) (fun _ => Site i (some id)) r s) :
    WP decode i (do
        let closed ← Journal.unlockFile (.record id)
        pure (Journal.UnderIndex.of r closed)) (Under i) s := by
  have hkeeps : Keeps decode i fun w => Inside i w ∧
      ∀ hd, r = .ok hd → Owned i hd w ∧ hd.record.id ≠ id := fun s t ht he h =>
    ⟨inside_stands.kept s t ht he h.1,
      fun hd hhd => ⟨(owned_stands hd).kept s t ht he (h.2 hd hhd).1, (h.2 hd hhd).2⟩⟩
  have hin : Inside i s ∧ ∀ hd, r = .ok hd → Owned i hd s ∧ hd.record.id ≠ id := by
    cases r with
    | error e => exact ⟨Site.toInside h, fun hd hhd => by cases hhd⟩
    | ok hd =>
      have hc : Created i (some id) hd s := h
      refine ⟨hc.1.toInside, fun hd' hhd => ?_⟩
      cases hhd
      exact ⟨hc.2.1, fun he => hc.2.2 id rfl he.symm⟩
  refine wp_bind (wp_unlockFile hkeeps hin (fun _ => wp_kept _ _) ?_) hs
  intro y _ hy
  refine ⟨hy.1.planning, fun closed => wp_ret (under_keeps _) (under_of ?_ fun hd hhd => ?_)⟩
  · exact inside_released hy.1 nofun
  · refine owned_released (hy.2 hd hhd).1 fun heq => (hy.2 hd hhd).2 ?_
    simpa [Handle.lockName] using heq

/-- Under the lock of the indexed generation: it is resumed, or a new one is created. -/
theorem wp_afterResume {idx : Journal.Index} {agentID id : String} (p : ManagedVMFirstPlacement)
    (hs : Inv s) (h : Site i (some id) s) :
    WP decode i (do
        let resumed ← (Journal.resumeGeneration j agentID id {}).run
        match resumed with
        | .ok (some h) => pure { handle := some h }
        | .error e => do
          let closed ← Journal.unlockFile (.record id)
          pure (.of (.error e) closed)
        | .ok none => do
          let created ← (Journal.createGeneration j agentID {} (some (p.callback decode)) idx).run
          let closed ← Journal.unlockFile (.record id)
          pure (.of created closed)) (Under i) s := by
  refine wp_bind (wp_mono ?_ (wpE_resumeGeneration agentID id hs h)) hs
  intro o v hv ho
  rcases o with e | _ | hd
  · exact wp_closeEarlier hv ho
  · refine wp_bind (wp_mono ?_ (wpE_createGeneration p hv ho.1)) hv
    intro r x hx hr
    exact wp_closeEarlier hx hr
  · refine wp_ret (under_keeps _) ⟨ho.1.toInside, fun hd' hhd => ?_⟩
    cases hhd
    exact owned_of_resumed (ho.2 hd rfl)

/-- Under the index lock a first placement resumes what it finds, or plans and creates; the plan is
made from the siblings that were read under the same lock. -/
theorem wp_acquireVMUnderIndex {agentID : String} (p : ManagedVMFirstPlacement) (hs : Inv s)
    (h : Inside i s) :
    WP decode i (Journal.acquireVMUnderIndex j agentID {} (some (p.callback decode))) (Under i)
      s := by
  have hN : Keeps decode i (Site i none) := site_stands.kept
  have hread : Journal.ReadOnly (Journal.readGenerations j) :=
    ((Journal.readOnly_readAuthority _).bind fun _ => Journal.readOnly_check _).bind fun _ =>
      Journal.readOnly_readIndex.bind fun idx =>
        (Journal.readOnly_validateGenerationIndex j idx).bind fun _ => Journal.readOnly_pure _
  have hsite : Site i none s := ⟨h, fun _ hid => by cases hid⟩
  refine wp_bind (wp_mono ?_ (wp_aside (aside_of_readOnly hread) hN site_plain hsite)) hs
  intro idx t ht hsite
  cases idx with
  | error e => exact wp_ret (under_keeps _) (under_error hsite.toInside)
  | ok idx =>
    dsimp only
    split
    · refine wp_bind (wp_mono ?_ (wpE_createGeneration p ht hsite)) ht
      intro r u _ hr
      cases r with
      | error e => exact wp_ret (under_keeps _) (under_error (Site.toInside hr))
      | ok hd =>
        have hc : Created i none hd u := hr
        refine wp_ret (under_keeps _) (under_of hc.1.toInside fun hd' hhd => ?_)
        cases hhd
        exact hc.2.1
    · refine wp_bind (wp_tryLockFile hN hsite (fun _ => wp_kept _ _) ?_) ht
      intro u hu hsite
      refine ⟨wp_ret (under_keeps _) (under_error hsite.toInside),
        wp_ret (under_keeps _) (under_error hsite.toInside), fun hfree => ?_⟩
      refine wp_afterResume p (inv_take hu hfree) ⟨⟨?_, hsite.planning⟩, fun id' hid' => ?_⟩
      · simpa [World.setLock] using hsite.lock
      · rw [← Option.some.inj hid']
        simp [World.setLock]

/-- A handle, with no callback running. -/
def Handed (i : Nat) (o : Option Handle) (w : World) : Prop :=
  w.planning i = none ∧ ∀ h, o = some h → Owned i h w

theorem handed_keeps (o : Option Handle) : Keeps decode i (Handed i o) := by
  rintro s t ht he ⟨hp, hown⟩
  exact ⟨unplanned_stands.kept s t ht he hp,
    fun h hh => (owned_stands h).kept s t ht he (hown h hh)⟩

theorem unplanned_plain : Plain fun w => w.planning i = none := by
  intro s t hsame h
  rw [hsame.planning]
  exact h

/-! ## 8. Saving

A save of the journal changes evidence and state, never the plan. -/

/-- A save that the journal admits keeps the plan. -/
theorem settled_save {r next : Record} (h : Journal.Update r next)
    (hrest : storageAllocationCharging next.state = true → storageAllocationCharging r.state = true)
    (now : Journal.Time) : Settled r.stored { next with updatedAt := now }.stored := by
  have hid : (Journal.withMutable r next).id = next.id := congrArg Record.id h.same
  have hintent : r.intent = next.intent := by
    have heq : (Journal.withMutable r next).intent = next.intent := congrArg Record.intent h.same
    exact heq
  have hattempts : r.attempts = next.attempts := by
    have heq : (Journal.withMutable r next).attempts = next.attempts :=
      congrArg Record.attempts h.same
    exact heq
  refine ⟨hid.symm, ?_, hrest⟩
  simp only [activePlan, Record.stored, hintent, hattempts]

theorem getLast_closeLast {attempts : List Journal.Attempt} (v : Journal.AttemptVerification)
    {a : Journal.Attempt} (h : attempts.getLast? = some a) :
    (Journal.closeLast attempts v).getLast? = some { a with completion := some v } := by
  rw [Journal.closeLast, h]
  simp

theorem charging_of_retryEligible {r : Record} (h : Journal.RetryEligible r)
    (hvalid : Journal.validState r.state = true) : storageAllocationCharging r.state = true := by
  cases hstate : r.state with
  | planned | submitted | observed | reconciliationRequired => rfl
  | readyToReturn => exact absurd hstate h.readyToReturn
  | adopted => exact absurd hstate h.adopted
  | deleted | cleaned | vmDeletedRetained =>
    have hopen := h.open_
    rw [hstate] at hopen
    cases hopen
  | other text =>
    rw [hstate] at hvalid
    cases hvalid

/-- So does the completion of an attempt. -/
theorem settled_complete {r next : Record} {v : Journal.AttemptVerification}
    (h : Journal.completeAttemptRecord r v = .ok next) (hvalid : Journal.validState r.state = true)
    (now : Journal.Time) : Settled r.stored { next with updatedAt := now }.stored ∧ next.id = r.id ∧
      Journal.validState next.state = true := by
  simp only [Journal.completeAttemptRecord, Lib.Check.check_bind_eq_ok, Lib.Check.pure_eq_ok] at h
  obtain ⟨heligible, -, -, -, rfl⟩ := h
  have hcharging := charging_of_retryEligible (Journal.retryEligible_iff.mp heligible) hvalid
  refine ⟨⟨rfl, ?_, fun _ => hcharging⟩, rfl, rfl⟩
  unfold activePlan
  simp only [Record.stored, List.getLast?_map]
  cases hlast : r.attempts.getLast? with
  | none =>
    have hnil : r.attempts = [] := List.getLast?_eq_none_iff.mp hlast
    have hinitial : (Journal.attemptsOrInitial r).getLast? =
        some { number := 0, plan := Journal.initialPlan r.intent } := by
      simp [Journal.attemptsOrInitial, hnil]
    rw [getLast_closeLast v hinitial]
    rfl
  | some a =>
    have hinitial : (Journal.attemptsOrInitial r).getLast? = some a := by
      have hne : r.attempts ≠ [] := by
        rintro hnil
        rw [hnil] at hlast
        cases hlast
      simp [Journal.attemptsOrInitial, hne, hlast]
    rw [getLast_closeLast v hinitial]
    rfl

/-- The process holds a record, and runs no callback. -/
structure Holding (i : Nat) (id : String) (r : Record) (w : World) : Prop where
  planning : w.planning i = none
  lock : w.locks (.record id) = some i
  record : w.records.lookup id = some r

theorem holding_keeps (id : String) (r : Record) : Keeps decode i (Holding i id r) := by
  intro s t ht he h
  obtain ⟨hlock, hrecord⟩ := (record_stands id r).kept s t ht he ⟨h.lock, h.record⟩
  exact ⟨unplanned_stands.kept s t ht he h.planning, hlock, hrecord⟩

theorem holding_plain (id : String) (r : Record) : Plain (Holding i id r) := by
  intro s t hsame h
  refine ⟨?_, ?_, ?_⟩
  · rw [hsame.planning]
    exact h.planning
  · rw [hsame.locks]
    exact h.lock
  · rw [hsame.records]
    exact h.record

/-- **A save lands under the lock of its record**, and the record settles. -/
theorem wpE_writeRecord {r r₀ : Record} (hs : Inv s) (h : Holding i r.id r₀ s)
    (hset : Settled r₀ r.stored) :
    WPE decode i (Journal.writeRecord j r) (fun _ => Holding i r.id r.stored)
      (fun _ w => w.planning i = none) s := by
  have hU : Keeps decode i fun w => w.planning i = none := unplanned_stands.kept
  refine wpE_step hs (fun _ => hU) (wp_replaceRecord (holding_keeps r.id r₀) h
    (fun _ => wpE_kept _ _ _) ?_ ?_)
  · intro t _ ht
    exact wpE_fail (fun _ => hU) ht.planning
  · intro t ht hheld
    refine ⟨inv_saved ht hheld.record hset, guar_saved hheld.lock hheld.record hset,
      fun landed => ?_⟩
    cases landed with
    | false => exact wpE_fail (fun _ => hU) hheld.planning
    | true =>
      exact wpE_pure (holding_keeps _ _)
        ⟨hheld.planning, hheld.lock, Journal.lookup_putRecord _ _ _ _⟩

theorem handed_poisoned {h : Handle} (hp : s.planning i = none) :
    Handed i (some { h with poisoned := true }) s := by
  refine ⟨hp, fun h' hh => ?_⟩
  cases hh
  intro _ _ hpoisoned
  cases hpoisoned

/-- The end of a save: the record lands and settles, or the handle is poisoned. -/
theorem wp_persist {h : Handle} {next : Record} (hs : Inv s)
    (hheld : Holding i next.id h.record.stored s)
    (hset : ∀ now, Settled h.record.stored { next with updatedAt := now }.stored)
    (hvalid : Journal.validState next.state = true) :
    WP decode i (Journal.persist j h next) (fun r => Handed i (some r.2)) s := by
  refine wp_bind
    (wp_mono ?_ (wp_aside (p := Journal.timeNow (.save next)) ⟨trivial, fun _ => trivial⟩
    (holding_keeps _ _) (holding_plain _ _) hheld)) hs
  intro now t ht hheld
  refine wp_bind
    (wp_mono ?_ (wpE_writeRecord (r := { next with updatedAt := now }) ht hheld (hset now))) ht
  intro landed u _ hu
  cases landed with
  | error e => exact wp_ret (handed_keeps _) (handed_poisoned hu)
  | ok a =>
    refine wp_ret (handed_keeps _) ⟨hu.planning, fun h' hh => ?_⟩
    cases hh
    exact fun _ _ _ => ⟨⟨hu.lock, hu.record⟩, hvalid⟩

/-- A save through a fresh handle.  The caller shows that the replacement keeps the plan
(`Settled`); the rest is the frame. -/
theorem wp_saveLocked {h : Handle} {next : Record} {b : Bool} (hs : Inv s)
    (hp : s.planning i = none) (hfresh : h.resumed = false) (hown : Owned i h s)
    (hset : Journal.admitSave h.record h.requiresReconciliation b next = .ok () →
      Journal.validState h.record.state = true →
      (∀ now, Settled h.record.stored { next with updatedAt := now }.stored) ∧
        next.id = h.record.id ∧ Journal.validState next.state = true) :
    WP decode i (Journal.saveLocked j h next b) (fun r => Handed i (some r.2)) s := by
  have hH : Keeps decode i (Handed i (some h)) := handed_keeps _
  have hhanded : Handed i (some h) s := by
    refine ⟨hp, fun h' hh => ?_⟩
    cases hh
    exact hown
  have hplain : Plain (Handed i (some h)) := by
    intro s t hsame hst
    refine ⟨unplanned_plain s t hsame hst.1, fun h' hh => ?_⟩
    exact owned_plain h' s t hsame (hst.2 h' hh)
  unfold Journal.saveLocked
  split
  · exact wp_ret (handed_keeps _) hhanded
  · rename_i hclosed
    split
    · exact wp_ret (handed_keeps _) hhanded
    · rename_i hpoisoned
      have hread : Prog.Only Aside (ExceptT.run (Journal.checkAuthority j)) :=
        aside_of_readOnly
          ((Journal.readOnly_readAuthority _).bind fun _ => Journal.readOnly_check _)
      refine wp_bind (wp_mono ?_ (wp_aside hread hH hplain hhanded)) hs
      intro authorized t ht hhanded
      cases authorized with
      | error e => exact wp_ret (handed_keeps _) hhanded
      | ok a =>
        dsimp only
        split
        · exact wp_ret (handed_keeps _) hhanded
        · rename_i hadmit
          split
          · exact wp_ret (handed_keeps _) hhanded
          · obtain ⟨⟨hlock, hrecord⟩, hvalid⟩ := hhanded.2 h rfl hfresh
              (Bool.eq_false_iff.mpr hclosed) (Bool.eq_false_iff.mpr hpoisoned)
            obtain ⟨hsettled, hid, hnext⟩ := hset hadmit hvalid
            refine wp_persist ht ⟨hhanded.1, ?_, ?_⟩ hsettled hnext
            · rw [hid]
              exact hlock
            · rw [hid]
              exact hrecord

theorem wp_close {h : Handle} (hp : s.planning i = none) :
    WP decode i h.close (fun _ w => w.planning i = none) s := by
  unfold Handle.close
  split
  · exact wp_ret unplanned_stands.kept hp
  · refine wp_unlockFile unplanned_stands.kept hp (fun _ => unplanned_stands.kept) ?_
    intro t _ ht
    refine ⟨ht, fun _ => ?_⟩
    rw [Journal.released_planning]
    exact ht

/-- One pass of the loop, with the index lock released on every way out. -/
theorem wpE_acquirePass {agentID : String} (p : ManagedVMFirstPlacement) (hs : Inv s)
    (hp : s.planning i = none) :
    WPE decode i (Journal.acquirePass j agentID {} (some (p.callback decode)))
      (Handed i) (fun _ w => w.planning i = none) s := by
  have hU : Keeps decode i fun w => w.planning i = none := unplanned_stands.kept
  refine wpE_bind hs (fun _ => hU) (wpE_step hs (fun _ => hU)
    (wp_lockFile hU hp (fun _ => wpE_kept _ _ _) ?_))
  intro t ht hpt
  refine ⟨wpE_fail (fun _ => hU) hpt, fun hfree => ?_⟩
  have ht' := inv_take (i := i) ht hfree
  have hin : Inside i (t.setLock .index (some i)) := ⟨by simp [World.setLock], hpt⟩
  refine wpE_of (fun _ => wpE_kept _ _ _) (fun _ => hU) (fun _ _ => ?_) fun _ he => by cases he
  refine wpE_step ht' (fun _ => hU) (wp_mono ?_ (wp_acquireVMUnderIndex p ht' hin))
  intro r u hu hr
  refine wpE_step hu (fun _ => hU) (wp_unlockFile (under_keeps r) hr (fun _ => wpE_kept _ _ _) ?_)
  rintro v hv ⟨hin, hown⟩
  refine ⟨hin.planning, fun closed => ?_⟩
  have hv' : Inv (v.released .index i) := inv_released hv hin.planning
  have hpv : (v.released .index i).planning i = none := by
    rw [Journal.released_planning]
    exact hin.planning
  split
  · refine wpE_step hv' (fun _ => hU) (wp_mono ?_ (?_ : WP decode i (Journal.releaseHandle r.handle)
      (fun _ w => w.planning i = none) _))
    · intro released x _ hx
      exact wpE_fail (fun _ => hU) hx
    · cases r.handle with
      | none => exact wp_ret hU hpv
      | some h => exact wp_close hpv
  · refine wpE_pure (handed_keeps _) ⟨hpv, fun h hh => ?_⟩
    have hhandle : r.handle = some h := by
      split at hh
      · cases hh
      · exact hh
    exact owned_released (hown h hhandle) (fun h => by cases h)

/-- The loop over the passes.  The induction is on their number; each pass ends with nothing
held. -/
theorem wpE_acquireVM {agentID : String} (p : ManagedVMFirstPlacement) (passes : Nat) :
    ∀ {s : World}, Inv s → s.planning i = none →
    WPE decode i (Journal.acquireVM j agentID {} (some (p.callback decode)) passes)
      (fun h => Handed i (some h)) (fun _ w => w.planning i = none) s := by
  have hU : Keeps decode i fun w => w.planning i = none := unplanned_stands.kept
  induction passes with
  | zero =>
    intro s hs hp
    refine wpE_bind hs (fun _ => hU) (wpE_mono ?_ (fun _ _ _ h => h) (wpE_acquirePass p hs hp))
    intro o t ht ho
    cases o with
    | some h => exact wpE_pure (handed_keeps _) ho
    | none => exact wpE_fail (fun _ => hU) ho.1
  | succ passes ih =>
    intro s hs hp
    refine wpE_bind hs (fun _ => hU) (wpE_mono ?_ (fun _ _ _ h => h) (wpE_acquirePass p hs hp))
    intro o t ht ho
    cases o with
    | some h => exact wpE_pure (handed_keeps _) ho
    | none => exact ih ht ho.1

theorem wpE_acquireVMChecked {agentID : String} (p : ManagedVMFirstPlacement) (passes : Nat)
    (hs : Inv s) (hp : s.planning i = none) :
    WPE decode i (Journal.acquireVMChecked j agentID {} (some (p.callback decode)) passes)
      (fun h => Handed i (some h)) (fun _ w => w.planning i = none) s := by
  have hU : Keeps decode i fun w => w.planning i = none := unplanned_stands.kept
  refine wpE_bind hs (fun _ => hU) (wpE_of (fun _ => wpE_kept _ _ _) (fun _ => hU)
    (fun _ _ => ?_) fun _ _ => hp)
  refine wpE_bind hs (fun _ => hU) (wpE_of (fun _ => wpE_kept _ _ _) (fun _ => hU)
    (fun _ _ => ?_) fun _ _ => hp)
  exact wpE_acquireVM p passes hs hp

/-- A call on a record that the process created. -/
theorem wp_recordedCall {l : Journal.Local} {h : Handle} {c : Journal.HandleCall} (hs : Inv s)
    (hhanded : Handed i (some h) s)
    (hrun : ∀ t, Inv t → Handed i (some h) t →
      WP decode i (c.run j h) (fun r => Handed i (some r.2)) t) :
    WP decode i (Journal.recordedCall l j h c) (fun l => Handed i l.handle) s := by
  have hobserve : ∀ (o : Option Handle) (id : String) {s : World}, Handed i o s →
      WP decode i (Journal.observe id) (fun _ => Handed i o) s := by
    intro o id s ho
    refine wp_aside ⟨trivial, fun _ => trivial⟩ (handed_keeps o) ?_ ho
    intro s t hsame hst
    exact ⟨unplanned_plain s t hsame hst.1, fun h' hh => owned_plain h' s t hsame (hst.2 h' hh)⟩
  refine wp_bind (wp_mono ?_ (hobserve _ _ hhanded)) hs
  intro before t ht hhanded
  refine wp_bind (wp_mono ?_ (hrun t ht hhanded)) ht
  intro r u hu hr
  refine wp_bind (wp_mono ?_ (hobserve _ _ hr)) hu
  intro after v _ hv
  exact wp_ret (handed_keeps _) hv

/-- An idle process has no handle, or a closed one. -/
theorem handed_idle {l : Journal.Local} (hl : l.idle = true) (hp : s.planning i = none) :
    Handed i l.handle s := by
  refine ⟨hp, fun h hh => ?_⟩
  rw [Journal.Local.idle, hh] at hl
  intro _ hopen
  rw [show h.closed = true from hl] at hopen
  cases hopen

theorem wp_keepHandle {l : Journal.Local} {p : M Handle} (hs : Inv s) (hl : l.idle = true)
    (h : WPE decode i p (fun h => Handed i (some h)) (fun _ w => w.planning i = none) s) :
    WP decode i (Journal.keepHandle l p) (fun l => Handed i l.handle) s := by
  refine wp_bind (wp_mono ?_ h) hs
  intro r t _ hr
  cases r with
  | ok h => exact wp_ret (handed_keeps _) hr
  | error e => exact wp_ret (handed_keeps _) (handed_idle hl hr)

end Acquiring

/-! ## 9. The protocol -/

section Protocol

variable {decode : Decoder}

/-- The save of a first placement. -/
theorem wp_saving {l : Journal.Local} {j : Authority} {h : Handle} {next : Record} (hs : Inv s)
    (hl : Handed i (some h) s) (hfresh : fresh h = true) (hrest : keepsRest h next = true) :
    WP decode i (Journal.recordedCall l j h (.save next)) (fun l => Handed i l.handle) s := by
  refine wp_recordedCall hs hl fun t ht hhanded => ?_
  refine wp_saveLocked ht hhanded.1 (by simpa [fresh] using hfresh) (hhanded.2 h rfl) ?_
  intro hadmit _
  have hupdate := Journal.admitSave_save hadmit
  refine ⟨settled_save hupdate fun hnext => ?_, ?_, validState_of_record hupdate.valid⟩
  · simpa [keepsRest, hnext] using hrest
  · have hid : (Journal.withMutable h.record next).id = next.id := congrArg Record.id hupdate.same
    exact hid.symm

/-- Completing an attempt closes it and keeps its plan, so what it charges stays the same. -/
theorem wp_completing {l : Journal.Local} {j : Authority} {h : Handle}
    {v : Journal.AttemptVerification}
    (hs : Inv s) (hl : Handed i (some h) s) (hfresh : fresh h = true) :
    WP decode i (Journal.recordedCall l j h (.completeAttempt v)) (fun l => Handed i l.handle)
      s := by
  refine wp_recordedCall hs hl fun t ht hhanded => ?_
  unfold Journal.HandleCall.run
  dsimp only
  split
  · exact wp_ret (handed_keeps _) hhanded
  · rename_i next hnext
    refine wp_saveLocked ht hhanded.1 (by simpa [fresh] using hfresh) (hhanded.2 h rfl) ?_
    intro _ hvalid
    exact ⟨fun now => (settled_complete hnext hvalid now).1, (settled_complete hnext hvalid 0).2⟩

/-- A call on the handle is a call on a record that the process created. -/
theorem call_prog {l : Journal.Local} {c : Journal.HandleCall} {f : Handle → Bool}
    {p : P Journal.Local}
    (h : (if l.handle.any f then some (Journal.Op.call c) else none).bind (fun o => o.prog l) =
      some p) :
    ∃ j hd, l.handle = some hd ∧ f hd = true ∧ p = Journal.recordedCall l j hd c := by
  split at h
  · rename_i hany
    obtain ⟨j, -, hj⟩ :=
      Option.bind_eq_some_iff.mp (show (Journal.Op.call c).prog l = some p from h)
    obtain ⟨hd, hhd, rfl⟩ := Option.map_eq_some_iff.mp hj
    rw [hhd] at hany
    exact ⟨j, hd, hhd, hany, rfl⟩
  · cases h

/-- **Every call starts from what the process knows and ends in it.** -/
theorem wp_op {o : PlacementOp} {l : Journal.Local} {p : P Journal.Local} (hs : Inv s)
    (hl : Handed i l.handle s) (hp : (placementSys decode).prog o l = some p) :
    WP decode i p (fun l => Handed i l.handle) s := by
  have hU : Keeps decode i fun w => w.planning i = none := unplanned_stands.kept
  cases o with
  | «open» ns clusterID =>
    have hp' : (Journal.Op.open ns clusterID).prog l = some p := hp
    simp only [Journal.Op.prog] at hp'
    split at hp'
    · rename_i hidle
      cases hp'
      have hread : Prog.Only Aside (ExceptT.run (Journal.openJournal ns clusterID)) :=
        aside_of_readOnly ((Journal.readOnly_readAuthority _).bind fun _ =>
          (Journal.readOnly_check _).bind fun _ => Journal.readOnly_pure _)
      refine wp_bind (wp_mono ?_ (wp_aside hread hU unplanned_plain hl.1)) hs
      intro r t _ ht
      cases r with
      | error e => exact wp_ret (handed_keeps _) (handed_idle hidle ht)
      | ok a =>
        refine wp_ret (handed_keeps _) ⟨ht, fun h hh => ?_⟩
        cases hh
    · cases hp'
  | acquireVMPlanned agentID placement passes =>
    obtain ⟨hidle, j, rfl⟩ := Journal.idle_prog
      (show (Journal.Op.acquireVMPlanned agentID (placement.callback decode) passes).prog l =
        some p from hp)
    exact wp_keepHandle hs hidle (wpE_acquireVMChecked placement passes hs hl.1)
  | save next =>
    obtain ⟨j, h, hh, hf, rfl⟩ := call_prog hp
    rw [Bool.and_eq_true] at hf
    rw [hh] at hl
    exact wp_saving hs hl hf.1 hf.2
  | completeAttempt v =>
    obtain ⟨j, h, hh, hf, rfl⟩ := call_prog hp
    rw [hh] at hl
    exact wp_completing hs hl hf
  | close =>
    obtain ⟨h, hh, rfl⟩ := Option.map_eq_some_iff.mp (show Journal.Op.close.prog l = some p from hp)
    refine wp_bind (wp_mono ?_ (wp_close hl.1)) hs
    intro _ t _ ht
    refine wp_ret (handed_keeps _) ⟨ht, fun h' hh' => ?_⟩
    cases hh'
    intro _ hopen
    cases hopen

theorem inv_halt (hs : Inv s) : Inv (Journal.halt i s) := by
  intro k p hk
  have hki : k ≠ i := by
    rintro rfl
    simp [Journal.halt, World.setPlanning, World.setCall] at hk
  obtain ⟨hlock, hcovers⟩ :=
    hs k p (by simpa [Journal.halt, World.setPlanning, World.setCall, hki] using hk)
  refine ⟨?_, hcovers⟩
  have hne : s.locks .index ≠ some i := by
    rw [hlock]
    exact fun he => hki (Option.some.inj he)
  simp only [Journal.halt, if_neg hne]
  exact hlock

theorem guar_halt : Guar i s (Journal.halt i s) where
  locks n j hj hn := by
    have hne : s.locks n ≠ some i := by
      rw [hn]
      exact fun he => hj (Option.some.inj he)
    simp only [Journal.halt, if_neg hne]
    exact hn
  created id r hnone hsome := by
    rw [show (Journal.halt i s).records = s.records from rfl, hnone] at hsome
    cases hsome
  kept id r hr := ⟨r, hr, .inl rfl⟩
  planning j hj := by simp [Journal.halt, World.setPlanning, World.setCall, hj]

/-- **The rely-guarantee proof of first placements.** -/
def placementProtocol (decode : Decoder) : Protocol (placementSys decode) where
  Inv := Inv
  Guar := Guar
  Loc i l := Handed i l.handle
  start_ok := by
    intro i o l p s hs hl hp
    have hsame : Same s (s.setCall i {}) := ⟨rfl, rfl, rfl⟩
    refine ⟨hsame.inv hs, hsame.guar, wp_op (hsame.inv hs) ?_ hp⟩
    exact ⟨unplanned_plain s _ hsame hl.1, fun h hh => owned_plain h s _ hsame (hl.2 h hh)⟩
  halt_ok := by
    intro i s hs
    refine ⟨inv_halt hs, guar_halt, ?_, fun h hh => by cases hh⟩
    simp [Journal.halt, World.setPlanning, World.setCall]
  boot_kept := fun _ => handed_keeps none

end Protocol

end Managed
