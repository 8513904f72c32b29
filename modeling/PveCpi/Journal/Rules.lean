/-
# Rules for the system calls and the readers

For each system call one rule: from an assertion that survives the steps of others, what has to
be shown of the state in which the call happens and of the state it leaves.  For the readers
(`checkAuthority`, `readIndex`, `inspect`, `list`) one rule each that says what the answer tells
about the disk.

Below this module a proof sees `exec` and its choices, above it only rules.  A rule has the same
premises everywhere: `Inv` now, an assertion that survives interference, and, for every state in
which the call can happen, what is to be shown of its outcomes.  A failed call is one of the
outcomes, so the error paths of the source are walked by the same rule as its success.

`ReadOnly` is the exception to one rule per call.  A program that only reads can be skipped as a
whole (`wpE_skip`) when its answer does not matter; most validation in front of a write is of this
kind.
-/
import PveCpi.Journal.Effects

namespace Journal

open Lib.Interleave (Prog Outcome wp wpE Kept Stable wp_perform wp_only wp_bind wp_mono wp_ret
  wp_kept wpE_bind wpE_pure wpE_lift wpE_of wpE_mono wpE_kept)

variable {i : Nat} {α β : Type}

/-! ## 1. System calls

The rules of reads give the answer as a fact about the state of the read.  Whether that is still a
fact later is for the caller to show, with `Protocol`. -/

section Calls

variable {A : World → Prop} {s : World}

theorem exec_read {e : Eff} (he : e.isRead) {ch : Choice} {w w' : World} {a : Ans e}
    (h : exec i e ch w = some (a, w')) : w' = w := by
  cases e <;> first
    | exact absurd he id
    | (simp only [exec, orFail] at h
       split at h <;> cases h <;> rfl)

/-- A program that only reads keeps what survives. -/
theorem wp_readOnly {p : P α} (hp : p.Only Eff.isRead) (hA : Keeps i A) (hs : A s) :
    WP i p (fun _ => A) s :=
  wp_only hA (fun _ he _ _ _ _ hx => exec_read he hx) (fun w => Guar.refl i w) hp hs

/-- One read: its answer is about the state in which it happens. -/
theorem wp_read {e : Eff} {Q : Ans e → World → Prop} (he : e.isRead) (hA : Keeps i A) (hs : A s)
    (hQ : ∀ a, Keeps i (Q a))
    (h : ∀ t, Inv t → A t → ∀ ch a, exec i e ch t = some (a, t) → Q a t) :
    WP i (Prog.perform e) Q s := by
  refine wp_perform hA hs hQ ?_
  intro t ht hAt ch a t' hx
  have heq := exec_read he hx
  subst heq
  exact ⟨ht, Guar.refl i _, h _ ht hAt ch a hx⟩

theorem wp_authorityFile {Q : Option Authority → World → Prop} (hA : Keeps i A) (hs : A s)
    (hQ : ∀ a, Keeps i (Q a))
    (h : ∀ t, Inv t → A t → Q none t ∧ Q (some t.authority) t) : WP i authorityFile Q s := by
  refine wp_read (e := .readAuthority) trivial hA hs hQ ?_
  intro t ht hAt ch a hx
  obtain ⟨h1, h2⟩ := h t ht hAt
  simp only [exec, orFail] at hx
  split at hx <;> cases hx
  · exact h2
  · exact h1

theorem wp_indexFile {Q : Option Index → World → Prop} (hA : Keeps i A) (hs : A s)
    (hQ : ∀ a, Keeps i (Q a))
    (h : ∀ t, Inv t → A t → Q none t ∧ Q (some t.index) t) : WP i indexFile Q s := by
  refine wp_read (e := .readIndex) trivial hA hs hQ ?_
  intro t ht hAt ch a hx
  obtain ⟨h1, h2⟩ := h t ht hAt
  simp only [exec, orFail] at hx
  split at hx <;> cases hx
  · exact h2
  · exact h1

theorem wp_directory {Q : Option (List String) → World → Prop} (hA : Keeps i A) (hs : A s)
    (hQ : ∀ a, Keeps i (Q a))
    (h : ∀ t, Inv t → A t → Q none t ∧ Q (some t.records.keys) t) : WP i directory Q s := by
  refine wp_read (e := .readDir) trivial hA hs hQ ?_
  intro t ht hAt ch a hx
  obtain ⟨h1, h2⟩ := h t ht hAt
  simp only [exec, orFail] at hx
  split at hx <;> cases hx
  · exact h2
  · exact h1

theorem wp_recordFile {id : String} {Q : ReadResult → World → Prop} (hA : Keeps i A) (hs : A s)
    (hQ : ∀ a, Keeps i (Q a))
    (h : ∀ t, Inv t → A t → Q .failed t ∧ Q (t.readRecord id) t) : WP i (recordFile id) Q s := by
  refine wp_read (e := .readRecord id) trivial hA hs hQ ?_
  intro t ht hAt ch a hx
  obtain ⟨h1, h2⟩ := h t ht hAt
  simp only [exec, orFail] at hx
  split at hx <;> cases hx
  · exact h2
  · exact h1

theorem wp_lstatRecord {id : String} {Q : Option Bool → World → Prop} (hA : Keeps i A) (hs : A s)
    (hQ : ∀ a, Keeps i (Q a))
    (h : ∀ t, Inv t → A t → Q none t ∧ Q (some (t.records.lookup id).isSome) t) :
    WP i (lstatRecord id) Q s := by
  refine wp_read (e := .lstat id) trivial hA hs hQ ?_
  intro t ht hAt ch a hx
  obtain ⟨h1, h2⟩ := h t ht hAt
  simp only [exec, orFail] at hx
  split at hx <;> cases hx
  · exact h2
  · exact h1

theorem wp_observe {id : String} {Q : Option Record → World → Prop} (hA : Keeps i A) (hs : A s)
    (hQ : ∀ a, Keeps i (Q a))
    (h : ∀ t, Inv t → A t → Q (t.records.lookup id) t) : WP i (observe id) Q s := by
  refine wp_perform hA hs hQ ?_
  intro t ht hAt ch a t' hx
  simp only [exec] at hx
  cases hx
  exact ⟨ht, Guar.refl i _, h _ ht hAt⟩

/-- Waiting for a lock: it fails, or the lock was free and is now held.  Between the two other
processes run, which is why the assertion has to be kept by them. -/
theorem wp_lockFile {n : LockName} {Q : Bool → World → Prop} (hA : Keeps i A) (hs : A s)
    (hQ : ∀ a, Keeps i (Q a))
    (h : ∀ t, Inv t → A t → Q false t ∧ (t.locks n = none → Q true (t.setLock n (some i)))) :
    WP i (lockFile n) Q s := by
  refine wp_perform hA hs hQ ?_
  intro t ht hAt ch a t' hx
  simp only [exec, orFail] at hx
  obtain ⟨h1, h2⟩ := h t ht hAt
  split at hx
  · split at hx
    · rename_i hn
      cases hx
      exact ⟨inv_take ht hn, guar_take hn, h2 hn⟩
    · cases hx
  · cases hx
    exact ⟨ht, Guar.refl i _, h1⟩

/-- Trying a lock: as waiting for it, with one more answer. -/
theorem wp_tryLockFile {n : LockName} {Q : TryLock → World → Prop} (hA : Keeps i A) (hs : A s)
    (hQ : ∀ a, Keeps i (Q a))
    (h : ∀ t, Inv t → A t → Q .failed t ∧ Q .busy t ∧
      (t.locks n = none → Q .acquired (t.setLock n (some i)))) :
    WP i (tryLockFile n) Q s := by
  refine wp_perform hA hs hQ ?_
  intro t ht hAt ch a t' hx
  simp only [exec, orFail] at hx
  obtain ⟨h1, h2, h3⟩ := h t ht hAt
  split at hx
  · replace hx := Option.some.inj hx
    split at hx
    · rename_i hn
      cases hx
      exact ⟨inv_take ht hn, guar_take hn, h3 hn⟩
    · cases hx
      exact ⟨ht, Guar.refl i _, h2⟩
  · cases hx
    exact ⟨ht, Guar.refl i _, h1⟩

theorem wp_unlockFile {n : LockName} {Q : Bool → World → Prop} (hA : Keeps i A) (hs : A s)
    (hQ : ∀ a, Keeps i (Q a))
    (h : ∀ t, Inv t → A t → t.planning i = none ∧ ∀ b, Q b (t.released n i)) :
    WP i (unlockFile n) Q s := by
  refine wp_perform hA hs hQ ?_
  intro t ht hAt ch a t' hx
  simp only [exec] at hx
  obtain ⟨h1, h2⟩ := h t ht hAt
  cases hx
  exact ⟨inv_released ht h1, guar_released, h2 _⟩

theorem wp_timeNow {st : Stamp} {Q : Time → World → Prop} (hA : Keeps i A) (hs : A s)
    (hQ : ∀ a, Keeps i (Q a))
    (h : ∀ t, Inv t → A t → (∀ next, st = .save next → next.createdAt ∈ t.clock) ∧
      ∀ now, Q now (t.stamped now st)) :
    WP i (timeNow st) Q s := by
  refine wp_perform hA hs hQ ?_
  intro t ht hAt ch a t' hx
  simp only [exec] at hx
  obtain ⟨h1, h2⟩ := h t ht hAt
  cases hx
  exact ⟨inv_stamped ht h1, guar_stamped _ _, h2 _⟩

/-- A new identifier has the form of one and was never issued. -/
theorem wp_randomID {Q : Option String → World → Prop} (hA : Keeps i A) (hs : A s)
    (hQ : ∀ a, Keeps i (Q a))
    (h : ∀ t, Inv t → A t → Q none t ∧ ∀ id, allocationIDPattern id = true → id ∉ t.issued →
      Q (some id) (t.withID id)) :
    WP i randomID Q s := by
  refine wp_perform hA hs hQ ?_
  intro t ht hAt ch a t' hx
  simp only [exec, orFail] at hx
  obtain ⟨h1, h2⟩ := h t ht hAt
  split at hx
  · split at hx
    · rename_i hc
      simp only [Bool.and_eq_true, Bool.not_eq_true', List.contains_eq_mem, decide_eq_false_iff_not]
        at hc
      cases hx
      exact ⟨inv_withID ht, guar_withID, h2 _ hc.1 hc.2⟩
    · cases hx
  · cases hx
    exact ⟨ht, Guar.refl i _, h1⟩

/-- What has to be shown of an atomic replacement: nothing changed, or it landed. -/
structure Lands (i : Nat) (t t' : World) (Q : Bool → World → Prop) : Prop where
  unchanged : Q false t
  inv : Inv t'
  guar : Guar i t t'
  landed : ∀ b, Q b t'

theorem lands_commit {t t' w : World} {Q : Bool → World → Prop} {ch : Choice} {b : Bool}
    (ht : Inv t) (h : Lands i t t' Q) (hx : t.commit ch t' = some (b, w)) :
    Inv w ∧ Guar i t w ∧ Q b w := by
  unfold World.commit at hx
  split at hx <;> cases hx
  · exact ⟨h.inv, h.guar, h.landed _⟩
  · exact ⟨ht, Guar.refl i _, h.unchanged⟩
  · exact ⟨h.inv, h.guar, h.landed _⟩

theorem wp_replaceIndex {journal : String} {idx : Index} {Q : Bool → World → Prop}
    (hA : Keeps i A) (hs : A s) (hQ : ∀ a, Keeps i (Q a))
    (h : ∀ t, Inv t → A t → Lands i t (t.putIndex i journal idx) Q) :
    WP i (replaceIndex journal idx) Q s := by
  refine wp_perform hA hs hQ ?_
  intro t ht hAt ch a t' hx
  exact lands_commit ht (h t ht hAt) hx

theorem wp_replaceAuthority {journal : String} {a : Authority} {Q : Bool → World → Prop}
    (hA : Keeps i A) (hs : A s) (hQ : ∀ a, Keeps i (Q a))
    (h : ∀ t, Inv t → A t → Lands i t (t.putAuthority i journal a) Q) :
    WP i (replaceAuthority journal a) Q s := by
  refine wp_perform hA hs hQ ?_
  intro t ht hAt ch b t' hx
  exact lands_commit ht (h t ht hAt) hx

theorem wp_replaceRecord {journal : String} {r : Record} {Q : Bool → World → Prop}
    (hA : Keeps i A) (hs : A s) (hQ : ∀ a, Keeps i (Q a))
    (h : ∀ t, Inv t → A t → r.decodable = true → Lands i t (t.putRecord i journal r) Q)
    (hrefused : ∀ t, Inv t → A t → Q false t) : WP i (replaceRecord journal r) Q s := by
  refine wp_perform hA hs hQ ?_
  intro t ht hAt ch b t' hx
  by_cases he : r.decodable = true
  · have hx' : t.commit ch (t.putRecord i journal r) = some (b, t') := (if_pos he).symm.trans hx
    exact lands_commit ht (h t ht hAt he) hx'
  · have hx' : some (false, t) = some (b, t') := (if_neg he).symm.trans hx
    cases hx'
    exact ⟨ht, Guar.refl i _, hrefused _ ht hAt⟩

theorem wp_planBegin {p : Planning} {Q : Unit → World → Prop} (hA : Keeps i A) (hs : A s)
    (hQ : ∀ a, Keeps i (Q a))
    (h : ∀ t, Inv t → A t → PlanningOk t i p ∧ t.call i = {} ∧ Q () (t.planStarted i p)) :
    WP i (planBegin p) Q s := by
  refine wp_perform hA hs hQ ?_
  intro t ht hAt ch a t' hx
  simp only [exec] at hx
  obtain ⟨h1, h2, h3⟩ := h t ht hAt
  cases hx
  exact ⟨inv_planStarted ht h1 h2, guar_planStarted, h3⟩

theorem wp_planEnd {Q : Unit → World → Prop} (hA : Keeps i A) (hs : A s)
    (hQ : ∀ a, Keeps i (Q a)) (h : ∀ t, Inv t → A t → Q () (t.setPlanning i none)) :
    WP i planEnd Q s := by
  refine wp_perform hA hs hQ ?_
  intro t ht hAt ch a t' hx
  simp only [exec] at hx
  cases hx
  exact ⟨inv_planEnded ht, guar_planEnded, h t ht hAt⟩

theorem wp_planRejected {Q : Unit → World → Prop} (hA : Keeps i A) (hs : A s)
    (hQ : ∀ a, Keeps i (Q a))
    (h : ∀ t, Inv t → A t → (t.call i).wrote = false ∧
      Q () (t.setCall i { t.call i with rejected := true })) :
    WP i planRejected Q s := by
  refine wp_perform hA hs hQ ?_
  intro t ht hAt ch a t' hx
  simp only [exec] at hx
  cases hx
  obtain ⟨h1, h2⟩ := h t ht hAt
  exact ⟨inv_setCall ht ⟨(ht.call i).1, fun _ => h1⟩, guar_setCall, h2⟩

end Calls

/-! ## 2. Programs that can fail -/

section Fallible

variable {A : World → Prop} {s : World} {Q : α → World → Prop} {X : Err → World → Prop}

theorem wpE_act {p : P α} (hs : Inv s) (hQ : ∀ a, Keeps i (Q a)) (h : WP i p Q s) :
    WPE i (act p) Q X s := wpE_lift hs hQ h

theorem wpE_check {x : Except Err α} (hQ : ∀ a, Keeps i (Q a)) (hX : ∀ e, Keeps i (X e))
    (hok : ∀ a, x = .ok a → Q a s) (herr : ∀ e, x = .error e → X e s) :
    WPE i (check x) Q X s := wpE_of hQ hX hok herr

/-- A known error. -/
theorem wpE_fail {e : Err} (hQ : ∀ a, Keeps i (Q a)) (hX : ∀ e, Keeps i (X e)) (h : X e s) :
    WPE i (check (.error e)) Q X s :=
  wpE_check hQ hX (fun _ h => by cases h) (fun _ he => by cases he; exact h)

/-- A program in front of the rest. -/
theorem wpE_step {p : P β} {k : β → M α} (hs : Inv s) (hX : ∀ e, Keeps i (X e))
    (h : WP i p (fun b => WPE i (k b) Q X) s) : WPE i (act p >>= k) Q X s :=
  wpE_bind hs hX (wpE_act hs (fun _ => wpE_kept _ _ _) h)

/-- A system call whose answer is checked. -/
theorem wpE_call {p : P β} {f : β → Except Err α} (hs : Inv s) (hQ : ∀ a, Keeps i (Q a))
    (hX : ∀ e, Keeps i (X e))
    (h : WP i p (fun b t => (∀ a, f b = .ok a → Q a t) ∧ (∀ e, f b = .error e → X e t)) s) :
    WPE i (act p >>= fun b => check (f b)) Q X s := by
  refine wpE_step hs hX ?_
  exact wp_mono (fun b t _ hb => wpE_check hQ hX hb.1 hb.2) h

/-- The postcondition of a checked call survives when the two it is made of do. -/
theorem keeps_checked (f : β → Except Err α) (hQ : ∀ a, Keeps i (Q a)) (hX : ∀ e, Keeps i (X e))
    (b : β) : Keeps i fun t => (∀ a, f b = .ok a → Q a t) ∧ (∀ e, f b = .error e → X e t) := by
  intro s t ht he h
  exact ⟨fun a ha => hQ a s t ht he (h.1 a ha), fun e hx => hX e s t ht he (h.2 e hx)⟩

/-- Only reads. -/
def ReadOnly (p : M α) : Prop := Prog.Only Eff.isRead (ExceptT.run p)

theorem wpE_readOnly {p : M α} (hp : ReadOnly p) (hA : Keeps i A) (hs : A s) :
    WPE i p (fun _ => A) (fun _ => A) s := by
  refine wp_mono ?_ (wp_readOnly hp hA hs)
  intro r t _ ht
  cases r with
  | ok a => exact ht
  | error e => exact ht

theorem ReadOnly.bind {p : M α} {f : α → M β} (hp : ReadOnly p) (hf : ∀ a, ReadOnly (f a)) :
    ReadOnly (p >>= f) := by
  refine Prog.Only.bind hp ?_
  intro r
  cases r with
  | ok a => exact hf a
  | error e => trivial

theorem readOnly_check (x : Except Err α) : ReadOnly (check x) := trivial

theorem readOnly_pure (a : α) : ReadOnly (pure a : M α) := trivial

theorem readOnly_act {p : P α} (hp : p.Only Eff.isRead) : ReadOnly (act p) :=
  Prog.Only.bind hp fun _ => trivial

theorem readOnly_readAuthority (ns : String) : ReadOnly (readAuthority ns) :=
  (readOnly_act (p := authorityFile) ⟨trivial, fun _ => trivial⟩).bind fun _ => readOnly_check _

theorem readOnly_readIndex : ReadOnly readIndex :=
  (readOnly_act (p := indexFile) ⟨trivial, fun _ => trivial⟩).bind fun _ => readOnly_check _

theorem readOnly_inspect (j : Authority) (id : String) : ReadOnly (inspect j id) :=
  (readOnly_check _).bind fun _ =>
    (readOnly_act (p := recordFile id) ⟨trivial, fun _ => trivial⟩).bind fun _ => readOnly_check _

theorem readOnly_inspectAll (j : Authority) (ids : List String) :
    ReadOnly (inspectAll j ids) := by
  induction ids with
  | nil => exact readOnly_pure _
  | cons id ids ih =>
    exact (readOnly_inspect j id).bind fun _ => ih.bind fun _ => readOnly_pure _

theorem readOnly_list (j : Authority) : ReadOnly (list j) :=
  (readOnly_act (p := directory) ⟨trivial, fun _ => trivial⟩).bind fun _ =>
    (readOnly_check _).bind fun ids =>
      (readOnly_inspectAll j ids).bind fun _ => readOnly_pure _

theorem readOnly_validateGenerationIndex (j : Authority) (idx : Index) :
    ReadOnly (validateGenerationIndex j idx) :=
  (readOnly_list j).bind fun _ => readOnly_check _

theorem readOnly_inspectProvenance (j : Authority) (ids : List String) :
    ReadOnly (inspectProvenance j ids) := by
  induction ids with
  | nil => exact readOnly_pure _
  | cons id ids ih =>
    refine (readOnly_act (readOnly_inspect j id)).bind ?_
    intro r
    cases r with
    | error e => exact readOnly_check _
    | ok r => exact ih

theorem readOnly_validateProvenance (j : Authority) (ids : List String) :
    ReadOnly (validateProvenance j ids) :=
  (readOnly_inspectProvenance j ids).bind fun _ =>
    (readOnly_list j).bind fun _ => readOnly_pure _

theorem readOnly_requireIndexed (j : Authority) (ids : List String) :
    ReadOnly (requireIndexed j ids) := by
  induction ids with
  | nil => exact readOnly_pure _
  | cons id ids ih =>
    refine (readOnly_act (readOnly_inspect j id)).bind ?_
    intro r
    cases r with
    | error e => exact readOnly_check _
    | ok r => exact ih

theorem readOnly_requireOldIndexed (j : Authority) : ReadOnly (requireOldIndexed j) := by
  refine (readOnly_act readOnly_readIndex).bind ?_
  intro r
  cases r with
  | error e => exact readOnly_pure _
  | ok idx => exact readOnly_requireIndexed j _

/-- In front of the rest, a reader is skipped. -/
theorem wpE_skip {p : M β} {k : β → M α} (hs : Inv s) (hX : ∀ e, Keeps i (X e)) (hp : ReadOnly p)
    (hA : Keeps i A) (hAs : A s) (herr : ∀ e t, Inv t → A t → X e t)
    (h : ∀ b t, Inv t → A t → WPE i (k b) Q X t) : WPE i (p >>= k) Q X s :=
  wpE_bind hs hX (wpE_mono (fun b t ht hb => h b t ht hb) (fun e t ht he => herr e t ht he)
    (wpE_readOnly hp hA hAs))

end Fallible

/-! ## 3. What the readers tell

A list is not a snapshot: each record is read at a moment of its own.  So what `list` tells is
stated for any `F` that a single read establishes and that survives; under the index lock the set of
names is fixed, and the list covers it (`Covered`). -/

section Readers

variable {A : World → Prop} {s : World} {X : Err → World → Prop}

theorem acceptAuthority_ok {ns : String} {a : Option Authority} {b : Authority}
    (h : acceptAuthority ns a = .ok b) : a = some b ∧ b.namespace = ns := by
  cases a with
  | none => cases h
  | some a =>
    simp only [acceptAuthority] at h
    split at h
    · cases h
    · rename_i hc
      simp only [Except.ok.injEq] at h
      subst h
      simp only [Bool.or_eq_true, bne_iff_ne, not_or, not_not] at hc
      exact ⟨rfl, hc.1.1.2⟩

theorem wpE_readAuthority {ns : String} {Q : Authority → World → Prop} (hs : Inv s)
    (hA : Keeps i A) (hAs : A s) (hQ : ∀ a, Keeps i (Q a)) (hX : ∀ e, Keeps i (X e))
    (hok : ∀ t, Inv t → A t → t.authority.namespace = ns → Q t.authority t)
    (herr : ∀ e t, Inv t → A t → X e t) : WPE i (readAuthority ns) Q X s := by
  refine wpE_call hs hQ hX (wp_authorityFile hA hAs (keeps_checked _ hQ hX) ?_)
  intro t ht hAt
  refine ⟨⟨fun b hb => ?_, fun e _ => herr e t ht hAt⟩, fun b hb => ?_, fun e _ => herr e t ht hAt⟩
  · cases hb
  · obtain ⟨heq, hns⟩ := acceptAuthority_ok hb
    have : t.authority = b := Option.some.inj heq
    subst this
    exact hok t ht hAt hns

/-- A checked authority: the epoch on disk is the one the Journal was opened under. -/
theorem wpE_checkAuthority {j : Authority} {Q : Unit → World → Prop} (hs : Inv s)
    (hA : Keeps i A) (hAs : A s) (hQ : ∀ a, Keeps i (Q a)) (hX : ∀ e, Keeps i (X e))
    (hok : ∀ t, Inv t → A t → t.authority.epoch = j.epoch →
      t.authority.namespace = j.namespace → Q () t)
    (herr : ∀ e t, Inv t → A t → X e t) : WPE i (checkAuthority j) Q X s := by
  refine wpE_bind hs hX (wpE_readAuthority hs hA hAs (fun a => wpE_kept _ _ _) hX ?_ herr)
  intro t ht hAt hns
  refine wpE_check hQ hX (fun u hu => ?_) (fun e _ => herr e t ht hAt)
  cases u
  simp only [refuse_eq_ok, sameAuthority, Bool.not_eq_false', Bool.and_eq_true, beq_iff_eq] at hu
  exact hok t ht hAt hu.1.1 hns

/-- Every entry of the index names an allocation. -/
def IndexValid (idx : Index) : Prop :=
  ∀ k id, idx.activeVMs.lookup k = some id → allocationIDPattern id = true

/-- An index that is accepted was read, and its names have the form of names. -/
theorem acceptIndex_ok {a : Option Index} {idx : Index} (h : acceptIndex a = .ok idx) :
    a = some idx ∧ IndexValid idx := by
  cases a with
  | none => cases h
  | some a =>
    simp only [acceptIndex] at h
    split at h
    · cases h
    · split at h
      · rename_i hall
        simp only [Except.ok.injEq] at h
        subst h
        refine ⟨rfl, ?_⟩
        intro k id hk
        rw [List.all_eq_true] at hall
        have hmem := AList.mem_lookup_iff.mp (Option.mem_def.mpr hk)
        have := hall _ hmem
        rw [Bool.and_eq_true] at this
        exact this.2
      · cases h

theorem wpE_readIndex {Q : Index → World → Prop} (hs : Inv s) (hA : Keeps i A) (hAs : A s)
    (hQ : ∀ a, Keeps i (Q a)) (hX : ∀ e, Keeps i (X e))
    (hok : ∀ t, Inv t → A t → IndexValid t.index → Q t.index t)
    (herr : ∀ e t, Inv t → A t → X e t) : WPE i readIndex Q X s := by
  refine wpE_call hs hQ hX (wp_indexFile hA hAs (keeps_checked _ hQ hX) ?_)
  intro t ht hAt
  refine ⟨⟨fun b hb => ?_, fun e _ => herr e t ht hAt⟩, fun b hb => ?_, fun e _ => herr e t ht hAt⟩
  · cases hb
  · obtain ⟨heq, hv⟩ := acceptIndex_ok hb
    have : t.index = b := Option.some.inj heq
    subst this
    exact hok t ht hAt hv

/-- A record that is accepted is the one on disk, and it is valid. -/
theorem acceptRecord_ok {j : Authority} {id : String} {w : World} {r : Record}
    (h : acceptRecord j id (w.readRecord id) = .ok r) :
    w.records.lookup id = some r ∧ validateRecord r = .ok () := by
  unfold World.readRecord at h
  cases hl : w.records.lookup id with
  | none => rw [hl] at h; cases h
  | some r' =>
    rw [hl] at h
    simp only at h
    split at h
    · simp only [acceptRecord, check_bind_eq_ok, pure_eq_ok] at h
      obtain ⟨hv, _, rfl⟩ := h
      exact ⟨rfl, hv⟩
    · cases h

/-- An inspected record is the one on disk, and valid. -/
theorem wpE_inspect {j : Authority} {id : String} {Q : Record → World → Prop} (hs : Inv s)
    (hA : Keeps i A) (hAs : A s) (hQ : ∀ a, Keeps i (Q a)) (hX : ∀ e, Keeps i (X e))
    (hok : ∀ t r, Inv t → A t → t.records.lookup id = some r → validateRecord r = .ok () → Q r t)
    (herr : ∀ e t, Inv t → A t → X e t) : WPE i (inspect j id) Q X s := by
  refine wpE_skip hs hX (readOnly_check _) hA hAs herr ?_
  intro _ t ht hAt
  refine wpE_call ht hQ hX (wp_recordFile hA hAt (keeps_checked _ hQ hX) ?_)
  intro u hu hAu
  refine ⟨⟨fun b hb => ?_, fun e _ => herr e u hu hAu⟩, fun b hb => ?_, fun e _ => herr e u hu hAu⟩
  · cases hb
  · obtain ⟨hl, hv⟩ := acceptRecord_ok hb
    exact hok u b hu hAu hl hv

/-- Inspected records, one for each name: whatever a read establishes and the assertion keeps. -/
theorem wpE_inspectAll {j : Authority} {F : String → Record → World → Prop} (ids : List String) :
    ∀ {A : World → Prop} {s : World}, Keeps i A → (∀ id r, Keeps i fun w => A w ∧ F id r w) →
      (∀ t id r, Inv t → A t → t.records.lookup id = some r → validateRecord r = .ok () →
        F id r t) → Inv s → A s →
      WPE i (inspectAll j ids) (fun rs w => A w ∧ ∀ id ∈ ids, ∃ r ∈ rs, F id r w)
        (fun _ => A) s := by
  induction ids with
  | nil =>
    intro A s hA _ _ _ hAs
    refine wpE_pure ?_ ⟨hAs, fun id hid => by cases hid⟩
    exact fun s t ht he h => ⟨hA s t ht he h.1, fun id hid => by cases hid⟩
  | cons id ids ih =>
    intro A s hA hF hread hs hAs
    have hkeep : ∀ rs : List Record,
        Keeps i fun w => A w ∧ ∀ id' ∈ id :: ids, ∃ r ∈ rs, F id' r w := by
      intro rs s t ht he h
      refine ⟨hA s t ht he h.1, ?_⟩
      intro id' hid
      obtain ⟨r, hr, hf⟩ := h.2 id' hid
      exact ⟨r, hr, (hF id' r s t ht he ⟨h.1, hf⟩).2⟩
    refine wpE_bind hs (fun _ => hA) (wpE_inspect hs hA hAs (fun _ => wpE_kept _ _ _)
      (fun _ => hA) ?_ (fun _ _ _ h => h))
    intro t r ht hAt hl hv
    have hFt := hread t id r ht hAt hl hv
    refine wpE_bind ht (fun _ => hA) ?_
    -- The first fact is carried through the rest of the list.
    have hrest := ih (hF id r)
      (fun id' r' s t ht he h => ⟨hF id r s t ht he h.1, (hF id' r' s t ht he ⟨h.1.1, h.2⟩).2⟩)
      (fun t id' r' ht hAt => hread t id' r' ht hAt.1) ht ⟨hAt, hFt⟩
    refine wpE_mono ?_ (fun _ _ _ h => h.1) hrest
    rintro rs u hu ⟨⟨hAu, hFu⟩, hall⟩
    refine wpE_pure (hkeep _) ⟨hAu, ?_⟩
    intro id' hid
    rcases List.mem_cons.mp hid with rfl | hid
    · exact ⟨r, List.mem_cons_self, hFu⟩
    · obtain ⟨r', hr', hf⟩ := hall id' hid
      exact ⟨r', List.mem_cons_of_mem _ hr', hf⟩

theorem mem_sortByID {r : Record} {rs : List Record} : r ∈ sortByID rs ↔ r ∈ rs :=
  (List.perm_insertionSort _ rs).mem_iff

/-- The list has, for every name on disk, a record of which `F` holds. -/
def Covered (F : String → Record → World → Prop) (rs : List Record) (w : World) : Prop :=
  ∃ ids : List String, (∀ id r, w.records.lookup id = some r → id ∈ ids) ∧
    ∀ id ∈ ids, ∃ r ∈ rs, F id r w

theorem Covered.find {F : String → Record → World → Prop} {rs : List Record} {w : World}
    (h : Covered F rs w) {id : String} {r : Record} (hr : w.records.lookup id = some r) :
    ∃ r' ∈ rs, F id r' w := by
  obtain ⟨ids, hids, hall⟩ := h
  exact hall id (hids id r hr)

/-- Under the index lock the names are fixed, so a covering list stays one. -/
theorem covered_keeps {F : String → Record → World → Prop} (hA : Keeps i A)
    (hlock : ∀ w, A w → w.locks .index = some i) (hF : ∀ id r, Keeps i fun w => A w ∧ F id r w)
    (rs : List Record) : Keeps i fun w => A w ∧ Covered F rs w := by
  rintro s t ht he ⟨hAs, ids, hids, hall⟩
  refine ⟨hA s t ht he hAs, ids, ?_, ?_⟩
  · exact ((names_stable (i := i) (· ∈ ids)).kept s t ht he ⟨hlock s hAs, hids⟩).2
  · intro id hid
    obtain ⟨r, hr, hf⟩ := hall id hid
    exact ⟨r, hr, (hF id r s t ht he ⟨hAs, hf⟩).2⟩

/-- **A list under the index lock** has a record for every name on disk.  Under the lock nobody can
create one, so the names that were listed first are all the names at the end. -/
theorem wpE_list {j : Authority} {F : String → Record → World → Prop} (hs : Inv s)
    (hA : Keeps i A) (hlock : ∀ w, A w → w.locks .index = some i) (hAs : A s)
    (hF : ∀ id r, Keeps i fun w => A w ∧ F id r w)
    (hread : ∀ t id r, Inv t → A t → t.records.lookup id = some r → validateRecord r = .ok () →
      F id r t) :
    WPE i (list j) (fun rs w => A w ∧ Covered F rs w) (fun _ => A) s := by
  have hnames : ∀ ids : List String, Keeps i fun w => A w ∧ ∀ id r, w.records.lookup id = some r →
      id ∈ ids :=
    fun ids s t ht he h => ⟨hA s t ht he h.1,
      ((names_stable (i := i) (· ∈ ids)).kept s t ht he ⟨hlock s h.1, h.2⟩).2⟩
  refine wpE_step hs (fun _ => hA) (wp_directory hA hAs (fun _ => wpE_kept _ _ _) ?_)
  intro t ht hAt
  refine ⟨?_, ?_⟩
  · exact wpE_bind ht (fun _ => hA) (wpE_fail (fun _ => wpE_kept _ _ _) (fun _ => hA) hAt)
  · have hall : ∀ id r, t.records.lookup id = some r → id ∈ t.records.keys := by
      intro id r hr
      exact AList.mem_keys.mp (AList.lookup_isSome.mp (by rw [hr]; rfl))
    refine wpE_bind ht (fun _ => hA) (wpE_check (fun _ => wpE_kept _ _ _) (fun _ => hA) ?_
      (fun _ h => by cases h))
    intro ids hids
    have hids' : t.records.keys = ids := by simpa using hids
    subst hids'
    have hrec := wpE_inspectAll (j := j) (F := F) t.records.keys (hnames _)
      (fun id r s u hu he h => ⟨hnames _ s u hu he h.1, (hF id r s u hu he ⟨h.1.1, h.2⟩).2⟩)
      (fun u id r hu hAu => hread u id r hu hAu.1) ht ⟨hAt, hall⟩
    refine wpE_bind ht (fun _ => hA) (wpE_mono ?_ (fun _ _ _ h => h.1) hrec)
    rintro rs u hu ⟨⟨hAu, hkeys⟩, hrs⟩
    refine wpE_pure (covered_keeps hA hlock hF _) ⟨hAu, t.records.keys, hkeys, ?_⟩
    intro id hid
    obtain ⟨r', hr', hf⟩ := hrs id hid
    exact ⟨r', mem_sortByID.mpr hr', hf⟩

end Readers

/-! ## 4. Locks, identifiers and writes -/

section Writers

variable {A X : World → Prop} {s : World}

theorem wpE_waitLock {n : LockName} {Q : Unit → World → Prop} (hs : Inv s) (hA : Keeps i A)
    (hAs : A s) (hQ : ∀ a, Keeps i (Q a)) (hX : Keeps i X)
    (hok : ∀ t, Inv t → A t → t.locks n = none → Q () (t.setLock n (some i)))
    (herr : ∀ t, Inv t → A t → X t) : WPE i (waitLock n) Q (fun _ => X) s := by
  refine wpE_call hs hQ (fun _ => hX)
    (wp_lockFile hA hAs (keeps_checked _ hQ fun _ => hX) ?_)
  intro t ht hAt
  refine ⟨⟨nofun, fun _ _ => herr t ht hAt⟩, fun hn => ⟨fun u _ => ?_, ?_⟩⟩
  · cases u
    exact hok t ht hAt hn
  · intro e he
    cases he

/-- The lock of a record is claimed without waiting; a lock that is held is an error. -/
theorem wpE_claimLock {id : String} {busy : Err} {Q : Unit → World → Prop} (hs : Inv s)
    (hA : Keeps i A) (hAs : A s) (hQ : ∀ a, Keeps i (Q a)) (hX : Keeps i X)
    (hok : ∀ t, Inv t → A t → t.locks (.record id) = none →
      Q () (t.setLock (.record id) (some i)))
    (herr : ∀ t, Inv t → A t → X t) : WPE i (claimLock id busy) Q (fun _ => X) s := by
  refine wpE_call hs hQ (fun _ => hX)
    (wp_tryLockFile hA hAs (keeps_checked _ hQ fun _ => hX) ?_)
  intro t ht hAt
  refine ⟨⟨nofun, fun _ _ => herr t ht hAt⟩,
    ⟨nofun, fun _ _ => herr t ht hAt⟩, fun hn => ⟨fun u _ => ?_, ?_⟩⟩
  · cases u
    exact hok t ht hAt hn
  · intro e he
    cases he

/-- The check that a record is not there yet.  It is only as good as the lock that is held around
it. -/
theorem wpE_requireAbsent {id : String} {Q : Unit → World → Prop} (hs : Inv s) (hA : Keeps i A)
    (hAs : A s) (hQ : ∀ a, Keeps i (Q a)) (hX : Keeps i X)
    (hok : ∀ t, Inv t → A t → t.records.lookup id = none → Q () t)
    (herr : ∀ t, Inv t → A t → X t) : WPE i (requireAbsent id) Q (fun _ => X) s := by
  refine wpE_call hs hQ (fun _ => hX)
    (wp_lstatRecord hA hAs (keeps_checked _ hQ fun _ => hX) ?_)
  intro t ht hAt
  refine ⟨⟨nofun, fun _ _ => herr t ht hAt⟩, fun u hu => ?_,
    fun _ _ => herr t ht hAt⟩
  cases hl : t.records.lookup id with
  | none => exact hok t ht hAt hl
  | some r =>
    rw [hl] at hu
    cases hu

theorem wpE_newAllocationID {Q : String → World → Prop} (hs : Inv s) (hA : Keeps i A) (hAs : A s)
    (hQ : ∀ a, Keeps i (Q a)) (hX : Keeps i X)
    (hok : ∀ t id, Inv t → A t → allocationIDPattern id = true → id ∉ t.issued →
      Q id (t.withID id))
    (herr : ∀ t, Inv t → A t → X t) : WPE i newAllocationID Q (fun _ => X) s := by
  refine wpE_call hs hQ (fun _ => hX)
    (wp_randomID hA hAs (keeps_checked _ hQ fun _ => hX) ?_)
  intro t ht hAt
  refine ⟨⟨nofun, fun _ _ => herr t ht hAt⟩,
    fun id hp hn => ⟨fun u hu => ?_, nofun⟩⟩
  cases hu
  exact hok t id ht hAt hp hn

/-- A new record is valid, and its clock reading is in the history. -/
theorem wpE_newRecord {j : Authority} {id agentID : String} {kind : Kind} {intent : Intent}
    {Q : Record → World → Prop} (hs : Inv s) (hA : Keeps i A) (hAs : A s)
    (hQ : ∀ a, Keeps i (Q a)) (hX : Keeps i X)
    (hok : ∀ t now r, Inv t → A t → recordAt j id kind agentID intent now = .ok r →
      Q r (t.stamped now (.create intent)))
    (herr : ∀ t, Inv t → A t → X t)
    (hstamp : ∀ t now, Inv t → A t → X (t.stamped now (.create intent))) :
    WPE i (newRecord j id kind agentID intent) Q (fun _ => X) s := by
  refine wpE_skip hs (fun _ => hX) (readOnly_check _) hA hAs (fun _ t ht hAt => herr t ht hAt) ?_
  intro _ t ht hAt
  refine wpE_call ht hQ (fun _ => hX)
    (wp_timeNow hA hAt (keeps_checked _ hQ fun _ => hX) ?_)
  intro u hu hAu
  constructor
  · intro next he
    exact Stamp.noConfusion he
  · intro now
    exact ⟨fun r hr => hok u now r hu hAu hr, fun _ _ => hstamp u now hu hAu⟩

/-- What has to be shown of a durable write: either end of it is an error or a success. -/
theorem wpE_written {p : P Bool} {Q : Unit → World → Prop} (hs : Inv s)
    (hQ : ∀ a, Keeps i (Q a)) (hX : Keeps i X)
    (h : WP i p (fun b t => (b = true → Q () t) ∧ (b = false → X t)) s) :
    WPE i (act p >>= fun b => check (if b then .ok () else .error durabilityErr)) Q
      (fun _ => X) s := by
  refine wpE_call hs hQ (fun _ => hX) (wp_mono ?_ h)
  intro b t _ hb
  cases b with
  | true =>
    refine ⟨fun u _ => ?_, nofun⟩
    cases u
    exact hb.1 rfl
  | false => exact ⟨nofun, fun _ _ => hb.2 rfl⟩

theorem keeps_written {Q : Unit → World → Prop} (hQ : ∀ a, Keeps i (Q a)) (hX : Keeps i X)
    (b : Bool) : Keeps i fun t => (b = true → Q () t) ∧ (b = false → X t) :=
  fun s t ht he h => ⟨fun hb => hQ () s t ht he (h.1 hb), fun hb => hX s t ht he (h.2 hb)⟩

theorem wpE_writeIndex {j : Authority} {idx : Index} {Q : Unit → World → Prop} (hs : Inv s)
    (hA : Keeps i A) (hAs : A s) (hQ : ∀ a, Keeps i (Q a)) (hX : Keeps i X)
    (h : ∀ t, Inv t → A t → Inv (t.putIndex i j.epoch idx) ∧ Guar i t (t.putIndex i j.epoch idx) ∧
      Q () (t.putIndex i j.epoch idx))
    (herr : ∀ t, Inv t → A t → X t) (hlanded : ∀ t, Inv t → A t → X (t.putIndex i j.epoch idx)) :
    WPE i (writeIndex j idx) Q (fun _ => X) s := by
  refine wpE_written hs hQ hX (wp_replaceIndex hA hAs (keeps_written hQ hX) ?_)
  intro t ht hAt
  obtain ⟨h1, h2, h3⟩ := h t ht hAt
  exact ⟨⟨nofun, fun _ => herr t ht hAt⟩, h1, h2,
    fun b => ⟨fun _ => h3, fun _ => hlanded t ht hAt⟩⟩

theorem wpE_writeRecord {j : Authority} {r : Record} {Q : Unit → World → Prop} (hs : Inv s)
    (hA : Keeps i A) (hAs : A s) (hQ : ∀ a, Keeps i (Q a)) (hX : Keeps i X)
    (h : ∀ t, Inv t → A t → r.decodable = true → Inv (t.putRecord i j.epoch r) ∧
      Guar i t (t.putRecord i j.epoch r) ∧ Q () (t.putRecord i j.epoch r))
    (herr : ∀ t, Inv t → A t → X t) (hlanded : ∀ t, Inv t → A t → X (t.putRecord i j.epoch r)) :
    WPE i (writeRecord j r) Q (fun _ => X) s := by
  refine wpE_written hs hQ hX (wp_replaceRecord hA hAs (keeps_written hQ hX) ?_
    fun t ht hAt => ⟨nofun, fun _ => herr t ht hAt⟩)
  intro t ht hAt hd
  obtain ⟨h1, h2, h3⟩ := h t ht hAt hd
  exact ⟨⟨nofun, fun _ => herr t ht hAt⟩, h1, h2,
    fun b => ⟨fun _ => h3, fun _ => hlanded t ht hAt⟩⟩

theorem wpE_writeAuthority {j a : Authority} {Q : Unit → World → Prop} (hs : Inv s)
    (hA : Keeps i A) (hAs : A s) (hQ : ∀ a, Keeps i (Q a)) (hX : Keeps i X)
    (h : ∀ t, Inv t → A t → Inv (t.putAuthority i j.epoch a) ∧
      Guar i t (t.putAuthority i j.epoch a) ∧ Q () (t.putAuthority i j.epoch a))
    (herr : ∀ t, Inv t → A t → X t)
    (hlanded : ∀ t, Inv t → A t → X (t.putAuthority i j.epoch a)) :
    WPE i (writeAuthority j a) Q (fun _ => X) s := by
  refine wpE_written hs hQ hX (wp_replaceAuthority hA hAs (keeps_written hQ hX) ?_)
  intro t ht hAt
  obtain ⟨h1, h2, h3⟩ := h t ht hAt
  exact ⟨⟨nofun, fun _ => herr t ht hAt⟩, h1, h2,
    fun b => ⟨fun _ => h3, fun _ => hlanded t ht hAt⟩⟩

end Writers

/-! ## 5. Deferred closes

A lock that is released on every path is released after the outcome is known, so the rule runs the
program first and looks at its outcome. -/

section Deferred

variable {X Y : World → Prop} {s : World} {Q R : α → World → Prop}

/-- Run a fallible program and look at its outcome. -/
theorem wp_run {p : M α} {k : Except Err α → P β} {Q' : β → World → Prop} (hs : Inv s)
    (hp : WPE i p R (fun _ => Y) s) (hok : ∀ a t, Inv t → R a t → WP i (k (.ok a)) Q' t)
    (herr : ∀ e t, Inv t → Y t → WP i (k (.error e)) Q' t) : WP i (p.run >>= k) Q' s := by
  refine wp_bind (wp_mono ?_ hp) hs
  intro r t ht hr
  cases r with
  | ok a => exact hok a t ht hr
  | error e => exact herr e t ht hr

theorem wpE_run {p : M α} {k : Except Err α → M β} {Q' : β → World → Prop} {X' : Err → World → Prop}
    (hs : Inv s) (hX : ∀ e, Keeps i (X' e)) (hp : WPE i p R (fun _ => Y) s)
    (hok : ∀ a t, Inv t → R a t → WPE i (k (.ok a)) Q' X' t)
    (herr : ∀ e t, Inv t → Y t → WPE i (k (.error e)) Q' X' t) :
    WPE i (act p.run >>= k) Q' X' s := by
  refine wpE_step hs hX (wp_mono ?_ hp)
  intro r t ht hr
  cases r with
  | ok a => exact hok a t ht hr
  | error e => exact herr e t ht hr

/-- The lock is released on every path. -/
theorem wpE_deferUnlock {n : LockName} {undo : α → P Bool} {p : M α} (hs : Inv s)
    (hR : ∀ a, Keeps i (R a)) (hY : Keeps i Y) (hQ : ∀ a, Keeps i (Q a)) (hX : Keeps i X)
    (hp : WPE i p R (fun _ => Y) s)
    (hok : ∀ a t, Inv t → R a t → t.planning i = none ∧ Q a (t.released n i) ∧
      WP i (undo a) (fun _ => X) (t.released n i))
    (herr : ∀ t, Inv t → Y t → t.planning i = none ∧ X (t.released n i)) :
    WPE i (deferUnlock n undo p) Q (fun _ => X) s := by
  refine wpE_run hs (fun _ => hX) hp ?_ ?_
  · intro a t ht hRt
    refine wpE_step ht (fun _ => hX) (wp_unlockFile (hR a) hRt (fun _ => wpE_kept _ _ _) ?_)
    intro u hu hRu
    obtain ⟨hp, hq, hw⟩ := hok a u hu hRu
    refine ⟨hp, fun closed => ?_⟩
    cases closed with
    | true => exact wpE_pure (hQ a) hq
    | false =>
      have hu' := inv_released (n := n) hu hp
      refine wpE_step hu' (fun _ => hX) (wp_mono ?_ hw)
      intro undone v _ hv
      exact wpE_fail hQ (fun _ => hX) hv
  · intro e t ht hYt
    refine wpE_step ht (fun _ => hX) (wp_unlockFile hY hYt (fun _ => wpE_kept _ _ _) ?_)
    intro u hu hYu
    obtain ⟨hp, hx⟩ := herr u hu hYu
    exact ⟨hp, fun closed => wpE_fail hQ (fun _ => hX) hx⟩

/-- The lock is released when the program fails. -/
theorem wpE_unlockOnError {n : LockName} {p : M α} (hs : Inv s) (hY : Keeps i Y)
    (hQ : ∀ a, Keeps i (Q a)) (hX : Keeps i X) (hp : WPE i p Q (fun _ => Y) s)
    (herr : ∀ t, Inv t → Y t → t.planning i = none ∧ X (t.released n i)) :
    WPE i (unlockOnError n p) Q (fun _ => X) s := by
  refine wpE_run hs (fun _ => hX) hp (fun a t _ h => wpE_pure (hQ a) h) ?_
  intro e t ht hYt
  refine wpE_step ht (fun _ => hX) (wp_unlockFile hY hYt (fun _ => wpE_kept _ _ _) ?_)
  intro u hu hYu
  obtain ⟨hp, hx⟩ := herr u hu hYu
  exact ⟨hp, fun closed => wpE_fail hQ (fun _ => hX) hx⟩

end Deferred

end Journal
