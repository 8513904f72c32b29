/-
# At most one acquirer holds the lock

The lock is not exclusive as it stands.  A `Release` whose delete took effect but whose answer was
lost may be made again; when its read fails it judges by the expiry of its own handle alone, and its
delete takes away the claim of whoever has the lock by then (`release_again_overlaps`).

`lock_exclusion` says that deletes like this one are all that can go wrong.  In a run in which no
`Release` and no abandoned create sends a delete while the claim of another acquirer is on the
sentinel, and no steal sends its delete when its budget is over, at most one acquirer holds the lock
at any moment.  The second condition is the stall that `tryStealExpired` documents.

An acquirer needs two facts before it takes the lock: nothing of its own is under way but reads
(`Still`), and the second read found a claim of its own that is older than the grace.  `wp_request`
and `wp_getPoolComment` say what is known after a call of the pool service; the rest follows the
code.

## What can be known when the lock is handed out

After a successful confirm the acquirer knows: its claim was on the sentinel at the second read;
that read was at least a grace after the create; nothing of its own is under way.  A delete that
could still take the claim away was sent before the read, and it lands within a round trip; so at
the moment of the read it has landed, or it was sent for another sentinel, or the claim has expired.
This is `Safe`, and two safe claims cannot be on one sentinel.

The proof is rely-guarantee (`Lib.Interleave`): each part of the acquire has one lemma, and what it
knows between two effects is a fact that survives the moves of others (`Steady`, `Lasting`).
-/
import PveCpi.Lock.Moves

namespace Lock

open Lib.Interleave

/-! ## 1. Where an acquirer stands

A fact that lasts survives the moves of others and the acquirer's own reads. -/

/-- The acquirer may send calls. -/
structure Ready (i : Nat) (s : Shared) : Prop where
  enrolled : i ∈ s.enrolled
  holding : NotHolding i s

/-- ... and nothing of its own is under way but reads. -/
structure Still (i : Nat) (s : Shared) : Prop extends Ready i s where
  quiet : Quiet i s

section Facts

variable {O : Owners} {i j : Nat} {s t : Shared} {e : Int}

theorem Ready.move (h : Move j s t) (hij : i ≠ j) (hr : Ready i s) : Ready i t :=
  ⟨h.enrolled hr.enrolled, hr.holding.move h hij⟩

theorem Still.move (h : Move j s t) (hij : i ≠ j) (hs : Still i s) : Still i t :=
  ⟨hs.toReady.move h hij, hs.quiet.move h hij⟩

/-- What must hold now for a call of process `i` to end with `Q`. -/
abbrev WP (O : Owners) (i : Nat) {α : Type} (p : Call α) (Q : α → Shared → Prop) (s : Shared) :
    Prop :=
  wp (S := system O) (Inv O) Move i p Q s

/-- An assertion survives what the others do. -/
abbrev Survives (O : Owners) (i : Nat) (P : Shared → Prop) : Prop :=
  Stable (S := system O) (Inv O) Move i P

/-- A fact that every move keeps while nothing of the acquirer is under way but reads. -/
def Lasting (O : Owners) (i : Nat) (F : Shared → Prop) : Prop :=
  ∀ j s t, Inv O s → Move j s t → Quiet i s → F s → F t

theorem Lasting.and {F G : Shared → Prop} (hF : Lasting O i F) (hG : Lasting O i G) :
    Lasting O i fun s => F s ∧ G s :=
  fun j s t hs hm hq h => ⟨hF j s t hs hm hq h.1, hG j s t hs hm hq h.2⟩

theorem lasting_true : Lasting O i fun _ => True := fun _ _ _ _ _ _ _ => trivial

theorem lasting_mine (e : Int) : Lasting O i (Mine i e) := fun _ _ _ _ hm hq h => h.move hm hq

theorem lasting_safe (e : Int) : Lasting O i (Safe i e) := fun _ _ _ hs hm hq h => h.move hm hs hq

theorem lasting_expired (comment : Text) : Lasting O i (Expired comment) :=
  fun _ _ _ _ hm _ h => h.move hm

/-- A moment that is over. -/
def Past (t : Int) (s : Shared) : Prop := t ≤ s.clock

theorem lasting_past (t : Int) : Lasting O i (Past t) :=
  fun _ _ _ _ hm _ h => le_trans h hm.clock_le

theorem lasting_seen (comment : Text) (since : Int) :
    Lasting O i fun s => Past since s ∧ Seen comment since s :=
  fun _ _ _ _ hm _ h => ⟨le_trans h.1 hm.clock_le, h.2.move hm h.1⟩

theorem lasting_restedBy (w : Int) : Lasting O i (RestedBy i w) :=
  fun _ _ _ _ hm hq h => h.move hm hq

/-- A claim of the acquirer that is on the sentinel is older than the grace. -/
def Rested (i : Nat) (s : Shared) : Prop := ∃ w, Past w s ∧ RestedBy i w s

theorem lasting_rested : Lasting O i (Rested i) :=
  fun _ _ _ _ hm hq ⟨w, hw, hr⟩ => ⟨w, le_trans hw hm.clock_le, hr.move hm hq⟩

theorem survives_ready : Survives O i (Ready i) := fun _ hj _ _ _ _ hm h => h.move hm hj.symm

theorem Lasting.survives {F : Shared → Prop} (hF : Lasting O i F) :
    Survives O i fun s => Still i s ∧ F s :=
  fun j hj s t hs _ hm h => ⟨h.1.move hm hj.symm, hF j s t hs hm h.1.quiet h.2⟩

/-- A step of the acquirer itself that sends nothing but a read keeps what lasts. -/
theorem Lasting.own {F : Shared → Prop} (hF : Lasting O i F) (hs : Inv O s) (hown : Own i s t)
    (hholders : t.holders = s.holders)
    (hflights : ∀ f ∈ t.flights, f ∈ s.flights ∨ f.request.isRead = true)
    (h : Still i s ∧ F s) : Still i t ∧ F t := by
  refine ⟨⟨⟨hown.enrolled i h.1.enrolled, fun e he => h.1.holding e (hholders ▸ he)⟩, ?_⟩,
    hF i s t hs (.own hown) h.1.quiet h.2⟩
  intro f hf hwho
  rcases hflights f hf with hf | hread
  · exact h.1.quiet f hf hwho
  · exact hread

theorem sendable_read (bound : Option Int) (h : Ready i s) : Sendable O i (.read bound) s :=
  ⟨h.enrolled, h.holding, fun _ hr => (by cases hr), fun _ _ hr => (by cases hr)⟩

/-- What is asked of an assertion that is to hold from one step of the acquirer to another: it
survives the others, a read that is sent, and a sleep. -/
structure Steady (O : Owners) (i : Nat) (P : Shared → Prop) : Prop where
  survives : Survives O i P
  ready : ∀ s, P s → Ready i s
  send : ∀ s bound, Inv O s → P s → P (s.send i (.read bound))
  nap : ∀ s wake, Inv O s → (∀ k, k ≠ i → wake k = s.wake k) → P s → P { s with wake := wake }

theorem steady_ready : Steady O i (Ready i) where
  survives := survives_ready
  ready _ h := h
  send _ _ _ h := ⟨h.enrolled, h.holding⟩
  nap _ _ _ _ h := ⟨h.enrolled, h.holding⟩

theorem Lasting.steady {F : Shared → Prop} (hF : Lasting O i F) :
    Steady O i fun s => Still i s ∧ F s where
  survives := hF.survives
  ready _ h := h.1.toReady
  send s bound hs h := by
    refine hF.own hs (hs.send (sendable_read _ h.1.toReady)).2 rfl (fun f hf => ?_) h
    rcases List.mem_cons.mp hf with rfl | hf
    · exact .inr rfl
    · exact .inl hf
  nap s wake hs hwake h :=
    hF.own hs (hs.nap wake hwake).2 rfl (fun f hf => .inl hf) h

/-- Two facts that last, one of them apart. -/
theorem Lasting.steady_and {F G : Shared → Prop} (hF : Lasting O i F) (hG : Lasting O i G) :
    Steady O i fun s => (Still i s ∧ F s) ∧ G s := by
  have hboth := (hF.and hG).steady
  refine ⟨fun j hj s t hs ht hm h => ?_, fun s h => h.1.1.toReady, fun s bound hs h => ?_,
    fun s wake hs hwake h => ?_⟩
  · obtain ⟨h1, h2, h3⟩ := hboth.survives j hj s t hs ht hm ⟨h.1.1, h.1.2, h.2⟩
    exact ⟨⟨h1, h2⟩, h3⟩
  · obtain ⟨h1, h2, h3⟩ := hboth.send s bound hs ⟨h.1.1, h.1.2, h.2⟩
    exact ⟨⟨h1, h2⟩, h3⟩
  · obtain ⟨h1, h2, h3⟩ := hboth.nap s wake hs hwake ⟨h.1.1, h.1.2, h.2⟩
    exact ⟨⟨h1, h2⟩, h3⟩

theorem steady_still : Steady O i (Still i) where
  survives _ hj _ _ _ _ hm h := h.move hm hj.symm
  ready _ h := h.toReady
  send s bound hs h := (lasting_true.steady.send s bound hs ⟨h, trivial⟩).1
  nap s wake hs hwake h := (lasting_true.steady.nap s wake hs hwake ⟨h, trivial⟩).1

end Facts

/-! ## 2. The effects -/

section Effects

variable {O : Owners} {i : Nat} {s : Shared} {P : Shared → Prop}

theorem wp_now (hP : Steady O i P) (hs : P s) :
    WP O i (perform .now) (fun t s => P s ∧ Past t s ∧ Shown t) s := by
  refine wp_perform hP.survives.kept hs (fun t => ?_) ?_
  · refine Stable.kept ?_
    refine hP.survives.and (Stable.and (fun j _ u v _ _ hm h => le_trans h hm.clock_le) ?_)
    exact stable_const _
  · intro t ht hPt ch a t' hx
    cases hx
    exact ⟨ht, Move.refl i t, hPt, le_refl _, ht.shown⟩

/-- The pause between two rounds changes nothing. -/
theorem wp_jitter (hP : Steady O i P) (hs : P s) : WP O i (perform .jitter) (fun _ => P) s := by
  refine wp_perform hP.survives.kept hs (fun _ => hP.survives.kept) ?_
  intro t ht hPt ch a t' hx
  have hsame : t' = t := by
    cases ch with
    | ok =>
      cases hx
      rfl
    | fail =>
      cases hx
      rfl
    | value n =>
      cases hx
      rfl
  subst hsame
  exact ⟨ht, Move.refl i t', hPt⟩

theorem wp_clusterLockPollWait {now deadline : Int} (hP : Steady O i P) (hinv : Inv O s)
    (hs : P s) : WP O i (clusterLockPollWait now deadline) (fun _ => P) s := by
  refine wp_bind (wp_mono ?_ (wp_jitter hP hs)) hinv
  intro a t _ ht
  exact wp_ret hP.survives.kept ht

/-- **A sleep.**  What is true of its end when it begins is so when it is over. -/
theorem wp_sleep {d : Int} {W : Int → Shared → Prop} (hP : Steady O i P)
    (hW : ∀ w, Steady O i fun s => P s ∧ W w s)
    (hstart : ∀ t, Inv O t → P t → W (t.clock + d) t) (hinv : Inv O s) (hs : P s) :
    WP O i (sleep d) (fun b s => P s ∧ (b = true → ∃ w, Past w s ∧ W w s)) s := by
  refine wp_bind (Q := fun b s => P s ∧ (b = true → ∃ w, Past w s ∧ W w s))
    (wp_perform hP.survives.kept hs (fun _ => wp_kept _ _) ?_) hinv
  intro t ht hPt ch a t' hx
  cases hx
  have hwake : ∀ k, k ≠ i → (if k = i then t.clock + d else t.wake k) = t.wake k :=
    fun k hk => if_neg hk
  obtain ⟨hinv', hown⟩ := ht.nap (i := i) _ hwake
  refine ⟨hinv', .own hown, ?_⟩
  have hstart' := (hW (t.clock + d)).nap t _ ht hwake ⟨hPt, hstart t ht hPt⟩
  -- Between the two effects the end of the sleep is written down.
  have hkept : Survives O i fun u => (P u ∧ W (t.clock + d) u) ∧ u.wake i = t.clock + d :=
    (hW _).survives.and fun j hj u v _ _ hm h => (hm.wake hj.symm).trans h
  refine wp_perform hkept.kept ⟨hstart', if_pos rfl⟩ (fun b => ?_) ?_
  · intro u v hv he h
    refine ⟨hP.survives.kept u v hv he h.1, fun hb => ?_⟩
    obtain ⟨w, hw, hWw⟩ := h.2 hb
    have hboth : Survives O i fun u => (P u ∧ W w u) ∧ Past w u :=
      (hW w).survives.and fun j _ u v _ _ hm h => le_trans h hm.clock_le
    have hnow := hboth.kept u v hv he ⟨⟨h.1, hWw⟩, hw⟩
    exact ⟨w, hnow.2, hnow.1.2⟩
  · intro u hu ⟨⟨hPu, hWu⟩, hwu⟩ ch' b u' hx'
    have hcases : u' = u ∧ (b = true → u.wake i ≤ u.clock) := by
      have hx'' : (if ch' = .fail then some (false, u) else
          if u.wake i ≤ u.clock then some (true, u) else none) = some (b, u') := hx'
      split at hx''
      · cases hx''
        exact ⟨rfl, fun hb => by cases hb⟩
      · split at hx''
        · rename_i hover
          cases hx''
          exact ⟨rfl, fun _ => hover⟩
        · cases hx''
    obtain ⟨rfl, hover⟩ := hcases
    exact ⟨hu, Move.refl i u', hPu, fun hb => ⟨t.clock + d, hwu ▸ hover hb, hWu⟩⟩

/-- A sleep that nothing is asked of. -/
theorem wp_pause {d : Int} (hP : Steady O i P) (hinv : Inv O s) (hs : P s) :
    WP O i (sleep d) (fun _ => P) s := by
  have hW : ∀ w : Int, Steady O i fun s => P s ∧ (fun (_ : Int) (_ : Shared) => True) w s := by
    intro w
    exact ⟨hP.survives.and (stable_const _), fun s h => hP.ready s h.1,
      fun s bound hs h => ⟨hP.send s bound hs h.1, trivial⟩,
      fun s wake hs hwake h => ⟨hP.nap s wake hs hwake h.1, trivial⟩⟩
  exact wp_mono (fun _ _ _ h => h.1) (wp_sleep hP hW (fun _ _ _ => trivial) hinv hs)

/-! ## 3. The calls of the pool service

A call has three ends: its answer, an error, and no answer in time, after which it is still under
way. -/

/-- An answer was there, or a call that was under way takes effect or is refused now. -/
theorem Move.reply {j : Nat} {t : Shared} (h : Move j s t) {n : Nat} {a : Reply}
    (ha : t.replies n = some a) :
    s.replies n = some a ∨ ∃ f ∈ s.flights, f.id = n ∧ (∀ g ∈ t.flights, g.id ≠ n) ∧
      ((t = s.land f ∧ a = (s.effect f).1) ∨ (t = s.close f a ∧ ∃ ch, a = refusal ch)) := by
  have hclosed : ∀ (f : Flight) (reply : Reply) (sentinel : Option Sentinel),
      ({ s.close f reply with sentinel := sentinel } : Shared).replies n = some a →
      s.replies n = some a ∨ (f.id = n ∧ a = reply ∧
        ∀ g ∈ ({ s.close f reply with sentinel := sentinel } : Shared).flights, g.id ≠ n) := by
    intro f reply sentinel hr
    have hr' : (if n = f.id then some reply else s.replies n) = some a := hr
    split at hr'
    · rename_i hid
      cases hr'
      refine .inr ⟨hid.symm, rfl, fun g hg => ?_⟩
      rw [hid]
      exact of_decide_eq_true (List.mem_filter.mp hg).2
    · exact .inl hr'
  cases h with
  | tick d => exact .inl ha
  | @land f hf hin =>
    rcases hclosed f _ _ ha with hold | ⟨hid, hreply, hgone⟩
    · exact .inl hold
    · exact .inr ⟨f, hf, hid, hgone, .inl ⟨rfl, hreply⟩⟩
  | @close f hf ch =>
    rcases hclosed f _ s.sentinel ha with hold | ⟨hid, hreply, hgone⟩
    · exact .inl hold
    · exact .inr ⟨f, hf, hid, hgone, .inr ⟨by rw [hreply], ch, hreply⟩⟩
  | own h => exact .inl (h.replies ▸ ha)

theorem await_step {n : Nat} {ch : Choice} {a : Reply} {t t' : Shared}
    (hx : exec O i (.await n) ch t = some (a, t')) : t' = t ∧
    (a = .failed ∨ t.replies n = some a) := by
  have hx' : (if ch = .fail then some (Reply.failed, t) else
      (t.replies n).map fun reply => (reply, t)) = some (a, t') := hx
  split at hx'
  · cases hx'
    exact ⟨rfl, .inl rfl⟩
  · obtain ⟨reply, hreply, heq⟩ := Option.map_eq_some_iff.mp hx'
    cases heq
    exact ⟨rfl, .inr hreply⟩

/-- **A read.**  `T` is what the comment tells at the moment of the read; it must last. -/
theorem wp_getPoolComment {bound : Option Int} {T : Option Text → Shared → Prop}
    (hP : Steady O i P) (hT : ∀ y, Survives O i fun s => P s ∧ T y s)
    (hread : ∀ t, Inv O t → P t → T (t.sentinel.map fun c => c.comment) t) (hinv : Inv O s)
    (hs : P s) :
    WP O i (getPoolComment bound) (fun r s => P s ∧ ∀ y, r = some y → T y s) s := by
  have hrequest : WP O i (request (.read bound))
      (fun r s => P s ∧ ∀ y, r = .comment y → T y s) s := by
    have hkept : ∀ a : Reply, Kept (S := system O) (Inv O) Move i
        fun s => P s ∧ ∀ y, a = .comment y → T y s := by
      intro a u v hv he h
      refine ⟨hP.survives.kept u v hv he h.1, fun y hy => ?_⟩
      exact ((hT y).kept u v hv he ⟨h.1, h.2 y hy⟩).2
    refine wp_bind (wp_perform hP.survives.kept hs (fun _ => wp_kept _ _) ?_) hinv
    intro t ht hPt ch n t' hx
    cases hx
    obtain ⟨hinv', hown⟩ := ht.send (sendable_read bound (hP.ready t hPt))
    refine ⟨hinv', .own hown, ?_⟩
    have hwaiting : Survives O i fun u => P u ∧ t.issued < u.issued ∧
        (∀ f ∈ u.flights, f.id = t.issued → f.request.isRead = true) ∧
        ∀ y, u.replies t.issued = some (.comment y) → T y u := by
      intro j hj u v hu hv hm ⟨h1, h2, h3, h4⟩
      refine ⟨hP.survives j hj u v hu hv hm h1, lt_of_lt_of_le h2 hm.issued_le, fun f hf hid => ?_,
        fun y hy => ?_⟩
      · rcases hm.flights hf with hf | ⟨-, hnew⟩
        · exact h3 f hf hid
        · omega
      · have hTu : T y u := by
          rcases hm.reply hy with hold | ⟨f, hf, hid, -, ⟨-, heffect⟩ | ⟨-, ch, hch⟩⟩
          · exact h4 y hold
          · have hr := h3 f hf hid
            unfold Shared.effect at heffect
            split at heffect
            · rename_i heq
              rw [heq] at hr
              cases hr
            · cases heffect
              exact hread u hu h1
            · rename_i heq
              rw [heq] at hr
              cases hr
          · cases ch <;> cases hch
        exact (hT y j hj u v hu hv hm ⟨h1, hTu⟩).2
    refine wp_perform hwaiting.kept ⟨hP.send t bound ht hPt, Nat.lt_succ_self _, fun f hf hid => ?_,
      fun y hy => ?_⟩ hkept ?_
    · rcases List.mem_cons.mp hf with rfl | hf
      · rfl
      · have := (ht.sent f hf).2.1
        omega
    · have :=
        ht.replies t.issued
          (by rw [show t.replies t.issued = _ from hy]; exact Option.some_ne_none _)
      omega
    · intro u hu ⟨h1, _, _, h4⟩ ch' a u' hx'
      obtain ⟨rfl, hfailed | hreply⟩ := await_step (O := O) (i := i) hx'
      · exact ⟨hu, Move.refl i u', h1, fun y hy => by rw [hfailed] at hy; cases hy⟩
      · exact ⟨hu, Move.refl i u', h1, fun y hy => h4 y (hy ▸ hreply)⟩
  refine wp_bind (wp_mono ?_ hrequest) hinv
  intro r t _ ⟨hPt, hTt⟩
  have hret : ∀ x : Option (Option Text), (∀ y, x = some y → T y t) →
      WP O i (.ret x) (fun r s => P s ∧ ∀ y, r = some y → T y s) t := by
    intro x hx
    refine wp_ret ?_ ⟨hPt, hx⟩
    intro u v hv he h
    exact ⟨hP.survives.kept u v hv he h.1,
      fun y hy => ((hT y).kept u v hv he ⟨h.1, h.2 y hy⟩).2⟩
  cases r with
  | comment c =>
    refine hret (some c) fun y hy => ?_
    cases hy
    exact hTt c rfl
  | created => exact hret none fun y hy => (by cases hy)
  | duplicate => exact hret none fun y hy => (by cases hy)
  | notAttempted => exact hret none fun y hy => (by cases hy)
  | refused => exact hret none fun y hy => (by cases hy)
  | deleted => exact hret none fun y hy => (by cases hy)
  | notFound => exact hret none fun y hy => (by cases hy)
  | claimChanged => exact hret none fun y hy => (by cases hy)
  | failed => exact hret none fun y hy => (by cases hy)

/-- The answers after which a call is over. -/
def Reply.settles : Reply → Bool
  | .failed => false
  | _ => true

/-- What is known when a create or a delete has answered.  `quiet` says that nothing else was under
way before. -/
structure Answered (i : Nat) (e : Int) (quiet : Prop) (a : Reply) (s : Shared) : Prop where
  ready : Ready i s
  still : quiet → a.settles = true → Still i s
  mine : quiet → a = .created → Mine i e s

theorem survives_answered {e : Int} {quiet : Prop} {a : Reply} :
    Survives O i (Answered i e quiet a) := by
  intro j hj s t hs _ hm h
  refine ⟨h.ready.move hm hj.symm, fun hq ha => (h.still hq ha).move hm hj.symm, fun hq ha => ?_⟩
  have hstill := h.still hq (by rw [ha]; rfl)
  exact (h.mine hq ha).move hm hstill.quiet

/-- A create or delete that process `i` has sent with number `n`, and what is known meanwhile. -/
structure Awaits (i : Nat) (e : Int) (quiet : Prop) (r : Request) (n : Nat) (s : Shared) :
    Prop where
  ready : Ready i s
  issued : n < s.issued
  flight : ∀ f ∈ s.flights, f.id = n → f.who = i ∧ f.request = r
  only : quiet → ∀ f ∈ s.flights, f.who = i → f.id = n ∨ f.request.isRead = true
  ended : ∀ a, s.replies n = some a → (∀ f ∈ s.flights, f.id ≠ n) ∧
    (quiet → a = .created → Mine i e s)

theorem Awaits.quiet {e : Int} {quiet : Prop} {r : Request} {n : Nat} (h : Awaits i e quiet r n s)
    (hq : quiet) (hgone : ∀ f ∈ s.flights, f.id ≠ n) : Quiet i s := by
  intro f hf hwho
  rcases h.only hq f hf hwho with hid | hread
  · exact absurd hid (hgone f hf)
  · exact hread

/-- A create that takes effect puts the claim of its text on the sentinel. -/
theorem mine_of_created {e : Int} {f : Flight}
    (htext : ∀ text, f.request = .create text → decodeLockExpiry text = some e)
    (hcreated : (s.effect f).1 = .created) : Mine i e (s.land f) := by
  intro c hc hi
  rcases land_sentinel s f with heq | ⟨text, hrequest, -, heq⟩ | ⟨-, heq⟩
  · -- The sentinel was there, so the create did not succeed.
    exfalso
    rw [heq] at hc
    unfold Shared.effect at hcreated
    rw [hc] at hcreated
    split at hcreated
    · cases hcreated
    · cases hcreated
    · cases hcreated
  · rw [heq] at hc
    cases hc
    exact htext text hrequest
  · rw [heq] at hc
    cases hc

/-- A call under way stays under way until it lands: the moves of others add calls of their own and
do not touch this one. -/
theorem survives_awaits {e : Int} {quiet : Prop} {r : Request} {n : Nat}
    (htext : ∀ text, r = .create text → decodeLockExpiry text = some e) :
    Survives O i (Awaits i e quiet r n) := by
  intro j hj s t hs _ hm h
  have hnew : ∀ f ∈ t.flights, f ∈ s.flights ∨ (f.who ≠ i ∧ f.id ≠ n) := by
    intro f hf
    rcases hm.flights hf with hf | ⟨hwho, hid⟩
    · exact .inl hf
    · have := h.issued
      exact .inr ⟨hwho ▸ hj, by omega⟩
  refine ⟨h.ready.move hm hj.symm, lt_of_lt_of_le h.issued hm.issued_le, fun f hf hid => ?_,
    fun hq f hf hwho => ?_, fun a ha => ?_⟩
  · rcases hnew f hf with hf | ⟨-, hne⟩
    · exact h.flight f hf hid
    · exact absurd hid hne
  · rcases hnew f hf with hf | ⟨hne, -⟩
    · exact h.only hq f hf hwho
    · exact absurd hwho hne
  · rcases hm.reply ha with hold | ⟨f, hf, hid, hgone, hover⟩
    · obtain ⟨hgone, hmine⟩ := h.ended a hold
      refine ⟨fun f hf => ?_, fun hq hcreated => (hmine hq hcreated).move hm (h.quiet hq hgone)⟩
      rcases hnew f hf with hf | ⟨-, hne⟩
      · exact hgone f hf
      · exact hne
    · refine ⟨hgone, fun _ hcreated => ?_⟩
      have hrequest := (h.flight f hf hid).2
      rcases hover with ⟨rfl, heffect⟩ | ⟨-, ch, hch⟩
      · exact mine_of_created (fun text ht => htext text (hrequest ▸ ht))
          (heffect.symm.trans hcreated)
      · rw [hcreated] at hch
        cases ch <;> cases hch

/-- **A create or a delete.** -/
theorem wp_request (quiet : Prop) {r : Request} {e : Int} (hP : Survives O i P)
    (hsendable : ∀ t, P t → Sendable O i r t) (hquiet : ∀ t, P t → quiet → Quiet i t)
    (htext : ∀ text, r = .create text → decodeLockExpiry text = some e) (hinv : Inv O s)
      (hs : P s) :
    WP O i (request r) (Answered i e quiet) s := by
  refine wp_bind (wp_perform hP.kept hs (fun _ => wp_kept _ _) ?_) hinv
  intro t ht hPt ch n t' hx
  cases hx
  obtain ⟨hinv', hown⟩ := ht.send (hsendable t hPt)
  refine ⟨hinv', .own hown, ?_⟩
  have hsent : Awaits i e quiet r t.issued (Shared.send t i r) := by
    refine ⟨⟨(hsendable t hPt).enrolled, (hsendable t hPt).holding⟩, Nat.lt_succ_self _,
      fun f hf hid => ?_, fun hq f hf hwho => ?_, fun a ha => ?_⟩
    · rcases List.mem_cons.mp hf with rfl | hf
      · exact ⟨rfl, rfl⟩
      · have := (ht.sent f hf).2.1
        omega
    · rcases List.mem_cons.mp hf with rfl | hf
      · exact .inl rfl
      · exact .inr (hquiet t hPt hq f hf hwho)
    · have :=
        ht.replies t.issued
          (by rw [show t.replies t.issued = _ from ha]; exact Option.some_ne_none _)
      omega
  refine wp_perform (survives_awaits htext).kept hsent (fun a => survives_answered.kept) ?_
  intro u hu h ch' a u' hx'
  obtain ⟨rfl, hfailed | hreply⟩ := await_step (O := O) (i := i) hx'
  · refine ⟨hu, Move.refl i u', h.ready, fun _ ha => ?_, fun _ ha => ?_⟩
    · rw [hfailed] at ha
      cases ha
    · rw [hfailed] at ha
      cases ha
  · obtain ⟨hgone, hmine⟩ := h.ended a hreply
    exact ⟨hu, Move.refl i u', h.ready, fun hq _ => ⟨h.ready, h.quiet hq hgone⟩, hmine⟩

end Effects

/-! ## 4. The acquire

From the inside out: a confirm, a create, a steal, the loop. -/

section Acquire

variable {O : Owners} {i : Nat} {s : Shared} {P : Shared → Prop} {a : Acquire} {deadline : Int}

theorem sendable_own {comment : Text} (h : Ready i s) : Sendable O i (.delete comment .own) s :=
  ⟨h.enrolled, h.holding, fun _ hr => (by cases hr), fun _ _ hr => (by cases hr)⟩

/-- What is known after an abandon. -/
structure Abandoned (i : Nat) (quiet : Prop) (gone : Bool) (s : Shared) : Prop where
  ready : Ready i s
  still : quiet → gone = true → Still i s

theorem survives_abandoned {quiet : Prop} {gone : Bool} : Survives O i (Abandoned i quiet gone) :=
  fun _ hj _ _ _ _ hm h =>
    ⟨h.ready.move hm hj.symm, fun hq hg => (h.still hq hg).move hm hj.symm⟩

/-- Giving up a create that may still land.  The answer says whether the acquirer may go on as if it
had never been sent. -/
theorem wp_abandonLockCreate (quiet : Prop) {owner : Text} (hP : Steady O i P)
    (hquiet : ∀ t, P t → quiet → Quiet i t) (hinv : Inv O s) (hs : P s) :
    WP O i (abandonLockCreate owner a) (Abandoned i quiet) s := by
  have hfalse : ∀ t, P t → WP O i (.ret false) (Abandoned i quiet) t :=
    fun t ht => wp_ret survives_abandoned.kept ⟨hP.ready t ht, fun _ hg => by cases hg⟩
  refine wp_bind (wp_mono ?_ (wp_getPoolComment (T := fun _ _ => True) hP
    (fun _ => hP.survives.and (stable_const _)) (fun _ _ _ => trivial) hinv hs)) hinv
  rintro comment t ht ⟨hPt, -⟩
  rcases comment with - | - | comment
  · exact hfalse t hPt
  · exact hfalse t hPt
  · dsimp only
    split
    · split
      · exact hfalse t hPt
      · refine wp_bind (wp_mono ?_ (wp_now hP hPt)) ht
        rintro now u hu ⟨hPu, -⟩
        split
        · refine wp_bind (wp_mono ?_ (wp_request quiet (e := 0) hP.survives
            (fun v hv => sendable_own (hP.ready v hv)) hquiet (fun _ hr => by cases hr) hu hPu)) hu
          intro reply v _ hv
          have hret : ∀ gone, (gone = true → reply.settles = true) →
              WP O i (.ret gone) (Abandoned i quiet) v :=
            fun gone hgone => wp_ret survives_abandoned.kept
              ⟨hv.ready, fun hq hg => hv.still hq (hgone hg)⟩
          split
          · exact hret true fun _ => rfl
          · exact hret true fun _ => rfl
          · exact hret false fun hg => (by cases hg)
        · exact hfalse u hPu
    · exact hfalse t hPt

theorem wp_giveUpLockCreate {owner : Text} {cause : AcquireError} (hinv : Inv O s)
    (hs : Ready i s) : WP O i (giveUpLockCreate owner a cause) (fun _ => Ready i) s := by
  refine wp_bind (wp_mono ?_ (wp_abandonLockCreate False steady_ready
    (fun _ _ hq => hq.elim) hinv hs)) hinv
  intro gone t _ ht
  exact wp_ret survives_ready.kept ht.ready

theorem wp_createFailed {owner : Text} {step : CreateStep} {reply : Reply} (hinv : Inv O s)
    (hs : Ready i s) : WP O i (createFailed owner a step reply) (fun _ => Ready i) s := by
  unfold createFailed
  split
  · exact wp_ret survives_ready.kept hs
  · exact wp_ret survives_ready.kept hs
  · exact wp_giveUpLockCreate hinv hs

/-- What is known after the reads of a pass.  `R` is what a claim of our own tells. -/
def Found (i : Nat) (F R : Shared → Prop) : Except AcquireError (Text × Bool) → Shared → Prop
  | .ok (_, true), s => Still i s ∧ F s ∧ R s
  | .ok (_, false), s => Still i s ∧ F s
  | .error _, s => Ready i s

theorem survives_found {F R : Shared → Prop} (hF : Lasting O i F) (hR : Lasting O i R)
    (r : Except AcquireError (Text × Bool)) : Survives O i (Found i F R r) := by
  rcases r with err | ⟨text, - | -⟩
  · exact survives_ready
  · exact hF.survives
  · exact (hF.and hR).survives

theorem wp_found {F R : Shared → Prop} (hF : Lasting O i F) (hR : Lasting O i R)
    {r : Except AcquireError (Text × Bool)} (h : Found i F R r s) :
    WP O i (.ret r) (Found i F R) s :=
  wp_ret (survives_found hF hR r).kept h

theorem wp_readLockClaim {T : Option Text → Shared → Prop} (hP : Steady O i P)
    (hT : ∀ y, Survives O i fun s => P s ∧ T y s)
    (hread : ∀ t, Inv O t → P t → T (t.sentinel.map fun c => c.comment) t) (hinv : Inv O s)
    (hs : P s) :
    WP O i (readLockClaim a deadline) (fun r s => P s ∧ ∀ y, r = some y → T y s) s := by
  refine wp_bind (wp_mono ?_ (wp_now hP hs)) hinv
  rintro now t ht ⟨hPt, -⟩
  exact wp_getPoolComment hP hT hread ht hPt

/-- A comment that carries the claim of an acquirer is that of its own sentinel. -/
theorem Inv.creator_of_carries (h : Inv O s) {c : Sentinel} (hc : s.sentinel = some c)
    (hcarries : carriesClaim c.comment (O.token i) = true) : c.creator = some i := by
  cases hcreator : c.creator with
  | none =>
    rw [(h.foreign c hc hcreator).carries i] at hcarries
    cases hcarries
  | some k =>
    obtain ⟨e, hclaim⟩ := h.claim c hc k hcreator
    rw [hclaim.carries i hcarries]

/-- Reading the sentinel.  A comment with the own token was written by an own create, since tokens
are not shared. -/
theorem wp_sentinelClaim {F R : Shared → Prop} (hF : Lasting O i F) (hR : Lasting O i R)
    (hfound : ∀ t, Inv O t → Still i t ∧ F t → ∀ c, t.sentinel = some c → c.creator = some i → R t)
    (hinv : Inv O s) (hs : Still i s ∧ F s) :
    WP O i (sentinelClaim (O.token i) a deadline)
      (fun r s => (Still i s ∧ F s) ∧ ∀ text, r = some (text, true) → R s) s := by
  have hkept : ∀ r : Option (Text × Bool), Kept (S := system O) (Inv O) Move i
      fun s => (Still i s ∧ F s) ∧ ∀ text, r = some (text, true) → R s := by
    intro r u v hv he h
    refine ⟨hF.survives.kept u v hv he h.1, fun text ht => ?_⟩
    exact ((hF.and hR).survives.kept u v hv he ⟨h.1.1, h.1.2, h.2 text ht⟩).2.2
  let T : Option Text → Shared → Prop := fun y s =>
    ∀ comment, y = some comment → carriesClaim comment (O.token i) = true → R s
  refine wp_bind (wp_mono ?_ (wp_readLockClaim (T := T) hF.steady ?_ ?_ hinv hs)) hinv
  · rintro r t _ ⟨hPt, hTt⟩
    rcases r with - | - | comment
    · exact wp_ret (hkept none) ⟨hPt, fun text ht => by cases ht⟩
    · exact wp_ret (hkept (some ([], false))) ⟨hPt, fun text ht => by cases ht⟩
    · refine wp_ret (hkept (some (comment, carriesClaim comment (O.token i)))) ⟨hPt, ?_⟩
      intro text ht
      exact hTt (some comment) rfl comment rfl (Prod.mk.inj (Option.some.inj ht)).2
  · intro y j hj u v hu hv hm h
    refine ⟨hF.survives j hj u v hu hv hm h.1, fun comment hy hcarries => ?_⟩
    exact hR j u v hu hm h.1.1.quiet (h.2 comment hy hcarries)
  · intro t ht hPt comment hy hcarries
    obtain ⟨c, hc, rfl⟩ := Option.map_eq_some_iff.mp hy
    exact hfound t ht hPt c hc (ht.creator_of_carries hc hcarries)

/-- **The reads of a pass.** -/
theorem wp_confirmRead {F R : Shared → Prop} (hF : Lasting O i F) (hR : Lasting O i R)
    (hfound : ∀ t, Inv O t → Still i t ∧ F t → ∀ c, t.sentinel = some c → c.creator = some i → R t)
    (rounds : Nat) : ∀ {s : Shared}, Inv O s → Still i s ∧ F s →
    WP O i (confirmRead (O.token i) a deadline rounds) (Found i F R) s := by
  have hsteady := hF.steady
  induction rounds with
  | zero => exact fun _ hs => wp_found (r := .error .cut) hF hR hs.1.toReady
  | succ rounds ih =>
    intro s hinv hs
    have hgiveUp : ∀ t, Inv O t → Ready i t →
        WP O i (giveUpLockCreate (O.token i) a .stateUnknown >>= fun err =>
          Prog.ret (Except.error err)) (Found i F R) t := by
      intro t ht hready
      refine wp_bind (wp_mono ?_ (wp_giveUpLockCreate ht hready)) ht
      intro err u _ hu
      exact wp_found (r := .error err) hF hR hu
    refine wp_bind (wp_mono ?_ (wp_sentinelClaim hF hR hfound hinv hs)) hinv
    intro r t ht ⟨hPt, hRt⟩
    rcases r with - | ⟨text, mine⟩
    · -- The read failed: again, until the deadline.
      refine wp_bind (wp_mono ?_ (wp_now hsteady hPt)) ht
      rintro now u hu ⟨hPu, -⟩
      split
      · refine wp_bind (wp_mono ?_ (wp_clusterLockPollWait hsteady hu hPu)) hu
        intro wait v hv hPv
        refine wp_bind (wp_mono ?_ (wp_pause hsteady hv hPv)) hv
        intro ended w hw hPw
        cases ended with
        | true => exact ih hw hPw
        | false => exact hgiveUp w hw hPw.1.toReady
      · exact hgiveUp u hu hPu.1.toReady
    · cases mine with
      | true => exact wp_found (r := .ok (text, true)) hF hR ⟨hPt.1, hPt.2, hRt text rfl⟩
      | false => exact wp_found (r := .ok (text, false)) hF hR hPt

/-- What is known after a confirm. -/
def Confirmed (i : Nat) : Except Stop (Option Handle) → Shared → Prop
  | .ok (some h), s => Still i s ∧ Safe i h.expiry s
  | .ok none, s => Still i s
  | .error (.short _ true), s => Still i s
  | .error _, s => Ready i s

theorem wp_confirmed {r : Except Stop (Option Handle)} (h : Confirmed i r s) :
    WP O i (.ret r) (Confirmed i) s := by
  refine wp_ret (Stable.kept ?_) h
  rcases r with (err | ⟨err, - | -⟩) | (- | handle)
  · exact survives_ready
  · exact survives_ready
  · exact steady_still.survives
  · exact steady_still.survives
  · exact (lasting_safe handle.expiry).survives

/-- **The lock is handed out for a safe claim only.**  The expiry is checked against the clock once
more, and a claim that is too short is given up. -/
theorem wp_handOut {expiry : Int} {claim : Text} (hinv : Inv O s)
    (hs : Still i s ∧ Safe i expiry s) :
    WP O i (handOut (O.token i) a expiry claim) (Confirmed i) s := by
  have hsteady := (lasting_safe (O := O) (i := i) expiry).steady
  refine wp_bind (wp_mono ?_ (wp_now hsteady hs)) hinv
  rintro now t ht ⟨hPt, -⟩
  split
  · exact wp_confirmed hPt
  · refine wp_bind (wp_mono ?_ (wp_now hsteady hPt)) ht
    rintro later u hu ⟨hPu, -⟩
    refine wp_bind (wp_mono ?_ (wp_abandonLockCreate True hsteady
      (fun v hv _ => hv.1.quiet) hu hPu)) hu
    intro gone v _ hv
    cases gone with
    | true => exact wp_confirmed (hv.still trivial rfl)
    | false => exact wp_confirmed hv.ready

/-- **A confirm.**  The lock is handed out only for a claim that is safe.  Two reads a grace apart
have both found it, and in between every older delete has landed. -/
theorem wp_confirmLockCreate {expiry : Int} {rounds : Nat} (hgrace : a.settings.grace = true)
    (hinv : Inv O s) (hs : Still i s ∧ Mine i expiry s) :
    WP O i (confirmLockCreate (O.token i) a expiry deadline rounds) (Confirmed i) s := by
  have hmine := lasting_mine (O := O) (i := i) expiry
  have hpause : a.settings.graceDuration = clusterLockDefaultGrace := by
    rw [Settings.graceDuration, hgrace]
    rfl
  refine wp_bind (wp_mono ?_ (wp_confirmRead hmine lasting_true (fun _ _ _ _ _ _ => trivial)
    rounds hinv hs)) hinv
  intro r t ht hPt
  rcases r with err | ⟨claim, - | -⟩
  · exact wp_confirmed hPt
  · exact wp_confirmed hPt.1
  · dsimp only
    rw [if_pos hgrace]
    -- The claim was created before the sleep began, so it is older than the grace at its end.
    have hsleep := wp_sleep (d := a.settings.graceDuration) (W := fun w => RestedBy i w)
      hmine.steady (fun w => hmine.steady_and (lasting_restedBy w)) ?_ ht ⟨hPt.1, hPt.2.1⟩
    · refine wp_bind (wp_mono ?_ hsleep) ht
      intro ended u hu ⟨hPu, hover⟩
      cases ended with
      | false =>
        refine wp_bind (wp_mono ?_ (wp_giveUpLockCreate hu hPu.1.toReady)) hu
        intro err v _ hv
        exact wp_confirmed hv
      | true =>
        have hrested : Rested i u := hover rfl
        refine wp_bind (wp_mono ?_ (wp_confirmRead (hmine.and lasting_rested)
          (lasting_safe expiry) ?_ rounds hu ⟨hPu.1, hPu.2, hrested⟩)) hu
        · intro r v hv hPv
          rcases r with err | ⟨claim', - | -⟩
          · exact wp_confirmed hPv
          · exact wp_confirmed hPv.1
          · exact wp_handOut hv ⟨hPv.1, hPv.2.2⟩
        · intro v _ ⟨_, hmine', w, hw, hrested'⟩ c hc hi _ _
          exact ⟨c, hc, hi, hmine' c hc hi, le_trans (hrested' c hc hi) hw⟩
    · intro u hu _ c hc _
      have hsince := hu.since c hc
      rw [hpause]
      omega

/-- A create of the acquirer, from where nothing of its own is under way. -/
theorem wp_create {now : Int} (hnow : Shown now) (hpos : 0 < a.ttl) (hinv : Inv O s)
    (hs : Still i s) :
    WP O i (request (.create (encodeLockComment (O.token i) (claimExpiry now a.ttl))))
      (Answered i (claimExpiry now a.ttl) True) s := by
  have hclaim := isClaim_encode O i hnow hpos a.ttl_lt
  refine wp_request _ steady_still.survives (fun t ht => ⟨ht.enrolled, ht.holding, ?_, ?_⟩)
    (fun t ht _ => ht.quiet) ?_ hinv hs
  · intro text hr
    cases hr
    exact ⟨_, hclaim⟩
  · intro comment started hr
    cases hr
  · intro text hr
    cases hr
    exact hclaim.expiry

/-- The end of `stealExpired`: the lock is created anew. -/
def recreateLock (owner : Text) (a : Acquire) (deadline : Int) (rounds : Nat) (started : Int) :
    Call (Except Stop (Option Handle)) := do
  let now ← perform .now
  if clusterLockStealBudget < now - started then return .ok none
  else
    let now ← perform .now
    let expiry := claimExpiry now a.ttl
    match ← request (.create (encodeLockComment owner expiry)) with
    | .created => confirmLockCreate owner a expiry deadline rounds
    | .duplicate => return .ok none
    | reply => return .error (.error (← createFailed owner a .stealRecreateLock reply))

/-- **The delete and the new create of a steal.** -/
theorem wp_stealExpired {rounds : Nat} {comment : Text} {started : Int}
    (hgrace : a.settings.grace = true) (hpos : 0 < a.ttl) (hinv : Inv O s)
    (hs : Still i s ∧ (Past started s ∧ Seen comment started s) ∧ Expired comment s) :
    WP O i (stealExpired (O.token i) a deadline rounds comment started) (Confirmed i) s := by
  have hlasting := (lasting_seen (O := O) (i := i) comment started).and (lasting_expired comment)
  refine wp_bind (wp_mono ?_ (wp_now hlasting.steady hs)) hinv
  rintro now t ht ⟨hPt, -⟩
  split
  · exact wp_confirmed hPt.1
  · refine wp_bind (wp_mono ?_ (wp_request True (e := 0) hlasting.survives
      (fun u hu => ⟨hu.1.enrolled, hu.1.holding, fun _ hr => (by cases hr), ?_⟩)
      (fun u hu _ => hu.1.quiet) (fun _ hr => by cases hr) ht hPt)) ht
    · -- Once the delete has answered, the lock is created anew.
      have hnext : ∀ u, Inv O u → Still i u →
          WP O i (recreateLock (O.token i) a deadline rounds started) (Confirmed i) u := by
        intro u hu hstill
        unfold recreateLock
        refine wp_bind (wp_mono ?_ (wp_now steady_still hstill)) hu
        rintro now v hv ⟨hv', -⟩
        split
        · exact wp_confirmed hv'
        · refine wp_bind (wp_mono ?_ (wp_now steady_still hv')) hv
          rintro now w hw ⟨hw', -, hshown⟩
          refine wp_bind (wp_mono ?_ (wp_create hshown hpos hw hw')) hw
          intro reply x hx hreply
          split
          · exact wp_confirmLockCreate hgrace hx
              ⟨hreply.still trivial rfl, hreply.mine trivial rfl⟩
          · exact wp_confirmed (hreply.still trivial rfl)
          · refine wp_bind (wp_mono ?_ (wp_createFailed hx hreply.ready)) hx
            intro err y _ hy
            exact wp_confirmed hy
      intro reply u hu hreply
      split
      · exact hnext u hu (hreply.still trivial rfl)
      · exact hnext u hu (hreply.still trivial rfl)
      · exact wp_confirmed (hreply.still trivial rfl)
      · exact wp_confirmed hreply.ready
    · intro comment' started' hr
      cases hr
      exact ⟨hu.2.2, hu.2.1.2⟩

/-- A comment that is of nobody whose time is not over is read once more, and stolen. -/
theorem wp_reread {rounds : Nat} {comment : Text} (hgrace : a.settings.grace = true)
    (hpos : 0 < a.ttl) (hinv : Inv O s) (hs : Still i s ∧ Expired comment s) :
    WP O i (do
      let started ← perform .now
      match ← readLockClaim a deadline with
      | none => return .error (.error (.holderUnknown .rereadHolder))
      | some none => return .ok none
      | some (some current) =>
        if current = comment then stealExpired (O.token i) a deadline rounds comment started
        else return .ok none) (Confirmed i) s := by
  have hexpired := lasting_expired (O := O) (i := i) comment
  refine wp_bind (wp_mono ?_ (wp_now hexpired.steady hs)) hinv
  rintro started t ht ⟨hPt, hpast, -⟩
  let T : Option Text → Shared → Prop :=
    fun y s => ∀ current, y = some current → Seen current started s
  have hF := hexpired.and (lasting_past (O := O) (i := i) started)
  refine wp_bind (wp_mono ?_ (wp_readLockClaim (T := T) hF.steady ?_ ?_ ht ⟨hPt.1, hPt.2, hpast⟩))
    ht
  · intro r u hu ⟨hPu, hTu⟩
    rcases r with - | - | current
    · exact wp_confirmed hPu.1.toReady
    · exact wp_confirmed hPu.1
    · dsimp only
      split
      · rename_i heq
        have hseen := hTu (some current) rfl current rfl
        rw [heq] at hseen
        exact wp_stealExpired hgrace hpos hu ⟨hPu.1, ⟨hPu.2.2, hseen⟩, hPu.2.1⟩
      · exact wp_confirmed hPu.1
  · intro y j hj u v hu hv hm h
    refine ⟨hF.survives j hj u v hu hv hm h.1, fun current hy => ?_⟩
    exact (h.2 current hy).move hm h.1.2.2
  · intro u _ _ current hy c hc
    rw [hc] at hy
    cases hy
    exact .inl rfl

/-- A comment that was read is judged. -/
theorem wp_judge {rounds : Nat} {comment : Text} (hgrace : a.settings.grace = true)
    (hpos : 0 < a.ttl) (hinv : Inv O s)
    (hs : Still i s ∧ ∀ e, decodeLockExpiry comment = some e → Mine i e s) :
    WP O i (do
      let now ← perform .now
      match (decodeLockExpiry comment).filter fun exp => decide (now < exp) with
      | some exp =>
        if decodeLockOwner comment = some (O.token i) then
          let now ← perform .now
          if now + a.settings.releaseMargin < exp then
            confirmLockCreate (O.token i) a exp deadline rounds
          else return .ok none
        else return .ok none
      | none =>
        let started ← perform .now
        match ← readLockClaim a deadline with
        | none => return .error (.error (.holderUnknown .rereadHolder))
        | some none => return .ok none
        | some (some current) =>
          if current = comment then stealExpired (O.token i) a deadline rounds comment started
          else return .ok none) (Confirmed i) s := by
  have hF : Lasting O i fun s => ∀ e, decodeLockExpiry comment = some e → Mine i e s :=
    fun j u v hu hm hq h e he => (h e he).move hm hq
  refine wp_bind (wp_mono ?_ (wp_now hF.steady hs)) hinv
  rintro now t ht ⟨hPt, hpast, -⟩
  cases hlive : (decodeLockExpiry comment).filter fun exp => decide (now < exp) with
  | some exp =>
    have hexp : decodeLockExpiry comment = some exp := (Option.filter_eq_some_iff.mp hlive).1
    dsimp only
    split
    · refine wp_bind (wp_mono ?_ (wp_now hF.steady hPt)) ht
      rintro later u hu ⟨hPu, -⟩
      split
      · exact wp_confirmLockCreate hgrace hu ⟨hPu.1, hPu.2 exp hexp⟩
      · exact wp_confirmed hPu.1
    · exact wp_confirmed hPt.1
  | none =>
    have hexpired : Expired comment t := by
      intro e he
      rw [he] at hlive
      have hnot : ¬now < e := by
        intro hlt
        rw [Option.filter_some, if_pos (decide_eq_true hlt)] at hlive
        cases hlive
      exact le_trans (not_lt.mp hnot) hpast
    exact wp_reread hgrace hpos ht ⟨hPt.1, hexpired⟩

/-- **A steal.** -/
theorem wp_tryStealExpired {rounds : Nat} (hgrace : a.settings.grace = true) (hpos : 0 < a.ttl)
    (hinv : Inv O s) (hs : Still i s) :
    WP O i (tryStealExpired (O.token i) a deadline rounds) (Confirmed i) s := by
  let T : Option Text → Shared → Prop := fun y s =>
    ∀ comment e, y = some comment → decodeLockExpiry comment = some e → Mine i e s
  refine wp_bind (wp_mono ?_ (wp_readLockClaim (T := T) steady_still ?_ ?_ hinv hs)) hinv
  · intro r t ht ⟨hPt, hTt⟩
    rcases r with - | - | comment
    · exact wp_confirmed hPt.toReady
    · exact wp_confirmed hPt
    · have hmine : ∀ e, decodeLockExpiry comment = some e → Mine i e t :=
        fun e he => hTt (some comment) rfl comment e rfl he
      exact wp_judge hgrace hpos ht ⟨hPt, hmine⟩
  · intro y j hj u v hu hv hm h
    exact ⟨h.1.move hm hj.symm, fun comment e hy he => (h.2 comment e hy he).move hm h.1.quiet⟩
  · intro t _ _ comment e hy he c hc _
    rw [hc] at hy
    cases hy
    exact he

/-- What is known when the loop goes on after a confirm. -/
def Continues (i : Nat) : Next → Shared → Prop
  | .done (.ok h), s => Still i s ∧ Safe i h.expiry s
  | .done (.error _), s => Ready i s
  | .again, s => Still i s
  | .goOn, s => Still i s

theorem wp_continues {r : Next} (h : Continues i r s) : WP O i (.ret r) (Continues i) s := by
  refine wp_ret (Stable.kept ?_) h
  rcases r with (err | handle) | - | -
  · exact survives_ready
  · exact (lasting_safe handle.expiry).survives
  · exact steady_still.survives
  · exact steady_still.survives

/-- What a round does with the outcome of its confirmation. -/
theorem wp_afterConfirm {r : Except Stop (Option Handle)} (hinv : Inv O s) (hs : Confirmed i r s) :
    WP O i (afterConfirm a deadline r) (Continues i) s := by
  rcases r with (err | ⟨err, - | -⟩) | (- | handle)
  · exact wp_continues (r := .done (.error err)) hs
  · exact wp_continues (r := .done (.error err)) hs
  · have hstill : Still i s := hs
    refine wp_bind (wp_mono (Q := fun _ => Still i) ?_ ?_) hinv
    · intro again t _ ht
      cases again with
      | none => exact wp_continues ht
      | some err => exact wp_continues (r := .done (.error err)) ht.toReady
    · refine wp_bind (wp_mono ?_ (wp_now steady_still hstill)) hinv
      rintro now t _ ⟨ht, -⟩
      have hret : ∀ again : Option AcquireError, WP O i (.ret again) (fun _ => Still i) t :=
        fun again => wp_ret steady_still.survives.kept ht
      dsimp only
      split
      · split
        · exact hret none
        · exact hret (some err)
      · split
        · exact hret none
        · exact hret (some err)
  · exact wp_continues (r := .goOn) hs
  · exact wp_continues (r := .done (.ok handle)) hs

/-- What is known at the end of an acquire. -/
def Acquired (i : Nat) : Except AcquireError Handle → Shared → Prop
  | .ok h, s => Still i s ∧ Safe i h.expiry s
  | .error _, s => Ready i s

theorem wp_acquired {r : Except AcquireError Handle} (h : Acquired i r s) :
    WP O i (.ret r) (Acquired i) s := by
  refine wp_ret (Stable.kept ?_) h
  rcases r with err | handle
  · exact survives_ready
  · exact (lasting_safe handle.expiry).survives

/-- One round behind a create that was refused: steal an expired claim, or wait for the next
round. -/
theorem wp_stealOrWait {clamped : Bool} {rounds : Nat} {cause : TimeoutCause}
    {again : Call (Except AcquireError Handle)} (hgrace : a.settings.grace = true)
    (hpos : 0 < a.ttl)
    (hagain : ∀ t, Inv O t → Still i t → WP O i again (Acquired i) t) (hinv : Inv O s)
    (hs : Still i s) :
    WP O i (stealOrWait (O.token i) a deadline clamped rounds cause again) (Acquired i) s := by
  refine wp_bind (wp_mono ?_ (wp_tryStealExpired hgrace hpos hinv hs)) hinv
  intro r t ht hr
  refine wp_bind (wp_mono ?_ (wp_afterConfirm ht hr)) ht
  intro next u hu hnext
  cases next with
  | done result =>
    rcases result with err | handle
    · exact wp_acquired hnext
    · exact wp_acquired hnext
  | again => exact hagain u hu hnext
  | goOn =>
    have hstill : Still i u := hnext
    dsimp only
    split
    · exact wp_acquired hstill.toReady
    · refine wp_bind (wp_mono ?_ (wp_now steady_still hstill)) hu
      rintro now v hv ⟨hv', -⟩
      split
      · refine wp_bind (wp_mono ?_ (wp_clusterLockPollWait steady_still hv hv')) hv
        intro wait w hw hw'
        refine wp_bind (wp_mono ?_ (wp_pause steady_still hw hw')) hw
        intro ended x hx hx'
        cases ended with
        | true => exact hagain x hx hx'
        | false => exact wp_acquired hx'.toReady
      · exact wp_acquired hv'.toReady

/-- **The loop of an acquire.** -/
theorem wp_acquireLoop {clamped : Bool} (hgrace : a.settings.grace = true) (hpos : 0 < a.ttl)
    (rounds : Nat) : ∀ {s : Shared}, Inv O s → Still i s →
    WP O i (acquireLoop (O.token i) a deadline clamped rounds) (Acquired i) s := by
  induction rounds with
  | zero => exact fun _ hs => wp_acquired (r := .error .cut) hs.toReady
  | succ rounds ih =>
    intro s hinv hs
    refine wp_bind (wp_mono ?_ (wp_now steady_still hs)) hinv
    rintro now t ht ⟨ht', -, hshown⟩
    refine wp_bind (wp_mono ?_ (wp_create hshown hpos ht ht')) ht
    intro reply u hu hreply
    split
    · refine wp_bind (wp_mono ?_ (wp_confirmLockCreate hgrace hu
        ⟨hreply.still trivial rfl, hreply.mine trivial rfl⟩)) hu
      intro r v hv hr
      refine wp_bind (wp_mono ?_ (wp_afterConfirm hv hr)) hv
      intro next w hw hnext
      cases next with
      | done result =>
        rcases result with err | handle
        · exact wp_acquired hnext
        · exact wp_acquired hnext
      | again => exact ih hw hnext
      | goOn => exact wp_stealOrWait hgrace hpos (fun x hx hx' => ih hx hx') hw hnext
    · exact wp_stealOrWait hgrace hpos (fun x hx hx' => ih hx hx') hu (hreply.still trivial rfl)
    · refine wp_bind (wp_mono ?_ (wp_createFailed hu hreply.ready)) hu
      intro err v _ hv
      exact wp_acquired (r := .error err) hv

/-- The whole acquire, from its checks to its result, by the rules for its rounds. -/
theorem wp_acquireClusterLock {rounds : Nat} (hgrace : a.settings.grace = true) (hinv : Inv O s)
    (hs : Still i s) : WP O i (acquireClusterLock (O.token i) a rounds) (Acquired i) s := by
  unfold acquireClusterLock
  split
  · exact wp_acquired (r := .error .ownerEmpty) hs.toReady
  · split
    · exact wp_acquired (r := .error _) hs.toReady
    · rename_i hpos
      split
      · exact wp_acquired (r := .error _) hs.toReady
      · refine wp_bind (wp_mono ?_ (wp_now steady_still hs)) hinv
        rintro now t ht ⟨ht', -⟩
        generalize clusterLockDeadline a.requestDeadline now a.timeout = limit
        refine wp_bind (wp_mono ?_ (wp_now steady_still ht')) ht
        rintro later u hu ⟨hu', -⟩
        split
        · exact wp_acquireLoop hgrace (not_le.mp hpos) rounds hu hu'
        · exact wp_acquired (r := .error _) hu'.toReady

end Acquire

/-! ## 5. The release -/

section Release

variable {O : Owners} {i : Nat} {s : Shared}

theorem wp_releaseDelete {h : Handle} (hinv : Inv O s) (hs : Ready i s) :
    WP O i (releaseDelete h) (fun _ => Ready i) s := by
  refine wp_bind (wp_mono ?_ (wp_request False (e := 0) survives_ready
    (fun _ ht => sendable_own ht) (fun _ _ hq => hq.elim) (fun _ hr => by cases hr) hinv hs)) hinv
  intro reply t _ ht
  split
  · exact wp_ret survives_ready.kept ht.ready
  · exact wp_ret survives_ready.kept ht.ready
  · exact wp_ret survives_ready.kept ht.ready
  · exact wp_ret survives_ready.kept ht.ready

/-- Releasing.  The delete is sent while the claim lasts for the margin, as the sentinel shows it
or, when that cannot be read, as the handle remembers it; in either case the process is ready
again. -/
theorem wp_release {h : Handle} (hinv : Inv O s) (hs : Ready i s) :
    WP O i (release h) (fun _ => Ready i) s := by
  have hret : ∀ (r : Except Unit Handle) (t : Shared), Ready i t →
      WP O i (.ret r) (fun _ => Ready i) t := fun r t ht => wp_ret survives_ready.kept ht
  -- The delete is sent while there is time.
  have hjudge : ∀ (expiry : Int) (t : Shared), Inv O t → Ready i t →
      WP O i (do
        let now ← perform .now
        if now + h.settings.releaseMargin < expiry then releaseDelete h
        else return .ok { h with released := true }) (fun _ => Ready i) t := by
    intro expiry t ht ht'
    refine wp_bind (wp_mono ?_ (wp_now steady_ready ht')) ht
    rintro now u hu ⟨hu', -⟩
    split
    · exact wp_releaseDelete hu hu'
    · exact hret _ u hu'
  unfold release
  split
  · exact hret _ s hs
  · refine wp_bind (wp_mono ?_ (wp_getPoolComment (T := fun _ _ => True) steady_ready
      (fun _ => survives_ready.and (stable_const _)) (fun _ _ _ => trivial) hinv hs)) hinv
    rintro r t ht ⟨ht', -⟩
    rcases r with - | - | comment
    · dsimp only
      split
      · exact wp_releaseDelete ht ht'
      · exact hjudge h.expiry t ht ht'
    · exact hret _ t ht'
    · dsimp only
      split
      · split
        · exact hret _ t ht'
        · exact hjudge _ t ht ht'
      · exact hret _ t ht'

end Release

/-! ## 6. Runs

A run starts with any comment on the sentinel, also one that no acquirer wrote. -/

section Runs

variable {O : Owners} {i : Nat} {s : Shared}

/-- What a process may count on between two calls. -/
def Between (i : Nat) : Memory → Shared → Prop
  | .nothing, _ => True
  | .handle _, s => i ∈ s.enrolled

theorem survives_between (m : Memory) : Survives O i (Between i m) := by
  intro j _ s t _ _ hm h
  cases m with
  | nothing => trivial
  | handle handle => exact hm.enrolled h

theorem wp_between {m : Memory} (h : Between i m s) : WP O i (.ret m) (Between i) s :=
  wp_ret (survives_between m).kept h

/-- A step of the clock or of PVE. -/
theorem wp_world {e : Effect} {m : Memory} (he : ∀ ch t a t', Inv O t →
    exec O i e ch t = some (a, t') →
      Inv O t' ∧ Move i t t') (hinv : Inv O s) (hs : Between i m s) :
    WP O i (perform e >>= fun _ => Prog.ret m) (Between i) s := by
  refine wp_bind (wp_perform (survives_between m).kept hs (fun _ => wp_kept _ _) ?_) hinv
  intro t ht hm ch a t' hx
  obtain ⟨hinv', hmove⟩ := he ch t a t' ht hx
  refine ⟨hinv', hmove, wp_between ?_⟩
  cases m with
  | nothing => trivial
  | handle handle => exact hmove.enrolled hm

theorem tick_step {d : Nat} {ch : Choice} {t t' : Shared} {a : Unit} (ht : Inv O t)
    (hx : exec O i (.tick d) ch t = some (a, t')) : Inv O t' ∧ Move i t t' := by
  have hx' : (if t.clock + d ≤ horizon then some ((), { t with clock := t.clock + d }) else none) =
      some (a, t') := hx
  split at hx'
  · rename_i hd
    cases hx'
    exact ⟨ht.tick hd, .tick d⟩
  · cases hx'

theorem find_flight {t : Shared} {id : Nat} {f : Flight}
    (h : (t.flights.find? fun f => decide (f.id = id)) = some f) : f ∈ t.flights :=
  List.mem_of_find?_eq_some h

theorem land_step {id : Nat} {ch : Choice} {t t' : Shared} {a : Unit} (ht : Inv O t)
    (hx : exec O i (.land id) ch t = some (a, t')) : Inv O t' ∧ Move i t t' := by
  unfold exec at hx
  dsimp only at hx
  split at hx
  · cases hx
  · rename_i f hf
    split at hx
    · rename_i hin
      cases hx
      exact ⟨ht.land (find_flight hf) hin, .land (find_flight hf) hin⟩
    · cases hx

theorem refuse_step {id : Nat} {ch : Choice} {t t' : Shared} {a : Unit} (ht : Inv O t)
    (hx : exec O i (.refuse id) ch t = some (a, t')) : Inv O t' ∧ Move i t t' := by
  unfold exec at hx
  dsimp only at hx
  split at hx
  · cases hx
  · rename_i f hf
    cases hx
    exact ⟨ht.close (find_flight hf) ch, .close (find_flight hf) ch⟩

/-- The token is taken once. -/
theorem wp_enroll :
    WP O i (perform .enroll) (fun owner s => owner = O.token i ∧ Still i s) s := by
  refine wp_perform (P := fun _ => True) (fun _ _ _ _ _ => trivial) trivial (fun owner => ?_) ?_
  · exact Stable.kept ((stable_const _).and steady_still.survives)
  · intro t ht _ ch owner t' hx
    have hx' : (if i ∈ t.enrolled then none
        else some (O.token i, { t with enrolled := i :: t.enrolled })) = some (owner, t') := hx
    split at hx'
    · cases hx'
    · rename_i hnew
      cases hx'
      obtain ⟨h1, h2, h3, h4⟩ := ht.enroll hnew
      exact ⟨h1, .own h2, rfl, ⟨⟨List.mem_cons_self, h3⟩, h4⟩⟩

/-- **Every call keeps to the protocol.** -/
theorem wp_prog {op : Op} {m : Memory} {p : Call Memory} (hinv : Inv O s) (hm : Between i m s)
    (hp : prog op m = some p) :
    Inv O (enter i op s) ∧ Move i s (enter i op s) ∧ WP O i p (Between i) (enter i op s) := by
  cases op with
  | tick d =>
    cases hp
    exact ⟨hinv, Move.refl i s, wp_world (fun ch t a t' ht hx => tick_step ht hx) hinv hm⟩
  | land id =>
    cases hp
    exact ⟨hinv, Move.refl i s, wp_world (fun ch t a t' ht hx => land_step ht hx) hinv hm⟩
  | refuse id =>
    cases hp
    exact ⟨hinv, Move.refl i s, wp_world (fun ch t a t' ht hx => refuse_step ht hx) hinv hm⟩
  | release =>
    cases m with
    | nothing => cases hp
    | handle handle =>
      cases hp
      obtain ⟨hinv', hown, hfree⟩ := hinv.drop i
      refine ⟨hinv', .own hown, ?_⟩
      have hready : Ready i (s.drop i) := ⟨hown.enrolled i hm, hfree⟩
      refine wp_bind (wp_mono ?_ (wp_release hinv' hready)) hinv'
      intro r t _ ht
      rcases r with err | handle'
      · exact wp_between (m := .handle handle) ht.enrolled
      · exact wp_between (m := .handle handle') ht.enrolled
  | acquire a rounds =>
    cases m with
    | handle handle => cases hp
    | nothing =>
      simp only [prog] at hp
      split at hp
      · rename_i hgrace
        cases hp
        refine ⟨hinv, Move.refl i s, ?_⟩
        refine wp_bind (wp_mono ?_ wp_enroll) hinv
        rintro owner t ht ⟨rfl, hstill⟩
        refine wp_bind (wp_mono ?_ (wp_acquireClusterLock hgrace ht hstill)) ht
        intro r u hu hr
        rcases r with err | handle
        · exact wp_between (m := .nothing) trivial
        · -- The lock is handed out.
          refine wp_bind (wp_perform (lasting_safe handle.expiry).survives.kept hr
            (fun _ => wp_kept _ _) ?_) hu
          intro v hv ⟨hstill', hsafe⟩ ch b v' hx
          cases hx
          obtain ⟨h1, h2⟩ := hv.hand hstill'.enrolled hstill'.quiet hsafe
          exact ⟨h1, .own h2, wp_between (m := .handle handle) hstill'.enrolled⟩
      · cases hp

end Runs

/-- **The rely-guarantee proof.** -/
def protocol (O : Owners) : Protocol (system O) where
  Inv := Inv O
  Guar := Move
  Loc := Between
  start_ok _ _ _ _ _ hinv hm hp := wp_prog hinv hm hp
  halt_ok i s hinv := ⟨hinv, Move.refl i s, trivial⟩
  boot_kept _ _ _ _ _ _ := trivial

/-- A lock before any of its acquirers: there is no sentinel, or one that is of none of them. -/
def untouched (clock : Int) (comment : Option Text) : Shared :=
  { clock := clock, sentinel := comment.map fun c => ⟨c, none, clock⟩ }

theorem inv_untouched {O : Owners} {clock : Int} {comment : Option Text} (hclock : Shown clock)
    (hcomment : ∀ c, comment = some c → Foreign O c) : Inv O (untouched clock comment) := by
  have hsentinel : ∀ c, (untouched clock comment).sentinel = some c →
      comment = some c.comment ∧ c.creator = none ∧ c.since = clock := by
    intro c hc
    obtain ⟨text, htext, rfl⟩ := Option.map_eq_some_iff.mp hc
    exact ⟨htext, rfl, rfl⟩
  refine ⟨hclock, fun f hf => absurd hf List.not_mem_nil, fun n hn => absurd rfl hn,
    fun f hf => absurd hf List.not_mem_nil, fun c hc k hk => ?_,
    fun c hc _ => hcomment c.comment (hsentinel c hc).1, fun c hc => (hsentinel c hc).2.2.le,
    fun _ f hf => absurd hf List.not_mem_nil, fun i e he => absurd he List.not_mem_nil⟩
  rw [(hsentinel c hc).2.1] at hk
  cases hk

/-- **Mutual exclusion.**  In every run in which no delete goes astray, at most one acquirer holds
the lock: it was handed the lock, it has not called `Release`, and the expiry of its handle is to
come.  A holder has a safe claim on the sentinel until its expiry, and a sentinel has one claim.
Both parts are clauses of the invariant, kept by every move as long as no delete goes astray. -/
theorem lock_exclusion {O : Owners} {clock : Int} {comment : Option Text} (hclock : Shown clock)
    (hcomment : ∀ c, comment = some c → Foreign O c) {c : Config (system O)}
    (hreach : Reach (Config.initial (untouched clock comment)) c)
      (hcalm : c.shared.strayed = false) :
    ∀ i e j e', (i, e) ∈ c.shared.holders → (j, e') ∈ c.shared.holders →
      c.shared.clock < e → c.shared.clock < e' → i = j := by
  have hinv : Inv O c.shared :=
    ((protocol O).reachable (inv_untouched hclock hcomment) (fun _ => trivial) hreach).inv
  intro i e j e' hi hj he he'
  obtain ⟨c₁, hc₁, hcreator, -⟩ := (hinv.holders i e hi).2.2 hcalm he
  obtain ⟨c₂, hc₂, hcreator', -⟩ := (hinv.holders j e' hj).2.2 hcalm he'
  rw [hc₁] at hc₂
  cases hc₂
  exact Option.some.inj (hcreator.symm.trans hcreator')

/-- The tokens of the runs below: one process, which numbers its acquires. -/
def sampleOwners : Owners :=
  processOwners (fun _ => ⟨[], 1, []⟩) (fun _ => []) (fun i => i) fun _ _ _ h => h

abbrev sampleSystem : Sys := system sampleOwners

/-- An acquire with a claim of a minute, in a request without a deadline. -/
def sampleAcquire : Acquire :=
  { ttl := 60000000000, timeout := 60000000000, requestDeadline := none
    settings := ⟨true, false, 0⟩, ttl_lt := by decide }

/-- A step of the clock or of PVE. -/
def world (op : Op) : List (Act sampleSystem) := [.start 9 op, .run 9 .ok, .finish 9]

/-- The next steps of acquirer `i`. -/
def steps (i n : Nat) : List (Act sampleSystem) := List.replicate n (.run i .ok)

/-- Create `n` of acquirer `i` lands, and the reads `n + 1` and `n + 2` confirm it. -/
def confirms (i n : Nat) : List (Act sampleSystem) :=
  world (.land n) ++ steps i 3 ++ world (.land (n + 1)) ++ steps i 2 ++
    world (.tick 2500000000) ++ steps i 3 ++ world (.land (n + 2)) ++ steps i 3 ++ [.finish i]

/-- Acquirer `i` takes the lock with the calls `n`, `n + 1` and `n + 2`. -/
def takes (i n : Nat) : List (Act sampleSystem) :=
  [.start i (.acquire sampleAcquire 2)] ++ steps i 5 ++ confirms i n

/-- Acquirer `i` releases the lock with the read `n` and the delete `n + 1`. -/
def releases (i n : Nat) : List (Act sampleSystem) :=
  [.start i .release] ++ steps i 1 ++ world (.land n) ++ steps i 3 ++ world (.land (n + 1)) ++
    [.run i .ok, .finish i]

/-- Acquirer `i` finds the sentinel there, reads the same expired claim twice, deletes it and takes
the lock. -/
def steals (i n : Nat) : List (Act sampleSystem) :=
  [.start i (.acquire sampleAcquire 2)] ++ steps i 5 ++ world (.land n) ++ steps i 3 ++
    world (.land (n + 1)) ++ steps i 5 ++ world (.land (n + 2)) ++ steps i 3 ++
    world (.land (n + 3)) ++ steps i 4 ++ confirms i (n + 4)

/-- Acquirer 0 releases the lock and does not hear that it has.  Acquirer 1 takes it.  Acquirer 0
releases again, its read fails, and it deletes the sentinel of acquirer 1.  Acquirer 2 takes the
lock. -/
def releaseAgain : List (Act sampleSystem) :=
  takes 0 0 ++ [.start 0 .release] ++ steps 0 1 ++ world (.land 3) ++ steps 0 3 ++
    world (.land 4) ++
    [.run 0 .fail, .finish 0] ++ takes 1 5 ++ [.start 0 .release] ++ steps 0 1 ++ [.run 0 .fail] ++
    steps 0 2 ++ world (.land 9) ++ [.run 0 .ok, .finish 0] ++ takes 2 10

/-- **Two holders.**  Acquirers 1 and 2 hold the lock, and the claims of both have most of a minute
to go.  The delete of the second release goes through without a look at the sentinel, because the
read before it failed. -/
theorem release_again_overlaps :
    ∃ c : Config sampleSystem, Reach (Config.initial (untouched 1000000000000 none)) c ∧
      ∃ e e', (1, e) ∈ c.shared.holders ∧ (2, e') ∈ c.shared.holders ∧
        c.shared.clock < e ∧ c.shared.clock < e' := by
  have hrun : (runActs releaseAgain (Config.initial (untouched 1000000000000 none))).map
      (fun c => (c.shared.holders, c.shared.clock)) =
      some ([(2, 1065000000000), (1, 1062000000000)], 1007500000000) := by
    decide
  obtain ⟨c, hc, heq⟩ := Option.map_eq_some_iff.mp hrun
  obtain ⟨hholders, hclock⟩ := Prod.mk.inj heq
  refine ⟨c, reach_of_runActs hc, 1062000000000, 1065000000000, ?_, ?_, ?_, ?_⟩
  · rw [hholders]
    decide
  · rw [hholders]
    decide
  · rw [hclock]
    decide
  · rw [hclock]
    decide

/-- Acquirer 0 takes the lock and releases it.  Acquirer 1 takes it and lets its claim expire.
Acquirer 2 steals it. -/
def threeHolders : List (Act sampleSystem) :=
  takes 0 0 ++ releases 0 3 ++ takes 1 5 ++ world (.tick 70000000000) ++ steals 2 8

/-- A release and a steal within its budget meet the condition.  After them the claims of two
acquirers are on record, and only one of them is to come. -/
theorem lock_exclusion_sample :
    ∃ c : Config sampleSystem, Reach (Config.initial (untouched 1000000000000 none)) c ∧
      c.shared.holders = [(2, 1135000000000), (1, 1062000000000)] ∧
      c.shared.clock < 1135000000000 ∧ c.shared.strayed = false ∧
      ∀ i e j e', (i, e) ∈ c.shared.holders → (j, e') ∈ c.shared.holders →
        c.shared.clock < e → c.shared.clock < e' → i = j := by
  have hrun : (runActs threeHolders (Config.initial (untouched 1000000000000 none))).map
      (fun c => (c.shared.holders, c.shared.clock, c.shared.strayed)) =
      some ([(2, 1135000000000), (1, 1062000000000)], 1077500000000, false) := by
    decide
  obtain ⟨c, hc, heq⟩ := Option.map_eq_some_iff.mp hrun
  obtain ⟨hholders, heq'⟩ := Prod.mk.inj heq
  obtain ⟨hclock, hcalm⟩ := Prod.mk.inj heq'
  have hreach := reach_of_runActs hc
  have hshown : Shown 1000000000000 := ⟨by decide, by decide⟩
  refine ⟨c, hreach, hholders, ?_, hcalm,
    lock_exclusion hshown (fun _ h => by cases h) hreach hcalm⟩
  rw [hclock]
  decide

end Lock
