/-
# What can happen to a lock

The moves of the system, and what an acquirer can count on while the others make theirs.  The clock
ticks, a call that is under way takes effect or is refused, or a process does something of its own:
it sends a call, takes the lock, gives it up (`Move`).

The invariant is about time.  A claim on the sentinel is in danger from every delete under way.
`Harmless` says why a delete is none: it was sent so early that it lands before the grace of the
claim is over, or it is the owner's own, or the claim has expired by now.  So a claim that is older
than the grace, of an owner with nothing under way, stays until it expires (`Safe`), and the lock is
handed out only for such a claim.

The difficulty is that a call outlives its caller.  A process may send a delete, give up on it and
crash, and the delete takes effect later; no assertion of any process speaks of it.  So the calls
under way are part of the shared state, with the moment at which each was sent, and the invariant
says of each delete why it does no harm.

Time is discrete and shared.  Processes do not agree on it, they only read it, and every comparison
of the source is one of readings of this clock.
-/
import PveCpi.Lock.Acquire

namespace Lock

open Lib.Interleave

/-! ## 1. What an acquirer knows -/

def Request.isRead : Request → Bool
  | .read _ => true
  | _ => false

def Request.isDelete : Request → Bool
  | .delete _ _ => true
  | _ => false

/-- Nothing of acquirer `i` is under way but reads. -/
def Quiet (i : Nat) (s : Shared) : Prop := ∀ f ∈ s.flights, f.who = i → f.request.isRead = true

/-- Acquirer `i` does not hold the lock. -/
def NotHolding (i : Nat) (s : Shared) : Prop := ∀ e, (i, e) ∉ s.holders

/-- A claim of acquirer `i` that is on the sentinel ends at `e`. -/
def Mine (i : Nat) (e : Int) (s : Shared) : Prop :=
  ∀ c, s.sentinel = some c → c.creator = some i → decodeLockExpiry c.comment = some e

/-- A claim of acquirer `i` that is on the sentinel will be older than the grace at `t`. -/
def RestedBy (i : Nat) (t : Int) (s : Shared) : Prop :=
  ∀ c, s.sentinel = some c → c.creator = some i → c.since + clusterLockDefaultGrace ≤ t

/-- The comment was on the sentinel, and what is there now is it or has come since. -/
def Seen (comment : Text) (since : Int) (s : Shared) : Prop :=
  ∀ c, s.sentinel = some c → c.comment = comment ∨ since ≤ c.since

/-- The comment is of nobody whose time is not over. -/
def Expired (comment : Text) (s : Shared) : Prop :=
  ∀ e, decodeLockExpiry comment = some e → e ≤ s.clock

/-- Until `e`, the claim of acquirer `i` is on the sentinel and older than the grace. -/
def Safe (i : Nat) (e : Int) (s : Shared) : Prop :=
  s.strayed = false → s.clock < e → ∃ c, s.sentinel = some c ∧ c.creator = some i ∧
    decodeLockExpiry c.comment = some e ∧ c.since + clusterLockDefaultGrace ≤ s.clock

/-- Why delete `f` does not matter to the claim `c` of acquirer `k`. -/
def Harmless (s : Shared) (f : Flight) (c : Sentinel) (k : Nat) : Prop :=
  f.sentAt + clusterLockRoundTrip < c.since + clusterLockDefaultGrace ∨ f.who = k ∨
    Expired c.comment s

/-! ## 2. The invariant

`Inv` has one clause for each danger: a delete under way, a create under way of somebody who has
gone on, a holder without a claim. -/

/-- What holds of the shared state at every moment. -/
structure Inv (O : Owners) (s : Shared) : Prop where
  shown : Shown s.clock
  sent : ∀ f ∈ s.flights, f.sentAt ≤ s.clock ∧ f.id < s.issued ∧ f.who ∈ s.enrolled
  replies : ∀ n, s.replies n ≠ none → n < s.issued
  creates : ∀ f ∈ s.flights, ∀ text, f.request = .create text → ∃ e, IsClaim O f.who e text
  claim : ∀ c, s.sentinel = some c → ∀ k, c.creator = some k → ∃ e, IsClaim O k e c.comment
  foreign : ∀ c, s.sentinel = some c → c.creator = none → Foreign O c.comment
  since : ∀ c, s.sentinel = some c → c.since ≤ s.clock
  harmless : s.strayed = false → ∀ f ∈ s.flights, f.request.isDelete = true →
    ∀ c, s.sentinel = some c → ∀ k, c.creator = some k → Harmless s f c k
  holders : ∀ i e, (i, e) ∈ s.holders → i ∈ s.enrolled ∧ Quiet i s ∧ Safe i e s

/-! ## 3. The moves -/

/-- A process does something of its own: the sentinel and the clock stay, and so does what the other
processes have. -/
structure Own (j : Nat) (s t : Shared) : Prop where
  clock : t.clock = s.clock
  sentinel : t.sentinel = s.sentinel
  replies : t.replies = s.replies
  flights : ∀ f ∈ t.flights, f ∈ s.flights ∨ (f.who = j ∧ f.id = s.issued)
  issued : s.issued ≤ t.issued
  enrolled : ∀ k ∈ s.enrolled, k ∈ t.enrolled
  strayed : t.strayed = false → s.strayed = false
  wake : ∀ i, i ≠ j → t.wake i = s.wake i
  holders : ∀ i, i ≠ j → ∀ e, (i, e) ∈ t.holders → (i, e) ∈ s.holders

theorem Own.refl (j : Nat) (s : Shared) : Own j s s :=
  ⟨rfl, rfl, rfl, fun _ h => .inl h, le_refl _, fun _ h => h, fun h => h, fun _ _ => rfl,
    fun _ _ _ h => h⟩

/-- Everything that can happen, done by process `j`. -/
inductive Move (j : Nat) (s : Shared) : Shared → Prop
  | tick (d : Nat) : Move j s { s with clock := s.clock + d }
  | land {f : Flight} (hf : f ∈ s.flights) (hin : s.clock ≤ f.sentAt + clusterLockRoundTrip) :
      Move j s (s.land f)
  | close {f : Flight} (hf : f ∈ s.flights) (ch : Choice) : Move j s (s.close f (refusal ch))
  | own {t : Shared} (h : Own j s t) : Move j s t

theorem Move.refl (j : Nat) (s : Shared) : Move j s s := .own (Own.refl j s)

section Moves

variable {O : Owners} {i j : Nat} {s t : Shared} {e : Int}

/-- A call that takes effect leaves the sentinel, creates one or deletes it. -/
theorem land_sentinel (s : Shared) (f : Flight) :
    (s.land f).sentinel = s.sentinel ∨
    (∃ text, f.request = .create text ∧ s.sentinel = none ∧
      (s.land f).sentinel = some ⟨text, some f.who, s.clock⟩) ∨
    (f.request.isDelete = true ∧ (s.land f).sentinel = none) := by
  obtain ⟨id, who, request, sentAt⟩ := f
  cases request with
  | create text =>
    cases hs : s.sentinel with
    | none => exact .inr (.inl ⟨text, rfl, rfl, by simp [Shared.land, Shared.effect, hs]⟩)
    | some c => exact .inl (by simp [Shared.land, Shared.effect, hs])
  | read bound => exact .inl rfl
  | delete expected purpose =>
    refine .inr (.inr ⟨rfl, ?_⟩)
    cases hs : s.sentinel with
    | none => simp [Shared.land, Shared.effect, hs]
    | some c => simp [Shared.land, Shared.effect, hs]

theorem Move.clock_le (h : Move j s t) : s.clock ≤ t.clock := by
  cases h with
  | tick d => exact Int.le_add_of_nonneg_right (Int.natCast_nonneg d)
  | land hf hin => exact le_refl _
  | close hf ch => exact le_refl _
  | own h => exact h.clock.ge

theorem Move.strayed (h : Move j s t) (ht : t.strayed = false) : s.strayed = false := by
  cases h with
  | tick d => exact ht
  | land hf hin => exact ht
  | close hf ch => exact ht
  | own h => exact h.strayed ht

/-- What is on the sentinel was there, or a create has put it there now. -/
theorem Move.sentinel (h : Move j s t) {c : Sentinel} (hc : t.sentinel = some c) :
    s.sentinel = some c ∨ (c.since = s.clock ∧ s.sentinel = none ∧
      ∃ f ∈ s.flights, c.creator = some f.who ∧ f.request = .create c.comment) := by
  cases h with
  | tick d => exact .inl hc
  | @land f hf hin =>
    rcases land_sentinel s f with heq | ⟨text, hrequest, hnone, heq⟩ | ⟨-, heq⟩
    · exact .inl (heq ▸ hc)
    · rw [heq] at hc
      cases hc
      exact .inr ⟨rfl, hnone, f, hf, rfl, hrequest⟩
    · rw [heq] at hc
      cases hc
  | close hf ch => exact .inl hc
  | own h => exact .inl (h.sentinel ▸ hc)

/-- The calls under way were so before, or process `j` has just sent them. -/
theorem Move.flights (h : Move j s t) {f : Flight} (hf : f ∈ t.flights) :
    f ∈ s.flights ∨ (f.who = j ∧ f.id = s.issued) := by
  cases h with
  | tick d => exact .inl hf
  | land hf' hin => exact .inl (List.mem_of_mem_filter hf)
  | close hf' ch => exact .inl (List.mem_of_mem_filter hf)
  | own h => exact h.flights f hf

theorem Move.holders (h : Move j s t) (hij : i ≠ j) (he : (i, e) ∈ t.holders) :
    (i, e) ∈ s.holders := by
  cases h with
  | tick d => exact he
  | land hf hin => exact he
  | close hf ch => exact he
  | own h => exact h.holders i hij e he

theorem Move.issued_le (h : Move j s t) : s.issued ≤ t.issued := by
  cases h with
  | tick d => exact le_refl _
  | land hf hin => exact le_refl _
  | close hf ch => exact le_refl _
  | own h => exact h.issued

theorem Move.enrolled (h : Move j s t) {k : Nat} (hk : k ∈ s.enrolled) : k ∈ t.enrolled := by
  cases h with
  | tick d => exact hk
  | land hf hin => exact hk
  | close hf ch => exact hk
  | own h => exact h.enrolled k hk

theorem Move.wake (h : Move j s t) (hij : i ≠ j) : t.wake i = s.wake i := by
  cases h with
  | tick d => rfl
  | land hf hin => rfl
  | close hf ch => rfl
  | own h => exact h.wake i hij

/-! ## 4. What a move leaves

One lemma for each fact that an acquirer carries across the moves of others. -/

theorem Quiet.move (h : Move j s t) (hij : i ≠ j) (hq : Quiet i s) : Quiet i t := by
  intro f hf hwho
  rcases h.flights hf with hf | ⟨hj, -⟩
  · exact hq f hf hwho
  · exact absurd (hwho.symm.trans hj) hij

theorem NotHolding.move (h : Move j s t) (hij : i ≠ j) (hn : NotHolding i s) : NotHolding i t :=
  fun e he => hn e (h.holders hij he)

/-- While nothing of its own is under way, a claim of an acquirer was there before. -/
theorem Quiet.sentinel (hq : Quiet i s) (h : Move j s t) {c : Sentinel} (hc : t.sentinel = some c)
    (hi : c.creator = some i) : s.sentinel = some c := by
  rcases h.sentinel hc with hold | ⟨-, -, f, hf, hwho, hrequest⟩
  · exact hold
  · have hread := hq f hf (Option.some.inj (hwho.symm.trans hi))
    rw [hrequest] at hread
    cases hread

theorem Mine.move (h : Move j s t) (hq : Quiet i s) (hm : Mine i e s) : Mine i e t :=
  fun c hc hi => hm c (hq.sentinel h hc hi) hi

theorem RestedBy.move (h : Move j s t) (hq : Quiet i s) (hr : RestedBy i e s) : RestedBy i e t :=
  fun c hc hi => hr c (hq.sentinel h hc hi) hi

theorem Seen.move {comment : Text} {since : Int} (h : Move j s t) (hsince : since ≤ s.clock)
    (hs : Seen comment since s) : Seen comment since t := by
  intro c hc
  rcases h.sentinel hc with hold | ⟨hnew, -⟩
  · exact hs c hold
  · exact .inr (hnew ▸ hsince)

theorem Expired.move {comment : Text} (h : Move j s t) (hs : Expired comment s) :
    Expired comment t :=
  fun e he => le_trans (hs e he) h.clock_le

/-- **A safe claim stays.**  A delete that could take it away would land too late.  A claim that is
older than the grace was there before any delete under way was sent, or the delete is known to spare
it. -/
theorem Safe.move (h : Move j s t) (hinv : Inv O s) (hq : Quiet i s) (hs : Safe i e s) :
    Safe i e t := by
  intro hstrayed hclock
  have hbefore : s.clock < e := lt_of_le_of_lt h.clock_le hclock
  obtain ⟨c, hc, hi, hexpiry, hgrace⟩ := hs (h.strayed hstrayed) hbefore
  refine ⟨c, ?_, hi, hexpiry, le_trans hgrace h.clock_le⟩
  cases h with
  | tick d => exact hc
  | @land f hf hin =>
    rcases land_sentinel s f with heq | ⟨-, -, hnone, -⟩ | ⟨hdelete, -⟩
    · exact heq.trans hc
    · rw [hnone] at hc
      cases hc
    · exfalso
      rcases hinv.harmless hstrayed f hf hdelete c hc i hi with hearly | hwho | hexpired
      · omega
      · have hread := hq f hf hwho
        cases hrequest : f.request with
        | create text =>
          rw [hrequest] at hdelete
          cases hdelete
        | read bound =>
          rw [hrequest] at hdelete
          cases hdelete
        | delete expected purpose =>
          rw [hrequest] at hread
          cases hread
      · have := hexpired e hexpiry
        omega
  | close hf ch => exact hc
  | own h => exact h.sentinel.trans hc

end Moves

/-! ## 5. The moves keep the invariant

The moves of a process come with what it has to know before it makes them. -/

section Keep

variable {O : Owners} {i : Nat} {s : Shared} {e : Int}

/-- Time passes.  What the invariant says of a delete is about when it was sent, so waiting only
helps. -/
theorem Inv.tick (h : Inv O s) {d : Nat} (hd : s.clock + d ≤ horizon) :
    Inv O { s with clock := s.clock + d } where
  shown := ⟨le_trans h.shown.1 (Int.le_add_of_nonneg_right (Int.natCast_nonneg d)), hd⟩
  sent f hf := by
    obtain ⟨h1, h2, h3⟩ := h.sent f hf
    exact ⟨le_trans h1 (Int.le_add_of_nonneg_right (Int.natCast_nonneg d)), h2, h3⟩
  replies := h.replies
  creates := h.creates
  claim := h.claim
  foreign := h.foreign
  since c hc := le_trans (h.since c hc) (Int.le_add_of_nonneg_right (Int.natCast_nonneg d))
  harmless ho f hf hd c hc k hk := by
    rcases h.harmless ho f hf hd c hc k hk with hearly | hwho | hexpired
    · exact .inl hearly
    · exact .inr (.inl hwho)
    · exact .inr (.inr (hexpired.move (.tick (j := 0) d)))
  holders i e he := by
    obtain ⟨h1, h2, h3⟩ := h.holders i e he
    exact ⟨h1, h2, h3.move (.tick (j := 0) d) h h2⟩

/-- A call that is over, with its effect on the sentinel or without. -/
theorem Inv.closed (h : Inv O s) {f : Flight} (hf : f ∈ s.flights) {reply : Reply}
    {sentinel : Option Sentinel} (hmove : Move i s { s.close f reply with sentinel := sentinel }) :
    Inv O { s.close f reply with sentinel := sentinel } where
  shown := h.shown
  sent g hg := h.sent g (List.mem_of_mem_filter hg)
  replies n hn := by
    by_cases hid : n = f.id
    · rw [hid]
      exact (h.sent f hf).2.1
    · refine h.replies n ?_
      simpa [Shared.close, hid] using hn
  creates g hg := h.creates g (List.mem_of_mem_filter hg)
  claim c hc k hk := by
    rcases hmove.sentinel hc with hold | ⟨-, -, g, hg, hwho, hrequest⟩
    · exact h.claim c hold k hk
    · have heq : g.who = k := Option.some.inj (hwho.symm.trans hk)
      rw [← heq]
      exact h.creates g hg _ hrequest
  foreign c hc hk := by
    rcases hmove.sentinel hc with hold | ⟨-, -, g, -, hwho, -⟩
    · exact h.foreign c hold hk
    · rw [hk] at hwho
      cases hwho
  since c hc := by
    rcases hmove.sentinel hc with hold | ⟨hnew, -⟩
    · exact h.since c hold
    · exact hnew.le
  harmless ho g hg hd c hc k hk := by
    have hg' : g ∈ s.flights := List.mem_of_mem_filter hg
    rcases hmove.sentinel hc with hold | ⟨hnew, -⟩
    · rcases h.harmless ho g hg' hd c hold k hk with hearly | hwho | hexpired
      · exact .inl hearly
      · exact .inr (.inl hwho)
      · exact .inr (.inr hexpired)
    · -- The claim is new, so the delete was sent before it.
      have hsent := (h.sent g hg').1
      refine .inl ?_
      rw [hnew]
      unfold clusterLockDefaultGrace clusterLockStealBudget clusterLockRoundTrip
      omega
  holders i e he := by
    obtain ⟨h1, h2, h3⟩ := h.holders i e he
    exact ⟨h1, fun g hg => h2 g (List.mem_of_mem_filter hg), h3.move hmove h h2⟩

theorem Inv.land (h : Inv O s) {f : Flight} (hf : f ∈ s.flights)
    (hin : s.clock ≤ f.sentAt + clusterLockRoundTrip) : Inv O (s.land f) :=
  h.closed hf (.land (j := 0) hf hin)

theorem Inv.close (h : Inv O s) {f : Flight} (hf : f ∈ s.flights) (ch : Choice) :
    Inv O (s.close f (refusal ch)) :=
  h.closed hf (.close (j := 0) hf ch)

/-- What must be known of a call for it to be sent. -/
structure Sendable (O : Owners) (i : Nat) (r : Request) (s : Shared) : Prop where
  enrolled : i ∈ s.enrolled
  holding : NotHolding i s
  create : ∀ text, r = .create text → ∃ e, IsClaim O i e text
  steal : ∀ comment started, r = .delete comment (.steal started) →
    Expired comment s ∧ Seen comment started s

/-- **A call is sent.**  A delete that does not go astray is harmless. -/
theorem Inv.send (h : Inv O s) {r : Request} (hr : Sendable O i r s) :
    Inv O (s.send i r) ∧ Own i s (s.send i r) := by
  have hnew : ∀ f ∈ (s.send i r).flights, f = ⟨s.issued, i, r, s.clock⟩ ∨ f ∈ s.flights :=
    fun f hf => List.mem_cons.mp hf
  have hstrayed : (s.send i r).strayed = false → s.strayed = false ∧ s.strays i r = false :=
    fun ho => Bool.or_eq_false_iff.mp ho
  have hown : Own i s (s.send i r) := by
    refine ⟨rfl, rfl, rfl, fun f hf => ?_, Nat.le_succ _, fun _ hk => hk,
      fun ho => (hstrayed ho).1, fun _ _ => rfl, fun _ _ _ he => he⟩
    rcases hnew f hf with rfl | hf
    · exact .inr ⟨rfl, rfl⟩
    · exact .inl hf
  refine ⟨⟨h.shown, fun f hf => ?_, fun n hn => Nat.lt_succ_of_lt (h.replies n hn),
    fun f hf text htext => ?_, h.claim, h.foreign, h.since, fun ho f hf hd c hc k hk => ?_,
    fun k e he => ?_⟩, hown⟩
  · rcases hnew f hf with rfl | hf
    · exact ⟨le_refl _, Nat.lt_succ_self _, hr.enrolled⟩
    · obtain ⟨h1, h2, h3⟩ := h.sent f hf
      exact ⟨h1, Nat.lt_succ_of_lt h2, h3⟩
  · rcases hnew f hf with rfl | hf
    · exact hr.create text htext
    · exact h.creates f hf text htext
  · obtain ⟨ho, hstays⟩ := hstrayed ho
    rcases hnew f hf with rfl | hf
    · -- The delete that is sent now.
      cases r with
      | create text => cases hd
      | read bound => cases hd
      | delete comment purpose =>
        have hc' : s.sentinel = some c := hc
        cases purpose with
        | own =>
          have hi : ¬k ≠ i := by simpa [Shared.strays, hc', hk] using hstays
          exact .inr (.inl (Decidable.not_not.mp hi).symm)
        | steal started =>
          have htime : ¬started + clusterLockStealBudget ≤ s.clock := by
            simpa [Shared.strays] using hstays
          obtain ⟨hexpired, hseen⟩ := hr.steal comment started rfl
          rcases hseen c hc' with heq | hsince
          · refine .inr (.inr ?_)
            rw [heq]
            exact hexpired
          · refine .inl ?_
            simp only [clusterLockDefaultGrace]
            omega
    · exact h.harmless ho f hf hd c hc k hk
  · obtain ⟨h1, h2, h3⟩ := h.holders k e he
    refine ⟨h1, fun f hf hwho => ?_, h3.move (.own hown) h h2⟩
    rcases hnew f hf with rfl | hf
    · have heq : i = k := hwho
      rw [← heq] at he
      exact absurd he (hr.holding e)
    · exact h2 f hf hwho

/-- An acquirer takes the lock for a claim that is safe. -/
theorem Inv.hand (h : Inv O s) (hi : i ∈ s.enrolled) (hq : Quiet i s) (hs : Safe i e s) :
    Inv O { s with holders := (i, e) :: s.holders } ∧
      Own i s { s with holders := (i, e) :: s.holders } := by
  refine ⟨⟨h.shown, h.sent, h.replies, h.creates, h.claim, h.foreign, h.since, h.harmless,
    fun k e' he => ?_⟩, ⟨rfl, rfl, rfl, fun _ hf => .inl hf, le_refl _, fun _ hk => hk,
    fun ho => ho, fun _ _ => rfl, fun k hk e' he => ?_⟩⟩
  · rcases List.mem_cons.mp he with heq | he
    · cases heq
      exact ⟨hi, hq, hs⟩
    · exact h.holders k e' he
  · rcases List.mem_cons.mp he with heq | he
    · cases heq
      exact absurd rfl hk
    · exact he

/-- An acquirer that calls `Release` does not hold the lock. -/
theorem Inv.drop (h : Inv O s) (i : Nat) :
    Inv O (s.drop i) ∧ Own i s (s.drop i) ∧ NotHolding i (s.drop i) := by
  refine ⟨⟨h.shown, h.sent, h.replies, h.creates, h.claim, h.foreign, h.since, h.harmless,
    fun k e he => h.holders k e (List.mem_of_mem_filter he)⟩,
    ⟨rfl, rfl, rfl, fun _ hf => .inl hf, le_refl _, fun _ hk => hk, fun ho => ho, fun _ _ => rfl,
      fun k _ e he => List.mem_of_mem_filter he⟩, fun e he => ?_⟩
  have hne := (List.mem_filter.mp he).2
  simp at hne

/-- A new acquirer has nothing yet. -/
theorem Inv.enroll (h : Inv O s) (hi : i ∉ s.enrolled) :
    Inv O { s with enrolled := i :: s.enrolled } ∧ Own i s { s with enrolled := i :: s.enrolled } ∧
      NotHolding i s ∧ Quiet i s := by
  refine ⟨⟨h.shown, fun f hf => ?_, h.replies, h.creates, h.claim, h.foreign, h.since, h.harmless,
    fun k e he => ?_⟩, ⟨rfl, rfl, rfl, fun _ hf => .inl hf, le_refl _,
    fun _ hk => List.mem_cons_of_mem _ hk, fun ho => ho,
    fun _ _ => rfl, fun _ _ _ he => he⟩, fun e he => hi (h.holders i e he).1, fun f hf hwho => ?_⟩
  · obtain ⟨h1, h2, h3⟩ := h.sent f hf
    exact ⟨h1, h2, List.mem_cons_of_mem _ h3⟩
  · obtain ⟨h1, h2, h3⟩ := h.holders k e he
    exact ⟨List.mem_cons_of_mem _ h1, h2, h3⟩
  · exact absurd (hwho ▸ (h.sent f hf).2.2) hi

theorem Inv.nap (h : Inv O s) (wake : Nat → Int) (hwake : ∀ k, k ≠ i → wake k = s.wake k) :
    Inv O { s with wake := wake } ∧ Own i s { s with wake := wake } :=
  ⟨⟨h.shown, h.sent, h.replies, h.creates, h.claim, h.foreign, h.since, h.harmless, h.holders⟩,
    ⟨rfl, rfl, rfl, fun _ hf => .inl hf, le_refl _, fun _ hk => hk, fun ho => ho, hwake,
      fun _ _ _ he => he⟩⟩

end Keep

end Lock
