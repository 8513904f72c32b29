/-
# An acquire of the cluster lock comes to an end

The loop of `acquireClusterLockWithClock` has no counter.  A round ends the acquire, or it waits for
the poll interval, or it gives up a claim that was confirmed too late and takes a new one at once.
The waits are bounded by the deadline, and so are the retakes, because two of them are one
`claimAttemptDuration` apart: a retake promises that the new claim will last for one attempt and for
`claimNeed` after it, and a claim is refused only when less than `claimNeed` is left.

That promise is about the claims that this acquire makes from then on.  `tryStealExpired` also
confirms a claim that it finds on the sentinel under its own token, with the expiry it finds there,
and a pool service that shows the token with an expiry of its own making keeps the acquire busy for
ever (`acquire_goes_round_for_ever`).  So `Truthful` asks for one thing: a comment that names the
token of the acquire has the expiry of a claim that this acquire has sent, and sent after its last
delete that was acknowledged.

The clock never goes back, and a sleep that has ended has lasted; nothing else is asked of it, and
time may pass with every call.

## What is counted

`pollsIn` and `attemptsIn` are how many waits and how many attempts fit into the time that is left.
A round that waits uses up one wait, a round that retakes uses up one attempt, and every other round
is the last; so the sum goes down with each round, and with it the calls and creates.  `Spends`
carries these numbers through the parts of a round.

For the retakes the argument is about claims.  `Paced` says that every claim of this acquire that
may still be shown expires late enough that it is not refused before `next`; sending a new claim
moves `next` on by one attempt.
-/
import PveCpi.Lock.Acquire
import PveCpi.Lib.Service

namespace Lock

open Lib.Interleave (Prog)
open Lib.Service (Serve Runs Holds)
open Lib.Text (isSpace)

/-! ## 1. The clock and the pool service

Answers are arbitrary but for `Truthful`; time passes with every effect, by any amount. -/

/-- What is known of the calls so far: when the sleep ends, the call that is under way, how many
there were, and the claims that were sent since the last delete that was acknowledged. -/
structure Books where
  wake : Int := 0
  asked : Option Request := none
  calls : Nat := 0
  creates : Nat := 0
  sent : List Text := []

/-- The books and the clock. -/
structure World extends Books where
  clock : Int
  shown : Shown clock

/-- A call is sent. -/
def Books.send (b : Books) (r : Request) : Books :=
  match r with
  | .create comment =>
    { b with
      asked := some r, calls := b.calls + 1, creates := b.creates + 1, sent := comment :: b.sent }
  | _ => { b with asked := some r, calls := b.calls + 1 }

/-- A call is answered. -/
def Books.answer (b : Books) (reply : Reply) : Books :=
  match b.asked, reply with
  | some (.delete _ _), .deleted | some (.delete _ _), .notFound => { b with sent := [] }
  | _, _ => b

/-- The books after an effect that starts at `now`. -/
def Books.after (b : Books) (now : Int) : (e : Effect) → Answer e → Books
  | .send r, _ => b.send r
  | .await _, reply => b.answer reply
  | .nap d, _ => { b with wake := now + d }
  | _, _ => b

/-- What the clock shows at `m`: its own moment, and the end of a sleep only when it has lasted. -/
def Keeps (b : Books) (m : Int) : (e : Effect) → Answer e → Prop
  | .now, shown => shown = m
  | .jitter, jitter => 0 ≤ jitter ∧ jitter < clusterLockPollInterval
  | .woke, ended => ended = true → b.wake ≤ m
  | _, _ => True

/-- A clock that never goes back, and a pool service whose calls return with any answer. -/
def serves : Serve Effect Answer World := fun s e a t =>
  s.clock ≤ t.clock ∧ t.toBooks = s.after s.clock e a ∧ Keeps s.toBooks t.clock e a

/-- A comment under the token `owner` has the expiry of a claim that was sent. -/
def Truthful (owner : Text) (s : World) : (e : Effect) → Answer e → Prop
  | .await _, .comment (some c) =>
    decodeLockOwner c = some owner → ∃ own ∈ s.sent, decodeLockExpiry c = decodeLockExpiry own
  | _, _ => True

/-- The same with a pool service that does not make claims up. -/
def servesTruly (owner : Text) : Serve Effect Answer World := fun s e a t =>
  serves s e a t ∧ Truthful owner s e a

/-! ## 2. The rounds of the loop

The loop is unrolled into rounds, each with the way it ended. -/

/-- How a round of the loop ends. -/
inductive Round
  | done (result : Except AcquireError Handle)
  | retaken
  | waited

/-- What the loop does after a round. -/
def Round.next (again : Call (Except AcquireError Handle)) :
    Round → Call (Except AcquireError Handle)
  | .done result => return result
  | .retaken | .waited => again

section Rounds

variable (owner : Text) (a : Acquire)

/-- `stealOrWait` up to the next round. -/
def stealOrWaitRound (deadline : Int) (clamped : Bool) (rounds : Nat) (cause : TimeoutCause) :
    Call Round := do
  match ← afterConfirm a deadline (← tryStealExpired owner a deadline rounds) with
  | .done result => return .done result
  | .again => return .retaken
  | .goOn =>
    if a.settings.noWait then return .done (.error .held)
    else
      let now ← perform .now
      if now < deadline then
        let wait ← clusterLockPollWait now deadline
        if ← sleep wait then return .waited else return .done (.error .interruptedWaiting)
      else return .done (.error (.timedOut clamped cause))

/-- One round of `acquireLoop`. -/
def acquireRound (deadline : Int) (clamped : Bool) (rounds : Nat) : Call Round := do
  let now ← perform .now
  let expiry := claimExpiry now a.ttl
  match ← request (.create (encodeLockComment owner expiry)) with
  | .created =>
    match ← afterConfirm a deadline (← confirmLockCreate owner a expiry deadline rounds) with
    | .done result => return .done result
    | .again => return .retaken
    | .goOn => stealOrWaitRound owner a deadline clamped rounds .displaced
  | .duplicate => stealOrWaitRound owner a deadline clamped rounds .duplicate
  | reply => return .done (.error (← createFailed owner a .createSentinelPool reply))

/-- A round of the loop, separated from the rounds behind it. -/
theorem stealOrWait_eq (deadline : Int) (clamped : Bool) (rounds : Nat) (cause : TimeoutCause)
    (again : Call (Except AcquireError Handle)) :
    stealOrWait owner a deadline clamped rounds cause again =
      stealOrWaitRound owner a deadline clamped rounds cause >>= Round.next again := by
  simp only [stealOrWait, stealOrWaitRound, Prog.bind_assoc]
  congr 1
  funext r
  congr 1
  funext next
  cases next with
  | done result => rfl
  | again => rfl
  | goOn =>
    dsimp only
    split
    · rfl
    · rw [Prog.bind_assoc]
      congr 1
      funext now
      split
      · rw [Prog.bind_assoc]
        congr 1
        funext wait
        rw [Prog.bind_assoc]
        congr 1
        funext ended
        cases ended <;> rfl
      · rfl

/-- **The loop is its rounds, one after another.** -/
theorem acquireLoop_succ (deadline : Int) (clamped : Bool) (rounds : Nat) :
    acquireLoop owner a deadline clamped (rounds + 1) =
      acquireRound owner a deadline clamped rounds >>=
        Round.next (acquireLoop owner a deadline clamped rounds) := by
  rw [acquireLoop, acquireRound, Prog.bind_assoc]
  congr 1
  funext now
  dsimp only
  rw [Prog.bind_assoc]
  congr 1
  funext reply
  cases reply with
  | created =>
    dsimp only
    simp only [Prog.bind_assoc]
    congr 1
    funext r
    congr 1
    funext next
    cases next with
    | done result => rfl
    | again => rfl
    | goOn => exact stealOrWait_eq owner a _ _ _ _ _
  | duplicate => exact stealOrWait_eq owner a _ _ _ _ _
  | _ =>
    dsimp only
    rw [Prog.bind_assoc]
    rfl

end Rounds

/-! ## 3. What the time allows -/

/-- The waits that fit into a time of `d`. -/
def pollsIn (d : Int) : Nat := ((d + clusterLockPollInterval - 1) / clusterLockPollInterval).toNat

/-- The attempts that fit into a time of `d`. -/
def attemptsIn (attempt d : Int) : Nat := (d / attempt).toNat

theorem pollsIn_mono {d d' : Int} (h : d ≤ d') : pollsIn d ≤ pollsIn d' := by
  unfold pollsIn clusterLockPollInterval
  omega

/-- A wait takes a whole poll interval, or all the time that is left. -/
theorem pollsIn_wait {deadline now later : Int} (hnow : now < deadline)
    (hlater : now + min clusterLockPollInterval (deadline - now) ≤ later) :
    pollsIn (deadline - later) + 1 ≤ pollsIn (deadline - now) := by
  unfold pollsIn
  unfold clusterLockPollInterval at hlater ⊢
  omega

theorem attemptsIn_mono {attempt d d' : Int} (hpos : 0 < attempt) (h : d ≤ d') :
    attemptsIn attempt d ≤ attemptsIn attempt d' :=
  Int.toNat_le_toNat (Int.ediv_le_ediv hpos h)

/-- One attempt less. -/
theorem attemptsIn_sub {attempt d : Int} (hpos : 0 < attempt) (h : attempt ≤ d) :
    attemptsIn attempt (d - attempt) + 1 = attemptsIn attempt d := by
  have hone : (d - attempt) / attempt = d / attempt - 1 := by
    have hsub : d - attempt = d + (-1) * attempt := by omega
    rw [hsub, Int.add_mul_ediv_right _ _ (ne_of_gt hpos)]
    rfl
  have hle : 1 ≤ d / attempt := Int.le_ediv_of_mul_le hpos (by omega)
  unfold attemptsIn
  omega

theorem Settings.claimAttemptDuration_pos (s : Settings) : 0 < s.claimAttemptDuration := by
  unfold claimAttemptDuration graceDuration
  split <;> decide

/-- A later claim does not expire earlier. -/
theorem claimExpiry_mono {now later ttl : Int} (hnow : Shown now) (hlater : Shown later)
    (hpos : 0 < ttl) (httl : ttl < 2 ^ 63) (h : now ≤ later) :
    claimExpiry now ttl ≤ claimExpiry later ttl := by
  have hrange : ∀ t, Shown t → -2 ^ 62 ≤ unix (t + ttl) ∧ unix (t + ttl) < 2 ^ 62 := by
    intro t ht
    obtain ⟨hlow, hhigh⟩ := ht
    unfold horizon second at hlow hhigh
    unfold unix second
    omega
  have hunix : unix (now + ttl) ≤ unix (later + ttl) := by
    unfold unix second
    omega
  unfold claimExpiry
  rw [unixTime_eq (hrange now hnow).1 (hrange now hnow).2,
    unixTime_eq (hrange later hlater).1 (hrange later hlater).2]
  unfold second
  omega

/-- What is read as an owner token has no white space. -/
theorem unspaced_of_decodeLockOwner {comment owner : Text}
    (h : decodeLockOwner comment = some owner) : ∀ c ∈ owner, isSpace c = false := by
  obtain ⟨field, hfind, rfl⟩ := Option.map_eq_some_iff.mp h
  have hclean := Lib.Tokens.clean_of_mem_tokens (List.mem_of_find?_eq_some hfind)
  intro c hc
  exact hclean.separators c (List.mem_of_mem_drop hc)

/-! ## 4. What a step spends

One lemma for each effect. -/

/-- The calls of a round, without the reads that are made again. -/
def callsPerRound : Nat := 13

/-- From `s` to `t` there were no more than these calls and creates, or the waits have made up for
them. -/
structure Spends (deadline : Int) (calls creates : Nat) (s t : World) : Prop where
  clock : s.clock ≤ t.clock
  creates : t.creates ≤ s.creates + creates
  calls : t.calls + callsPerRound * pollsIn (deadline - t.clock) ≤
    s.calls + callsPerRound * pollsIn (deadline - s.clock) + calls

namespace Spends

variable {deadline : Int} {m n c d : Nat} {s t u : World}

theorem trans (h : Spends deadline m c s t) (h' : Spends deadline n d t u) :
    Spends deadline (m + n) (c + d) s u where
  clock := h.clock.trans h'.clock
  creates := by
    have hfirst := h.creates
    have hthen := h'.creates
    omega
  calls := by
    have hfirst := h.calls
    have hthen := h'.calls
    omega

theorem mono (h : Spends deadline m c s t) (hmn : m ≤ n) (hcd : c ≤ d) :
    Spends deadline n d s t where
  clock := h.clock
  creates := h.creates.trans (by omega)
  calls := h.calls.trans (by omega)

/-- No wait comes back. -/
theorem pollsIn_le (h : Spends deadline m c s t) :
    pollsIn (deadline - t.clock) ≤ pollsIn (deadline - s.clock) :=
  pollsIn_mono (Int.sub_le_sub_left h.clock deadline)

/-- Time passes. -/
theorem of_counts (hclock : s.clock ≤ t.clock) (hcreates : t.creates = s.creates + c)
    (hcalls : t.calls = s.calls + m) : Spends deadline m c s t where
  clock := hclock
  creates := hcreates.le
  calls := by
    have hpolls : pollsIn (deadline - t.clock) ≤ pollsIn (deadline - s.clock) :=
      pollsIn_mono (by omega)
    have hweighted := Nat.mul_le_mul_left callsPerRound hpolls
    omega

/-- A wait makes up for the calls of a round. -/
theorem wait (hnow : s.clock < deadline)
    (hlater : s.clock + min clusterLockPollInterval (deadline - s.clock) ≤ t.clock)
    (hcreates : t.creates = s.creates) (hcalls : t.calls = s.calls) (h : Spends deadline m c u s)
    (hm : m ≤ callsPerRound) : Spends deadline 0 c u t where
  clock := h.clock.trans (by unfold clusterLockPollInterval at hlater; omega)
  creates := hcreates ▸ h.creates
  calls := by
    have hpolls := Nat.mul_le_mul_left callsPerRound (pollsIn_wait hnow hlater)
    have hbefore := h.calls
    rw [Nat.mul_add, Nat.mul_one] at hpolls
    omega

end Spends

section Steps

variable {owner : Text} {a : Acquire} {deadline next : Int} {s t : World}

/-- No claim that this acquire has sent, and none that it may still send, is refused before
`next`. -/
structure Paced (owner : Text) (a : Acquire) (next : Int) (s : World) : Prop where
  ahead : next ≤ s.clock ∨ next + a.settings.claimNeed < claimExpiry s.clock a.ttl
  sent : ∀ c ∈ s.sent, ∃ now, Shown now ∧ c = encodeLockComment owner (claimExpiry now a.ttl) ∧
    (next ≤ s.clock ∨ next + a.settings.claimNeed < claimExpiry now a.ttl)

theorem Paced.later (hpos : 0 < a.ttl) (h : Paced owner a next s) (hclock : s.clock ≤ t.clock)
    (hsent : ∀ c ∈ t.sent, c ∈ s.sent) : Paced owner a next t where
  ahead := by
    rcases h.ahead with hnext | hlong
    · exact .inl (hnext.trans hclock)
    · exact .inr (hlong.trans_le (claimExpiry_mono s.shown t.shown hpos a.ttl_lt hclock))
  sent := by
    intro c hc
    obtain ⟨now, hnow, heq, hlong⟩ := h.sent c (hsent c hc)
    exact ⟨now, hnow, heq, hlong.imp_left fun hnext => hnext.trans hclock⟩

/-- A read of the clock. -/
theorem now_holds (deadline : Int) (hpos : 0 < a.ttl) (hs : Paced owner a next s) :
    Holds (servesTruly owner) (Paced owner a next) (perform .now)
      (fun m t => m = t.clock ∧ t.toBooks = s.toBooks ∧ Spends deadline 0 0 s t) s := by
  refine ⟨hs, fun m t ht => ?_⟩
  obtain ⟨⟨hclock, hbooks, hshown⟩, -⟩ := ht
  have hbooks : t.toBooks = s.toBooks := hbooks
  refine ⟨hs.later hpos hclock ?_, hshown, hbooks, .of_counts hclock ?_ ?_⟩
  · rw [hbooks]
    exact fun c hc => hc
  · rw [hbooks, Nat.add_zero]
  · rw [hbooks, Nat.add_zero]

/-- A call that creates nothing. -/
theorem request_holds (deadline : Int) (hpos : 0 < a.ttl) (hs : Paced owner a next s) {r : Request}
    (hr : ∀ c, r ≠ .create c) :
    Holds (servesTruly owner) (Paced owner a next) (request r)
      (fun reply t => Spends deadline 1 0 s t ∧
        (∀ c, reply = .comment (some c) → decodeLockOwner c = some owner →
          ∃ own ∈ s.sent, decodeLockExpiry c = decodeLockExpiry own) ∧
        (∀ expected purpose, r = .delete expected purpose →
          reply = .deleted ∨ reply = .notFound → t.sent = [])) s := by
  have hsend : s.send r = { s.toBooks with asked := some r, calls := s.calls + 1 } := by
    cases r with
    | create c => exact absurd rfl (hr c)
    | read bound => rfl
    | delete expected purpose => rfl
  refine ⟨hs, fun id u hu => ?_⟩
  obtain ⟨⟨hclock, hbooks, -⟩, -⟩ := hu
  have hbooks : u.toBooks = { s.toBooks with asked := some r, calls := s.calls + 1 } :=
    hbooks.trans hsend
  have hsentu : u.sent = s.sent := by rw [hbooks]
  have hu : Paced owner a next u := hs.later hpos hclock (by rw [hsentu]; exact fun c hc => hc)
  refine ⟨hu, fun reply t ht => ?_⟩
  obtain ⟨⟨hclock', hanswer, -⟩, htrue⟩ := ht
  have hanswer : t.toBooks = u.answer reply := hanswer
  have hkept : t.calls = u.calls ∧ t.creates = u.creates ∧ (t.sent = u.sent ∨ t.sent = []) := by
    rw [hanswer]
    unfold Books.answer
    split
    · exact ⟨rfl, rfl, .inr rfl⟩
    · exact ⟨rfl, rfl, .inr rfl⟩
    · exact ⟨rfl, rfl, .inl rfl⟩
  obtain ⟨hcalls, hcreates, hsent⟩ := hkept
  have ht : Paced owner a next t := by
    refine hu.later hpos hclock' fun c hc => ?_
    rcases hsent with hsent | hsent
    · exact hsent ▸ hc
    · rw [hsent] at hc
      exact absurd hc List.not_mem_nil
  refine ⟨ht, .of_counts (hclock.trans hclock') ?_ ?_, ?_, ?_⟩
  · rw [hcreates, hbooks]
    rfl
  · rw [hcalls, hbooks]
  · rintro c rfl hc
    rw [← hsentu]
    exact htrue hc
  · rintro expected purpose rfl hreply
    rw [hanswer]
    have hasked : u.asked = some (.delete expected purpose) := by rw [hbooks]
    rcases hreply with rfl | rfl
    · simp only [Books.answer, hasked]
    · simp only [Books.answer, hasked]

/-- A create of a claim that is made now. -/
theorem create_holds (deadline : Int) (hpos : 0 < a.ttl) (hs : Paced owner a next s) :
    Holds (servesTruly owner) (Paced owner a next)
      (request (.create (encodeLockComment owner (claimExpiry s.clock a.ttl))))
      (fun _ t => Spends deadline 1 1 s t) s := by
  refine ⟨hs, fun id u hu => ?_⟩
  obtain ⟨⟨hclock, hbooks, -⟩, -⟩ := hu
  have hbooks :
      u.toBooks = s.send (.create (encodeLockComment owner (claimExpiry s.clock a.ttl))) :=
    hbooks
  have hsentu : u.sent = encodeLockComment owner (claimExpiry s.clock a.ttl) :: s.sent := by
    rw [hbooks]
    rfl
  have hu : Paced owner a next u := by
    refine ⟨?_, fun c hc => ?_⟩
    · rcases hs.ahead with hnext | hlong
      · exact .inl (hnext.trans hclock)
      · exact .inr (hlong.trans_le (claimExpiry_mono s.shown u.shown hpos a.ttl_lt hclock))
    · rw [hsentu] at hc
      rcases List.mem_cons.mp hc with rfl | hc
      · exact ⟨s.clock, s.shown, rfl, hs.ahead.imp_left fun hnext => hnext.trans hclock⟩
      · obtain ⟨now, hnow, heq, hlong⟩ := hs.sent c hc
        exact ⟨now, hnow, heq, hlong.imp_left fun hnext => hnext.trans hclock⟩
  refine ⟨hu, fun reply t ht => ?_⟩
  obtain ⟨⟨hclock', hanswer, -⟩, -⟩ := ht
  have hanswer : t.toBooks = u.toBooks := by
    refine Eq.trans hanswer ?_
    show u.answer reply = u.toBooks
    simp only [Books.answer, hbooks, Books.send]
  refine ⟨hu.later hpos hclock' (by rw [hanswer]; exact fun c hc => hc),
    .of_counts (hclock.trans hclock') ?_ ?_⟩
  · rw [hanswer, hbooks]
    rfl
  · rw [hanswer, hbooks]
    rfl

/-- A sleep; when it has ended, it has lasted. -/
theorem sleep_holds (deadline : Int) (hpos : 0 < a.ttl) (hs : Paced owner a next s) (d : Int) :
    Holds (servesTruly owner) (Paced owner a next) (sleep d)
      (fun ended t => (ended = true → s.clock + d ≤ t.clock) ∧ t.calls = s.calls ∧
        t.creates = s.creates ∧ Spends deadline 0 0 s t) s := by
  refine ⟨hs, fun _ u hu => ?_⟩
  obtain ⟨⟨hclock, hbooks, -⟩, -⟩ := hu
  have hbooks : u.toBooks = { s.toBooks with wake := s.clock + d } := hbooks
  have hu : Paced owner a next u := hs.later hpos hclock (by rw [hbooks]; exact fun c hc => hc)
  refine ⟨hu, fun ended t ht => ?_⟩
  obtain ⟨⟨hclock', hbooks', hended⟩, -⟩ := ht
  have hbooks' : t.toBooks = u.toBooks := hbooks'
  have hwake : u.wake = s.clock + d := by rw [hbooks]
  have hcalls : t.calls = s.calls := by rw [hbooks', hbooks]
  have hcreates : t.creates = s.creates := by rw [hbooks', hbooks]
  refine ⟨hu.later hpos hclock' (by rw [hbooks']; exact fun c hc => hc), fun hdone => ?_,
    hcalls, hcreates, .of_counts (hclock.trans hclock') hcreates hcalls⟩
  rw [← hwake]
  exact hended hdone

/-- The time to wait is a poll interval at least, or all that is left. -/
theorem pollWait_holds (deadline : Int) (hpos : 0 < a.ttl) (hs : Paced owner a next s) (now : Int) :
    Holds (servesTruly owner) (Paced owner a next) (clusterLockPollWait now deadline)
      (fun wait t => min clusterLockPollInterval (deadline - now) ≤ wait ∧ s.clock ≤ t.clock ∧
        t.toBooks = s.toBooks) s := by
  refine ⟨hs, fun jitter t ht => ?_⟩
  obtain ⟨⟨hclock, hbooks, hjitter, -⟩, -⟩ := ht
  have hbooks : t.toBooks = s.toBooks := hbooks
  have hjitter : (0 : Int) ≤ jitter := hjitter
  have hwait : min clusterLockPollInterval (deadline - now) ≤
      min (clusterLockPollInterval + jitter) (deadline - now) := by omega
  exact ⟨hs.later hpos hclock (by rw [hbooks]; exact fun c hc => hc), hwait, hclock, hbooks⟩

/-! ## 5. The parts of a round -/

/-- What a read may show under the token of this acquire. -/
def ShowsSent (owner : Text) (s : World) (comment : Option (Option Text)) : Prop :=
  ∀ c, comment = some (some c) → decodeLockOwner c = some owner →
    ∃ own ∈ s.sent, decodeLockExpiry c = decodeLockExpiry own

theorem getPoolComment_holds (deadline : Int) (hpos : 0 < a.ttl) (hs : Paced owner a next s)
    (bound : Option Int) :
    Holds (servesTruly owner) (Paced owner a next) (getPoolComment bound)
      (fun comment t => Spends deadline 1 0 s t ∧ ShowsSent owner s comment) s := by
  unfold getPoolComment
  refine (request_holds deadline hpos hs (by simp)).bind fun reply t ht hq => ?_
  obtain ⟨hspent, hshows, -⟩ := hq
  split
  · rename_i comment
    refine ⟨ht, hspent, ?_⟩
    rintro c ⟨⟩ hc
    exact hshows c rfl hc
  · exact ⟨ht, hspent, by rintro c ⟨⟩⟩

theorem readLockClaim_holds (hpos : 0 < a.ttl) (hs : Paced owner a next s) :
    Holds (servesTruly owner) (Paced owner a next) (readLockClaim a deadline)
      (fun comment t => Spends deadline 1 0 s t ∧ ShowsSent owner s comment) s := by
  unfold readLockClaim
  refine (now_holds deadline hpos hs).bind fun now u hu hnow => ?_
  obtain ⟨-, hbooks, hspent⟩ := hnow
  refine (getPoolComment_holds deadline hpos hu _).mono fun comment t hread => ?_
  obtain ⟨hspent', hshows⟩ := hread
  rw [ShowsSent, hbooks] at hshows
  exact ⟨hspent.trans hspent', hshows⟩

theorem sentinelClaim_holds (hpos : 0 < a.ttl) (hs : Paced owner a next s) :
    Holds (servesTruly owner) (Paced owner a next) (sentinelClaim owner a deadline)
      (fun _ t => Spends deadline 1 0 s t) s := by
  unfold sentinelClaim
  refine (readLockClaim_holds hpos hs).bind fun comment t ht hq => ?_
  split
  · exact ⟨ht, hq.1⟩
  · exact ⟨ht, hq.1⟩
  · exact ⟨ht, hq.1⟩

/-- **When a claim is reported gone, none of the claims sent so far may show up any more.** -/
theorem abandonLockCreate_holds (deadline : Int) (hpos : 0 < a.ttl) (hs : Paced owner a next s) :
    Holds (servesTruly owner) (Paced owner a next) (abandonLockCreate owner a)
      (fun gone t => Spends deadline 2 0 s t ∧ (gone = true → t.sent = [])) s := by
  unfold abandonLockCreate
  refine (getPoolComment_holds deadline hpos hs _).bind fun comment t ht hq => ?_
  have hleft : Spends deadline 2 0 s t ∧ (false = true → t.sent = []) :=
    ⟨hq.1.mono (by decide) (le_refl 0), by simp⟩
  split
  · exact ⟨ht, hleft⟩
  · exact ⟨ht, hleft⟩
  · split
    · split
      · exact ⟨ht, hleft⟩
      · refine (now_holds deadline hpos ht).bind fun now u hu hnow => ?_
        have hspent : Spends deadline 1 0 s u := hq.1.trans hnow.2.2
        split
        · refine (request_holds deadline hpos hu (by simp)).bind fun reply v hv hdel => ?_
          obtain ⟨hspent', -, hgone⟩ := hdel
          have hboth : Spends deadline 2 0 s v := hspent.trans hspent'
          split
          · exact ⟨hv, hboth, fun _ => hgone _ _ rfl (.inl rfl)⟩
          · exact ⟨hv, hboth, fun _ => hgone _ _ rfl (.inr rfl)⟩
          · exact ⟨hv, hboth, by simp⟩
        · exact ⟨hu, hspent.mono (by decide) (le_refl 0), by simp⟩
    · exact ⟨ht, hleft⟩

theorem giveUpLockCreate_holds (deadline : Int) (hpos : 0 < a.ttl) (hs : Paced owner a next s)
    (cause : AcquireError) :
    Holds (servesTruly owner) (Paced owner a next) (giveUpLockCreate owner a cause)
      (fun err t => err = cause ∧ Spends deadline 2 0 s t) s :=
  (abandonLockCreate_holds deadline hpos hs).bind fun _ _ ht hq => ⟨ht, rfl, hq.1⟩

/-- Finding out what became of a create takes at most two calls and sends no create. -/
theorem createFailed_holds (deadline : Int) (hpos : 0 < a.ttl) (hs : Paced owner a next s)
    (step : CreateStep) (reply : Reply) :
    Holds (servesTruly owner) (Paced owner a next) (createFailed owner a step reply)
      (fun err t => err ≠ .cut ∧ Spends deadline 2 0 s t) s := by
  have hnone : Spends deadline 2 0 s s :=
    .mono (.of_counts (le_refl _) rfl rfl) (Nat.zero_le 2) (le_refl 0)
  have hunknown : Holds (servesTruly owner) (Paced owner a next)
      (giveUpLockCreate owner a (.createUnknown step))
      (fun err t => err ≠ .cut ∧ Spends deadline 2 0 s t) s := by
    refine (giveUpLockCreate_holds deadline hpos hs _).mono fun err t hq => ?_
    exact ⟨by simp [hq.1], hq.2⟩
  cases reply with
  | notAttempted => exact ⟨hs, by simp, hnone⟩
  | refused => exact ⟨hs, by simp, hnone⟩
  | _ => exact hunknown

/-- What a pass of the confirm ends with. -/
def PassEnds (deadline : Int) (s : World) : Except AcquireError (Text × Bool) → World → Prop
  | .ok _, t => Spends deadline 1 0 s t
  | .error err, t => err ≠ .cut ∧ Spends deadline 3 0 s t

/-- **The reads of a pass come to an end**: each that fails is followed by a wait. -/
theorem confirmRead_holds (hpos : 0 < a.ttl) {rounds : Nat} :
    ∀ {s : World}, Paced owner a next s → pollsIn (deadline - s.clock) + 1 ≤ rounds →
      Holds (servesTruly owner) (Paced owner a next) (confirmRead owner a deadline rounds)
        (PassEnds deadline s) s := by
  induction rounds with
  | zero =>
    intro s _ hrounds
    omega
  | succ rounds ih =>
    intro s hs hrounds
    rw [confirmRead]
    refine (sentinelClaim_holds hpos hs).bind fun claim t ht hread => ?_
    have hgiveUp : ∀ {u : World}, Paced owner a next u → Spends deadline 1 0 s u →
        Holds (servesTruly owner) (Paced owner a next)
          (giveUpLockCreate owner a .stateUnknown >>= fun err =>
            (pure (.error err) : Call (Except AcquireError (Text × Bool))))
          (PassEnds deadline s) u := by
      intro u hu hspent
      refine (giveUpLockCreate_holds deadline hpos hu _).bind fun err v hv hq => ?_
      obtain ⟨rfl, hspent'⟩ := hq
      exact ⟨hv, by simp, hspent.trans hspent'⟩
    cases claim with
    | some claim => exact ⟨ht, hread⟩
    | none =>
      refine (now_holds deadline hpos ht).bind fun now u hu hnow => ?_
      obtain ⟨rfl, -, hspentu⟩ := hnow
      have hspent : Spends deadline 1 0 s u := hread.trans hspentu
      split
      · rename_i hbefore
        refine (pollWait_holds deadline hpos hu u.clock).bind fun wait v hv hwait => ?_
        obtain ⟨hleast, hclockv, hbooks⟩ := hwait
        refine (sleep_holds deadline hpos hv wait).bind fun ended w hw hended => ?_
        obtain ⟨hended, hcalls, hcreates, hspentw⟩ := hended
        have hcalls : w.calls = u.calls := by rw [hcalls, hbooks]
        have hcreates : w.creates = u.creates := by rw [hcreates, hbooks]
        split
        · rename_i hdone
          -- The wait makes up for the read, and leaves one wait less.
          have hlater : u.clock + min clusterLockPollInterval (deadline - u.clock) ≤ w.clock := by
            have hlasted := hended hdone
            omega
          have hfresh : Spends deadline 0 0 s w :=
            .wait hbefore hlater hcreates hcalls hspent (by decide)
          have hpolls := pollsIn_wait hbefore hlater
          have hmono := hspent.pollsIn_le
          refine (ih hw (by omega)).mono fun r v hr => ?_
          cases r with
          | ok claim => exact (hfresh.trans hr).mono (by decide) (le_refl 0)
          | error err => exact ⟨hr.1, (hfresh.trans hr.2).mono (by decide) (le_refl 0)⟩
        · refine hgiveUp hw ?_
          have hwaited : Spends deadline 0 0 u v :=
            .of_counts hclockv (by rw [hbooks]; rfl) (by rw [hbooks]; rfl)
          exact hspent.trans (hwaited.trans hspentw)
      · exact hgiveUp hu hspent

/-- What a confirm ends with: a claim is refused no sooner than `next`. -/
def Judged (next : Int) : Except Stop (Option Handle) → World → Prop
  | .ok _, _ => True
  | .error (.error err), _ => err ≠ .cut
  | .error (.short err released), t => err ≠ .cut ∧ next ≤ t.clock ∧ (released = true → t.sent = [])

/-- Judging a claim: it is handed out, or it is too short.  A claim that `Paced` speaks of is not
too short before `next`. -/
theorem handOut_holds (deadline : Int) (hpos : 0 < a.ttl) (hs : Paced owner a next s) {expiry : Int}
    (hlong : next ≤ s.clock ∨ next + a.settings.claimNeed < expiry) (claim : Text) :
    Holds (servesTruly owner) (Paced owner a next) (handOut owner a expiry claim)
      (fun r t => Spends deadline 2 0 s t ∧ Judged next r t) s := by
  unfold handOut
  refine (now_holds deadline hpos hs).bind fun now t ht hnow => ?_
  obtain ⟨rfl, -, hspent⟩ := hnow
  split
  · exact ⟨ht, hspent.mono (by decide) (le_refl 0), trivial⟩
  · rename_i hshort
    have hshort : ¬ t.clock + a.settings.claimNeed < expiry := hshort
    have hreached : next ≤ t.clock := by
      rcases hlong with hnext | hlong
      · exact hnext.trans hspent.clock
      · omega
    refine (now_holds deadline hpos ht).bind fun now u hu hnow => ?_
    refine (abandonLockCreate_holds deadline hpos hu).bind fun gone v hv hgone => ?_
    have hboth : Spends deadline 2 0 t v := hnow.2.2.trans hgone.1
    exact ⟨hv, hspent.trans hboth, by simp, hreached.trans hboth.clock, hgone.2⟩

/-- **A confirm comes to an end, and it refuses the claim no sooner than `next`.** -/
theorem confirmLockCreate_holds (hpos : 0 < a.ttl) (hs : Paced owner a next s) {expiry : Int}
    (hlong : next ≤ s.clock ∨ next + a.settings.claimNeed < expiry) {rounds : Nat}
    (hrounds : pollsIn (deadline - s.clock) + 1 ≤ rounds) :
    Holds (servesTruly owner) (Paced owner a next)
      (confirmLockCreate owner a expiry deadline rounds)
      (fun r t => Spends deadline 4 0 s t ∧ Judged next r t) s := by
  have hafter : ∀ {m c : Nat} {t : World}, Spends deadline m c s t →
      pollsIn (deadline - t.clock) + 1 ≤ rounds :=
    fun hspent => (Nat.add_le_add_right hspent.pollsIn_le 1).trans hrounds
  unfold confirmLockCreate
  refine (confirmRead_holds hpos hs hrounds).bind fun r t ht hr => ?_
  cases r with
  | error err => exact ⟨ht, hr.2.mono (by decide) (le_refl 0), hr.1⟩
  | ok found =>
    obtain ⟨claim, mine⟩ := found
    have hone : Spends deadline 1 0 s t := hr
    cases mine with
    | false => exact ⟨ht, hone.mono (by decide) (le_refl 0), trivial⟩
    | true =>
      dsimp only
      split
      · refine (sleep_holds deadline hpos ht _).bind fun ended u hu hended => ?_
        have hslept : Spends deadline 1 0 s u := hone.trans hended.2.2.2
        split
        · refine (confirmRead_holds hpos hu (hafter hslept)).bind fun r v hv hr => ?_
          cases r with
          | error err => exact ⟨hv, hslept.trans hr.2, hr.1⟩
          | ok found =>
            obtain ⟨claim, mine⟩ := found
            have htwo : Spends deadline 2 0 s v := hslept.trans hr
            cases mine with
            | false => exact ⟨hv, htwo.mono (by decide) (le_refl 0), trivial⟩
            | true =>
              refine (handOut_holds deadline hpos hv ?_ claim).mono fun r w hw =>
                ⟨htwo.trans hw.1, hw.2⟩
              exact hlong.imp_left fun hnext => hnext.trans htwo.clock
        · refine (giveUpLockCreate_holds deadline hpos hu _).bind fun err v hv hq => ?_
          obtain ⟨rfl, hspent⟩ := hq
          exact ⟨hv, (hslept.trans hspent).mono (by decide) (le_refl 0), by simp [Judged]⟩
      · have hlong := hlong.imp_left fun hnext => hnext.trans hone.clock
        refine (handOut_holds deadline hpos ht hlong claim).mono fun r v hv => ?_
        exact ⟨(hone.trans hv.1).mono (by decide) (le_refl 0), hv.2⟩

/-- A claim is given up at `t` and taken again: the new one is not refused within an attempt. -/
structure Retaken (owner : Text) (a : Acquire) (deadline next : Int) (t : World) : Prop where
  reached : next ≤ t.clock
  starts : t.clock + a.settings.claimAttemptDuration ≤ deadline
  paced : Paced owner a (t.clock + a.settings.claimAttemptDuration) t

/-- A retake needs time for one attempt, and moves `next` on by it. -/
theorem retakeShortClaim_holds (hpos : 0 < a.ttl) (hs : Paced owner a next s) {stop : Stop}
    (hstop : Judged next (.error stop) s) :
    Holds (servesTruly owner) (Paced owner a next) (retakeShortClaim a deadline stop)
      (fun r t => Spends deadline 0 0 s t ∧ (∀ err, r = some err → err ≠ .cut) ∧
        (r = none → Retaken owner a deadline next t)) s := by
  have hnone : Spends deadline 0 0 s s := .of_counts (le_refl _) rfl rfl
  cases stop with
  | error err =>
    refine ⟨hs, hnone, ?_, by simp⟩
    rintro _ ⟨⟩
    exact hstop
  | short err released =>
    obtain ⟨hcut, hreached, hgone⟩ := hstop
    cases released with
    | false =>
      refine ⟨hs, hnone, ?_, by simp⟩
      rintro _ ⟨⟩
      exact hcut
    | true =>
      refine (now_holds deadline hpos hs).bind fun now t ht hnow => ?_
      obtain ⟨rfl, hbooks, hspent⟩ := hnow
      dsimp only
      split_ifs with hretake
      · obtain ⟨hstarts, hfits, -⟩ := hretake
        refine ⟨ht, hspent, by simp, fun _ => ⟨hreached.trans hspent.clock, hstarts, ?_⟩⟩
        refine ⟨.inr hfits, fun c hc => ?_⟩
        rw [hbooks, hgone rfl] at hc
        exact absurd hc List.not_mem_nil
      · refine ⟨ht, hspent, ?_, by simp⟩
        rintro _ ⟨⟩
        exact hcut

/-- What the loop does with the end of a confirm. -/
def NextEnds (owner : Text) (a : Acquire) (deadline next : Int) : Next → World → Prop
  | .done result, _ => result ≠ .error .cut
  | .again, t => Retaken owner a deadline next t
  | .goOn, _ => True

/-- After the confirmation the acquire ends, waits or retakes. -/
theorem afterConfirm_holds (hpos : 0 < a.ttl) (hs : Paced owner a next s)
    {r : Except Stop (Option Handle)} (hr : Judged next r s) :
    Holds (servesTruly owner) (Paced owner a next) (afterConfirm a deadline r)
      (fun r t => Spends deadline 0 0 s t ∧ NextEnds owner a deadline next r t) s := by
  have hnone : Spends deadline 0 0 s s := .of_counts (le_refl _) rfl rfl
  cases r with
  | ok found =>
    cases found with
    | none => exact ⟨hs, hnone, trivial⟩
    | some handle => exact ⟨hs, hnone, by simp [NextEnds]⟩
  | error stop =>
    refine (retakeShortClaim_holds hpos hs hr).bind fun r t ht hq => ?_
    obtain ⟨hspent, hcut, hretake⟩ := hq
    cases r with
    | none => exact ⟨ht, hspent, hretake rfl⟩
    | some err => exact ⟨ht, hspent, by simpa [NextEnds] using hcut err rfl⟩

/-- Stealing an expired claim takes at most six calls and one create. -/
theorem stealExpired_holds (hpos : 0 < a.ttl) (hs : Paced owner a next s) {rounds : Nat}
    (hrounds : pollsIn (deadline - s.clock) + 1 ≤ rounds) (comment : Text) (started : Int) :
    Holds (servesTruly owner) (Paced owner a next)
      (stealExpired owner a deadline rounds comment started)
      (fun r t => Spends deadline 6 1 s t ∧ Judged next r t) s := by
  unfold stealExpired
  refine (now_holds deadline hpos hs).bind fun now t ht hnow => ?_
  have hzero : Spends deadline 0 0 s t := hnow.2.2
  split
  · exact ⟨ht, hzero.mono (by decide) (by decide), trivial⟩
  · refine (request_holds deadline hpos ht (by simp)).bind fun reply u hu hdel => ?_
    have hone : Spends deadline 1 0 s u := hzero.trans hdel.1
    have hrecreate : Holds (servesTruly owner) (Paced owner a next) (do
        let now ← perform .now
        if clusterLockStealBudget < now - started then return .ok none
        else
          let now ← perform .now
          let expiry := claimExpiry now a.ttl
          match ← request (.create (encodeLockComment owner expiry)) with
          | .created => confirmLockCreate owner a expiry deadline rounds
          | .duplicate => return .ok none
          | reply => return .error (.error (← createFailed owner a .stealRecreateLock reply)))
        (fun r t => Spends deadline 6 1 s t ∧ Judged next r t) u := by
      refine (now_holds deadline hpos hu).bind fun now v hv hnow => ?_
      have hchecked : Spends deadline 1 0 s v := hone.trans hnow.2.2
      split
      · exact ⟨hv, hchecked.mono (by decide) (by decide), trivial⟩
      · refine (now_holds deadline hpos hv).bind fun now w hw hnow => ?_
        obtain ⟨rfl, -, hspent⟩ := hnow
        have hread : Spends deadline 1 0 s w := hchecked.trans hspent
        refine (create_holds deadline hpos hw).bind fun reply x hx hcreate => ?_
        have htwo : Spends deadline 2 1 s x := hread.trans hcreate
        have hpolls := htwo.pollsIn_le
        split
        · refine (confirmLockCreate_holds hpos hx ?_ (by omega)).mono fun r y hy =>
            ⟨htwo.trans hy.1, hy.2⟩
          exact hw.ahead.imp_left fun hnext => hnext.trans hcreate.clock
        · exact ⟨hx, htwo.mono (by decide) (le_refl 1), trivial⟩
        · refine (createFailed_holds deadline hpos hx _ _).bind fun err y hy hq => ?_
          exact ⟨hy, (htwo.trans hq.2).mono (by decide) (le_refl 1), hq.1⟩
    split
    · exact hrecreate
    · exact hrecreate
    · exact ⟨hu, hone.mono (by decide) (by decide), trivial⟩
    · exact ⟨hu, hone.mono (by decide) (by decide), by simp [Judged]⟩

/-- The expiry that a read shows under the token of this acquire is that of a claim it has sent. -/
theorem Paced.long_of_shown (hpos : 0 < a.ttl) (hs : Paced owner a next s) {comment : Text}
    {exp : Int}
    (hshows : ShowsSent owner s (some (some comment)))
      (howner : decodeLockOwner comment = some owner)
    (hexp : decodeLockExpiry comment = some exp) :
    next ≤ s.clock ∨ next + a.settings.claimNeed < exp := by
  obtain ⟨own, hown, heq⟩ := hshows comment rfl howner
  obtain ⟨now, hnow, rfl, hlong⟩ := hs.sent own hown
  rw [hexp, decodeLockExpiry_encode (unspaced_of_decodeLockOwner howner) hnow hpos a.ttl_lt,
    Option.some.injEq] at heq
  rw [heq]
  exact hlong

/-- Reading the sentinel first adds two calls. -/
theorem tryStealExpired_holds (hpos : 0 < a.ttl) (hs : Paced owner a next s) {rounds : Nat}
    (hrounds : pollsIn (deadline - s.clock) + 1 ≤ rounds) :
    Holds (servesTruly owner) (Paced owner a next) (tryStealExpired owner a deadline rounds)
      (fun r t => Spends deadline 8 1 s t ∧ Judged next r t) s := by
  have hafter : ∀ {m c : Nat} {t : World}, Spends deadline m c s t →
      pollsIn (deadline - t.clock) + 1 ≤ rounds :=
    fun hspent => (Nat.add_le_add_right hspent.pollsIn_le 1).trans hrounds
  unfold tryStealExpired
  refine (readLockClaim_holds hpos hs).bind fun comment t ht hread => ?_
  obtain ⟨hone, hshows⟩ := hread
  have hleft : Spends deadline 8 1 s t := hone.mono (by decide) (by decide)
  split
  · exact ⟨ht, hleft, by simp [Judged]⟩
  · exact ⟨ht, hleft, trivial⟩
  · rename_i comment
    refine (now_holds deadline hpos ht).bind fun now u hu hnow => ?_
    have hlooked : Spends deadline 1 0 s u := hone.trans hnow.2.2
    split
    · rename_i exp hlive
      have hexp : decodeLockExpiry comment = some exp := (Option.filter_eq_some_iff.mp hlive).1
      split
      · rename_i howner
        refine (now_holds deadline hpos hu).bind fun now v hv hnow => ?_
        have hagain : Spends deadline 1 0 s v := hlooked.trans hnow.2.2
        split
        · have hlong := (hs.long_of_shown hpos hshows howner hexp).imp_left
            fun hnext => hnext.trans hagain.clock
          refine (confirmLockCreate_holds hpos hv hlong (hafter hagain)).mono fun r w hw => ?_
          exact ⟨(hagain.trans hw.1).mono (by decide) (by decide), hw.2⟩
        · exact ⟨hv, hagain.mono (by decide) (by decide), trivial⟩
      · exact ⟨hu, hlooked.mono (by decide) (by decide), trivial⟩
    · refine (now_holds deadline hpos hu).bind fun started v hv hnow => ?_
      have hagain : Spends deadline 1 0 s v := hlooked.trans hnow.2.2
      refine (readLockClaim_holds hpos hv).bind fun current w hw hreread => ?_
      have htwo : Spends deadline 2 0 s w := hagain.trans hreread.1
      split
      · exact ⟨hw, htwo.mono (by decide) (by decide), by simp [Judged]⟩
      · exact ⟨hw, htwo.mono (by decide) (by decide), trivial⟩
      · split
        · refine (stealExpired_holds hpos hw (hafter htwo) _ _).mono fun r x hx => ?_
          exact ⟨htwo.trans hx.1, hx.2⟩
        · exact ⟨hw, htwo.mono (by decide) (by decide), trivial⟩

/-! ## 6. The rounds

A round ends in one of three ways, and each has its price. -/

/-- What a round ends with. -/
def RoundEnds (owner : Text) (a : Acquire) (deadline next : Int) (s : World) : Round → World → Prop
  | .done result, t => result ≠ .error .cut ∧ Spends deadline callsPerRound 2 s t
  | .retaken, t => Retaken owner a deadline next t ∧ Spends deadline callsPerRound 2 s t
  | .waited, t => pollsIn (deadline - t.clock) + 1 ≤ pollsIn (deadline - s.clock) ∧
      Spends deadline 0 2 s t

/-- One round in full, with what it spends and what it leaves for the rounds behind it. -/
theorem stealOrWaitRound_holds (hpos : 0 < a.ttl) {s₀ : World} (hspent : Spends deadline 5 1 s₀ s)
    (hs : Paced owner a next s) (clamped : Bool) {rounds : Nat}
    (hrounds : pollsIn (deadline - s.clock) + 1 ≤ rounds) (cause : TimeoutCause) :
    Holds (servesTruly owner) (Paced owner a next)
      (stealOrWaitRound owner a deadline clamped rounds cause)
      (RoundEnds owner a deadline next s₀) s := by
  unfold stealOrWaitRound
  refine (tryStealExpired_holds hpos hs hrounds).bind fun r t ht hsteal => ?_
  refine (afterConfirm_holds hpos ht hsteal.2).bind fun r u hu hnext => ?_
  have hfull : Spends deadline callsPerRound 2 s₀ u := hspent.trans (hsteal.1.trans hnext.1)
  cases r with
  | done result => exact ⟨hu, hnext.2, hfull⟩
  | again => exact ⟨hu, hnext.2, hfull⟩
  | goOn =>
    dsimp only
    split
    · exact ⟨hu, by simp, hfull⟩
    · refine (now_holds deadline hpos hu).bind fun now v hv hnow => ?_
      obtain ⟨rfl, -, hzero⟩ := hnow
      have hfull : Spends deadline callsPerRound 2 s₀ v := hfull.trans hzero
      split
      · rename_i hbefore
        refine (pollWait_holds deadline hpos hv v.clock).bind fun wait w hw hwait => ?_
        obtain ⟨hleast, hclockw, hbooks⟩ := hwait
        refine (sleep_holds deadline hpos hw wait).bind fun ended x hx hended => ?_
        obtain ⟨hended, hcalls, hcreates, hslept⟩ := hended
        have hcalls : x.calls = v.calls := by rw [hcalls, hbooks]
        have hcreates : x.creates = v.creates := by rw [hcreates, hbooks]
        split
        · rename_i hdone
          have hlater : v.clock + min clusterLockPollInterval (deadline - v.clock) ≤ x.clock := by
            have hlasted := hended hdone
            omega
          have hpolls := pollsIn_wait hbefore hlater
          have hmono := hfull.pollsIn_le
          exact ⟨hx, by omega, .wait hbefore hlater hcreates hcalls hfull (le_refl _)⟩
        · have hidle : Spends deadline 0 0 v x :=
            .of_counts (hclockw.trans hslept.clock) hcreates hcalls
          exact ⟨hx, by simp, hfull.trans hidle⟩
      · exact ⟨hv, by simp, hfull⟩

/-- **A round returns, retakes a claim no sooner than `next`, or waits.**  The three ends of a
round, with what each of them has used up. -/
theorem acquireRound_holds (hpos : 0 < a.ttl) (hs : Paced owner a next s) (clamped : Bool)
    {rounds : Nat} (hrounds : pollsIn (deadline - s.clock) + 1 ≤ rounds) :
    Holds (servesTruly owner) (Paced owner a next) (acquireRound owner a deadline clamped rounds)
      (RoundEnds owner a deadline next s) s := by
  have hafter : ∀ {m c : Nat} {t : World}, Spends deadline m c s t →
      pollsIn (deadline - t.clock) + 1 ≤ rounds :=
    fun hspent => (Nat.add_le_add_right hspent.pollsIn_le 1).trans hrounds
  unfold acquireRound
  refine (now_holds deadline hpos hs).bind fun now t ht hnow => ?_
  obtain ⟨rfl, -, hzero⟩ := hnow
  refine (create_holds deadline hpos ht).bind fun reply u hu hcreate => ?_
  have hone : Spends deadline 1 1 s u := hzero.trans hcreate
  split
  · have hlong : next ≤ u.clock ∨ next + a.settings.claimNeed < claimExpiry t.clock a.ttl :=
      ht.ahead.imp_left fun hnext => hnext.trans hcreate.clock
    refine (confirmLockCreate_holds hpos hu hlong (hafter hone)).bind fun r v hv hconfirm => ?_
    refine (afterConfirm_holds hpos hv hconfirm.2).bind fun r w hw hnext => ?_
    have hfive : Spends deadline 5 1 s w := hone.trans (hconfirm.1.trans hnext.1)
    cases r with
    | done result => exact ⟨hw, hnext.2, hfive.mono (by decide) (by decide)⟩
    | again => exact ⟨hw, hnext.2, hfive.mono (by decide) (by decide)⟩
    | goOn => exact stealOrWaitRound_holds hpos hfive hw clamped (hafter hfive) _
  · exact stealOrWaitRound_holds hpos (hone.mono (by decide) (le_refl 1)) hu clamped (hafter hone) _
  · refine (createFailed_holds deadline hpos hu _ _).bind fun err v hv hq => ?_
    exact ⟨hv, by simpa using hq.1, (hone.trans hq.2).mono (by decide) (by decide)⟩

/-- A retake leaves one attempt less. -/
theorem Retaken.attemptsIn_le (h : Retaken owner a deadline next t) :
    attemptsIn a.settings.claimAttemptDuration
        (deadline - (t.clock + a.settings.claimAttemptDuration)) + 1 ≤
      attemptsIn a.settings.claimAttemptDuration (deadline - next) := by
  have hpos := a.settings.claimAttemptDuration_pos
  have hreached := h.reached
  have hstarts := h.starts
  rw [← Int.sub_sub, attemptsIn_sub hpos (by omega)]
  exact attemptsIn_mono hpos (by omega)

/-- **The loop comes to an end**, and its calls and creates are bounded by the rounds that the time
allows.  The induction is on the waits and attempts that are left, and each round that goes on has
one of them less. -/
theorem acquireLoop_holds (hpos : 0 < a.ttl) (clamped : Bool) {rounds : Nat} :
    ∀ {next : Int} {s : World}, Paced owner a next s →
      pollsIn (deadline - s.clock) +
        attemptsIn a.settings.claimAttemptDuration (deadline - next) + 2 ≤ rounds →
      Holds (servesTruly owner) (fun _ => True) (acquireLoop owner a deadline clamped rounds)
        (fun r t => r ≠ .error .cut ∧
          t.creates ≤ s.creates + 2 * (pollsIn (deadline - s.clock) +
            attemptsIn a.settings.claimAttemptDuration (deadline - next) + 1) ∧
          t.calls ≤ s.calls + callsPerRound * (pollsIn (deadline - s.clock) +
            attemptsIn a.settings.claimAttemptDuration (deadline - next) + 1)) s := by
  induction rounds with
  | zero =>
    intro next s _ hrounds
    omega
  | succ rounds ih =>
    intro next s hs hrounds
    rw [acquireLoop_succ]
    have hround : Holds (servesTruly owner) (fun _ => True)
        (acquireRound owner a deadline clamped rounds)
        (fun r t => Paced owner a next t ∧ RoundEnds owner a deadline next s r t) s :=
      (acquireRound_holds hpos hs clamped (by omega)).weaken fun _ _ => trivial
    refine hround.bind fun r t _ hend => ?_
    obtain ⟨ht, hend⟩ := hend
    cases r with
    | done result =>
      obtain ⟨hcut, hspent⟩ := hend
      have hcalls := hspent.calls
      have hcreates := hspent.creates
      unfold callsPerRound at hcalls ⊢
      exact ⟨trivial, hcut, by omega, by omega⟩
    | retaken =>
      obtain ⟨hretaken, hspent⟩ := hend
      have hattempts := hretaken.attemptsIn_le
      have hpolls := hspent.pollsIn_le
      have hcalls := hspent.calls
      have hcreates := hspent.creates
      refine (ih hretaken.paced (by omega)).mono fun r u hu => ?_
      obtain ⟨hcut, hcreates', hcalls'⟩ := hu
      unfold callsPerRound at hcalls hcalls' ⊢
      exact ⟨hcut, by omega, by omega⟩
    | waited =>
      obtain ⟨hpolls, hspent⟩ := hend
      have hcalls := hspent.calls
      have hcreates := hspent.creates
      refine (ih ht (by omega)).mono fun r u hu => ?_
      obtain ⟨hcut, hcreates', hcalls'⟩ := hu
      unfold callsPerRound at hcalls hcalls' ⊢
      exact ⟨hcut, by omega, by omega⟩

/-! ## 7. The acquire -/

/-- The rounds that a time allows: its waits, its attempts and the last round. -/
def maxRounds (timeout poll attempt : Int) : Nat :=
  ((timeout + poll - 1) / poll).toNat + (timeout / attempt).toNat + 1

theorem clusterLockDeadline_le (requestDeadline : Option Int) (now timeout : Int) :
    (clusterLockDeadline requestDeadline now timeout).1 ≤ now + timeout := by
  unfold clusterLockDeadline
  split
  · exact le_refl _
  · split
    · rename_i hlimit
      exact le_of_lt hlimit
    · exact le_refl _

/-- The loop of an acquire that started at `now` has no more rounds than its timeout allows. -/
theorem rounds_le_maxRounds (a : Acquire) {now clock : Int} (hnow : now ≤ clock) :
    pollsIn ((clusterLockDeadline a.requestDeadline now a.timeout).1 - clock) +
        attemptsIn a.settings.claimAttemptDuration
          ((clusterLockDeadline a.requestDeadline now a.timeout).1 - clock) + 1 ≤
      maxRounds a.timeout clusterLockPollInterval a.settings.claimAttemptDuration := by
  have hdeadline := clusterLockDeadline_le a.requestDeadline now a.timeout
  have hpolls : pollsIn ((clusterLockDeadline a.requestDeadline now a.timeout).1 - clock) ≤
      pollsIn a.timeout := pollsIn_mono (by omega)
  have hattempts : attemptsIn a.settings.claimAttemptDuration
      ((clusterLockDeadline a.requestDeadline now a.timeout).1 - clock) ≤
        attemptsIn a.settings.claimAttemptDuration a.timeout :=
    attemptsIn_mono a.settings.claimAttemptDuration_pos (by omega)
  exact Nat.add_le_add_right (Nat.add_le_add hpolls hattempts) 1

/-- Before the first claim is sent, every moment will do. -/
theorem paced_of_unsent (hsent : s.sent = []) : Paced owner a s.clock s where
  ahead := .inl (le_refl _)
  sent := by
    rw [hsent]
    exact fun c hc => absurd hc List.not_mem_nil

/-- The end of `acquireClusterLock`, once the deadline is known. -/
def enterLoop (owner : Text) (a : Acquire) (rounds : Nat) (now : Int) (bound : Int × Bool) :
    Call (Except AcquireError Handle) :=
  if now < bound.1 then acquireLoop owner a bound.1 bound.2 rounds
  else pure (.error (.timedOut bound.2 .noTimeToWait))

/-- **An acquire ends, and its calls are bounded.**  The rounds are bounded by the waits and the
attempts that fit into the timeout, and each round spends a fixed number of calls. -/
theorem acquireClusterLock_holds (owner : Text) (a : Acquire) {rounds : Nat} {s : World}
    (hsent : s.sent = [])
    (hrounds : maxRounds a.timeout clusterLockPollInterval a.settings.claimAttemptDuration + 1 ≤
      rounds) :
    Holds (servesTruly owner) (fun _ => True) (acquireClusterLock owner a rounds)
      (fun r t => r ≠ .error .cut ∧
        t.creates ≤ s.creates +
          2 * maxRounds a.timeout clusterLockPollInterval a.settings.claimAttemptDuration ∧
        t.calls ≤ s.calls + callsPerRound *
          maxRounds a.timeout clusterLockPollInterval a.settings.claimAttemptDuration) s := by
  unfold acquireClusterLock
  split_ifs with howner httl htimeout
  · exact ⟨trivial, by simp⟩
  · exact ⟨trivial, by simp⟩
  · exact ⟨trivial, by simp⟩
  · have hpos : 0 < a.ttl := by omega
    refine Holds.perform trivial fun now t ht => ?_
    obtain ⟨⟨hclock, hbooks, rfl⟩, -⟩ := ht
    have hbooks : t.toBooks = s.toBooks := hbooks
    refine Holds.perform trivial fun now u hu => ?_
    obtain ⟨⟨hclock', hbooks', rfl⟩, -⟩ := hu
    have hbooks' : u.toBooks = t.toBooks := hbooks'
    have hsentu : u.sent = [] := by rw [hbooks', hbooks, hsent]
    have hcreates : u.creates = s.creates := by rw [hbooks', hbooks]
    have hcalls : u.calls = s.calls := by rw [hbooks', hbooks]
    have hmax := rounds_le_maxRounds a hclock'
    show Holds _ _
      (enterLoop owner a rounds u.clock (clusterLockDeadline a.requestDeadline t.clock a.timeout)) _
      u
    generalize clusterLockDeadline a.requestDeadline t.clock a.timeout = bound at hmax ⊢
    obtain ⟨deadline, clamped⟩ := bound
    dsimp only [enterLoop] at hmax ⊢
    split
    · refine (acquireLoop_holds hpos _ (paced_of_unsent hsentu) (by omega)).mono fun r v hv => ?_
      obtain ⟨hcut, hcreates', hcalls'⟩ := hv
      have hweighted := Nat.mul_le_mul_left callsPerRound hmax
      exact ⟨hcut, by omega, by omega⟩
    · refine ⟨trivial, by simp, ?_, ?_⟩
      · rw [hcreates]
        exact Nat.le_add_right _ _
      · rw [hcalls]
        exact Nat.le_add_right _ _

/-- Every call has an answer. -/
theorem servesTruly_serial (owner : Text) (s : World) (e : Effect) :
    ∃ a t, servesTruly owner s e a t := by
  have hstay : ∀ x : Answer e, Keeps s.toBooks s.clock e x → Truthful owner s e x →
      ∃ a t, servesTruly owner s e a t :=
    fun x hkeeps htrue =>
      ⟨x, ⟨s.after s.clock e x, s.clock, s.shown⟩, ⟨le_refl _, rfl, hkeeps⟩, htrue⟩
  cases e with
  | enroll => exact hstay [] trivial trivial
  | now => exact hstay s.clock rfl trivial
  | jitter => exact hstay (0 : Int) ⟨le_refl _, by decide⟩ trivial
  | send r => exact hstay (0 : Nat) trivial trivial
  | await id => exact hstay Reply.failed trivial trivial
  | woke => exact hstay false (by simp [Keeps]) trivial
  | _ => exact hstay () trivial trivial

/-- The counts only grow. -/
theorem counts_le {e : Effect} {x : Answer e} (h : servesTruly owner s e x t) :
    s.creates ≤ t.creates ∧ s.calls ≤ t.calls := by
  obtain ⟨⟨-, hbooks, -⟩, -⟩ := h
  rw [hbooks]
  cases e with
  | send r =>
    cases r with
    | create c => exact ⟨Nat.le_succ _, Nat.le_succ _⟩
    | _ => exact ⟨le_refl _, Nat.le_succ _⟩
  | await id =>
    unfold Books.after Books.answer
    dsimp only
    split
    · exact ⟨le_refl _, le_refl _⟩
    · exact ⟨le_refl _, le_refl _⟩
    · exact ⟨le_refl _, le_refl _⟩
  | _ => exact ⟨le_refl _, le_refl _⟩

end Steps

/-- From the start of the loop in the state `s` the acquire has got to the start of another round,
in the state `t`; `moments` are those of its retakes, and `left` the rounds it is still allowed. -/
inductive Rounds (serves : Serve Effect Answer World) (owner : Text) (a : Acquire) (deadline : Int)
    (clamped : Bool) (rounds : Nat) (s : World) : List Int → Nat → World → Prop
  | start : Rounds serves owner a deadline clamped rounds s [] rounds s
  | waited {moments : List Int} {left : Nat} {t u : World}
      (h : Rounds serves owner a deadline clamped rounds s moments (left + 1) t)
      (hround : Runs serves (acquireRound owner a deadline clamped left) t (.ret .waited) u) :
      Rounds serves owner a deadline clamped rounds s moments left u
  | retaken {moments : List Int} {left : Nat} {t u : World}
      (h : Rounds serves owner a deadline clamped rounds s moments (left + 1) t)
      (hround : Runs serves (acquireRound owner a deadline clamped left) t (.ret .retaken) u) :
      Rounds serves owner a deadline clamped rounds s (moments ++ [u.clock]) left u

section Retakes

variable {serves : Serve Effect Answer World} {owner : Text} {a : Acquire} {deadline : Int}
  {clamped : Bool} {rounds left : Nat} {moments : List Int} {s t : World}

/-- The rounds are a run of the loop. -/
theorem Rounds.runs (h : Rounds serves owner a deadline clamped rounds s moments left t) :
    Runs serves (acquireLoop owner a deadline clamped rounds) s
      (acquireLoop owner a deadline clamped left) t := by
  induction h with
  | start => exact .here _ s
  | waited _ hround ih =>
    refine ih.trans ?_
    rw [acquireLoop_succ]
    exact hround.bind (.here _ _)
  | retaken _ hround ih =>
    refine ih.trans ?_
    rw [acquireLoop_succ]
    exact hround.bind (.here _ _)

/-- **Two retakes are one attempt apart.** -/
theorem Rounds.spaced (hpos : 0 < a.ttl) (hsent : s.sent = [])
    (hrounds : pollsIn (deadline - s.clock) +
      attemptsIn a.settings.claimAttemptDuration (deadline - s.clock) + 2 ≤ rounds)
    (h : Rounds (servesTruly owner) owner a deadline clamped rounds s moments left t) :
    ∃ next, Paced owner a next t ∧
      pollsIn (deadline - t.clock) +
        attemptsIn a.settings.claimAttemptDuration (deadline - next) + 2 ≤ left ∧
      (∀ x ∈ moments, x + a.settings.claimAttemptDuration ≤ next) ∧
      moments.Pairwise fun x y => x + a.settings.claimAttemptDuration ≤ y := by
  induction h with
  | start => exact ⟨s.clock, paced_of_unsent hsent, hrounds, by simp, List.Pairwise.nil⟩
  | waited _ hround ih =>
    obtain ⟨next, hpaced, hleft, hlast, hpairs⟩ := ih
    obtain ⟨hpaced', hpolls, -⟩ :=
      (acquireRound_holds hpos hpaced clamped (by omega)).runs hround
    exact ⟨next, hpaced', by omega, hlast, hpairs⟩
  | @retaken moments left t u _ hround ih =>
    obtain ⟨next, hpaced, hleft, hlast, hpairs⟩ := ih
    obtain ⟨-, hretaken, hspent⟩ :=
      (acquireRound_holds hpos hpaced clamped (by omega)).runs hround
    have hattempts := hretaken.attemptsIn_le
    have hpolls := hspent.pollsIn_le
    refine ⟨u.clock + a.settings.claimAttemptDuration, hretaken.paced, by omega, ?_, ?_⟩
    · intro x hx
      rcases List.mem_append.mp hx with hx | hx
      · have hbefore := hlast x hx
        have hreached := hretaken.reached
        have hduration := a.settings.claimAttemptDuration_pos
        omega
      · rw [List.mem_singleton.mp hx]
    · refine List.pairwise_append.mpr ⟨hpairs, List.pairwise_singleton _ _, fun x hx y hy => ?_⟩
      rw [List.mem_singleton.mp hy]
      exact (hlast x hx).trans hretaken.reached

end Retakes

/-- **An acquire returns.**  Its creates and its calls are bounded by what its timeout, the poll
interval and the duration of an attempt allow, and two retakes of a short claim are one attempt
apart.  Any number of rounds from there on does, so the cut of the loop is never reached.  The loop
has at most as many rounds as waits and attempts fit between its start and its deadline, each round
makes a bounded number of calls, and a retake moves the next one by an attempt. -/
theorem acquire_terminates (owner : Text) (a : Acquire) (rounds : Nat) (s : World)
    (hsent : s.sent = [])
    (hrounds : maxRounds a.timeout clusterLockPollInterval a.settings.claimAttemptDuration + 1 ≤
      rounds) :
    (∀ q t, Runs (servesTruly owner) (acquireClusterLock owner a rounds) s q t →
      q ≠ .ret (.error .cut) ∧
      t.creates ≤ s.creates +
        2 * maxRounds a.timeout clusterLockPollInterval a.settings.claimAttemptDuration ∧
      t.calls ≤ s.calls + callsPerRound *
        maxRounds a.timeout clusterLockPollInterval a.settings.claimAttemptDuration) ∧
    ∀ now clamped moments left t, 0 < a.ttl → now ≤ s.clock →
      Rounds (servesTruly owner) owner a (clusterLockDeadline a.requestDeadline now a.timeout).1
        clamped rounds s moments left t →
      moments.Pairwise fun x y => x + a.settings.claimAttemptDuration ≤ y := by
  have hends := acquireClusterLock_holds owner a hsent hrounds
  constructor
  · intro q t hrun
    have hcreates := (hends.mono fun _ _ h => h.2.1).bounded (servesTruly_serial owner)
      fun _ _ _ _ h => (counts_le h).1
    have hcalls := (hends.mono fun _ _ h => h.2.2).bounded (servesTruly_serial owner)
      fun _ _ _ _ h => (counts_le h).2
    refine ⟨?_, (hcreates.runs hrun).inv, (hcalls.runs hrun).inv⟩
    rintro rfl
    exact (hends.runs hrun).2.1 rfl
  · intro now clamped moments left t hpos hnow h
    have hmax := rounds_le_maxRounds a hnow
    obtain ⟨-, -, -, -, hpairs⟩ := h.spaced hpos hsent (by omega)
    exact hpairs

/-- A caller that needs twenty seconds on its claim. -/
def hurried : Acquire where
  ttl := 60 * second
  timeout := 30 * second
  requestDeadline := none
  settings := { grace := false, noWait := false, claimReserve := 20 * second }
  ttl_lt := by decide

def hurriedOwner : Text := ['m', 'e']

/-- The world at the epoch. -/
def atEpoch (b : Books) : World := { b with clock := 0, shown := ⟨by decide, by decide⟩ }

/-- The acquire of a caller whose create is refused: one round of the ninety-one. -/
theorem acquire_terminates_hurried :
    Runs (servesTruly hurriedOwner) (acquireClusterLock hurriedOwner hurried 92) (atEpoch {})
      (.ret (.error (.createRefused .createSentinelPool)))
      (atEpoch
        ((Books.send {}
          (.create (encodeLockComment hurriedOwner (claimExpiry 0 hurried.ttl)))).answer
        .refused)) ∧
    ∀ q t, Runs (servesTruly hurriedOwner) (acquireClusterLock hurriedOwner hurried 92)
      (atEpoch {}) q t → q ≠ .ret (.error .cut) ∧ t.creates ≤ 182 ∧ t.calls ≤ 1183 := by
  have hnow : ∀ b, servesTruly hurriedOwner (atEpoch b) .now (0 : Int) (atEpoch b) :=
    fun b => ⟨⟨le_refl _, rfl, rfl⟩, trivial⟩
  have hrun := (acquire_terminates hurriedOwner hurried 92 (atEpoch {}) rfl (by decide)).1
  refine ⟨.call (hnow _) (.call (hnow _) (.call (hnow _) ?_)), fun q t h => ?_⟩
  · have hsend : ∀ r, servesTruly hurriedOwner (atEpoch {}) (.send r) (0 : Nat)
        (atEpoch (Books.send {} r)) := fun r => ⟨⟨le_refl _, rfl, trivial⟩, trivial⟩
    have hawait : ∀ b : Books, servesTruly hurriedOwner (atEpoch b) (.await 0) Reply.refused
        (atEpoch (b.answer .refused)) := fun b => ⟨⟨le_refl _, rfl, trivial⟩, trivial⟩
    exact .call (hsend _) (.call (hawait _) (.here _ _))
  · obtain ⟨hcut, hcreates, hcalls⟩ := hrun q t h
    exact ⟨hcut, hcreates, hcalls⟩

/-! ## 8. A pool service that makes claims up

Without `Truthful` each round can be made to create and delete at one moment of the clock. -/

/-- A claim of ten seconds under the token of the caller, which the caller never made. -/
def madeUp : Text := encodeLockComment hurriedOwner (10 * second)

theorem decodeLockOwner_madeUp : decodeLockOwner madeUp = some hurriedOwner := by decide

theorem decodeLockExpiry_madeUp : decodeLockExpiry madeUp = some (10 * second) := by decide

theorem carriesClaim_madeUp : carriesClaim madeUp hurriedOwner = true := by decide

/-- The program can end with `x` after so many creates, in no time. -/
def EndsWith {α : Type} (creates : Nat) (p : Call α) (x : α) : Prop :=
  ∀ b : Books, ∃ b' : Books, b'.creates = b.creates + creates ∧
    Runs serves p (atEpoch b) (.ret x) (atEpoch b')

namespace EndsWith

theorem ret {α : Type} (x : α) : EndsWith 0 (.ret x) x :=
  fun b => ⟨b, rfl, .here _ _⟩

theorem bind {α β : Type} {m n : Nat} {p : Call α} {f : α → Call β} {x : α} {y : β}
    (hp : EndsWith m p x) (hf : EndsWith n (f x) y) : EndsWith (m + n) (p >>= f) y := by
  intro b
  obtain ⟨b', hm, hrun⟩ := hp b
  obtain ⟨b'', hn, hrest⟩ := hf b'
  exact ⟨b'', by omega, hrun.bind hrest⟩

/-- A part that creates nothing. -/
theorem idle {α β : Type} {n : Nat} {p : Call α} {f : α → Call β} {x : α} {y : β}
    (hp : EndsWith 0 p x) (hf : EndsWith n (f x) y) : EndsWith n (p >>= f) y := by
  have hboth := hp.bind hf
  rwa [Nat.zero_add] at hboth

theorem now : EndsWith 0 (perform .now) (0 : Int) :=
  fun b => ⟨b, rfl, .call ⟨le_refl _, rfl, rfl⟩ (.here _ _)⟩

theorem request {n : Nat} (r : Request) (reply : Reply)
    (hn : ∀ b : Books, ((b.send r).answer reply).creates = b.creates + n) :
    EndsWith n (request r) reply := by
  intro b
  have hsend : serves (atEpoch b) (.send r) (0 : Nat) (atEpoch (b.send r)) :=
    ⟨le_refl _, rfl, trivial⟩
  have hawait : serves (atEpoch (b.send r)) (.await 0) reply (atEpoch ((b.send r).answer reply)) :=
    ⟨le_refl _, rfl, trivial⟩
  exact ⟨_, hn b, .call hsend (.call hawait (.here _ _))⟩

theorem getPoolComment (bound : Option Int) :
    EndsWith 0 (getPoolComment bound) (some (some madeUp)) :=
  idle (request (.read bound) (.comment (some madeUp)) fun _ => rfl) (ret _)

theorem readLockClaim (a : Acquire) (deadline : Int) :
    EndsWith 0 (readLockClaim a deadline) (some (some madeUp)) :=
  idle now (getPoolComment _)

/-- The claim that was made up is deleted, and the delete is acknowledged. -/
theorem abandonLockCreate : EndsWith 0 (abandonLockCreate hurriedOwner hurried) true := by
  unfold Lock.abandonLockCreate
  refine idle (getPoolComment _) ?_
  simp only [decodeLockOwner_madeUp, decodeLockExpiry_madeUp, ne_eq, not_true_eq_false, if_false]
  refine idle now ?_
  rw [if_pos (by decide)]
  exact idle (request (.delete madeUp .own) .deleted fun _ => rfl) (ret _)

/-- It is confirmed, and refused for being short. -/
theorem confirmLockCreate (deadline : Int) (rounds : Nat) :
    EndsWith 0 (confirmLockCreate hurriedOwner hurried (10 * second) deadline (rounds + 1))
      (.error (.short (.claimTooShort (10 * second) (20 * second)) true)) := by
  have hclaim : EndsWith 0 (sentinelClaim hurriedOwner hurried deadline) (some (madeUp, true)) := by
    unfold sentinelClaim
    refine idle (readLockClaim hurried deadline) ?_
    simp only [carriesClaim_madeUp]
    exact ret _
  have hread : EndsWith 0 (confirmRead hurriedOwner hurried deadline (rounds + 1))
      (.ok (madeUp, true)) := by
    rw [confirmRead]
    exact idle hclaim (ret _)
  unfold Lock.confirmLockCreate
  refine idle hread ?_
  dsimp only
  rw [if_neg (by decide), handOut]
  refine idle now ?_
  rw [if_neg (by decide)]
  exact idle now (idle abandonLockCreate (ret _))

/-- **A round that creates and deletes, and takes no time.** -/
theorem acquireRound (rounds : Nat) :
    EndsWith 1 (acquireRound hurriedOwner hurried (30 * second) false (rounds + 1)) .retaken := by
  have hsteal : EndsWith 0 (tryStealExpired hurriedOwner hurried (30 * second) (rounds + 1))
      (.error (.short (.claimTooShort (10 * second) (20 * second)) true)) := by
    have hlive : (some (10 * second)).filter (fun exp => decide ((0 : Int) < exp)) =
        some (10 * second) := by decide
    unfold tryStealExpired
    refine idle (readLockClaim hurried (30 * second)) ?_
    refine idle now ?_
    simp only [decodeLockExpiry_madeUp, hlive, decodeLockOwner_madeUp, if_true]
    refine idle now ?_
    rw [if_pos (by decide)]
    exact confirmLockCreate _ _
  have hretake : EndsWith 0 (afterConfirm hurried (30 * second)
      (.error (.short (.claimTooShort (10 * second) (20 * second)) true))) .again := by
    have hshort : EndsWith 0 (retakeShortClaim hurried (30 * second)
        (.short (.claimTooShort (10 * second) (20 * second)) true)) none := by
      unfold retakeShortClaim
      refine idle now ?_
      dsimp only
      rw [if_pos (by decide)]
      exact ret _
    exact idle hshort (ret _)
  have hcreate : EndsWith 1 (Lock.request (.create (encodeLockComment hurriedOwner
      (claimExpiry 0 hurried.ttl)))) .duplicate := request _ _ fun _ => rfl
  unfold Lock.acquireRound
  refine idle now ?_
  refine bind hcreate (n := 0) ?_
  unfold stealOrWaitRound
  exact idle hsteal (idle hretake (ret _))

/-- The rounds can be as many as one likes. -/
theorem rounds (n : Nat) : ∃ b : Books, b.creates = n ∧
    Rounds serves hurriedOwner hurried (30 * second) false (n + 1) (atEpoch {})
      (List.replicate n 0) 1 (atEpoch b) := by
  have hall : ∀ m ≤ n, ∃ b : Books, b.creates = m ∧
      Rounds serves hurriedOwner hurried (30 * second) false (n + 1) (atEpoch {})
        (List.replicate m 0) (n + 1 - m) (atEpoch b) := by
    intro m
    induction m with
    | zero => exact fun _ => ⟨{}, rfl, .start⟩
    | succ m ih =>
      intro hm
      obtain ⟨b, hcreates, hrounds⟩ := ih (by omega)
      obtain ⟨b', hcreates', hround⟩ := acquireRound (n - m - 1) b
      have hleft : n + 1 - m = n + 1 - (m + 1) + 1 := by omega
      have hfuel : n + 1 - (m + 1) = n - m - 1 + 1 := by omega
      rw [hleft] at hrounds
      rw [← hfuel] at hround
      refine ⟨b', by omega, ?_⟩
      rw [List.replicate_succ']
      exact hrounds.retaken hround
  have hlast := hall n (le_refl n)
  rwa [Nat.add_sub_cancel_left] at hlast

end EndsWith

/-- **Nothing bounds the creates of an acquire when the pool service makes claims up**, and two
retakes may be at the same moment. -/
theorem acquire_goes_round_for_ever :
    (¬ ∃ bound, ∀ rounds q t,
      Runs serves (acquireClusterLock hurriedOwner hurried rounds) (atEpoch {}) q t →
      t.creates ≤ bound) ∧
    ¬ ∀ rounds moments left t,
      Rounds serves hurriedOwner hurried
      (clusterLockDeadline hurried.requestDeadline 0 hurried.timeout).1
        false rounds (atEpoch {}) moments left t →
      moments.Pairwise fun x y => x + hurried.settings.claimAttemptDuration ≤ y := by
  constructor
  · rintro ⟨bound, hbound⟩
    obtain ⟨b, hcreates, hrounds⟩ := EndsWith.rounds (bound + 1)
    have hstart : Runs serves (acquireClusterLock hurriedOwner hurried (bound + 1 + 1)) (atEpoch {})
        (acquireLoop hurriedOwner hurried (30 * second) false (bound + 1 + 1)) (atEpoch {}) :=
      .call ⟨le_refl _, rfl, rfl⟩ (.call ⟨le_refl _, rfl, rfl⟩ (.here _ _))
    have hle : b.creates ≤ bound := hbound _ _ _ (hstart.trans hrounds.runs)
    omega
  · intro hapart
    obtain ⟨b, -, hrounds⟩ := EndsWith.rounds 2
    exact absurd (hapart _ _ _ _ hrounds) (by decide)

end Lock
