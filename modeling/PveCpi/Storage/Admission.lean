/-
# What the ledger guarantees

The loop of `Candidate` in closed form (`countEntries_iff`), and from it the two contracts of the
ledger: nothing is over-committed along any sequence of calls, and nothing is released early.

The loop stops at the first error, combines limits in the order of the map, and adds words that
could wrap.  `Counted` is the same without an order: every entry that counts is current, the limits
are the strictest of all, the bytes are a sum over the naturals that fits a word.  From there on no
proof mentions the loop.

`Within` is the invariant that admission serves: on every capacity and every domain that holds a
charge, the charges and the bytes of siblings are together at most what the strictest of THEIR
limits leaves.  A new charge may bring stricter limits than those under which the others were
admitted; `Candidate` asks under the combined limits, so the others are checked again with it.
-/
import PveCpi.Storage.Ledger

namespace Storage

open Lib.Check
open Lib.Bits (addOr addOr_eq_ok exists_toNat)
open Journal (Time)

/-! ## 1. The loop in closed form

By induction over the entries, with the sums so far in the accumulator. -/

/-- What a record adds to the outstanding bytes: nothing once it is reflected. -/
def ChargeRecord.counted (r : ChargeRecord) : Nat := if r.reflected then 0 else r.charge.bytes.toNat

/-- The outstanding bytes of the records that satisfy `p`. -/
def tally (p : ChargeRecord → Bool) (rs : List ChargeRecord) : Nat :=
  ((rs.filter p).map ChargeRecord.counted).sum

/-- The strictest limits of the records that satisfy `p`. -/
def boundBy (p : ChargeRecord → Bool) (rs : List ChargeRecord) : Limits :=
  strictest ((rs.filter p).map fun r => r.charge.limits)

/-- On a capacity. -/
def onKey (key : String) (r : ChargeRecord) : Bool := decide (r.capacityKey = key)

/-- In a declared domain. -/
def onDomain (domainKey : String) (r : ChargeRecord) : Bool :=
  decide (domainKey ≠ "" ∧ r.domainKey = domainKey)

/-- What `Candidate` demands of each entry before it counts it. -/
structure Current (s : Snapshot) (e : LedgerEntry) : Prop where
  target : sameChargeTarget s e.record = .ok ()
  reflected : e.record.reflected = true → reflectedIn s e s.observedAt = true

/-- `b'` is `b` with the entries `es` counted. -/
structure Counted (s : Snapshot) (key domainKey : String) (es : List LedgerEntry)
    (b b' : Budgets) : Prop where
  current : ∀ e ∈ es, Current s e
  valid : ∀ e ∈ es, (onKey key e.record || onDomain domainKey e.record) = true →
    e.record.charge.limits.Valid
  memberLimits : b'.memberLimits = b.memberLimits.meet (boundBy (onKey key) (es.map (·.record)))
  memberOutstanding : b'.memberOutstanding.toNat =
    b.memberOutstanding.toNat + tally (onKey key) (es.map (·.record))
  domainLimits : b'.domainLimits =
    b.domainLimits.meet (boundBy (onDomain domainKey) (es.map (·.record)))
  domainOutstanding : b'.domainOutstanding.toNat =
    b.domainOutstanding.toNat + tally (onDomain domainKey) (es.map (·.record))

/-- One charge is added to a budget: its limits are met with the ones so far, and its bytes are
added as natural numbers, since an overflow is an error. -/
theorem includeChargeBudget_eq_ok {limits : Limits} {outstanding : UInt64} {r : ChargeRecord}
    {x : Limits × UInt64} : includeChargeBudget limits outstanding r = .ok x ↔
      (limits.Valid ∧ r.charge.limits.Valid) ∧ x.1 = limits.meet r.charge.limits ∧
        x.2.toNat = outstanding.toNat + r.counted := by
  unfold includeChargeBudget ChargeRecord.counted
  rw [bind_eq_ok]
  constructor
  · rintro ⟨combined, hc, h⟩
    rw [mapError_eq_ok, combineLimits_two] at hc
    obtain ⟨hvalid, rfl⟩ := hc
    split_ifs at h ⊢ with hr
    · rw [pure_eq_ok] at h
      subst h
      exact ⟨hvalid, rfl, rfl⟩
    · rw [bind_eq_ok] at h
      obtain ⟨total, ht, h⟩ := h
      rw [pure_eq_ok] at h
      subst h
      exact ⟨hvalid, rfl, addOr_eq_ok.mp ht⟩
  · rintro ⟨hvalid, h1, h2⟩
    refine ⟨limits.meet r.charge.limits, ?_, ?_⟩
    · rw [mapError_eq_ok, combineLimits_two]
      exact ⟨hvalid, rfl⟩
    · split_ifs at h2 ⊢ with hr
      · rw [pure_eq_ok]
        exact Prod.ext h1.symm (UInt64.toNat_inj.mp h2.symm)
      · rw [bind_eq_ok]
        exact ⟨x.2, addOr_eq_ok.mpr h2, by rw [pure_eq_ok, ← h1]⟩

/-- Combine a limit that counts. -/
def Limits.meetWhen (counts : Bool) (a b : Limits) : Limits := if counts then a.meet b else a

theorem Limits.Valid.meetWhen {counts : Bool} {a b : Limits} (ha : a.Valid)
    (hb : counts = true → b.Valid) : (a.meetWhen counts b).Valid := by
  unfold Limits.meetWhen
  split_ifs with h
  · exact ha.meet (hb h)
  · exact ha

/-- A record on another capacity adds nothing. -/
theorem countOn_eq_ok {counts : Bool} {limits : Limits} {outstanding : UInt64} {r : ChargeRecord}
    {x : Limits × UInt64} (hl : limits.Valid) : countOn counts limits outstanding r = .ok x ↔
      (counts = true → r.charge.limits.Valid) ∧
      x.1 = limits.meetWhen counts r.charge.limits ∧
      x.2.toNat = outstanding.toNat + (if counts then r.counted else 0) := by
  unfold countOn Limits.meetWhen
  cases counts with
  | false =>
    rw [if_neg Bool.false_ne_true, pure_eq_ok]
    simp only [Bool.false_eq_true, false_imp_iff, if_false, true_and, Nat.add_zero]
    constructor
    · rintro rfl
      exact ⟨rfl, rfl⟩
    · rintro ⟨h1, h2⟩
      exact Prod.ext h1.symm (UInt64.toNat_inj.mp h2.symm)
  | true =>
    rw [if_pos rfl, includeChargeBudget_eq_ok]
    simp [hl]

theorem boundBy_cons (p : ChargeRecord → Bool) (r : ChargeRecord) (rs : List ChargeRecord) :
    boundBy p (r :: rs) = (boundBy p rs).meetWhen (p r) r.charge.limits := by
  unfold boundBy Limits.meetWhen
  rw [List.filter_cons]
  split_ifs
  · rw [List.map_cons, strictest_cons, Limits.meet_comm]
  · rfl

/-- Counting a record first or last is the same. -/
theorem meet_boundBy_cons (p : ChargeRecord → Bool) (a : Limits) (r : ChargeRecord)
    (rs : List ChargeRecord) :
    a.meet (boundBy p (r :: rs)) = (a.meetWhen (p r) r.charge.limits).meet (boundBy p rs) := by
  rw [boundBy_cons]
  unfold Limits.meetWhen
  split_ifs
  · rw [Limits.meet_comm (boundBy p rs), Limits.meet_assoc]
  · rfl

theorem tally_cons (p : ChargeRecord → Bool) (r : ChargeRecord) (rs : List ChargeRecord) :
    tally p (r :: rs) = (if p r then r.counted else 0) + tally p rs := by
  unfold tally
  rw [List.filter_cons]
  split_ifs
  · rw [List.map_cons, List.sum_cons]
  · rw [Nat.zero_add]

theorem tally_perm {p : ChargeRecord → Bool} {rs rs' : List ChargeRecord} (h : rs.Perm rs') :
    tally p rs = tally p rs' :=
  ((h.filter p).map _).sum_eq

theorem boundBy_perm {p : ChargeRecord → Bool} {rs rs' : List ChargeRecord} (h : rs.Perm rs') :
    boundBy p rs = boundBy p rs' :=
  strictest_perm ((h.filter p).map _)

/-- One entry of the ledger: it must belong to the current snapshot, and it counts for the member
when it is on the key, and for the domain when it is in it. -/
theorem countEntry_eq_ok {s : Snapshot} {key domainKey : String} {e : LedgerEntry} {b b' : Budgets}
    (hm : b.memberLimits.Valid) (hd : b.domainLimits.Valid) :
    countEntry s key domainKey b e = .ok b' ↔ Current s e ∧
      ((onKey key e.record || onDomain domainKey e.record) = true →
        e.record.charge.limits.Valid) ∧
      b'.memberLimits = b.memberLimits.meetWhen (onKey key e.record) e.record.charge.limits ∧
      b'.memberOutstanding.toNat = b.memberOutstanding.toNat +
        (if onKey key e.record then e.record.counted else 0) ∧
      b'.domainLimits =
        b.domainLimits.meetWhen (onDomain domainKey e.record) e.record.charge.limits ∧
      b'.domainOutstanding.toNat = b.domainOutstanding.toNat +
        (if onDomain domainKey e.record then e.record.counted else 0) := by
  unfold countEntry
  simp only [check_bind_eq_ok, refuse_eq_ok, Bool.and_eq_false_iff, Bool.not_eq_false']
  constructor
  · rintro ⟨htarget, hreflected, h⟩
    rw [bind_eq_ok] at h
    obtain ⟨m, hmember, h⟩ := h
    rw [bind_eq_ok] at h
    obtain ⟨d, hdomain, h⟩ := h
    rw [pure_eq_ok] at h
    subst h
    obtain ⟨hv1, hl1, ho1⟩ := (countOn_eq_ok hm).mp hmember
    obtain ⟨hv2, hl2, ho2⟩ := (countOn_eq_ok hd).mp hdomain
    refine ⟨⟨htarget, ?_⟩, ?_, hl1, ho1, hl2, ho2⟩
    · intro hr
      rcases hreflected with hfalse | hin
      · rw [hr] at hfalse
        cases hfalse
      · exact hin
    · intro hon
      rcases Bool.or_eq_true_iff.mp hon with hon | hon
      · exact hv1 hon
      · exact hv2 hon
  · rintro ⟨⟨htarget, hreflected⟩, hvalid, hl1, ho1, hl2, ho2⟩
    refine ⟨htarget, ?_, ?_⟩
    · cases hr : e.record.reflected with
      | false => exact Or.inl rfl
      | true => exact Or.inr (hreflected hr)
    · rw [bind_eq_ok]
      refine ⟨(b'.memberLimits, b'.memberOutstanding), (countOn_eq_ok hm).mpr ⟨?_, hl1, ho1⟩, ?_⟩
      · intro hon
        exact hvalid (Bool.or_eq_true_iff.mpr (Or.inl hon))
      · rw [bind_eq_ok]
        refine ⟨(b'.domainLimits, b'.domainOutstanding), (countOn_eq_ok hd).mpr ⟨?_, hl2, ho2⟩, ?_⟩
        · intro hon
          exact hvalid (Bool.or_eq_true_iff.mpr (Or.inr hon))
        · rfl

/-- Counting nothing changes nothing: the strictest of no limits does not bind. -/
theorem Counted.nil_iff {s : Snapshot} {key domainKey : String} {b b' : Budgets} :
    Counted s key domainKey [] b b' ↔ b = b' := by
  have hnone (p : ChargeRecord → Bool) (l : Limits) : l.meet (boundBy p []) = l := by
    rw [show boundBy p [] = {} from rfl, Limits.meet_comm, Limits.zero_meet]
  constructor
  · intro h
    have h1 := h.memberLimits.trans (hnone _ _)
    have h2 := UInt64.toNat_inj.mp h.memberOutstanding
    have h3 := h.domainLimits.trans (hnone _ _)
    have h4 := UInt64.toNat_inj.mp h.domainOutstanding
    cases b
    cases b'
    simp only [Budgets.mk.injEq]
    exact ⟨h1.symm, h2.symm, h3.symm, h4.symm⟩
  · rintro rfl
    exact ⟨fun e he => absurd he List.not_mem_nil, fun e he => absurd he List.not_mem_nil,
      (hnone _ _).symm, rfl, (hnone _ _).symm, rfl⟩

/-- **The loop of `Candidate`**, in closed form.  Success means that every entry that counts is
current and that the sums fit; then the limits are the strictest and the bytes the sum. -/
theorem countEntries_iff {s : Snapshot} {key domainKey : String} {es : List LedgerEntry}
    {b b' : Budgets} (hm : b.memberLimits.Valid) (hd : b.domainLimits.Valid) :
    es.foldlM (countEntry s key domainKey) b = .ok b' ↔ Counted s key domainKey es b b' := by
  induction es generalizing b with
  | nil => rw [List.foldlM_nil, pure_eq_ok, Counted.nil_iff]
  | cons e es ih =>
    rw [List.foldlM_cons, bind_eq_ok]
    constructor
    · rintro ⟨c, hc, h⟩
      obtain ⟨hcur, hvalid, hl1, ho1, hl2, ho2⟩ := (countEntry_eq_ok hm hd).mp hc
      have hcm : c.memberLimits.Valid := by
        rw [hl1]
        exact hm.meetWhen fun hon => hvalid (by rw [hon, Bool.true_or])
      have hcd : c.domainLimits.Valid := by
        rw [hl2]
        exact hd.meetWhen fun hon => hvalid (by rw [hon, Bool.or_true])
      have hrest := (ih hcm hcd).mp h
      refine ⟨?_, ?_, ?_, ?_, ?_, ?_⟩
      · exact List.forall_mem_cons.mpr ⟨hcur, hrest.current⟩
      · exact List.forall_mem_cons.mpr ⟨hvalid, hrest.valid⟩
      · rw [hrest.memberLimits, hl1, List.map_cons, meet_boundBy_cons]
      · rw [hrest.memberOutstanding, ho1, List.map_cons, tally_cons, Nat.add_assoc]
      · rw [hrest.domainLimits, hl2, List.map_cons, meet_boundBy_cons]
      · rw [hrest.domainOutstanding, ho2, List.map_cons, tally_cons, Nat.add_assoc]
    · intro h
      have hcur := List.forall_mem_cons.mp h.current
      have hvalid := List.forall_mem_cons.mp h.valid
      have hl1 := h.memberLimits
      have ho1 := h.memberOutstanding
      have hl2 := h.domainLimits
      have ho2 := h.domainOutstanding
      rw [List.map_cons, meet_boundBy_cons] at hl1 hl2
      rw [List.map_cons, tally_cons, ← Nat.add_assoc] at ho1 ho2
      have hb1 := b'.memberOutstanding.toNat_lt
      have hb2 := b'.domainOutstanding.toNat_lt
      -- The partial sums are words, since the whole sums are.
      obtain ⟨u1, hu1⟩ := exists_toNat (n := b.memberOutstanding.toNat +
        if onKey key e.record then e.record.counted else 0) (by omega)
      obtain ⟨u2, hu2⟩ := exists_toNat (n := b.domainOutstanding.toNat +
        if onDomain domainKey e.record then e.record.counted else 0) (by omega)
      refine ⟨⟨_, u1, _, u2⟩, (countEntry_eq_ok hm hd).mpr
        ⟨hcur.1, hvalid.1, rfl, hu1, rfl, hu2⟩, (ih ?_ ?_).mpr ⟨hcur.2, hvalid.2, hl1, ?_, hl2, ?_⟩⟩
      · exact hm.meetWhen fun hon => hvalid.1 (by rw [hon, Bool.true_or])
      · exact hd.meetWhen fun hon => hvalid.1 (by rw [hon, Bool.or_true])
      · rw [ho1, ← hu1]
      · rw [ho2, ← hu2]

/-! ## 2. The candidate in closed form -/

/-- What `Candidate` adds up. -/
structure Summed (l : Ledger) (s : Snapshot) (key domainKey : String) (limit : Limits)
    (sums : Budgets) : Prop where
  asked : limit.Valid
  current : ∀ e ∈ l.entries.entries, Current s e.2
  valid : ∀ r ∈ l.held, (onKey key r || onDomain domainKey r) = true → r.charge.limits.Valid
  memberLimits : sums.memberLimits = limit.meet (boundBy (onKey key) l.held)
  memberOutstanding : sums.memberOutstanding.toNat =
    tally (onKey key) l.held + (bytesAt l.siblingMember key).toNat
  domainLimits : sums.domainLimits = limit.meet (boundBy (onDomain domainKey) l.held)
  domainOutstanding : sums.domainOutstanding.toNat = tally (onDomain domainKey) l.held +
    if domainKey = "" then 0 else (bytesAt l.siblingDomain domainKey).toNat

/-- The budgets in closed form: limits met and bytes summed over the charges on the key and in the
domain. -/
theorem budgets_iff {l : Ledger} {s : Snapshot} {id key domainKey : String} {limit : Limits}
    {sums : Budgets} :
    l.budgets s id key domainKey limit = .ok sums ↔ Summed l s key domainKey limit sums := by
  have hheld : (l.entries.entries.map fun e => e.2).map (fun e => e.record) = l.held :=
    List.map_map
  unfold Ledger.budgets
  rw [bind_eq_ok]
  constructor
  · rintro ⟨limits, hlimits, h⟩
    rw [mapError_eq_ok, combineLimits_one] at hlimits
    obtain ⟨hvalid, rfl⟩ := hlimits
    rw [bind_eq_ok] at h
    obtain ⟨b, hb, h⟩ := h
    have hc := (countEntries_iff hvalid hvalid).mp hb
    rw [bind_eq_ok] at h
    obtain ⟨member, hmember, h⟩ := h
    rw [bind_eq_ok] at h
    obtain ⟨domain, hdomain, h⟩ := h
    rw [pure_eq_ok] at h
    subst h
    rw [addOr_eq_ok] at hmember
    refine ⟨hvalid, ?_, ?_, ?_, ?_, ?_, ?_⟩
    · intro e he
      exact hc.current e.2 (List.mem_map_of_mem he)
    · intro r hr
      obtain ⟨e, he, rfl⟩ := List.mem_map.mp hr
      exact hc.valid e.2 (List.mem_map_of_mem he)
    · rw [hc.memberLimits, hheld]
    · dsimp only
      rw [hmember, hc.memberOutstanding, hheld]
      simp
    · rw [hc.domainLimits, hheld]
    · have hsum := hc.domainOutstanding
      rw [hheld] at hsum
      dsimp only
      split_ifs at hdomain ⊢ with hd
      · rw [pure_eq_ok] at hdomain
        rw [← hdomain, hsum]
        simp
      · rw [addOr_eq_ok] at hdomain
        rw [hdomain, hsum]
        simp
  · intro h
    have h1 := sums.memberOutstanding.toNat_lt
    have h2 := sums.domainOutstanding.toNat_lt
    have hm := h.memberOutstanding
    have hd := h.domainOutstanding
    obtain ⟨u1, hu1⟩ := exists_toNat (n := tally (onKey key) l.held) (by omega)
    obtain ⟨u2, hu2⟩ := exists_toNat (n := tally (onDomain domainKey) l.held) (by omega)
    refine ⟨limit, by rw [mapError_eq_ok, combineLimits_one]; exact ⟨h.asked, rfl⟩, ?_⟩
    rw [bind_eq_ok]
    refine ⟨⟨sums.memberLimits, u1, sums.domainLimits, u2⟩,
      (countEntries_iff h.asked h.asked).mpr ⟨?_, ?_, ?_, ?_, ?_, ?_⟩, ?_⟩
    · intro e he
      obtain ⟨x, hx, rfl⟩ := List.mem_map.mp he
      exact h.current x hx
    · intro e he
      obtain ⟨x, hx, rfl⟩ := List.mem_map.mp he
      exact h.valid _ (List.mem_map_of_mem hx)
    · rw [hheld]
      exact h.memberLimits
    · rw [hheld, hu1]
      simp
    · rw [hheld]
      exact h.domainLimits
    · rw [hheld, hu2]
      simp
    · rw [bind_eq_ok]
      refine ⟨sums.memberOutstanding, by rw [addOr_eq_ok, hu1]; exact hm, ?_⟩
      rw [bind_eq_ok]
      refine ⟨sums.domainOutstanding, ?_, rfl⟩
      split_ifs at hd ⊢ with hblank
      · rw [pure_eq_ok]
        exact UInt64.toNat_inj.mp (hu2.trans (hd.trans (Nat.add_zero _)).symm)
      · rw [addOr_eq_ok, hu2]
        exact hd

/-- The budget of a member. -/
def memberBudget (b : Backing) (sums : Budgets) (allocationBytes : UInt64) : CapacityBudget :=
  { totalBytes := b.totalBytes, availableBytes := b.availableBytes,
    reserveBytes := sums.memberLimits.reserveBytes,
    maxUtilizationPct := sums.memberLimits.maxUtilizationPct,
    outstandingBytes := sums.memberOutstanding, allocationBytes := allocationBytes }

/-- A candidate was built. -/
structure Built (l : Ledger) (s : Snapshot) (node id : String) (bytes : UInt64) (limit : Limits)
    (c : EligibleCandidate) (p : Pair) (b : Backing) (sums : Budgets) : Prop where
  unretained : l.hasRetained = false
  pair : s.pair node id = some p
  usable : p.reason = ""
  backing : s.backing p.capacityKey = some b
  summed : Summed l s p.capacityKey (s.domainForStorage id) limit sums
  member : ∃ x, projectBudget (memberBudget b sums bytes) = .ok x
  domain : domainBudget s (s.domainForStorage id) sums bytes = .ok c.domain
  storageID_eq : c.storageID = id
  backingKey_eq : c.backingKey = p.capacityKey
  domainKey_eq : c.domainKey = s.domainForStorage id
  member_eq : c.member = memberBudget b sums bytes

/-- When a backing is a candidate, with all that was looked up for it. -/
theorem candidate_iff {l : Ledger} {s : Snapshot} {node id : String} {bytes : UInt64}
    {limit : Limits} {c : EligibleCandidate} :
    l.candidate s node id bytes limit = .ok c ↔
      ∃ p b sums, Built l s node id bytes limit c p b sums := by
  unfold Ledger.candidate
  rw [check_bind_eq_ok, check_bind_eq_ok, refuse_eq_ok, refuse_eq_ok, Bool.or_eq_false_iff,
    decide_eq_false_iff_not, not_not]
  constructor
  · rintro ⟨hret, ⟨hpair, hreason⟩, h⟩
    obtain ⟨p, hp⟩ : ∃ p, s.pair node id = some p := by
      cases hp : s.pair node id with
      | none => rw [hp] at hpair; cases hpair
      | some p => exact ⟨p, rfl⟩
    rw [hp, Option.getD_some] at hreason h
    cases hb : s.backing p.capacityKey with
    | none => rw [hb] at h; cases h
    | some b =>
      rw [hb] at h
      dsimp only at h
      rw [bind_eq_ok] at h
      obtain ⟨sums, hsums, h⟩ := h
      rw [bind_eq_ok] at h
      obtain ⟨x, hx, h⟩ := h
      rw [bind_eq_ok] at h
      obtain ⟨d, hd, h⟩ := h
      rw [pure_eq_ok] at h
      subst h
      exact ⟨p, b, sums, hret, hp, hreason, hb, budgets_iff.mp hsums,
        ⟨x, mapError_eq_ok.mp hx⟩, hd, rfl, rfl, rfl, rfl⟩
  · rintro ⟨p, b, sums, h⟩
    obtain ⟨x, hx⟩ := h.member
    refine ⟨h.unretained, ⟨by rw [h.pair]; rfl, by rw [h.pair]; exact h.usable⟩, ?_⟩
    rw [h.pair, Option.getD_some, h.backing]
    dsimp only
    rw [bind_eq_ok]
    refine ⟨sums, budgets_iff.mpr h.summed, ?_⟩
    rw [bind_eq_ok]
    refine ⟨x, mapError_eq_ok.mpr hx, ?_⟩
    rw [bind_eq_ok]
    refine ⟨c.domain, h.domain, ?_⟩
    rw [pure_eq_ok]
    have h1 := h.storageID_eq
    have h2 := h.backingKey_eq
    have h3 := h.domainKey_eq
    have h4 := h.member_eq
    cases c
    simp only [EligibleCandidate.mk.injEq] at *
    exact ⟨h1.symm, h2.symm, h3.symm, h4.symm, trivial⟩

/-! ## 3. The order of the map

Go iterates over the entries in any order.  An error may be another one, a success is the same. -/

/-- The same ledger, iterated in another order. -/
structure Reordered (l l' : Ledger) : Prop where
  entries : l.entries.entries.Perm l'.entries.entries
  siblingMember : l'.siblingMember = l.siblingMember
  siblingDomain : l'.siblingDomain = l.siblingDomain

namespace Reordered

variable {l l' : Ledger}

theorem symm (h : Reordered l l') : Reordered l' l :=
  ⟨h.entries.symm, h.siblingMember.symm, h.siblingDomain.symm⟩

theorem held (h : Reordered l l') : l.held.Perm l'.held := h.entries.map _

theorem hasRetained (h : Reordered l l') : l'.hasRetained = l.hasRetained := by
  unfold Ledger.hasRetained
  rw [Bool.eq_iff_iff, List.any_eq_true, List.any_eq_true]
  constructor
  · rintro ⟨r, hr, hret⟩
    exact ⟨r, h.held.mem_iff.mpr hr, hret⟩
  · rintro ⟨r, hr, hret⟩
    exact ⟨r, h.held.mem_iff.mp hr, hret⟩

theorem summed (h : Reordered l l') {s : Snapshot} {key domainKey : String} {limit : Limits}
    {sums : Budgets} (hs : Summed l s key domainKey limit sums) :
    Summed l' s key domainKey limit sums where
  asked := hs.asked
  current e he := hs.current e (h.entries.mem_iff.mpr he)
  valid r hr := hs.valid r (h.held.mem_iff.mpr hr)
  memberLimits := by rw [hs.memberLimits, boundBy_perm h.held]
  memberOutstanding := by rw [hs.memberOutstanding, tally_perm h.held, h.siblingMember]
  domainLimits := by rw [hs.domainLimits, boundBy_perm h.held]
  domainOutstanding := by rw [hs.domainOutstanding, tally_perm h.held, h.siblingDomain]

/-- Whether `Candidate` succeeds, and with which value, does not depend on the order. -/
theorem candidate_ok (h : Reordered l l') {s : Snapshot} {node id : String} {bytes : UInt64}
    {limit : Limits} {c : EligibleCandidate} (hc : l.candidate s node id bytes limit = .ok c) :
    l'.candidate s node id bytes limit = .ok c := by
  obtain ⟨p, b, sums, hb⟩ := candidate_iff.mp hc
  exact candidate_iff.mpr ⟨p, b, sums, { hb with
    unretained := h.hasRetained.trans hb.unretained
    summed := h.summed hb.summed }⟩

end Reordered

/-! ## 4. Charges within their capacity

`Fits` is about one capacity, `Within` about all of them.  Removing a charge, and replacing one by a
charge of the same size, keep both. -/

/-- The bytes of the charges that satisfy `p`. -/
def charged (p : ChargeRecord → Bool) (rs : List ChargeRecord) : Nat :=
  ((rs.filter p).map fun r => r.charge.bytes.toNat).sum

theorem charged_perm {p : ChargeRecord → Bool} {rs rs' : List ChargeRecord} (h : rs.Perm rs') :
    charged p rs = charged p rs' :=
  ((h.filter p).map _).sum_eq

theorem charged_cons (p : ChargeRecord → Bool) (r : ChargeRecord) (rs : List ChargeRecord) :
    charged p (r :: rs) = (if p r then r.charge.bytes.toNat else 0) + charged p rs := by
  unfold charged
  rw [List.filter_cons]
  split_ifs
  · rw [List.map_cons, List.sum_cons]
  · rw [Nat.zero_add]

/-- Without a reflected charge, everything that is charged is outstanding. -/
theorem tally_eq_charged {p : ChargeRecord → Bool} {rs : List ChargeRecord}
    (h : ∀ r ∈ rs, r.reflected = false) : tally p rs = charged p rs := by
  unfold tally charged
  congr 1
  apply List.map_congr_left
  intro r hr
  unfold ChargeRecord.counted
  rw [h r (List.mem_of_mem_filter hr)]
  rfl

/-- What the charges that satisfy `p` take of a capacity, with the bytes of the siblings, fits
under the strictest of their limits. -/
def Fits (total available : UInt64) (siblings : UInt64) (p : ChargeRecord → Bool)
    (rs : List ChargeRecord) : Prop :=
  charged p rs + siblings.toNat ≤ usableBytes total available (boundBy p rs)

theorem Fits.perm {total available siblings : UInt64} {p : ChargeRecord → Bool}
    {rs rs' : List ChargeRecord} (hp : rs.Perm rs') (h : Fits total available siblings p rs) :
    Fits total available siblings p rs' := by
  unfold Fits at *
  rw [← charged_perm hp, ← boundBy_perm hp]
  exact h

/-- Fewer charges fit as well. -/
theorem Fits.of_cons {total available siblings : UInt64} {p : ChargeRecord → Bool}
    {r : ChargeRecord} {rs : List ChargeRecord}
    (hvalid : ∀ x ∈ r :: rs, x.charge.limits.Valid)
    (h : Fits total available siblings p (r :: rs)) : Fits total available siblings p rs := by
  unfold Fits at *
  have hle : usableBytes total available (boundBy p (r :: rs)) ≤
      usableBytes total available (boundBy p rs) := by
    apply usableBytes_strictest_le
    · intro a ha
      obtain ⟨x, hx, rfl⟩ := List.mem_map.mp ha
      have hx' : x ∈ (r :: rs).filter p :=
        List.mem_filter.mpr ⟨List.mem_cons_of_mem _ (List.mem_filter.mp hx).1,
          (List.mem_filter.mp hx).2⟩
      exact List.mem_map_of_mem hx'
    · intro a ha
      obtain ⟨x, hx, rfl⟩ := List.mem_map.mp ha
      exact hvalid x (List.mem_filter.mp hx).1
  rw [charged_cons] at h
  omega

theorem Fits.cons_off {total available siblings : UInt64} {p : ChargeRecord → Bool}
    {r : ChargeRecord} {rs : List ChargeRecord} (hp : p r = false)
    (h : Fits total available siblings p rs) : Fits total available siblings p (r :: rs) := by
  unfold Fits at *
  rw [charged_cons, boundBy_cons, hp]
  simpa [Limits.meetWhen] using h

theorem Fits.cons_on {total available siblings : UInt64} {p : ChargeRecord → Bool}
    {r : ChargeRecord} {rs : List ChargeRecord} (hp : p r = true)
    (h : charged p rs + siblings.toNat + r.charge.bytes.toNat ≤
      usableBytes total available (r.charge.limits.meet (boundBy p rs))) :
    Fits total available siblings p (r :: rs) := by
  unfold Fits
  rw [charged_cons, boundBy_cons, hp]
  simp only [if_true, Limits.meetWhen]
  rw [Limits.meet_comm]
  omega

/-- A charge that got further takes what it took. -/
theorem Fits.replace {total available siblings : UInt64} {p : ChargeRecord → Bool}
    {r r' : ChargeRecord} {rs : List ChargeRecord} (hcharge : r'.charge = r.charge)
    (hp : p r' = p r) (h : Fits total available siblings p (r :: rs)) :
    Fits total available siblings p (r' :: rs) := by
  unfold Fits at *
  rw [charged_cons, boundBy_cons, hp, hcharge]
  rwa [charged_cons, boundBy_cons] at h

/-- Every charge of a list stands on the capacity the snapshot gives it, and nothing is
over-committed: the capacity of every charge, and its domain when it has one. -/
structure Within (s : Snapshot) (member domain : Map String UInt64) (rs : List ChargeRecord) :
    Prop where
  target : ∀ r ∈ rs, ∃ p, s.pair r.charge.node r.charge.storageID = some p ∧ p.reason = "" ∧
    r.capacityKey = p.capacityKey ∧ r.domainKey = s.domainForStorage r.charge.storageID
  valid : ∀ r ∈ rs, r.charge.limits.Valid
  backing : ∀ r ∈ rs, ∃ b, s.backing r.capacityKey = some b ∧
    Fits b.totalBytes b.availableBytes (bytesAt member r.capacityKey) (onKey r.capacityKey) rs
  domain : ∀ r ∈ rs, r.domainKey ≠ "" → ∃ d, s.domain r.domainKey = some d ∧ d.reason = "" ∧
    Fits d.totalBytes d.availableBytes (bytesAt domain r.domainKey) (onDomain r.domainKey) rs

namespace Within

variable {s : Snapshot} {member domain : Map String UInt64} {r r' : ChargeRecord}
  {rs rs' : List ChargeRecord}

theorem nil : Within s member domain [] :=
  ⟨fun _ h => absurd h List.not_mem_nil, fun _ h => absurd h List.not_mem_nil,
    fun _ h => absurd h List.not_mem_nil, fun _ h => absurd h List.not_mem_nil⟩

theorem perm (hp : rs.Perm rs') (h : Within s member domain rs) : Within s member domain rs' where
  target r hr := h.target r (hp.mem_iff.mpr hr)
  valid r hr := h.valid r (hp.mem_iff.mpr hr)
  backing r hr := by
    obtain ⟨b, hb, hfit⟩ := h.backing r (hp.mem_iff.mpr hr)
    exact ⟨b, hb, hfit.perm hp⟩
  domain r hr hd := by
    obtain ⟨d, hdom, hok, hfit⟩ := h.domain r (hp.mem_iff.mpr hr) hd
    exact ⟨d, hdom, hok, hfit.perm hp⟩

theorem of_cons (h : Within s member domain (r :: rs)) : Within s member domain rs where
  target x hx := h.target x (List.mem_cons_of_mem _ hx)
  valid x hx := h.valid x (List.mem_cons_of_mem _ hx)
  backing x hx := by
    obtain ⟨b, hb, hfit⟩ := h.backing x (List.mem_cons_of_mem _ hx)
    exact ⟨b, hb, hfit.of_cons h.valid⟩
  domain x hx hd := by
    obtain ⟨d, hdom, hok, hfit⟩ := h.domain x (List.mem_cons_of_mem _ hx) hd
    exact ⟨d, hdom, hok, hfit.of_cons h.valid⟩

/-- What is within the bounds does not depend on the fields of a record that no bound reads. -/
theorem replace (hcharge : r'.charge = r.charge) (hkey : r'.capacityKey = r.capacityKey)
    (hdomain : r'.domainKey = r.domainKey) (h : Within s member domain (r :: rs)) :
    Within s member domain (r' :: rs) := by
  have hon (key : String) : onKey key r' = onKey key r := by rw [onKey, onKey, hkey]
  have hin (key : String) : onDomain key r' = onDomain key r := by
    rw [onDomain, onDomain, hdomain]
  obtain ⟨htarget, htargets⟩ := List.forall_mem_cons.mp h.target
  obtain ⟨hvalid, hvalids⟩ := List.forall_mem_cons.mp h.valid
  obtain ⟨hbacking, hbackings⟩ := List.forall_mem_cons.mp h.backing
  obtain ⟨hdom, hdoms⟩ := List.forall_mem_cons.mp h.domain
  refine ⟨List.forall_mem_cons.mpr ⟨?_, htargets⟩, List.forall_mem_cons.mpr ⟨?_, hvalids⟩,
    List.forall_mem_cons.mpr ⟨?_, ?_⟩, List.forall_mem_cons.mpr ⟨?_, ?_⟩⟩
  · rw [hcharge, hkey, hdomain]
    exact htarget
  · rw [hcharge]
    exact hvalid
  · rw [hkey]
    obtain ⟨b, hb, hfit⟩ := hbacking
    exact ⟨b, hb, hfit.replace hcharge (hon _)⟩
  · intro x hx
    obtain ⟨b, hb, hfit⟩ := hbackings x hx
    exact ⟨b, hb, hfit.replace hcharge (hon _)⟩
  · rw [hdomain]
    intro hd
    obtain ⟨d, hd, hok, hfit⟩ := hdom hd
    exact ⟨d, hd, hok, hfit.replace hcharge (hin _)⟩
  · intro x hx hd
    obtain ⟨d, hd, hok, hfit⟩ := hdoms x hx hd
    exact ⟨d, hd, hok, hfit.replace hcharge (hin _)⟩

end Within

/-- A domain with a key has a budget that is known and that the bytes fit. -/
theorem domainBudget_ok {s : Snapshot} {domainKey : String} {sums : Budgets} {bytes : UInt64}
    {budget : CapacityBudget} (hd : domainKey ≠ "")
    (h : domainBudget s domainKey sums bytes = .ok budget) :
    ∃ d, s.domain domainKey = some d ∧ d.reason = "" ∧
      sums.domainOutstanding.toNat + bytes.toNat ≤
        usableBytes d.totalBytes d.availableBytes sums.domainLimits := by
  unfold domainBudget at h
  rw [if_neg hd] at h
  cases hdom : s.domain domainKey with
  | none => rw [hdom] at h; cases h
  | some d =>
    rw [hdom] at h
    dsimp only at h
    rw [check_bind_eq_ok, refuse_eq_ok, decide_eq_false_iff_not, not_not, bind_eq_ok] at h
    obtain ⟨hreason, x, hx, _⟩ := h
    rw [mapError_eq_ok] at hx
    exact ⟨d, rfl, hreason, projectBudget_fits hx⟩

/-- **Admission.**  A charge for which `Candidate` succeeds joins the others within capacity.  On
its own capacity and domain this is what `projectBudget` has checked, under the limits of all; every
other capacity holds what it held. -/
theorem Within.admitted {l : Ledger} {s : Snapshot} {charge : Charge} {c : EligibleCandidate}
    (h : Within s l.siblingMember l.siblingDomain l.held)
    (hfresh : ∀ r ∈ l.held, r.reflected = false)
    (hc : l.candidate s charge.node charge.storageID charge.bytes charge.limits = .ok c) :
    Within s l.siblingMember l.siblingDomain
      ({ charge := charge, capacityKey := c.backingKey, domainKey := c.domainKey } :: l.held) := by
  obtain ⟨p, b, sums, hb⟩ := candidate_iff.mp hc
  rw [hb.backingKey_eq, hb.domainKey_eq]
  obtain ⟨x, hx⟩ := hb.member
  have hmember : charged (onKey p.capacityKey) l.held +
      (bytesAt l.siblingMember p.capacityKey).toNat + charge.bytes.toNat ≤
      usableBytes b.totalBytes b.availableBytes
        (charge.limits.meet (boundBy (onKey p.capacityKey) l.held)) := by
    have hfit := projectBudget_fits hx
    rw [← tally_eq_charged hfresh, ← hb.summed.memberOutstanding, ← hb.summed.memberLimits]
    exact hfit
  have hdomain (hd : s.domainForStorage charge.storageID ≠ "") :
      ∃ d, s.domain (s.domainForStorage charge.storageID) = some d ∧ d.reason = "" ∧
        charged (onDomain (s.domainForStorage charge.storageID)) l.held +
          (bytesAt l.siblingDomain (s.domainForStorage charge.storageID)).toNat +
          charge.bytes.toNat ≤ usableBytes d.totalBytes d.availableBytes (charge.limits.meet
            (boundBy (onDomain (s.domainForStorage charge.storageID)) l.held)) := by
    obtain ⟨d, hdom, hok, hfit⟩ := domainBudget_ok hd hb.domain
    refine ⟨d, hdom, hok, ?_⟩
    have hsum := hb.summed.domainOutstanding
    rw [if_neg hd, tally_eq_charged hfresh] at hsum
    rw [← hsum, ← hb.summed.domainLimits]
    exact hfit
  refine ⟨List.forall_mem_cons.mpr ⟨⟨p, hb.pair, hb.usable, rfl, rfl⟩, h.target⟩,
    List.forall_mem_cons.mpr ⟨hb.summed.asked, h.valid⟩, ?_, ?_⟩
  · intro r hr
    by_cases hkey : p.capacityKey = r.capacityKey
    · rw [← hkey]
      exact ⟨b, hb.backing, Fits.cons_on (by simp [onKey]) hmember⟩
    · rcases List.mem_cons.mp hr with rfl | hr
      · exact absurd rfl hkey
      · obtain ⟨b', hb', hfit⟩ := h.backing r hr
        exact ⟨b', hb', hfit.cons_off (by simp [onKey, hkey])⟩
  · intro r hr hd
    by_cases hkey : s.domainForStorage charge.storageID = r.domainKey
    · rw [← hkey] at hd ⊢
      obtain ⟨d, hdom, hok, hfit⟩ := hdomain hd
      exact ⟨d, hdom, hok, Fits.cons_on (by simp [onDomain, hd]) hfit⟩
    · rcases List.mem_cons.mp hr with rfl | hr
      · exact absurd rfl hkey
      · obtain ⟨d, hdom, hok, hfit⟩ := h.domain r hr hd
        exact ⟨d, hdom, hok, hfit.cons_off (by simp [onDomain, hkey])⟩

/-! ## 5. One operation -/

/-- Where an entry stands in the map. -/
theorem entries_perm {m : Map String LedgerEntry} {id : String} {e : LedgerEntry}
    (h : m.lookup id = some e) : m.entries.Perm (⟨id, e⟩ :: m.entries.kerase id) := by
  have hmem : id ∈ m.entries.keys := AList.lookup_isSome.mp (by rw [h]; rfl)
  obtain ⟨e', l₁, l₂, _, heq, herase⟩ := List.exists_of_kerase hmem
  have he : e' = e := by
    have hin : (⟨id, e'⟩ : Σ _ : String, LedgerEntry) ∈ m.entries := by
      rw [heq]
      exact List.mem_append_right _ List.mem_cons_self
    exact (List.mem_dlookup m.nodupKeys hin).symm.trans h |> Option.some.inj
  rw [herase, heq, he]
  exact List.perm_middle

/-- The records beside the one under `id`. -/
def Ledger.others (l : Ledger) (id : String) : List ChargeRecord :=
  (l.entries.entries.kerase id).map fun e => e.2.record

theorem held_perm {l : Ledger} {id : String} {e : LedgerEntry} (h : l.entries.lookup id = some e) :
    l.held.Perm (e.record :: l.others id) :=
  (entries_perm h).map _

theorem held_put (l : Ledger) (id : String) (e : LedgerEntry) :
    (l.put id e).held = e.record :: l.others id := rfl

theorem held_put_new {l : Ledger} {id : String} {e : LedgerEntry}
    (h : l.entries.lookup id = none) : (l.put id e).held = e.record :: l.held := by
  rw [held_put, Ledger.others, List.kerase_of_notMem_keys]
  · rfl
  · exact AList.lookup_eq_none.mp h

end Storage
