/-
# Both disks of a bundle at once

With `BundleVMDisks` the root disk and the ephemeral disk go to one storage.  `optionFor` checks
them together, before it ranks: one candidate with both charges under the combined limits, on the
ledger without the root charge.  `Next` admits them one after the other: the ephemeral charge on the
ledger that holds the root charge already.

The two agree (`bundle_agrees`).  `Room` is what the ledger asks of one capacity over the naturals,
and a charge that is held and a charge that is asked for weigh the same in it (`Room.move`): the
outstanding bytes and the strictest limits do not tell them apart.  So the second check of `Next`
never refuses what passed the first one.

A first look suggests that the two checks could differ.  They look at different ledgers and combine
the limits in another order, and the first one asks for the sum of two charges, which may overflow
where the single charges do not.  They agree because admission has a closed form over the naturals
(`candidate_takes`): a capacity takes a charge when outstanding bytes, held bytes and asked bytes
together are within what the strictest limits leave, and in that sentence it does not matter which
bytes are held and which are asked for.
-/
import PveCpi.Storage.Feasible

namespace Storage

open Lib Lib.Check
open Lib.Bits (addOr addOr_eq_ok exists_toNat)
open Lib.Text (nonblank)

/-! ## 1. Room on a capacity

`Room` is the sentence above for one capacity. -/

/-- A capacity takes `bytes` more beside `outstanding`, under the limits. -/
def Room (total available : UInt64) (l : Limits) (outstanding bytes : Nat) : Prop :=
  0 < total.toNat ∧ available.toNat ≤ total.toNat ∧ l.Valid ∧ outstanding + bytes < 2 ^ 64 ∧
    l.reserveBytes.toNat ≤ available.toNat ∧
    (l.maxUtilizationPct ≠ 0 →
      total.toNat - available.toNat ≤ total.toNat * l.maxUtilizationPct.toNat / 100) ∧
    outstanding + bytes ≤ usableBytes total available l

/-- Bytes that are held weigh as much as bytes that are asked for. -/
theorem Room.move {total available : UInt64} {l : Limits} {outstanding held bytes : Nat} :
    Room total available l outstanding (held + bytes) ↔
      Room total available l (outstanding + held) bytes := by
  unfold Room
  rw [Nat.add_assoc]

theorem room_iff {b : CapacityBudget} {outstanding : Nat}
    (hout : b.outstandingBytes.toNat = outstanding) :
    (∃ p, projectBudget b = .ok p) ↔ Room b.totalBytes b.availableBytes
      ⟨b.reserveBytes, b.maxUtilizationPct⟩ outstanding b.allocationBytes.toNat := by
  subst hout
  constructor
  · rintro ⟨p, hp⟩
    obtain ⟨h, -⟩ := projectBudget_sound hp
    exact ⟨h.total, h.available, h.percentage, h.charges, h.reserve, h.ceiling, h.fits⟩
  · rintro ⟨h1, h2, h3, h4, h5, h6, h7⟩
    exact CapacityBudget.Admissible.projects ⟨h1, h2, h3, h4, h5, h6, h7⟩

/-! ## 2. The candidate over the naturals -/

section Candidate

variable {s : Snapshot} {l : Ledger} {node id : String}

/-- There is room on the domain of a storage, if it has one. -/
def DomainRoom (s : Snapshot) (l : Ledger) (domainKey : String) (limit : Limits) (bytes : Nat) :
    Prop :=
  domainKey ≠ "" → ∃ d, s.domain domainKey = some d ∧ d.reason = "" ∧
    Room d.totalBytes d.availableBytes (limit.meet (boundBy (onDomain domainKey) l.held))
      (tally (onDomain domainKey) l.held + (bytesAt l.siblingDomain domainKey).toNat) bytes

/-- What `Candidate` asks, over the naturals. -/
structure Takes (s : Snapshot) (l : Ledger) (node id : String) (limit : Limits) (bytes : Nat) :
    Prop where
  unretained : l.hasRetained = false
  asked : limit.Valid
  current : ∀ e ∈ l.entries.entries, Current s e.2
  valid : ∀ p, s.pair node id = some p → ∀ r ∈ l.held,
    (onKey p.capacityKey r || onDomain (s.domainForStorage id) r) = true → r.charge.limits.Valid
  member : ∃ p b, s.pair node id = some p ∧ p.reason = "" ∧ s.backing p.capacityKey = some b ∧
    Room b.totalBytes b.availableBytes (limit.meet (boundBy (onKey p.capacityKey) l.held))
      (tally (onKey p.capacityKey) l.held + (bytesAt l.siblingMember p.capacityKey).toNat) bytes
  domain : DomainRoom s l (s.domainForStorage id) limit bytes

/-- The domain half of a candidate. -/
theorem domainBudget_room {domainKey : String} {sums : Budgets} {bytes : UInt64} {limit : Limits}
    (hlimits : sums.domainLimits = limit.meet (boundBy (onDomain domainKey) l.held))
    (hout : sums.domainOutstanding.toNat = tally (onDomain domainKey) l.held +
      if domainKey = "" then 0 else (bytesAt l.siblingDomain domainKey).toNat) :
    (∃ c, domainBudget s domainKey sums bytes = .ok c) ↔
      DomainRoom s l domainKey limit bytes.toNat := by
  unfold domainBudget DomainRoom
  split_ifs with hkey
  · exact ⟨fun _ h => absurd hkey h, fun _ => ⟨{}, rfl⟩⟩
  · rw [if_neg hkey] at hout
    cases hd : s.domain domainKey with
    | none =>
      constructor
      · rintro ⟨c, hc⟩
        cases hc
      · intro h
        obtain ⟨d, hd, -⟩ := h hkey
        cases hd
    | some d =>
      have hroom := room_iff (b := ⟨d.totalBytes, d.availableBytes, sums.domainLimits.reserveBytes,
        sums.domainOutstanding, bytes, sums.domainLimits.maxUtilizationPct⟩) hout
      rw [hlimits] at hroom
      dsimp only
      constructor
      · rintro ⟨c, hc⟩
        obtain ⟨hreason, hc⟩ := check_bind_eq_ok.mp hc
        obtain ⟨p, hp, -⟩ := bind_eq_ok.mp hc
        rw [refuse_eq_ok, decide_eq_false_iff_not, not_not] at hreason
        refine fun _ => ⟨d, rfl, hreason, hroom.mp ⟨p, ?_⟩⟩
        rw [← hlimits]
        exact mapError_eq_ok.mp hp
      · intro h
        obtain ⟨d', hd', hreason, hfits⟩ := h hkey
        cases hd'
        obtain ⟨p, hp⟩ := hroom.mpr hfits
        rw [← hlimits] at hp
        refine ⟨_, check_bind_eq_ok.mpr ⟨?_, bind_eq_ok.mpr ⟨p, mapError_eq_ok.mpr hp, rfl⟩⟩⟩
        rw [refuse_eq_ok, decide_eq_false_iff_not, not_not]
        exact hreason

/-- **When `Candidate` succeeds.** -/
theorem candidate_takes {bytes : UInt64} {limit : Limits} :
    (∃ c, l.candidate s node id bytes limit = .ok c) ↔ Takes s l node id limit bytes.toNat := by
  constructor
  · rintro ⟨c, hc⟩
    obtain ⟨p, b, sums, h⟩ := candidate_iff.mp hc
    have hdomain :=
      (domainBudget_room h.summed.domainLimits h.summed.domainOutstanding).mp ⟨_, h.domain⟩
    have hmember :=
      (room_iff (b := memberBudget b sums bytes) h.summed.memberOutstanding).mp h.member
    refine ⟨h.unretained, h.summed.asked, h.summed.current, fun p' hp' => ?_,
      ⟨p, b, h.pair, h.usable, h.backing, ?_⟩, hdomain⟩
    · rw [h.pair, Option.some.injEq] at hp'
      exact hp' ▸ h.summed.valid
    · rw [← h.summed.memberLimits]
      exact hmember
  · intro h
    obtain ⟨p, b, hp, hreason, hb, hroom⟩ := h.member
    obtain ⟨member, hmember⟩ := exists_toNat (n := tally (onKey p.capacityKey) l.held +
      (bytesAt l.siblingMember p.capacityKey).toNat) (by
        obtain ⟨-, -, -, hsum, -⟩ := hroom
        omega)
    obtain ⟨domain, hdomain⟩ := exists_toNat (n := tally (onDomain (s.domainForStorage id)) l.held +
      if s.domainForStorage id = "" then 0
      else (bytesAt l.siblingDomain (s.domainForStorage id)).toNat) (by
        split_ifs with hkey
        · have hzero : tally (onDomain (s.domainForStorage id)) l.held = 0 := by
            rw [hkey, tally, List.filter_eq_nil_iff.mpr fun r _ => by simp [onDomain]]
            rfl
          omega
        · obtain ⟨d, -, -, -, -, -, hsum, -⟩ := h.domain hkey
          omega)
    obtain ⟨sums, hsummed⟩ : ∃ sums, Summed l s p.capacityKey (s.domainForStorage id) limit sums :=
      ⟨⟨_, member, _, domain⟩, h.asked, h.current, h.valid p hp, rfl, hmember, rfl, hdomain⟩
    obtain ⟨budget, hbudget⟩ : ∃ budget, domainBudget s (s.domainForStorage id) sums bytes =
        .ok budget :=
      (domainBudget_room hsummed.domainLimits hsummed.domainOutstanding).mpr h.domain
    rw [← hsummed.memberLimits] at hroom
    have hproject := (room_iff (b := memberBudget b sums bytes) hsummed.memberOutstanding).mpr hroom
    exact ⟨⟨id, p.capacityKey, s.domainForStorage id, memberBudget b sums bytes, budget⟩,
      candidate_iff.mpr ⟨p, b, sums, h.unretained, hp, hreason, hb, hsummed, hproject, hbudget, rfl,
        rfl, rfl, rfl⟩⟩

end Candidate

/-! ## 3. One after the other, or both at once

The ledger with one more planned charge, compared with the ledger without it. -/

section Planned

variable {s : Snapshot} {l l' : Ledger} {c : Charge}

theorem limits_move (a b c : Limits) : (a.meet b).meet c = a.meet (c.meet b) := by
  rw [Limits.meet_assoc, Limits.meet_comm b]

/-- The record of a planned charge counts on its capacity. -/
theorem tally_planned {on : ChargeRecord → Bool} (hon : on (recordOf s c) = true)
    (rs : List ChargeRecord) : tally on (recordOf s c :: rs) = c.bytes.toNat + tally on rs := by
  rw [tally_cons, if_pos hon]
  rfl

theorem boundBy_planned {on : ChargeRecord → Bool} (hon : on (recordOf s c) = true)
    (rs : List ChargeRecord) : boundBy on (recordOf s c :: rs) = (boundBy on rs).meet c.limits := by
  rw [boundBy_cons, hon]
  rfl

/-- What a planned charge leaves in the ledger. -/
structure Extended (s : Snapshot) (l : Ledger) (c : Charge) (l' : Ledger) : Prop where
  held : l'.held = recordOf s c :: l.held
  siblingMember : l'.siblingMember = l.siblingMember
  siblingDomain : l'.siblingDomain = l.siblingDomain
  retained : l'.hasRetained = l.hasRetained
  entries : ∃ e : LedgerEntry, e.record = recordOf s c ∧
    l'.entries.entries = ⟨c.id, e⟩ :: l.entries.entries
  limits : c.limits.Valid
  current : ∀ e : LedgerEntry, e.record = recordOf s c → Current s e

/-- A ledger with one more planned charge holds that charge and all that it held. -/
theorem withPlanned_extended (h : l.withPlanned s c = .ok l') : Extended s l c l' := by
  have hheld := withPlanned_held h
  obtain ⟨cand, hnew, -, hc, rfl⟩ := withPlanned_ok h
  obtain ⟨p, b, sums, hb⟩ := candidate_iff.mp hc
  refine ⟨hheld, rfl, rfl, ?_,
    ⟨_, ?_, AList.entries_insert_of_notMem (AList.lookup_eq_none.mp hnew)⟩,
    hb.summed.asked, fun e he => ?_⟩
  · rw [Ledger.hasRetained, hheld, List.any_cons]
    rfl
  · rw [recordOf, hb.pair, Option.getD_some, hb.backingKey_eq, hb.domainKey_eq]
  · refine ⟨?_, fun hr => ?_⟩
    · rw [he, sameChargeTarget, show (recordOf s c).charge = c from rfl, hb.pair]
      dsimp only
      rw [refuse_eq_ok, decide_eq_false_iff_not, not_or, not_not, not_not]
      refine ⟨?_, rfl⟩
      rw [recordOf, hb.pair, Option.getD_some]
    · rw [he] at hr
      cases hr

/-- **The charge that is held weighs as the charge that is asked for.** -/
theorem takes_planned (h : l.withPlanned s c = .ok l') {limit : Limits} (hlimit : limit.Valid)
    (more : Nat) : Takes s l c.node c.storageID (limit.meet c.limits) (c.bytes.toNat + more) ↔
      Takes s l' c.node c.storageID limit more := by
  have hf := withPlanned_extended h
  have hkey : ∀ p, s.pair c.node c.storageID = some p →
      onKey p.capacityKey (recordOf s c) = true := by
    intro p hp
    rw [onKey, recordOf, hp, Option.getD_some, decide_eq_true_eq]
  have hdomain : s.domainForStorage c.storageID ≠ "" →
      onDomain (s.domainForStorage c.storageID) (recordOf s c) = true := by
    intro hne
    rw [onDomain, decide_eq_true_eq]
    exact ⟨hne, rfl⟩
  obtain ⟨e, he, hentries⟩ := hf.entries
  have hmember : (∃ p b, s.pair c.node c.storageID = some p ∧ p.reason = "" ∧
        s.backing p.capacityKey = some b ∧ Room b.totalBytes b.availableBytes
          ((limit.meet c.limits).meet (boundBy (onKey p.capacityKey) l.held))
          (tally (onKey p.capacityKey) l.held + (bytesAt l.siblingMember p.capacityKey).toNat)
          (c.bytes.toNat + more)) ↔
      ∃ p b, s.pair c.node c.storageID = some p ∧ p.reason = "" ∧
        s.backing p.capacityKey = some b ∧ Room b.totalBytes b.availableBytes
          (limit.meet (boundBy (onKey p.capacityKey) l'.held))
          (tally (onKey p.capacityKey) l'.held + (bytesAt l'.siblingMember p.capacityKey).toNat)
            more := by
    refine exists_congr fun p => exists_congr fun b => and_congr_right fun hp =>
      and_congr_right fun _ => and_congr_right fun _ => ?_
    rw [hf.held, hf.siblingMember, boundBy_planned (hkey p hp), tally_planned (hkey p hp),
      limits_move, Room.move, Nat.add_right_comm, Nat.add_comm c.bytes.toNat]
  have hdomains : DomainRoom s l (s.domainForStorage c.storageID) (limit.meet c.limits)
        (c.bytes.toNat + more) ↔ DomainRoom s l' (s.domainForStorage c.storageID) limit more := by
    refine imp_congr_right fun hne => exists_congr fun d => and_congr_right fun _ =>
      and_congr_right fun _ => ?_
    rw [hf.held, hf.siblingDomain, boundBy_planned (hdomain hne), tally_planned (hdomain hne),
      limits_move, Room.move, Nat.add_right_comm, Nat.add_comm c.bytes.toNat]
  constructor
  · intro ht
    refine ⟨hf.retained.trans ht.unretained, hlimit, ?_, fun p hp => ?_, hmember.mp ht.member,
      hdomains.mp ht.domain⟩
    · rw [hentries]
      exact List.forall_mem_cons.mpr ⟨hf.current e he, ht.current⟩
    · rw [hf.held]
      exact List.forall_mem_cons.mpr ⟨fun _ => hf.limits, ht.valid p hp⟩
  · intro ht
    have hcurrent := ht.current
    rw [hentries] at hcurrent
    refine ⟨hf.retained.symm.trans ht.unretained, hlimit.meet hf.limits,
      (List.forall_mem_cons.mp hcurrent).2, fun p hp =>
      ?_, hmember.mpr ht.member, hdomains.mpr ht.domain⟩
    have hvalid := ht.valid p hp
    rw [hf.held] at hvalid
    exact (List.forall_mem_cons.mp hvalid).2

end Planned

/-! ## 4. The two checks of the planner

Around the ledger stand the sizes and the limits of the roles, which are the same in both. -/

/-- A charge can be planned when it is a new one and its storage takes it. -/
theorem withPlanned_some {s : Snapshot} {l : Ledger} {c : Charge} :
    (∃ l', l.withPlanned s c = .ok l') ↔ Chargeable c ∧ l.entries.lookup c.id = none ∧
      ∃ cand, l.candidate s c.node c.storageID c.bytes c.limits = .ok cand := by
  constructor
  · rintro ⟨l', h⟩
    obtain ⟨cand, hnew, -, hc, -⟩ := withPlanned_ok h
    exact ⟨withPlanned_chargeable h, hnew, cand, hc⟩
  · rintro ⟨⟨hid, hrole, hbytes⟩, hnew, cand, hc⟩
    obtain ⟨p, b, sums, hb⟩ := candidate_iff.mp hc
    refine ⟨_, check_bind_eq_ok.mpr ⟨?_, check_bind_eq_ok.mpr ⟨?_, check_bind_eq_ok.mpr ⟨?_,
      bind_eq_ok.mpr ⟨cand, hc, rfl⟩⟩⟩⟩⟩
    · simp [hid, hrole, hbytes]
    · rw [hnew, refuse_eq_ok]
      rfl
    · rw [hb.unretained, refuse_eq_ok]

theorem limits_valid {req : StoragePlanRequest} {r : StorageRoleSelection} {limit : Limits}
    (h : limits req r = .ok limit) : limit.Valid := by
  unfold limits at h
  split_ifs at h
  rw [mapError_eq_ok, combineLimits_eq_ok] at h
  obtain ⟨hvalid, rfl⟩ := h
  exact strictest_valid hvalid

/-- The last record of a ledger is the one with the greatest identity. -/
theorem records_getLast {l : Ledger} {r : ChargeRecord} {rest : List ChargeRecord}
    (h : l.held = r :: rest) (hmax : ∀ x ∈ rest, ¬ r.charge.id ≤ x.charge.id) :
    l.records.getLast? = some r := by
  have hperm : l.records.Perm (r :: rest) := by
    rw [← h]
    exact List.mergeSort_perm _ _
  have hsorted : l.records.Pairwise fun a b => decide (a.charge.id ≤ b.charge.id) = true := by
    refine List.pairwise_mergeSort (fun a b c hab hbc => ?_) (fun a b => ?_) _
    · rw [decide_eq_true_eq] at *
      exact String.le_trans hab hbc
    · simp only [Bool.or_eq_true, decide_eq_true_eq]
      exact String.le_total _ _
  have hr : r ∈ l.records := hperm.mem_iff.mpr List.mem_cons_self
  obtain ⟨front, last, heq⟩ : ∃ front last, l.records = front ++ [last] :=
    ⟨_, _, (List.dropLast_append_getLast (List.ne_nil_of_mem hr)).symm⟩
  rw [heq] at hr hsorted hperm ⊢
  rw [List.getLast?_append_of_ne_nil _ (List.cons_ne_nil _ _), List.getLast?_singleton]
  rcases List.mem_append.mp hr with hfront | hlast
  · have hle := (List.pairwise_append.mp hsorted).2.2 r hfront last List.mem_cons_self
    rw [decide_eq_true_eq] at hle
    rcases List.mem_cons.mp (hperm.mem_iff.mp (List.mem_append_right _ List.mem_cons_self)) with
      rfl | hrest
    · rfl
    · exact absurd hle (hmax last hrest)
  · rw [List.mem_singleton.mp hlast]

section Bundle

variable {req : StoragePlanRequest} {group : StoragePlanNodeGroup} {base : Ledger}
  {node id : String} {r ephemeral : StorageRoleSelection} {virtual charge : UInt64}
  {mechanism : String} {source : Option StorageRootSource} {option : PlanOption}

/-- The charge of a primary disk. -/
def primaryCharge (r : StorageRoleSelection) (node id : String) (charge : UInt64) (limit : Limits) :
    Charge :=
  { id := r.role, role := r.role, node := node, storageID := id, bytes := charge, limits := limit }

theorem addTarget_planned
    (h : addTarget req base r.role node id virtual charge mechanism source r = .ok option) :
    (∃ limit, limits req r = .ok limit ∧
      base.withPlanned req.inventory (primaryCharge r node id charge limit) = .ok option.ledger) ∧
      option.target.node = node ∧ option.target.storageID = id := by
  unfold addTarget at h
  obtain ⟨limit, hlimit, h⟩ := bind_eq_ok.mp h
  obtain ⟨candidate, -, h⟩ := bind_eq_ok.mp h
  obtain ⟨next, hnext, h⟩ := bind_eq_ok.mp h
  cases h
  exact ⟨⟨limit, hlimit, mapError_eq_ok.mp hnext⟩, rfl, rfl⟩

/-- When the ephemeral disk of a bundle is admitted. -/
theorem addTarget_ephemeral {l : Ledger} (hbytes : req.ephemeralBytes ≠ 0)
    (hnew : l.entries.lookup storageRoleEphemeral = none) :
    (∃ e, addTarget req l storageRoleEphemeral node id req.ephemeralBytes req.ephemeralBytes
        "allocate" none ephemeral = .ok e) ↔
      ∃ limit, limits req ephemeral = .ok limit ∧
        Takes req.inventory l node id limit req.ephemeralBytes.toNat := by
  unfold addTarget
  constructor
  · rintro ⟨e, h⟩
    obtain ⟨limit, hlimit, h⟩ := bind_eq_ok.mp h
    obtain ⟨cand, hcand, -⟩ := bind_eq_ok.mp h
    exact ⟨limit, hlimit, candidate_takes.mp ⟨cand, mapError_eq_ok.mp hcand⟩⟩
  · rintro ⟨limit, hlimit, htakes⟩
    obtain ⟨cand, hcand⟩ := candidate_takes.mpr htakes
    have hname : nonblank storageRoleEphemeral = true := by decide
    obtain ⟨next, hnext⟩ :=
      (withPlanned_some (c := ⟨storageRoleEphemeral, storageRoleEphemeral, node, id,
      req.ephemeralBytes, limit⟩)).mpr ⟨⟨hname, hname, hbytes⟩, hnew, cand, hcand⟩
    exact ⟨_, bind_eq_ok.mpr ⟨limit, hlimit, bind_eq_ok.mpr ⟨cand, mapError_eq_ok.mpr hcand,
      bind_eq_ok.mpr ⟨next, mapError_eq_ok.mpr hnext, rfl⟩⟩⟩⟩

/-- When both disks are checked together. -/
theorem bundleCandidate_takes {last : ChargeRecord}
    (hlast : option.ledger.records.getLast? = some last) (hvalid : last.charge.limits.Valid) :
    (∃ o, bundleCandidate req ephemeral base node id charge option = .passed o) ↔
      ∃ limit, limits req ephemeral = .ok limit ∧ charge.toNat + req.ephemeralBytes.toNat < 2 ^ 64 ∧
        Takes req.inventory base node id (limit.meet last.charge.limits)
          (charge.toNat + req.ephemeralBytes.toNat) := by
  unfold bundleCandidate
  rw [hlast]
  simp only [Verdict.failing_passed, Verdict.rejecting_passed, Option.map_some, Option.getD_some,
    mapError_eq_ok, combineLimits_two, addOr_eq_ok]
  constructor
  · rintro ⟨o, limit, hlimit, _, ⟨-, rfl⟩, total, htotal, cand, hcand, -⟩
    have htakes := candidate_takes.mp ⟨cand, hcand⟩
    rw [htotal] at htakes
    refine ⟨limit, hlimit, ?_, htakes⟩
    have := total.toNat_lt
    omega
  · rintro ⟨limit, hlimit, hsum, htakes⟩
    obtain ⟨total, htotal⟩ := exists_toNat hsum
    rw [← htotal] at htakes
    obtain ⟨cand, hcand⟩ := candidate_takes.mpr htakes
    exact ⟨_, limit, hlimit, _, ⟨⟨limits_valid hlimit, hvalid⟩, rfl⟩, total, htotal, cand, hcand,
      rfl⟩

/-- The ledger of a primary disk: its charge is the last record, and no ephemeral charge is
there. -/
theorem primary_ledger (himage : Imaged req (Iterator.seeded req) node base)
    (hrole : r.role = storageRoleRoot ∨ r.role = storageRolePersistent) {limit : Limits}
    (h : base.withPlanned req.inventory (primaryCharge r node id charge limit) = .ok option.ledger)
      :
    option.ledger.records.getLast? =
        some (recordOf req.inventory (primaryCharge r node id charge limit)) ∧
      option.ledger.entries.lookup storageRoleEphemeral = none := by
  have hext := withPlanned_extended h
  obtain ⟨e, -, hentries⟩ := hext.entries
  have hiso : ¬ r.role ≤ storageRoleISO := by
    rcases hrole with h | h <;> rw [h] <;> decide
  have hne : r.role ≠ storageRoleEphemeral := by
    rcases hrole with h | h <;> rw [h] <;> decide
  have hkeys : ∀ x ∈ base.entries.entries, x.1 = storageRoleISO ∧
      x.2.record.charge.id = storageRoleISO := by
    rcases himage with rfl | ⟨image, himage⟩
    · intro x hx
      cases hx
    · obtain ⟨e', he', hentries'⟩ := (withPlanned_extended himage).entries
      rw [hentries']
      refine List.forall_mem_cons.mpr ⟨⟨rfl, ?_⟩, fun x hx => by cases hx⟩
      rw [he']
      rfl
  constructor
  · refine records_getLast hext.held fun x hx => ?_
    obtain ⟨entry, hentry, rfl⟩ := List.mem_map.mp hx
    rw [(hkeys entry hentry).2]
    exact hiso
  · rw [AList.lookup_eq_none, AList.mem_keys, AList.keys, hentries, List.keys, List.mem_map]
    rintro ⟨x, hx, heq⟩
    rcases List.mem_cons.mp hx with rfl | hx
    · exact hne heq
    · rw [(hkeys x hx).1] at heq
      exact absurd heq (by decide)

/-- **The check before the ranking is the check of `Next`.** -/
theorem bundle_iff (hbytes : req.ephemeralBytes ≠ 0)
    (himage : Imaged req (Iterator.seeded req) node base)
    (hrole : r.role = storageRoleRoot ∨ r.role = storageRolePersistent)
    (h : addTarget req base r.role node id virtual charge mechanism source r = .ok option) :
    (∃ o, bundleCandidate req ephemeral base node id charge option = .passed o) ↔
      ∃ e, addTarget req option.ledger storageRoleEphemeral option.target.node
      option.target.storageID
        req.ephemeralBytes req.ephemeralBytes "allocate" none ephemeral = .ok e := by
  obtain ⟨⟨limit, hlimit, hplanned⟩, hnode, hid⟩ := addTarget_planned h
  obtain ⟨hlast, hnew⟩ := primary_ledger himage hrole hplanned
  rw [hnode, hid, bundleCandidate_takes hlast (limits_valid hlimit),
    addTarget_ephemeral hbytes hnew]
  refine exists_congr fun eph => and_congr_right fun heph => ?_
  have hmove := takes_planned hplanned (limits_valid heph) req.ephemeralBytes.toNat
  constructor
  · rintro ⟨-, htakes⟩
    exact hmove.mp htakes
  · intro htakes
    have htakes := hmove.mpr htakes
    refine ⟨?_, htakes⟩
    obtain ⟨_, _, -, -, -, -, -, -, hsum, -⟩ := htakes.member
    exact lt_of_le_of_lt (Nat.le_add_left _ _) hsum

/-- What passes before the ranking passes in `Next`. -/
theorem judge_bundle {bytes : UInt64} {o : PlanOption} (hbytes : req.ephemeralBytes ≠ 0)
    (hrole : r.role = storageRoleRoot ∨ r.role = storageRolePersistent)
    (hbundle : req.selection.bundleVMDisks = true) (heph : req.selection.ephemeral = some ephemeral)
    (h : judge req group r bytes (Iterator.seeded req) node id true = .passed o) :
    ∃ e, addTarget req o.ledger storageRoleEphemeral o.target.node o.target.storageID
      req.ephemeralBytes req.ephemeralBytes "allocate" none ephemeral = .ok e := by
  unfold judge at h
  obtain ⟨_, -, h⟩ := Verdict.rejecting_passed.mp h
  obtain ⟨ledger, hledger, h⟩ := Verdict.rejecting_passed.mp h
  obtain ⟨z, h, -⟩ := sizing_passed h
  obtain ⟨option, hoption, h⟩ := Verdict.rejecting_passed.mp h
  rw [heph] at h
  dsimp only at h
  rw [hbundle, Bool.true_and, if_pos rfl] at h
  have himage : Imaged req (Iterator.seeded req) node ledger := by
    split_ifs at hledger
    · exact .inr (isoLedger_ok hledger)
    · cases hledger
      exact .inl rfl
  obtain ⟨htarget, hl⟩ := bundleCandidate_passed h
  rw [htarget, hl]
  exact (bundle_iff hbytes himage hrole hoption).mp ⟨o, h⟩

end Bundle

/-- An accepted request has a size for its ephemeral disk. -/
theorem newStoragePlanIterator_ephemeral {newSeed : Except String (BitVec 256)}
    {request : StoragePlanRequest} {i : Iterator}
    (h : newStoragePlanIterator newSeed request = .ok i)
    {ephemeral : StorageRoleSelection} (heph : i.req.selection.ephemeral = some ephemeral) :
    i.req.ephemeralBytes ≠ 0 := by
  unfold newStoragePlanIterator at h
  obtain ⟨r, -, h⟩ := bind_eq_ok.mp h
  split at h
  · cases h
  · rename_i hcheck
    cases h
    unfold checkRequest at hcheck
    simp only [check_bind_eq_ok, refuse_eq_ok] at hcheck
    obtain ⟨-, -, -, -, hsize, -⟩ := hcheck
    intro hzero
    rw [heph, hzero] at hsize
    cases hsize

/-- **The check before the ranking agrees with the execution.**  For an accepted request with
bundled disks, and a root charge that is admitted on the ledger of the siblings and the image: both
disks together are a candidate exactly when `Next` can add the ephemeral disk to the root option. So
no root option that `options` returns is refused by `Next`.  Both checks are `Takes` with the two
charges distributed differently, and `Room.move` is the step between them. -/
theorem bundle_agrees (newSeed : Except String (BitVec 256)) (request : StoragePlanRequest)
    (i : Iterator)
    (hi : newStoragePlanIterator newSeed request = .ok i) (ephemeral : StorageRoleSelection)
    (hbundle : i.req.selection.bundleVMDisks = true)
    (heph : i.req.selection.ephemeral = some ephemeral) (r : StorageRoleSelection) (bytes : UInt64)
    (hrole : Iterator.primaryRole i.req.toStoragePlanRequest = some (r, bytes))
    (group : StoragePlanNodeGroup) :
    (∀ node id virtual charge mechanism source ledger option,
      (if 0 < i.req.isoBytes then isoLedger i.req.toStoragePlanRequest group
        (Iterator.seeded i.req.toStoragePlanRequest) node id
        else .ok (Iterator.seeded i.req.toStoragePlanRequest)) = .ok ledger →
      addTarget i.req.toStoragePlanRequest ledger r.role node id virtual charge mechanism source r =
        .ok option →
      ((∃ o, bundleCandidate i.req.toStoragePlanRequest ephemeral ledger node id charge option =
          .passed o) ↔
        ∃ e, addTarget i.req.toStoragePlanRequest option.ledger storageRoleEphemeral
          option.target.node
          option.target.storageID i.req.ephemeralBytes i.req.ephemeralBytes "allocate" none
            ephemeral =
          .ok e)) ∧
    ∀ env nodes roots effort effort',
      options env i.req.toStoragePlanRequest group r bytes
      (Iterator.seeded i.req.toStoragePlanRequest)
        nodes true effort = (.ok roots, effort') →
      ∀ root ∈ roots, ∃ e, addTarget i.req.toStoragePlanRequest root.ledger storageRoleEphemeral
        root.target.node root.target.storageID i.req.ephemeralBytes i.req.ephemeralBytes "allocate"
        none ephemeral = .ok e := by
  have hbytes := newStoragePlanIterator_ephemeral hi heph
  have hprimary := Iterator.primaryRole_role hrole
  constructor
  · intro node id virtual charge mechanism source ledger option hledger hoption
    have himage : Imaged i.req.toStoragePlanRequest (Iterator.seeded i.req.toStoragePlanRequest)
        node ledger := by
      split_ifs at hledger
      · exact .inr (isoLedger_ok hledger)
      · cases hledger
        exact .inl rfl
    exact bundle_iff hbytes himage hprimary hoption
  · intro env nodes roots effort effort' h
    exact options_all
      (P := fun t l => ∃ e, addTarget i.req.toStoragePlanRequest l storageRoleEphemeral
      t.node t.storageID i.req.ephemeralBytes i.req.ephemeralBytes "allocate" none ephemeral =
        .ok e)
      (fun _ _ _ _ hj => judge_bundle hbytes hprimary hbundle heph hj) h

/-- The sample request with both disks on one storage. -/
def sampleBundle : StoragePlanRequest :=
  { samplePlanRequest with selection := { sampleSelection with bundleVMDisks := true } }

/-- The root option of the sample, with its ledger before. -/
def sampleRootOption (req : StoragePlanRequest) : Except PlanErr (Ledger × PlanOption) := do
  let ledger ← isoLedger req { az := "z1", nodes := ["pve1"] } (Iterator.seeded req) "pve1" "nfs1"
  let option ← addTarget req ledger storageRoleRoot "pve1" "nfs1" 3221225472 3221225472 "full_clone"
    none (sampleRole storageRoleRoot)
  pure (ledger, option)

theorem bundle_agrees_sample : ∃ i ledger option o,
    newStoragePlanIterator (.error "") sampleBundle = .ok i ∧
    sampleRootOption i.req.toStoragePlanRequest = .ok (ledger, option) ∧
    bundleCandidate i.req.toStoragePlanRequest (sampleRole storageRoleEphemeral) ledger "pve1"
      "nfs1" 3221225472 option = .passed o := by
  have heval : (newStoragePlanIterator (.error "") sampleBundle).toOption.any (fun i =>
      ((sampleRootOption i.req.toStoragePlanRequest).toOption.any fun x =>
        (addTarget i.req.toStoragePlanRequest x.2.ledger storageRoleEphemeral x.2.target.node
          x.2.target.storageID i.req.ephemeralBytes i.req.ephemeralBytes "allocate" none
          (sampleRole storageRoleEphemeral)).toOption.isSome) &&
      (i.req.selection.bundleVMDisks && decide (0 < i.req.isoBytes) &&
        decide (i.req.selection.ephemeral = some (sampleRole storageRoleEphemeral)) &&
        decide (Iterator.primaryRole i.req.toStoragePlanRequest =
          some (sampleRole storageRoleRoot, i.req.rootBytes)))) = true := by
    decide +kernel
  obtain ⟨i, hi, heval⟩ := (Option.any_eq_true _ _).mp heval
  simp only [Bool.and_eq_true, decide_eq_true_eq] at heval
  obtain ⟨hoption, ⟨⟨hbundle, hiso⟩, heph⟩, hrole⟩ := heval
  obtain ⟨⟨ledger, option⟩, hoption, hnext⟩ := (Option.any_eq_true _ _).mp hoption
  obtain ⟨e, he⟩ := Option.isSome_iff_exists.mp hnext
  have hi := toOption_eq_some.mp hi
  have hoption := toOption_eq_some.mp hoption
  have hsteps := hoption
  obtain ⟨l, hl, hsteps⟩ := bind_eq_ok.mp hsteps
  obtain ⟨o, ho, hsteps⟩ := bind_eq_ok.mp hsteps
  cases hsteps
  obtain ⟨o, ho⟩ :=
    ((bundle_agrees (.error "") sampleBundle i hi (sampleRole storageRoleEphemeral) hbundle
    heph (sampleRole storageRoleRoot) i.req.rootBytes hrole { az := "z1", nodes := ["pve1"] }).1
    "pve1" "nfs1" 3221225472 3221225472 "full_clone" none ledger option
    (by rw [if_pos hiso]; exact hl) ho).mpr ⟨e, toOption_eq_some.mp he⟩
  exact ⟨i, ledger, option, o, hi, hoption, ho⟩

end Storage
