/-
# Charges that fit can be charged again

The converse of the contracts of the ledger.  Charges that stay within every capacity and every
domain are admitted one by one by an empty ledger, in any order (`replay`): `projectBudget` refuses
nothing that fits, as long as the capacity itself is not contradictory and every charge is of
something.

A charge may also be cut into parts before it is charged again (`Within.split`): the parts stand on
the same capacity under the same limits, and are the charge together.

The contracts of `Commitments` go from calls to bounds.  A plan that is kept in a journal has no
calls any more, it has charges, and whoever executes it starts a ledger of its own.  So the way back
is needed: bounds are enough for the calls to succeed, whatever their order.

That this holds is a property of the arithmetic as well as of the loop.  A sum of bytes within a
capacity fits a word, so no addition fails; limits of a subset are looser, so a charge that fits
beside all the others fits beside some of them.
-/
import PveCpi.Storage.Commitments

namespace Storage

open Lib.Check
open Lib.Text (nonblank)

/-! ## 1. What fits is admitted -/

/-- **What fits is admitted**, when there is something to admit. -/
theorem projectBudget_ok {b : CapacityBudget} (hcap : b.availableBytes ≤ b.totalBytes)
    (hvalid : b.limits.Valid) (hpos : b.allocationBytes ≠ 0)
    (hfit : b.outstandingBytes.toNat + b.allocationBytes.toNat ≤
      usableBytes b.totalBytes b.availableBytes b.limits) :
    ∃ p, projectBudget b = .ok p := by
  have hbytes : 0 < b.allocationBytes.toNat :=
    Nat.pos_of_ne_zero fun h => hpos (UInt64.toNat_inj.mp h)
  have hcap' := UInt64.le_iff_toNat_le.mp hcap
  have htotal := b.totalBytes.toNat_lt
  have hroom := usableBytes_le b.totalBytes b.availableBytes b.limits
  have husable : usableBytes b.totalBytes b.availableBytes b.limits =
    if b.maxUtilizationPct = 0 then b.availableBytes.toNat - b.reserveBytes.toNat
    else min (b.availableBytes.toNat - b.reserveBytes.toNat)
      (b.totalBytes.toNat * b.maxUtilizationPct.toNat / 100 -
        (b.totalBytes.toNat - b.availableBytes.toNat)) := rfl
  refine CapacityBudget.Admissible.projects ⟨by omega, hcap', hvalid, by omega, ?_,
    fun hne => ?_, hfit⟩
  · split_ifs at husable <;> omega
  · rw [if_neg hne] at husable
    omega

/-! ## 2. The record of a charge -/

/-- The record that planning a charge makes of it. -/
def recordOf (s : Snapshot) (c : Charge) : ChargeRecord :=
  { charge := c, capacityKey := ((s.pair c.node c.storageID).getD {}).capacityKey,
    domainKey := s.domainForStorage c.storageID }

section Planned

variable {s : Snapshot} {l l' : Ledger} {c : Charge}

theorem withPlanned_held (h : l.withPlanned s c = .ok l') : l'.held = recordOf s c :: l.held := by
  obtain ⟨e, hnew, -, hc, rfl⟩ := withPlanned_ok h
  obtain ⟨p, b, sums, hb⟩ := candidate_iff.mp hc
  rw [held_put_new hnew, recordOf, hb.pair, Option.getD_some, hb.backingKey_eq, hb.domainKey_eq]

/-- The capacities behind a charge are not contradictory. -/
structure Solid (s : Snapshot) (c : Charge) : Prop where
  backing : ∀ b, s.backing (recordOf s c).capacityKey = some b → b.availableBytes ≤ b.totalBytes
  domain : s.domainForStorage c.storageID ≠ "" → ∀ d,
    s.domain (s.domainForStorage c.storageID) = some d → d.availableBytes ≤ d.totalBytes

theorem projectBudget_capacity {b : CapacityBudget} {p : BudgetProjection}
    (h : projectBudget b = .ok p) : b.availableBytes ≤ b.totalBytes := by
  unfold projectBudget at h
  rw [check_bind_eq_ok, refuse_eq_ok, decide_eq_false_iff_not, not_or, UInt64.not_lt] at h
  exact h.1.2

/-- What was admitted once stands on solid capacities. -/
theorem withPlanned_solid (h : l.withPlanned s c = .ok l') : Solid s c := by
  obtain ⟨e, -, -, hc, -⟩ := withPlanned_ok h
  obtain ⟨p, b, sums, hb⟩ := candidate_iff.mp hc
  constructor
  · intro b' hb'
    rw [recordOf, hb.pair, Option.getD_some, hb.backing, Option.some.injEq] at hb'
    obtain ⟨x, hx⟩ := hb.member
    rw [← hb']
    exact projectBudget_capacity hx
  · intro hd d hdom
    have hbudget := hb.domain
    unfold domainBudget at hbudget
    rw [if_neg hd, hdom] at hbudget
    dsimp only at hbudget
    rw [check_bind_eq_ok, bind_eq_ok] at hbudget
    obtain ⟨-, x, hx, -⟩ := hbudget
    exact projectBudget_capacity (mapError_eq_ok.mp hx)

/-- A charge that can be planned has a name, a role and bytes. -/
structure Chargeable (c : Charge) : Prop where
  id : nonblank c.id = true
  role : nonblank c.role = true
  bytes : c.bytes ≠ 0

theorem withPlanned_chargeable (h : l.withPlanned s c = .ok l') : Chargeable c := by
  unfold Ledger.withPlanned at h
  rw [check_bind_eq_ok, refuse_eq_ok, Bool.or_eq_false_iff, Bool.or_eq_false_iff,
    decide_eq_false_iff_not] at h
  obtain ⟨⟨⟨hid, hrole⟩, hbytes⟩, -⟩ := h
  exact ⟨by simpa using hid, by simpa using hrole, hbytes⟩

end Planned

/-! ## 3. Charging again

`Recharged` is the invariant: the ledger holds the records of the charges so far, and nothing
else. -/

/-- An empty ledger was charged with `done`. -/
structure Recharged (s : Snapshot) (done : List Charge) (l : Ledger) : Prop where
  siblingMember : l.siblingMember = ∅
  siblingDomain : l.siblingDomain = ∅
  held : l.held = done.map (recordOf s)
  keys : l.entries.keys = done.map fun c => c.id

section Recharge

variable {s : Snapshot} {done : List Charge} {l : Ledger} {c : Charge}

theorem recordOf_unreflected (s : Snapshot) (done : List Charge) :
    ∀ r ∈ done.map (recordOf s), r.reflected = false := by
  intro r hr
  obtain ⟨c, -, rfl⟩ := List.mem_map.mp hr
  rfl

theorem bytesAt_empty (key : String) : (bytesAt ∅ key).toNat = 0 := rfl

/-- The bytes of the other charges on a capacity fit into a word. -/
theorem charged_lt {total available siblings : UInt64} {p : ChargeRecord → Bool}
    {rs : List ChargeRecord} (h : Fits total available siblings p rs) : charged p rs < 2 ^ 64 := by
  have hav := available.toNat_lt
  have huse : usableBytes total available (boundBy p rs) ≤ available.toNat := by
    unfold usableBytes
    split_ifs
    · exact Nat.sub_le _ _
    · exact (Nat.min_le_left _ _).trans (Nat.sub_le _ _)
  unfold Fits at h
  omega

/-- Nothing that is charged is retained. -/
theorem Recharged.unretained (h : Recharged s done l) : l.hasRetained = false := by
  unfold Ledger.hasRetained
  rw [h.held, List.any_map, List.any_eq_false]
  intro c _
  exact Bool.false_ne_true

/-- Every entry still names the capacity that the snapshot gives it. -/
theorem Recharged.current (h : Recharged s done l)
    (hwithin : Within s ∅ ∅ (done.map (recordOf s))) : ∀ e ∈ l.entries.entries, Current s e.2 := by
  intro e he
  have hmem : e.2.record ∈ done.map (recordOf s) := by
    rw [← h.held]
    exact List.mem_map_of_mem he
  obtain ⟨p, hp, -, hkey, hdom⟩ := hwithin.target _ hmem
  refine ⟨?_, fun hr => ?_⟩
  · unfold sameChargeTarget
    rw [hp]
    dsimp only
    rw [refuse_eq_ok, decide_eq_false_iff_not, not_or, not_not, not_not]
    exact ⟨hkey.symm, hdom.symm⟩
  · rw [recordOf_unreflected s done _ hmem] at hr
    cases hr

theorem Within.of_append {member domain : Map String UInt64} {rs : List ChargeRecord} :
    ∀ {before : List ChargeRecord}, Within s member domain (before ++ rs) →
    Within s member domain rs
  | [], h => h
  | _ :: _, h => Within.of_append h.of_cons

/-- What the next charge has to fit beside. -/
theorem fits_beside {total available : UInt64} {p : ChargeRecord → Bool} {r : ChargeRecord}
    {rs : List ChargeRecord} (hp : p r = true)
    (h : Fits total available (bytesAt ∅ "") p (r :: rs)) : charged p rs + r.charge.bytes.toNat ≤
      usableBytes total available (r.charge.limits.meet (boundBy p rs)) := by
  unfold Fits at h
  rw [charged_cons, boundBy_cons, hp, bytesAt_empty] at h
  simp only [if_true, Limits.meetWhen] at h
  rw [Limits.meet_comm]
  omega

/-- What `Candidate` adds up over a ledger without siblings. -/
def soleSums (l : Ledger) (key domainKey : String) (limit : Limits) : Budgets where
  memberLimits := limit.meet (boundBy (onKey key) l.held)
  memberOutstanding := UInt64.ofNat (charged (onKey key) l.held)
  domainLimits := limit.meet (boundBy (onDomain domainKey) l.held)
  domainOutstanding := UInt64.ofNat (charged (onDomain domainKey) l.held)

/-- The budgets of the ledger of a replay are the sums over the charges that were made. -/
theorem Recharged.summed (h : Recharged s done l) (hwithin : Within s ∅ ∅ (done.map (recordOf s)))
    (key domainKey : String) {limit : Limits} (hlimit : limit.Valid)
    (hkey : charged (onKey key) l.held < 2 ^ 64)
      (hdom : charged (onDomain domainKey) l.held < 2 ^ 64) :
    Summed l s key domainKey limit (soleSums l key domainKey limit) where
  asked := hlimit
  current := h.current hwithin
  valid r hr _ := hwithin.valid r (h.held ▸ hr)
  memberLimits := rfl
  memberOutstanding := by
    have hfresh := recordOf_unreflected s done
    rw [← h.held] at hfresh
    rw [soleSums, tally_eq_charged hfresh, h.siblingMember, bytesAt_empty, UInt64.toNat_ofNat',
      Nat.mod_eq_of_lt hkey, Nat.add_zero]
  domainLimits := rfl
  domainOutstanding := by
    have hfresh := recordOf_unreflected s done
    rw [← h.held] at hfresh
    rw [soleSums, tally_eq_charged hfresh, h.siblingDomain, bytesAt_empty, UInt64.toNat_ofNat',
      Nat.mod_eq_of_lt hdom, ite_self, Nat.add_zero]

/-- A charge outside a domain is in none. -/
theorem charged_onDomain_blank (rs : List ChargeRecord) : charged (onDomain "") rs = 0 := by
  unfold charged
  rw [List.filter_eq_nil_iff.mpr]
  · rfl
  · intro r _
    simp [onDomain]

section Next

variable (h : Recharged s done l) (hc : Chargeable c) (hsolid : Solid s c)
  (hwithin : Within s ∅ ∅ (recordOf s c :: l.held))

include hwithin in
/-- The strictest limits beside a new charge are limits. -/
theorem meet_valid (q : ChargeRecord → Bool) : (c.limits.meet (boundBy q l.held)).Valid := by
  have hlimit : c.limits.Valid := hwithin.valid _ List.mem_cons_self
  refine hlimit.meet (strictest_valid fun a ha => ?_)
  obtain ⟨r, hr, rfl⟩ := List.mem_map.mp ha
  exact hwithin.of_cons.valid r (List.mem_of_mem_filter hr)

include hwithin in
theorem domain_lt : charged (onDomain (s.domainForStorage c.storageID)) l.held < 2 ^ 64 := by
  by_cases hd : s.domainForStorage c.storageID = ""
  · rw [hd, charged_onDomain_blank]
    exact Nat.two_pow_pos 64
  · obtain ⟨d, -, -, hfit⟩ := hwithin.domain _ List.mem_cons_self hd
    exact charged_lt (hfit.of_cons hwithin.valid)

include hc hsolid hwithin in
/-- The domain admits the next charge. -/
theorem domainBudget_next (key : String) : ∃ x, domainBudget s (s.domainForStorage c.storageID)
    (soleSums l key (s.domainForStorage c.storageID) c.limits) c.bytes = .ok x := by
  unfold domainBudget
  by_cases hd : s.domainForStorage c.storageID = ""
  · rw [if_pos hd]
    exact ⟨_, rfl⟩
  · obtain ⟨d, hdom, hreason, hfit⟩ := hwithin.domain _ List.mem_cons_self hd
    have hdom' : s.domain (s.domainForStorage c.storageID) = some d := hdom
    have hbound := fits_beside (by simp [onDomain, recordOf, hd]) hfit
    rw [if_neg hd, hdom']
    dsimp only
    obtain ⟨y, hy⟩ : ∃ y, projectBudget
        { totalBytes := d.totalBytes, availableBytes := d.availableBytes,
          reserveBytes := (soleSums l key (s.domainForStorage c.storageID)
            c.limits).domainLimits.reserveBytes,
          maxUtilizationPct := (soleSums l key (s.domainForStorage c.storageID)
            c.limits).domainLimits.maxUtilizationPct,
          outstandingBytes := (soleSums l key (s.domainForStorage c.storageID)
            c.limits).domainOutstanding,
          allocationBytes := c.bytes } = .ok y := by
      refine projectBudget_ok (hsolid.domain hd d hdom') (meet_valid hwithin _) hc.bytes ?_
      dsimp only [soleSums]
      rw [UInt64.toNat_ofNat', Nat.mod_eq_of_lt (domain_lt hwithin)]
      exact hbound
    refine ⟨_, check_bind_eq_ok.mpr ⟨?_, bind_eq_ok.mpr ⟨y, mapError_eq_ok.mpr hy, rfl⟩⟩⟩
    rw [refuse_eq_ok, decide_eq_false_iff_not, not_not]
    exact hreason

include h hc hsolid hwithin in
/-- The next charge is admitted. -/
theorem Recharged.candidate :
    ∃ x, l.candidate s c.node c.storageID c.bytes c.limits = .ok x := by
  have hrest : Within s ∅ ∅ (done.map (recordOf s)) := h.held ▸ hwithin.of_cons
  obtain ⟨p, hpair, hreason, hkey, -⟩ := hwithin.target _ List.mem_cons_self
  have hpk : (recordOf s c).capacityKey = p.capacityKey := hkey
  obtain ⟨b, hb, hfit⟩ := hwithin.backing _ List.mem_cons_self
  have hbsolid := hsolid.backing b hb
  rw [hpk] at hb hfit
  have hbound := fits_beside (by simp [onKey, hpk]) hfit
  have hlt := charged_lt (hfit.of_cons hwithin.valid)
  obtain ⟨x, hx⟩ := domainBudget_next hc hsolid hwithin p.capacityKey
  obtain ⟨y, hy⟩ : ∃ y, projectBudget (memberBudget b
      (soleSums l p.capacityKey (s.domainForStorage c.storageID) c.limits) c.bytes) = .ok y := by
    refine projectBudget_ok hbsolid (meet_valid hwithin _) hc.bytes ?_
    dsimp only [memberBudget, soleSums]
    rw [UInt64.toNat_ofNat', Nat.mod_eq_of_lt hlt]
    exact hbound
  have hsums := h.summed hrest p.capacityKey (s.domainForStorage c.storageID)
    (hwithin.valid _ List.mem_cons_self) hlt (domain_lt hwithin)
  exact ⟨⟨c.storageID, p.capacityKey, s.domainForStorage c.storageID, memberBudget b _ c.bytes, x⟩,
    candidate_iff.mpr ⟨p, b, _, h.unretained, hpair, hreason, hb, hsums, ⟨y, hy⟩, hx, rfl, rfl, rfl,
      rfl⟩⟩

include h hc hsolid hwithin in
/-- One more charge. -/
theorem Recharged.step (hnew : c.id ∉ done.map fun c => c.id) :
    ∃ l', l.withPlanned s c = .ok l' ∧ Recharged s (c :: done) l' := by
  obtain ⟨x, hx⟩ := h.candidate hc hsolid hwithin
  have hlookup : l.entries.lookup c.id = none := by
    rw [AList.lookup_eq_none, AList.mem_keys, h.keys]
    exact hnew
  obtain ⟨l', hl'⟩ : ∃ l', l.withPlanned s c = .ok l' := by
    unfold Ledger.withPlanned
    simp only [check_bind_eq_ok, refuse_eq_ok]
    refine ⟨_, ?_, by rw [hlookup]; rfl, h.unretained, bind_eq_ok.mpr ⟨x, hx, rfl⟩⟩
    simp [hc.id, hc.role, hc.bytes]
  refine ⟨l', hl', ?_⟩
  obtain ⟨y, -, -, -, heq⟩ := withPlanned_ok hl'
  refine ⟨?_, ?_, ?_, ?_⟩
  · rw [heq]
    exact h.siblingMember
  · rw [heq]
    exact h.siblingDomain
  · rw [withPlanned_held hl', h.held, List.map_cons]
  · rw [heq, Ledger.put, AList.keys_insert, h.keys, List.erase_of_not_mem hnew, List.map_cons]

end Next

/-- Charge one after another. -/
def recharge (s : Snapshot) (cs : List Charge) : Except LedgerErr Ledger :=
  cs.foldlM (fun l c => l.withPlanned s c) {}

/-- **A replay succeeds.**  Each charge fits, because all charges together do, and what was charged
already is a part of them.  The recursion is on the charges that are left. -/
theorem Recharged.steps : ∀ {cs done : List Charge} {l : Ledger}, Recharged s done l →
    (∀ c ∈ cs, Chargeable c ∧ Solid s c) → Within s ∅ ∅ ((cs ++ done).map (recordOf s)) →
    ((cs ++ done).map fun c => c.id).Nodup →
    ∃ l', cs.foldlM (fun l c => l.withPlanned s c) l = .ok l'
  | [], _, l, _, _, _, _ => ⟨l, rfl⟩
  | c :: cs, done, l, h, hgood, hwithin, hids => by
    obtain ⟨⟨hc, hsolid⟩, hrest⟩ := List.forall_mem_cons.mp hgood
    have hmove : (c :: cs ++ done).Perm (cs ++ c :: done) := List.perm_middle.symm
    have hwithin' := hwithin.perm (hmove.map (recordOf s))
    have hids' : ((cs ++ c :: done).map fun c => c.id).Nodup :=
      (hmove.map fun c => c.id).nodup_iff.mp hids
    have hnew : c.id ∉ done.map fun c => c.id := by
      rw [List.map_append, List.map_cons] at hids'
      exact (List.nodup_cons.mp (List.nodup_append.mp hids').2.1).1
    have hnow : Within s ∅ ∅ (recordOf s c :: l.held) := by
      rw [List.map_append, List.map_cons, ← h.held] at hwithin'
      exact hwithin'.of_append
    obtain ⟨l', hl', h'⟩ := h.step hc hsolid hnow hnew
    obtain ⟨l'', hl''⟩ := h'.steps hrest hwithin' hids'
    exact ⟨l'', by rw [List.foldlM_cons, hl']; exact hl''⟩

/-- **Charges that fit can be charged again**, one after another in the order they are given.  By
induction over the charges: at each one the sums are those of the charges before it, and the bounds
for all of them imply the bound for these. -/
theorem replay {cs : List Charge} (hgood : ∀ c ∈ cs, Chargeable c ∧ Solid s c)
    (hwithin : Within s ∅ ∅ (cs.map (recordOf s))) (hids : (cs.map fun c => c.id).Nodup) :
    ∃ l, recharge s cs = .ok l := by
  have hstart : Recharged s [] {} := ⟨rfl, rfl, rfl, rfl⟩
  refine hstart.steps hgood ?_ ?_
  · rw [List.append_nil]
    exact hwithin
  · rw [List.append_nil]
    exact hids

end Recharge

/-! ## 4. Parts of a charge

The parts repeat the limits of the charge.  Limits are idempotent, so repeating them changes
nothing; the bytes add up. -/

/-- A part of a charge stands where the charge stands, under the same limits. -/
structure PartOf (r part : ChargeRecord) : Prop where
  node : part.charge.node = r.charge.node
  storageID : part.charge.storageID = r.charge.storageID
  limits : part.charge.limits = r.charge.limits
  capacityKey : part.capacityKey = r.capacityKey
  domainKey : part.domainKey = r.domainKey

/-- Records that replace one: its parts, and together all of it. -/
structure Parts (r : ChargeRecord) (parts : List ChargeRecord) : Prop where
  part : ∀ p ∈ parts, PartOf r p
  nonempty : parts ≠ []
  sum : (parts.map fun p => p.charge.bytes.toNat).sum = r.charge.bytes.toNat

section Parts

variable {r : ChargeRecord} {parts rs : List ChargeRecord} {q : ChargeRecord → Bool}

theorem filter_parts (hq : ∀ p ∈ parts, q p = q r) :
    parts.filter q = if q r then parts else [] := by
  split_ifs with hr
  · exact List.filter_eq_self.mpr fun p hp => (hq p hp).trans hr
  · exact List.filter_eq_nil_iff.mpr fun p hp => by rw [hq p hp]; exact hr

theorem Parts.charged (h : Parts r parts) (hq : ∀ p ∈ parts, q p = q r) :
    charged q (parts ++ rs) = charged q (r :: rs) := by
  rw [charged_cons, Storage.charged, List.filter_append, List.map_append, List.sum_append,
    filter_parts hq]
  split_ifs
  · rw [h.sum]
    rfl
  · rfl

/-- The same limits over again change nothing. -/
theorem meet_strictest_same {a : Limits} {ls : List Limits} : ∀ {as : List Limits},
    (∀ x ∈ as, x = a) → a.meet (strictest (as ++ ls)) = a.meet (strictest ls)
  | [], _ => rfl
  | x :: as, h => by
    obtain ⟨rfl, has⟩ := List.forall_mem_cons.mp h
    rw [List.cons_append, strictest_cons, ← Limits.meet_assoc, meet_self, meet_strictest_same has]

theorem Parts.boundBy (h : Parts r parts) (hq : ∀ p ∈ parts, q p = q r) :
    boundBy q (parts ++ rs) = boundBy q (r :: rs) := by
  unfold Storage.boundBy
  rw [List.filter_append, List.map_append, filter_parts hq, List.filter_cons]
  split_ifs
  · obtain ⟨p, ps, rfl⟩ := List.exists_cons_of_ne_nil h.nonempty
    obtain ⟨hp, hps⟩ := List.forall_mem_cons.mp h.part
    rw [List.map_cons, List.map_cons, List.cons_append, strictest_cons, strictest_cons, hp.limits]
    refine meet_strictest_same fun x hx => ?_
    obtain ⟨y, hy, rfl⟩ := List.mem_map.mp hx
    exact (hps y hy).limits
  · rfl

theorem Parts.fits {total available siblings : UInt64} (h : Parts r parts)
    (hq : ∀ p ∈ parts, q p = q r) (hfit : Fits total available siblings q (r :: rs)) :
    Fits total available siblings q (parts ++ rs) := by
  unfold Fits at *
  rwa [h.charged hq, h.boundBy hq]

/-- **A charge may be cut into parts.**  On each capacity the parts weigh what the charge weighed,
and the strictest limits are the same. -/
theorem Within.split {s : Snapshot} {member domain : Map String UInt64} (hparts : Parts r parts)
    (h : Within s member domain (r :: rs)) : Within s member domain (parts ++ rs) := by
  have hkey (key : String) : ∀ p ∈ parts, onKey key p = onKey key r := fun p hp => by
    rw [onKey, onKey, (hparts.part p hp).capacityKey]
  have hdom (key : String) : ∀ p ∈ parts, onDomain key p = onDomain key r := fun p hp => by
    rw [onDomain, onDomain, (hparts.part p hp).domainKey]
  -- Whatever holds of the charge and of the others holds of the parts and of the others.
  have hall {P : ChargeRecord → Prop} (hP : ∀ x ∈ r :: rs, P x) (hpart : ∀ p ∈ parts, P r → P p) :
      ∀ x ∈ parts ++ rs, P x := by
    intro x hx
    rcases List.mem_append.mp hx with hx | hx
    · exact hpart x hx (hP r List.mem_cons_self)
    · exact hP x (List.mem_cons_of_mem _ hx)
  refine ⟨hall h.target fun p hp ht => ?_, hall h.valid fun p hp hv => ?_, ?_, ?_⟩
  · have hpart := hparts.part p hp
    rw [hpart.node, hpart.storageID, hpart.capacityKey, hpart.domainKey]
    exact ht
  · rw [(hparts.part p hp).limits]
    exact hv
  · refine hall (fun x hx => ?_) fun p hp hb => ?_
    · obtain ⟨b, hb, hfit⟩ := h.backing x hx
      exact ⟨b, hb, hparts.fits (hkey _) hfit⟩
    · rw [(hparts.part p hp).capacityKey]
      exact hb
  · refine hall (fun x hx hd => ?_) fun p hp hd => ?_
    · obtain ⟨d, hdom', hok, hfit⟩ := h.domain x hx hd
      exact ⟨d, hdom', hok, hparts.fits (hdom _) hfit⟩
    · rw [(hparts.part p hp).domainKey]
      exact hd

end Parts

end Storage
