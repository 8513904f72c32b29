/-
# The contracts of the ledger

Two statements over whole sequences of calls.

* **No over-commit**: from a ledger seeded with sibling bytes, planned, submitted, acquired and
  removed charges stay within every capacity and every declared domain, all sums taken over the
  naturals.
* **No early release**: a submitted charge never leaves the ledger, and its bytes stop counting
  only against an observation that began after the completion the charge was sealed with.

Each operation has one lemma that says what a successful call did; the contracts are inductions
over the calls that use nothing else.

## What carries the inductions

For the first contract the invariant is `Within`, together with the fact that no charge of a seeded
ledger is reflected, so that everything that is charged counts.  Each call of `PlanStep` adds a
charge that was admitted, removes one, or replaces one by a charge of the same size.

For the second it is the seal: an acquired charge carries the evidence of its completion, and a
charge that is not acquired is as it was when it was submitted.  `LedgerStep` is every operation of
the ledger, with restoring as one of them; `Keeps` is what two ledgers of one run have to do with
each other.
-/
import PveCpi.Storage.Admission
import Mathlib.Logic.Relation

namespace Storage

open Lib.Check
open Lib.Bits (addOr_eq_ok)
open Journal (Time)

/-! ## 1. What a successful call did

One lemma for each operation, an equation for the ledger it returns.  The contracts use only
these. -/

section Calls

variable {l l' : Ledger} {s : Snapshot} {id : String}

theorem withPlanned_ok {charge : Charge} (h : l.withPlanned s charge = .ok l') :
    ∃ c, l.entries.lookup charge.id = none ∧ charge.bytes ≠ 0 ∧
      l.candidate s charge.node charge.storageID charge.bytes charge.limits = .ok c ∧
      l' = l.put charge.id { record :=
        { charge := charge, capacityKey := c.backingKey, domainKey := c.domainKey } } := by
  unfold Ledger.withPlanned at h
  simp only [check_bind_eq_ok, refuse_eq_ok, Bool.or_eq_false_iff, decide_eq_false_iff_not,
    Option.isSome_eq_false_iff, Option.isNone_iff_eq_none] at h
  obtain ⟨⟨_, hbytes⟩, hnew, _, h⟩ := h
  rw [bind_eq_ok] at h
  obtain ⟨c, hc, h⟩ := h
  exact ⟨c, hnew, hbytes, hc, (pure_eq_ok.mp h).symm⟩

theorem submit_ok (h : l.submit id = .ok l') : ∃ e, l.entries.lookup id = some e ∧
    e.record.submitted = false ∧ e.record.acquired = false ∧
    l' = l.put id { e with record := { e.record with submitted := true } } := by
  unfold Ledger.submit at h
  cases he : l.entries.lookup id with
  | none => rw [he] at h; cases h
  | some e =>
    rw [he] at h
    dsimp only at h
    rw [check_bind_eq_ok, refuse_eq_ok, Bool.or_eq_false_iff, pure_eq_ok] at h
    exact ⟨e, rfl, h.1.1, h.1.2, h.2.symm⟩

/-- When a charge becomes acquired: it was submitted and not acquired, and the evidence is about
this very record and names the volume. -/
theorem acquire_ok {evidence : CompletionEvidence} (h : l.acquire id evidence = .ok l') :
    ∃ e, l.entries.lookup id = some e ∧ e.record.submitted = true ∧ e.record.acquired = false ∧
      evidence.stamp.generation ≠ 0 ∧ evidence.record.volumeID ≠ "" ∧
      { e.record with volumeID := evidence.record.volumeID } = evidence.record ∧
      l' = l.put id
        { record := { e.record with acquired := true, volumeID := evidence.record.volumeID }
          completion := some evidence } := by
  unfold Ledger.acquire at h
  cases he : l.entries.lookup id with
  | none => rw [he] at h; cases h
  | some e =>
    rw [he] at h
    dsimp only at h
    simp only [check_bind_eq_ok, refuse_eq_ok, Bool.or_eq_false_iff, Bool.not_eq_false',
      decide_eq_false_iff_not, not_not, pure_eq_ok] at h
    obtain ⟨⟨hsub, hacq⟩, ⟨⟨hgen, hvol⟩, hrec⟩, heq⟩ := h
    exact ⟨e, rfl, hsub, hacq, hgen, hvol, hrec, heq.symm⟩

theorem retain_ok (h : l.retain id = .ok l') : ∃ e, l.entries.lookup id = some e ∧
    e.record.acquired = true ∧
    l' = l.put id { e with record := { e.record with retained := true, reflected := false } } := by
  unfold Ledger.retain at h
  cases he : l.entries.lookup id with
  | none => rw [he] at h; cases h
  | some e =>
    rw [he] at h
    dsimp only at h
    rw [check_bind_eq_ok, refuse_eq_ok, Bool.not_eq_false', pure_eq_ok] at h
    exact ⟨e, rfl, h.1, h.2.symm⟩

theorem removePlanned_ok (h : l.removePlanned id = .ok l') : ∃ e, l.entries.lookup id = some e ∧
    e.record.submitted = false ∧ l' = { l with entries := l.entries.erase id } := by
  unfold Ledger.removePlanned at h
  cases he : l.entries.lookup id with
  | none => rw [he] at h; cases h
  | some e =>
    rw [he] at h
    dsimp only at h
    rw [check_bind_eq_ok, refuse_eq_ok, Bool.or_eq_false_iff, Bool.or_eq_false_iff,
      pure_eq_ok] at h
    exact ⟨e, rfl, h.1.1.1, h.2.symm⟩

end Calls

/-! ## 2. No over-commit -/

/-- One successful call of a planning sequence over one snapshot.  The map of a ledger has no
order, so it may be iterated in any order before each call. -/
inductive PlanStep (s : Snapshot) (l l' : Ledger) : Prop
  | withPlanned (charge : Charge) (h : l.withPlanned s charge = .ok l')
  | submit (id : String) (h : l.submit id = .ok l')
  | acquire (id : String) (evidence : CompletionEvidence) (h : l.acquire id evidence = .ok l')
  | removePlanned (id : String) (h : l.removePlanned id = .ok l')
  | reorder (h : Reordered l l')

/-- The invariant of a planning sequence. -/
structure Planned (s : Snapshot) (member domain : Map String UInt64) (l : Ledger) : Prop where
  siblingMember : l.siblingMember = member
  siblingDomain : l.siblingDomain = domain
  unreflected : ∀ r ∈ l.held, r.reflected = false
  within : Within s member domain l.held

namespace Planned

variable {s : Snapshot} {member domain : Map String UInt64} {l l' : Ledger}

theorem start : Planned s member domain (.withSiblings member domain) :=
  ⟨rfl, rfl, fun _ h => absurd h List.not_mem_nil, Within.nil⟩

/-- Replace one record by one that got further. -/
theorem put {id : String} {e e' : LedgerEntry} (h : Planned s member domain l)
    (he : l.entries.lookup id = some e) (hcharge : e'.record.charge = e.record.charge)
    (hkey : e'.record.capacityKey = e.record.capacityKey)
    (hdomain : e'.record.domainKey = e.record.domainKey)
    (hreflected : e'.record.reflected = e.record.reflected) :
    Planned s member domain (l.put id e') := by
  have hp := held_perm he
  refine ⟨h.siblingMember, h.siblingDomain, ?_, ?_⟩
  · rw [held_put]
    intro r hr
    rcases List.mem_cons.mp hr with rfl | hr
    · rw [hreflected]
      exact h.unreflected _ (hp.mem_iff.mpr List.mem_cons_self)
    · exact h.unreflected r (hp.mem_iff.mpr (List.mem_cons_of_mem _ hr))
  · rw [held_put]
    exact (h.within.perm hp).replace hcharge hkey hdomain

/-- A planning step keeps the bounds: the charge that is added was a candidate within them. -/
theorem step (h : Planned s member domain l) (hs : PlanStep s l l') :
    Planned s member domain l' := by
  cases hs with
  | withPlanned charge hw =>
    obtain ⟨c, hnew, _, hc, rfl⟩ := withPlanned_ok hw
    have hwithin := h.within
    rw [← h.siblingMember, ← h.siblingDomain] at hwithin
    have hadmitted := hwithin.admitted h.unreflected hc
    rw [h.siblingMember, h.siblingDomain] at hadmitted
    refine ⟨h.siblingMember, h.siblingDomain, ?_, ?_⟩
    · rw [held_put_new hnew]
      exact List.forall_mem_cons.mpr ⟨rfl, h.unreflected⟩
    · rw [held_put_new hnew]
      exact hadmitted
  | submit id hw =>
    obtain ⟨e, he, _, _, rfl⟩ := submit_ok hw
    exact h.put he rfl rfl rfl rfl
  | acquire id evidence hw =>
    obtain ⟨e, he, _, _, _, _, _, rfl⟩ := acquire_ok hw
    exact h.put he rfl rfl rfl rfl
  | removePlanned id hw =>
    obtain ⟨e, he, _, rfl⟩ := removePlanned_ok hw
    have hp := held_perm he
    refine ⟨h.siblingMember, h.siblingDomain, ?_, (h.within.perm hp).of_cons⟩
    intro r hr
    exact h.unreflected r (hp.mem_iff.mpr (List.mem_cons_of_mem _ hr))
  | reorder hw =>
    refine ⟨hw.siblingMember.trans h.siblingMember, hw.siblingDomain.trans h.siblingDomain, ?_,
      h.within.perm hw.held⟩
    intro r hr
    exact h.unreflected r (hw.held.mem_iff.mpr hr)

theorem reach (hr : Relation.ReflTransGen (PlanStep s) (.withSiblings member domain) l) :
    Planned s member domain l := by
  induction hr with
  | refl => exact start
  | tail _ hs ih => exact ih.step hs

end Planned

/-- The charge is on a storage of the domain. -/
def ofDomain (s : Snapshot) (domainKey : String) (r : ChargeRecord) : Bool :=
  decide (s.domainForStorage r.charge.storageID = domainKey)

/-- **No over-commit.**  After any sequence of successful calls, the charges on every capacity that
holds one, with the sibling bytes, are within its usable bytes under the strictest of their limits,
and so are the charges of the members of every declared domain; and no answer of `Candidate` depends
on the order in which it iterates over a ledger.  The bounds are the invariant at the end of the
sequence, by induction over the calls with `Within.admitted` at its heart.  That the order does not
matter is `Reordered.candidate_ok`. -/
theorem no_overcommit {s : Snapshot} {member domain : Map String UInt64} {l : Ledger}
    (h : Relation.ReflTransGen (PlanStep s) (.withSiblings member domain) l) :
    (∀ key, (∃ r ∈ l.held, r.capacityKey = key) → ∃ b, s.backing key = some b ∧
      charged (onKey key) l.held + (bytesAt member key).toNat ≤
        usableBytes b.totalBytes b.availableBytes (boundBy (onKey key) l.held)) ∧
    (∀ key, key ≠ "" → (∃ r ∈ l.held, ofDomain s key r = true) → ∃ d, s.domain key = some d ∧
      charged (ofDomain s key) l.held + (bytesAt domain key).toNat ≤
        usableBytes d.totalBytes d.availableBytes (boundBy (ofDomain s key) l.held)) ∧
    ∀ (l₁ l₂ : Ledger), Reordered l₁ l₂ → ∀ s node id bytes limit c,
      (l₁.candidate s node id bytes limit = .ok c ↔
        l₂.candidate s node id bytes limit = .ok c) := by
  have hp := Planned.reach h
  refine ⟨?_, ?_, ?_⟩
  · rintro key ⟨r, hr, rfl⟩
    exact hp.within.backing r hr
  · rintro key hkey ⟨r, hr, hof⟩
    have hsame : ∀ x ∈ l.held, ofDomain s key x = onDomain key x := by
      intro x hx
      obtain ⟨_, _, _, _, hd⟩ := hp.within.target x hx
      unfold ofDomain onDomain
      rw [hd]
      simp [hkey]
    have hd : r.domainKey = key := by
      have hon := hsame r hr
      rw [hof] at hon
      exact (of_decide_eq_true hon.symm).2
    obtain ⟨d, hdom, _, hfit⟩ := hp.within.domain r hr (hd ▸ hkey)
    rw [hd] at hdom hfit
    refine ⟨d, hdom, ?_⟩
    have hfilter : l.held.filter (ofDomain s key) = l.held.filter (onDomain key) :=
      List.filter_congr hsame
    unfold Fits charged boundBy at hfit
    unfold charged boundBy
    rw [hfilter]
    exact hfit
  · intro l₁ l₂ hre s' node id bytes limit c
    exact ⟨hre.candidate_ok, hre.symm.candidate_ok⟩

/-- One shared storage of a thousand bytes, half of them free, in a domain of its own. -/
def sampleSnapshot : Snapshot where
  domainForID := AList.singleton "nfs1" "filer"
  nodes := ["pve1"]
  maxAge := 60
  pairs := AList.singleton ("pve1", "nfs1")
    { node := "pve1", storageID := "nfs1", backingKey := "nfs://filer/a",
      capacityKey := "nfs://filer/a", totalBytes := 1000, availableBytes := 500,
      stamp := ⟨1, 7, 100, 110⟩ }
  backings := AList.singleton "nfs://filer/a"
    { key := "nfs://filer/a", totalBytes := 1000, availableBytes := 500,
      reports := [⟨1, 7, 100, 110⟩] }
  domains := AList.singleton "filer"
    { name := "filer", members := ["nfs1"], capacityKeys := ["nfs://filer/a"],
      totalBytes := 1000, availableBytes := 500, reports := [⟨1, 7, 100, 110⟩] }
  observedAt := 120
  keyed := by
    intro k p h _ hkey
    have hmem := AList.mem_lookup_iff.mp h
    rw [AList.singleton, List.mem_singleton] at hmem
    cases hmem
    exact absurd hkey (by decide)

def sampleCharge : Charge :=
  { id := "root", role := "root", node := "pve1", storageID := "nfs1", bytes := 300,
    limits := ⟨100, 90⟩ }

theorem no_overcommit_sample : ∃ l, Relation.ReflTransGen (PlanStep sampleSnapshot)
      (.withSiblings (AList.singleton "nfs://filer/a" 50) ∅) l ∧
    charged (onKey "nfs://filer/a") l.held = 300 ∧ ∃ b,
      sampleSnapshot.backing "nfs://filer/a" = some b ∧ 300 + 50 ≤
        usableBytes b.totalBytes b.availableBytes (boundBy (onKey "nfs://filer/a") l.held) := by
  have heval : ((Ledger.withSiblings (AList.singleton "nfs://filer/a" 50) ∅).withPlanned
      sampleSnapshot sampleCharge).toOption.any (fun l =>
        decide (charged (onKey "nfs://filer/a") l.held = 300) &&
          l.held.any fun r => decide (r.capacityKey = "nfs://filer/a")) = true := by
    decide
  obtain ⟨l, hl, hheld⟩ := (Option.any_eq_true _ _).mp heval
  rw [Bool.and_eq_true, decide_eq_true_eq, List.any_eq_true] at hheld
  obtain ⟨hsum, r, hr, hkey⟩ := hheld
  have hstep : (Ledger.withSiblings (AList.singleton "nfs://filer/a" 50) ∅).withPlanned
      sampleSnapshot sampleCharge = .ok l := toOption_eq_some.mp hl
  have hrun := Relation.ReflTransGen.single (PlanStep.withPlanned sampleCharge hstep)
  obtain ⟨b, hb, hfit⟩ := (no_overcommit hrun).1 _ ⟨r, hr, of_decide_eq_true hkey⟩
  refine ⟨l, hrun, hsum, b, hb, ?_⟩
  rw [hsum] at hfit
  exact hfit

/-! ## 3. No early release

`Keeps` follows a submitted charge from one ledger to the next.  A ledger that is restored keeps
what the records that it is given have; that the caller gives all of them is a premise of the
step. -/

/-- A charge with the flags of a submitted charge that awaits its completion. -/
def ChargeRecord.pending (r : ChargeRecord) : ChargeRecord :=
  { r with acquired := false, reflected := false, retained := false }

/-- An entry agrees with its evidence. -/
structure Sealed (e : LedgerEntry) : Prop where
  acquired : e.record.acquired = true → ∃ proof, e.completion = some proof ∧
    proof.record = e.record.pending ∧ proof.stamp.generation ≠ 0
  waiting : e.record.acquired = false → e.record = e.record.pending

/-- A list of records still has every charge that the ledger submitted. -/
def Journaled (l : Ledger) (records : List ChargeRecord) : Prop :=
  ∀ r ∈ l.held, r.submitted = true → ∃ x ∈ records, x.charge = r.charge ∧ x.submitted = true

/-- One successful call.  A ledger is restored from what the journal kept of it. -/
inductive LedgerStep (l l' : Ledger) : Prop
  | withPlanned (s : Snapshot) (charge : Charge) (h : l.withPlanned s charge = .ok l')
  | submit (id : String) (h : l.submit id = .ok l')
  | acquire (id : String) (evidence : CompletionEvidence) (h : l.acquire id evidence = .ok l')
  | retain (id : String) (h : l.retain id = .ok l')
  | removePlanned (id : String) (h : l.removePlanned id = .ok l')
  | refresh (s : Snapshot) (now : Time) (h : l.refresh s now = .ok l')
  | restore (s : Snapshot) (records : List ChargeRecord) (proofs : Map String CompletionEvidence)
      (now : Time) (hkept : Journaled l records) (h : restoreLedger s records proofs now = .ok l')
  | reorder (h : Reordered l l')

/-- How a ledger begins: empty, or restored from any records. -/
inductive LedgerStart (l : Ledger) : Prop
  | new (member domain : Map String UInt64) (h : l = .withSiblings member domain)
  | restored (s : Snapshot) (records : List ChargeRecord) (proofs : Map String CompletionEvidence)
      (now : Time) (h : restoreLedger s records proofs now = .ok l)

/-- Every entry of a ledger is sealed. -/
def Ledger.AllSealed (l : Ledger) : Prop := ∀ e ∈ l.entries.entries, Sealed e.2

section Refresh

variable {s : Snapshot} {now : Time}

/-- What a refresh changes of an entry: the flag of an acquired charge. -/
theorem refreshEntry_ok {e e' : LedgerEntry} (h : Ledger.refreshEntry s now e = .ok e') :
    ∃ b, (e.record.acquired = false → b = e.record.reflected) ∧
      e' = { e with record := { e.record with reflected := b } } := by
  unfold Ledger.refreshEntry at h
  rw [check_bind_eq_ok, check_bind_eq_ok] at h
  obtain ⟨_, _, h⟩ := h
  split_ifs at h with hacq
  · rw [pure_eq_ok] at h
    exact ⟨e.record.reflected, fun _ => rfl, h.symm⟩
  · rw [pure_eq_ok] at h
    refine ⟨_, ?_, h.symm⟩
    intro hfalse
    rw [hfalse] at hacq
    exact absurd rfl hacq

/-- A refresh goes through the entries one by one and keeps their keys. -/
theorem refreshEntries_ok {es es' : List (Σ _ : String, LedgerEntry)}
    (h : Ledger.refreshEntries s now es = .ok es') :
    List.Forall₂ (fun e e' => e'.1 = e.1 ∧ Ledger.refreshEntry s now e.2 = .ok e'.2) es es' := by
  induction es generalizing es' with
  | nil =>
    rw [Ledger.refreshEntries, pure_eq_ok] at h
    subst h
    exact .nil
  | cons e es ih =>
    rw [Ledger.refreshEntries, bind_eq_ok] at h
    obtain ⟨x, hx, h⟩ := h
    rw [bind_eq_ok] at h
    obtain ⟨xs, hxs, h⟩ := h
    rw [pure_eq_ok] at h
    subst h
    exact .cons ⟨rfl, hx⟩ (ih hxs)

theorem forall₂_mem_left {α β : Type} {R : α → β → Prop} {as : List α} {bs : List β}
    (h : List.Forall₂ R as bs) : ∀ a ∈ as, ∃ b ∈ bs, R a b := by
  induction h with
  | nil => exact fun _ h => absurd h List.not_mem_nil
  | cons hab _ ih =>
    refine List.forall_mem_cons.mpr ⟨⟨_, List.mem_cons_self, hab⟩, ?_⟩
    intro a ha
    obtain ⟨b, hb, hR⟩ := ih a ha
    exact ⟨b, List.mem_cons_of_mem _ hb, hR⟩

theorem refreshEntries_keys {es es' : List (Σ _ : String, LedgerEntry)}
    (h : List.Forall₂ (fun e e' => e'.1 = e.1 ∧ Ledger.refreshEntry s now e.2 = .ok e'.2) es es') :
    es'.keys = es.keys := by
  induction h with
  | nil => rfl
  | cons hab _ ih => rw [List.keys_cons, List.keys_cons, hab.1, ih]

/-- A refresh keeps every entry, under its key. -/
theorem refresh_ok {l l' : Ledger} (h : l.refresh s now = .ok l') :
    (∀ x' ∈ l'.entries.entries, ∃ x ∈ l.entries.entries,
      Ledger.refreshEntry s now x.2 = .ok x'.2) ∧
    ∀ x ∈ l.entries.entries, ∃ x' ∈ l'.entries.entries,
      Ledger.refreshEntry s now x.2 = .ok x'.2 := by
  unfold Ledger.refresh at h
  rw [bind_eq_ok] at h
  obtain ⟨es, hes, h⟩ := h
  rw [pure_eq_ok] at h
  subst h
  have hall := refreshEntries_ok hes
  have hkeys := refreshEntries_keys hall
  have hnodup : es.NodupKeys := by
    unfold List.NodupKeys
    rw [hkeys]
    exact l.entries.nodupKeys
  constructor
  · intro x' hx'
    have hlookup : es.dedupKeys.dlookup x'.1 = some x'.2 :=
      List.mem_dlookup (List.nodupKeys_dedupKeys es) hx'
    rw [List.dlookup_dedupKeys] at hlookup
    obtain ⟨x, hx, _, hR⟩ := forall₂_mem_left hall.flip x' (List.of_mem_dlookup hlookup)
    exact ⟨x, hx, hR⟩
  · intro x hx
    obtain ⟨x', hx', _, hR⟩ := forall₂_mem_left hall x hx
    have hlookup : es.dlookup x'.1 = some x'.2 := List.mem_dlookup hnodup hx'
    rw [← List.dlookup_dedupKeys] at hlookup
    exact ⟨x', List.of_mem_dlookup hlookup, hR⟩

end Refresh

/-- A restored record keeps its charge, and is sealed. -/
theorem restoreRecord_ok {s : Snapshot} {proofs : Map String CompletionEvidence} {l l' : Ledger}
    {r : ChargeRecord} (h : restoreRecord s proofs l r = .ok l') :
    ∃ e, l.entries.lookup r.charge.id = none ∧ e.record.charge = r.charge ∧
      e.record.submitted = r.submitted ∧ Sealed e ∧ l' = l.put r.charge.id e := by
  unfold restoreRecord at h
  rw [check_bind_eq_ok, check_bind_eq_ok, refuse_eq_ok, refuse_eq_ok,
    Option.isSome_eq_false_iff, Option.isNone_iff_eq_none] at h
  obtain ⟨_, hnew, h⟩ := h
  rw [bind_eq_ok] at h
  obtain ⟨_, _, h⟩ := h
  rw [check_bind_eq_ok] at h
  obtain ⟨_, h⟩ := h
  split_ifs at h with hacq
  · cases hproof : proofs.lookup r.charge.id with
    | none => rw [hproof] at h; cases h
    | some proof =>
      rw [hproof] at h
      dsimp only at h
      simp only [check_bind_eq_ok, refuse_eq_ok, Bool.or_eq_false_iff, Bool.not_eq_false',
        decide_eq_false_iff_not, not_not, pure_eq_ok] at h
      obtain ⟨_, ⟨hgen, hrec⟩, heq⟩ := h
      refine ⟨{ record := { r with reflected := false }, completion := some proof }, hnew, rfl,
        rfl, ⟨fun _ => ⟨proof, rfl, hrec, hgen⟩, ?_⟩, heq.symm⟩
      intro hfalse
      exact absurd hacq (by rw [show r.acquired = false from hfalse]; decide)
  · rw [check_bind_eq_ok, refuse_eq_ok, Bool.or_eq_false_iff, Bool.or_eq_false_iff,
      decide_eq_false_iff_not, pure_eq_ok] at h
    obtain ⟨⟨⟨_, _⟩, hret⟩, heq⟩ := h
    have hacq : r.acquired = false := by simpa using hacq
    refine ⟨_, hnew, rfl, rfl, ⟨fun htrue => ?_, fun _ => ?_⟩, heq.symm⟩
    · rw [show r.acquired = true from htrue] at hacq
      cases hacq
    · simp only [ChargeRecord.pending, hacq, hret]

namespace Ledger

variable {l l' : Ledger} {id : String} {e e' : LedgerEntry}

theorem AllSealed.put (h : l.AllSealed) (he : Sealed e) : (l.put id e).AllSealed := by
  refine List.forall_mem_cons.mpr ⟨he, ?_⟩
  intro x hx
  exact h x (List.Sublist.subset (List.kerase_sublist id _) hx)

theorem AllSealed.lookup (h : l.AllSealed) (he : l.entries.lookup id = some e) : Sealed e :=
  h _ (AList.mem_lookup_iff.mp he)

/-- Every submitted charge of `l` is in `l'`, and submitted there. -/
def Keeps (l l' : Ledger) : Prop := Journaled l l'.held

theorem Keeps.refl (l : Ledger) : l.Keeps l := fun r hr hsub => ⟨r, hr, rfl, hsub⟩

theorem Keeps.trans {l'' : Ledger} (h : l.Keeps l') (h' : l'.Keeps l'') : l.Keeps l'' := by
  intro r hr hsub
  obtain ⟨x, hx, hcharge, hsub⟩ := h r hr hsub
  obtain ⟨y, hy, hcharge', hsub⟩ := h' x hx hsub
  exact ⟨y, hy, hcharge'.trans hcharge, hsub⟩

theorem Keeps.put_new (h : l.entries.lookup id = none) : l.Keeps (l.put id e) := by
  intro r hr hsub
  rw [held_put_new h]
  exact ⟨r, List.mem_cons_of_mem _ hr, rfl, hsub⟩

theorem Keeps.put (he : l.entries.lookup id = some e) (hcharge : e'.record.charge = e.record.charge)
    (hsub : e.record.submitted = true → e'.record.submitted = true) : l.Keeps (l.put id e') := by
  intro r hr hr'
  rw [held_put]
  rcases List.mem_cons.mp ((held_perm he).mem_iff.mp hr) with rfl | hr
  · exact ⟨e'.record, List.mem_cons_self, hcharge, hsub hr'⟩
  · exact ⟨r, List.mem_cons_of_mem _ hr, rfl, hr'⟩

end Ledger

/-- Restoring record after record keeps what was restored, and every submitted record is held at the
end.  The induction is on the records. -/
theorem restoreRecords_ok {s : Snapshot} {proofs : Map String CompletionEvidence}
    {records : List ChargeRecord} {l l' : Ledger} (hl : l.AllSealed)
    (h : records.foldlM (restoreRecord s proofs) l = .ok l') :
    l'.AllSealed ∧ l.Keeps l' ∧
      ∀ r ∈ records, r.submitted = true → ∃ x ∈ l'.held, x.charge = r.charge ∧
        x.submitted = true := by
  induction records generalizing l with
  | nil =>
    rw [List.foldlM_nil, pure_eq_ok] at h
    subst h
    exact ⟨hl, .refl l, fun _ h => absurd h List.not_mem_nil⟩
  | cons r rs ih =>
    rw [List.foldlM_cons, bind_eq_ok] at h
    obtain ⟨m, hm, h⟩ := h
    obtain ⟨e, hnew, hcharge, hsub, hsealed, rfl⟩ := restoreRecord_ok hm
    obtain ⟨hsealed', hkeeps, hrest⟩ := ih (hl.put hsealed) h
    refine ⟨hsealed', (Ledger.Keeps.put_new hnew).trans hkeeps,
      List.forall_mem_cons.mpr ⟨?_, hrest⟩⟩
    intro hr
    obtain ⟨x, hx, hxc, hxs⟩ := hkeeps e.record (by rw [held_put]; exact List.mem_cons_self)
      (hsub.trans hr)
    exact ⟨x, hx, hxc.trans hcharge, hxs⟩

/-- A refresh keeps seals and charges. -/
theorem refresh_keeps {s : Snapshot} {now : Time} {l l' : Ledger} (hl : l.AllSealed)
    (h : l.refresh s now = .ok l') : l'.AllSealed ∧ l.Keeps l' := by
  obtain ⟨hback, hforth⟩ := refresh_ok h
  constructor
  · intro x' hx'
    obtain ⟨x, hx, hR⟩ := hback x' hx'
    obtain ⟨b, hb, heq⟩ := refreshEntry_ok hR
    have hsealed := hl x hx
    rw [heq]
    refine ⟨hsealed.acquired, fun hacq => ?_⟩
    have hw := hsealed.waiting hacq
    have hbf := hb hacq
    subst hbf
    exact hw
  · intro r hr hsub
    obtain ⟨x, hx, rfl⟩ := List.mem_map.mp hr
    obtain ⟨x', hx', hR⟩ := hforth x hx
    obtain ⟨b, _, heq⟩ := refreshEntry_ok hR
    refine ⟨x'.2.record, List.mem_map_of_mem hx', ?_⟩
    rw [heq]
    exact ⟨rfl, hsub⟩

/-- No submitted record is lost by a restore. -/
theorem restoreLedger_ok {s : Snapshot} {records : List ChargeRecord}
    {proofs : Map String CompletionEvidence} {now : Time} {l : Ledger}
    (h : restoreLedger s records proofs now = .ok l) : l.AllSealed ∧
      ∀ r ∈ records, r.submitted = true → ∃ x ∈ l.held, x.charge = r.charge ∧
        x.submitted = true := by
  unfold restoreLedger at h
  rw [check_bind_eq_ok] at h
  obtain ⟨_, h⟩ := h
  rw [bind_eq_ok] at h
  obtain ⟨m, hm, h⟩ := h
  rw [check_bind_eq_ok] at h
  obtain ⟨_, h⟩ := h
  rw [bind_eq_ok] at h
  obtain ⟨m', hm', h⟩ := h
  rw [check_bind_eq_ok, pure_eq_ok] at h
  obtain ⟨_, rfl⟩ := h
  obtain ⟨hsealed, _, hkept⟩ :=
    restoreRecords_ok (fun _ h => absurd h List.not_mem_nil) hm
  obtain ⟨hsealed', hkeeps⟩ := refresh_keeps hsealed hm'
  refine ⟨hsealed', ?_⟩
  intro r hr hsub
  obtain ⟨x, hx, hcharge, hxs⟩ := hkept r hr hsub
  obtain ⟨y, hy, hcharge', hys⟩ := hkeeps x hx hxs
  exact ⟨y, hy, hcharge'.trans hcharge, hys⟩

/-- One call keeps seals and submitted charges. -/
theorem LedgerStep.keeps {l l' : Ledger} (hl : l.AllSealed) (h : LedgerStep l l') :
    l'.AllSealed ∧ l.Keeps l' := by
  cases h with
  | withPlanned s charge h =>
    obtain ⟨c, hnew, _, _, rfl⟩ := withPlanned_ok h
    exact ⟨hl.put ⟨fun hacq => (by cases hacq), fun _ => rfl⟩, .put_new hnew⟩
  | submit id h =>
    obtain ⟨e, he, _, hacq, rfl⟩ := submit_ok h
    have hw := (hl.lookup he).waiting hacq
    refine ⟨hl.put ⟨fun htrue => ?_, fun _ => ?_⟩, .put he rfl fun _ => rfl⟩
    · rw [show e.record.acquired = true from htrue] at hacq
      cases hacq
    · rw [hw]
      rfl
  | acquire id evidence h =>
    obtain ⟨e, he, hsub, hacq, hgen, _, hrec, rfl⟩ := acquire_ok h
    have hw := (hl.lookup he).waiting hacq
    refine ⟨hl.put ⟨fun _ => ⟨evidence, rfl, ?_, hgen⟩, fun hfalse => (by cases hfalse)⟩,
      .put he rfl fun h => h⟩
    -- What was waiting carries no other flag, so the evidence names the charge as it stands.
    rw [← hrec, hw]
    rfl
  | retain id h =>
    obtain ⟨e, he, hacq, rfl⟩ := retain_ok h
    refine ⟨hl.put ⟨fun _ => (hl.lookup he).acquired hacq, fun hfalse => ?_⟩,
      .put he rfl fun h => h⟩
    rw [show e.record.acquired = false from hfalse] at hacq
    cases hacq
  | removePlanned id h =>
    obtain ⟨e, he, hsub, rfl⟩ := removePlanned_ok h
    constructor
    · intro x hx
      exact hl x (List.Sublist.subset (List.kerase_sublist id _) hx)
    · intro r hr hr'
      rcases List.mem_cons.mp ((held_perm he).mem_iff.mp hr) with rfl | hr
      · rw [hsub] at hr'
        cases hr'
      · exact ⟨r, hr, rfl, hr'⟩
  | refresh s now h => exact refresh_keeps hl h
  | restore s records proofs now hkept h =>
    obtain ⟨hsealed, hall⟩ := restoreLedger_ok h
    refine ⟨hsealed, ?_⟩
    intro r hr hsub
    obtain ⟨x, hx, hcharge, hxs⟩ := hkept r hr hsub
    obtain ⟨y, hy, hcharge', hys⟩ := hall x hx hxs
    exact ⟨y, hy, hcharge'.trans hcharge, hys⟩
  | reorder h =>
    constructor
    · intro x hx
      exact hl x (h.entries.mem_iff.mpr hx)
    · intro r hr hsub
      exact ⟨r, h.held.mem_iff.mp hr, rfl, hsub⟩

theorem LedgerStart.allSealed {l : Ledger} (h : LedgerStart l) : l.AllSealed := by
  cases h with
  | new member domain h =>
    subst h
    exact fun _ h => absurd h List.not_mem_nil
  | restored s records proofs now h => exact (restoreLedger_ok h).1

theorem runs_keep {l l' : Ledger} (hl : l.AllSealed) (h : Relation.ReflTransGen LedgerStep l l') :
    l'.AllSealed ∧ l.Keeps l' := by
  induction h with
  | refl => exact ⟨hl, .refl l⟩
  | tail _ hs ih =>
    obtain ⟨hsealed, hkeeps⟩ := hs.keeps ih.1
    exact ⟨hsealed, ih.2.trans hkeeps⟩

/-- A report made after a completion: by the same collector, in a later request that began when
the completion was over. -/
structure Follows (proof : CompletionEvidence) (stamp : ObservationStamp) : Prop where
  epoch : stamp.epoch = proof.stamp.epoch
  generation : proof.stamp.generation < stamp.generation
  startedAt : proof.stamp.completedAt ≤ stamp.startedAt

/-- The bytes of an entry are in the observation: the charge was acquired, its evidence names this
charge and volume, and every report behind its capacity, and behind its domain when it has one,
was made after the completion. -/
def Observed (s : Snapshot) (e : LedgerEntry) : Prop :=
  e.record.acquired = true ∧ ∃ proof, e.completion = some proof ∧
    proof.record = e.record.pending ∧
    (∃ b, s.backing e.record.capacityKey = some b ∧ ∀ stamp ∈ b.reports, Follows proof stamp) ∧
    (e.record.domainKey ≠ "" → ∃ d, s.domain e.record.domainKey = some d ∧
      ∀ stamp ∈ d.reports, Follows proof stamp)

theorem follows_of_reportAfter {s : Snapshot} {proof : CompletionEvidence} {now : Time}
    {stamp : ObservationStamp} (h : reportAfter s proof.stamp now stamp = true) :
    Follows proof stamp := by
  unfold reportAfter at h
  simp only [Bool.and_eq_true, decide_eq_true_eq, Bool.not_eq_true', decide_eq_false_iff_not] at h
  obtain ⟨⟨⟨hepoch, hgen⟩, hstart⟩, _⟩ := h
  exact ⟨hepoch, hgen, Int.not_lt.mp hstart⟩

/-- A charge is taken for reflected only when the snapshot was begun after its completion; the seal
of the entry says that the evidence is there. -/
theorem observed_of_reflectedIn {s : Snapshot} {e : LedgerEntry} {now : Time} (hs : Sealed e)
    (hr : e.record.reflected = true) (h : reflectedIn s e now = true) : Observed s e := by
  have hacq : e.record.acquired = true := by
    cases hacq : e.record.acquired with
    | true => rfl
    | false =>
      rw [hs.waiting hacq] at hr
      cases hr
  obtain ⟨proof, hproof, hrec, _⟩ := hs.acquired hacq
  refine ⟨hacq, proof, hproof, hrec, ?_⟩
  have hbarrier : e.barrier = proof.stamp := by
    unfold LedgerEntry.barrier
    rw [hproof]
    rfl
  unfold reflectedIn at h
  cases hc : contributing s e.record with
  | none => rw [hc] at h; cases h
  | some reports =>
    rw [hc] at h
    dsimp only at h
    rw [Bool.and_eq_true, List.all_eq_true, hbarrier] at h
    have hall (stamp : ObservationStamp) (hm : stamp ∈ reports) : Follows proof stamp :=
      follows_of_reportAfter (h.2 stamp hm)
    unfold contributing at hc
    obtain ⟨b, hb, hc⟩ := Option.bind_eq_some_iff.mp hc
    split_ifs at hc with hd
    · cases hc
      exact ⟨⟨b, hb, hall⟩, fun hne => absurd hd hne⟩
    · obtain ⟨d, hdom, hc⟩ := Option.bind_eq_some_iff.mp hc
      split_ifs at hc
      cases hc
      exact ⟨⟨b, hb, fun stamp hm => hall stamp (List.mem_append_left _ hm)⟩,
        fun _ => ⟨d, hdom, fun stamp hm => hall stamp (List.mem_append_right _ hm)⟩⟩

/-- The sum of what counts, over the entries that do. -/
theorem tally_entries (p : ChargeRecord → Bool) (es : List LedgerEntry) :
    tally p (es.map fun e => e.record) =
      (((es.filter fun e => p e.record).filter fun e => !e.record.reflected).map
        fun e => e.record.charge.bytes.toNat).sum := by
  induction es with
  | nil => rfl
  | cons e es ih =>
    rw [List.map_cons, tally_cons, ih, List.filter_cons]
    split_ifs with hp
    · rw [List.filter_cons]
      unfold ChargeRecord.counted
      cases hr : e.record.reflected with
      | true => simp
      | false => simp
    · rw [Nat.zero_add]

/-- **No early release.**  A charge that was submitted is in every later ledger; and when
`Candidate` succeeds, the bytes of an entry on the same capacity are outstanding, unless the
observation followed the completion that the entry was sealed with.  The first half is the induction
over the calls.  For the second, `Candidate` counts an entry exactly when it is not reflected in the
snapshot at hand, and by the seal a reflected entry was observed after its completion. -/
theorem no_early_release {l₀ l : Ledger} (h₀ : LedgerStart l₀)
    (h : Relation.ReflTransGen LedgerStep l₀ l) :
    (∀ l', Relation.ReflTransGen LedgerStep l l' → ∀ r ∈ l.held, r.submitted = true →
      ∃ r' ∈ l'.held, r'.charge = r.charge ∧ r'.submitted = true) ∧
    ∀ s node id bytes limit c, l.candidate s node id bytes limit = .ok c →
      ∃ counted omitted : List LedgerEntry,
        ((l.entries.entries.map fun e => e.2).filter fun e =>
          onKey c.backingKey e.record).Perm (counted ++ omitted) ∧
        c.member.outstandingBytes.toNat =
          (counted.map fun e => e.record.charge.bytes.toNat).sum +
            (bytesAt l.siblingMember c.backingKey).toNat ∧
        ∀ e ∈ omitted, Observed s e := by
  have hsealed := (runs_keep h₀.allSealed h).1
  constructor
  · intro l' hl' r hr hsub
    exact (runs_keep hsealed hl').2 r hr hsub
  · intro s node id bytes limit c hc
    obtain ⟨p, b, sums, hb⟩ := candidate_iff.mp hc
    rw [hb.backingKey_eq]
    refine ⟨((l.entries.entries.map fun e => e.2).filter fun e =>
        onKey p.capacityKey e.record).filter fun e => !e.record.reflected,
      ((l.entries.entries.map fun e => e.2).filter fun e =>
        onKey p.capacityKey e.record).filter fun e => e.record.reflected, ?_, ?_, ?_⟩
    · refine (List.perm_append_comm.trans ?_).symm
      exact List.filter_append_perm _ _
    · rw [hb.member_eq, ← tally_entries, List.map_map]
      exact hb.summed.memberOutstanding
    · intro e he
      obtain ⟨he, hr⟩ := List.mem_filter.mp he
      obtain ⟨x, hx, rfl⟩ := List.mem_map.mp (List.mem_filter.mp he).1
      exact observed_of_reflectedIn (hsealed x hx) hr ((hb.summed.current x hx).reflected hr)

/-- The completion of the sample charge, before the sample snapshot was taken. -/
def sampleEvidence : CompletionEvidence where
  record := { charge := sampleCharge, capacityKey := "nfs://filer/a", domainKey := "filer",
              volumeID := "nfs1:100/vm-100-disk-0", submitted := true }
  stamp := ⟨1, 3, 50, 60⟩

/-- Plan, submit, acquire and refresh the sample charge. -/
def sampleLedger : Except LedgerErr Ledger := do
  let l ← (Ledger.withSiblings ∅ ∅).withPlanned sampleSnapshot sampleCharge
  let l ← l.submit "root"
  let l ← l.acquire "root" sampleEvidence
  l.refresh sampleSnapshot 120

theorem sampleLedger_run {l : Ledger} (h : sampleLedger = .ok l) :
    Relation.ReflTransGen LedgerStep (.withSiblings ∅ ∅) l := by
  unfold sampleLedger at h
  obtain ⟨l₁, h₁, h⟩ := bind_eq_ok.mp h
  obtain ⟨l₂, h₂, h⟩ := bind_eq_ok.mp h
  obtain ⟨l₃, h₃, h₄⟩ := bind_eq_ok.mp h
  exact (((Relation.ReflTransGen.single (.withPlanned _ _ h₁)).tail (.submit _ h₂)).tail
    (.acquire _ _ h₃)).tail (.refresh _ _ h₄)

theorem no_early_release_sample : ∃ (l : Ledger) (c : EligibleCandidate),
    LedgerStart (.withSiblings ∅ ∅) ∧
    Relation.ReflTransGen LedgerStep (.withSiblings ∅ ∅) l ∧
    l.candidate sampleSnapshot "pve1" "nfs1" 10 {} = .ok c ∧ c.member.outstandingBytes = 0 ∧
    ∃ e, Observed sampleSnapshot e ∧ e.record.charge = sampleCharge := by
  have heval : sampleLedger.toOption.any (fun l =>
      (l.candidate sampleSnapshot "pve1" "nfs1" 10 {}).toOption.any (fun c =>
        decide (c.member.outstandingBytes = 0) &&
        decide ((((l.entries.entries.map fun e => e.2).filter fun e =>
          onKey c.backingKey e.record).map fun e => e.record.charge) = [sampleCharge]))) =
            true := by
    decide
  obtain ⟨l, hl, hc⟩ := (Option.any_eq_true _ _).mp heval
  obtain ⟨c, hc, hout⟩ := (Option.any_eq_true _ _).mp hc
  simp only [Bool.and_eq_true, decide_eq_true_eq] at hout
  obtain ⟨hout, hcharges⟩ := hout
  have hrun := sampleLedger_run (toOption_eq_some.mp hl)
  have hstart : LedgerStart (.withSiblings ∅ ∅) := .new ∅ ∅ rfl
  have hcand := toOption_eq_some.mp hc
  obtain ⟨counted, omitted, hperm, hsum, hobs⟩ :=
    (no_early_release hstart hrun).2 _ _ _ _ _ _ hcand
  refine ⟨l, c, hstart, hrun, hcand, hout, ?_⟩
  have hmap : (counted ++ omitted).map (fun e => e.record.charge) = [sampleCharge] :=
    List.perm_singleton.mp (hcharges ▸ (hperm.map fun e => e.record.charge).symm)
  rw [hout] at hsum
  cases counted with
  | cons e es =>
    -- A counted entry would leave its three hundred bytes outstanding.
    rw [List.cons_append, List.map_cons] at hmap
    have he : e.record.charge = sampleCharge := (List.cons.inj hmap).1
    rw [List.map_cons, List.sum_cons, he] at hsum
    have h300 : sampleCharge.bytes.toNat = 300 := rfl
    have hzero : (0 : UInt64).toNat = 0 := rfl
    omega
  | nil =>
    rw [List.nil_append] at hmap
    cases omitted with
    | nil => cases hmap
    | cons e es => exact ⟨e, hobs e List.mem_cons_self, (List.cons.inj hmap).1⟩

end Storage
