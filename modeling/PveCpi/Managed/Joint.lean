/-
# First placements are admitted together

While a first placement plans, the bytes of everything in flight and the bytes of its own plan fit
on every capacity and every domain that it charges (`joint_admission`), whatever the other first
placements do in the meantime.  The journal's part is `Planning`: the list that the callback was
given covers the directory.  The planner's part is that the scan of that list becomes the bytes of
siblings that every charge is admitted with (`plan_beside`).

A blank domain is no domain.  Every capacity that a snapshot can use has a key.

The bytes of siblings that a plan was admitted with are those of the LISTED records at the moment of
listing; the statement is about those in flight NOW.  Between the two stands `inFlight_le`: whatever
charges now was listed as charging with the same plan, so the sum over the present is at most the
sum over the list.  Records have different names, so no listed record is used twice.

The shares of the scan are at least what the plans charge (`plannedBytes_le`), and this is the only
thing about the scan that matters: to overstate is safe.
-/
import PveCpi.Managed.Planning
import PveCpi.Journal.Guarantees

namespace Managed

open Lib.Interleave
open Lib.Check
open Storage
open Journal (Record World Planning Intent)

/-! ## 1. Sums over matched lists -/

/-- Every element of a list without equal keys is matched by one of another list under its key,
which weighs no less. -/
theorem sum_le_of_keyed {α β K : Type} (key : α → K) (key' : β → K) {f : α → Nat} {g : β → Nat}
    {l : List α}
    {l' : List β} (hnodup : (l.map key).Nodup) (h : ∀ a ∈ l, ∃ b ∈ l', key' b = key a ∧ f a ≤ g b) :
    (l.map f).sum ≤ (l'.map g).sum := by
  induction l generalizing l' with
  | nil => exact Nat.zero_le _
  | cons a l ih =>
    rw [List.map_cons, List.nodup_cons] at hnodup
    obtain ⟨b, hb, hkey, hle⟩ := h a List.mem_cons_self
    obtain ⟨l₁, l₂, rfl⟩ := List.append_of_mem hb
    have hrest : (l.map f).sum ≤ ((l₁ ++ l₂).map g).sum := by
      refine ih hnodup.2 fun a' ha' => ?_
      obtain ⟨b', hb', hkey', hle'⟩ := h a' (List.mem_cons_of_mem _ ha')
      refine ⟨b', ?_, hkey', hle'⟩
      rcases List.mem_append.mp hb' with hb' | hb'
      · exact List.mem_append_left _ hb'
      · rcases List.mem_cons.mp hb' with rfl | hb'
        · -- The two elements would have one key.
          refine absurd ?_ hnodup.1
          rw [← hkey, hkey']
          exact List.mem_map_of_mem ha'
        · exact List.mem_append_right _ hb'
    simp only [List.map_cons, List.map_append, List.sum_cons, List.sum_append] at hrest ⊢
    omega

/-! ## 2. The plan beside the list it was given

From the scan to the bytes of siblings, and from there by the feasibility of plans to the bounds. -/

section Beside

variable {decode : Decoder} {k : String}

theorem planOn_eq (hk : k ≠ "") (plan : StorageAllocationPlan) :
    planOn plan k = charged (onKey k) plan.charges := by
  unfold planOn bytesOn charged
  induction plan.charges with
  | nil => rfl
  | cons c cs ih =>
    rw [List.map_cons, List.sum_cons, ih, claim_key hk, List.filter_cons]
    by_cases hc : c.capacityKey = k
    · simp [onKey, hc]
    · simp [onKey, hc, Ne.symm hc]

theorem planOnDomain_eq (hk : k ≠ "") (plan : StorageAllocationPlan) :
    planOnDomain plan k = charged (onDomain k) plan.charges := by
  unfold planOnDomain bytesOn charged
  induction plan.charges with
  | nil => rfl
  | cons c cs ih =>
    rw [List.map_cons, List.sum_cons, ih, claim_key hk, List.filter_cons]
    by_cases hc : c.domainKey = k
    · simp [onDomain, hk, hc]
    · simp [onDomain, hc, Ne.symm hc]

/-- The bytes that a plan charges are part of the share of its record. -/
theorem plannedBytes_le (hk : k ≠ "") (snapshotStart : Journal.Time) (r : Record) :
    plannedBytes decode (onKey k) r ≤ memberShare decode snapshotStart r k ∧
      plannedBytes decode (onDomain k) r ≤ domainShare decode snapshotStart r k := by
  unfold plannedBytes memberShare domainShare
  cases siblingStorageAllocationPlan decode r with
  | error e => exact ⟨Nat.zero_le _, Nat.zero_le _⟩
  | ok plan =>
    refine ⟨?_, ?_⟩
    · show charged (onKey k) plan.charges ≤ shareOf r plan snapshotStart k
      rw [← planOn_eq hk]
      exact le_max_left _ _
    · show charged (onDomain k) plan.charges ≤ shareOfDomain r plan snapshotStart k
      rw [← planOnDomain_eq hk]
      exact le_max_left _ _

/-- The bytes that the decoded plans of the charging records of a list charge. -/
def besideBytes (decode : Decoder) (self : String) (p : ChargeRecord → Bool)
    (records : List Record) : Nat :=
  ((records.filter (chargesFor self)).map (plannedBytes decode p)).sum

/-- A charge is on a pair that can be used, and the capacity of such a pair has a key. -/
theorem within_keyed {s : Snapshot} {member domain : Map String UInt64} {rs : List ChargeRecord}
    (h : Within s member domain rs) {r : ChargeRecord} (hr : r ∈ rs) : r.capacityKey ≠ "" := by
  obtain ⟨p, hpair, hreason, hkey, -⟩ := h.target r hr
  rw [hkey]
  exact s.keyed _ p hpair hreason

/-- What a plan that was returned went through: the scan of the list, and the first plan of the
search. -/
theorem plan_eq_ok {p : ManagedVMFirstPlacement} {id : String} {siblings : List Record}
    {plan : StorageAllocationPlan} {intent : Intent}
    (h : p.plan decode id siblings = .ok (plan, intent)) :
    ∃ s req i, siblingCharges decode p.ranges siblings id p.prepared.group
        (managedVMAntiAffinityScope p.prepared.selection) p.prepared.snapshotStart = .ok s ∧
      req.inventory = p.prepared.request.inventory ∧ req.siblingMemberBytes = s.bytes.member ∧
      req.siblingDomainBytes = s.bytes.domain ∧ Iterator.Reached req i ∧
        (i.next p.env).1 = .ok plan := by
  obtain ⟨prepared, hprepared, h⟩ := bind_eq_ok.mp h
  obtain ⟨s, hs, hprepared⟩ := bind_eq_ok.mp (mapError_eq_ok.mp hprepared)
  cases hprepared
  obtain ⟨plan', hplan, h⟩ := bind_eq_ok.mp h
  obtain ⟨_, -, h⟩ := bind_eq_ok.mp h
  obtain ⟨intent', -, h⟩ := bind_eq_ok.mp h
  cases h
  obtain ⟨i, hi, hplan⟩ := bind_eq_ok.mp hplan
  obtain ⟨plan', hnext, hplan⟩ := bind_eq_ok.mp hplan
  obtain ⟨_, -, hplan⟩ := bind_eq_ok.mp hplan
  cases hplan
  have hnew := mapError_eq_ok.mp hi
  refine ⟨s, _, i, hs, ?_, ?_, ?_, ⟨p.newSeed, i, hnew, .refl⟩, mapError_eq_ok.mp hnext⟩
  · rfl
  · rfl
  · rfl

/-- **The charges of a plan fit beside the records it was planned with.**  The charges of every plan
are within the capacities beside the bytes of siblings, and these are at least what the listed
records charge. -/
theorem plan_beside {p : ManagedVMFirstPlacement} {id : String} {siblings : List Record}
    {plan : StorageAllocationPlan} {intent : Intent}
    (h : p.plan decode id siblings = .ok (plan, intent)) :
    (∀ r ∈ siblings, chargesFor id r = true → ∃ plan', siblingStorageAllocationPlan decode r =
      .ok plan') ∧
    (∀ key, (∃ r ∈ plan.charges, r.capacityKey = key) →
      ∃ b, p.prepared.request.inventory.backing key = some b ∧
        besideBytes decode id (onKey key) siblings + charged (onKey key) plan.charges ≤
          usableBytes b.totalBytes b.availableBytes (boundBy (onKey key) plan.charges)) ∧
    ∀ key, key ≠ "" → (∃ r ∈ plan.charges, r.domainKey = key) →
      ∃ d, p.prepared.request.inventory.domain key = some d ∧
        besideBytes decode id (onDomain key) siblings + charged (onDomain key) plan.charges ≤
          usableBytes d.totalBytes d.availableBytes (boundBy (onDomain key) plan.charges) := by
  obtain ⟨s, req, i, hs, hinventory, hmember, hdomain, hreached, hnext⟩ := plan_eq_ok h
  have hscan := siblingCharges_scanned hs
  have hadmissible := plan_admissible hreached hnext
  have husable := hadmissible.usable
  rw [hinventory, hmember, hdomain] at husable
  refine ⟨fun r hr hc => (hscan.readable r hr hc).1, fun key hcharged => ?_,
    fun key hkey hcharged => ?_⟩
  · obtain ⟨b, hb, hfit⟩ := husable.1 key hcharged
    have hkey : key ≠ "" := by
      obtain ⟨r, hr, rfl⟩ := hcharged
      exact within_keyed hadmissible.within hr
    have hbeside : besideBytes decode id (onKey key) siblings ≤
        (bytesAt s.bytes.member key).toNat := by
      rw [show (bytesAt s.bytes.member key).toNat = _ from hscan.holds.member.value key]
      exact List.sum_le_sum fun r _ => (plannedBytes_le hkey _ r).1
    exact ⟨b, hb, by omega⟩
  · obtain ⟨d, hd, hfit⟩ := husable.2 key hkey hcharged
    have hbeside : besideBytes decode id (onDomain key) siblings ≤
        (bytesAt s.bytes.domain key).toNat := by
      rw [show (bytesAt s.bytes.domain key).toNat = _ from hscan.holds.domain.value key]
      exact List.sum_le_sum fun r _ => (plannedBytes_le hkey _ r).2
    exact ⟨d, hd, by omega⟩

end Beside

/-! ## 3. In flight

Lists of records are compared by their names. -/

section InFlight

variable {decode : Decoder} {self : String} {siblings : List Record} {w : World}

/-- What a record came from has the same plan. -/
theorem Settled.plannedBytes {r r' : Record} (h : Settled r r') (p : ChargeRecord → Bool) :
    plannedBytes decode p r' = plannedBytes decode p r := by
  unfold Managed.plannedBytes siblingStorageAllocationPlan
  rw [h.plan, h.id]

theorem mem_inFlight {r : Record} (h : r ∈ inFlight self w) :
    ∃ id, w.records.lookup id = some r ∧ chargesFor self r = true := by
  obtain ⟨hmem, hcharges⟩ := List.mem_filter.mp h
  obtain ⟨e, he, rfl⟩ := List.mem_map.mp hmem
  exact ⟨e.1, AList.mem_lookup_iff.mpr he, hcharges⟩

/-- The list has what every record in flight came from, and it charged then. -/
theorem covered (hcovers : Covers siblings w) {r : Record} (hr : r ∈ inFlight self w) :
    ∃ s ∈ siblings.filter (chargesFor self), s.id = r.id ∧ Settled s r := by
  obtain ⟨id, hlookup, hcharges⟩ := mem_inFlight hr
  obtain ⟨s, hs, -, hset⟩ := hcovers id r hlookup
  refine ⟨s, List.mem_filter.mpr ⟨hs, ?_⟩, hset.id.symm, hset⟩
  unfold chargesFor at hcharges ⊢
  rw [Bool.and_eq_true] at hcharges ⊢
  rw [← hset.id]
  exact ⟨hcharges.1, hset.charging hcharges.2⟩

/-- Records on disk have different names. -/
theorem inFlight_nodup (hcovers : Covers siblings w) :
    ((inFlight self w).map fun r => r.id).Nodup := by
  have hids : w.records.entries.map (fun e => e.2.id) = w.records.keys := by
    refine List.map_congr_left fun e he => ?_
    obtain ⟨s, -, hid, hset⟩ := hcovers e.1 e.2 (AList.mem_lookup_iff.mpr he)
    exact hset.id.trans hid
  have hsub : ((inFlight self w).map fun r => r.id).Sublist
      (w.records.entries.map fun e => e.2.id) := by
    rw [show (w.records.entries.map fun e => e.2.id) =
      (w.records.entries.map fun e => e.2).map fun r => r.id by rw [List.map_map]; rfl]
    exact List.filter_sublist.map _
  rw [hids] at hsub
  exact hsub.nodup w.records.keys_nodup

/-- **Nothing in flight is missing from the list.** -/
theorem inFlight_le (hcovers : Covers siblings w) (p : ChargeRecord → Bool) :
    ((inFlight self w).map (plannedBytes decode p)).sum ≤ besideBytes decode self p siblings := by
  refine sum_le_of_keyed (fun r => r.id) (fun s => s.id) (inFlight_nodup hcovers) fun r hr => ?_
  obtain ⟨s, hs, hid, hset⟩ := covered hcovers hr
  exact ⟨s, hs, hid, (hset.plannedBytes p).le⟩

end InFlight

/-! ## 4. Joint admission -/

/-- While a process plans, its list covers the directory. -/
theorem planning_covers {decode : Decoder} {w : World} (hidle : ∀ i, w.planning i = none)
    {c : Config (placementSys decode)} (hr : Reach (Config.initial w) c) {i : Nat}
    {given : Planning}
    (hplan : c.shared.planning i = some given) : Covers given.siblings c.shared := by
  have hinv : Inv w := by
    intro i p hp
    rw [hidle i] at hp
    cases hp
  have hboot : ∀ i, (placementProtocol decode).Loc i (placementSys decode).boot w :=
    fun i => ⟨hidle i, fun h hh => by cases hh⟩
  exact (((placementProtocol decode).reachable hinv hboot hr).inv i given hplan).2

/-- **Joint admission.**  From any directory, in every interleaving of first placements: when a
callback returns an intent, the bytes of the plans in flight at any moment while it runs and the
bytes of its own plan are together within the usable bytes of every capacity and every domain that
its plan charges.  The list covers the directory at every moment of the callback
(`planning_covers`), what is in flight is at most what was listed, and the plan fits beside that. -/
theorem joint_admission {decode : Decoder} {w : World} (hidle : ∀ i, w.planning i = none)
    {c : Config (placementSys decode)} (hr : Reach (Config.initial w) c) {i : Nat}
    {given : Planning}
    (hplan : c.shared.planning i = some given) {p : ManagedVMFirstPlacement} {id : String}
    {plan : StorageAllocationPlan} {intent : Intent}
    (h : p.plan decode id given.siblings = .ok (plan, intent)) :
    (∀ r ∈ inFlight id c.shared, ∃ plan', siblingStorageAllocationPlan decode r = .ok plan') ∧
    (∀ key, (∃ r ∈ plan.charges, r.capacityKey = key) →
      ∃ b, p.prepared.request.inventory.backing key = some b ∧
        ((inFlight id c.shared).map (plannedBytes decode (onKey key))).sum +
            charged (onKey key) plan.charges ≤
          usableBytes b.totalBytes b.availableBytes (boundBy (onKey key) plan.charges)) ∧
    ∀ key, key ≠ "" → (∃ r ∈ plan.charges, r.domainKey = key) →
      ∃ d, p.prepared.request.inventory.domain key = some d ∧
        ((inFlight id c.shared).map (plannedBytes decode (onDomain key))).sum +
            charged (onDomain key) plan.charges ≤
          usableBytes d.totalBytes d.availableBytes (boundBy (onDomain key) plan.charges) := by
  have hcovers := planning_covers hidle hr hplan
  obtain ⟨hread, hmember, hdomain⟩ := plan_beside h
  refine ⟨fun r hr => ?_, fun key hcharged => ?_, fun key hkey hcharged => ?_⟩
  · obtain ⟨s, hs, -, hset⟩ := covered hcovers hr
    obtain ⟨hmem, hcharges⟩ := List.mem_filter.mp hs
    obtain ⟨plan', hplan'⟩ := hread s hmem hcharges
    refine ⟨plan', ?_⟩
    rw [← hplan']
    unfold siblingStorageAllocationPlan
    rw [hset.plan, hset.id]
  · obtain ⟨b, hb, hfit⟩ := hmember key hcharged
    exact ⟨b, hb, le_trans (Nat.add_le_add_right (inFlight_le hcovers _) _) hfit⟩
  · obtain ⟨d, hd, hfit⟩ := hdomain key hkey hcharged
    exact ⟨d, hd, le_trans (Nat.add_le_add_right (inFlight_le hcovers _) _) hfit⟩

/-! ### Two placements

The first has its record, with a plan that charges fifty bytes; the second plans. -/

def sampleChargeText : String :=
  "\x7b\"Charges\":[\x7b\"Charge\":\x7b\"Bytes\":50\x7d,\"CapacityKey\":\"nfs://filer/a\"," ++
    "\"DomainKey\":\"filer\"\x7d]\x7d"

def sampleCharge : StorageAllocationPlan :=
  { version := 0
    charges := [
      { charge := { id := "", role := "", node := "", storageID := "", bytes := 50, limits := {} }
        capacityKey := "nfs://filer/a"
        domainKey := "filer" }] }

/-- What `encoding/json` makes of that text. -/
def sampleDecode : Decoder := fun text =>
  if text = sampleChargeText then some sampleCharge else none

def samplePlacement : ManagedVMFirstPlacement where
  prepared :=
    { selection := sampleSelection, inventory := sampleInventory, request := samplePlanRequest,
      snapshotStart := 0, group := "" }
  env := sampleSurroundings
  ranges := sampleRanges
  shape := fun _ => .ok ()
  intent := fun _ => .ok (Journal.sampleIntent sampleChargeText)
  text := fun _ => ""

def sampleInFlight : Record := Journal.sampleRecord (Journal.sampleIntent sampleChargeText)

/-- The directory after the first placement has acquired. -/
def sampleDirectory : World :=
  { Journal.enrolled Journal.sampleAuthority with
    index := { version := Journal.version,
               activeVMs := AList.singleton (Journal.pathKey "agent") Journal.sampleID }
    records := AList.singleton Journal.sampleID sampleInFlight }

def samplePeer : String := "00000003-0000-4000-8000-000000000000"

def sampleEffects (n : Nat) (id : String) : List (Act (placementSys sampleDecode)) :=
  List.replicate n (.run 1 { time := 5, id := id })

def samplePlacing : List (Act (placementSys sampleDecode)) :=
  .start 1 (.open "director" "cluster") :: sampleEffects 1 "" ++ .finish 1 ::
    .start 1 (.acquireVMPlanned "peer" samplePlacement 0) :: sampleEffects 10 samplePeer

/-- The second placement plans beside the first. -/
theorem placing_evaluated :
    ((runActs samplePlacing (.initial sampleDirectory)).any fun c =>
      ((inFlight samplePeer c.shared).map
        (plannedBytes sampleDecode (onKey "nfs://filer/a"))).sum == 50 &&
      (c.shared.planning 1).any fun given => given.siblings == [sampleInFlight]) = true := by
  decide +kernel

theorem samplePlacement_evaluated :
    ((applyManagedVMSiblings sampleDecode sampleRanges samplePlacement.prepared [sampleInFlight]
        samplePeer).toOption.any fun observed =>
      (newStoragePlanIterator (.error "") observed.request).toOption.any fun i =>
        (i.next sampleSurroundings).1.toOption.isSome) = true := by
  decide +kernel

/-- The inventory of the samples has one backing. -/
theorem sampleInventory_backing {key : String} {b : Backing}
    (h : sampleInventory.backing key = some b) : key = "nfs://filer/a" := by
  have hmem : key ∈ AList.singleton "nfs://filer/a" _ :=
    AList.lookup_isSome.mp (Option.isSome_of_mem h)
  simpa [AList.mem_keys, AList.singleton, AList.keys] using hmem

/-- The second placement has a plan beside the first, and the plan charges the same backing. -/
theorem samplePlacement_plan : ∃ plan intent,
    samplePlacement.plan sampleDecode samplePeer [sampleInFlight] = .ok (plan, intent) ∧
      ∃ r ∈ plan.charges, r.capacityKey = "nfs://filer/a" := by
  obtain ⟨observed, hobserved, heval⟩ := (Option.any_eq_true _ _).mp samplePlacement_evaluated
  obtain ⟨i, hi, heval⟩ := (Option.any_eq_true _ _).mp heval
  obtain ⟨plan, hplan⟩ := Option.isSome_iff_exists.mp heval
  have happly := toOption_eq_some.mp hobserved
  have hnew := toOption_eq_some.mp hi
  have hnext := toOption_eq_some.mp hplan
  have hinventory : observed.inventory = observed.request.inventory ∧
      observed.request.inventory = sampleInventory := by
    obtain ⟨s, -, hobserved⟩ := bind_eq_ok.mp happly
    cases hobserved
    exact ⟨rfl, rfl⟩
  have hreached : Iterator.Reached observed.request i := ⟨_, i, hnew, .refl⟩
  have hadm := plan_admissible hreached hnext
  obtain ⟨l, hl⟩ := hadm.recharge (.refl _)
  rw [← hinventory.1] at hl
  obtain ⟨r, hr⟩ := List.exists_mem_of_ne_nil _ (plan_charges_ne_nil hreached hnext)
  obtain ⟨b, hb, -⟩ := hadm.usable.1 r.capacityKey ⟨r, hr, rfl⟩
  rw [hinventory.2] at hb
  refine ⟨plan, Journal.sampleIntent sampleChargeText, ?_, r, hr, sampleInventory_backing hb⟩
  refine bind_eq_ok.mpr ⟨observed, mapError_eq_ok.mpr happly, ?_⟩
  refine bind_eq_ok.mpr ⟨plan, ?_, rfl⟩
  refine bind_eq_ok.mpr ⟨i, mapError_eq_ok.mpr hnew, ?_⟩
  refine bind_eq_ok.mpr ⟨plan, mapError_eq_ok.mpr hnext, ?_⟩
  exact bind_eq_ok.mpr ⟨l, mapError_eq_ok.mpr hl, rfl⟩

theorem joint_admission_sample : ∃ (c : Config (placementSys sampleDecode)) (given : Planning)
    (plan : StorageAllocationPlan) (intent : Intent), Reach (Config.initial sampleDirectory) c ∧
    c.shared.planning 1 = some given ∧
    samplePlacement.plan sampleDecode samplePeer given.siblings = .ok (plan, intent) ∧
    (∃ r ∈ plan.charges, r.capacityKey = "nfs://filer/a") ∧
    ∃ b, sampleInventory.backing "nfs://filer/a" = some b ∧
      50 + charged (onKey "nfs://filer/a") plan.charges ≤
        usableBytes b.totalBytes b.availableBytes
          (boundBy (onKey "nfs://filer/a") plan.charges) := by
  obtain ⟨c, hc, heval⟩ := (Option.any_eq_true _ _).mp placing_evaluated
  rw [Bool.and_eq_true] at heval
  obtain ⟨hsum, heval⟩ := heval
  obtain ⟨given, hgiven, heval⟩ := (Option.any_eq_true _ _).mp heval
  obtain ⟨plan, intent, hplan, hcharged⟩ := samplePlacement_plan
  rw [← eq_of_beq heval] at hplan
  have hreach := reach_of_runActs hc
  obtain ⟨-, hmember, -⟩ := joint_admission (fun _ => rfl) hreach hgiven hplan
  refine ⟨c, given, plan, intent, hreach, hgiven, hplan, hcharged, ?_⟩
  have hfit := hmember "nfs://filer/a" hcharged
  rw [eq_of_beq hsum] at hfit
  exact hfit

end Managed
