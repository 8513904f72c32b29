/-
# Ranking by an arbitrary strategy

`storageplacement/registry.go`: a registry looks a strategy up, checks the candidates (`prepare`),
hands the strategy a clone of the caller's slice and checks what comes back.  The strategy is an
adversary: it may write anything into the slice it was given and return anything.

Slices are explicit here.  A `Memory` is the list of the arrays that were made, a slice is the
position of one, `slices.Clone` makes a new one, and a strategy writes only to the array it got.  So
"the caller's slice is unchanged" is a statement about the memory after the call.

`rank_contract` is the whole contract.  That the answer is one-to-one needs both validators: the
table of `validateCandidates` has one entry per backing key, and only `prepare` says that the keys
differ.

The closed forms are needed for more than the contract.  `prepare_eq_ok` says that a list is
accepted exactly when each candidate can be prepared alone and they do not contradict each other,
which does not depend on their order and is inherited by sublists; `Strategies` uses both.
-/
import PveCpi.Storage.Ledger
import PveCpi.Lib.Text

namespace Storage

open Lib.Check
open Lib.Text (nonblank)

/-! ## 1. Requests, candidates and scores -/

/-- An installed algorithm. -/
structure Policy where
  name : String
  version : Int
  deriving DecidableEq, Repr

structure RequestSnapshot where
  policy : Policy
  «namespace» : String
  allocationKey : String
  allocationGroup : String
  requestedBytes : UInt64 := 0
  seed : BitVec 256 := 0
  seedSet : Bool := false
  deriving DecidableEq, Repr

/-- A `float64`, by its bits. -/
structure Float64 where
  bits : UInt64
  deriving DecidableEq, Repr

namespace Float64

/-- The eleven bits of the exponent are all set. -/
def special (x : Float64) : Bool := x.bits.toNat / 2 ^ 52 % 2 ^ 11 == 2 ^ 11 - 1

def mantissa (x : Float64) : Nat := x.bits.toNat % 2 ^ 52

def isNaN (x : Float64) : Bool := x.special && x.mantissa != 0

def isInf (x : Float64) : Bool := x.special && x.mantissa == 0

def zero : Float64 := ⟨0⟩
def one : Float64 := ⟨0x3FF0000000000000⟩
def inf : Float64 := ⟨0x7FF0000000000000⟩

/-- The place of a number on the line: a sign, and the other bits in order. -/
def place (x : Float64) : Int :=
  if x.bits.toNat < 2 ^ 63 then x.bits.toNat else -(x.bits.toNat - 2 ^ 63 : Int)

/-- The comparison `<`, which is false for what is not a number. -/
def lt (x y : Float64) : Bool := !x.isNaN && !y.isNaN && decide (x.place < y.place)

def le (x y : Float64) : Bool := !x.isNaN && !y.isNaN && decide (x.place ≤ y.place)

end Float64

structure RankedCandidate where
  candidate : EligibleCandidate
  score : Float64 := ⟨0⟩
  domainScore : Float64 := ⟨0⟩
  rendezvous : BitVec 256 := 0
  memberWeight : UInt64 := 0
  domainWeight : UInt64 := 0
  reason : String := ""
  deriving DecidableEq, Repr

inductive RankErr where
  | nilRegistry
  | unsupported (p : Policy)
  /-- "ranking requires namespace, allocation key, and allocation group". -/
  | identity
  | fieldLength
  | tupleLength
  | candidateIdentity
  | blankDomain
  | duplicate (storageID : String)
  | member (storageID : String) (e : BudgetErr)
  | domain (domainKey : String) (e : BudgetErr)
  | inconsistentDomain (domainKey : String)
  | undeclaredDomain (storageID : String)
  | candidateCount (original returned : Nat)
  /-- "foreign or duplicate candidate". -/
  | foreign (backingKey : String)
  | factsChanged (backingKey : String)
  | nonfinite
  /-- "weighted ranking requires a frozen seed". -/
  | seed
  /-- "weighted draw requires positive weight". -/
  | drawWeight
  /-- "invalid weighted draw". -/
  | draw
  /-- The error of a strategy, and the contexts in which it and the others are reported. -/
  | strategy (message : String)
  | ranking (p : Policy) (e : RankErr)
  | mutatedInput (e : RankErr)
  | invalidRanking (e : RankErr)
  deriving DecidableEq, Repr

/-! ## 2. Tuples

The bytes that are hashed: each field behind its length, in four bytes. -/

/-- `uint32`, big-endian. -/
def bigEndian32 (n : Nat) : List UInt8 :=
  [n / 2 ^ 24, n / 2 ^ 16, n / 2 ^ 8, n].map UInt8.ofNat

/-- The lengths of the fields; texts are UTF-8 already. -/
def checkTuple : Nat → List String → Except RankErr Unit
  | _, [] => .ok ()
  | size, field :: fields => do
    refuse (decide (2 ^ 32 - 1 < field.utf8ByteSize)) .fieldLength
    refuse (decide (2 ^ 63 - 1 < size + 4 + field.utf8ByteSize)) .tupleLength
    checkTuple (size + 4 + field.utf8ByteSize) fields

def encodeTuple (fields : List String) : Except RankErr (List UInt8) := do
  checkTuple 0 fields
  pure (fields.flatMap fun field => bigEndian32 field.utf8ByteSize ++ field.toUTF8.toList)

def tuple (r : RequestSnapshot) (suffix : List String) : Except RankErr (List UInt8) :=
  encodeTuple ([r.policy.name ++ "/v" ++ toString r.policy.version, r.namespace, r.allocationKey,
    r.allocationGroup] ++ suffix)

/-! ## 3. The checks of the candidates -/

/-- The class of a capacity domain, and its key. -/
inductive DomainIdentity where
  | declared (key : String)
  | backing (key : String)
  deriving DecidableEq, Repr

def domainOf (c : EligibleCandidate) : DomainIdentity :=
  if c.domainKey ≠ "" then .declared c.domainKey else .backing c.backingKey

structure PreparedCandidate where
  candidate : EligibleCandidate
  member : BudgetProjection
  domain : BudgetProjection
  domainID : DomainIdentity
  deriving DecidableEq, Repr

/-- The variables of the loop of `prepare`. -/
structure Preparing where
  prepared : List PreparedCandidate := []
  seen : List String := []
  storageIDs : List String := []
  domains : Map String CapacityBudget := ∅

/-- What all members of a domain must agree on. -/
def domainFacts (c : EligibleCandidate) : CapacityBudget :=
  { c.domain with outstandingBytes := 0, allocationBytes := 0 }

/-- The budget of the domain of a candidate, and the domains seen so far. -/
def prepareDomain (domains : Map String CapacityBudget) (c : EligibleCandidate)
    (member : BudgetProjection) : Except RankErr (BudgetProjection × Map String CapacityBudget) :=
  if c.domainKey ≠ "" then do
    refuse ((domains.lookup c.domainKey).any fun previous => previous != domainFacts c)
      (.inconsistentDomain c.domainKey)
    match projectBudget c.domain with
    | .error e => .error (.domain c.domainKey e)
    | .ok domain => pure (domain, domains.insert c.domainKey (domainFacts c))
  else do
    refuse (c.domain != {}) (.undeclaredDomain c.storageID)
    pure (member, domains)

/-- One round of the loop. -/
def prepareOne (p : Preparing) (c : EligibleCandidate) : Except RankErr Preparing := do
  refuse (!nonblank c.storageID || !nonblank c.backingKey) .candidateIdentity
  refuse (c.domainKey != "" && !nonblank c.domainKey) .blankDomain
  let _ ← encodeTuple [c.storageID, c.backingKey, c.domainKey]
  refuse (p.seen.contains c.backingKey || p.storageIDs.contains c.storageID)
    (.duplicate c.storageID)
  match projectBudget c.member with
  | .error e => .error (.member c.storageID e)
  | .ok member => do
    let (domain, domains) ← prepareDomain p.domains c member
    pure { prepared := p.prepared ++ [⟨c, member, domain, domainOf c⟩],
           seen := c.backingKey :: p.seen, storageIDs := c.storageID :: p.storageIDs,
           domains := domains }

def prepareFrom : Preparing → List EligibleCandidate → Except RankErr Preparing
  | p, [] => .ok p
  | p, c :: cs => do
    let p ← prepareOne p c
    prepareFrom p cs

def prepare (candidates : List EligibleCandidate) : Except RankErr (List PreparedCandidate) := do
  let p ← prepareFrom {} candidates
  pure p.prepared

/-- The table of `validateCandidates`. -/
def expectedBy : List EligibleCandidate → Map String EligibleCandidate →
    Map String EligibleCandidate
  | [], expected => expected
  | c :: cs, expected => expectedBy cs (expected.insert c.backingKey c)

/-- Strike every returned candidate off the table. -/
def strikeOff : Map String EligibleCandidate → List EligibleCandidate → Except RankErr Unit
  | _, [] => .ok ()
  | expected, r :: rs =>
    match expected.lookup r.backingKey with
    | none => .error (.foreign r.backingKey)
    | some want => do
      refuse (r != want) (.factsChanged r.backingKey)
      strikeOff (expected.erase r.backingKey) rs

def validateCandidates (original returned : List EligibleCandidate) : Except RankErr Unit := do
  refuse (original.length != returned.length) (.candidateCount original.length returned.length)
  strikeOff (expectedBy original ∅) returned

/-! ## 4. Slices and the call

A strategy gets a slice of its own and returns a ranking of what it was GIVEN; what it wrote into
the slice is seen by nobody. -/

/-- The arrays of candidates that were made so far. -/
abbrev Memory := List (List EligibleCandidate)

/-- A slice of the memory. -/
abbrev Slice (m : Memory) := Fin m.length

/-- What a strategy does with the slice it is given: what it leaves in the array, whose length it
cannot change, and what it returns. -/
structure Ranking (given : List EligibleCandidate) where
  written : List EligibleCandidate
  same_length : written.length = given.length
  answer : Except String (List RankedCandidate)

/-- Any implementation of `Strategy`. -/
abbrev Strategy := RequestSnapshot → (given : List EligibleCandidate) → Ranking given

structure Registry where
  strategies : Map Policy Strategy

/-- `ValidateStrategy` of a registry that may be nil, with the strategy it finds. -/
def validateStrategy (r : Option Registry) (p : Policy) : Except RankErr Strategy :=
  match r with
  | none => .error .nilRegistry
  | some r =>
    match r.strategies.lookup p with
    | none => .error (.unsupported p)
    | some s => .ok s

def finiteScores (r : RankedCandidate) : Bool :=
  !r.score.isNaN && !r.score.isInf && !r.domainScore.isNaN && !r.domainScore.isInf

/-- The part of `Rank` behind the call of the strategy. -/
def acceptRanking (p : Policy) (candidates : List EligibleCandidate)
    {given : List EligibleCandidate} (r : Ranking given) : Except RankErr (List RankedCandidate) :=
  match r.answer with
  | .error message => .error (.ranking p (.strategy message))
  | .ok result => do
    (validateCandidates candidates r.written).mapError .mutatedInput
    refuse (!result.all finiteScores) .nonfinite
    (validateCandidates candidates (result.map fun r => r.candidate)).mapError .invalidRanking
    pure result

/-- The part of `Rank` in front of the call of the strategy. -/
def acceptRequest (r : Option Registry) (request : RequestSnapshot)
    (candidates : List EligibleCandidate) : Except RankErr Strategy := do
  let strategy ← validateStrategy r request.policy
  refuse (!nonblank request.namespace || !nonblank request.allocationKey ||
    !nonblank request.allocationGroup) .identity
  let _ ← tuple request []
  let _ ← prepare candidates
  pure strategy

/-- `Registry.Rank` on a slice of the caller, with the memory it leaves. -/
def Registry.rank (r : Option Registry) (request : RequestSnapshot) (m : Memory)
    (caller : Slice m) : Except RankErr (List RankedCandidate) × Memory :=
  let candidates := m.get caller
  match acceptRequest r request candidates with
  | .error e => (.error e, m)
  | .ok strategy =>
    -- `slices.Clone`: the strategy gets the array behind all others.
    let ranking := strategy request candidates
    let m' := (m ++ [candidates]).set m.length ranking.written
    (acceptRanking request.policy candidates ranking, m')

/-! ## 5. What `prepare` says

The state of the loop is a set of keys and a table of domains.  `Behind` relates it to the
candidates before, and `Coherent` is what the tests against the state mean for the list. -/

/-- The checks of the texts of a candidate. -/
def Identified (c : EligibleCandidate) : Prop :=
  (nonblank c.storageID = true ∧ nonblank c.backingKey = true) ∧
    (c.domainKey ≠ "" → nonblank c.domainKey = true) ∧
    ∃ encoded, encodeTuple [c.storageID, c.backingKey, c.domainKey] = .ok encoded

/-- The projection that stands for the domain of a candidate. -/
def DomainBudget (c : EligibleCandidate) (member domain : BudgetProjection) : Prop :=
  if c.domainKey ≠ "" then projectBudget c.domain = .ok domain
  else c.domain = {} ∧ domain = member

/-- The domains seen so far do not contradict a candidate. -/
def Agrees (domains : Map String CapacityBudget) (c : EligibleCandidate) : Prop :=
  c.domainKey ≠ "" → ∀ facts, domains.lookup c.domainKey = some facts → facts = domainFacts c

/-- The state behind a round. -/
def Preparing.push (p : Preparing) (x : PreparedCandidate) : Preparing where
  prepared := p.prepared ++ [x]
  seen := x.candidate.backingKey :: p.seen
  storageIDs := x.candidate.storageID :: p.storageIDs
  domains := if x.candidate.domainKey ≠ "" then
    p.domains.insert x.candidate.domainKey (domainFacts x.candidate) else p.domains

/-- A candidate that is prepared without the others. -/
def standalone (c : EligibleCandidate) : Option PreparedCandidate :=
  match prepareOne {} c with
  | .ok p => p.prepared.head?
  | .error _ => none

/-- A candidate agrees with what is known of its domain from the candidates before it, or is the
first of its domain. -/
theorem prepareDomain_eq_ok {domains : Map String CapacityBudget} {c : EligibleCandidate}
    {member : BudgetProjection} {x : BudgetProjection × Map String CapacityBudget} :
    prepareDomain domains c member = .ok x ↔ Agrees domains c ∧ DomainBudget c member x.1 ∧
      x.2 = if c.domainKey ≠ "" then domains.insert c.domainKey (domainFacts c) else domains := by
  unfold prepareDomain Agrees DomainBudget
  split_ifs with hkey
  · simp only [check_bind_eq_ok, refuse_eq_ok, Option.any_eq_false_iff_get, bne_eq_false_iff_eq]
    have hagrees : (∀ h : (domains.lookup c.domainKey).isSome,
        (domains.lookup c.domainKey).get h = domainFacts c) ↔
        (c.domainKey ≠ "" → ∀ facts, domains.lookup c.domainKey = some facts →
          facts = domainFacts c) := by
      cases domains.lookup c.domainKey with
      | none => simp
      | some f => simp [hkey]
    rw [← hagrees]
    refine and_congr_right fun _ => ?_
    cases hp : projectBudget c.domain with
    | error e => simp
    | ok d =>
      simp only [pure_eq_ok, Except.ok.injEq]
      constructor
      · rintro rfl
        exact ⟨rfl, rfl⟩
      · rintro ⟨h1, h2⟩
        exact Prod.ext h1 h2.symm
  · simp only [check_bind_eq_ok, refuse_eq_ok, bne_eq_false_iff_eq, pure_eq_ok, hkey, false_imp_iff,
      true_and]
    constructor
    · rintro ⟨hd, rfl⟩
      exact ⟨⟨hd, rfl⟩, rfl⟩
    · rintro ⟨⟨hd, h1⟩, h2⟩
      exact ⟨hd, Prod.ext h1.symm h2.symm⟩

/-- **One round, in closed form.** -/
theorem prepareOne_eq_ok {p p' : Preparing} {c : EligibleCandidate} :
    prepareOne p c = .ok p' ↔ Identified c ∧ (c.backingKey ∉ p.seen ∧ c.storageID ∉ p.storageIDs) ∧
      Agrees p.domains c ∧ ∃ member domain, projectBudget c.member = .ok member ∧
        DomainBudget c member domain ∧ p' = p.push ⟨c, member, domain, domainOf c⟩ := by
  unfold prepareOne Identified
  simp only [check_bind_eq_ok, refuse_eq_ok, Bool.or_eq_false_iff, Bool.not_eq_false',
    Bool.and_eq_false_iff, bne_eq_false_iff_eq, List.contains_eq_mem]
  have hblank : (c.domainKey = "" ∨ nonblank c.domainKey = true) ↔
      (c.domainKey ≠ "" → nonblank c.domainKey = true) := by
    rw [ne_eq, ← or_iff_not_imp_left]
  rw [hblank]
  constructor
  · rintro ⟨hid, hdomain, h⟩
    obtain ⟨encoded, hencoded, h⟩ := bind_eq_ok.mp h
    obtain ⟨hfresh, h⟩ := check_bind_eq_ok.mp h
    cases hm : projectBudget c.member with
    | error e =>
      rw [hm] at h
      cases h
    | ok member =>
      rw [hm] at h
      obtain ⟨⟨domain, domains⟩, hx, hp'⟩ := bind_eq_ok.mp h
      obtain ⟨hagrees, hbudget, hdomains⟩ := prepareDomain_eq_ok.mp hx
      dsimp only at hbudget hdomains
      subst hdomains
      cases hp'
      simp only [refuse_eq_ok, Bool.or_eq_false_iff, decide_eq_false_iff_not] at hfresh
      exact ⟨⟨hid, hdomain, encoded, hencoded⟩, hfresh, hagrees, member, domain, rfl, hbudget, rfl⟩
  · rintro ⟨⟨hid, hdomain, encoded, hencoded⟩, hfresh, hagrees, member, domain, hm, hbudget, rfl⟩
    refine ⟨hid, hdomain, bind_eq_ok.mpr ⟨encoded, hencoded, check_bind_eq_ok.mpr ⟨?_, ?_⟩⟩⟩
    · simpa only [refuse_eq_ok, Bool.or_eq_false_iff, List.contains_eq_mem,
        decide_eq_false_iff_not] using hfresh
    · rw [hm]
      refine bind_eq_ok.mpr ⟨(domain, _), prepareDomain_eq_ok.mpr ⟨hagrees, hbudget, rfl⟩, rfl⟩

/-- What a candidate is prepared to when it is alone: without others there is nothing to disagree
with. -/
theorem standalone_eq_some {c : EligibleCandidate} {x : PreparedCandidate} :
    standalone c = some x ↔ Identified c ∧ ∃ member domain, projectBudget c.member = .ok member ∧
      DomainBudget c member domain ∧ x = ⟨c, member, domain, domainOf c⟩ := by
  have hnone : Agrees (∅ : Map String CapacityBudget) c := fun _ facts h => by cases h
  constructor
  · intro h
    unfold standalone at h
    split at h
    · rename_i p hp
      obtain ⟨hid, -, -, member, domain, hm, hd, rfl⟩ := prepareOne_eq_ok.mp hp
      cases h
      exact ⟨hid, member, domain, hm, hd, rfl⟩
    · cases h
  · rintro ⟨hid, member, domain, hm, hd, rfl⟩
    have hp : prepareOne {} c = .ok (Preparing.push {} ⟨c, member, domain, domainOf c⟩) :=
      prepareOne_eq_ok.mpr ⟨hid, ⟨List.not_mem_nil, List.not_mem_nil⟩, hnone, member, domain, hm,
        hd, rfl⟩
    unfold standalone
    rw [hp]
    rfl

/-- A round is the preparation of the candidate alone, if it does not contradict the ones before. -/
theorem prepareOne_iff {p p' : Preparing} {c : EligibleCandidate} :
    prepareOne p c = .ok p' ↔ (c.backingKey ∉ p.seen ∧ c.storageID ∉ p.storageIDs ∧
      Agrees p.domains c) ∧ ∃ x, standalone c = some x ∧ p' = p.push x := by
  simp only [prepareOne_eq_ok, standalone_eq_some]
  constructor
  · rintro ⟨hid, ⟨hseen, hids⟩, hagrees, member, domain, hm, hd, rfl⟩
    exact ⟨⟨hseen, hids, hagrees⟩, _, ⟨hid, member, domain, hm, hd, rfl⟩, rfl⟩
  · rintro ⟨⟨hseen, hids, hagrees⟩, _, ⟨hid, member, domain, hm, hd, rfl⟩, rfl⟩
    exact ⟨hid, ⟨hseen, hids⟩, hagrees, member, domain, hm, hd, rfl⟩

theorem standalone_candidate {c : EligibleCandidate} {x : PreparedCandidate}
    (h : standalone c = some x) : x.candidate = c := by
  obtain ⟨-, _, _, -, -, rfl⟩ := standalone_eq_some.mp h
  rfl

/-- What the candidates of one list owe each other. -/
structure Coherent (cs : List EligibleCandidate) : Prop where
  backings : (cs.map fun c => c.backingKey).Nodup
  storages : (cs.map fun c => c.storageID).Nodup
  domains : ∀ c ∈ cs, ∀ d ∈ cs, c.domainKey ≠ "" → c.domainKey = d.domainKey →
    domainFacts c = domainFacts d

theorem Coherent.sublist {cs cs' : List EligibleCandidate} (h : Coherent cs)
    (hsub : cs'.Sublist cs) : Coherent cs' where
  backings := h.backings.sublist (hsub.map _)
  storages := h.storages.sublist (hsub.map _)
  domains c hc d hd := h.domains c (hsub.subset hc) d (hsub.subset hd)

theorem Coherent.perm {cs cs' : List EligibleCandidate} (h : Coherent cs) (hp : cs.Perm cs') :
    Coherent cs' where
  backings := (hp.map _).nodup_iff.mp h.backings
  storages := (hp.map _).nodup_iff.mp h.storages
  domains c hc d hd := h.domains c (hp.mem_iff.mpr hc) d (hp.mem_iff.mpr hd)

/-- The state of the loop behind the candidates `done`. -/
structure Behind (done : List EligibleCandidate) (p : Preparing) : Prop where
  seen : ∀ key, key ∈ p.seen ↔ key ∈ done.map fun c => c.backingKey
  storageIDs : ∀ id, id ∈ p.storageIDs ↔ id ∈ done.map fun c => c.storageID
  domains : ∀ c, Agrees p.domains c ↔ ∀ d ∈ done, c.domainKey ≠ "" → d.domainKey = c.domainKey →
    domainFacts d = domainFacts c

theorem Behind.nil : Behind [] {} where
  seen _ := Iff.rfl
  storageIDs _ := Iff.rfl
  domains c := ⟨fun _ d hd => absurd hd List.not_mem_nil, fun _ _ facts h => by cases h⟩

/-- One candidate more, which agrees with the others. -/
theorem Behind.push {done : List EligibleCandidate} {p : Preparing} {x : PreparedCandidate}
    (h : Behind done p) (hx : Agrees p.domains x.candidate) :
    Behind (done ++ [x.candidate]) (p.push x) where
  seen key := by
    simp only [Preparing.push, List.mem_cons, h.seen, List.map_append, List.mem_append,
      List.map_cons, List.map_nil, List.not_mem_nil, or_false]
    exact or_comm
  storageIDs id := by
    simp only [Preparing.push, List.mem_cons, h.storageIDs, List.map_append, List.mem_append,
      List.map_cons, List.map_nil, List.not_mem_nil, or_false]
    exact or_comm
  domains c := by
    have hall := h.domains c
    simp only [List.mem_append, List.mem_singleton, or_imp, forall_and, forall_eq, ← hall]
    unfold Agrees Preparing.push at *
    dsimp only at *
    by_cases hkey : x.candidate.domainKey ≠ ""
    · rw [if_pos hkey]
      by_cases hsame : c.domainKey = x.candidate.domainKey
      · rw [hsame, AList.lookup_insert]
        constructor
        · intro hc
          have heq := hc hkey _ rfl
          exact ⟨fun _ facts hf => (hx hkey facts hf).trans heq, fun _ _ => heq⟩
        · rintro ⟨-, heq⟩ _ facts hf
          cases hf
          exact heq hkey rfl
      · rw [AList.lookup_insert_ne hsame]
        exact ⟨fun hc => ⟨hc, fun _ heq => absurd heq.symm hsame⟩, fun hc => hc.1⟩
    · rw [if_neg hkey]
      rw [not_not] at hkey
      exact ⟨fun hc => ⟨hc, fun hne heq => absurd (heq.symm.trans hkey) hne⟩, fun hc => hc.1⟩

/-- What the checks of a round against the state mean. -/
theorem Behind.coherent_iff {done : List EligibleCandidate} {p : Preparing} {c : EligibleCandidate}
    (h : Behind done p) (hdone : Coherent done) : Coherent (done ++ [c]) ↔
      c.backingKey ∉ p.seen ∧ c.storageID ∉ p.storageIDs ∧ Agrees p.domains c := by
  rw [h.seen, h.storageIDs, h.domains]
  constructor
  · intro hall
    have hkeys := hall.backings
    have hids := hall.storages
    rw [List.map_append, List.nodup_append_comm] at hkeys hids
    refine ⟨(List.nodup_cons.mp hkeys).1, (List.nodup_cons.mp hids).1, fun d hd hne heq => ?_⟩
    exact hall.domains d (List.mem_append_left _ hd) c (List.mem_append_right _ List.mem_cons_self)
      (heq ▸ hne) heq
  · rintro ⟨hkey, hid, hdomain⟩
    refine ⟨?_, ?_, fun d hd e he hne heq => ?_⟩
    · rw [List.map_append, List.nodup_append_comm]
      exact List.nodup_cons.mpr ⟨hkey, hdone.backings⟩
    · rw [List.map_append, List.nodup_append_comm]
      exact List.nodup_cons.mpr ⟨hid, hdone.storages⟩
    · rcases List.mem_append.mp hd with hd | hd
      · rcases List.mem_append.mp he with he | he
        · exact hdone.domains d hd e he hne heq
        · rw [List.mem_singleton.mp he] at heq ⊢
          exact hdomain d hd (heq ▸ hne) heq
      · rw [List.mem_singleton.mp hd] at heq hne ⊢
        rcases List.mem_append.mp he with he | he
        · exact (hdomain e he hne heq.symm).symm
        · rw [List.mem_singleton.mp he]

/-- The whole loop. -/
theorem prepareFrom_iff {ps : List PreparedCandidate} {cs : List EligibleCandidate} :
    ∀ {done : List EligibleCandidate} {p : Preparing}, Behind done p → Coherent done →
    ((∃ p', prepareFrom p cs = .ok p' ∧ p'.prepared = ps) ↔ Coherent (done ++ cs) ∧
      (∀ c ∈ cs, (standalone c).isSome) ∧ ps = p.prepared ++ cs.filterMap standalone) := by
  induction cs with
  | nil =>
    intro done p _ hdone
    simp only [prepareFrom, Except.ok.injEq, List.append_nil, List.not_mem_nil, false_imp_iff,
      implies_true, List.filterMap_nil, true_and, exists_eq_left', hdone]
    exact eq_comm
  | cons c cs ih =>
    intro done p hbehind hdone
    have hsnoc := hbehind.coherent_iff (c := c) hdone
    rw [show done ++ c :: cs = done ++ [c] ++ cs by simp]
    constructor
    · rintro ⟨p', hp', rfl⟩
      obtain ⟨q, hq, hrest⟩ := bind_eq_ok.mp hp'
      obtain ⟨hfresh, x, hx, rfl⟩ := prepareOne_iff.mp hq
      have hc := standalone_candidate hx
      have hnext := hbehind.push (x := x) (by rw [hc]; exact hfresh.2.2)
      rw [hc] at hnext
      obtain ⟨hall, hsome, hprepared⟩ := (ih hnext (hsnoc.mpr hfresh)).mp ⟨p', hrest, rfl⟩
      refine ⟨hall, List.forall_mem_cons.mpr ⟨by rw [hx]; rfl, hsome⟩, ?_⟩
      rw [hprepared, List.filterMap_cons_some hx, Preparing.push, List.append_assoc]
      rfl
    · rintro ⟨hall, hsome, rfl⟩
      obtain ⟨hc, hcs⟩ := List.forall_mem_cons.mp hsome
      obtain ⟨x, hx⟩ := Option.isSome_iff_exists.mp hc
      have hfresh := hsnoc.mp (hall.sublist (List.sublist_append_left _ _))
      have hcand := standalone_candidate hx
      have hnext := hbehind.push (x := x) (by rw [hcand]; exact hfresh.2.2)
      rw [hcand] at hnext
      obtain ⟨p', hp', hprepared⟩ := (ih hnext (hsnoc.mpr hfresh)).mpr ⟨hall, hcs, by
        rw [List.filterMap_cons_some hx, Preparing.push, List.append_assoc]
        rfl⟩
      exact ⟨p', bind_eq_ok.mpr ⟨p.push x, prepareOne_iff.mpr ⟨hfresh, x, hx, rfl⟩, hp'⟩, hprepared⟩

/-- **`prepare` in closed form**: it prepares each candidate alone, when they are coherent. -/
theorem prepare_eq_ok {cs : List EligibleCandidate} {ps : List PreparedCandidate} :
    prepare cs = .ok ps ↔
      Coherent cs ∧ (∀ c ∈ cs, (standalone c).isSome) ∧ ps = cs.filterMap standalone := by
  have hnil : Coherent [] := ⟨.nil, .nil, fun c hc => absurd hc List.not_mem_nil⟩
  have h := @prepareFrom_iff ps cs _ _ Behind.nil hnil
  rw [List.nil_append, show ({} : Preparing).prepared = [] from rfl, List.nil_append] at h
  rw [← h]
  unfold prepare
  simp only [bind_eq_ok, pure_eq_ok]

/-! ## 6. What `validateCandidates` says

Candidates are struck off a table by their key.  Since the keys differ, striking off without a miss
is a permutation. -/

/-- The candidates that are still expected. -/
def stillExpected (expected : Map String EligibleCandidate) : List EligibleCandidate :=
  expected.entries.map fun entry => entry.2

/-- The table of candidates whose backing keys differ holds each of them once. -/
theorem expectedBy_perm : ∀ (cs : List EligibleCandidate) (expected : Map String EligibleCandidate),
    (cs.map fun c => c.backingKey).Nodup → (∀ c ∈ cs, c.backingKey ∉ expected) →
    (stillExpected (expectedBy cs expected)).Perm (cs ++ stillExpected expected)
  | [], _, _, _ => .refl _
  | c :: cs, expected, hnodup, hfresh => by
    obtain ⟨hc, hcs⟩ := List.nodup_cons.mp hnodup
    have hnew : c.backingKey ∉ expected := hfresh c List.mem_cons_self
    refine (expectedBy_perm cs (expected.insert c.backingKey c) hcs fun c' hc' => ?_).trans ?_
    · rw [AList.mem_insert, not_or]
      refine ⟨fun heq => hc ?_, hfresh c' (List.mem_cons_of_mem _ hc')⟩
      exact List.mem_map.mpr ⟨c', hc', heq⟩
    · have hinsert : stillExpected (expected.insert c.backingKey c) =
          c :: stillExpected expected := by
        unfold stillExpected
        rw [AList.entries_insert_of_notMem hnew]
        rfl
      rw [hinsert]
      exact List.perm_middle

/-- Striking one candidate off. -/
theorem stillExpected_erase {expected : Map String EligibleCandidate} {key : String}
    {c : EligibleCandidate} (h : expected.lookup key = some c) :
    (stillExpected expected).Perm (c :: stillExpected (expected.erase key)) := by
  have hmem : key ∈ expected := AList.lookup_isSome.mp (by rw [h]; rfl)
  obtain ⟨c', l₁, l₂, -, heq, herase⟩ := List.exists_of_kerase (AList.mem_keys.mp hmem)
  have hc : c' = c := by
    have hentry : (⟨key, c'⟩ : Sigma fun _ : String => EligibleCandidate) ∈ expected.entries := by
      rw [heq]
      exact List.mem_append_right _ List.mem_cons_self
    exact Option.some.inj ((AList.mem_lookup_iff.mpr hentry).symm.trans h)
  unfold stillExpected
  rw [show (expected.erase key).entries = l₁ ++ l₂ from herase, heq, hc, List.map_append,
    List.map_append, List.map_cons]
  exact List.perm_middle

/-- Every returned candidate is an expected one, and none is struck off twice. -/
theorem strikeOff_ok : ∀ {rs : List EligibleCandidate} {expected : Map String EligibleCandidate},
    strikeOff expected rs = .ok () → ∃ left, (stillExpected expected).Perm (rs ++ left)
  | [], expected, _ => ⟨stillExpected expected, .refl _⟩
  | r :: rs, expected, h => by
    unfold strikeOff at h
    cases hl : expected.lookup r.backingKey with
    | none =>
      rw [hl] at h
      cases h
    | some want =>
      rw [hl] at h
      simp only [check_bind_eq_ok, refuse_eq_ok, bne_eq_false_iff_eq] at h
      obtain ⟨rfl, hrest⟩ := h
      obtain ⟨left, hleft⟩ := strikeOff_ok hrest
      exact ⟨left, (stillExpected_erase hl).trans (hleft.cons r)⟩

/-- **The returned candidates are the original ones in some order.**  Every returned candidate was
expected with the same facts, none twice, and the number is the same. -/
theorem validateCandidates_perm {original returned : List EligibleCandidate}
    (h : validateCandidates original returned = .ok ())
    (hkeys : (original.map fun c => c.backingKey).Nodup) : returned.Perm original := by
  unfold validateCandidates at h
  simp only [check_bind_eq_ok, refuse_eq_ok, bne_eq_false_iff_eq] at h
  obtain ⟨hlength, hstrike⟩ := h
  obtain ⟨left, hleft⟩ := strikeOff_ok hstrike
  have hall : (stillExpected (expectedBy original ∅)).Perm original := by
    have := expectedBy_perm original ∅ hkeys fun c _ => AList.notMem_empty _
    rwa [show stillExpected ∅ = [] from rfl, List.append_nil] at this
  have hperm : (returned ++ left).Perm original := hleft.symm.trans hall
  have hnone : left = [] := by
    have := hperm.length_eq
    rw [List.length_append] at this
    exact List.eq_nil_of_length_eq_zero (by omega)
  rwa [hnone, List.append_nil] at hperm

/-- Every candidate of a table is under its backing key. -/
def Keyed (expected : Map String EligibleCandidate) : Prop :=
  ∀ key c, expected.lookup key = some c → c.backingKey = key

theorem expectedBy_keyed :
    ∀ (cs : List EligibleCandidate) {expected : Map String EligibleCandidate},
    Keyed expected → Keyed (expectedBy cs expected)
  | [], _, h => h
  | c :: cs, expected, h => by
    refine expectedBy_keyed cs fun key d hd => ?_
    by_cases hkey : key = c.backingKey
    · rw [hkey, AList.lookup_insert, Option.some.injEq] at hd
      rw [← hd, hkey]
    · rw [AList.lookup_insert_ne hkey] at hd
      exact h key d hd

/-- What is expected can be struck off. -/
theorem strikeOff_of_perm : ∀ {rs left : List EligibleCandidate}
    {expected : Map String EligibleCandidate}, Keyed expected →
    (stillExpected expected).Perm (rs ++ left) → strikeOff expected rs = .ok ()
  | [], _, _, _, _ => rfl
  | r :: rs, left, expected, hkeyed, hp => by
    have hr : r ∈ stillExpected expected := hp.mem_iff.mpr List.mem_cons_self
    obtain ⟨⟨key, c⟩, hentry, rfl⟩ := List.mem_map.mp hr
    have hl : expected.lookup key = some c := AList.mem_lookup_iff.mpr hentry
    have hkey := hkeyed key c hl
    unfold strikeOff
    dsimp only
    rw [hkey, hl]
    simp only [check_bind_eq_ok, refuse_eq_ok, bne_self_eq_false, true_and]
    refine @strikeOff_of_perm rs left _ (fun k d hd => ?_) ?_
    · by_cases hk : k = key
      · rw [hk, AList.lookup_erase] at hd
        cases hd
      · rw [AList.lookup_erase_ne hk] at hd
        exact hkeyed k d hd
    · exact ((stillExpected_erase hl).symm.trans hp).cons_inv

/-- **Any order of the original candidates is accepted.** -/
theorem validateCandidates_of_perm {original returned : List EligibleCandidate}
    (hp : returned.Perm original) (hkeys : (original.map fun c => c.backingKey).Nodup) :
    validateCandidates original returned = .ok () := by
  have hall : (stillExpected (expectedBy original ∅)).Perm original := by
    have := expectedBy_perm original ∅ hkeys fun c _ => AList.notMem_empty _
    rwa [show stillExpected ∅ = [] from rfl, List.append_nil] at this
  unfold validateCandidates
  rw [check_bind_eq_ok, refuse_eq_ok, bne_eq_false_iff_eq]
  refine ⟨hp.length_eq.symm, @strikeOff_of_perm returned [] _ ?_ ?_⟩
  · exact expectedBy_keyed original fun key c h => by cases h
  · rw [List.append_nil]
    exact hall.trans hp.symm

/-! ## 7. The contract -/

section Contract

variable {r : Option Registry} {request : RequestSnapshot} {m : Memory} {caller : Slice m}

/-- The array of the caller is never written. -/
theorem Registry.rank_memory (i : Nat) (hi : i < m.length) :
    (Registry.rank r request m caller).2[i]? = m[i]? := by
  unfold Registry.rank
  dsimp only
  split
  · rfl
  · rw [List.getElem?_set_ne (by omega), List.getElem?_append_left hi]

/-- A ranking is accepted only after the check that it has the candidates that were given. -/
theorem acceptRanking_ok {p : Policy} {candidates given : List EligibleCandidate}
    {ranking : Ranking given} {ranked : List RankedCandidate}
    (h : acceptRanking p candidates ranking = .ok ranked) :
    validateCandidates candidates (ranked.map fun r => r.candidate) = .ok () := by
  unfold acceptRanking at h
  cases ha : ranking.answer with
  | error message =>
    rw [ha] at h
    cases h
  | ok result =>
    rw [ha] at h
    simp only [check_bind_eq_ok, mapError_eq_ok, pure_eq_ok] at h
    obtain ⟨-, -, hvalid, rfl⟩ := h
    exact hvalid

end Contract

/-- **The contract of `Registry.Rank`.**  Whatever the strategy writes and returns, when the call
succeeds its answer is the caller's candidates in some order with every fact unchanged, the arrays
of the caller are as before, no backing key and no storage occurs twice, and every budget is
admitted.  The strategy works on a clone, so the arrays that were there are untouched; the answer is
judged by the two validators alone, and they compare with the candidates of the caller. -/
theorem Registry.rank_contract (r : Option Registry) (request : RequestSnapshot) (m : Memory)
    (caller : Slice m) {ranked : List RankedCandidate}
    (h : (Registry.rank r request m caller).1 = .ok ranked) :
    (ranked.map fun r => r.candidate).Perm (m.get caller) ∧
    (Registry.rank r request m caller).2[caller.val]? = some (m.get caller) ∧
    ((m.get caller).map fun c => c.backingKey).Nodup ∧
    ((m.get caller).map fun c => c.storageID).Nodup ∧
    ∀ c ∈ m.get caller, (∃ p, projectBudget c.member = .ok p) ∧
      (c.domainKey ≠ "" → ∃ p, projectBudget c.domain = .ok p) := by
  have hmemory : (Registry.rank r request m caller).2[caller.val]? = m[caller.val]? :=
    Registry.rank_memory caller.val caller.isLt
  rw [hmemory]
  unfold Registry.rank at h
  dsimp only at h
  cases hreq : acceptRequest r request (m.get caller) with
  | error e =>
    rw [hreq] at h
    cases h
  | ok strategy =>
    rw [hreq] at h
    unfold acceptRequest at hreq
    obtain ⟨_, -, hreq⟩ := bind_eq_ok.mp hreq
    obtain ⟨-, hreq⟩ := check_bind_eq_ok.mp hreq
    obtain ⟨_, -, hreq⟩ := bind_eq_ok.mp hreq
    obtain ⟨_, hprepare, -⟩ := bind_eq_ok.mp hreq
    obtain ⟨hp, hsome, -⟩ := prepare_eq_ok.mp hprepare
    refine ⟨validateCandidates_perm (acceptRanking_ok h) hp.backings, ?_, hp.backings, hp.storages,
      fun c hc => ?_⟩
    · exact List.getElem?_eq_getElem caller.isLt
    · obtain ⟨x, hx⟩ := Option.isSome_iff_exists.mp (hsome c hc)
      obtain ⟨-, member, domain, hm, hd, -⟩ := standalone_eq_some.mp hx
      refine ⟨⟨member, hm⟩, fun hkey => ⟨domain, ?_⟩⟩
      rwa [DomainBudget, if_pos hkey] at hd

/-- A strategy that overwrites its slice with the reverse and returns the candidates in order. -/
def sampleStrategy : Strategy := fun _ given =>
  { written := given.reverse, same_length := List.length_reverse,
    answer := .ok (given.map fun c => { candidate := c }) }

def sampleRegistry : Registry := ⟨(∅ : Map _ _).insert ⟨"test", 1⟩ sampleStrategy⟩

def sampleRequest : RequestSnapshot :=
  { policy := ⟨"test", 1⟩, «namespace» := "director", allocationKey := "agent",
    allocationGroup := "vm" }

def sampleCandidates : List EligibleCandidate :=
  [{ storageID := "fast", backingKey := "a", domainKey := "", member := ⟨100, 80, 0, 0, 10, 0⟩ },
   { storageID := "slow", backingKey := "b", domainKey := "rack", member := ⟨100, 80, 0, 0, 10, 0⟩,
     domain := ⟨200, 150, 0, 0, 10, 90⟩ }]

theorem rank_contract_sample : ∃ ranked : List RankedCandidate,
    (Registry.rank (some sampleRegistry) sampleRequest [sampleCandidates] 0).1 = .ok ranked ∧
    (ranked.map fun r => r.candidate).Perm sampleCandidates := by
  have h : (Registry.rank (some sampleRegistry) sampleRequest [sampleCandidates] 0).1 =
      .ok (sampleCandidates.map fun c => { candidate := c }) := by decide +kernel
  exact ⟨_, h,
    (Registry.rank_contract (some sampleRegistry) sampleRequest [sampleCandidates] 0 h).1⟩

end Storage
