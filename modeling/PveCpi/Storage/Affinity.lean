/-
# Few siblings first

`rankCandidates` of `storage_placement_plan.go` when the anti-affinity preference applies.  The
candidates within the utilization band are put into buckets by the number of siblings on them, each
bucket is ranked by the strategy on its own, and the buckets follow each other with the fewest
siblings first; whoever is outside the band comes last.

`Partitioned` says what that makes of the candidates, and `rankCandidates_partitioned` that the code
does it.  That ranking the buckets never fails where ranking the whole list would succeed is a
property of the built-in strategies (`builtinRegistry_rank_part`): their checks and scores are as
good on a part.

Ranking a bucket is another call of the strategy than ranking the list, so a partitioned ranking is
not the strategy's ranking rearranged: for `weighted`, the race of a bucket is run without the
others.  `Partitioned` therefore says what the order inside a bucket is, namely that of the strategy
on THAT bucket.

Who is inside the band is decided by floating-point arithmetic that stays a parameter; the partition
is right whatever it answers.
-/
import PveCpi.Storage.Feasible
import PveCpi.Storage.Strategies

namespace Storage

open Lib Lib.Check

/-! ## 1. What the partition means -/

/-- A ranking that puts the candidates within the band first, by the number of their siblings, and
ranks each bucket on its own. -/
structure Partitioned (within : EligibleCandidate → Bool) (siblings : EligibleCandidate → Int)
    (rank : List EligibleCandidate → Except PlanErr (List RankedCandidate))
    (candidates ranked : List EligibleCandidate) : Prop where
  perm : ranked.Perm candidates
  band : ranked.Pairwise fun a b => within b = true → within a = true
  fewest : (ranked.filter within).Pairwise fun a b => siblings a ≤ siblings b
  bucket : ∀ n, (candidates.filter fun c => within c && siblings c == n) ≠ [] →
    ∃ order, rank (candidates.filter fun c => within c && siblings c == n) = .ok order ∧
      (order.map fun r => r.candidate) = ranked.filter fun c => within c && siblings c == n
  outside : (candidates.filter fun c => !within c) ≠ [] →
    ∃ order, rank (candidates.filter fun c => !within c) = .ok order ∧
      (order.map fun r => r.candidate) = ranked.filter fun c => !within c

section Buckets

variable {env : Surroundings} {req : StoragePlanRequest} {request : RequestSnapshot}
  {sc : Scoring} {text : RankErr → String}

@[simp] theorem annotateSiblingBand_candidates (band : Int) (inBand : Bool)
    (ranked : List RankedCandidate) :
    (annotateSiblingBand req band inBand ranked).map (fun r => r.candidate) =
      ranked.map fun r => r.candidate := by
  simp [annotateSiblingBand]

theorem rankOnce_builtin (henv : env.registry = builtinRegistry sc text)
    {cs : List EligibleCandidate} {ranked : List RankedCandidate} :
    rankOnce env request cs = .ok ranked ↔
      (Registry.rank (some (builtinRegistry sc text)) request [cs]
      ⟨0, Nat.one_pos⟩).1 = .ok ranked := by
  unfold rankOnce
  rw [mapError_eq_ok, henv]

theorem rankOnce_perm (henv : env.registry = builtinRegistry sc text)
    {cs : List EligibleCandidate} {ranked : List RankedCandidate}
    (h : rankOnce env request cs = .ok ranked) : (ranked.map fun r => r.candidate).Perm cs := by
  obtain ⟨kind, -, -, hrank, -⟩ := builtinRegistry_rank.mp ((rankOnce_builtin henv).mp h)
  exact rankBuiltin_candidates hrank

/-- A part of what can be ranked can be ranked. -/
theorem rankOnce_part (henv : env.registry = builtinRegistry sc text) (hsc : sc.Draws)
    {cs sub : List EligibleCandidate} {ranked : List RankedCandidate} (hsub : sub.Sublist cs)
    (h : rankOnce env request cs = .ok ranked) : ∃ ranked', rankOnce env request sub =
      .ok ranked' := by
  have hwhole := (rankOnce_builtin henv).mp h
  have hget : ([sub].get ⟨0, Nat.one_pos⟩).Sublist ([cs].get ⟨0, Nat.one_pos⟩) := hsub
  obtain ⟨ranked', hpart⟩ := builtinRegistry_rank_part hsc hget hwhole
  exact ⟨ranked', (rankOnce_builtin henv).mpr hpart⟩

/-! ## 2. The buckets

The counts are sorted and without repetition, so the buckets are disjoint and cover the candidates
within the band. -/

/-- The candidates of one bucket. -/
def bucketOf (req : StoragePlanRequest) (cs : List EligibleCandidate) (n : Int) :
    List EligibleCandidate :=
  cs.filter fun c => siblingsOn req c.backingKey == n

/-- What the loop over the sibling counts makes. -/
structure Bucketed (env : Surroundings) (req : StoragePlanRequest) (request : RequestSnapshot)
    (cs : List EligibleCandidate) (counts : List Int) (ranked : List EligibleCandidate) : Prop where
  perm : ranked.Perm (cs.filter fun c => decide (siblingsOn req c.backingKey ∈ counts))
  fewest : ranked.Pairwise fun a b => siblingsOn req a.backingKey ≤ siblingsOn req b.backingKey
  bucket : ∀ n ∈ counts, ∃ order, rankOnce env request (bucketOf req cs n) = .ok order ∧
    (order.map fun r => r.candidate) = bucketOf req ranked n

theorem Bucketed.siblings {cs ranked : List EligibleCandidate} {counts : List Int}
    (h : Bucketed env req request cs counts ranked) {c : EligibleCandidate} (hc : c ∈ ranked) :
    siblingsOn req c.backingKey ∈ counts := by
  have := (List.mem_filter.mp (h.perm.mem_iff.mp hc)).2
  rwa [decide_eq_true_eq] at this

theorem bucketOf_eq_nil {cs : List EligibleCandidate} {n : Int}
    (h : ∀ c ∈ cs, siblingsOn req c.backingKey ≠ n) : bucketOf req cs n = [] := by
  refine List.filter_eq_nil_iff.mpr fun c hc => ?_
  rw [beq_iff_eq]
  exact h c hc

theorem bucketOf_eq_self {cs : List EligibleCandidate} {n : Int}
    (h : ∀ c ∈ cs, siblingsOn req c.backingKey = n) : bucketOf req cs n = cs := by
  refine List.filter_eq_self.mpr fun c hc => ?_
  rw [beq_iff_eq]
  exact h c hc

/-- One more bucket in front. -/
theorem Bucketed.cons {cs first rest : List EligibleCandidate} {n : Int} {counts : List Int}
    {order : List RankedCandidate} (hn : ∀ m ∈ counts, n < m)
    (hfirst : rankOnce env request (bucketOf req cs n) = .ok order)
    (horder : (order.map fun r => r.candidate) = first) (hperm : first.Perm (bucketOf req cs n))
    (h : Bucketed env req request cs counts rest) :
    Bucketed env req request cs (n :: counts) (first ++ rest) := by
  have hmem : ∀ c ∈ first, siblingsOn req c.backingKey = n := by
    intro c hc
    have := (List.mem_filter.mp (hperm.mem_iff.mp hc)).2
    rwa [beq_iff_eq] at this
  have hrest : ∀ c ∈ rest, n < siblingsOn req c.backingKey := fun c hc => hn _ (h.siblings hc)
  refine ⟨?_, ?_, fun m hm => ?_⟩
  · have hsplit :=
      List.filter_append_perm (fun c : EligibleCandidate => siblingsOn req c.backingKey == n)
      (cs.filter fun c => decide (siblingsOn req c.backingKey ∈ n :: counts))
    refine List.Perm.trans ?_ hsplit
    have h1 : (cs.filter fun c => decide (siblingsOn req c.backingKey ∈ n :: counts)).filter
        (fun c => siblingsOn req c.backingKey == n) = bucketOf req cs n := by
      rw [List.filter_filter, bucketOf]
      refine List.filter_congr fun c _ => ?_
      by_cases heq : siblingsOn req c.backingKey = n <;> simp [heq]
    have h2 : (cs.filter fun c => decide (siblingsOn req c.backingKey ∈ n :: counts)).filter
        (fun c => !(siblingsOn req c.backingKey == n)) =
        cs.filter fun c => decide (siblingsOn req c.backingKey ∈ counts) := by
      rw [List.filter_filter]
      refine List.filter_congr fun c _ => ?_
      by_cases heq : siblingsOn req c.backingKey = n
      · have hnot : n ∉ counts := fun hin => absurd (hn n hin) (lt_irrefl n)
        simp [heq, hnot]
      · simp [heq]
    rw [h1, h2]
    exact hperm.append h.perm
  · rw [List.pairwise_append]
    refine ⟨?_, h.fewest, fun a ha b hb => ?_⟩
    · exact List.pairwise_of_forall_mem_list fun a ha b hb => by rw [hmem a ha, hmem b hb]
    · rw [hmem a ha]
      exact le_of_lt (hrest b hb)
  · have happend : bucketOf req (first ++ rest) m = bucketOf req first m ++ bucketOf req rest m :=
      List.filter_append _ _
    rw [happend]
    rcases List.mem_cons.mp hm with rfl | hm
    · rw [bucketOf_eq_self hmem, bucketOf_eq_nil fun c hc => ne_of_gt (hrest c hc), List.append_nil]
      exact ⟨order, hfirst, horder⟩
    · have hnone : bucketOf req first m = [] := by
        refine bucketOf_eq_nil fun c hc => ?_
        rw [hmem c hc]
        exact ne_of_lt (hn m hm)
      rw [hnone, List.nil_append]
      exact h.bucket m hm

/-- **The loop over the sibling counts.** -/
theorem rankBuckets_bucketed (henv : env.registry = builtinRegistry sc text) {band : Int}
    {cs : List EligibleCandidate} : ∀ {counts : List Int} {ranked : List RankedCandidate},
    counts.Pairwise (· < ·) → rankBuckets env req request band cs counts = .ok ranked →
    Bucketed env req request cs counts (ranked.map fun r => r.candidate)
  | [], ranked, _, h => by
    cases h
    refine ⟨?_, List.Pairwise.nil, fun n hn => absurd hn List.not_mem_nil⟩
    simp
  | n :: counts, ranked, hsorted, h => by
    obtain ⟨hn, hcounts⟩ := List.pairwise_cons.mp hsorted
    obtain ⟨order, horder, h⟩ := bind_eq_ok.mp h
    obtain ⟨rest, hrest, h⟩ := bind_eq_ok.mp h
    cases h
    rw [List.map_append, annotateSiblingBand_candidates]
    exact (rankBuckets_bucketed henv hcounts hrest).cons hn horder rfl (rankOnce_perm henv horder)

/-- It succeeds when every bucket can be ranked. -/
theorem rankBuckets_ok {band : Int} {cs : List EligibleCandidate} {counts : List Int}
    (h : ∀ n ∈ counts, ∃ order, rankOnce env request (bucketOf req cs n) = .ok order) :
    ∃ ranked, rankBuckets env req request band cs counts = .ok ranked := by
  induction counts with
  | nil => exact ⟨[], rfl⟩
  | cons n counts ih =>
    obtain ⟨hn, hcounts⟩ := List.forall_mem_cons.mp h
    obtain ⟨order, horder⟩ := hn
    obtain ⟨rest, hrest⟩ := ih hcounts
    exact ⟨_, bind_eq_ok.mpr ⟨order, horder, bind_eq_ok.mpr ⟨rest, hrest, rfl⟩⟩⟩

/-- The sibling counts of some candidates, each one once and in order. -/
def siblingCounts (req : StoragePlanRequest) (cs : List EligibleCandidate) : List Int :=
  (cs.map fun c => siblingsOn req c.backingKey).dedup.insertionSort (· ≤ ·)

theorem mem_siblingCounts {cs : List EligibleCandidate} {n : Int} :
    n ∈ siblingCounts req cs ↔ ∃ c ∈ cs, siblingsOn req c.backingKey = n := by
  rw [siblingCounts, List.mem_insertionSort, List.mem_dedup, List.mem_map]

theorem siblingCounts_increasing (req : StoragePlanRequest) (cs : List EligibleCandidate) :
    (siblingCounts req cs).Pairwise (· < ·) := by
  have hsorted : (siblingCounts req cs).Pairwise (· ≤ ·) := List.pairwise_insertionSort _ _
  have hnodup : (siblingCounts req cs).Nodup :=
    (List.perm_insertionSort _ _).nodup_iff.mpr (List.nodup_dedup _)
  exact hsorted.imp₂ (fun a b hle hne => lt_of_le_of_ne hle hne) hnodup

/-! ## 3. The whole ranking -/

/-- All candidates within the band are in some bucket. -/
theorem filter_siblingCounts (req : StoragePlanRequest) (cs : List EligibleCandidate) :
    (cs.filter fun c => decide (siblingsOn req c.backingKey ∈ siblingCounts req cs)) = cs := by
  refine List.filter_eq_self.mpr fun c hc => ?_
  rw [decide_eq_true_eq]
  exact mem_siblingCounts.mpr ⟨c, hc, rfl⟩

/-- The buckets within the band, and the rest behind them. -/
theorem Partitioned.of_bucketed {within : EligibleCandidate → Bool}
    {candidates inside behind : List EligibleCandidate}
    (hin : Bucketed env req request (candidates.filter within)
      (siblingCounts req (candidates.filter within)) inside)
    (hperm : behind.Perm (candidates.filter fun c => !within c))
    (hbehind : (candidates.filter fun c => !within c) ≠ [] → ∃ order,
      rankOnce env request (candidates.filter fun c => !within c) = .ok order ∧
      (order.map fun r => r.candidate) = behind) :
    Partitioned within (fun c => siblingsOn req c.backingKey) (rankOnce env request) candidates
      (inside ++ behind) := by
  have hinside : inside.Perm (candidates.filter within) := by
    have := hin.perm
    rwa [filter_siblingCounts] at this
  have hwithin : ∀ c ∈ inside, within c = true :=
    fun c hc => (List.mem_filter.mp (hinside.mem_iff.mp hc)).2
  have hout : ∀ c ∈ behind, within c = false := by
    intro c hc
    have := (List.mem_filter.mp (hperm.mem_iff.mp hc)).2
    rwa [Bool.not_eq_true'] at this
  have hleft : (inside ++ behind).filter within = inside := by
    rw [List.filter_append, List.filter_eq_self.mpr hwithin,
      List.filter_eq_nil_iff.mpr fun c hc => by rw [hout c hc]; exact Bool.false_ne_true,
      List.append_nil]
  have hright : (inside ++ behind).filter (fun c => !within c) = behind := by
    rw [List.filter_append,
      List.filter_eq_nil_iff.mpr fun c hc => by rw [hwithin c hc]; exact Bool.false_ne_true,
      List.filter_eq_self.mpr fun c hc => by rw [hout c hc]; rfl, List.nil_append]
  have hsplit : ∀ (l : List EligibleCandidate) (n : Int),
      (l.filter fun c => within c && siblingsOn req c.backingKey == n) =
        bucketOf req (l.filter within) n := by
    intro l n
    rw [bucketOf, List.filter_filter]
    exact List.filter_congr fun c _ => Bool.and_comm _ _
  refine ⟨?_, ?_, ?_, fun n hne => ?_, fun hne => ?_⟩
  · exact (hinside.append hperm).trans (List.filter_append_perm within candidates)
  · rw [List.pairwise_append]
    refine ⟨List.pairwise_of_forall_mem_list fun a ha b _ _ => hwithin a ha,
      List.pairwise_of_forall_mem_list fun a _ b hb h => ?_, fun a ha b _ _ => hwithin a ha⟩
    rw [hout b hb] at h
    cases h
  · rw [hleft]
    exact hin.fewest
  · rw [hsplit] at hne
    obtain ⟨c, hc⟩ := List.exists_mem_of_ne_nil _ hne
    obtain ⟨hc, hn⟩ := List.mem_filter.mp hc
    rw [hsplit, hsplit, hleft]
    exact hin.bucket n (mem_siblingCounts.mpr ⟨c, hc, eq_of_beq hn⟩)
  · rw [hright]
    exact hbehind hne

end Buckets

/-- **The sibling-aware ranking.**  When the partition applies, every ranking that succeeds is a
permutation of the candidates with the ones within the band first, by the number of their siblings,
and in each bucket in the order of the strategy on that bucket; and it succeeds whenever the whole
list can be ranked.  The buckets are sublists, and a sublist of what can be ranked can be ranked
(`rankOnce_part`); each ranking is a permutation of its bucket, and the buckets are joined by
increasing count. -/
theorem rankCandidates_partitioned (env : Surroundings) (sc : Scoring) (text : RankErr → String)
    (henv : env.registry = builtinRegistry sc text) (hsc : sc.Draws) (req : StoragePlanRequest)
    (request : RequestSnapshot) (r : StorageRoleSelection) (candidates : List EligibleCandidate)
    (utilization : Map String Float64) (primary : Bool)
    (hactive : partitionsBySiblingCount req r primary = true) :
    (∀ ranked, rankCandidates env req request r candidates utilization primary = .ok ranked →
      Partitioned (fun c => !outsideBand env (antiAffinityBandPct r) utilization candidates c)
        (fun c => siblingsOn req c.backingKey) (rankOnce env request) candidates
        (ranked.map fun r => r.candidate)) ∧
    ∀ whole, rankOnce env request candidates = .ok whole →
      ∃ ranked, rankCandidates env req request r candidates utilization primary = .ok ranked := by
  unfold rankCandidates
  simp only [hactive, Bool.not_true, Bool.false_eq_true, if_false]
  generalize hout : outsideBand env (antiAffinityBandPct r) utilization candidates = outside
  have hdouble : (candidates.filter fun c => !!outside c) = candidates.filter outside :=
    List.filter_congr fun c _ => Bool.not_not _
  constructor
  · intro ranked h
    obtain ⟨inside, hinside, h⟩ := bind_eq_ok.mp h
    have hbuckets := rankBuckets_bucketed henv (siblingCounts_increasing req _) hinside
    split_ifs at h with hempty
    · rw [pure_eq_ok] at h
      subst h
      rw [List.isEmpty_iff] at hempty
      rw [← List.append_nil (inside.map fun r => r.candidate)]
      refine Partitioned.of_bucketed hbuckets ?_ fun hne => ?_
      · rw [hdouble, hempty]
      · rw [hdouble] at hne
        exact absurd hempty hne
    · obtain ⟨last, hlast, h⟩ := bind_eq_ok.mp h
      rw [pure_eq_ok] at h
      subst h
      rw [List.map_append, annotateSiblingBand_candidates]
      refine Partitioned.of_bucketed hbuckets ?_ fun _ => ⟨last, ?_, rfl⟩
      · rw [hdouble]
        exact rankOnce_perm henv hlast
      · rw [hdouble]
        exact hlast
  · intro whole hwhole
    obtain ⟨inside, hinside⟩ : ∃ inside, rankBuckets env req request (antiAffinityBandPct r)
        (candidates.filter fun c => !outside c)
        (siblingCounts req (candidates.filter fun c => !outside c)) = .ok inside :=
      rankBuckets_ok fun n _ =>
        rankOnce_part henv hsc (List.filter_sublist.trans List.filter_sublist) hwhole
    obtain ⟨last, hlast⟩ : ∃ last, rankOnce env request (candidates.filter outside) = .ok last :=
      rankOnce_part henv hsc List.filter_sublist hwhole
    refine exists_congr (fun ranked => bind_eq_ok) |>.mpr ?_
    split_ifs with hempty
    · exact ⟨_, inside, hinside, rfl⟩
    · exact ⟨_, inside, hinside, bind_eq_ok.mpr ⟨last, hlast, rfl⟩⟩

/-- The sample race gives a positive finite score for every weight. -/
theorem sampleScoring_draws : sampleScoring.Draws := by
  intro seed encoded weight _
  have hw := weight.toNat_lt
  have hbits : (sampleScoring.race (sampleScoring.uniform seed encoded) weight).bits.toNat =
      0x3FF0000000000000 - weight.toNat / 16 := by
    dsimp only [sampleScoring]
    rw [UInt64.toNat_ofNat', Nat.mod_eq_of_lt (by omega)]
  generalize sampleScoring.race (sampleScoring.uniform seed encoded) weight = score at hbits
  have hspecial : score.special = false := by
    rw [Float64.special, beq_eq_false_iff_ne, hbits]
    omega
  have hplace : ¬ score.place ≤ Float64.zero.place := by
    have hzero : Float64.zero.place = 0 := by decide
    have hscore : score.place = score.bits.toNat := if_pos (by omega)
    omega
  have hlow : (⟨0x3FE0000000000000⟩ : Float64).le .zero = false := by decide
  have hhigh : Float64.one.le ⟨0x3FE0000000000000⟩ = false := by decide
  refine ⟨hlow, hhigh, ?_, ?_, ?_⟩
  · rw [Float64.le, decide_eq_false hplace, Bool.and_false]
  · rw [Float64.isNaN, hspecial, Bool.false_and]
  · rw [Float64.isInf, hspecial, Bool.false_and]

/-- The sample candidates: one sibling on the first capacity, the second one outside the band. -/
def sampleBand : Surroundings :=
  { sampleSurroundings with registry := builtinRegistry sampleScoring fun _ => ""
                            beyond := fun _ minimum used => minimum.lt used }

def sampleGrouped : StoragePlanRequest :=
  { samplePlanRequest with siblingGroupCounts := AList.singleton "a" 1, group := "cf/web" }

def sampleUtilization : Map String Float64 :=
  (AList.singleton "a" Float64.zero).insert "b" Float64.one

def sampleLeast : RequestSnapshot := { sampleSeeded with policy := StrategyKind.least.policy }

theorem rankCandidates_partitioned_sample :
    ∃ ranked, rankCandidates sampleBand sampleGrouped sampleLeast
      (sampleRole storageRoleRoot) sampleCandidates sampleUtilization true = .ok ranked ∧
    (ranked.map fun r => r.candidate).Perm sampleCandidates := by
  have h : (rankOnce sampleBand sampleLeast sampleCandidates).toOption.isSome := by decide +kernel
  obtain ⟨whole, hwhole⟩ := Option.isSome_iff_exists.mp h
  have hpart :=
    rankCandidates_partitioned sampleBand sampleScoring (fun _ => "") rfl sampleScoring_draws
    sampleGrouped sampleLeast (sampleRole storageRoleRoot) sampleCandidates sampleUtilization true
    (by decide +kernel)
  obtain ⟨ranked, hranked⟩ := hpart.2 whole (toOption_eq_some.mp hwhole)
  exact ⟨ranked, hranked, (hpart.1 ranked hranked).perm⟩

end Storage
