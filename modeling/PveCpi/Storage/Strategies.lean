/-
# The built-in strategies

`storageplacement/strategies.go` and the scores of `encoding.go`.  A strategy prepares the
candidates, gives each one a score and sorts: `spread` by a hash of the request and the backing,
`weighted` by an exponential race of the domains and then of their members, `least` by the projected
utilizations.

The comparison of `weighted` is an order only on the candidates of one ranking, where the score of a
domain is the same for all its members.  There each comparison is a lexicographic one
(`Lib.Sorting`), and two candidates with different backings are never equal to it.  So the ranking
does not depend on the order of the candidates (`rankBuiltin_perm`), and for `spread` and `least`,
whose scores do not look at the other candidates, leaving candidates out leaves the rest in their
order (`rankBuiltin_sublist`).

The hash, the race and the quotient of two floating-point numbers are arbitrary functions, and so is
the sort as far as `slices.SortFunc` leaves it open.

## Why this is not obvious

`slices.SortFunc` is not stable and demands a strict weak order; given less it may return anything.
The comparison of `weighted` looks at the scores of the domains first, and compares members only
within a domain.  Two members of one domain have the same domain score in one ranking, but nothing
in the types says so; on candidates of two rankings the comparison is not transitive.  So the order
is shown for the scored candidates of one call (`Rankable.ordered`), with finite scores and positive
totals, each of which the code has checked before.

The float arithmetic is never evaluated in a proof: a score is a function of the seed and of the
tuple that is hashed, and all that is used is that it depends on nothing else.
-/
import PveCpi.Storage.Ranking
import PveCpi.Lib.Sorting

namespace Storage

open Lib.Check
open Lib.Sorting (SortFunc OrderedOn Separates)
open Lib.Text (nonblank)

/-! ## 1. Scores -/

inductive StrategyKind where
  | spread
  | weighted
  | least
  deriving DecidableEq, Repr

/-- What the strategies take from the standard library. -/
structure Scoring where
  sha256 : List UInt8 → BitVec 256
  /-- The number between 0 and 1 that a seed and a tuple draw. -/
  uniform : BitVec 256 → List UInt8 → Float64
  /-- `-math.Log(u) / float64(weight)`. -/
  race : Float64 → UInt64 → Float64
  /-- `float64(a) / float64(b)`. -/
  quotient : UInt64 → UInt64 → Float64
  slices : SortFunc

section Scores

variable (sc : Scoring) (r : RequestSnapshot)

def rendezvous (backing : String) : Except RankErr (BitVec 256) := do
  let encoded ← tuple r [backing]
  pure (sc.sha256 encoded)

def weightedScore (weight : UInt64) (suffix : List String) : Except RankErr Float64 := do
  refuse (decide (weight = 0)) .drawWeight
  let encoded ← tuple r suffix
  let u := sc.uniform r.seed encoded
  let score := sc.race u weight
  refuse (u.le .zero || Float64.one.le u || score.le .zero || score.isNaN || score.isInf) .draw
  pure score

end Scores

def compareFloat (a b : Float64) : Ordering := if a.lt b then .lt else if b.lt a then .gt else .eq

/-! ## 2. Ranking -/

namespace DomainIdentity

def «class» : DomainIdentity → String
  | .declared _ => "declared"
  | .backing _ => "backing"

def key : DomainIdentity → String
  | .declared k => k
  | .backing k => k

end DomainIdentity

/-- A prepared candidate with what is returned for it. -/
structure ScoredCandidate extends PreparedCandidate where
  ranked : RankedCandidate

/-- The weight of what a projection leaves: at least one byte. -/
def BudgetProjection.weight (p : BudgetProjection) : UInt64 := max 1 p.residualBytes

/-- The least weight of each domain. -/
def domainWeights : List PreparedCandidate → Map DomainIdentity UInt64 → Map DomainIdentity UInt64
  | [], weights => weights
  | c :: cs, weights =>
    if (weights.lookup c.domainID).all fun previous => decide (c.domain.weight < previous) then
      domainWeights cs (weights.insert c.domainID c.domain.weight)
    else domainWeights cs weights

section Rank

variable (sc : Scoring) (kind : StrategyKind) (request : RequestSnapshot)

/-- The scores of the domains, in one order of the map. -/
def domainScores : List (Sigma fun _ : DomainIdentity => UInt64) →
    Except RankErr (Map DomainIdentity Float64)
  | [] => .ok ∅
  | e :: es => do
    let score ← weightedScore sc request e.2 ["domain", e.1.class, e.1.key]
    let scores ← domainScores es
    pure (scores.insert e.1 score)

/-- One round of the second loop of `Rank`. -/
def scoreCandidate (weights : Map DomainIdentity UInt64) (scores : Map DomainIdentity Float64)
    (c : PreparedCandidate) : Except RankErr ScoredCandidate := do
  let hash ← rendezvous sc request c.candidate.backingKey
  match kind with
  | .spread =>
    pure { c with ranked := { candidate := c.candidate, rendezvous := hash,
                              reason := "descending SHA-256 rendezvous score" } }
  | .weighted => do
    let score ← weightedScore sc request c.member.weight ["member", c.candidate.backingKey]
    pure { c with ranked := { candidate := c.candidate, rendezvous := hash, score := score,
                              domainScore := (scores.lookup c.domainID).getD .zero,
                              memberWeight := c.member.weight,
                              domainWeight := (weights.lookup c.domainID).getD 0,
                              reason := "ascending domain then member exponential-race score" } }
  | .least =>
    pure { c with ranked := { candidate := c.candidate, rendezvous := hash,
                              score := sc.quotient c.member.projectedUsedBytes c.member.totalBytes,
                              domainScore :=
                                sc.quotient c.domain.projectedUsedBytes c.domain.totalBytes,
                              reason := "ascending projected domain then member utilization; " ++
                                "rendezvous ties" } }

/-- The ties of `spread` and `least`: the larger hash first, then the backing. -/
def compareRendezvous (a b : ScoredCandidate) : Ordering :=
  (compare b.ranked.rendezvous a.ranked.rendezvous).then
    (compare a.candidate.backingKey b.candidate.backingKey)

def comparePrepared (a b : ScoredCandidate) : Ordering :=
  match kind with
  | .weighted =>
    if a.domainID ≠ b.domainID then
      (compareFloat a.ranked.domainScore b.ranked.domainScore).then
        ((compare a.domainID.class b.domainID.class).then (compare a.domainID.key b.domainID.key))
    else
      (compareFloat a.ranked.score b.ranked.score).then
        (compare a.candidate.backingKey b.candidate.backingKey)
  | .least =>
    (compareRatio a.domain b.domain).then
      ((compareRatio a.member b.member).then (compareRendezvous a b))
  | .spread => compareRendezvous a b

/-- `Rank` of a built-in strategy. -/
def rankBuiltin (candidates : List EligibleCandidate) : Except RankErr (List RankedCandidate) := do
  refuse (decide (kind = .weighted) && !request.seedSet) .seed
  let prepared ← prepare candidates
  let weights := domainWeights prepared ∅
  let scores ← (if kind = .weighted then domainScores sc request weights.entries else .ok ∅)
  let scored ← prepared.mapM (scoreCandidate sc kind request weights scores)
  pure ((sc.slices.sort (comparePrepared kind) scored).map fun c => c.ranked)

end Rank

/-! ## 3. The comparisons are orders

Lexicographic combinations of comparisons of keys.  A comparison that ends with the backing key
separates candidates, since keys differ. -/

theorem Float64.zero_finite : Float64.zero.isNaN = false ∧ Float64.zero.isInf = false := by decide

theorem compareFloat_eq {a b : Float64} (ha : a.isNaN = false) (hb : b.isNaN = false) :
    compareFloat a b = compare a.place b.place := by
  simp only [compareFloat, Float64.lt, ha, hb, Bool.not_false, Bool.true_and, decide_eq_true_eq]
  split_ifs with hlt hgt
  · exact (Int.compare_eq_lt.mpr hlt).symm
  · exact (Int.compare_eq_gt.mpr hgt).symm
  · exact (Int.compare_eq_eq.mpr (by omega)).symm

@[simp] theorem compareFloat_self (a : Float64) : compareFloat a a = .eq := by
  simp [compareFloat, Float64.lt]

/-- A domain is known by its class and its key. -/
theorem DomainIdentity.eq_of_compare {a b : DomainIdentity}
    (h : (compare a.class b.class).then (compare a.key b.key) = .eq) : a = b := by
  rw [Ordering.then_eq_eq, Std.compare_eq_iff_eq, Std.compare_eq_iff_eq] at h
  obtain ⟨hclass, hkey⟩ := h
  cases a <;> cases b <;> simp_all [DomainIdentity.class, DomainIdentity.key]

/-- What the sort relies on. -/
structure Rankable (kind : StrategyKind) (l : List ScoredCandidate) : Prop where
  backings : (l.map fun a => a.candidate.backingKey).Nodup
  numbers : kind = .weighted → ∀ a ∈ l,
    a.ranked.score.isNaN = false ∧ a.ranked.domainScore.isNaN = false
  domains : kind = .weighted → ∀ a ∈ l, ∀ b ∈ l, a.domainID = b.domainID →
    a.ranked.domainScore = b.ranked.domainScore
  totals : ∀ a ∈ l, 0 < a.member.totalBytes.toNat ∧ 0 < a.domain.totalBytes.toNat

section Orders

variable {kind : StrategyKind} {l : List ScoredCandidate}

/-- Candidates that are equal to the comparison have one backing. -/
theorem comparePrepared_eq {a b : ScoredCandidate} (h : comparePrepared kind a b = .eq) :
    a.candidate.backingKey = b.candidate.backingKey := by
  cases kind with
  | spread =>
    simp only [comparePrepared, compareRendezvous, Ordering.then_eq_eq, Std.compare_eq_iff_eq] at h
    exact h.2
  | least =>
    simp only [comparePrepared, compareRendezvous, Ordering.then_eq_eq, Std.compare_eq_iff_eq] at h
    exact h.2.2.2
  | weighted =>
    simp only [comparePrepared] at h
    split_ifs at h with hne
    · exact absurd (DomainIdentity.eq_of_compare (Ordering.then_eq_eq.mp h).2) hne
    · exact Std.compare_eq_iff_eq.mp (Ordering.then_eq_eq.mp h).2

theorem Rankable.separates (h : Rankable kind l) : Separates (comparePrepared kind) l :=
  fun _ ha _ hb heq => List.inj_on_of_nodup_map h.backings ha hb (comparePrepared_eq heq)

theorem compareRendezvous_ordered (l : List ScoredCandidate) : OrderedOn compareRendezvous l :=
  (OrderedOn.of_key (fun a : ScoredCandidate => a.ranked.rendezvous) l).flip.andThen
    (OrderedOn.of_key (fun a : ScoredCandidate => a.candidate.backingKey) l)

/-- Utilizations with positive totals. -/
theorem compareRatio_ordered {f : ScoredCandidate → BudgetProjection}
    (h : ∀ a ∈ l, 0 < (f a).totalBytes.toNat) : OrderedOn (fun a b => compareRatio (f a) (f b)) l :=
  (OrderedOn.of_key (fun a => (f a).ratio) l).congr fun a ha b hb =>
    compareRatio_eq_compare (h a ha) (h b hb)

/-- Scores that are numbers. -/
theorem compareFloat_ordered {f : ScoredCandidate → Float64} (h : ∀ a ∈ l, (f a).isNaN = false) :
    OrderedOn (fun a b => compareFloat (f a) (f b)) l :=
  (OrderedOn.of_key (fun a => (f a).place) l).congr fun a ha b hb =>
    compareFloat_eq (h a ha) (h b hb)

/-- The domains first, then the members: the comparison of `weighted` written as one. -/
theorem compareWeighted_eq (h : Rankable .weighted l) : ∀ a ∈ l, ∀ b ∈ l,
    comparePrepared .weighted a b =
      ((compareFloat a.ranked.domainScore b.ranked.domainScore).then
        ((compare a.domainID.class b.domainID.class).then
          (compare a.domainID.key b.domainID.key))).then
      ((compareFloat a.ranked.score b.ranked.score).then
        (compare a.candidate.backingKey b.candidate.backingKey)) := by
  intro a ha b hb
  unfold comparePrepared
  dsimp only
  split_ifs with hne
  · cases hfirst : (compareFloat a.ranked.domainScore b.ranked.domainScore).then
      ((compare a.domainID.class b.domainID.class).then (compare a.domainID.key b.domainID.key))
        with
    | lt => rfl
    | gt => rfl
    | eq => exact absurd (DomainIdentity.eq_of_compare (Ordering.then_eq_eq.mp hfirst).2) hne
  · rw [ne_eq, not_not] at hne
    rw [h.domains rfl a ha b hb hne, hne, compareFloat_self, Std.compare_self, Std.compare_self]
    rfl

/-- **Each comparison is an order on the candidates of one ranking.**  For `weighted` the comparison
is first shown to be the lexicographic one on these candidates (`compareWeighted_eq`); for the
others it is one by definition. -/
theorem Rankable.ordered (h : Rankable kind l) : OrderedOn (comparePrepared kind) l := by
  cases kind with
  | spread => exact compareRendezvous_ordered l
  | least =>
    exact (compareRatio_ordered fun a ha => (h.totals a ha).2).andThen
      ((compareRatio_ordered fun a ha => (h.totals a ha).1).andThen (compareRendezvous_ordered l))
  | weighted =>
    have hdomain := compareFloat_ordered fun a ha => (h.numbers rfl a ha).2
    have hmember := compareFloat_ordered fun a ha => (h.numbers rfl a ha).1
    have hclass := OrderedOn.of_key (fun a : ScoredCandidate => a.domainID.class) l
    have hkey := OrderedOn.of_key (fun a : ScoredCandidate => a.domainID.key) l
    have hbacking := OrderedOn.of_key (fun a : ScoredCandidate => a.candidate.backingKey) l
    exact ((hdomain.andThen (hclass.andThen hkey)).andThen (hmember.andThen hbacking)).congr
      (compareWeighted_eq h)

end Orders

/-! ## 4. The weights and the scores of the domains

The weight of a domain is the least that its members report, so it does not depend on their
order. -/

/-- `w` is the least weight of the domain among the candidates. -/
def LeastWeight (ps : List PreparedCandidate) (id : DomainIdentity) (w : UInt64) : Prop :=
  (∃ c ∈ ps, c.domainID = id ∧ c.domain.weight = w) ∧
    ∀ c ∈ ps, c.domainID = id → w ≤ c.domain.weight

/-- The table holds the least weights of the candidates `done`. -/
def Weighed (done : List PreparedCandidate) (weights : Map DomainIdentity UInt64) : Prop :=
  ∀ id, (∀ w, weights.lookup id = some w → LeastWeight done id w) ∧
    (weights.lookup id = none → ∀ c ∈ done, c.domainID ≠ id)

/-- One candidate: the weight of its domain becomes the lesser of the two. -/
theorem Weighed.step {done : List PreparedCandidate} {weights : Map DomainIdentity UInt64}
    {c : PreparedCandidate} (h : Weighed done weights) :
    Weighed (done ++ [c])
      (if (weights.lookup c.domainID).all fun previous => decide (c.domain.weight < previous) then
        weights.insert c.domainID c.domain.weight else weights) := by
  intro id
  obtain ⟨hsome, hnone⟩ := h id
  by_cases hid : c.domainID = id
  · subst hid
    cases hl : weights.lookup c.domainID with
    | none =>
      simp only [Option.all_none, if_true, AList.lookup_insert, Option.some.injEq, reduceCtorEq,
        false_imp_iff, and_true]
      rintro w rfl
      refine ⟨⟨c, by simp, rfl, rfl⟩, fun d hd hdc => ?_⟩
      rcases List.mem_append.mp hd with hd | hd
      · exact absurd hdc (hnone hl d hd)
      · rw [List.mem_singleton.mp hd]
        exact UInt64.le_refl _
    | some previous =>
      obtain ⟨⟨e, he, hec, hew⟩, hleast⟩ := hsome previous hl
      simp only [Option.all_some, decide_eq_true_eq]
      split_ifs with hlt
      · simp only [AList.lookup_insert, Option.some.injEq, reduceCtorEq, false_imp_iff, and_true]
        rintro w rfl
        refine ⟨⟨c, by simp, rfl, rfl⟩, fun d hd hdc => ?_⟩
        rcases List.mem_append.mp hd with hd | hd
        · exact UInt64.le_trans (UInt64.le_of_lt hlt) (hleast d hd hdc)
        · rw [List.mem_singleton.mp hd]
          exact UInt64.le_refl _
      · rw [hl]
        simp only [Option.some.injEq, reduceCtorEq, false_imp_iff, and_true]
        rintro w rfl
        refine ⟨⟨e, List.mem_append_left _ he, hec, hew⟩, fun d hd hdc => ?_⟩
        rcases List.mem_append.mp hd with hd | hd
        · exact hleast d hd hdc
        · rw [List.mem_singleton.mp hd]
          exact UInt64.not_lt.mp hlt
  · have hlookup : (if (weights.lookup c.domainID).all fun previous =>
        decide (c.domain.weight < previous) then weights.insert c.domainID c.domain.weight
        else weights).lookup id = weights.lookup id := by
      split_ifs
      · exact AList.lookup_insert_ne (Ne.symm hid)
      · rfl
    rw [hlookup]
    constructor
    · intro w hw
      obtain ⟨⟨e, he, hec, hew⟩, hleast⟩ := hsome w hw
      refine ⟨⟨e, List.mem_append_left _ he, hec, hew⟩, fun d hd hdc => ?_⟩
      rcases List.mem_append.mp hd with hd | hd
      · exact hleast d hd hdc
      · rw [List.mem_singleton.mp hd] at hdc
        exact absurd hdc hid
    · intro hl d hd
      rcases List.mem_append.mp hd with hd | hd
      · exact hnone hl d hd
      · rw [List.mem_singleton.mp hd]
        exact hid

/-- All candidates, by induction on them. -/
theorem Weighed.steps {cs : List PreparedCandidate} : ∀ {done : List PreparedCandidate}
    {weights : Map DomainIdentity UInt64}, Weighed done weights →
    Weighed (done ++ cs) (domainWeights cs weights) := by
  induction cs with
  | nil =>
    intro done weights h
    rw [List.append_nil]
    exact h
  | cons c cs ih =>
    intro done weights h
    have hnext := ih (h.step (c := c))
    rw [List.append_assoc] at hnext
    unfold domainWeights
    split_ifs at hnext ⊢
    · exact hnext
    · exact hnext

theorem domainWeights_weighed (ps : List PreparedCandidate) : Weighed ps (domainWeights ps ∅) := by
  have hnil : Weighed [] ∅ := fun id => ⟨fun w h => absurd h (Option.some_ne_none w).symm,
    fun _ c hc => absurd hc List.not_mem_nil⟩
  exact hnil.steps

/-- Two tables of the same candidates agree. -/
theorem Weighed.lookup_eq {ps ps' : List PreparedCandidate} {m m' : Map DomainIdentity UInt64}
    (h : Weighed ps m) (h' : Weighed ps' m') (hsame : ∀ c, c ∈ ps ↔ c ∈ ps') (id : DomainIdentity) :
    m.lookup id = m'.lookup id := by
  obtain ⟨hsome, hnone⟩ := h id
  obtain ⟨hsome', hnone'⟩ := h' id
  cases hl : m.lookup id with
  | none =>
    cases hl' : m'.lookup id with
    | none => rfl
    | some w' =>
      obtain ⟨⟨c, hc, hid, -⟩, -⟩ := hsome' w' hl'
      exact absurd hid (hnone hl c ((hsame c).mpr hc))
  | some w =>
    obtain ⟨⟨c, hc, hid, hw⟩, hleast⟩ := hsome w hl
    cases hl' : m'.lookup id with
    | none => exact absurd hid (hnone' hl' c ((hsame c).mp hc))
    | some w' =>
      obtain ⟨⟨c', hc', hid', hw'⟩, hleast'⟩ := hsome' w' hl'
      have hle := hleast c' ((hsame c').mpr hc') hid'
      have hge := hleast' c ((hsame c).mp hc) hid
      rw [hw'] at hle
      rw [hw] at hge
      rw [UInt64.le_antisymm hle hge]

section DomainScores

variable {sc : Scoring} {request : RequestSnapshot}

/-- The score of one domain. -/
def domainScore (sc : Scoring) (request : RequestSnapshot) (id : DomainIdentity) (weight : UInt64) :
    Except RankErr Float64 :=
  weightedScore sc request weight ["domain", id.class, id.key]

/-- The table of the scores, entry by entry. -/
theorem domainScores_ok : ∀ {es : List (Sigma fun _ : DomainIdentity => UInt64)}
    {scores : Map DomainIdentity Float64}, domainScores sc request es = .ok scores →
    ∀ id, scores.lookup id =
      (es.dlookup id).bind fun weight => (domainScore sc request id weight).toOption
  | [], _, h, id => by
    cases h
    rfl
  | ⟨k, w⟩ :: es, scores, h, id => by
    obtain ⟨score, hscore, h⟩ := bind_eq_ok.mp h
    obtain ⟨rest, hrest, h⟩ := bind_eq_ok.mp h
    cases h
    by_cases hid : id = k
    · subst hid
      rw [AList.lookup_insert, List.dlookup_cons_eq, Option.bind_some, eq_comm, toOption_eq_some]
      exact hscore
    · rw [AList.lookup_insert_ne hid, domainScores_ok hrest id,
        List.dlookup_cons_ne _ _ hid]

theorem domainScores_some : ∀ {es : List (Sigma fun _ : DomainIdentity => UInt64)},
    (∃ scores, domainScores sc request es = .ok scores) ↔
      ∀ e ∈ es, ∃ score, domainScore sc request e.1 e.2 = .ok score
  | [] => by simp [domainScores]
  | e :: es => by
    rw [List.forall_mem_cons, ← domainScores_some]
    constructor
    · rintro ⟨scores, h⟩
      obtain ⟨score, hscore, h⟩ := bind_eq_ok.mp h
      obtain ⟨rest, hrest, -⟩ := bind_eq_ok.mp h
      exact ⟨⟨score, hscore⟩, rest, hrest⟩
    · rintro ⟨⟨score, hscore⟩, rest, hrest⟩
      exact ⟨_, bind_eq_ok.mpr ⟨score, hscore, bind_eq_ok.mpr ⟨rest, hrest, rfl⟩⟩⟩

/-- Two tables of weights that agree are scored alike. -/
theorem domainScores_congr {m m' : Map DomainIdentity UInt64} {scores : Map DomainIdentity Float64}
    (h : ∀ id, m.lookup id = m'.lookup id) (hs : domainScores sc request m.entries = .ok scores) :
    ∃ scores', domainScores sc request m'.entries = .ok scores' ∧
      ∀ id, scores.lookup id = scores'.lookup id := by
  have hp : m.entries.Perm m'.entries :=
    List.lookup_ext m.nodupKeys m'.nodupKeys fun id w => by
      rw [show m.entries.dlookup id = m'.entries.dlookup id from h id]
  have hall := domainScores_some.mp ⟨scores, hs⟩
  obtain ⟨scores', hs'⟩ := domainScores_some.mpr fun e he => hall e (hp.mem_iff.mpr he)
  refine ⟨scores', hs', fun id => ?_⟩
  rw [domainScores_ok hs id, domainScores_ok hs' id,
    show m.entries.dlookup id = m'.entries.dlookup id from h id]

/-- A score is a number, and finite. -/
theorem weightedScore_finite {weight : UInt64} {suffix : List String} {score : Float64}
    (h : weightedScore sc request weight suffix = .ok score) :
    score.isNaN = false ∧ score.isInf = false := by
  obtain ⟨-, h⟩ := check_bind_eq_ok.mp h
  obtain ⟨encoded, -, h⟩ := bind_eq_ok.mp h
  simp only [check_bind_eq_ok, refuse_eq_ok, Bool.or_eq_false_iff, pure_eq_ok] at h
  obtain ⟨⟨⟨-, hnan⟩, hinf⟩, rfl⟩ := h
  exact ⟨hnan, hinf⟩

end DomainScores

/-! ## 5. The ranking in closed form

What `Rank` returns is the sort of the scored candidates, and every candidate is scored. -/

section Closed

variable {sc : Scoring} {kind : StrategyKind} {request : RequestSnapshot}

/-- The value of one candidate under some tables. -/
def scoreOf (sc : Scoring) (kind : StrategyKind) (request : RequestSnapshot)
    (weights : Map DomainIdentity UInt64) (scores : Map DomainIdentity Float64)
    (c : PreparedCandidate) : Option ScoredCandidate :=
  (scoreCandidate sc kind request weights scores c).toOption

/-- The candidates of a ranking with their scores, before the sort. -/
def Scored (sc : Scoring) (kind : StrategyKind) (request : RequestSnapshot)
    (ps : List PreparedCandidate) (scored : List ScoredCandidate) : Prop :=
  ∃ scores, (if kind = .weighted then domainScores sc request (domainWeights ps ∅).entries
      else .ok ∅) = .ok scores ∧
    (∀ c ∈ ps, (scoreOf sc kind request (domainWeights ps ∅) scores c).isSome) ∧
    scored = ps.filterMap (scoreOf sc kind request (domainWeights ps ∅) scores)

/-- **`Rank` in closed form.** -/
theorem rankBuiltin_eq_ok {cs : List EligibleCandidate} {ranked : List RankedCandidate} :
    rankBuiltin sc kind request cs = .ok ranked ↔ (kind = .weighted → request.seedSet = true) ∧
      (Coherent cs ∧ ∀ c ∈ cs, (standalone c).isSome) ∧
      ∃ scored, Scored sc kind request (cs.filterMap standalone) scored ∧
        ranked = (sc.slices.sort (comparePrepared kind) scored).map fun c => c.ranked := by
  unfold rankBuiltin Scored
  have hseed : (decide (kind = .weighted) && !request.seedSet) = false ↔
      (kind = .weighted → request.seedSet = true) := by
    cases request.seedSet <;> simp
  rw [check_bind_eq_ok, refuse_eq_ok, hseed]
  refine and_congr_right fun _ => ?_
  constructor
  · intro h
    obtain ⟨prepared, hprepared, h⟩ := bind_eq_ok.mp h
    obtain ⟨hcoherent, hsome, rfl⟩ := prepare_eq_ok.mp hprepared
    obtain ⟨scores, hscores, h⟩ := bind_eq_ok.mp h
    obtain ⟨scored, hscored, h⟩ := bind_eq_ok.mp h
    obtain ⟨hall, rfl⟩ := mapM_eq_ok.mp hscored
    rw [pure_eq_ok] at h
    exact ⟨⟨hcoherent, hsome⟩, _, ⟨scores, hscores, hall, rfl⟩, h.symm⟩
  · rintro ⟨⟨hcoherent, hsome⟩, _, ⟨scores, hscores, hall, rfl⟩, rfl⟩
    refine bind_eq_ok.mpr ⟨_, prepare_eq_ok.mpr ⟨hcoherent, hsome, rfl⟩,
      bind_eq_ok.mpr ⟨scores, hscores, bind_eq_ok.mpr ⟨_, mapM_eq_ok.mpr ⟨hall, rfl⟩, rfl⟩⟩⟩

/-- What a score is made of. -/
theorem scoreCandidate_ok {weights : Map DomainIdentity UInt64}
    {scores : Map DomainIdentity Float64} {c : PreparedCandidate} {x : ScoredCandidate}
    (h : scoreCandidate sc kind request weights scores c = .ok x) :
    x.toPreparedCandidate = c ∧ x.ranked.candidate = c.candidate ∧
      (kind = .weighted → (x.ranked.score.isNaN = false ∧ x.ranked.score.isInf = false) ∧
        x.ranked.domainScore = (scores.lookup c.domainID).getD .zero) := by
  obtain ⟨hash, -, h⟩ := bind_eq_ok.mp h
  cases kind with
  | spread =>
    cases h
    exact ⟨rfl, rfl, fun hk => by cases hk⟩
  | least =>
    cases h
    exact ⟨rfl, rfl, fun hk => by cases hk⟩
  | weighted =>
    obtain ⟨score, hscore, h⟩ := bind_eq_ok.mp h
    cases h
    exact ⟨rfl, rfl, fun _ => ⟨weightedScore_finite hscore, rfl⟩⟩

/-- A score looks at the tables only under its own domain. -/
theorem scoreOf_congr {w w' : Map DomainIdentity UInt64} {s s' : Map DomainIdentity Float64}
    {c : PreparedCandidate} (hw : w.lookup c.domainID = w'.lookup c.domainID)
    (hs : s.lookup c.domainID = s'.lookup c.domainID) :
    scoreOf sc kind request w s c = scoreOf sc kind request w' s' c := by
  unfold scoreOf scoreCandidate
  rw [hw, hs]

/-- Without a race it does not look at them. -/
theorem scoreOf_alone (hk : kind ≠ .weighted) (w w' : Map DomainIdentity UInt64)
    (s s' : Map DomainIdentity Float64) :
    scoreOf sc kind request w s = scoreOf sc kind request w' s' := by
  funext c
  unfold scoreOf scoreCandidate
  cases kind with
  | spread => rfl
  | least => rfl
  | weighted => exact absurd rfl hk

theorem mem_scored {ps : List PreparedCandidate} {scored : List ScoredCandidate}
    (h : Scored sc kind request ps scored) {x : ScoredCandidate} (hx : x ∈ scored) :
    x.toPreparedCandidate ∈ ps ∧ x.ranked.candidate = x.candidate := by
  obtain ⟨scores, -, -, rfl⟩ := h
  obtain ⟨c, hc, hx⟩ := List.mem_filterMap.mp hx
  obtain ⟨rfl, hcand, -⟩ := scoreCandidate_ok (toOption_eq_some.mp hx)
  exact ⟨hc, hcand⟩

/-- Nobody is lost, and nobody changes. -/
theorem scored_prepared {ps : List PreparedCandidate} {scored : List ScoredCandidate}
    (h : Scored sc kind request ps scored) : scored.map (fun x => x.toPreparedCandidate) = ps := by
  obtain ⟨scores, -, hall, rfl⟩ := h
  refine map_filterMap_eq fun c hc => ?_
  obtain ⟨x, hx⟩ := Option.isSome_iff_exists.mp (hall c hc)
  exact ⟨x, hx, (scoreCandidate_ok (toOption_eq_some.mp hx)).1⟩

theorem standalone_candidates {cs : List EligibleCandidate} (h : ∀ c ∈ cs, (standalone c).isSome) :
    (cs.filterMap standalone).map (fun p => p.candidate) = cs := by
  refine map_filterMap_eq fun c hc => ?_
  obtain ⟨x, hx⟩ := Option.isSome_iff_exists.mp (h c hc)
  exact ⟨x, hx, standalone_candidate hx⟩

/-- The totals behind a prepared candidate are positive. -/
theorem standalone_totals {c : EligibleCandidate} {x : PreparedCandidate}
    (h : standalone c = some x) :
    0 < x.member.totalBytes.toNat ∧ 0 < x.domain.totalBytes.toNat := by
  have hpos : ∀ {b : CapacityBudget} {p : BudgetProjection}, projectBudget b = .ok p →
      0 < p.totalBytes.toNat := by
    intro b p hp
    obtain ⟨hb, hexact⟩ := projectBudget_sound hp
    rw [hexact.total]
    exact hb.total
  obtain ⟨-, member, domain, hm, hd, rfl⟩ := standalone_eq_some.mp h
  unfold DomainBudget at hd
  split_ifs at hd
  · exact ⟨hpos hm, hpos hd⟩
  · rw [hd.2]
    exact ⟨hpos hm, hpos hm⟩

/-- The scores of a race are finite numbers. -/
theorem scored_finite (hk : kind = .weighted) {ps : List PreparedCandidate}
    {scored : List ScoredCandidate} (h : Scored sc kind request ps scored) :
    ∀ a ∈ scored, finiteScores a.ranked = true := by
  intro a ha
  obtain ⟨scores, hscores, -, rfl⟩ := h
  rw [if_pos hk] at hscores
  obtain ⟨c, hc, hx⟩ := List.mem_filterMap.mp ha
  obtain ⟨-, -, hscore⟩ := scoreCandidate_ok (toOption_eq_some.mp hx)
  obtain ⟨⟨hnan, hinf⟩, hdomain⟩ := hscore hk
  have hscore : a.ranked.domainScore.isNaN = false ∧ a.ranked.domainScore.isInf = false := by
    rw [hdomain, domainScores_ok hscores]
    cases (domainWeights ps ∅).entries.dlookup c.domainID with
    | none => exact Float64.zero_finite
    | some w =>
      cases hd : domainScore sc request c.domainID w with
      | error e =>
        simp only [Option.bind_some, hd]
        exact Float64.zero_finite
      | ok score =>
        simp only [Option.bind_some, hd]
        exact weightedScore_finite hd
  simp [finiteScores, hnan, hinf, hscore]

/-- **What is sorted can be sorted.** -/
theorem Scored.rankable {cs : List EligibleCandidate} {scored : List ScoredCandidate}
    (hcs : Coherent cs) (hsome : ∀ c ∈ cs, (standalone c).isSome)
    (h : Scored sc kind request (cs.filterMap standalone) scored) : Rankable kind scored where
  backings := by
    have hmap : scored.map (fun a => a.candidate) = cs := by
      rw [← standalone_candidates hsome, ← scored_prepared h, List.map_map]
      rfl
    have hkeys := hcs.backings
    rw [← hmap, List.map_map] at hkeys
    exact hkeys
  numbers := by
    rintro hk a ha
    have hfinite := scored_finite hk h a ha
    simp only [finiteScores, Bool.and_eq_true, Bool.not_eq_true'] at hfinite
    exact ⟨hfinite.1.1.1, hfinite.1.2⟩
  domains := by
    rintro hk a ha b hb hid
    obtain ⟨scores, -, -, rfl⟩ := h
    obtain ⟨c, -, hx⟩ := List.mem_filterMap.mp ha
    obtain ⟨d, -, hy⟩ := List.mem_filterMap.mp hb
    obtain ⟨rfl, -, hscore⟩ := scoreCandidate_ok (toOption_eq_some.mp hx)
    obtain ⟨rfl, -, hscore'⟩ := scoreCandidate_ok (toOption_eq_some.mp hy)
    rw [(hscore hk).2, (hscore' hk).2, hid]
  totals := by
    intro a ha
    obtain ⟨c, -, hc⟩ := List.mem_filterMap.mp (mem_scored h ha).1
    exact standalone_totals hc

/-! ## 6. The order of the candidates -/

/-- The scores do not depend on the order of the candidates. -/
theorem Scored.perm {ps ps' : List PreparedCandidate} {scored : List ScoredCandidate}
    (h : Scored sc kind request ps scored) (hp : ps.Perm ps') :
    ∃ scored', Scored sc kind request ps' scored' ∧ scored.Perm scored' := by
  obtain ⟨scores, hscores, hall, rfl⟩ := h
  have hweights : ∀ id, (domainWeights ps ∅).lookup id = (domainWeights ps' ∅).lookup id :=
    (domainWeights_weighed ps).lookup_eq (domainWeights_weighed ps') fun c => hp.mem_iff
  obtain ⟨scores', hscores', hlookup⟩ : ∃ scores', (if kind = .weighted then
      domainScores sc request (domainWeights ps' ∅).entries else .ok ∅) = .ok scores' ∧
      ∀ id, scores.lookup id = scores'.lookup id := by
    split_ifs at hscores ⊢
    · exact domainScores_congr hweights hscores
    · exact ⟨scores, hscores, fun id => rfl⟩
  have hsame : scoreOf sc kind request (domainWeights ps ∅) scores =
      scoreOf sc kind request (domainWeights ps' ∅) scores' :=
    funext fun c => scoreOf_congr (hweights c.domainID) (hlookup c.domainID)
  rw [hsame] at hall ⊢
  exact ⟨_, ⟨scores', hscores', fun c hc => hall c (hp.mem_iff.mpr hc), rfl⟩, hp.filterMap _⟩

/-- One direction. -/
theorem rankBuiltin_of_perm {cs cs' : List EligibleCandidate} {ranked : List RankedCandidate}
    (hp : cs.Perm cs') (h : rankBuiltin sc kind request cs = .ok ranked) :
    rankBuiltin sc kind request cs' = .ok ranked := by
  obtain ⟨hseed, ⟨hcoherent, hsome⟩, scored, hscored, rfl⟩ := rankBuiltin_eq_ok.mp h
  obtain ⟨scored', hscored', hperm⟩ := hscored.perm (hp.filterMap standalone)
  have hrankable := hscored.rankable hcoherent hsome
  refine rankBuiltin_eq_ok.mpr ⟨hseed, ⟨hcoherent.perm hp, fun c hc => hsome c (hp.mem_iff.mpr hc)⟩,
    scored', hscored', ?_⟩
  rw [sc.slices.sort_eq_of_perm hrankable.ordered hrankable.separates hperm.symm]

/-- Without a race every candidate is scored alone. -/
theorem scored_alone (hk : kind ≠ .weighted) {ps : List PreparedCandidate}
    {scored : List ScoredCandidate} : Scored sc kind request ps scored ↔
      (∀ c ∈ ps, (scoreOf sc kind request ∅ ∅ c).isSome) ∧
      scored = ps.filterMap (scoreOf sc kind request ∅ ∅) := by
  unfold Scored
  rw [if_neg hk]
  simp only [Except.ok.injEq, exists_eq_left', scoreOf_alone hk (domainWeights ps ∅) ∅ ∅ ∅]

end Closed

/-- **The ranking does not depend on the order of the candidates**: for every strategy and request,
it succeeds on both of two permutations or on neither, with one result.  The scores do not depend on
the order, the comparison is an order that separates, and then there is one sorted permutation
(`Lib.Sorting.sort_eq_of_perm`). -/
theorem rankBuiltin_perm (sc : Scoring) (kind : StrategyKind) (request : RequestSnapshot)
    (cs cs' : List EligibleCandidate) (hp : cs.Perm cs') :
    ((rankBuiltin sc kind request cs).isOk = (rankBuiltin sc kind request cs').isOk) ∧
    ∀ ranked, rankBuiltin sc kind request cs = .ok ranked ↔
      rankBuiltin sc kind request cs' = .ok ranked := by
  have hiff : ∀ ranked, rankBuiltin sc kind request cs = .ok ranked ↔
      rankBuiltin sc kind request cs' = .ok ranked :=
    fun ranked => ⟨rankBuiltin_of_perm hp, rankBuiltin_of_perm hp.symm⟩
  refine ⟨?_, hiff⟩
  cases h : rankBuiltin sc kind request cs with
  | ok ranked => rw [(hiff ranked).mp h]
  | error e =>
    cases h' : rankBuiltin sc kind request cs' with
    | error e' => rfl
    | ok ranked =>
      rw [(hiff ranked).mpr h'] at h
      cases h

/-- The real hash, and a race that a larger weight wins. -/
def sampleScoring : Scoring where
  sha256 := Lib.Sha256.sumBytes
  uniform _ _ := ⟨0x3FE0000000000000⟩
  race _ weight := ⟨UInt64.ofNat (0x3FF0000000000000 - weight.toNat / 16)⟩
  quotient _ _ := .zero
  slices := Lib.Sorting.insertion

def sampleSeeded : RequestSnapshot := { sampleRequest with seedSet := true }

theorem rankBuiltin_perm_sample : ∃ ranked : List RankedCandidate,
    rankBuiltin sampleScoring .weighted sampleSeeded sampleCandidates = .ok ranked ∧
    rankBuiltin sampleScoring .weighted sampleSeeded sampleCandidates.reverse = .ok ranked := by
  have h : (rankBuiltin sampleScoring .weighted sampleSeeded sampleCandidates).toOption.isSome := by
    decide
  obtain ⟨ranked, h⟩ := Option.isSome_iff_exists.mp h
  have h := toOption_eq_some.mp h
  exact ⟨ranked, h, ((rankBuiltin_perm sampleScoring .weighted sampleSeeded sampleCandidates
    sampleCandidates.reverse (List.reverse_perm sampleCandidates).symm).2 ranked).mp h⟩

/-! ## 7. Fewer candidates

Nothing of the kind is claimed for `weighted`: the weight of a domain is the least of its members,
so a domain that loses a member may race differently. -/

/-- Ranking a part is ranking all and leaving out the rest.  Scores that look at one candidate at a
time stay the same, and filtering commutes with a sort. -/
theorem rankBuiltin_of_sublist {sc : Scoring} {kind : StrategyKind} {request : RequestSnapshot}
    {cs sub : List EligibleCandidate} {ranked : List RankedCandidate} (hrace : kind ≠ .weighted)
    (h : rankBuiltin sc kind request cs = .ok ranked) (hsub : sub.Sublist cs) :
    rankBuiltin sc kind request sub = .ok (ranked.filter fun r => decide (r.candidate ∈ sub)) := by
  obtain ⟨hseed, ⟨hcoherent, hsome⟩, scored, hscored, rfl⟩ := rankBuiltin_eq_ok.mp h
  have hsome' : ∀ c ∈ sub, (standalone c).isSome := fun c hc => hsome c (hsub.subset hc)
  have hrankable := hscored.rankable hcoherent hsome
  have hcand := hscored
  obtain ⟨hall, rfl⟩ := (scored_alone hrace).mp hscored
  have hrest : Scored sc kind request (sub.filterMap standalone)
      ((sub.filterMap standalone).filterMap (scoreOf sc kind request ∅ ∅)) := by
    refine (scored_alone hrace).mpr ⟨fun p hp => hall p ?_, rfl⟩
    exact (hsub.filterMap standalone).subset hp
  refine rankBuiltin_eq_ok.mpr ⟨hseed, ⟨hcoherent.sublist hsub, hsome'⟩, _, hrest, ?_⟩
  -- The scored candidates of the sublist are those of the list whose candidate is in it.
  have hperm : ((sub.filterMap standalone).filterMap (scoreOf sc kind request ∅ ∅)).Perm
      (((cs.filterMap standalone).filterMap (scoreOf sc kind request ∅ ∅)).filter
        fun x => decide (x.candidate ∈ sub)) := by
    have hnodup := List.Nodup.of_map _ hrankable.backings
    refine (List.perm_ext_iff_of_nodup ?_ (hnodup.filter _)).mpr fun x => ?_
    · exact List.Nodup.of_map _ (hrest.rankable (hcoherent.sublist hsub) hsome').backings
    · rw [List.mem_filter, decide_eq_true_eq]
      constructor
      · intro hx
        refine ⟨(hsub.filterMap standalone).filterMap _ |>.subset hx, ?_⟩
        rw [← standalone_candidates hsome', ← scored_prepared hrest, List.map_map]
        exact List.mem_map_of_mem hx
      · rintro ⟨hx, hin⟩
        obtain ⟨p, hp, hscore⟩ := List.mem_filterMap.mp hx
        obtain ⟨rfl, -, -⟩ := scoreCandidate_ok (toOption_eq_some.mp hscore)
        obtain ⟨c, hc, hpc⟩ := List.mem_filterMap.mp hp
        have hcp := standalone_candidate hpc
        rw [hcp] at hin
        exact List.mem_filterMap.mpr ⟨_, List.mem_filterMap.mpr ⟨c, hin, hpc⟩, hscore⟩
  rw [sc.slices.sort_eq_of_perm (hrankable.ordered.subset fun a ha => List.mem_of_mem_filter ha)
    (fun a ha b hb => hrankable.separates a (List.mem_of_mem_filter ha) b
      (List.mem_of_mem_filter hb))
    hperm, sc.slices.sort_filter hrankable.ordered hrankable.separates, List.filter_map]
  refine congrArg _ (List.filter_congr fun x hx => ?_)
  have hx := (sc.slices.perm _ _).mem_iff.mp hx
  rw [Function.comp_apply, (mem_scored hcand hx).2]

/-- **Removing a storage never swaps two others**: for `spread` and `least`, the ranking of a
sublist is the ranking of the whole list with the others left out.  Scores without a race look at
one candidate at a time, so the candidates that stay keep theirs, and leaving out commutes with
sorting (`sort_filter`). -/
theorem rankBuiltin_sublist (sc : Scoring) (kind : StrategyKind) (request : RequestSnapshot)
    (cs : List EligibleCandidate) (ranked : List RankedCandidate)
    (hk : kind = .spread ∨ kind = .least)
    (h : rankBuiltin sc kind request cs = .ok ranked) (sub : List EligibleCandidate)
    (hsub : sub.Sublist cs) :
    rankBuiltin sc kind request sub = .ok (ranked.filter fun r => decide (r.candidate ∈ sub)) := by
  have hrace : kind ≠ .weighted := by rcases hk with rfl | rfl <;> decide
  exact rankBuiltin_of_sublist hrace h hsub

theorem rankBuiltin_sublist_sample : ∃ ranked : List RankedCandidate,
    rankBuiltin sampleScoring .least sampleRequest sampleCandidates = .ok ranked ∧
    rankBuiltin sampleScoring .least sampleRequest sampleCandidates.tail =
      .ok (ranked.filter fun r => decide (r.candidate ∈ sampleCandidates.tail)) := by
  have h : (rankBuiltin sampleScoring .least sampleRequest sampleCandidates).toOption.isSome := by
    decide
  obtain ⟨ranked, h⟩ := Option.isSome_iff_exists.mp h
  have h := toOption_eq_some.mp h
  exact ⟨ranked, h, rankBuiltin_sublist sampleScoring .least sampleRequest sampleCandidates ranked
    (Or.inr rfl) h sampleCandidates.tail (List.tail_sublist _)⟩

/-! ## 8. The registry of the built-in strategies -/

/-- The policy under which a strategy is installed. -/
def StrategyKind.policy : StrategyKind → Policy
  | .spread => ⟨"spread", 1⟩
  | .weighted => ⟨"weighted_free_space", 1⟩
  | .least => ⟨"least_utilized", 1⟩

theorem StrategyKind.policy_injective : Function.Injective StrategyKind.policy := by
  intro a b
  cases a <;> cases b <;> decide

section Registry

variable (sc : Scoring) (text : RankErr → String)

/-- A built-in strategy reads the slice it is given. -/
def builtinStrategy (kind : StrategyKind) : Strategy := fun request given =>
  { written := given
    same_length := rfl
    answer := (rankBuiltin sc kind request given).mapError text }

def builtinRegistry : Registry :=
  ⟨(((∅ : Map Policy Strategy).insert StrategyKind.least.policy
    (builtinStrategy sc text .least)).insert
    StrategyKind.weighted.policy (builtinStrategy sc text .weighted)).insert
      StrategyKind.spread.policy
    (builtinStrategy sc text .spread)⟩

/-- The registry has exactly the built-in strategies, each under its own policy. -/
theorem builtinRegistry_lookup {p : Policy} {s : Strategy} :
    (builtinRegistry sc text).strategies.lookup p = some s ↔
      ∃ kind : StrategyKind, kind.policy = p ∧ s = builtinStrategy sc text kind := by
  unfold builtinRegistry
  constructor
  · intro h
    by_cases hs : p = StrategyKind.spread.policy
    · rw [hs, AList.lookup_insert, Option.some.injEq] at h
      exact ⟨.spread, hs.symm, h.symm⟩
    · rw [AList.lookup_insert_ne hs] at h
      by_cases hw : p = StrategyKind.weighted.policy
      · rw [hw, AList.lookup_insert, Option.some.injEq] at h
        exact ⟨.weighted, hw.symm, h.symm⟩
      · rw [AList.lookup_insert_ne hw] at h
        by_cases hl : p = StrategyKind.least.policy
        · rw [hl, AList.lookup_insert, Option.some.injEq] at h
          exact ⟨.least, hl.symm, h.symm⟩
        · rw [AList.lookup_insert_ne hl] at h
          cases h
  · rintro ⟨kind, rfl, rfl⟩
    cases kind with
    | spread => rw [AList.lookup_insert]
    | weighted => rw [AList.lookup_insert_ne (by decide), AList.lookup_insert]
    | least =>
      rw [AList.lookup_insert_ne (by decide), AList.lookup_insert_ne (by decide),
        AList.lookup_insert]

variable {sc text} {request : RequestSnapshot} {cs : List EligibleCandidate}
  {ranked : List RankedCandidate}

/-- The answer of a built-in strategy is its candidates in some order. -/
theorem rankBuiltin_candidates {kind : StrategyKind}
    (h : rankBuiltin sc kind request cs = .ok ranked) :
    (ranked.map fun r => r.candidate).Perm cs := by
  obtain ⟨-, ⟨-, hsome⟩, scored, hscored, rfl⟩ := rankBuiltin_eq_ok.mp h
  have hsame : ((sc.slices.sort (comparePrepared kind) scored).map fun c => c.ranked).map
      (fun r => r.candidate) = (sc.slices.sort (comparePrepared kind) scored).map
      fun c => c.candidate := by
    rw [List.map_map]
    refine List.map_congr_left fun x hx => ?_
    exact (mem_scored hscored ((sc.slices.perm _ _).mem_iff.mp hx)).2
  have hcs : scored.map (fun c => c.candidate) = cs := by
    rw [← standalone_candidates hsome, ← scored_prepared hscored, List.map_map]
    rfl
  rw [hsame]
  calc (sc.slices.sort (comparePrepared kind) scored).map (fun c => c.candidate)
      |>.Perm (scored.map fun c => c.candidate) := (sc.slices.perm _ _).map _
    _ = cs := hcs

/-- The checks of the request itself. -/
def RequestIdentified (request : RequestSnapshot) : Prop :=
  (nonblank request.namespace = true ∧ nonblank request.allocationKey = true ∧
    nonblank request.allocationGroup = true) ∧ ∃ encoded, tuple request [] = .ok encoded

/-- When a request to the built-in registry is accepted. -/
theorem acceptRequest_builtin {s : Strategy} :
    acceptRequest (some (builtinRegistry sc text)) request cs = .ok s ↔
      (∃ kind : StrategyKind, kind.policy = request.policy ∧ s = builtinStrategy sc text kind) ∧
      RequestIdentified request ∧ ∃ ps, prepare cs = .ok ps := by
  have hstrategy : validateStrategy (some (builtinRegistry sc text)) request.policy = .ok s ↔
      ∃ kind : StrategyKind, kind.policy = request.policy ∧ s = builtinStrategy sc text kind := by
    rw [← builtinRegistry_lookup]
    unfold validateStrategy
    dsimp only
    cases (builtinRegistry sc text).strategies.lookup request.policy with
    | none => simp
    | some s' => simp
  rw [← hstrategy]
  unfold acceptRequest RequestIdentified
  constructor
  · intro h
    obtain ⟨s', hs', h⟩ := bind_eq_ok.mp h
    obtain ⟨hid, h⟩ := check_bind_eq_ok.mp h
    obtain ⟨encoded, hencoded, h⟩ := bind_eq_ok.mp h
    obtain ⟨ps, hps, h⟩ := bind_eq_ok.mp h
    cases h
    simp only [refuse_eq_ok, Bool.or_eq_false_iff, Bool.not_eq_false', and_assoc] at hid
    exact ⟨hs', ⟨hid, encoded, hencoded⟩, ps, hps⟩
  · rintro ⟨hs, ⟨hid, encoded, hencoded⟩, ps, hps⟩
    refine bind_eq_ok.mpr ⟨s, hs, check_bind_eq_ok.mpr ⟨?_, bind_eq_ok.mpr ⟨encoded, hencoded,
      bind_eq_ok.mpr ⟨ps, hps, rfl⟩⟩⟩⟩
    simp only [refuse_eq_ok, Bool.or_eq_false_iff, Bool.not_eq_false', and_assoc]
    exact hid

/-- What is behind the call adds only that the scores are numbers. -/
theorem acceptRanking_builtin {kind : StrategyKind} :
    acceptRanking request.policy cs (builtinStrategy sc text kind request cs) = .ok ranked ↔
      rankBuiltin sc kind request cs = .ok ranked ∧ ranked.all finiteScores = true := by
  unfold acceptRanking builtinStrategy
  dsimp only
  cases h : rankBuiltin sc kind request cs with
  | error e => simp [Except.mapError]
  | ok result =>
    obtain ⟨-, ⟨hcoherent, -⟩, -⟩ := rankBuiltin_eq_ok.mp h
    have hinput := validateCandidates_of_perm (List.Perm.refl cs) hcoherent.backings
    have houtput := validateCandidates_of_perm (rankBuiltin_candidates h) hcoherent.backings
    simp only [Except.mapError, check_bind_eq_ok, hinput, houtput, refuse_eq_ok, pure_eq_ok,
      true_and, Bool.not_eq_false', Except.ok.injEq]
    constructor
    · rintro ⟨hfinite, rfl⟩
      exact ⟨rfl, hfinite⟩
    · rintro ⟨rfl, hfinite⟩
      exact ⟨hfinite, rfl⟩

/-- **`Rank` of the installed strategies**: the checks of the request, the ranking of the strategy,
and that its scores are numbers.  The validators pass by themselves. -/
theorem builtinRegistry_rank {m : Memory} {caller : Slice m} :
    (Registry.rank (some (builtinRegistry sc text)) request m caller).1 = .ok ranked ↔
      ∃ kind : StrategyKind, kind.policy = request.policy ∧ RequestIdentified request ∧
        rankBuiltin sc kind request (m.get caller) = .ok ranked ∧
        ranked.all finiteScores = true := by
  unfold Registry.rank
  dsimp only
  cases h : acceptRequest (some (builtinRegistry sc text)) request (m.get caller) with
  | error e =>
    refine ⟨fun hfalse => (by cases hfalse), ?_⟩
    rintro ⟨kind, hkind, hid, hrank, -⟩
    obtain ⟨-, ⟨hcoherent, hsome⟩, -⟩ := rankBuiltin_eq_ok.mp hrank
    rw [acceptRequest_builtin.mpr ⟨⟨kind, hkind, rfl⟩, hid, _,
      prepare_eq_ok.mpr ⟨hcoherent, hsome, rfl⟩⟩] at h
    cases h
  | ok s =>
    obtain ⟨⟨kind, hkind, rfl⟩, hid, -⟩ := acceptRequest_builtin.mp h
    dsimp only
    rw [acceptRanking_builtin]
    constructor
    · rintro ⟨hrank, hfinite⟩
      exact ⟨kind, hkind, hid, hrank, hfinite⟩
    · rintro ⟨kind', hkind', -, hrank, hfinite⟩
      have heq : kind' = kind := StrategyKind.policy_injective (hkind'.trans hkind.symm)
      exact ⟨heq ▸ hrank, hfinite⟩

/-! ## 9. Ranking a part of what can be ranked

`Draws` says that the logarithm of the race is defined where the code takes it. -/

/-- Every draw is a positive finite number: its argument lies between 0 and 1. -/
def Scoring.Draws (sc : Scoring) : Prop :=
  ∀ seed encoded weight, weight ≠ 0 →
    (sc.uniform seed encoded).le .zero = false ∧ Float64.one.le (sc.uniform seed encoded) = false ∧
    (sc.race (sc.uniform seed encoded) weight).le .zero = false ∧
    (sc.race (sc.uniform seed encoded) weight).isNaN = false ∧
    (sc.race (sc.uniform seed encoded) weight).isInf = false

/-- With a race that draws, a score fails only for a weight of zero or an unencodable tuple. -/
theorem weightedScore_draws (hsc : sc.Draws) {weight : UInt64} {suffix : List String} :
    (∃ score, weightedScore sc request weight suffix = .ok score) ↔
      weight ≠ 0 ∧ ∃ encoded, tuple request suffix = .ok encoded := by
  constructor
  · rintro ⟨score, h⟩
    obtain ⟨hw, h⟩ := check_bind_eq_ok.mp h
    obtain ⟨encoded, hencoded, -⟩ := bind_eq_ok.mp h
    rw [refuse_eq_ok, decide_eq_false_iff_not] at hw
    exact ⟨hw, encoded, hencoded⟩
  · rintro ⟨hw, encoded, hencoded⟩
    obtain ⟨h1, h2, h3, h4, h5⟩ := hsc request.seed encoded weight hw
    refine ⟨_, check_bind_eq_ok.mpr ⟨?_, bind_eq_ok.mpr ⟨encoded, hencoded,
      check_bind_eq_ok.mpr ⟨?_, rfl⟩⟩⟩⟩
    · rw [refuse_eq_ok, decide_eq_false_iff_not]
      exact hw
    · simp only [refuse_eq_ok, h1, h2, h3, h4, h5, Bool.or_self]

theorem BudgetProjection.weight_ne_zero (p : BudgetProjection) : p.weight ≠ 0 := by
  intro h
  have := congrArg UInt64.toNat h
  rw [weight, toNat_max] at this
  simp at this

/-- Whether a candidate has a score does not depend on the tables. -/
theorem scoreOf_isSome {kind : StrategyKind} (w w' : Map DomainIdentity UInt64)
    (s s' : Map DomainIdentity Float64) (c : PreparedCandidate) :
    (scoreOf sc kind request w s c).isSome = (scoreOf sc kind request w' s' c).isSome := by
  unfold scoreOf scoreCandidate
  cases rendezvous sc request c.candidate.backingKey with
  | error e => rfl
  | ok hash =>
    cases kind with
    | spread => rfl
    | least => rfl
    | weighted =>
      cases weightedScore sc request c.member.weight ["member", c.candidate.backingKey] with
      | error e => rfl
      | ok score => rfl

/-- The race of some of the domains can be run when the race of all can. -/
theorem domainScores_part (hsc : sc.Draws) {ps ps' : List PreparedCandidate}
    {scores : Map DomainIdentity Float64} (hsub : ∀ c ∈ ps', c ∈ ps)
    (h : domainScores sc request (domainWeights ps ∅).entries = .ok scores) :
    ∃ scores', domainScores sc request (domainWeights ps' ∅).entries = .ok scores' := by
  refine domainScores_some.mpr fun e he => (weightedScore_draws hsc).mpr ?_
  have hl : (domainWeights ps' ∅).lookup e.1 = some e.2 := AList.mem_lookup_iff.mpr he
  obtain ⟨⟨c, hc, hid, hw⟩, -⟩ := (domainWeights_weighed ps' e.1).1 e.2 hl
  refine ⟨hw ▸ c.domain.weight_ne_zero, ?_⟩
  cases hall : (domainWeights ps ∅).lookup e.1 with
  | none => exact absurd hid ((domainWeights_weighed ps e.1).2 hall c (hsub c hc))
  | some w =>
    have hentry := AList.mem_lookup_iff.mp hall
    exact ((weightedScore_draws hsc).mp (domainScores_some.mp ⟨scores, h⟩ ⟨e.1, w⟩ hentry)).2

/-- **A part of what can be ranked can be ranked.** -/
theorem rankBuiltin_part (hsc : sc.Draws) {kind : StrategyKind} {sub : List EligibleCandidate}
    (hsub : sub.Sublist cs) (h : rankBuiltin sc kind request cs = .ok ranked)
    (hfinite : ranked.all finiteScores = true) :
    ∃ ranked', rankBuiltin sc kind request sub = .ok ranked' ∧ ranked'.all finiteScores = true := by
  by_cases hk : kind = .weighted
  · obtain ⟨hseed, ⟨hcoherent, hsome⟩, scored, ⟨scores, hscores, hall, -⟩, -⟩ :=
      rankBuiltin_eq_ok.mp h
    have hsub' : ∀ p ∈ sub.filterMap standalone, p ∈ cs.filterMap standalone :=
      fun p hp => (hsub.filterMap standalone).subset hp
    rw [if_pos hk] at hscores
    obtain ⟨scores', hscores'⟩ := domainScores_part hsc hsub' hscores
    obtain ⟨scored', hscored⟩ : ∃ scored', Scored sc kind request
        (sub.filterMap standalone) scored' := by
      refine ⟨_, scores', by rw [if_pos hk, hscores'], fun p hp => ?_, rfl⟩
      rw [scoreOf_isSome _ (domainWeights (cs.filterMap standalone) ∅) _ scores]
      exact hall p (hsub' p hp)
    refine ⟨_, rankBuiltin_eq_ok.mpr ⟨hseed, ⟨hcoherent.sublist hsub, fun c hc =>
      hsome c (hsub.subset hc)⟩, _, hscored, rfl⟩, ?_⟩
    rw [List.all_eq_true]
    intro r hr
    obtain ⟨a, ha, rfl⟩ := List.mem_map.mp hr
    exact scored_finite hk hscored a ((sc.slices.perm _ _).mem_iff.mp ha)
  · refine ⟨_, rankBuiltin_of_sublist hk h hsub, ?_⟩
    rw [List.all_eq_true] at hfinite ⊢
    exact fun r hr => hfinite r (List.mem_of_mem_filter hr)

/-- The same of the whole call. -/
theorem builtinRegistry_rank_part (hsc : sc.Draws) {m m' : Memory} {caller : Slice m}
    {caller' : Slice m'} (hsub : (m'.get caller').Sublist (m.get caller))
    (h : (Registry.rank (some (builtinRegistry sc text)) request m caller).1 = .ok ranked) :
    ∃ ranked', (Registry.rank (some (builtinRegistry sc text)) request m' caller').1 =
      .ok ranked' := by
  obtain ⟨kind, hkind, hid, hrank, hfinite⟩ := builtinRegistry_rank.mp h
  obtain ⟨ranked', hrank', hfinite'⟩ := rankBuiltin_part hsc hsub hrank hfinite
  exact ⟨ranked', builtinRegistry_rank.mpr ⟨kind, hkind, hid, hrank', hfinite'⟩⟩

end Registry

end Storage
