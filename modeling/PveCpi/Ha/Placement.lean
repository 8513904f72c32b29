/-
# Where a registered VM may run

What `DecideVM` and `DecisionPin` promise together: a pin that names a node, or that confines the VM
to none, lets the VM run only where all of its volumes are reached, every constraint is met, the
strict AZ holds and, where it matters, the CPU is the same.

* `registered`: what a decision that registers a VM says, for each of its policies;
* `pin_allows_iff`: the pin of a decision allows the admissible nodes and no other;
* `placement_sound_iff`: when all of that holds.

The shared policy takes every admissible node from the access set, and the hold policy checks that
the VM's node is in it.  The replicate policy checks its partner only.

## Where it fails

`register` intersects the hard nodes with the strict AZ and with nothing else.  For the shared
policy this is harmless, because its hard nodes come from the access set, which meets the
constraints already, and for the hold policy the node itself is checked.  The replicate policy takes
the VM's own node as it is, and no test ever looks at whether that node meets a constraint.  So the
exact condition is a condition on the node alone (`NodeFits`), and it matters for one of the three
policies.

White space is the other thing: the pin trims names that the decision compares untrimmed.  With
names that need no trimming the two agree (`Profile.Clean`).
-/
import PveCpi.Ha.Eligibility
import PveCpi.Lib.Check
import PveCpi.Lib.Tokens

namespace Ha

open Lib.Text

/-! ## 1. Node lists -/

@[simp] theorem mem_sorted {l : List String} {n : String} : n ∈ sorted l ↔ n ∈ l :=
  (List.perm_insertionSort _ l).mem_iff

theorem nodup_sorted {l : List String} : (sorted l).Nodup ↔ l.Nodup :=
  (List.perm_insertionSort _ l).nodup_iff

@[simp] theorem mem_intersect {a b : List String} {n : String} :
    n ∈ intersect a b ↔ n ∈ a ∧ n ∈ b := by
  simp [intersect]

theorem nodup_intersect {a : List String} (h : a.Nodup) (b : List String) :
    (intersect a b).Nodup :=
  nodup_sorted.mpr (h.filter _)

theorem mem_trimmed {l : List String} {n : String} :
    n ∈ trimmed l ↔ n ≠ "" ∧ ∃ m ∈ l, trimSpace m = n := by
  simp [trimmed, and_comm]

theorem nodup_trimmed (l : List String) : (trimmed l).Nodup :=
  nodup_sorted.mpr (List.nodup_dedup _)

@[simp] theorem mem_normalizeNodes {l : List String} {n : String} :
    n ∈ normalizeNodes l ↔ n ∈ trimmed l := mem_sorted

@[simp] theorem mem_foldl_intersect {cs : List NodeConstraint} {n : String} :
    ∀ {set : List String}, n ∈ cs.foldl (fun set c => intersect set c.nodes) set ↔
      n ∈ set ∧ ∀ c ∈ cs, n ∈ c.nodes := by
  induction cs with
  | nil => simp
  | cons c cs ih =>
    intro set
    rw [List.foldl_cons, ih, mem_intersect, List.forall_mem_cons, and_assoc]

theorem nodup_foldl_intersect {cs : List NodeConstraint} :
    ∀ {set : List String}, set.Nodup →
    (cs.foldl (fun set c => intersect set c.nodes) set).Nodup := by
  induction cs with
  | nil => exact fun h => h
  | cons c cs ih => exact fun h => ih (nodup_intersect h c.nodes)

theorem mem_insideAZ {input : VMInput} {set : List String} {n : String} :
    n ∈ insideAZ input set ↔ n ∈ set ∧ ∀ az, strictAZ input = some az → n ∈ az := by
  unfold insideAZ
  cases strictAZ input with
  | none => simp
  | some az => simp

theorem nodup_insideAZ {input : VMInput} {set : List String} (h : set.Nodup) :
    (insideAZ input set).Nodup := by
  unfold insideAZ
  cases strictAZ input with
  | none => exact h
  | some az => exact nodup_intersect h az

theorem trimSpace_trimSpace (s : String) : trimSpace (trimSpace s) = trimSpace s := by
  rw [trimSpace, trimSpace, String.toList_ofList, Lib.Tokens.trimList_trimList]

/-! ## 2. Access sets

A fold over the volumes that filters the nodes, read as one condition on a node. -/

/-- The reach of a volume, as `VolumeAccessSet` finds it. -/
def reachOf (get : String → Option StorageInfo) (v : AccessVolume) :
    Option (Option (List String)) :=
  (storageOf v.volume).bind fun storage =>
    (get storage).bind fun info => storageNodeSet info v.homeNode

/-- A node is in the reach of a volume. -/
def Hits (get : String → Option StorageInfo) (v : AccessVolume) (n : String) : Prop :=
  ∀ reach, reachOf get v = some (some reach) → n ∈ reach

/-- One volume takes away exactly the nodes that cannot reach it. -/
theorem narrowTo_ok {get : String → Option StorageInfo} {set out : List String} {v : AccessVolume}
    (h : narrowTo get set v = .ok out) :
    (reachOf get v).isSome ∧ (∀ n, n ∈ out ↔ n ∈ set ∧ Hits get v n) ∧ (set.Nodup → out.Nodup) := by
  unfold narrowTo at h
  unfold Hits
  split at h
  · cases h
  · rename_i storage hstorage
    split at h
    · cases h
    · rename_i info hinfo
      have hreach : reachOf get v = storageNodeSet info v.homeNode := by
        simp [reachOf, hstorage, hinfo]
      rw [hreach]
      split at h
      · cases h
      · rename_i hset
        cases h
        simp [hset]
      · rename_i reach hset
        cases h
        refine ⟨by rw [hset]; rfl, fun n => ?_, fun hnodup => hnodup.filter _⟩
        rw [hset, List.mem_filter, decide_eq_true_eq]
        simp

/-- Narrowing fails only for a volume whose storage is not known. -/
theorem narrowTo_isOk {get : String → Option StorageInfo} (set : List String) {v : AccessVolume}
    (h : (reachOf get v).isSome) : ∃ out, narrowTo get set v = .ok out := by
  unfold reachOf at h
  unfold narrowTo
  cases hstorage : storageOf v.volume with
  | none => simp [hstorage] at h
  | some storage =>
    cases hinfo : get storage with
    | none => simp [hstorage, hinfo] at h
    | some info =>
      cases hset : storageNodeSet info v.homeNode with
      | none => simp [hstorage, hinfo, hset] at h
      | some reach =>
        cases reach with
        | none => exact ⟨set, by simp [hinfo, hset]⟩
        | some reach => exact ⟨_, by simp [hinfo, hset]; rfl⟩

/-- The loop over the volumes, by induction over them; each one filters the set. -/
theorem narrowTo_foldlM {get : String → Option StorageInfo} {volumes : List AccessVolume} :
    ∀ {set out : List String}, volumes.foldlM (narrowTo get) set = .ok out →
      (∀ v ∈ volumes, (reachOf get v).isSome) ∧
      (∀ n, n ∈ out ↔ n ∈ set ∧ ∀ v ∈ volumes, Hits get v n) ∧ (set.Nodup → out.Nodup) := by
  induction volumes with
  | nil =>
    intro set out h
    cases h
    simp
  | cons v volumes ih =>
    intro set out h
    rw [List.foldlM_cons] at h
    obtain ⟨mid, hmid, hrest⟩ := Lib.Check.bind_eq_ok.mp h
    obtain ⟨hone, hmem, hnodup⟩ := narrowTo_ok hmid
    obtain ⟨hall, hmems, hnodups⟩ := ih hrest
    refine ⟨List.forall_mem_cons.mpr ⟨hone, hall⟩, fun n => ?_, fun h => hnodups (hnodup h)⟩
    rw [hmems, hmem, List.forall_mem_cons, and_assoc]

theorem narrowTo_foldlM_isOk {get : String → Option StorageInfo} {volumes : List AccessVolume}
    (h : ∀ v ∈ volumes, (reachOf get v).isSome) :
    ∀ set, ∃ out, volumes.foldlM (narrowTo get) set = .ok out := by
  induction volumes with
  | nil => exact fun set => ⟨set, rfl⟩
  | cons v volumes ih =>
    intro set
    obtain ⟨mid, hmid⟩ := narrowTo_isOk set (h v (List.mem_cons_self ..))
    obtain ⟨out, hout⟩ := ih (fun v' hv' => h v' (List.mem_cons_of_mem _ hv')) mid
    exact ⟨out, by rw [List.foldlM_cons, hmid]; exact hout⟩

/-- **An access set is the members that every volume's reach holds.** -/
theorem volumeAccessSet_ok {get : String → Option StorageInfo} {members : List String}
    {volumes : List AccessVolume} {access : List String}
    (h : volumeAccessSet get members volumes = .ok access) :
    (∀ v ∈ volumes, (reachOf get v).isSome) ∧
    (∀ n, n ∈ access ↔ (n ∈ members ∧ n ≠ "") ∧ ∀ v ∈ volumes, Hits get v n) ∧ access.Nodup := by
  unfold volumeAccessSet at h
  cases hfold : volumes.foldlM (narrowTo get) ((members.filter fun n => decide (n ≠ "")).dedup) with
  | error e =>
    rw [hfold] at h
    cases h
  | ok out =>
    rw [hfold] at h
    cases h
    obtain ⟨hall, hmem, hnodup⟩ := narrowTo_foldlM hfold
    refine ⟨hall, fun n => ?_, nodup_sorted.mpr (hnodup (List.nodup_dedup _))⟩
    rw [mem_sorted, hmem, List.mem_dedup, List.mem_filter, decide_eq_true_eq]

theorem volumeAccessSet_isOk {get : String → Option StorageInfo} {volumes : List AccessVolume}
    (h : ∀ v ∈ volumes, (reachOf get v).isSome) (members : List String) :
    ∃ access, volumeAccessSet get members volumes = .ok access := by
  obtain ⟨out, hout⟩ :=
    narrowTo_foldlM_isOk h ((members.filter fun n => decide (n ≠ "")).dedup)
  exact ⟨sorted out, by rw [volumeAccessSet, hout]; rfl⟩

/-- A node that reaches some volumes reaches each part of them. -/
theorem volumeAccessSet_mono {get : String → Option StorageInfo} {members : List String}
    {volumes part : List AccessVolume} {access : List String} {n : String}
    (h : volumeAccessSet get members volumes = .ok access) (hn : n ∈ access)
    (hpart : ∀ v ∈ part, v ∈ volumes) :
    ∃ access', volumeAccessSet get members part = .ok access' ∧ n ∈ access' := by
  obtain ⟨hall, hmem, -⟩ := volumeAccessSet_ok h
  obtain ⟨access', haccess⟩ := volumeAccessSet_isOk (fun v hv => hall v (hpart v hv)) members
  obtain ⟨-, hmem', -⟩ := volumeAccessSet_ok haccess
  have hnode := (hmem n).mp hn
  exact ⟨access', haccess, (hmem' n).mpr ⟨hnode.1, fun v hv => hnode.2 v (hpart v hv)⟩⟩

/-! ## 3. What the pin allows

The pin of a decision is one of several rules, depending on how the hard nodes relate to the
configured ones; what counts is which nodes each of them allows. -/

/-- The nodes that a pin lets its VM run on: those it confines the VM to, or all of the cluster. -/
def Rule.allowed (pin : Rule) (configured : List String) : List String :=
  (allowedNodes (some pin)).getD configured

/-- The node names of a profile have no white space around them. -/
def Profile.Clean (p : Profile) : Prop := ∀ n ∈ p.configured, trimSpace n = n

theorem configured_ne {p : Profile} {n : String} (h : n ∈ p.configured) : n ≠ "" := by
  have := (List.mem_filter.mp h).2
  simpa using this

@[simp] theorem mem_nodeNames {p : Profile} {n : String} : n ∈ p.nodeNames ↔ n ∈ p.configured :=
  mem_sorted

theorem mem_trimmed_clean {p : Profile} (hclean : p.Clean) {l : List String}
    (hl : ∀ n ∈ l, n ∈ p.configured) {n : String} : n ∈ trimmed l ↔ n ∈ l := by
  rw [mem_trimmed]
  constructor
  · rintro ⟨-, m, hm, rfl⟩
    rw [hclean m (hl m hm)]
    exact hm
  · intro hn
    exact ⟨configured_ne (hl n hn), n, hn, hclean n (hl n hn)⟩

theorem affinityRule_keys {spec : PinSpec} {strict : Bool} {n : String} :
    ∀ {nodes : List (String × Int)},
      n ∈ (affinityRule spec strict nodes).nodes.keys ↔ n ∈ nodes.map Prod.fst := by
  intro nodes
  change n ∈ (nodes.map fun e => (⟨e.1, e.2⟩ : Sigma fun _ : String => Int)).toAList.keys ↔ _
  rw [← AList.mem_keys]
  induction nodes with
  | nil => simp [AList.mem_keys, List.toAList, AList.keys, List.dedupKeys]
  | cons e nodes ih =>
    rw [List.map_cons, AList.toAList_cons, AList.mem_insert, ih, List.map_cons, List.mem_cons]

theorem ruleOver_keys {spec : PinSpec} {strict : Bool} {nodes : List String} {n : String} :
    n ∈ (ruleOver spec strict nodes).nodes.keys ↔ n ∈ nodes := by
  rw [ruleOver, affinityRule_keys, List.map_map]
  simp [Function.comp_def]

/-- **Which pin a decision gets**: one that confines nothing when there is no hard set, and else one
over the hard nodes of the cluster. -/
theorem decisionPin_cases {d : VMDecision} {marker : String} {storages configured : List String}
    {rebalance single : Bool} {pin : Rule}
    (h : decisionPin d marker storages configured rebalance single = .ok pin) :
    (d.hard = none ∧ pin.strict = false) ∨
    ∃ hard nodes spec, d.hard = some hard ∧ admissibleHard hard configured = .ok nodes ∧
      pin = ruleOver spec
        (decide (trimmed configured = []) || decide (nodes.length < (trimmed configured).length))
        nodes := by
  unfold decisionPin at h
  split at h
  · cases h
  · split at h
    · cases h
    · dsimp only at h
      generalize hspec : d.pinSpec (withVolumeRecord marker storages) configured rebalance single =
        spec at h
      have hspecHard : spec.hard = d.hard := by rw [← hspec]; rfl
      have hspecConf : spec.configured = configured := by rw [← hspec]; rfl
      cases hhard : d.hard with
      | some hard =>
        unfold buildPin at h
        rw [hspecHard, hhard, hspecConf] at h
        dsimp only at h
        cases hnodes : admissibleHard hard configured with
        | error e => simp [hnodes] at h
        | ok nodes =>
          rw [hnodes] at h
          exact .inr ⟨hard, nodes, spec, rfl, hnodes, (Except.ok.inj h).symm⟩
      | none =>
        refine .inl ⟨rfl, ?_⟩
        unfold buildPin at h
        rw [hspecHard, hhard] at h
        dsimp only at h
        split at h
        · cases h
        · rename_i rule hrule
          cases h
          split at hrule
          · rw [← Option.some.inj (Except.ok.inj hrule)]
            rfl
          · split at hrule
            · rw [← Option.some.inj (Except.ok.inj hrule)]
              rfl
            · cases hrule
        · unfold recordPin at h
          split at h
          · rename_i rule hrule
            cases h
            split at hrule
            · cases hrule
            · rw [← Option.some.inj hrule]
              rfl
          · cases h

theorem subset_of_sameSet {set members : List String} (hnodup : set.Nodup)
    (h : sameSet set members = true) {n : String} (hn : n ∈ members) : n ∈ set := by
  simp only [sameSet, Bool.and_eq_true, decide_eq_true_eq, List.all_eq_true] at h
  have hsub : set.Subperm members := hnodup.subperm h.2
  exact (hsub.perm_of_length_le (Nat.le_of_eq h.1.symm)).mem_iff.mpr hn

/-- What the pin needs to know of a decision. -/
structure Bounded (p : Profile) (d : VMDecision) : Prop where
  nodup : d.admissible.Nodup
  configured : ∀ n ∈ d.admissible, n ∈ p.configured
  hard : d.hard = if sameSet d.admissible p.nodeNames then none else some d.admissible

/-- **The pin of a decision allows the admissible nodes and no other.**  Each kind of pin is
compared with the hard nodes of the decision; where the pin confines nothing, the hard nodes are all
nodes. -/
theorem pin_allows_iff {p : Profile} (hclean : p.Clean) {d : VMDecision} (hd : Bounded p d)
    {marker : String} {storages : List String} {rebalance single : Bool} {pin : Rule}
    (h : decisionPin d marker storages p.configured rebalance single = .ok pin) {n : String} :
    n ∈ pin.allowed p.configured ↔ n ∈ d.admissible := by
  have hnil : ∀ pin : Rule, pin.strict = false → pin.allowed p.configured = p.configured := by
    intro pin hstrict
    simp [Rule.allowed, allowedNodes, hstrict]
  have hmembers : ∀ n, n ∈ trimmed p.configured ↔ n ∈ p.configured := fun n =>
    mem_trimmed_clean hclean fun n hn => hn
  have hset : ∀ n, n ∈ trimmed d.admissible ↔ n ∈ d.admissible := fun n =>
    mem_trimmed_clean hclean hd.configured
  rcases decisionPin_cases h with ⟨hhard, hstrict⟩ | ⟨hard, nodes, spec, hhard, hnodes, rfl⟩
  · rw [hnil pin hstrict]
    have hsame : sameSet d.admissible p.nodeNames = true := by
      by_contra hne
      rw [hd.hard, if_neg hne] at hhard
      cases hhard
    constructor
    · exact fun hn => subset_of_sameSet hd.nodup hsame (mem_nodeNames.mpr hn)
    · exact hd.configured n
  · have hhard' : hard = d.admissible := by
      have heq := hd.hard
      rw [hhard] at heq
      split at heq
      · cases heq
      · exact Option.some.inj heq
    subst hhard'
    have hmem : ∀ n, n ∈ nodes ↔ n ∈ d.admissible := by
      intro n
      unfold admissibleHard at hnodes
      dsimp only at hnodes
      split at hnodes
      · cases hnodes
      · cases hnodes
        rw [List.mem_filter, hset]
        simp only [Bool.or_eq_true, decide_eq_true_eq, hmembers]
        exact ⟨fun hn => hn.1, fun hn => ⟨hn, .inr (hd.configured n hn)⟩⟩
    have hnodup : nodes.Nodup := by
      unfold admissibleHard at hnodes
      dsimp only at hnodes
      split at hnodes
      · cases hnodes
      · cases hnodes
        exact (nodup_trimmed _).filter _
    cases hstrict : decide (trimmed p.configured = []) ||
        decide (nodes.length < (trimmed p.configured).length) with
    | true =>
      have hallowed : (ruleOver spec true nodes).allowed p.configured =
          (ruleOver spec true nodes).nodes.keys := rfl
      rw [hallowed, ruleOver_keys, hmem]
    | false =>
      rw [hnil (ruleOver spec false nodes) rfl]
      rw [Bool.or_eq_false_iff, decide_eq_false_iff_not, decide_eq_false_iff_not, Nat.not_lt]
        at hstrict
      have hsub : nodes.Subperm (trimmed p.configured) := hnodup.subperm fun n hn =>
        (hmembers n).mpr (hd.configured n ((hmem n).mp hn))
      have hperm := hsub.perm_of_length_le hstrict.2
      rw [← hmem, hperm.mem_iff, hmembers]

/-- A decision whose node is admissible and in the cluster gets a pin. -/
theorem decisionPin_exists {p : Profile} {d : VMDecision} (hreg : d.registers = true)
    (htrim : trimSpace d.node = d.node) (hne : d.node ≠ "")
    (hnode : d.node ∈ d.admissible) (hmember : d.node ∈ p.configured)
    (hhard : d.hard = if sameSet d.admissible p.nodeNames then none else some d.admissible) :
    ∃ pin, decisionPin d "" ["s"] p.configured false false = .ok pin := by
  have hstorages : trimmed ["s"] ≠ [] := by decide
  have htrimmed : ∀ {l : List String}, d.node ∈ l → d.node ∈ trimmed l := fun hl =>
    mem_trimmed.mpr ⟨hne, d.node, hl, htrim⟩
  unfold decisionPin
  rw [hreg, if_neg (by simp), if_neg hstorages]
  dsimp only
  generalize hspec : d.pinSpec (withVolumeRecord "" ["s"]) p.configured false false = spec
  have hspecHard : spec.hard = d.hard := by rw [← hspec]; rfl
  have hspecConf : spec.configured = p.configured := by rw [← hspec]; rfl
  unfold buildPin
  cases hsame : sameSet d.admissible p.nodeNames with
  | true =>
    -- Without a hard set the record pin is there when no other is.
    have hrecord : ∃ rule, recordPin spec d.admissible = some rule := by
      unfold recordPin
      rw [if_neg (List.ne_nil_of_mem (htrimmed hnode))]
      exact ⟨_, rfl⟩
    obtain ⟨rule, hrule⟩ := hrecord
    rw [hspecHard, hspecConf, hhard, hsame, if_pos rfl]
    dsimp only
    split
    · rename_i hother
      split at hother
      · cases hother
      · split at hother <;> cases hother
    · exact ⟨_, rfl⟩
    · rw [hrule]
      exact ⟨rule, rfl⟩
  | false =>
    have hnodes : ∃ nodes, admissibleHard d.admissible p.configured = .ok nodes := by
      unfold admissibleHard
      dsimp only
      rw [if_neg]
      · exact ⟨_, rfl⟩
      · refine List.ne_nil_of_mem (a := d.node) (List.mem_filter.mpr ⟨htrimmed hnode, ?_⟩)
        simp [htrimmed hmember]
    obtain ⟨nodes, hnodes⟩ := hnodes
    rw [hspecHard, hspecConf, hhard, hsame, if_neg Bool.false_ne_true]
    dsimp only
    rw [hnodes]
    exact ⟨_, rfl⟩

/-! ## 4. What a node has to satisfy -/

section Conditions

variable (p : Profile) (input : VMInput)

/-- The VM's volumes with the nodes that hold them. -/
def VMInput.accessVolumes : List AccessVolume :=
  input.volumes.map fun v => ⟨v.volume, (input.home v).homeNode⟩

/-- The node reaches every volume of the VM. -/
def Reaches (n : String) : Prop :=
  ∃ access, volumeAccessSet (storageGetter p input) p.nodeNames input.accessVolumes = .ok access ∧
    n ∈ access

/-- The node reaches every volume that the decision counts as shared. -/
def ReachesShared (n : String) : Prop :=
  ∃ classes access, classifyVolumes p input = .ok classes ∧
    volumeAccessSet (storageGetter p input) p.nodeNames (sharedVolumes classes) = .ok access ∧
    n ∈ access

/-- The node meets every constraint. -/
def Meets (n : String) : Prop := ∀ c ∈ input.constraints, n ∈ c.nodes

/-- The node is in the strict AZ, when one applies. -/
def InStrictAZ (n : String) : Prop := ∀ az, strictAZ input = some az → n ∈ az

/-- The node is in the CPU domain of the VM's node. -/
def InCPUDomain (n : String) : Prop := ∃ dom, p.domainOf input.placed = some dom ∧ n ∈ dom

/-- Everything that a node of the VM's pin has to satisfy. -/
structure Suits (d : VMDecision) (n : String) : Prop where
  reaches : Reaches p input n
  meets : Meets input n
  az : InStrictAZ input n
  cpu : d.policy = .shared → cpuTypeNeedsDomain input.cpuType = true → InCPUDomain p input n

/-- Everything that a node of a widened pin has to satisfy. -/
structure SuitsWidened (n : String) : Prop where
  shared : ReachesShared p input n
  meets : Meets input n
  az : InStrictAZ input n

/-- The VM's own node reaches every volume and meets every constraint, which is what the hold policy
checks. -/
structure NodeFits : Prop where
  reaches : Reaches p input input.placed
  meets : Meets input input.placed

end Conditions

section Registered

variable {p : Profile} {input : VMInput}

/-! ## 5. The classification of the volumes -/

/-- A `mapM` that succeeded has succeeded on every entry. -/
theorem mapM_ok {α β ε : Type} {f : α → Except ε β} : ∀ {l : List α} {out : List β},
    l.mapM f = .ok out → List.Forall₂ (fun a b => f a = .ok b) l out := by
  intro l
  induction l with
  | nil =>
    intro out h
    cases h
    exact .nil
  | cons a l ih =>
    intro out h
    rw [List.mapM_cons] at h
    obtain ⟨b, hb, h⟩ := Lib.Check.bind_eq_ok.mp h
    obtain ⟨bs, hbs, h⟩ := Lib.Check.bind_eq_ok.mp h
    cases h
    exact .cons hb (ih hbs)

/-- The class of a volume names the volume, its home node, and whether it is local. -/
theorem classifyVolume_ok {v : VMVolume} {c : VolumeClass}
    (h : classifyVolume p input v = .ok c) :
    c.accessVolume = ⟨v.volume, (input.home v).homeNode⟩ ∧
      c.isLocal = (decide (input.config.storageTopology = .local) || !c.info.isShared) := by
  have hvolume : (input.home v).volume = v.volume := by
    unfold VMInput.home
    split <;> rfl
  unfold classifyVolume at h
  split at h
  · cases h
  · split at h
    · cases h
    · cases h
      exact ⟨by rw [VolumeClass.accessVolume, hvolume], rfl⟩

theorem classified {volumes : List VMVolume} {classes : List VolumeClass}
    (h : List.Forall₂ (fun v c => classifyVolume p input v = .ok c) volumes classes) :
    classes.map VolumeClass.accessVolume =
        volumes.map (fun v => ⟨v.volume, (input.home v).homeNode⟩) ∧
      ∀ c ∈ classes,
        c.isLocal = (decide (input.config.storageTopology = .local) || !c.info.isShared) := by
  induction h with
  | nil => simp
  | cons hone _ ih =>
    obtain ⟨hvolume, hlocal⟩ := classifyVolume_ok hone
    rw [List.map_cons, List.map_cons, hvolume, ih.1]
    exact ⟨rfl, List.forall_mem_cons.mpr ⟨hlocal, ih.2⟩⟩

theorem classifyVolumes_ok {classes : List VolumeClass}
    (h : classifyVolumes p input = .ok classes) :
    classes.map VolumeClass.accessVolume = input.accessVolumes ∧
      ∀ c ∈ classes,
        c.isLocal = (decide (input.config.storageTopology = .local) || !c.info.isShared) := by
  unfold classifyVolumes at h
  split at h
  · cases h
  · exact classified (mapM_ok h)

theorem mem_volumesOf {classes : List VolumeClass} {v : AccessVolume} :
    v ∈ volumesOf .disk classes ++ volumesOf .iso classes ↔
      v ∈ classes.map VolumeClass.accessVolume := by
  simp only [volumesOf, List.mem_append, List.mem_map, List.mem_filter, decide_eq_true_eq]
  constructor
  · rintro (⟨c, hc, rfl⟩ | ⟨c, hc, rfl⟩)
    · exact ⟨c, hc.1, rfl⟩
    · exact ⟨c, hc.1, rfl⟩
  · rintro ⟨c, hc, rfl⟩
    cases hkind : c.vol.kind with
    | disk => exact .inl ⟨c, ⟨hc, hkind⟩, rfl⟩
    | iso => exact .inr ⟨c, ⟨hc, hkind⟩, rfl⟩

/-- The access set is what is left of the nodes after every volume and after the constraints of the
VM itself (`Meets`). -/
theorem narrow_ok {get : String → Option StorageInfo} {volumes : List AccessVolume}
    {access : List String} (h : narrow p input get volumes = .ok access) :
    ∃ set, volumeAccessSet get p.nodeNames volumes = .ok set ∧
      (∀ n, n ∈ access ↔ n ∈ set ∧ Meets input n) ∧ access.Nodup := by
  unfold narrow at h
  cases hset : volumeAccessSet get p.nodeNames volumes with
  | error e =>
    rw [hset] at h
    cases h
  | ok set =>
    rw [hset] at h
    cases h
    refine ⟨set, rfl, fun n => mem_foldl_intersect, ?_⟩
    exact nodup_foldl_intersect (volumeAccessSet_ok hset).2.2

/-- **The access set of a decision** is the nodes that reach every volume and meet every
constraint. -/
theorem mem_access {classes : List VolumeClass} {access : List String}
    (hclasses : classifyVolumes p input = .ok classes)
    (h : narrow p input (storageGetter p input)
      (volumesOf .disk classes ++ volumesOf .iso classes) = .ok access) (n : String) :
    n ∈ access ↔ Reaches p input n ∧ Meets input n := by
  obtain ⟨set, hset, hmem, -⟩ := narrow_ok h
  have hvolumes : ∀ v, v ∈ volumesOf .disk classes ++ volumesOf .iso classes ↔
      v ∈ input.accessVolumes := by
    intro v
    rw [mem_volumesOf, (classifyVolumes_ok hclasses).1]
  rw [hmem]
  refine and_congr_left fun _ => ?_
  constructor
  · intro hn
    exact volumeAccessSet_mono hset hn fun v hv => (hvolumes v).mpr hv
  · rintro ⟨access', haccess', hn⟩
    obtain ⟨set', hset', hn'⟩ := volumeAccessSet_mono haccess' hn fun v hv => (hvolumes v).mp hv
    rw [hset] at hset'
    cases hset'
    exact hn'

theorem Reaches.configured {n : String} (h : Reaches p input n) : n ∈ p.configured := by
  obtain ⟨access, haccess, hn⟩ := h
  exact mem_nodeNames.mp (((volumeAccessSet_ok haccess).2.1 n).mp hn).1.1

theorem ReachesShared.configured {n : String} (h : ReachesShared p input n) :
    n ∈ p.configured := by
  obtain ⟨classes, access, -, haccess, hn⟩ := h
  exact mem_nodeNames.mp (((volumeAccessSet_ok haccess).2.1 n).mp hn).1.1

theorem mem_sharedVolumes {classes : List VolumeClass} {v : AccessVolume}
    (h : v ∈ sharedVolumes classes) : v ∈ classes.map VolumeClass.accessVolume := by
  obtain ⟨c, hc, rfl⟩ := List.mem_map.mp h
  exact List.mem_map_of_mem (List.mem_filter.mp hc).1

theorem Reaches.shared {classes : List VolumeClass} {n : String}
    (hclasses : classifyVolumes p input = .ok classes) (h : Reaches p input n) :
    ReachesShared p input n := by
  obtain ⟨access, haccess, hn⟩ := h
  obtain ⟨access', haccess', hn'⟩ := volumeAccessSet_mono haccess hn fun v hv => by
    rw [← (classifyVolumes_ok hclasses).1]
    exact mem_sharedVolumes hv
  exact ⟨classes, access', hclasses, haccess', hn'⟩

/-! ## 6. What a registration says

One lemma for each way to a registration.  Every other exit of the function has another outcome. -/

/-- Why a VM is registered, and what that says about the admissible nodes. -/
inductive Grounds (p : Profile) (input : VMInput) (d : VMDecision) : Prop
  | shared (policy : d.policy = .shared)
      (nodes : ∀ n ∈ d.admissible, (Reaches p input n ∧ Meets input n) ∧
        (cpuTypeNeedsDomain input.cpuType = true → InCPUDomain p input n))
  | hold (policy : d.policy = .hold) (nodes : ∀ n ∈ d.admissible, n = d.node)
      (reaches : Reaches p input d.node) (meets : Meets input d.node)
  | replicate (policy : d.policy = .replicate) (nodes : ∀ n ∈ d.admissible, n = d.node)
      (partner : String)
      (widened : d.widened = insideAZ input (normalizeNodes [d.node, partner]))
      (shared : ReachesShared p input partner) (meets : Meets input partner)

/-- What a decision that registers its VM says. -/
structure Registered (p : Profile) (input : VMInput) (d : VMDecision) : Prop where
  node : d.node = input.placed
  own : d.node ∈ d.admissible
  nodup : d.admissible.Nodup
  az : ∀ n ∈ d.admissible, InStrictAZ input n
  hard : d.hard = if sameSet d.admissible p.nodeNames then none else some d.admissible
  classified : ∃ classes, classifyVolumes p input = .ok classes
  grounds : Grounds p input d

/-- The decision before it ends: its node, and no hard set. -/
structure Fresh (input : VMInput) (d : VMDecision) : Prop where
  node : d.node = input.placed
  hard : d.hard = none

@[simp] theorem fail_outcome (d : VMDecision) (r : Reason) : (d.fail r).outcome = .fail := rfl

@[simp] theorem skip_outcome (d : VMDecision) (r : Reason) : (d.skip r).outcome = .skip := rfl

@[simp] theorem postpone_outcome (d : VMDecision) (r : Reason) :
    (d.postpone r).outcome = .fail := rfl

theorem refuse_outcome (d : VMDecision) (m : Bool) (r : Reason) (t : Bool) :
    (d.refuse m r t).outcome ≠ .register := by
  cases m <;> simp [VMDecision.refuse, VMDecision.warn]

/-- **What `register` leaves**, when it does not refuse. -/
theorem register_spec {d : VMDecision} {policy : Policy} {hard : List String} {reason : Reason}
    (h : (register p input d policy hard reason).outcome = .register) :
    d.node ∈ insideAZ input hard ∧
    (register p input d policy hard reason).node = d.node ∧
    (register p input d policy hard reason).policy = policy ∧
    (register p input d policy hard reason).admissible = insideAZ input hard ∧
    (register p input d policy hard reason).hard =
      if sameSet (insideAZ input hard) p.nodeNames then d.hard else some (insideAZ input hard) := by
  unfold register at h ⊢
  dsimp only at h ⊢
  split at h
  · exact absurd h (refuse_outcome _ _ _ _)
  · split at h
    · exact absurd h (refuse_outcome _ _ _ _)
    · rename_i hne hmem
      rw [if_neg hne, if_neg hmem]
      exact ⟨not_not.mp hmem, rfl, rfl, rfl, rfl⟩

/-- A registration over some hard nodes says what its grounds are. -/
theorem registered_of_register {d : VMDecision} (hd : Fresh input d) {policy : Policy}
    {hard : List String} {reason : Reason} (hnodup : hard.Nodup)
    (hclasses : ∃ classes, classifyVolumes p input = .ok classes)
    (h : (register p input d policy hard reason).outcome = .register)
    (hgrounds : (∀ n ∈ (register p input d policy hard reason).admissible, n ∈ hard) →
      (register p input d policy hard reason).policy = policy →
      (register p input d policy hard reason).node = d.node →
      Grounds p input (register p input d policy hard reason)) :
    Registered p input (register p input d policy hard reason) := by
  obtain ⟨hown, hnode, hpolicy, hadm, hhard⟩ := register_spec h
  have hin : ∀ n ∈ (register p input d policy hard reason).admissible, n ∈ hard := by
    intro n hn
    rw [hadm] at hn
    exact (mem_insideAZ.mp hn).1
  refine ⟨hnode.trans hd.node, ?_, ?_, ?_, ?_, hclasses, hgrounds hin hpolicy hnode⟩
  · rw [hnode, hadm]
    exact hown
  · rw [hadm]
    exact nodup_insideAZ hnodup
  · intro n hn
    rw [hadm] at hn
    exact (mem_insideAZ.mp hn).2
  · rw [hhard, hadm, hd.hard]

section Policies

variable {d : VMDecision} {classes : List VolumeClass} {access : List String}

theorem nodup_access
    (h : narrow p input (storageGetter p input)
      (volumesOf .disk classes ++ volumesOf .iso classes) = .ok access) : access.Nodup := by
  obtain ⟨-, -, -, hnodup⟩ := narrow_ok h
  exact hnodup

/-- Shared volumes: the admissible nodes are the access set, met with the CPU domain where the CPU
type needs one, and `register` meets it with the strict AZ. -/
theorem registered_shared (hd : Fresh input d) (hclasses : classifyVolumes p input = .ok classes)
    (haccess : narrow p input (storageGetter p input)
      (volumesOf .disk classes ++ volumesOf .iso classes) = .ok access)
    (h : (decideShared p input d access (cpuDomain p input).1 (cpuDomain p input).2).outcome =
      .register) :
    Registered p input
      (decideShared p input d access (cpuDomain p input).1 (cpuDomain p input).2) := by
  have hmem := mem_access hclasses haccess
  unfold decideShared at h ⊢
  dsimp only at h ⊢
  by_cases hneeds : cpuTypeNeedsDomain input.cpuType = true
  · rw [if_pos hneeds] at h ⊢
    cases hdomain : p.domainOf input.placed with
    | none =>
      have herr : (cpuDomain p input).2 = true := by simp [cpuDomain, hneeds, hdomain]
      rw [herr, if_pos rfl] at h
      exact absurd h (refuse_outcome _ _ _ _)
    | some dom =>
      have hcpu : cpuDomain p input = (some dom, false) := by simp [cpuDomain, hneeds, hdomain]
      rw [hcpu] at h ⊢
      rw [if_neg Bool.false_ne_true] at h ⊢
      split at h
      · exact absurd h (refuse_outcome _ _ _ _)
      · rename_i hcount
        rw [if_neg hcount]
        have hfresh : Fresh input { d with access := intersect access dom } := ⟨hd.node, hd.hard⟩
        refine registered_of_register hfresh (nodup_intersect (nodup_access haccess) _)
          ⟨classes, hclasses⟩ h fun hin hpolicy _ => ?_
        refine .shared hpolicy fun n hn => ?_
        obtain ⟨hn, hdom⟩ := mem_intersect.mp (hin n hn)
        exact ⟨(hmem n).mp hn, fun _ => ⟨dom, hdomain, hdom⟩⟩
  · rw [if_neg hneeds] at h ⊢
    have hfresh : Fresh input { d with access := access } := ⟨hd.node, hd.hard⟩
    refine registered_of_register hfresh (nodup_access haccess) ⟨classes, hclasses⟩ h
      fun hin hpolicy _ => ?_
    exact .shared hpolicy fun n hn => ⟨(hmem n).mp (hin n hn), fun hn => absurd hn hneeds⟩

theorem mem_zfs_fold {ds : List VolumeClass} {n : String} : ∀ {cs : List String},
    n ∈ ds.foldl (fun cs c => intersect cs (zfsNodes p c.info)) cs → n ∈ cs := by
  induction ds with
  | nil => exact fun h => h
  | cons c ds ih => exact fun h => (mem_intersect.mp (ih h)).1

/-- A partner meets the constraints and reaches the shared volumes. -/
theorem partner_suits {domain : Option (List String)} {n : String}
    (hclasses : classifyVolumes p input = .ok classes)
    (hgaps : (sharedCandidates p input classes (replicaCandidates p input domain)).2 = [])
    (h : n ∈ partnerCandidates p input classes domain) :
    ReachesShared p input n ∧ Meets input n := by
  have hcandidate : n ∈ (sharedCandidates p input classes (replicaCandidates p input domain)).1 :=
    mem_zfs_fold (List.mem_filter.mp h).1
  -- Without a shared volume every member is a candidate.
  have hreplica : n ∈ replicaCandidates p input domain →
      n ∈ p.nodeNames ∧ Meets input n := by
    intro hn
    have hout := (mem_insideAZ.mp (mem_sorted.mp hn)).1
    have hfold : n ∈ input.constraints.foldl (fun out c => intersect out c.nodes) p.nodeNames := by
      cases domain with
      | none => exact hout
      | some dom => exact (mem_intersect.mp hout).1
    exact mem_foldl_intersect.mp hfold
  unfold sharedCandidates at hcandidate hgaps
  split at hcandidate
  · rename_i hempty
    obtain ⟨hmember, hmeets⟩ := hreplica hcandidate
    have hreach : ∀ v ∈ sharedVolumes classes, (reachOf (storageGetter p input) v).isSome := by
      rw [hempty]
      simp
    obtain ⟨set, hset⟩ := volumeAccessSet_isOk hreach p.nodeNames
    refine
      ⟨⟨classes, set, hclasses, hset, ((volumeAccessSet_ok hset).2.1 n).mpr ⟨⟨hmember, ?_⟩, ?_⟩⟩,
      hmeets⟩
    · exact configured_ne (mem_nodeNames.mp hmember)
    · rw [hempty]
      simp
  · rename_i hne
    rw [if_neg hne] at hgaps
    split at hcandidate
    · rename_i e he
      rw [he] at hgaps
      cases hgaps
    · rename_i sa hsa
      obtain ⟨hrep, hn⟩ := mem_intersect.mp hcandidate
      obtain ⟨set, hset, hmem, -⟩ := narrow_ok hsa
      obtain ⟨hn, hmeets⟩ := (hmem n).mp hn
      -- A shared volume is there, so the index does not force local storage.
      have hindex : storageGetter p input = storageIndex p.storages false := by
        obtain ⟨v, hv⟩ := List.exists_mem_of_ne_nil _ hne
        obtain ⟨c, hc, -⟩ := List.mem_map.mp hv
        obtain ⟨hc, hlocal⟩ := List.mem_filter.mp hc
        rw [(classifyVolumes_ok hclasses).2 c hc] at hlocal
        simp only [Bool.not_or, Bool.and_eq_true, Bool.not_eq_true'] at hlocal
        rw [storageGetter, hlocal.1]
      rw [← hindex] at hset
      exact ⟨⟨classes, set, hclasses, hset, hn⟩, hmeets⟩

theorem pickPartner_mem {partners : List String} (h : partners ≠ []) :
    pickPartner p input partners ∈ partners := by
  unfold pickPartner
  cases hjob : p.replication.find? fun j => decide (j.guest = input.vmid ∧ j.target ∈ partners) with
  | none =>
    cases partners with
    | nil => exact absurd rfl h
    | cons n partners => exact List.mem_cons_self ..
  | some j =>
    have := List.find?_some hjob
    exact (of_decide_eq_true this).2

/-- Replicated disks: the hard set is the node alone, and the rule is widened later to the node and
its partner.  Only the partner was checked against the volumes and the constraints; the node itself
was not, which is what the counterexample uses. -/
theorem registered_replicate (hd : Fresh input d)
    (hclasses : classifyVolumes p input = .ok classes) {domain : Option (List String)}
    {domainErr isoLocal : Bool} {why : WhyLocal}
    (h : (decideReplicate p input d classes domain domainErr isoLocal why).outcome = .register) :
    Registered p input (decideReplicate p input d classes domain domainErr isoLocal why) := by
  unfold decideReplicate at h ⊢
  dsimp only at h ⊢
  split at h
  · cases h
  · rename_i hiso
    rw [if_neg hiso]
    split at h
    · exact absurd h (refuse_outcome _ _ _ _)
    · rename_i hgaps
      rw [if_neg hgaps]
      rw [not_not] at hgaps
      split at h
      · rename_i hout
        exact absurd h hout
      · rename_i hout
        rw [not_not] at hout
        rw [if_neg (not_not.mpr hout)]
        simp only [replicateGaps, List.append_eq_nil_iff, List.map_eq_nil_iff] at hgaps
        obtain ⟨⟨⟨⟨-, hshared⟩, -⟩, -⟩, hpartners⟩ := hgaps
        have hpartners : partnersOf p (partnerCandidates p input classes domain) ≠ [] := by
          intro hnil
          rw [if_pos hnil] at hpartners
          cases hpartners
        have hpartner := @pickPartner_mem p input _ hpartners
        obtain ⟨hreach, hmeets⟩ :=
          partner_suits hclasses hshared (List.mem_filter.mp hpartner).1
        generalize pickPartner p input (partnersOf p (partnerCandidates p input classes domain)) =
          partner at hreach hmeets hout ⊢
        obtain ⟨hown, hnode, hpolicy, hadm, hhard⟩ := register_spec hout
        generalize register p input d .replicate [d.node] (.replicated d.node partner) = r
          at hnode hpolicy hadm hhard ⊢
        have hin : ∀ n ∈ r.admissible, n = d.node ∧ InStrictAZ input n := by
          intro n hn
          rw [hadm] at hn
          exact ⟨List.mem_singleton.mp (mem_insideAZ.mp hn).1, (mem_insideAZ.mp hn).2⟩
        have hnodup : r.admissible.Nodup := by
          rw [hadm]
          exact nodup_insideAZ (List.nodup_singleton _)
        rw [hd.hard, ← hadm] at hhard
        rw [← hadm, ← hnode] at hown
        exact ⟨hnode.trans hd.node, hown, hnodup, fun n hn => (hin n hn).2, hhard,
          ⟨classes, hclasses⟩,
          .replicate hpolicy (fun n hn => (hin n hn).1.trans hnode.symm) partner rfl hreach hmeets⟩

/-- Local disks: under `hold` the VM stays on its node, which has to reach its volumes; under
`replicate` the other lemma applies; nothing else registers. -/
theorem registered_local (hd : Fresh input d) (hclasses : classifyVolumes p input = .ok classes)
    (haccess : narrow p input (storageGetter p input)
      (volumesOf .disk classes ++ volumesOf .iso classes) = .ok access)
    {domain : Option (List String)} {domainErr isoLocal : Bool} {why : WhyLocal}
    (h : (decideLocal p input d classes access domain domainErr isoLocal why).outcome = .register) :
    Registered p input (decideLocal p input d classes access domain domainErr isoLocal why) := by
  unfold decideLocal at h ⊢
  split at h
  · exact absurd h (refuse_outcome _ _ _ _)
  · rename_i htopology
    rw [if_neg htopology]
    split at h
    · split at h
      · exact absurd h (refuse_outcome _ _ _ _)
      · rename_i hmem
        rw [if_neg hmem]
        rw [not_not] at hmem
        obtain ⟨hreaches, hmeets⟩ := (mem_access hclasses haccess _).mp hmem
        refine registered_of_register hd (List.nodup_singleton _) ⟨classes, hclasses⟩ h
          fun hin hpolicy hnode => ?_
        refine .hold hpolicy (fun n hn => ?_) ?_ ?_
        · rw [hnode]
          exact List.mem_singleton.mp (hin n hn)
        · rw [hnode]
          exact hreaches
        · rw [hnode]
          exact hmeets
    · exact registered_replicate hd hclasses h
    · cases h

theorem Registered.warnings (h : Registered p input d) (ws : List Warning) :
    Registered p input { d with warnings := ws } := by
  refine ⟨h.node, h.own, h.nodup, h.az, h.hard, h.classified, ?_⟩
  cases h.grounds with
  | shared policy nodes => exact .shared policy nodes
  | hold policy nodes reaches meets => exact .hold policy nodes reaches meets
  | replicate policy nodes partner widened shared meets =>
    exact .replicate policy nodes partner widened shared meets

theorem foldl_warn (vs : List String) : ∀ d : VMDecision, ∃ ws,
    vs.foldl (fun d v => d.warn (.legacyDisk v)) d = { d with warnings := ws } := by
  induction vs with
  | nil => exact fun d => ⟨d.warnings, rfl⟩
  | cons v vs ih =>
    intro d
    obtain ⟨ws, hws⟩ := ih (d.warn (.legacyDisk v))
    exact ⟨ws, by rw [List.foldl_cons, hws]; rfl⟩

/-- A legacy disk ends the decision under management, and otherwise adds a warning, which leaves the
rest of the decision as it is. -/
theorem registered_checkLegacy (hreg : d.outcome = .register → Registered p input d)
    (h : (if d.outcome = .register then checkLegacy p d classes else d).outcome = .register) :
    Registered p input (if d.outcome = .register then checkLegacy p d classes else d) := by
  split at h
  · rename_i hout
    rw [if_pos hout]
    unfold checkLegacy at h ⊢
    dsimp only at h ⊢
    split at h
    · rename_i hnone
      rw [if_pos hnone]
      exact hreg hout
    · rename_i hlegacy
      rw [if_neg hlegacy]
      split at h
      · cases h
      · rename_i hmanaged
        rw [if_neg hmanaged]
        generalize (classes.filter fun c : VolumeClass =>
          c.vol.legacy && decide (c.vol.kind = .disk)).map (fun c => c.vol.volume) = legacy
        obtain ⟨ws, hws⟩ := foldl_warn legacy d
        rw [hws]
        exact (hreg hout).warnings ws
  · rename_i hout
    exact absurd h hout

theorem fresh_downgradeISO {d' : VMDecision} (hd : Fresh input d) {diskAccess : List String}
    (h : downgradeISO p input d classes diskAccess = .ok d') : Fresh input d' := by
  unfold downgradeISO at h
  dsimp only at h
  split_ifs at h
  · cases h
    exact ⟨hd.node, hd.hard⟩
  · cases h
    exact hd

theorem downgradeISO_ends {d' : VMDecision} {diskAccess : List String}
    (h : downgradeISO p input d classes diskAccess = .error d') : d'.outcome ≠ .register := by
  unfold downgradeISO at h
  dsimp only at h
  split_ifs at h
  cases h
  simp

/-- Shared volumes with two nodes to place on, or the way of local disks. -/
theorem registered_policy (hd : Fresh input d) (hclasses : classifyVolumes p input = .ok classes)
    (haccess : narrow p input (storageGetter p input)
      (volumesOf .disk classes ++ volumesOf .iso classes) = .ok access)
    (h : (decidePolicy p input d classes access).outcome = .register) :
    Registered p input (decidePolicy p input d classes access) := by
  unfold decidePolicy at h ⊢
  dsimp only at h ⊢
  split at h
  · rename_i hshared
    rw [if_pos hshared]
    exact registered_shared hd hclasses haccess h
  · rename_i hlocal
    rw [if_neg hlocal]
    have hfresh : ∀ b : Bool, Fresh input { d with placeableShortfall := b } := fun _ =>
      ⟨hd.node, hd.hard⟩
    exact registered_local (hfresh _) hclasses haccess h

/-- Every way to a registration goes through the policy, from a decision with the access set filled
in; a local ISO may end it before. -/
theorem registered_conclude (hd : Fresh input d) (hclasses : classifyVolumes p input = .ok classes)
    {diskAccess : List String}
    (haccess : narrow p input (storageGetter p input)
      (volumesOf .disk classes ++ volumesOf .iso classes) = .ok access)
    (h : (conclude p input d classes diskAccess access).outcome = .register) :
    Registered p input (conclude p input d classes diskAccess access) := by
  have hfresh : Fresh input
      { d with access := access, cpuDomain := (cpuDomain p input).1 } := ⟨hd.node, hd.hard⟩
  unfold conclude at h ⊢
  generalize ({ d with access := access, cpuDomain := (cpuDomain p input).1 } : VMDecision) = d₀
    at hfresh h ⊢
  split at h
  · rename_i d' hdown
    exact absurd h (downgradeISO_ends hdown)
  · rename_i d' hdown
    dsimp only at h ⊢
    have hd' := fresh_downgradeISO hfresh hdown
    exact registered_checkLegacy (registered_policy hd' hclasses haccess) h

/-- Volumes are classified before anything is decided about them; an unknown storage is refused. -/
theorem registered_classify (hd : Fresh input d)
    (h : (classify p input d).outcome = .register) : Registered p input (classify p input d) := by
  unfold classify at h ⊢
  split at h
  · exact absurd h (refuse_outcome _ _ _ _)
  · rename_i classes hclasses
    dsimp only at h ⊢
    split at h
    · cases h
    · rename_i htopology
      rw [if_neg htopology]
      split at h
      · exact absurd h (refuse_outcome _ _ _ _)
      · split at h
        · exact absurd h (refuse_outcome _ _ _ _)
        · rename_i allAccess haccess
          exact registered_conclude hd hclasses haccess h

end Policies

theorem fresh_resolveDLB {d d' : VMDecision} (hd : Fresh input d)
    (h : resolveDLB p input d = .ok d') : Fresh input d' := by
  unfold resolveDLB at h
  dsimp only at h
  split_ifs at h
  all_goals
    cases h
    exact ⟨hd.node, hd.hard⟩

theorem resolveDLB_ends {d d' : VMDecision} (h : resolveDLB p input d = .error d') :
    d'.outcome ≠ .register := by
  unfold resolveDLB at h
  dsimp only at h
  split_ifs at h
  all_goals
    cases h
    simp [VMDecision.warn]

/-- All the checks in front of the classification end without a registration, so only the last
branch is left. -/
theorem registered_decideFrom {d : VMDecision} (hd : Fresh input d)
    (h : (decideFrom p input d).outcome = .register) :
    Registered p input (decideFrom p input d) := by
  unfold decideFrom at h ⊢
  split at h
  · split at h <;> cases h
  · rename_i hmode
    rw [if_neg hmode]
    split at h
    · cases h
    · rename_i hfloor
      rw [if_neg hfloor]
      split at h
      · split at h
        · cases h
        · split at h <;> cases h
      · rename_i hfull
        rw [if_neg hfull]
        split at h
        · exact absurd h (refuse_outcome _ _ _ _)
        · rename_i hnodes
          rw [if_neg hnodes]
          split at h
          · cases h
          · split at h
            · rename_i d' hdlb
              exact absurd h (resolveDLB_ends hdlb)
            · rename_i d' hdlb
              exact registered_classify (fresh_resolveDLB hd hdlb) h

/-- **What a decision that registers its VM says.**  The function is followed from its end to its
start: who registers, under which policy, over which access set. -/
theorem registered {d : VMDecision} (h : decideVM p input = .ok d) (hreg : d.registers = true) :
    Registered p input d ∧ input.placed ≠ "" := by
  unfold decideVM at h
  split at h
  · cases h
  · split at h
    · cases h
    · rename_i hnode
      cases h
      refine ⟨?_, hnode⟩
      exact registered_decideFrom ⟨rfl, rfl⟩ (of_decide_eq_true hreg)

end Registered

/-! ## 7. Soundness -/

/-- Where a registered VM may run: every node its pin allows suits it, its own node is one of them,
and every node of a widened pin keeps the constraints and reaches the shared volumes. -/
structure PlacementSound (p : Profile) (input : VMInput) (d : VMDecision) : Prop where
  pin : ∀ marker storages rebalance single pin,
    decisionPin d marker storages p.configured rebalance single = .ok pin →
      (∀ n ∈ pin.allowed p.configured, Suits p input d n) ∧ d.node ∈ pin.allowed p.configured
  widened : d.policy = .replicate → ∀ n ∈ d.widened, SuitsWidened p input n

/-- **When the placement of a registered VM is sound.**  It is only where the VM's own node reaches
every volume and meets every constraint, and there it is, as long as the profile's node names have
no white space around them.  The node of a VM is always admissible to its own pin, so the condition
on it is necessary; the other admissible nodes come from the access set or are partners, and these
meet everything. -/
theorem placement_sound_iff (p : Profile) (input : VMInput) (d : VMDecision)
    (h : decideVM p input = .ok d) (hreg : d.registers = true) :
    (PlacementSound p input d → NodeFits p input) ∧
      (NodeFits p input → p.Clean → PlacementSound p input d) := by
  obtain ⟨hd, hplaced⟩ := registered h hreg
  obtain ⟨classes, hclasses⟩ := hd.classified
  have htrim : trimSpace d.node = d.node := by
    rw [hd.node]
    exact trimSpace_trimSpace _
  have hne : d.node ≠ "" := by
    rw [hd.node]
    exact hplaced
  constructor
  · intro hsound
    cases hd.grounds with
    | shared policy nodes =>
      obtain ⟨⟨hreaches, hmeets⟩, -⟩ := nodes d.node hd.own
      rw [hd.node] at hreaches hmeets
      exact ⟨hreaches, hmeets⟩
    | hold policy nodes reaches meets =>
      rw [hd.node] at reaches meets
      exact ⟨reaches, meets⟩
    | replicate policy nodes partner widened shared meets =>
      -- The widened pin names the VM's node, so the node is one of the cluster's, and so is in
      -- the pin that is written now.
      have hwidened : d.node ∈ d.widened := by
        rw [widened]
        refine mem_insideAZ.mpr ⟨mem_normalizeNodes.mpr (mem_trimmed.mpr ⟨hne, d.node, ?_, htrim⟩),
          ?_⟩
        · exact List.mem_cons_self ..
        · exact hd.az d.node hd.own
      have hsuits := hsound.widened policy d.node hwidened
      obtain ⟨pin, hpin⟩ :=
        decisionPin_exists hreg htrim hne hd.own hsuits.shared.configured hd.hard
      obtain ⟨hall, hown⟩ := hsound.pin _ _ _ _ _ hpin
      have hnode := hall d.node hown
      rw [hd.node] at hnode
      exact ⟨hnode.reaches, hnode.meets⟩
  · rintro ⟨hreaches, hmeets⟩ hclean
    rw [← hd.node] at hreaches hmeets
    have hsuits : ∀ n ∈ d.admissible, Suits p input d n := by
      intro n hn
      have haz := hd.az n hn
      cases hd.grounds with
      | shared policy nodes =>
        obtain ⟨⟨hr, hm⟩, hcpu⟩ := nodes n hn
        exact ⟨hr, hm, haz, fun _ => hcpu⟩
      | hold policy nodes reaches meets =>
        rw [nodes n hn]
        exact ⟨reaches, meets, nodes n hn ▸ haz,
          fun hp => absurd (policy.symm.trans hp) (by decide)⟩
      | replicate policy nodes =>
        rw [nodes n hn]
        exact ⟨hreaches, hmeets, nodes n hn ▸ haz,
          fun hp => absurd (policy.symm.trans hp) (by decide)⟩
    have hbounded : Bounded p d :=
      ⟨hd.nodup, fun n hn => (hsuits n hn).reaches.configured, hd.hard⟩
    refine ⟨fun marker storages rebalance single pin hpin => ?_, fun hpolicy n hn => ?_⟩
    · refine ⟨fun n hn => hsuits n ?_, ?_⟩
      · exact (pin_allows_iff hclean hbounded hpin).mp hn
      · exact (pin_allows_iff hclean hbounded hpin).mpr hd.own
    · cases hd.grounds with
      | shared policy => exact absurd (policy.symm.trans hpolicy) (by decide)
      | hold policy => exact absurd (policy.symm.trans hpolicy) (by decide)
      | replicate policy nodes partner widened shared meets =>
        rw [widened] at hn
        obtain ⟨hn, haz⟩ := mem_insideAZ.mp hn
        obtain ⟨-, m, hm, rfl⟩ := mem_trimmed.mp (mem_normalizeNodes.mp hn)
        simp only [List.mem_cons, List.not_mem_nil, or_false] at hm
        rcases hm with rfl | rfl
        · rw [htrim] at haz ⊢
          exact ⟨hreaches.shared hclasses, hmeets, haz⟩
        · rw [hclean _ shared.configured] at haz ⊢
          exact ⟨shared, meets, haz⟩

/-- Two nodes with one ZFS storage each, under the same name. -/
def sampleProfile : Profile where
  mode := .auto
  full := true
  nodes := [{ name := "a" }, { name := "b" }]
  storages := [{ name := "zfs", type := "zfspool" }]

/-- A VM on the first node with a local disk, under `local_policy` replicate. -/
def placedInput (constraints : List NodeConstraint) : VMInput where
  config := { localPolicy := .replicate }
  vmid := 101
  node := "a"
  volumes := [{ volume := "zfs:d" }]
  constraints := constraints

theorem placement_sound_sample :
    ∃ d, decideVM sampleProfile (placedInput []) = .ok d ∧ d.registers = true ∧
      PlacementSound sampleProfile (placedInput []) d := by
  have hfits : NodeFits sampleProfile (placedInput []) :=
    ⟨⟨["a"], by decide, by decide⟩, by simp [Meets, placedInput]⟩
  have hclean : sampleProfile.Clean := by
    have : ∀ n ∈ sampleProfile.configured, trimSpace n = n := by decide
    exact this
  have hreg : (decideVM sampleProfile (placedInput [])).toOption.map VMDecision.registers =
      some true := by decide
  cases hd : decideVM sampleProfile (placedInput []) with
  | error e =>
    rw [hd] at hreg
    cases hreg
  | ok d =>
    rw [hd] at hreg
    have hreg : d.registers = true := Option.some.inj hreg
    exact ⟨d, rfl, hreg, (placement_sound_iff _ _ d hd hreg).2 hfits hclean⟩

/-- **A replicated VM is pinned to a node that a constraint excludes.** -/
theorem replicated_outside_constraint :
    ¬∀ (p : Profile) (input : VMInput) (d : VMDecision), decideVM p input = .ok d →
      d.registers = true → PlacementSound p input d := by
  intro hall
  have hfacts : (decideVM sampleProfile (placedInput [⟨"bridge vmbr1", ["b"], false⟩])).toOption.map
      (fun d => (d.registers, d.node, d.admissible, d.hard)) =
      some (true, "a", ["a"], some ["a"]) := by decide
  cases hd : decideVM sampleProfile (placedInput [⟨"bridge vmbr1", ["b"], false⟩]) with
  | error e =>
    rw [hd] at hfacts
    cases hfacts
  | ok d =>
    rw [hd] at hfacts
    simp only [Except.toOption, Option.map_some, Option.some.injEq, Prod.mk.injEq] at hfacts
    obtain ⟨hreg, hnode, hadm, hhard⟩ := hfacts
    have hsound := hall _ _ d hd hreg
    obtain ⟨pin, hpin⟩ := decisionPin_exists (p := sampleProfile) hreg
      (by rw [hnode]; decide) (by rw [hnode]; decide) (by rw [hnode, hadm]; decide)
      (by rw [hnode]; decide) (by rw [hhard, hadm]; decide)
    obtain ⟨hsuits, hown⟩ := hsound.pin _ _ _ _ _ hpin
    have hmeets := (hsuits d.node hown).meets ⟨"bridge vmbr1", ["b"], false⟩ (by simp [placedInput])
    rw [hnode] at hmeets
    exact absurd hmeets (by decide)

end Ha
