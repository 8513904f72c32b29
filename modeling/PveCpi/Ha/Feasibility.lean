/-
# The feasibility of a rule list

`ha/feasibility.go`: PVE's checks on the whole list of HA rules.  `checkFeasibility` collects, for
every rule that a check rejects, its reasons; positive resource-affinity rules that overlap are
first put together by `disjointResourceSets`.

A Go map that only serves as a set is a `Finset`, so that ranging over it has no order; the one map
whose order could be seen, `refs`, is ranged over in an arbitrary order (`MapOrder`).  Each check is
the list of its calls of `add`.

The grouping yields the connected components of the graph of shared resources (`areComponents`), and
the reasons do not depend on the order of the rules.

## Two sources of order

The rules come in a list whose order means nothing, and Go ranges over maps in any order.  The
result is sorted and without repetitions, so what has to be shown is that the SET of reasons is the
same.  The grouping makes this hard: which groups are merged first depends on the order, and the
checks run over the groups.

The way around it is to say what the groups are without the loop.  They are the blocks of
`Lib.Components` (§3), these are the connected components (§4), and components do not depend on the
order (§5).  A reason about a group is then found again as a reason about the same group.
-/
import PveCpi.Lib.Assoc
import PveCpi.Lib.Components
import PveCpi.Ha.Placement
import Mathlib.Combinatorics.SimpleGraph.Connectivity.Connected
import Mathlib.Data.List.FinRange

namespace Ha

open Lib.Assoc (gather mapVals valuesOf lookup_gather lookup_mapVals mem_valuesOf valuesOf_perm)
open Lib.Components

/-! ## 1. Grouping positive rules -/

/-- One rule of a `RuleSet`: a rule with its name. -/
structure ListedRule extends Rule where
  id : String

def ruleTypeNodeAffinity : String := "node-affinity"
def ruleTypeResourceAffinity : String := "resource-affinity"
def affinityPositive : String := "positive"
def affinityNegative : String := "negative"

/-- `Rule.HasResource`. -/
def Rule.hasResource (r : Rule) (sid : String) : Bool := r.resources.contains sid

/-- `Rule.MultiplePriorities`: a later node has another priority than the first. -/
def Rule.multiplePriorities (r : Rule) : Bool :=
  match r.nodes.entries with
  | [] => false
  | first :: rest => rest.any fun e => decide (e.2 ≠ first.2)

def toSet (list : List String) : Finset String := list.toFinset

def countCommon (set : Finset String) (list : List String) : Nat :=
  (list.filter fun v => decide (v ∈ set)).length

def overlaps (a b : Finset String) : Bool := decide (∃ k ∈ a, k ∈ b)

/-- `resourceGroup`. -/
structure ResourceGroup where
  ids : List String
  resources : Finset String

/-- One round of the inner loop of `disjointResourceSets`: the group goes into `merged`, or to
`rest`. -/
def mergeGroup (r : ListedRule) (st : ResourceGroup × List ResourceGroup) (g : ResourceGroup) :
    ResourceGroup × List ResourceGroup :=
  let (merged, rest) := st
  if countCommon g.resources r.resources > 0 || overlaps g.resources merged.resources then
    ({ ids := merged.ids ++ g.ids, resources := merged.resources ∪ g.resources }, rest)
  else (merged, rest ++ [g])

/-- One round of the outer loop. -/
def addRule (groups : List ResourceGroup) (r : ListedRule) : List ResourceGroup :=
  let (merged, rest) :=
    groups.foldl (mergeGroup r) ({ ids := [r.id], resources := toSet r.resources }, [])
  rest ++ [merged]

def disjointResourceSets (rules : List ListedRule) : List ResourceGroup := rules.foldl addRule []

/-! ## 2. The checks -/

/-- The order in which a map is ranged over. -/
structure MapOrder where
  order : List String → List String
  perm : ∀ keys, (order keys).Perm keys

/-- The calls of `add`, rule ID and message. -/
abbrev Reasons := List (String × String)

/-- `refs` of `checkNodeAffinityRules`: for each resource the rules that name it. -/
def resourceRefs (nodeAff : List ListedRule) : AList fun _ : String => List String :=
  gather (nodeAff.flatMap fun r => r.resources.map fun sid => (sid, r.id))

def checkNodeAffinityRules (w : MapOrder) (nodeAff : List ListedRule) (clusterSet : Finset String) :
    Reasons :=
  let refs := resourceRefs nodeAff
  ((w.order refs.keys).flatMap fun sid =>
    let ids := (refs.lookup sid).getD []
    if ids.length < 2 then []
    else ids.map fun id =>
      (id, "resources: at least one resource is already used in another node affinity rule")) ++
  nodeAff.flatMap fun r =>
    if r.affinity ≠ affinityNegative then []
    else
      let left := (clusterSet.filter fun n => n ∉ r.nodes).card
      (if left = 0 then [(r.id, "nodes: negative node affinity rule must not specify all nodes")]
        else []) ++
      (if r.nodes.entries.any fun e => decide (e.2 ≠ 0) then
        [(r.id, "nodes: negative node affinity rule must not specify node priorities")]
      else [])

def checkResourceAffinityRules (resAff negative : List ListedRule) (groups : List ResourceGroup)
    (nodes : Nat) : Reasons :=
  (resAff.flatMap fun r =>
    if r.resources.length < 2 then [(r.id, "resources: rule must specify at least two resources")]
      else []) ++
  (negative.flatMap fun r =>
    if r.resources.length > nodes then
      [(r.id, "resources: rule defines more resources than available nodes")]
    else []) ++
  groups.flatMap fun g => negative.flatMap fun neg =>
    if countCommon g.resources neg.resources < 2 then []
    else
      (neg.id,
        "resources: rule shares two or more resources with a positive resource affinity rule") ::
      g.ids.map fun id =>
        (id, "resources: rule shares two or more resources with a negative resource affinity rule")

def checkMultiplePriorities (resAff nodeAff : List ListedRule) : Reasons :=
  resAff.flatMap fun ra =>
    let paired :=
      nodeAff.filter fun na => decide (countCommon (toSet na.resources) ra.resources ≠ 0)
    let conflict := paired.any fun na => na.multiplePriorities
    if !conflict then []
    else
      (ra.id, "resources: resources are in node affinity rules with multiple priorities") ::
      paired.map fun na =>
        (na.id,
          "resources: resources are in a resource affinity rule and cannot be in a " ++
          "node affinity rule with multiple priorities")

def checkPositiveSetPins (groups : List ResourceGroup) (nodeAff : List ListedRule) : Reasons :=
  groups.flatMap fun g =>
    let paired := nodeAff.filter fun na => decide (countCommon g.resources na.resources > 0)
    if paired.length < 2 then []
    else
      (g.ids.map fun id => (id, "resources: resources are in multiple node affinity rules")) ++
      paired.map fun na =>
        (na.id,
          "resources: at least one resource is in a positive resource affinity rule and " ++
          "there are other resources in at least one other node affinity rule already")

/-- `nodeAffinityAllowed`. -/
def nodeAffinityAllowed (na : Rule) (clusterSet : Finset String) : Finset String :=
  if na.affinity ≠ affinityNegative then na.nodes.keys.toFinset
  else clusterSet.filter fun n => n ∉ na.nodes

def checkNegativeRulePins (negative nodeAff : List ListedRule) (clusterSet : Finset String) :
    Reasons :=
  negative.flatMap fun neg =>
    let located := nodeAff.foldl (fun s na => s ∪ (na.resources.filter neg.hasResource).toFinset) ∅
    let paired := nodeAff.filter fun na => decide ((na.resources.filter neg.hasResource).length ≠ 0)
    let allowed := paired.foldl (fun s na => s ∪ nodeAffinityAllowed na.toRule clusterSet) ∅
    if allowed.card ≥ located.card then []
    else
      (neg.id,
        "resources: two or more resources are restricted to less nodes than available " ++
          "to the resources") ::
      paired.map fun na =>
        (na.id,
          "resources: at least one resource is in a negative resource affinity rule and " ++
          "this rule would restrict these to less nodes than available to the resources")

/-- The rest of `dedupSorted`, after an element. -/
def dedupAfter : String → List String → List String
  | _, [] => []
  | last, v :: vs => if last = v then dedupAfter v vs else v :: dedupAfter v vs

def dedupSorted : List String → List String
  | [] => []
  | v :: vs => v :: dedupAfter v vs

/-- All calls of `add`. -/
def feasibilityReasons (w : MapOrder) (rules : List ListedRule) (clusterNodes : List String) :
    Reasons :=
  let active := rules.filter fun r => !r.disabled
  let nodeAff := active.filter fun r => decide (r.type = ruleTypeNodeAffinity)
  let resAff := active.filter fun r => decide (r.type = ruleTypeResourceAffinity)
  let positive := resAff.filter fun r => decide (r.affinity = affinityPositive)
  let negative := resAff.filter fun r => decide (r.affinity = affinityNegative)
  let clusterSet := toSet clusterNodes
  let groups := disjointResourceSets positive
  checkNodeAffinityRules w nodeAff clusterSet ++
    (checkResourceAffinityRules resAff negative groups clusterNodes.length ++
      (checkMultiplePriorities resAff nodeAff ++
        (checkPositiveSetPins groups nodeAff ++ checkNegativeRulePins negative nodeAff clusterSet)))

/-- `CheckFeasibility`. -/
def checkFeasibility (w : MapOrder) (rules : List ListedRule) (clusterNodes : List String) :
    AList fun _ : String => List String :=
  mapVals (fun msgs => dedupSorted (sorted msgs)) (gather (feasibilityReasons w rules clusterNodes))

/-! ## 3. The groups are the blocks of the rules

The source merges a group with the resources gathered so far, not with the rule alone.  Since the
groups before are disjoint, that adds nothing (`merges_iff`). -/

/-- The resources of a rule as a set. -/
def footprint (r : ListedRule) : Finset String := toSet r.resources

/-- The group of some rules. -/
def groupOf (block : List ListedRule) : ResourceGroup where
  ids := block.map ListedRule.id
  resources := block.foldr (fun r s => footprint r ∪ s) ∅

theorem mem_footprint {r : ListedRule} {sid : String} : sid ∈ footprint r ↔ sid ∈ r.resources :=
  List.mem_toFinset

theorem mem_resources_groupOf {block : List ListedRule} {sid : String} :
    sid ∈ (groupOf block).resources ↔ ∃ r ∈ block, sid ∈ r.resources := by
  have hfold : ∀ block : List ListedRule,
      sid ∈ block.foldr (fun r s => footprint r ∪ s) ∅ ↔ ∃ r ∈ block, sid ∈ r.resources := by
    intro block
    induction block with
    | nil => simp
    | cons r block ih =>
      rw [List.foldr_cons, Finset.mem_union, ih, mem_footprint, List.exists_mem_cons_iff]
  exact hfold block

theorem groupOf_append (b b' : List ListedRule) :
    groupOf (b ++ b') =
      { ids := (groupOf b).ids ++ (groupOf b').ids
        resources := (groupOf b).resources ∪ (groupOf b').resources } := by
  rw [groupOf, ResourceGroup.mk.injEq]
  refine ⟨List.map_append, ?_⟩
  ext sid
  rw [Finset.mem_union, mem_resources_groupOf, mem_resources_groupOf]
  have hboth : sid ∈ (groupOf (b ++ b')).resources ↔ ∃ r ∈ b ++ b', sid ∈ r.resources :=
    mem_resources_groupOf
  refine hboth.trans ?_
  simp only [List.mem_append, or_and_right, exists_or]

theorem countCommon_pos {set : Finset String} {list : List String} :
    0 < countCommon set list ↔ ∃ v ∈ list, v ∈ set := by
  rw [countCommon, List.length_pos_iff_exists_mem]
  simp only [List.mem_filter, decide_eq_true_eq]

theorem overlaps_eq_true {a b : Finset String} : overlaps a b = true ↔ ∃ k ∈ a, k ∈ b :=
  decide_eq_true_iff

theorem touches_eq_true {r : ListedRule} {block : List ListedRule} :
    touches footprint r block = true ↔ ∃ v ∈ r.resources, v ∈ (groupOf block).resources := by
  simp only [touches, List.any_eq_true, decide_eq_true_eq, meets_iff, mem_footprint,
    mem_resources_groupOf]
  constructor
  · rintro ⟨y, hy, s, hr, hs⟩
    exact ⟨s, hr, y, hy, hs⟩
  · rintro ⟨s, hr, y, hy, hs⟩
    exact ⟨y, hy, s, hr, hs⟩

/-- Whether a group is merged: the resources merged so far add nothing to what the rule itself
touches, since the groups share none. -/
theorem merges_iff {r : ListedRule} {done : List (List ListedRule)} {b : List ListedRule}
    (hapart : ∀ d ∈ done, Apart footprint d b) :
    (countCommon (groupOf b).resources r.resources > 0 ||
      overlaps (groupOf b).resources
        (groupOf (r :: (done.filter (touches footprint r)).flatten)).resources) =
          touches footprint r b := by
  rw [Bool.eq_iff_iff, Bool.or_eq_true, decide_eq_true_iff, gt_iff_lt, countCommon_pos,
    overlaps_eq_true, touches_eq_true]
  refine ⟨?_, fun h => .inl h⟩
  rintro (h | ⟨s, hs, hmerged⟩)
  · exact h
  obtain ⟨x, hx, hxs⟩ := mem_resources_groupOf.mp hmerged
  rcases List.mem_cons.mp hx with rfl | hx
  · exact ⟨s, hxs, hs⟩
  obtain ⟨d, hd, hxd⟩ := List.mem_flatten.mp hx
  obtain ⟨y, hy, hys⟩ := mem_resources_groupOf.mp hs
  refine absurd ?_ (hapart d (List.mem_of_mem_filter hd) x hxd y hy)
  exact meets_iff.mpr ⟨s, mem_footprint.mpr hxs, mem_footprint.mpr hys⟩

/-- The inner loop over the blocks. -/
theorem foldl_mergeGroup (r : ListedRule) (bs done : List (List ListedRule))
    (hapart : (done ++ bs).Pairwise (Apart footprint)) :
    (bs.map groupOf).foldl (mergeGroup r)
        (groupOf (r :: (done.filter (touches footprint r)).flatten),
          (done.filter fun b => !touches footprint r b).map groupOf) =
      (groupOf (r :: ((done ++ bs).filter (touches footprint r)).flatten),
        ((done ++ bs).filter fun b => !touches footprint r b).map groupOf) := by
  induction bs generalizing done with
  | nil => rw [List.map_nil, List.foldl_nil, List.append_nil]
  | cons b bs ih =>
    have hsplit : done ++ b :: bs = (done ++ [b]) ++ bs := by
      rw [List.append_assoc]
      rfl
    have hb : ∀ d ∈ done, Apart footprint d b := fun d hd =>
      (List.pairwise_append.mp hapart).2.2 d hd b List.mem_cons_self
    rw [hsplit] at hapart ⊢
    rw [← ih (done ++ [b]) hapart, List.map_cons, List.foldl_cons, mergeGroup, merges_iff hb]
    cases htouch : touches footprint r b with
    | true => simp [htouch, ← groupOf_append]
    | false => simp [htouch]

/-- **`disjointResourceSets` makes the groups of the blocks.** -/
theorem disjointResourceSets_eq (rules : List ListedRule) :
    disjointResourceSets rules = (blocks footprint rules).map groupOf := by
  induction rules using List.reverseRecOn with
  | nil => rfl
  | append_singleton rules r ih =>
    have hstep : disjointResourceSets (rules ++ [r]) = addRule (disjointResourceSets rules) r := by
      rw [disjointResourceSets, List.foldl_append]
      rfl
    have hloop := foldl_mergeGroup r (blocks footprint rules) [] (grouped footprint rules).apart
    have hstart :
        (groupOf (r :: (([] : List (List ListedRule)).filter (touches footprint r)).flatten)) =
        { ids := [r.id], resources := toSet r.resources } := by simp [groupOf, footprint]
    rw [hstart] at hloop
    rw [hstep, blocks_append_singleton, absorb, addRule, ih]
    rw [show ([] : List ResourceGroup) = (([] : List (List ListedRule)).filter fun b =>
      !touches footprint r b).map groupOf from rfl, hloop]
    simp

/-! ## 4. The blocks are the connected components

Two equal rules are two nodes of the graph, so the blocks are taken over the places of the list. -/

/-- The graph that joins two rules sharing a resource.  A rule is its place in the list. -/
def sharing (rules : List ListedRule) : SimpleGraph (Fin rules.length) where
  Adj i j := i ≠ j ∧ ∃ sid, sid ∈ rules[i].resources ∧ sid ∈ rules[j].resources
  symm := ⟨fun _ _ h => ⟨h.1.symm, h.2.imp fun _ hs => ⟨hs.2, hs.1⟩⟩⟩
  loopless := ⟨fun _ h => h.1 rfl⟩

/-- A group is a component: it has the IDs of the component's rules and their resources. -/
def IsGroupOf (rules : List ListedRule) (g : ResourceGroup)
    (c : (sharing rules).ConnectedComponent) : Prop :=
  (∃ members : List (Fin rules.length), members.Nodup ∧
    (∀ i, i ∈ members ↔ (sharing rules).connectedComponentMk i = c) ∧
    g.ids = members.map fun i => rules[i].id) ∧
  ∀ sid, sid ∈ g.resources ↔
    ∃ i, (sharing rules).connectedComponentMk i = c ∧ sid ∈ rules[i].resources

/-- The groups are the components, each once. -/
def AreComponents (rules : List ListedRule) (groups : List ResourceGroup) : Prop :=
  ∃ comps : List (sharing rules).ConnectedComponent, comps.Nodup ∧ (∀ c, c ∈ comps) ∧
    List.Forall₂ (IsGroupOf rules) groups comps

section Components

variable (rules : List ListedRule)

/-- The blocks of the places. -/
def placeBlocks : List (List (Fin rules.length)) :=
  blocks (fun i => footprint rules[i]) (List.finRange rules.length)

theorem blocks_eq_placeBlocks :
    blocks footprint rules = (placeBlocks rules).map (List.map fun i => rules[i]) := by
  rw [placeBlocks, ← blocks_map footprint fun i : Fin rules.length => rules[i]]
  congr 1
  exact (List.map_getElem_finRange rules).symm

/-- Linked places are in one component. -/
theorem linked_iff {i j : Fin rules.length} :
    Linked (fun i => footprint rules[i]) (List.finRange rules.length) i j ↔
      (sharing rules).connectedComponentMk i = (sharing rules).connectedComponentMk j := by
  rw [SimpleGraph.ConnectedComponent.eq, SimpleGraph.reachable_iff_reflTransGen]
  have hmeets : ∀ {a b : Fin rules.length}, Lib.Components.Meets (fun i => footprint rules[i]) a b ↔
      ∃ sid, sid ∈ rules[a].resources ∧ sid ∈ rules[b].resources := by
    intro a b
    simp only [meets_iff, mem_footprint]
  constructor
  · intro h
    induction h with
    | refl => exact Relation.ReflTransGen.refl
    | @tail b c _ hstep ih =>
      by_cases hbc : b = c
      · exact hbc ▸ ih
      · exact ih.tail ⟨hbc, hmeets.mp hstep.2.2⟩
  · intro h
    induction h with
    | refl => exact Relation.ReflTransGen.refl
    | tail _ hadj ih =>
      exact ih.tail ⟨List.mem_finRange _, List.mem_finRange _, hmeets.mpr hadj.2⟩

variable {rules}

theorem mem_placeBlock {b : List (Fin rules.length)} {i j : Fin rules.length}
    (hb : b ∈ placeBlocks rules) (hi : i ∈ b) :
    j ∈ b ↔ (sharing rules).connectedComponentMk j = (sharing rules).connectedComponentMk i := by
  rw [mem_block_iff hb hi, linked_iff, eq_comm]

theorem placeBlocks_nodup : (placeBlocks rules).flatten.Nodup :=
  (flatten_blocks_perm _ _).nodup_iff.mpr (List.nodup_finRange _)

theorem placeBlock_ne_nil {b : List (Fin rules.length)} (hb : b ∈ placeBlocks rules) : b ≠ [] :=
  (grouped _ _).nonempty b hb

/-- Two blocks with a common place are one. -/
theorem placeBlock_unique {b b' : List (Fin rules.length)} {i : Fin rules.length}
    (hb : b ∈ placeBlocks rules)
    (hb' : b' ∈ placeBlocks rules) (hi : i ∈ b) (hi' : i ∈ b') : b = b' := by
  have hsymm : Std.Symm (@List.Disjoint (Fin rules.length)) := ⟨fun _ _ h => h.symm⟩
  by_contra hne
  exact (List.nodup_flatten.mp placeBlocks_nodup).2.forall hb hb' hne hi hi'

/-- **Exactness of the grouping.**  A block is everything that is linked to one of its members
(`Lib.Components.mem_block_iff`), and to be linked is to be in one component. -/
theorem areComponents (rules : List ListedRule) :
    AreComponents rules (disjointResourceSets rules) := by
  have hne : ∀ b : { b // b ∈ placeBlocks rules }, b.1 ≠ [] := fun b => placeBlock_ne_nil b.2
  let comp := fun b : { b // b ∈ placeBlocks rules } =>
    (sharing rules).connectedComponentMk (b.1.head (hne b))
  have hcomp : ∀ (b : { b // b ∈ placeBlocks rules }) (i : Fin rules.length),
      i ∈ b.1 ↔ (sharing rules).connectedComponentMk i = comp b := fun b i =>
    mem_placeBlock b.2 (List.head_mem (hne b))
  refine ⟨(placeBlocks rules).attach.map comp, ?_, ?_, ?_⟩
  · -- Different blocks are different components.
    have hnodup : (placeBlocks rules).Nodup := by
      refine (List.nodup_flatten.mp placeBlocks_nodup).2.imp_of_mem fun hb _ hdisj heq => ?_
      obtain ⟨i, hi⟩ := List.exists_mem_of_ne_nil _ (placeBlock_ne_nil hb)
      exact hdisj hi (heq ▸ hi)
    refine (List.nodup_attach.mpr hnodup).map fun b b' heq => Subtype.ext ?_
    have hhead := List.head_mem (hne b)
    exact placeBlock_unique b.2 b'.2 hhead ((hcomp b' _).mpr (((hcomp b _).mp hhead).trans heq))
  · intro c
    obtain ⟨i, rfl⟩ := c.exists_rep
    obtain ⟨b, hb, hi⟩ := exists_block (fun i => footprint rules[i]) (List.mem_finRange i)
    refine List.mem_map.mpr ⟨⟨b, hb⟩, List.mem_attach _ _, ?_⟩
    exact ((hcomp ⟨b, hb⟩ i).mp hi).symm
  · have hgroups : disjointResourceSets rules =
        (placeBlocks rules).attach.map fun b => groupOf (b.1.map fun i => rules[i]) := by
      rw [disjointResourceSets_eq, blocks_eq_placeBlocks, List.map_map]
      exact List.attach_map_val.symm
    rw [hgroups, List.forall₂_map_left_iff, List.forall₂_map_right_iff]
    refine List.forall₂_same.mpr fun b _ => ⟨⟨b.1, ?_, hcomp b, ?_⟩, fun sid => ?_⟩
    · exact (List.nodup_flatten.mp placeBlocks_nodup).1 b.1 b.2
    · rw [groupOf, List.map_map]
      rfl
    · simp only [mem_resources_groupOf, List.mem_map, ← hcomp b]
      constructor
      · rintro ⟨r, ⟨i, hi, rfl⟩, hs⟩
        exact ⟨i, hi, hs⟩
      · rintro ⟨i, hi, hs⟩
        exact ⟨_, ⟨i, hi, rfl⟩, hs⟩

end Components

/-! ## 5. The order of the rules

One lemma for each check: an entry of its list for one order is an entry for the other. -/

section Order

variable {nodeAff nodeAff' resAff resAff' positive positive' negative negative' : List ListedRule}
variable {e : String × String}

/-- A group of the same rules in another order: through each of its rules, a group with its
resources. -/
theorem exists_group_of_perm (h : positive.Perm positive') {g : ResourceGroup}
    (hg : g ∈ disjointResourceSets positive) :
    g.ids ≠ [] ∧ ∀ id ∈ g.ids, ∃ g' ∈ disjointResourceSets positive', id ∈ g'.ids ∧
      g'.resources = g.resources := by
  rw [disjointResourceSets_eq] at hg ⊢
  obtain ⟨b, hb, rfl⟩ := List.mem_map.mp hg
  refine ⟨fun hnil => (grouped _ _).nonempty b hb (List.map_eq_nil_iff.mp hnil), fun id hid => ?_⟩
  obtain ⟨r, hr, rfl⟩ := List.mem_map.mp hid
  obtain ⟨b', hb', hr', hsame⟩ := blocks_congr (fun y => h.mem_iff) hb hr
  refine ⟨groupOf b', List.mem_map_of_mem hb', List.mem_map_of_mem hr', ?_⟩
  ext sid
  simp only [mem_resources_groupOf, hsame]

/-- What a check says about a group, it says about the group in another order: either because of the
resources alone, or because of them and one of the IDs. -/
theorem mem_flatMap_groups (h : positive.Perm positive') {f f' : ResourceGroup → Reasons}
    (hf : ∀ g, e ∈ f g → (∀ g', g'.resources = g.resources → e ∈ f' g') ∨
      ∃ id ∈ g.ids, ∀ g', g'.resources = g.resources → id ∈ g'.ids → e ∈ f' g')
    (he : e ∈ (disjointResourceSets positive).flatMap f) :
    e ∈ (disjointResourceSets positive').flatMap f' := by
  obtain ⟨g, hg, he⟩ := List.mem_flatMap.mp he
  obtain ⟨hne, hids⟩ := exists_group_of_perm h hg
  rcases hf g he with hall | ⟨id, hid, hone⟩
  · obtain ⟨id, hid⟩ := List.exists_mem_of_ne_nil _ hne
    obtain ⟨g', hg', -, hres⟩ := hids id hid
    exact List.mem_flatMap.mpr ⟨g', hg', hall g' hres⟩
  · obtain ⟨g', hg', hid', hres⟩ := hids id hid
    exact List.mem_flatMap.mpr ⟨g', hg', hone g' hres hid'⟩

theorem mem_flatMap_of_perm {l l' : List ListedRule} (h : l.Perm l') {f f' : ListedRule → Reasons}
    (hf : ∀ r ∈ l, e ∈ f r → e ∈ f' r) (he : e ∈ l.flatMap f) : e ∈ l'.flatMap f' := by
  obtain ⟨r, hr, he⟩ := List.mem_flatMap.mp he
  exact List.mem_flatMap.mpr ⟨r, h.mem_iff.mp hr, hf r hr he⟩

theorem lookup_resourceRefs (nodeAff : List ListedRule) (sid : String) :
    ((resourceRefs nodeAff).lookup sid).getD [] =
      valuesOf sid (nodeAff.flatMap fun r => r.resources.map fun sid => (sid, r.id)) := by
  rw [resourceRefs, lookup_gather]
  split
  · rename_i hnil
    rw [hnil]
    rfl
  · rfl

theorem resourceRefs_perm (h : nodeAff.Perm nodeAff') (sid : String) :
    (((resourceRefs nodeAff).lookup sid).getD []).Perm
    (((resourceRefs nodeAff').lookup sid).getD []) := by
  rw [lookup_resourceRefs, lookup_resourceRefs]
  exact valuesOf_perm (h.flatMap_right _) sid

/-- Each finding about pins is one about a single rule or about all the references to one resource,
and neither depends on the order of the rules. -/
theorem checkNodeAffinityRules_perm {w w' : MapOrder} {clusterSet : Finset String}
    (h : nodeAff.Perm nodeAff') (he : e ∈ checkNodeAffinityRules w nodeAff clusterSet) :
    e ∈ checkNodeAffinityRules w' nodeAff' clusterSet := by
  unfold checkNodeAffinityRules at he ⊢
  refine List.mem_append.mpr
    ((List.mem_append.mp he).imp (fun he => ?_) (mem_flatMap_of_perm h fun r _ => id))
  obtain ⟨sid, -, he⟩ := List.mem_flatMap.mp he
  have hperm := resourceRefs_perm h sid
  simp only at he
  split at he
  · cases he
  rename_i hlen
  -- A resource that two rules name has its entry.
  have hkey : sid ∈ (resourceRefs nodeAff').keys := by
    rw [← AList.mem_keys, ← AList.lookup_isSome]
    by_contra hnone
    rw [Option.not_isSome_iff_eq_none] at hnone
    rw [hnone] at hperm
    have := hperm.length_eq
    simp only [Option.getD_none, List.length_nil] at this
    omega
  refine List.mem_flatMap.mpr ⟨sid, (w'.perm _).mem_iff.mpr hkey, ?_⟩
  rw [if_neg (by rw [← hperm.length_eq]; exact hlen)]
  exact (hperm.map _).mem_iff.mp he

/-- The findings are about single rules and about groups, and the groups of a permuted list are the
same up to their order (`mem_flatMap_groups`). -/
theorem checkResourceAffinityRules_perm {nodes : Nat} (hres : resAff.Perm resAff')
    (hneg : negative.Perm negative') (hpos : positive.Perm positive')
    (he : e ∈ checkResourceAffinityRules resAff negative (disjointResourceSets positive) nodes) :
    e ∈ checkResourceAffinityRules resAff' negative' (disjointResourceSets positive') nodes := by
  unfold checkResourceAffinityRules at he ⊢
  rw [List.mem_append, List.mem_append] at he ⊢
  refine he.imp
    (Or.imp (mem_flatMap_of_perm hres fun r _ => id) (mem_flatMap_of_perm hneg fun r _ => id))
    (mem_flatMap_groups hpos fun g he => ?_)
  obtain ⟨neg, hmem, he⟩ := List.mem_flatMap.mp he
  split at he
  · cases he
  rename_i hcommon
  rcases List.mem_cons.mp he with he | he
  · refine .inl fun g' hres => List.mem_flatMap.mpr ⟨neg, hneg.mem_iff.mp hmem, ?_⟩
    rw [hres, if_neg hcommon]
    exact List.mem_cons.mpr (.inl he)
  · obtain ⟨id, hid, rfl⟩ := List.mem_map.mp he
    refine .inr ⟨id, hid, fun g' hres hid' => List.mem_flatMap.mpr ⟨neg, hneg.mem_iff.mp hmem, ?_⟩⟩
    rw [hres, if_neg hcommon]
    exact List.mem_cons_of_mem _ (List.mem_map.mpr ⟨id, hid', rfl⟩)

theorem checkMultiplePriorities_perm (hres : resAff.Perm resAff') (hnode : nodeAff.Perm nodeAff')
    (he : e ∈ checkMultiplePriorities resAff nodeAff) :
    e ∈ checkMultiplePriorities resAff' nodeAff' := by
  refine mem_flatMap_of_perm hres (fun ra _ he => ?_) he
  have hpaired := hnode.filter fun na => decide (countCommon (toSet na.resources) ra.resources ≠ 0)
  simp only at he ⊢
  rw [← hpaired.any_eq]
  split at he
  · cases he
  rename_i hconflict
  rw [if_neg hconflict]
  exact ((hpaired.map _).cons _).mem_iff.mp he

/-- A group is compared with the pins of its members; both sides are taken as sets, so their order
does not matter. -/
theorem checkPositiveSetPins_perm (hpos : positive.Perm positive') (hnode : nodeAff.Perm nodeAff')
    (he : e ∈ checkPositiveSetPins (disjointResourceSets positive) nodeAff) :
    e ∈ checkPositiveSetPins (disjointResourceSets positive') nodeAff' := by
  refine mem_flatMap_groups hpos (fun g he => ?_) he
  have hpaired := hnode.filter fun na => decide (countCommon g.resources na.resources > 0)
  simp only at he
  split at he
  · cases he
  rename_i hlen
  rw [hpaired.length_eq] at hlen
  rcases List.mem_append.mp he with he | he
  · obtain ⟨id, hid, rfl⟩ := List.mem_map.mp he
    refine .inr ⟨id, hid, fun g' hres hid' => ?_⟩
    simp only [hres]
    rw [if_neg hlen]
    exact List.mem_append_left _ (List.mem_map.mpr ⟨id, hid', rfl⟩)
  · refine .inl fun g' hres => ?_
    simp only [hres]
    rw [if_neg hlen]
    exact List.mem_append_right _ ((hpaired.map _).mem_iff.mp he)

theorem checkNegativeRulePins_perm {clusterSet : Finset String} (hneg : negative.Perm negative')
    (hnode : nodeAff.Perm nodeAff') (he : e ∈ checkNegativeRulePins negative nodeAff clusterSet) :
    e ∈ checkNegativeRulePins negative' nodeAff' clusterSet := by
  refine mem_flatMap_of_perm hneg (fun neg _ he => ?_) he
  have hpaired := hnode.filter fun na => decide ((na.resources.filter neg.hasResource).length ≠ 0)
  simp only at he ⊢
  rw [← hnode.foldl_eq' (fun x _ y _ z => Finset.union_right_comm _ _ _) ∅,
    ← hpaired.foldl_eq' (fun x _ y _ z => Finset.union_right_comm _ _ _) ∅]
  split at he
  · cases he
  rename_i hcard
  rw [if_neg hcard]
  exact ((hpaired.map _).cons _).mem_iff.mp he

/-- **The reasons of a permuted rule list.** -/
theorem feasibilityReasons_perm {w w' : MapOrder} {rules rules' : List ListedRule}
    {clusterNodes : List String}
    (h : rules.Perm rules') (he : e ∈ feasibilityReasons w rules clusterNodes) :
    e ∈ feasibilityReasons w' rules' clusterNodes := by
  have hactive := h.filter fun r => !r.disabled
  have hnode := hactive.filter fun r => decide (r.type = ruleTypeNodeAffinity)
  have hres := hactive.filter fun r => decide (r.type = ruleTypeResourceAffinity)
  have hpos := hres.filter fun r => decide (r.affinity = affinityPositive)
  have hneg := hres.filter fun r => decide (r.affinity = affinityNegative)
  simp only [feasibilityReasons, List.mem_append] at he ⊢
  exact he.imp (checkNodeAffinityRules_perm hnode)
    (Or.imp (checkResourceAffinityRules_perm hres hneg hpos)
      (Or.imp (checkMultiplePriorities_perm hres hnode)
        (Or.imp (checkPositiveSetPins_perm hpos hnode) (checkNegativeRulePins_perm hneg hnode))))

end Order

/-! ## 6. The sorted messages -/

theorem pairwise_sorted (l : List String) : (sorted l).Pairwise fun a b => a.toList ≤ b.toList := by
  have htotal : Std.Total fun a b : String => a.toList ≤ b.toList :=
    ⟨fun a b => le_total a.toList b.toList⟩
  have htrans : IsTrans String fun a b => a.toList ≤ b.toList := ⟨fun _ _ _ => le_trans⟩
  exact List.pairwise_insertionSort _ l

theorem sorted_perm {l l' : List String} (h : l.Perm l') : sorted l = sorted l' := by
  have hperm : (sorted l).Perm (sorted l') :=
    (List.perm_insertionSort _ l).trans (h.trans (List.perm_insertionSort _ l').symm)
  exact hperm.eq_of_pairwise (fun a b _ _ hab hba => String.ext (le_antisymm hab hba))
    (pairwise_sorted l) (pairwise_sorted l')

/-- A list of names that `trimmed` made is left as it is. -/
theorem trimmed_trimmed (l : List String) : trimmed (trimmed l) = trimmed l := by
  have hclean : ∀ s ∈ trimmed l, s ≠ "" ∧ Lib.Text.trimSpace s = s := by
    intro s hs
    obtain ⟨hne, m, -, rfl⟩ := mem_trimmed.mp hs
    exact ⟨hne, trimSpace_trimSpace m⟩
  have hmap : (trimmed l).map Lib.Text.trimSpace = trimmed l := by
    conv_rhs => rw [← List.map_id (trimmed l)]
    exact List.map_congr_left fun s hs => (hclean s hs).2
  have hfilter : (trimmed l).filter (fun n => decide (n ≠ "")) = trimmed l :=
    List.filter_eq_self.mpr fun s hs => decide_eq_true (hclean s hs).1
  rw [trimmed, hmap, hfilter, (nodup_trimmed l).dedup]
  exact sorted_perm (List.perm_insertionSort _ _)

theorem mem_dedupAfter {last v : String} {l : List String} (h : v ≠ last) :
    v ∈ dedupAfter last l ↔ v ∈ l := by
  induction l generalizing last with
  | nil => rfl
  | cons a l ih =>
    rw [dedupAfter, List.mem_cons]
    by_cases ha : last = a
    · subst ha
      rw [if_pos rfl, ih h, or_iff_right h]
    · rw [if_neg ha, List.mem_cons]
      by_cases hv : v = a
      · exact iff_of_true (.inl hv) (.inl hv)
      · rw [ih hv]

theorem mem_dedupSorted {v : String} {l : List String} : v ∈ dedupSorted l ↔ v ∈ l := by
  cases l with
  | nil => rfl
  | cons a l =>
    rw [dedupSorted, List.mem_cons, List.mem_cons]
    by_cases hv : v = a
    · exact iff_of_true (.inl hv) (.inl hv)
    · rw [mem_dedupAfter hv]

/-- In a sorted list equal entries are neighbours, so dropping repeated neighbours leaves no
repetition. -/
theorem dedupAfter_pairwise {last : String} {l : List String}
    (h : (last :: l).Pairwise fun a b => a.toList ≤ b.toList) :
    (last :: dedupAfter last l).Pairwise fun a b => a.toList < b.toList := by
  induction l generalizing last with
  | nil => exact List.pairwise_singleton _ _
  | cons a l ih =>
    rw [List.pairwise_cons] at h
    rw [dedupAfter]
    by_cases ha : last = a
    · rw [if_pos ha, ha]
      exact ih h.2
    · rw [if_neg ha]
      have htail := ih h.2
      have hlt : last.toList < a.toList :=
        lt_of_le_of_ne (h.1 a List.mem_cons_self) fun heq => ha (String.ext heq)
      refine List.pairwise_cons.mpr ⟨fun v hv => ?_, htail⟩
      rcases List.mem_cons.mp hv with rfl | hv
      · exact hlt
      · exact hlt.trans ((List.pairwise_cons.mp htail).1 v hv)

theorem dedupSorted_pairwise {l : List String} (h : l.Pairwise fun a b => a.toList ≤ b.toList) :
    (dedupSorted l).Pairwise fun a b => a.toList < b.toList := by
  cases l with
  | nil => exact List.Pairwise.nil
  | cons a l => exact dedupAfter_pairwise h

/-- The messages of a rule are determined by which ones there are. -/
theorem dedupSorted_sorted_congr {l l' : List String} (h : ∀ v, v ∈ l ↔ v ∈ l') :
    dedupSorted (sorted l) = dedupSorted (sorted l') := by
  have hs := dedupSorted_pairwise (pairwise_sorted l)
  have hs' := dedupSorted_pairwise (pairwise_sorted l')
  have hne : ∀ {a b : String}, a.toList < b.toList → a ≠ b :=
    fun hlt heq => absurd (heq ▸ hlt) (lt_irrefl _)
  have hperm : (dedupSorted (sorted l)).Perm (dedupSorted (sorted l')) := by
    refine (List.perm_ext_iff_of_nodup (hs.imp hne) (hs'.imp hne)).mpr fun v => ?_
    rw [mem_dedupSorted, mem_dedupSorted, mem_sorted, mem_sorted, h]
  exact hperm.eq_of_pairwise (fun a b _ _ hab hba => absurd hab (lt_asymm hba)) hs hs'

/-- **The result does not depend on the order of the rules.** -/
theorem checkFeasibility_perm {w w' : MapOrder} {rules rules' : List ListedRule}
    (h : rules.Perm rules') (clusterNodes : List String) (id : String) :
    (checkFeasibility w rules clusterNodes).lookup id =
      (checkFeasibility w' rules' clusterNodes).lookup id := by
  have hsame : ∀ v, v ∈ valuesOf id (feasibilityReasons w rules clusterNodes) ↔
      v ∈ valuesOf id (feasibilityReasons w' rules' clusterNodes) := by
    intro v
    rw [mem_valuesOf, mem_valuesOf]
    exact ⟨feasibilityReasons_perm h, feasibilityReasons_perm h.symm⟩
  have hnil : valuesOf id (feasibilityReasons w rules clusterNodes) = [] ↔
      valuesOf id (feasibilityReasons w' rules' clusterNodes) = [] := by
    simp only [List.eq_nil_iff_forall_not_mem, hsame]
  rw [checkFeasibility, checkFeasibility, lookup_mapVals, lookup_mapVals, lookup_gather,
    lookup_gather]
  simp only [hnil]
  split
  · rfl
  · rw [Option.map_some, Option.map_some, dedupSorted_sorted_congr hsame]

/-! ## 7. Grouping and checking -/

/-- **Rule grouping is exact and order free.**  The groups of a rule list are the connected
components of the graph of shared resources, and the feasibility check of a rule list is that of
every permutation of it, in whatever order the maps are ranged over.  The first part is the grouping
as components; for the second, every reason of one order is a reason of the other, and the sorted
lists without repetitions are equal. -/
theorem grouping_exact_and_order_free (rules rules' : List ListedRule) (clusterNodes : List String)
    (w w' : MapOrder) :
    AreComponents rules (disjointResourceSets rules) ∧
      (rules.Perm rules' → ∀ id,
        (checkFeasibility w rules clusterNodes).lookup id =
          (checkFeasibility w' rules' clusterNodes).lookup id) :=
  ⟨areComponents rules, fun h => checkFeasibility_perm h clusterNodes⟩

/-- A positive resource-affinity rule. -/
def keepTogether (id : String) (resources : List String) : ListedRule :=
  { id := id, type := ruleTypeResourceAffinity, strict := false, nodes := ∅,
    resources := resources }

def inOrder : MapOrder := ⟨id, fun _ => List.Perm.refl _⟩

def inReverse : MapOrder := ⟨List.reverse, fun _ => List.reverse_perm _⟩

/-- Two rules that a later one joins, and the same rules with the later one first. -/
theorem grouping_exact_and_order_free_sample :
    ∀ id, (checkFeasibility inOrder
        [keepTogether "a" ["vm:1", "vm:2"], keepTogether "b" ["vm:3"],
          keepTogether "c" ["vm:2", "vm:3"]]
        ["n1"]).lookup id =
      (checkFeasibility inReverse
        [keepTogether "c" ["vm:2", "vm:3"], keepTogether "a" ["vm:1", "vm:2"],
          keepTogether "b" ["vm:3"]]
        ["n1"]).lookup id :=
  (grouping_exact_and_order_free _ _ ["n1"] inOrder inReverse).2
    (List.perm_append_comm : ([_, _] ++ [_]).Perm _)

example : (disjointResourceSets [keepTogether "a" ["vm:1", "vm:2"], keepTogether "b" ["vm:3"],
    keepTogether "c" ["vm:2", "vm:3"]]).map ResourceGroup.ids = [["c", "a", "b"]] := by decide

end Ha
