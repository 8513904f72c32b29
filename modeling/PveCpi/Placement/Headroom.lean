/-
# The N+1 memory estimate

`placement/headroom.go`: before an HA VM is placed, the loss of each online node is played out.  The
HA guests of the lost node go, the largest first, each to the survivor of its admissible set with
the most free memory; a guest that fits on none of them is a shortfall.

An `int64` is an integer with every sum taken through `wrap64`.  The maps `used` and `free` are
functions, since nothing ranges over them.  The texts of an unavailable estimate are constructors.

`estimateHeadroom` is sound: when it is not short, every loss has an assignment of the lost guests
that no receiving node's memory contradicts (`assignment_of_not_short`).  Its result does not depend
on the order of the facts or of the guests, up to which guest without a memory figure it names.

A greedy placement that succeeds is an assignment, so soundness has the loop as its witness: the
plan is what the loop did.  The converse is not claimed, and the source says as much; a shortfall of
the greedy order need not be one of every order.

The order of the guests could reach the result through the sort: it is stable, by memory and VMID,
and the VM that is to be placed may have the VMID of another guest.  The VM always comes last in the
list, so stability decides such a tie in one way, and the stable sort is the sort by a key that
separates all of them (`sortLost_eq`).
-/
import PveCpi.Lib.Sorting
import PveCpi.Ha.Feasibility
import Mathlib

namespace Placement

open Ha (sorted)

/-! ## 1. The estimate -/

/-- A sum of `int64` figures. -/
def wrap64 (n : Int) : Int := n.bmod (2 ^ 64)

/-- `NodeFacts`, as far as the estimate reads it. -/
structure NodeFacts where
  node : String
  online : Bool
  inMaintenance : Bool := false
  totalMemBytes : Int
  deriving DecidableEq, Repr

structure HeadroomGuest where
  vmid : Int
  node : String
  memBytes : Int
  ha : Bool
  admissible : List String
  deriving DecidableEq, Repr

structure HeadroomVM where
  vmid : Int
  memBytes : Int
  admissible : List String := []
  admissibleFor : Option (String → List String) := none

structure HeadroomCheck where
  vm : HeadroomVM
  guests : List HeadroomGuest
  guestsUnknown : Bool := false

structure HeadroomShortfall where
  failedNode : String
  vmid : Int
  memBytes : Int
  largestFreeBytes : Int
  largestFreeNode : String
  deriving DecidableEq, Repr

/-- Why the estimate could not run. -/
inductive Unavailable where
  /-- "the cluster's guests could not be read" -/
  | guestsUnread
  /-- "VM %d has no configured memory" -/
  | vmMemory (vmid : Int)
  /-- "planned node %q is not an online node of the cluster" -/
  | plannedOffline (node : String)
  /-- "guest %d on %s has no configured memory" -/
  | guestMemory (vmid : Int) (node : String)
  deriving DecidableEq, Repr

structure HeadroomResult where
  shortfalls : List HeadroomShortfall := []
  unavailable : Option Unavailable := none
  deriving DecidableEq, Repr

/-- `HeadroomResult.Short`. -/
def HeadroomResult.short (r : HeadroomResult) : Bool :=
  r.unavailable.isSome || !r.shortfalls.isEmpty

def nodeOnline (facts : List NodeFacts) (node : String) : Bool :=
  facts.any fun f => decide (f.node = node) && f.online

/-- The guests that are not the VM itself. -/
def otherGuests (check : HeadroomCheck) : List HeadroomGuest :=
  check.guests.filter fun g => !(decide (check.vm.vmid > 0) && decide (g.vmid = check.vm.vmid))

/-- The VM as a guest of its planned node. -/
def vmGuest (check : HeadroomCheck) (plannedNode : String) : HeadroomGuest where
  vmid := check.vm.vmid
  node := plannedNode
  memBytes := check.vm.memBytes
  ha := true
  admissible := match check.vm.admissibleFor with
    | some f => f plannedNode
    | none => check.vm.admissible

def estimateGuests (check : HeadroomCheck) (plannedNode : String) : List HeadroomGuest :=
  otherGuests check ++ [vmGuest check plannedNode]

/-- One name of `bestSurvivor`'s loop: the largest figure so far and its node. -/
def considerSurvivor (free : String → Option Int) (best : Int × String) (n : String) :
    Int × String :=
  match free n with
  | none => best
  | some f =>
    let f := if f < 0 then 0 else f
    if best.2 = "" ∨ f > best.1 then (f, n) else best

/-- `bestSurvivor`: the node that holds `need`, or "", and the largest figure with its node.  Going
over the sorted set without its repetitions is `dedupSorted`. -/
def bestSurvivor (free : String → Option Int) (admissible : List String) (need : Int) :
    String × Int × String :=
  let (largest, largestNode) :=
    (Ha.dedupSorted (sorted admissible)).foldl (considerSurvivor free) (0, "")
  let node := if largestNode ≠ "" ∧ largest ≥ need then largestNode else ""
  (node, largest, largestNode)

/-- `used` of `estimateFailure`. -/
def usedMemory (guests : List HeadroomGuest) : String → Int :=
  guests.foldl (fun used g => Function.update used g.node (wrap64 (used g.node + g.memBytes)))
    fun _ => 0

/-- `free` of `estimateFailure`. -/
def freeMemory (facts : List NodeFacts) (used : String → Int) (failed : String) :
    String → Option Int :=
  facts.foldl
    (fun free f =>
      if f.node = failed || !f.online || f.inMaintenance then free
      else Function.update free f.node (some (wrap64 (f.totalMemBytes - used f.node))))
    fun _ => none

/-- The comparison of the sort: the larger first, then the lower VMID. -/
def lostLess (a b : HeadroomGuest) : Bool :=
  if a.memBytes ≠ b.memBytes then decide (a.memBytes > b.memBytes) else decide (a.vmid < b.vmid)

/-- `sort.SliceStable` on the lost guests. -/
def sortLost (lost : List HeadroomGuest) : List HeadroomGuest :=
  lost.insertionSort fun a b => lostLess b a = false

/-- The placing loop of `estimateFailure`; `none` when every guest was placed. -/
def placeLost (failed : String) : (String → Option Int) → List HeadroomGuest →
    Option HeadroomShortfall
  | _, [] => none
  | free, g :: rest =>
    let (node, largest, largestNode) := bestSurvivor free g.admissible g.memBytes
    if node = "" then
      some { failedNode := failed, vmid := g.vmid, memBytes := g.memBytes,
             largestFreeBytes := largest
             largestFreeNode := largestNode }
    else
      placeLost failed (Function.update free node (some (wrap64 ((free node).getD 0 - g.memBytes))))
        rest

/-- The HA guests of a node. -/
def lostGuests (guests : List HeadroomGuest) (failed : String) : List HeadroomGuest :=
  guests.filter fun g => decide (g.node = failed) && g.ha

def estimateFailure (facts : List NodeFacts) (guests : List HeadroomGuest) (failed : String) :
    Option HeadroomShortfall :=
  placeLost failed (freeMemory facts (usedMemory guests) failed)
    (sortLost (lostGuests guests failed))

/-- A guest on an online node without a memory figure. -/
def lacksMemory (facts : List NodeFacts) (g : HeadroomGuest) : Bool :=
  decide (g.memBytes ≤ 0) && nodeOnline facts g.node

/-- The nodes that are taken to fail. -/
def failingNodes (facts : List NodeFacts) : List String :=
  sorted ((facts.filter fun f => f.online).map NodeFacts.node)

def estimateHeadroom (facts : List NodeFacts) (check : HeadroomCheck) (plannedNode : String) :
    HeadroomResult :=
  if check.guestsUnknown then { unavailable := some .guestsUnread }
  else if check.vm.memBytes ≤ 0 then { unavailable := some (.vmMemory check.vm.vmid) }
  else if !nodeOnline facts plannedNode then { unavailable := some (.plannedOffline plannedNode) }
  else
    let guests := estimateGuests check plannedNode
    match guests.find? (lacksMemory facts) with
    | some g => { unavailable := some (.guestMemory g.vmid g.node) }
    | none => { shortfalls := (failingNodes facts).filterMap (estimateFailure facts guests) }

/-! ## 2. Sums

`int64` sums wrap, and they are sums modulo `2 ^ 64` whatever the order. -/

/-- The memory of the guests on a node. -/
def memoryOn (guests : List HeadroomGuest) (node : String) : Int :=
  ((guests.filter fun g => decide (g.node = node)).map HeadroomGuest.memBytes).sum

theorem wrap64_add_wrap64 (a b : Int) : wrap64 (wrap64 a + b) = wrap64 (a + b) := Int.bmod_add_bmod

theorem wrap64_of_fits {n : Int} (hlow : -2 ^ 63 ≤ n) (hhigh : n < 2 ^ 63) : wrap64 n = n :=
  Int.bmod_eq_of_le (by omega) (by omega)

theorem memoryOn_append (l l' : List HeadroomGuest) (node : String) :
    memoryOn (l ++ l') node = memoryOn l node + memoryOn l' node := by
  simp [memoryOn]

theorem memoryOn_perm {l l' : List HeadroomGuest} (h : l.Perm l') (node : String) :
    memoryOn l node = memoryOn l' node :=
  ((h.filter _).map _).sum_eq

/-- **`used` has the sums of the guests' memory.** -/
theorem usedMemory_eq (guests : List HeadroomGuest) (node : String) :
    usedMemory guests node = wrap64 (memoryOn guests node) := by
  induction guests using List.reverseRecOn with
  | nil => rfl
  | append_singleton guests g ih =>
    rw [usedMemory, List.foldl_append, List.foldl_cons, List.foldl_nil, ← usedMemory,
      memoryOn_append]
    by_cases hg : node = g.node
    · subst hg
      rw [Function.update_self, ih, wrap64_add_wrap64]
      simp [memoryOn]
    · rw [Function.update_of_ne hg, ih]
      simp [memoryOn, Ne.symm hg]

/-! ## 3. The survivors -/

/-- A node that may take guests after the loss of another. -/
def Survivor (failed : String) (f : NodeFacts) : Prop :=
  f.node ≠ failed ∧ f.online = true ∧ f.inMaintenance = false

theorem freeMemory_skip_iff {failed : String} {f : NodeFacts} :
    (decide (f.node = failed) || !f.online || f.inMaintenance) = true ↔ ¬Survivor failed f := by
  rw [Survivor]
  cases f.online <;> cases f.inMaintenance <;> simp

/-- **`free` has the survivors with what is left on them.** -/
theorem freeMemory_eq_some {facts : List NodeFacts} {used : String → Int} {failed n : String}
    {v : Int} (hnames : (facts.map NodeFacts.node).Nodup) :
    freeMemory facts used failed n = some v ↔
      ∃ f ∈ facts, f.node = n ∧ Survivor failed f ∧ v = wrap64 (f.totalMemBytes - used n) := by
  induction facts using List.reverseRecOn with
  | nil => simp [freeMemory]
  | append_singleton facts f ih =>
    rw [List.map_append, List.map_singleton, List.nodup_append] at hnames
    have hne : ∀ f' ∈ facts, f'.node ≠ f.node := fun f' hf' =>
      hnames.2.2 _ (List.mem_map_of_mem hf') _ List.mem_cons_self
    rw [freeMemory, List.foldl_append, List.foldl_cons, List.foldl_nil, ← freeMemory]
    simp only [List.mem_append, List.mem_singleton, or_and_right, exists_or, exists_eq_left,
      ← ih hnames.1]
    by_cases hs : Survivor failed f
    · rw [if_neg (fun hskip => freeMemory_skip_iff.mp hskip hs)]
      by_cases hn : n = f.node
      · subst hn
        have hnone : ¬freeMemory facts used failed f.node = some v := by
          rw [ih hnames.1]
          rintro ⟨f', hf', heq, -⟩
          exact hne f' hf' heq
        rw [Function.update_self, or_iff_right hnone]
        simp [hs, eq_comm]
      · rw [Function.update_of_ne hn]
        simp [Ne.symm hn]
    · rw [if_pos (freeMemory_skip_iff.mpr hs)]
      simp [hs]

/-! ## 4. The best survivor

The loop over the admissible nodes keeps the best so far, with ties by name. -/

/-- What the loop of `bestSurvivor` has found: nothing yet, or a survivor of the set. -/
def FoundIn (free : String → Option Int) (names : List String) (best : Int × String) : Prop :=
  best.2 ≠ "" → best.2 ∈ names ∧ ∃ f, free best.2 = some f ∧ best.1 = max f 0

/-- The best survivor so far is one of the survivors, through the whole loop. -/
theorem foundIn_foldl {free : String → Option Int} {all names : List String} {best : Int × String}
    (hsub : ∀ n ∈ names, n ∈ all) (h : FoundIn free all best) :
    FoundIn free all (names.foldl (considerSurvivor free) best) := by
  induction names generalizing best with
  | nil => exact h
  | cons n names ih =>
    refine ih (fun m hm => hsub m (List.mem_cons_of_mem _ hm)) ?_
    unfold considerSurvivor
    split
    · exact h
    · rename_i f hf
      have hclamp : (if f < 0 then 0 else f) = max f 0 := by split <;> omega
      rw [hclamp]
      dsimp only
      split
      · exact fun _ => ⟨hsub n List.mem_cons_self, f, hf, rfl⟩
      · exact h

/-- **The survivor that is picked holds the guest.** -/
theorem bestSurvivor_spec {free : String → Option Int} {admissible : List String} {need : Int}
    (hneed : 0 < need) (hnode : (bestSurvivor free admissible need).1 ≠ "") :
    (bestSurvivor free admissible need).1 ∈ admissible ∧
      ∃ f, free (bestSurvivor free admissible need).1 = some f ∧ need ≤ f := by
  have hfound : FoundIn free (Ha.dedupSorted (sorted admissible))
      ((Ha.dedupSorted (sorted admissible)).foldl (considerSurvivor free) (0, "")) :=
    foundIn_foldl (fun _ => id) fun h => absurd rfl h
  unfold bestSurvivor at hnode ⊢
  dsimp only at hnode ⊢
  split at hnode
  · rename_i hbest
    rw [if_pos hbest]
    obtain ⟨hmem, f, hf, hmax⟩ := hfound hbest.1
    refine ⟨Ha.mem_sorted.mp (Ha.mem_dedupSorted.mp hmem), f, hf, ?_⟩
    have := hbest.2
    omega
  · exact absurd rfl hnode

/-! ## 5. Placing the lost guests

The invariant relates what is free now to what was free at the start and to what was received. -/

/-- What an assignment gives a node. -/
def received (plan : List (HeadroomGuest × String)) (node : String) : Int :=
  ((plan.filter fun p => decide (p.2 = node)).map fun p => p.1.memBytes).sum

theorem received_cons (p : HeadroomGuest × String) (plan : List (HeadroomGuest × String))
    (node : String) :
    received (p :: plan) node = (if p.2 = node then p.1.memBytes else 0) + received plan node := by
  by_cases h : p.2 = node <;> simp [received, h]

/-- The nodes of an assignment are free ones of the guests' sets, and what a node receives fits on
it. -/
structure FitsIn (free : String → Option Int) (plan : List (HeadroomGuest × String)) : Prop where
  admissible : ∀ p ∈ plan, p.2 ∈ p.1.admissible
  survives : ∀ p ∈ plan, ∃ v, free p.2 = some v
  room : ∀ p ∈ plan, ∀ v, free p.2 = some v → received plan p.2 ≤ v

/-- **A loop that places every guest has an assignment.**  By induction over the guests: a guest
goes to a survivor that holds it, and what is free there goes down by what it needs. -/
theorem plan_of_placeLost {failed : String} {lost : List HeadroomGuest} :
    ∀ {free : String → Option Int},
    (∀ n v, free n = some v → v < 2 ^ 63) → (∀ g ∈ lost, 0 < g.memBytes) →
    placeLost failed free lost = none → ∃ plan, plan.map Prod.fst = lost ∧ FitsIn free plan := by
  induction lost with
  | nil => exact fun _ _ _ => ⟨[], rfl, nofun, nofun, nofun⟩
  | cons g rest ih =>
    intro free hrange hpos hplace
    have hneed := hpos g List.mem_cons_self
    rw [placeLost] at hplace
    dsimp only at hplace
    split at hplace
    · cases hplace
    rename_i hnode
    obtain ⟨hadm, v, hv, hfits⟩ := bestSurvivor_spec hneed hnode
    generalize (bestSurvivor free g.admissible g.memBytes).1 = node at hplace hnode hadm hv
    -- The guest takes its memory from the node, and what is left is not negative.
    have hlt := hrange node v hv
    have hleft : wrap64 ((free node).getD 0 - g.memBytes) = v - g.memBytes := by
      rw [hv, Option.getD_some]
      exact wrap64_of_fits (by omega) (by omega)
    rw [hleft] at hplace
    have hrange' : ∀ n w, Function.update free node (some (v - g.memBytes)) n = some w →
        w < 2 ^ 63 := by
      intro n w hw
      by_cases hn : n = node
      · rw [hn, Function.update_self] at hw
        cases hw
        omega
      · rw [Function.update_of_ne hn] at hw
        exact hrange n w hw
    obtain ⟨plan, hmap, hplan⟩ :=
      ih hrange' (fun g' hg' => hpos g' (List.mem_cons_of_mem _ hg')) hplace
    refine ⟨(g, node) :: plan, by rw [List.map_cons, hmap], ?_, ?_, ?_⟩
    · intro p hp
      rcases List.mem_cons.mp hp with rfl | hp
      · exact hadm
      · exact hplan.admissible p hp
    · intro p hp
      rcases List.mem_cons.mp hp with rfl | hp
      · exact ⟨v, hv⟩
      by_cases hn : p.2 = node
      · exact ⟨v, hn ▸ hv⟩
      · obtain ⟨w, hw⟩ := hplan.survives p hp
        rw [Function.update_of_ne hn] at hw
        exact ⟨w, hw⟩
    · have hroom : ∀ n w, free n = some w → n = node ∨ (∃ p ∈ plan, p.2 = n) →
          received ((g, node) :: plan) n ≤ w := by
        intro n w hw hn
        rw [received_cons]
        by_cases heq : node = n
        · subst heq
          rw [hv] at hw
          cases hw
          rw [if_pos rfl]
          show g.memBytes + received plan node ≤ v
          by_cases hp : ∃ p ∈ plan, p.2 = node
          · obtain ⟨p, hp, rfl⟩ := hp
            have := hplan.room p hp (v - g.memBytes) (Function.update_self _ _ _)
            omega
          · have hnone : received plan node = 0 := by
              rw [received, List.filter_eq_nil_iff.mpr]
              · rfl
              · intro p hp' heq
                exact hp ⟨p, hp', of_decide_eq_true heq⟩
            omega
        · obtain ⟨p, hp, rfl⟩ := hn.resolve_left (Ne.symm heq)
          rw [if_neg heq, zero_add]
          exact hplan.room p hp w (by rw [Function.update_of_ne (Ne.symm heq)]; exact hw)
      intro p hp w hw
      refine hroom p.2 w hw ?_
      rcases List.mem_cons.mp hp with rfl | hp
      · exact .inl rfl
      · exact .inr ⟨p, hp, rfl⟩

/-! ## 6. Soundness -/

/-- All memory sums fit in an `int64`: what the guests of a node need, and what they leave. -/
def SumsFit (facts : List NodeFacts) (guests : List HeadroomGuest) : Prop :=
  ∀ f ∈ facts, -2 ^ 63 ≤ memoryOn guests f.node ∧ memoryOn guests f.node < 2 ^ 63 ∧
    -2 ^ 63 ≤ f.totalMemBytes - memoryOn guests f.node ∧ f.totalMemBytes - memoryOn guests f.node <
      2 ^ 63

/-- An assignment of the HA guests of a lost node: each goes to an online node that is not in
maintenance, is another one and is in the guest's set, and the memory of the guests of a node that
receives one, its own and the received, is at most what the node has. -/
structure Recovers (facts : List NodeFacts) (guests : List HeadroomGuest) (failed : String)
    (plan : List (HeadroomGuest × String)) : Prop where
  everyone : (plan.map Prod.fst).Perm (lostGuests guests failed)
  target : ∀ p ∈ plan, p.2 ∈ p.1.admissible ∧ ∃ f ∈ facts, f.node = p.2 ∧ Survivor failed f
  room : ∀ f ∈ facts, (∃ p ∈ plan, p.2 = f.node) →
    memoryOn guests f.node + received plan f.node ≤ f.totalMemBytes

/-- The outcome of an estimate that is not short. -/
theorem not_short_cases {facts : List NodeFacts} {check : HeadroomCheck} {plannedNode : String}
    (h : (estimateHeadroom facts check plannedNode).short = false) :
    (∀ g ∈ estimateGuests check plannedNode, lacksMemory facts g = false) ∧
      ∀ n ∈ failingNodes facts, estimateFailure facts (estimateGuests check plannedNode) n =
        none := by
  unfold estimateHeadroom at h
  split at h
  · cases h
  split at h
  · cases h
  split at h
  · cases h
  dsimp only at h
  split at h
  · cases h
  · rename_i hfind
    refine ⟨fun g hg => Bool.eq_false_iff.mpr (List.find?_eq_none.mp hfind g hg), ?_⟩
    simpa [HeadroomResult.short] using h

theorem mem_failingNodes {facts : List NodeFacts} {n : String} :
    n ∈ failingNodes facts ↔ nodeOnline facts n = true := by
  simp only [failingNodes, Ha.mem_sorted, List.mem_map, List.mem_filter, nodeOnline,
    List.any_eq_true, Bool.and_eq_true, decide_eq_true_eq]
  constructor
  · rintro ⟨f, ⟨hf, hon⟩, rfl⟩
    exact ⟨f, hf, rfl, hon⟩
  · rintro ⟨f, hf, rfl, hon⟩
    exact ⟨f, ⟨hf, hon⟩, rfl⟩

/-- **An estimate that is not short has an assignment for every loss.** -/
theorem assignment_of_not_short {facts : List NodeFacts} {check : HeadroomCheck}
    {plannedNode failed : String}
    (hnames : (facts.map NodeFacts.node).Nodup)
      (hfits : SumsFit facts (estimateGuests check plannedNode))
    (h : (estimateHeadroom facts check plannedNode).short = false)
      (hfailed : nodeOnline facts failed = true) :
    ∃ plan, Recovers facts (estimateGuests check plannedNode) failed plan := by
  obtain ⟨hmemory, hplaced⟩ := not_short_cases h
  generalize estimateGuests check plannedNode = guests at hfits hmemory hplaced ⊢
  have hperm : (sortLost (lostGuests guests failed)).Perm (lostGuests guests failed) :=
    List.perm_insertionSort _ _
  have hpos : ∀ g ∈ sortLost (lostGuests guests failed), 0 < g.memBytes := by
    intro g hg
    obtain ⟨hmem, hlost⟩ := List.mem_filter.mp (hperm.mem_iff.mp hg)
    have hnode : g.node = failed := of_decide_eq_true ((Bool.and_eq_true _ _).mp hlost).1
    have hlacks := hmemory g hmem
    rw [lacksMemory, hnode, hfailed, Bool.and_true, decide_eq_false_iff_not] at hlacks
    omega
  have hfree : ∀ n v, freeMemory facts (usedMemory guests) failed n = some v →
      ∃ f ∈ facts, f.node = n ∧ Survivor failed f ∧ v = f.totalMemBytes - memoryOn guests n := by
    intro n v hv
    obtain ⟨f, hf, rfl, hs, rfl⟩ := (freeMemory_eq_some hnames).mp hv
    obtain ⟨hlow, hhigh, hlow', hhigh'⟩ := hfits f hf
    refine ⟨f, hf, rfl, hs, ?_⟩
    rw [usedMemory_eq, wrap64_of_fits hlow hhigh, wrap64_of_fits hlow' hhigh']
  have hrange : ∀ n v, freeMemory facts (usedMemory guests) failed n = some v → v < 2 ^ 63 := by
    intro n v hv
    obtain ⟨f, hf, rfl, -, rfl⟩ := hfree n v hv
    exact (hfits f hf).2.2.2
  obtain ⟨plan, hmap, hplan⟩ :=
    plan_of_placeLost hrange hpos (hplaced failed (mem_failingNodes.mpr hfailed))
  refine ⟨plan, by rw [hmap]; exact hperm, fun p hp => ⟨hplan.admissible p hp, ?_⟩,
    fun f hf hp => ?_⟩
  · obtain ⟨v, hv⟩ := hplan.survives p hp
    obtain ⟨f, hf, hnode, hs, -⟩ := hfree p.2 v hv
    exact ⟨f, hf, hnode, hs⟩
  · obtain ⟨p, hp, hnode⟩ := hp
    obtain ⟨v, hv⟩ := hplan.survives p hp
    have hroom := hplan.room p hp v hv
    obtain ⟨f', hf', hnode', -, rfl⟩ := hfree p.2 v hv
    have hsame : f' = f := List.inj_on_of_nodup_map hnames hf' hf (hnode'.trans hnode)
    subst hsame
    rw [hnode] at hroom
    omega

/-! ## 7. The order of the facts and of the guests

Each stage of the estimate is shown to be the same; at the end only the name of the first guest
without a figure can differ. -/

theorem nodeOnline_perm {facts facts' : List NodeFacts} (h : facts.Perm facts') (node : String) :
    nodeOnline facts node = nodeOnline facts' node := h.any_eq

theorem failingNodes_perm {facts facts' : List NodeFacts} (h : facts.Perm facts') :
    failingNodes facts = failingNodes facts' := Ha.sorted_perm ((h.filter _).map _)

theorem usedMemory_perm {guests guests' : List HeadroomGuest} (h : guests.Perm guests') :
    usedMemory guests = usedMemory guests' := by
  funext node
  rw [usedMemory_eq, usedMemory_eq, memoryOn_perm h]

theorem freeMemory_perm {facts facts' : List NodeFacts} (h : facts.Perm facts')
    (hnames : (facts.map NodeFacts.node).Nodup) (used : String → Int) (failed : String) :
    freeMemory facts used failed = freeMemory facts' used failed := by
  funext n
  refine Option.ext fun v => ?_
  rw [freeMemory_eq_some hnames, freeMemory_eq_some ((h.map _).nodup_iff.mp hnames)]
  simp only [h.mem_iff]

/-- The key of the sort, with what stability adds to it: a guest before the VM. -/
def sortKey (x : HeadroomGuest × Bool) : Int ×ₗ Int ×ₗ Bool :=
  toLex (-x.1.memBytes, toLex (x.1.vmid, x.2))

theorem not_lostLess_iff {a b : HeadroomGuest} {t : Bool} (h : t = true ∨ a.vmid ≠ b.vmid) :
    lostLess b a = false ↔ sortKey (a, false) ≤ sortKey (b, t) := by
  rw [sortKey, sortKey, Prod.Lex.toLex_le_toLex, Prod.Lex.toLex_le_toLex, lostLess]
  dsimp only
  by_cases hmem : b.memBytes = a.memBytes
  · rw [if_neg (by simp [hmem]), decide_eq_false_iff_not]
    rcases h with rfl | hvmid
    · simp [hmem]
      omega
    · simp [hmem]
      omega
  · rw [if_pos hmem, decide_eq_false_iff_not]
    omega

/-- The guests of a loss, the VM told apart. -/
def tagged (others vm : List HeadroomGuest) : List (HeadroomGuest × Bool) :=
  (others.map fun g => (g, false)) ++ vm.map fun g => (g, true)

/-- The stable sort is the sort by the whole key. -/
theorem sortLost_eq {others vm : List HeadroomGuest}
    (hvmids : (others.map HeadroomGuest.vmid).Nodup) (hvm : vm.length ≤ 1) :
    sortLost (others ++ vm) =
      ((tagged others vm).insertionSort fun x y => sortKey x ≤ sortKey y).map Prod.fst := by
  have hmap : others ++ vm = (tagged others vm).map Prod.fst := by simp [tagged, Function.comp_def]
  rw [sortLost, hmap]
  refine Lib.Sorting.insertionSort_map_of Prod.fst ?_
  refine List.pairwise_append.mpr ⟨?_, ?_, ?_⟩
  · refine List.pairwise_map.mpr ((List.pairwise_map.mp hvmids).imp fun hne => ?_)
    exact not_lostLess_iff (.inr hne)
  · match vm, hvm with
    | [], _ => exact List.Pairwise.nil
    | [v], _ => exact List.pairwise_singleton _ _
  · rintro x hx y hy
    obtain ⟨a, -, rfl⟩ := List.mem_map.mp hx
    obtain ⟨b, -, rfl⟩ := List.mem_map.mp hy
    exact not_lostLess_iff (.inl rfl)

/-- The sort key separates the guests: VM ids differ among the others, and there is at most one VM
beside them. -/
theorem sortKey_injOn {others vm : List HeadroomGuest}
    (hvmids : (others.map HeadroomGuest.vmid).Nodup)
    (hvm : vm.length ≤ 1) {x y : HeadroomGuest × Bool} (hx : x ∈ tagged others vm)
      (hy : y ∈ tagged others vm)
    (hkey : sortKey x = sortKey y) : x = y := by
  have hparts : x.1.vmid = y.1.vmid ∧ x.2 = y.2 := by
    have h := congrArg (fun k => (ofLex (ofLex k).2)) hkey
    exact Prod.mk.inj h
  rcases List.mem_append.mp hx with hx | hx <;> rcases List.mem_append.mp hy with hy | hy
  · obtain ⟨a, ha, rfl⟩ := List.mem_map.mp hx
    obtain ⟨b, hb, rfl⟩ := List.mem_map.mp hy
    rw [List.inj_on_of_nodup_map hvmids ha hb hparts.1]
  · obtain ⟨a, -, rfl⟩ := List.mem_map.mp hx
    obtain ⟨b, -, rfl⟩ := List.mem_map.mp hy
    cases hparts.2
  · obtain ⟨a, -, rfl⟩ := List.mem_map.mp hx
    obtain ⟨b, -, rfl⟩ := List.mem_map.mp hy
    cases hparts.2
  · obtain ⟨a, ha, rfl⟩ := List.mem_map.mp hx
    obtain ⟨b, hb, rfl⟩ := List.mem_map.mp hy
    match vm, hvm, ha, hb with
    | [v], _, ha, hb => rw [List.mem_singleton.mp ha, List.mem_singleton.mp hb]

/-- **The order of the guests does not matter to the sort.** -/
theorem sortLost_perm {others others' vm : List HeadroomGuest} (h : others.Perm others')
    (hvmids : (others.map HeadroomGuest.vmid).Nodup) (hvm : vm.length ≤ 1) :
    sortLost (others ++ vm) = sortLost (others' ++ vm) := by
  rw [sortLost_eq hvmids hvm, sortLost_eq ((h.map _).nodup_iff.mp hvmids) hvm]
  have hperm : (tagged others vm).Perm (tagged others' vm) := (h.map _).append_right _
  have htotal : Std.Total fun x y : HeadroomGuest × Bool => sortKey x ≤ sortKey y :=
    ⟨fun x y => le_total (sortKey x) (sortKey y)⟩
  have htrans : IsTrans (HeadroomGuest × Bool) fun x y => sortKey x ≤ sortKey y :=
    ⟨fun _ _ _ => le_trans⟩
  congr 1
  refine List.Perm.eq_of_pairwise (fun x y hx hy hxy hyx => ?_) (List.pairwise_insertionSort _ _)
    (List.pairwise_insertionSort _ _)
    ((List.perm_insertionSort _ _).trans (hperm.trans (List.perm_insertionSort _ _).symm))
  have hx := (List.mem_insertionSort _).mp hx
  have hy := hperm.mem_iff.mpr ((List.mem_insertionSort _).mp hy)
  exact sortKey_injOn hvmids hvm hx hy (le_antisymm hxy hyx)

/-- The guests that are lost are sorted by a key that separates them, so a permuted list is sorted
to the same one (`sortKey_injOn`), and the survivors are found by name. -/
theorem estimateFailure_perm {facts facts' : List NodeFacts} {others others' : List HeadroomGuest}
    (hfacts : facts.Perm facts') (hguests : others.Perm others')
    (hnames : (facts.map NodeFacts.node).Nodup)
    (hvmids : (others.map HeadroomGuest.vmid).Nodup) (vm : HeadroomGuest) (failed : String) :
    estimateFailure facts (others ++ [vm]) failed = estimateFailure facts'
      (others' ++ [vm]) failed := by
  have hlost : ∀ l : List HeadroomGuest, lostGuests (l ++ [vm]) failed =
      lostGuests l failed ++ lostGuests [vm] failed := fun l => List.filter_append _ _
  have hone : (lostGuests [vm] failed).length ≤ 1 := List.length_filter_le _ _
  have hsub : ((lostGuests others failed).map HeadroomGuest.vmid).Nodup :=
    hvmids.sublist (List.filter_sublist.map _)
  have hperm : (lostGuests others failed).Perm (lostGuests others' failed) := hguests.filter _
  rw [estimateFailure, estimateFailure, usedMemory_perm (hguests.append_right _),
    freeMemory_perm hfacts hnames, hlost, hlost, sortLost_perm hperm hsub hone]

theorem lacksMemory_perm {facts facts' : List NodeFacts} (h : facts.Perm facts') :
    lacksMemory facts = lacksMemory facts' := by
  funext g
  rw [lacksMemory, lacksMemory, nodeOnline_perm h]

/-- Two guests without a memory figure, one named by each result. -/
def NamesDifferentGuests (facts : List NodeFacts) (check : HeadroomCheck) (r r' : HeadroomResult) :
    Prop :=
  ∃ g ∈ otherGuests check, ∃ g' ∈ otherGuests check, g ≠ g' ∧
    lacksMemory facts g = true ∧ lacksMemory facts g' = true ∧
    r = { unavailable := some (.guestMemory g.vmid g.node) } ∧
    r' = { unavailable := some (.guestMemory g'.vmid g'.node) }

/-- **The order of facts and guests.** -/
theorem estimateHeadroom_perm {facts facts' : List NodeFacts} {check : HeadroomCheck}
    {guests' : List HeadroomGuest} (plannedNode : String) (hfacts : facts.Perm facts')
    (hguests : check.guests.Perm guests') (hnames : (facts.map NodeFacts.node).Nodup)
    (hvmids : (check.guests.map HeadroomGuest.vmid).Nodup) :
    estimateHeadroom facts' { check with guests := guests' } plannedNode =
        estimateHeadroom facts check plannedNode ∨
      NamesDifferentGuests facts check (estimateHeadroom facts check plannedNode)
        (estimateHeadroom facts' { check with guests := guests' } plannedNode) := by
  unfold estimateHeadroom
  dsimp only
  rw [← nodeOnline_perm hfacts, ← lacksMemory_perm hfacts]
  split
  · exact .inl rfl
  split
  · exact .inl rfl
  rename_i hvm
  split
  · exact .inl rfl
  -- The guests of the two estimates, and what is not the VM among those without a figure.
  have hothers : (otherGuests check).Perm (otherGuests { check with guests := guests' }) :=
    hguests.filter _
  have hperm : (estimateGuests check plannedNode).Perm
      (estimateGuests { check with guests := guests' } plannedNode) := hothers.append_right _
  have hother : ∀ g ∈ estimateGuests check plannedNode, lacksMemory facts g = true →
      g ∈ otherGuests check := by
    intro g hg hlacks
    rcases List.mem_append.mp hg with hg | hg
    · exact hg
    · rw [List.mem_singleton.mp hg, lacksMemory, Bool.and_eq_true, decide_eq_true_iff] at hlacks
      exact absurd hlacks.1 hvm
  cases hfind : (estimateGuests check plannedNode).find? (lacksMemory facts) with
  | none =>
    have hnone : (estimateGuests { check with guests := guests' } plannedNode).find?
      (lacksMemory facts) = none :=
      List.find?_eq_none.mpr fun g hg => List.find?_eq_none.mp hfind g (hperm.mem_iff.mpr hg)
    rw [hnone]
    refine .inl ?_
    have hvmids' : ((otherGuests check).map HeadroomGuest.vmid).Nodup :=
      hvmids.sublist (List.filter_sublist.map _)
    have hsame : estimateFailure facts (estimateGuests check plannedNode) =
        estimateFailure facts' (estimateGuests { check with guests := guests' } plannedNode) :=
      funext fun failed => estimateFailure_perm hfacts hothers hnames hvmids' _ failed
    rw [failingNodes_perm hfacts, hsame]
  | some g =>
    have hg := List.mem_of_find?_eq_some hfind
    have hlacks := List.find?_some hfind
    cases hfind' : (estimateGuests { check with guests := guests' } plannedNode).find?
      (lacksMemory facts) with
    | none => exact absurd hlacks (List.find?_eq_none.mp hfind' g (hperm.mem_iff.mp hg))
    | some g' =>
      by_cases heq : g = g'
      · rw [heq]
        exact .inl rfl
      have hg' := hperm.mem_iff.mpr (List.mem_of_find?_eq_some hfind')
      have hlacks' := List.find?_some hfind'
      exact .inr ⟨g, hother g hg hlacks, g', hother g' hg' hlacks', heq, hlacks, hlacks', rfl, rfl⟩

/-! ## 8. The estimate -/

/-- **The estimate is sound, and free of orders.**  When it is not short, the loss of each online
node has an assignment; and facts and guests in another order have the same result, or two results
that name two guests without a memory figure.  The loop is its own assignment, and every sum, every
sorted list and every maximum that it uses is that of the permuted input. -/
theorem headroom_sound_and_order_free (facts : List NodeFacts) (check : HeadroomCheck)
    (plannedNode : String)
    (hnames : (facts.map NodeFacts.node).Nodup)
      (hvmids : (check.guests.map HeadroomGuest.vmid).Nodup)
    (hfits : SumsFit facts (estimateGuests check plannedNode)) :
    ((estimateHeadroom facts check plannedNode).short = false →
      ∀ failed, nodeOnline facts failed = true →
        ∃ plan, Recovers facts (estimateGuests check plannedNode) failed plan) ∧
    ∀ facts' guests', facts.Perm facts' → check.guests.Perm guests' →
      estimateHeadroom facts' { check with guests := guests' } plannedNode =
          estimateHeadroom facts check plannedNode ∨
        NamesDifferentGuests facts check (estimateHeadroom facts check plannedNode)
          (estimateHeadroom facts' { check with guests := guests' } plannedNode) := by
  refine ⟨fun h failed hfailed => assignment_of_not_short hnames hfits h hfailed, ?_⟩
  intro facts' guests' hfacts hguests
  exact estimateHeadroom_perm plannedNode hfacts hguests hnames hvmids

/-- Two nodes, and a VM of 100 on the second whose record the first still has. -/
def twoNodes : List NodeFacts :=
  [{ node := "a", online := true, totalMemBytes := 100 },
    { node := "b", online := true, totalMemBytes := 150 }]

def movedVM : HeadroomCheck where
  vm := { vmid := 5, memBytes := 100, admissible := ["a", "b"] }
  guests := [{ vmid := 5, node := "a", memBytes := 100, ha := true, admissible := ["a", "b"] }]

/-- A guest without a memory figure. -/
def unreadGuest (vmid : Int) : HeadroomGuest :=
  { vmid, node := "a", memBytes := 0, ha := false, admissible := [] }

def unreadVM (guests : List HeadroomGuest) : HeadroomCheck :=
  { vm := { vmid := 5, memBytes := 100, admissible := ["a", "b"] }, guests }

theorem headroom_sound_and_order_free_sample :
    ∃ plan, Recovers twoNodes (estimateGuests movedVM "b") "b" plan :=
  (headroom_sound_and_order_free twoNodes movedVM "b" (by decide) (by decide)
    (by unfold SumsFit; decide)).1 (by decide) "b" (by decide)

/-- The result names the first guest without a figure; and a guest with the VM's own VMID is not
placed. -/
theorem first_guest_named_and_own_dropped :
    estimateHeadroom twoNodes (unreadVM [unreadGuest 1, unreadGuest 2]) "b" ≠
        estimateHeadroom twoNodes (unreadVM [unreadGuest 2, unreadGuest 1]) "b" ∧
      (estimateHeadroom twoNodes movedVM "b").short = false ∧
      ¬∃ plan, Recovers twoNodes (movedVM.guests ++ [vmGuest movedVM "b"]) "a" plan := by
  refine ⟨by decide, by decide, ?_⟩
  rintro ⟨plan, hplan⟩
  have hlost : lostGuests (movedVM.guests ++ [vmGuest movedVM "b"]) "a" = movedVM.guests := by
    decide
  have hone := hlost ▸ hplan.everyone
  obtain ⟨p, rfl⟩ : ∃ p, plan = [p] := by
    rw [← List.length_eq_one_iff, ← List.length_map (f := Prod.fst), hone.length_eq]
    rfl
  have hguest : p.1 =
      { vmid := 5, node := "a", memBytes := 100, ha := true, admissible := ["a", "b"] } := by
    have := hone.mem_iff.mp List.mem_cons_self
    exact List.mem_singleton.mp this
  obtain ⟨-, f, hf, hnode, hs⟩ := hplan.target p List.mem_cons_self
  -- Node a is lost, so the guest went to node b, which has no room for it.
  have hroom := hplan.room f hf ⟨p, List.mem_cons_self, hnode.symm⟩
  rcases List.mem_cons.mp hf with rfl | hf
  · exact absurd rfl hs.1
  · rw [List.mem_singleton.mp hf] at hnode hroom
    rw [received_cons, if_pos hnode.symm, hguest] at hroom
    revert hroom
    decide

end Placement
