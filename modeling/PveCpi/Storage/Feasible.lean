/-
# Every plan is feasible

The plans that `Next` returns, over whole runs of the iterator.  An iterator keeps options between
the calls: the roots of the current group, and the continuations of the active root.  `Sound` says
where their ledgers come from, and is kept by every call whether it succeeds or not.

Two contracts follow from where the ledger of a plan comes from.

* **The split conserves the debit** (`executionCharges_conserve`): the 64-bit arithmetic of
  `storagePlanExecutionCharges` never wraps, and what replaces the root charge is the root charge.
* **A plan is feasible** (`plan_feasible`): its charges are within every capacity and every domain
  beside the siblings, its node reaches every target, and the charges can be charged again in any
  order.

## Why an invariant over calls

A plan may be returned by any call: the first, or one that goes on below a root that an earlier call
has loaded, with options whose ledgers were made then.  So what is known of a plan has to be known
of every option that the iterator KEEPS, from the moment it is made.  `RootOffer` and `EpOffer` say
it: the ledger of the option is that of the request's siblings, grown by charges that were admitted
one after another.

* §1-2  One option, and the options of a role: what passed the checks, and on which ledger.
* §3  `Sound` and its preservation, also by a call that fails.
* §4  `Debit`, the list of charges behind a plan.
* §5  The split of the root charge.
* §6  Feasibility, from `Within` for the ranked charges, over `Within.split` to the executed ones,
  and from there by `Replay` to every order.
-/
import PveCpi.Storage.Planner
import PveCpi.Storage.Replay

namespace Storage

open Lib Lib.Check
open Lib.Text (nonblank)
open Lib.Bits (addOr addOr_eq_ok)

/-! ## 1. One option

Each lemma is the success of one check, read back. -/

section Verdicts

variable {α β : Type} {x : Except PlanErr α} {f : α → Verdict β} {b : β}

theorem Verdict.rejecting_passed : Verdict.rejecting x f = .passed b ↔ ∃ a, x = .ok a ∧
    f a = .passed b := by
  rcases x with e | a <;> simp [Verdict.rejecting]

theorem Verdict.failing_passed : Verdict.failing x f = .passed b ↔ ∃ a, x = .ok a ∧
    f a = .passed b := by
  rcases x with e | a <;> simp [Verdict.failing]

end Verdicts

/-- The charge of a target. -/
def StoragePlanTarget.charge (t : StoragePlanTarget) (limits : Limits) : Charge :=
  { id := t.role, role := t.role, node := t.node, storageID := t.storageID, bytes := t.chargeBytes,
    limits := limits }

/-- The target was charged on a ledger; a root disk has its source, and its charge can be split. -/
structure Placed (s : Snapshot) (base : Ledger) (t : StoragePlanTarget) (l : Ledger) : Prop where
  admitted : ∃ limits, base.withPlanned s (t.charge limits) = .ok l
  splits : t.role = storageRoleRoot → ∃ source, t.source = some source ∧
    Splits t source t.chargeBytes

/-- The ledger that the image of a VM on a node was charged on, if there is one. -/
def Imaged (req : StoragePlanRequest) (base : Ledger) (node : String) (l : Ledger) : Prop :=
  l = base ∨ ∃ id, base.withPlanned req.inventory (isoCharge req node id) = .ok l

section Option

variable {req : StoragePlanRequest} {group : StoragePlanNodeGroup}

theorem sourceFor_mem {node id : String} {source : StorageRootSource} {mechanism : String}
    (h : sourceFor req node id = .ok (source, mechanism)) : source ∈ req.sources := by
  unfold sourceFor at h
  dsimp only at h
  split at h
  · cases h
  · rename_i found hfound
    cases h
    obtain ⟨x, hx, hm⟩ := List.exists_of_findSome?_eq_some hfound
    obtain ⟨m, -, heq⟩ := Option.map_eq_some_iff.mp hm
    cases heq
    exact List.mem_of_mem_filter ((List.perm_insertionSort _ _).mem_iff.mp hx)

/-- The checks of the sizes are what the split relies on. -/
theorem rootSizes_splits {bytes : UInt64} {source : StorageRootSource} {sizes : UInt64 × UInt64}
    (hsized : source.virtualBytes ≠ 0) (h : rootSizes bytes source = .ok sizes)
    {t : StoragePlanTarget} (ht : t.virtualBytes = sizes.1) : Splits t source sizes.2 := by
  unfold rootSizes at h
  obtain ⟨virtual, hvirtual, h⟩ := bind_eq_ok.mp h
  obtain ⟨charge, hcharge, h⟩ := bind_eq_ok.mp h
  obtain ⟨total, htotal, h⟩ := bind_eq_ok.mp h
  cases h
  rw [mapError_eq_ok] at hvirtual
  have hround := roundBytes_ok hvirtual
  rw [addOr_eq_ok] at hcharge htotal
  refine ⟨Nat.pos_of_ne_zero fun h0 => hsized (UInt64.toNat_inj.mp h0), ?_, ?_⟩
  · rw [ht, hround, toNat_max]
    exact roundUp_mono (Nat.le_max_right _ _)
  · rw [ht, htotal, hcharge]

/-- The target that is added is the one that was asked for, and the ledger has its charge. -/
theorem addTarget_ok {ledger : Ledger} {role node id : String} {virtual bytes : UInt64}
    {mechanism : String} {source : Option StorageRootSource} {r : StorageRoleSelection}
    {o : PlanOption}
    (h : addTarget req ledger role node id virtual bytes mechanism source r = .ok o) :
    (∃ limits, ledger.withPlanned req.inventory (o.target.charge limits) = .ok o.ledger) ∧
      o.target.role = role ∧ o.target.node = node ∧ o.target.storageID = id ∧
      o.target.virtualBytes = virtual ∧ o.target.chargeBytes = bytes ∧ o.target.source = source ∧
      o.target.capacityKey = ((req.inventory.pair node id).getD {}).capacityKey := by
  unfold addTarget at h
  obtain ⟨limits, -, h⟩ := bind_eq_ok.mp h
  obtain ⟨candidate, -, h⟩ := bind_eq_ok.mp h
  obtain ⟨next, hnext, h⟩ := bind_eq_ok.mp h
  cases h
  exact ⟨⟨limits, mapError_eq_ok.mp hnext⟩, rfl, rfl, rfl, rfl, rfl, rfl, rfl⟩

/-- The sizes of an option: those of its source for a root disk. -/
theorem sizing_passed {r : StorageRoleSelection} {bytes : UInt64} {node id : String}
    {f : Sizing → Verdict PlanOption} {o : PlanOption}
    (h : sizing req r bytes node id f = .passed o) :
    ∃ z : Sizing, f z = .passed o ∧ (r.role = storageRoleRoot → ∃ source ∈ req.sources,
      z.source = some source ∧ rootSizes bytes source = .ok (z.virtual, z.charge)) := by
  unfold sizing at h
  split_ifs at h with hrole
  · obtain ⟨⟨source, mechanism⟩, hsource, h⟩ := Verdict.rejecting_passed.mp h
    obtain ⟨⟨virtual, charge⟩, hsizes, h⟩ := Verdict.failing_passed.mp h
    exact ⟨_, h, fun _ => ⟨source, sourceFor_mem hsource, rfl, hsizes⟩⟩
  · exact ⟨_, h, fun hroot => absurd hroot hrole⟩

theorem bundleCandidate_passed {ephemeral : StorageRoleSelection} {ledger : Ledger}
    {node id : String} {charge : UInt64} {option o : PlanOption}
    (h : bundleCandidate req ephemeral ledger node id charge option = .passed o) :
    o.target = option.target ∧ o.ledger = option.ledger := by
  unfold bundleCandidate at h
  obtain ⟨_, -, h⟩ := Verdict.failing_passed.mp h
  obtain ⟨_, -, h⟩ := Verdict.failing_passed.mp h
  obtain ⟨_, -, h⟩ := Verdict.failing_passed.mp h
  obtain ⟨_, -, h⟩ := Verdict.rejecting_passed.mp h
  cases h
  exact ⟨rfl, rfl⟩

theorem isoLedger_ok {base l : Ledger} {node root : String}
    (h : isoLedger req group base node root = .ok l) :
    ∃ id, base.withPlanned req.inventory (isoCharge req node id) = .ok l := by
  obtain ⟨id, -, h⟩ := bind_eq_ok.mp h
  exact ⟨id, mapError_eq_ok.mp h⟩

/-- Where the ledger of an option comes from. -/
structure Offered (req : StoragePlanRequest) (base : Ledger) (role node : String) (primary : Bool)
    (t : StoragePlanTarget) (l : Ledger) : Prop where
  role_eq : t.role = role
  node_eq : t.node = node
  placed : ∃ base', Imaged req base node base' ∧ (primary = false → base' = base) ∧
    Placed req.inventory base' t l

/-- A choice that passes is offered: the backing, the node and the primary role were all checked for
it. -/
theorem judge_passed {r : StorageRoleSelection} {bytes : UInt64} {base : Ledger} {node id : String}
    {primary : Bool} {o : PlanOption} (hsized : ∀ source ∈ req.sources, source.virtualBytes ≠ 0)
    (h : judge req group r bytes base node id primary = .passed o) :
    Offered req base r.role node primary o.target o.ledger := by
  unfold judge at h
  obtain ⟨_, -, h⟩ := Verdict.rejecting_passed.mp h
  obtain ⟨ledger, hledger, h⟩ := Verdict.rejecting_passed.mp h
  obtain ⟨z, h, hz⟩ := sizing_passed h
  obtain ⟨option, hoption, h⟩ := Verdict.rejecting_passed.mp h
  have hsame : o.target = option.target ∧ o.ledger = option.ledger := by
    split at h
    · cases h
      exact ⟨rfl, rfl⟩
    · split_ifs at h
      · exact bundleCandidate_passed h
      · cases h
        exact ⟨rfl, rfl⟩
  obtain ⟨hadmitted, hrole, hnode, -, hvirtual, hbytes, hsource, -⟩ := addTarget_ok hoption
  rw [hsame.1, hsame.2]
  refine ⟨hrole, hnode, ledger, ?_, ?_, hadmitted, ?_⟩
  · split_ifs at hledger
    · exact .inr (isoLedger_ok hledger)
    · cases hledger
      exact .inl rfl
  · intro hprimary
    rw [hprimary, Bool.false_and, if_neg Bool.false_ne_true] at hledger
    cases hledger
    rfl
  · intro hroot
    obtain ⟨source, hmem, hzsource, hsizes⟩ := hz (hrole.symm.trans hroot)
    refine ⟨source, hsource.trans hzsource, ?_⟩
    rw [hbytes]
    exact rootSizes_splits (hsized source hmem) hsizes hvirtual

end Option

/-! ## 2. The options of a role -/

section Options

variable {env : Surroundings} {req : StoragePlanRequest} {group : StoragePlanNodeGroup}

/-- Every option of a table has a property. -/
def ByBacking.All (P : PlanOption → Prop) (m : ByBacking) : Prop := ∀ key, ∀ o ∈ m.at key, P o

theorem ByBacking.All.add {P : PlanOption → Prop} {m : ByBacking} (h : m.All P) {o : PlanOption}
    (ho : P o) : (m.add o).All P := by
  intro key x hx
  unfold ByBacking.at ByBacking.add at hx
  by_cases hkey : key = o.target.capacityKey
  · rw [hkey, AList.lookup_insert, Option.getD_some] at hx
    rcases List.mem_append.mp hx with hx | hx
    · exact h _ x hx
    · rw [List.mem_singleton.mp hx]
      exact ho
  · rw [AList.lookup_insert_ne hkey] at hx
    exact h key x hx

/-- What holds of every choice that passes holds of every choice that is gathered. -/
theorem gather_all {P : PlanOption → Prop} {r : StorageRoleSelection} {bytes : UInt64}
    {base : Ledger}
    {primary : Bool} : ∀ {pairs : List (String × String)} {m m' : ByBacking} {e e' : Effort},
    (∀ id node o, (id, node) ∈ pairs →
      judge req group r bytes base node id primary = .passed o → P o) → m.All P →
    gather env req group r bytes base primary pairs m e = (.ok m', e') → m'.All P
  | [], m, m', e, e', _, hm, h => by
    cases h
    exact hm
  | (id, node) :: pairs, m, m', e, e', hP, hm, h => by
    unfold gather at h
    obtain ⟨_, t, -, h⟩ := Trial.bind_ok.mp h
    obtain ⟨option, t', hoption, h⟩ := Trial.bind_ok.mp h
    refine gather_all (fun id' node' o hmem => hP id' node' o (List.mem_cons_of_mem _ hmem)) ?_ h
    cases option with
    | none => exact hm
    | some o =>
      refine hm.add (hP id node o List.mem_cons_self ?_)
      unfold optionFor at hoption
      cases hj : judge req group r bytes base node id primary with
      | rejected err =>
        rw [hj] at hoption
        obtain ⟨_, _, -, hnone⟩ := Trial.bind_ok.mp hoption
        cases hnone
      | failed err =>
        rw [hj] at hoption
        cases hoption
      | passed o' =>
        rw [hj] at hoption
        cases hoption
        rfl

/-- The options of a role are the candidates that passed, with a ranking. -/
theorem options_all {P : StoragePlanTarget → Ledger → Prop} {r : StorageRoleSelection}
    {bytes : UInt64}
    {base : Ledger} {nodes : List String} {primary : Bool} {os : List PlanOption} {e e' : Effort}
    (hP : ∀ id node o, node ∈ nodes → judge req group r bytes base node id primary = .passed o →
      P o.target o.ledger)
    (h : options env req group r bytes base nodes primary e = (.ok os, e')) :
    ∀ o ∈ os, P o.target o.ledger := by
  unfold options at h
  obtain ⟨ids, _, -, h⟩ := Trial.bind_ok.mp h
  obtain ⟨_, _, -, h⟩ := Trial.bind_ok.mp h
  obtain ⟨m, _, hm, h⟩ := Trial.bind_ok.mp h
  obtain ⟨measured, _, -, h⟩ := Trial.bind_ok.mp h
  have hall : m.All fun o => P o.target o.ledger := by
    refine gather_all (fun id node o hmem hj => ?_) (fun _ o ho => by cases ho) hm
    obtain ⟨_, -, hnode⟩ := List.mem_flatMap.mp hmem
    obtain ⟨node', hn, heq⟩ := List.mem_map.mp hnode
    cases heq
    exact hP _ _ o hn hj
  split_ifs at h
  · cases h
    intro o ho
    cases ho
  · obtain ⟨ranked, _, -, h⟩ := Trial.bind_ok.mp h
    cases h
    intro o ho
    obtain ⟨x, -, ho⟩ := List.mem_flatMap.mp ho
    obtain ⟨node, -, ho⟩ := List.mem_flatMap.mp ho
    obtain ⟨o', ho', rfl⟩ := List.mem_map.mp ho
    exact hall _ o' (List.mem_of_mem_filter ho')

/-- **The options of a role were charged on its ledger**, on one of the nodes. -/
theorem options_offered {r : StorageRoleSelection} {bytes : UInt64} {base : Ledger}
    {nodes : List String} {primary : Bool} {os : List PlanOption} {e e' : Effort}
    (hsized : ∀ source ∈ req.sources, source.virtualBytes ≠ 0)
    (h : options env req group r bytes base nodes primary e = (.ok os, e')) :
    ∀ o ∈ os, ∃ node ∈ nodes, Offered req base r.role node primary o.target o.ledger :=
  options_all (P := fun t l => ∃ node ∈ nodes, Offered req base r.role node primary t l)
    (fun _ node _ hn hj => ⟨node, hn, judge_passed hsized hj⟩) h

end Options

/-! ## 3. The iterator

The three loops of `Next`, from the inside out.  A failing call may have loaded roots before it
failed, and they must be sound as well. -/

/-- A root option: charged on the ledger of the siblings, with the image before it. -/
structure RootOffer (req : StoragePlanRequest) (o : PlanOption) : Prop where
  role : o.target.role = storageRoleRoot ∨ o.target.role = storageRolePersistent
  offered : Offered req (Iterator.seeded req) o.target.role o.target.node true o.target o.ledger

/-- A continuation of a root option: charged on its ledger, on the same node. -/
def EpOffer (req : StoragePlanRequest) (root o : PlanOption) : Prop :=
  Offered req root.ledger storageRoleEphemeral root.target.node false o.target o.ledger

/-- The plan was made of a root option and a continuation of it. -/
def Made (req : StoragePlanRequest) (plan : StorageAllocationPlan) : Prop :=
  ∃ group rejections root ep, plan = makePlan req group rejections root ep ∧ RootOffer req root ∧
    ∀ o ∈ ep, EpOffer req root o

namespace Iterator

/-- The invariant: what is kept between the calls. -/
structure Sound (i : Iterator) : Prop where
  roots : ∀ o ∈ i.roots, RootOffer i.req.toStoragePlanRequest o
  active : ∀ root ∈ i.activeRoot, RootOffer i.req.toStoragePlanRequest root ∧
    ∀ o ∈ i.continuations, EpOffer i.req.toStoragePlanRequest root o

section Sound

variable {env : Surroundings} {g : StoragePlanNodeGroup} {i j : Iterator}

theorem primaryRole_role {req : StoragePlanRequest} {role : StorageRoleSelection} {bytes : UInt64}
    (h : primaryRole req = some (role, bytes)) :
    role.role = storageRoleRoot ∨ role.role = storageRolePersistent := by
  unfold primaryRole at h
  split at h
  · rename_i r hr
    cases h
    exact .inl (req.selection.root_role _ hr)
  · obtain ⟨r, hr, heq⟩ := Option.map_eq_some_iff.mp h
    cases heq
    exact .inr (req.selection.persistent_role _ hr)

/-- Loading the roots of a group gives offers of that group only. -/
theorem loadRoots_sound (h : Sound i) {r : Except PlanErr Unit} (hl : loadRoots env g i = (r, j)) :
    Sound j ∧ j.req = i.req := by
  unfold loadRoots at hl
  split_ifs at hl
  · cases hl
    exact ⟨h, rfl⟩
  · split at hl
    · cases hl
      exact ⟨h, rfl⟩
    · rename_i role bytes hprimary
      split at hl
      · cases hl
        exact ⟨⟨h.roots, h.active⟩, rfl⟩
      · rename_i roots effort hopts
        cases hl
        refine ⟨⟨fun o ho => ?_, h.active⟩, rfl⟩
        obtain ⟨node, -, hoff⟩ := options_offered i.req.sized hopts o ho
        refine ⟨?_, ?_⟩
        · rw [hoff.role_eq]
          exact primaryRole_role hprimary
        · rw [hoff.role_eq, hoff.node_eq]
          exact hoff

/-- The disk that is bundled with a root disk. -/
theorem bundled_offer {req : StoragePlanRequest} {root o : PlanOption} {bytes : UInt64}
    {ephemeral : StorageRoleSelection} (h : addTarget req root.ledger storageRoleEphemeral
      root.target.node root.target.storageID bytes bytes "allocate" none ephemeral = .ok o) :
    EpOffer req root o := by
  obtain ⟨hadmitted, hrole, hnode, -⟩ := addTarget_ok h
  refine ⟨hrole, hnode, root.ledger, .inl rfl, fun _ => rfl, hadmitted, fun hroot => ?_⟩
  rw [hrole] at hroot
  exact absurd hroot (by decide)

theorem separate_offer {root : PlanOption} {ephemeral : StorageRoleSelection} {os : List PlanOption}
    {e e' : Effort} (hsel : i.req.selection.ephemeral = some ephemeral)
    (h : options env i.req.toStoragePlanRequest g ephemeral i.req.ephemeralBytes root.ledger
      [root.target.node] false e = (.ok os, e')) :
    ∀ o ∈ os, EpOffer i.req.toStoragePlanRequest root o := by
  intro o ho
  obtain ⟨node, hnode, hoff⟩ := options_offered i.req.sized h o ho
  rw [List.mem_singleton.mp hnode, i.req.selection.ephemeral_role _ hsel] at hoff
  exact hoff

/-- The loop over the roots: a plan that is returned was made from an offered root.  The recursion
is on the roots that are left. -/
theorem tryRoots_sound : ∀ {rest : List PlanOption} {i j : Iterator}
    {r : Except PlanErr (Option StorageAllocationPlan)}, Sound i →
    (∀ o ∈ rest, RootOffer i.req.toStoragePlanRequest o) → tryRoots env g rest i = (r, j) →
    Sound j ∧ j.req = i.req ∧ ∀ plan, r = .ok (some plan) → Made i.req.toStoragePlanRequest plan
  | [], i, j, r, h, _, hn => by
    cases hn
    exact ⟨h, rfl, fun plan hp => by cases hp⟩
  | root :: rest, i, j, r, h, hrest, hn => by
    obtain ⟨hroot, hrest⟩ := List.forall_mem_cons.mp hrest
    have hnone : ∀ o ∈ (none : Option PlanOption), EpOffer i.req.toStoragePlanRequest root o :=
      fun o ho => by cases ho
    unfold tryRoots at hn
    dsimp only at hn
    split at hn
    · -- There is no second disk.
      cases hn
      refine ⟨⟨h.roots, h.active⟩, rfl, fun plan hp => ?_⟩
      cases hp
      exact ⟨_, _, root, none, rfl, hroot, hnone⟩
    · rename_i ephemeral hsel
      split_ifs at hn with hbundle
      · split at hn
        · obtain ⟨hj, hreq, hmade⟩ := tryRoots_sound (i := { i with
            rootIndex := i.rootIndex + 1, effort := _ }) ⟨h.roots, h.active⟩ hrest hn
          exact ⟨hj, hreq, hmade⟩
        · rename_i o ho
          cases hn
          refine ⟨⟨h.roots, h.active⟩, rfl, fun plan hp => ?_⟩
          cases hp
          exact ⟨_, _, root, some o, rfl, hroot, fun x hx => Option.some.inj hx ▸ bundled_offer ho⟩
      · split at hn
        · cases hn
          exact ⟨⟨h.roots, h.active⟩, rfl, fun plan hp => by cases hp⟩
        · obtain ⟨hj, hreq, hmade⟩ := tryRoots_sound (i := { i with
            rootIndex := i.rootIndex + 1, effort := _ }) ⟨h.roots, h.active⟩ hrest hn
          exact ⟨hj, hreq, hmade⟩
        · rename_i o os effort hopts
          cases hn
          have hos := separate_offer (i := i) hsel hopts
          refine ⟨⟨h.roots, fun x hx => ?_⟩, rfl, fun plan hp => ?_⟩
          · cases hx
            exact ⟨hroot, hos⟩
          · cases hp
            exact ⟨_, _, root, some o, rfl, hroot,
              fun x hx => Option.some.inj hx ▸ hos o List.mem_cons_self⟩

/-- The loop over the groups of nodes, by recursion on the groups that are left. -/
theorem nextFrom_sound : ∀ {gs : List StoragePlanNodeGroup} {i j : Iterator}
    {r : Except PlanErr StorageAllocationPlan}, Sound i → nextFrom env gs i = (r, j) →
    Sound j ∧ j.req = i.req ∧ ∀ plan, r = .ok plan → Made i.req.toStoragePlanRequest plan
  | [], i, j, r, h, hn => by
    cases hn
    exact ⟨h, rfl, fun plan hp => by cases hp⟩
  | g :: gs, i, j, r, h, hn => by
    unfold nextFrom at hn
    split at hn
    · -- The next continuation of the active root.
      rename_i root e hactive hcont
      cases hn
      obtain ⟨hroot, hos⟩ := h.active root hactive
      refine ⟨⟨h.roots, h.active⟩, rfl, fun plan hp => ?_⟩
      cases hp
      exact ⟨_, _, root, some e, rfl, hroot,
        fun x hx => Option.some.inj hx ▸ hos e (List.mem_of_getElem? hcont)⟩
    · dsimp only at hn
      have hidle :
          Sound { i with activeRoot := none, continuations := [], continuationIndex := 0 } :=
        ⟨h.roots, fun x hx => by cases hx⟩
      split at hn
      · rename_i e k hload
        cases hn
        obtain ⟨hj, hreq⟩ := loadRoots_sound hidle hload
        exact ⟨hj, hreq, fun plan hp => by cases hp⟩
      · rename_i k hload
        obtain ⟨hk, hkreq⟩ := loadRoots_sound hidle hload
        have hrest : ∀ o ∈ k.roots.drop k.rootIndex, RootOffer k.req.toStoragePlanRequest o :=
          fun o ho => hk.roots o (List.mem_of_mem_drop ho)
        have hkreq' : k.req = i.req := hkreq
        split at hn
        · rename_i e l htry
          cases hn
          obtain ⟨hj, hreq, -⟩ := tryRoots_sound hk hrest htry
          exact ⟨hj, hreq.trans hkreq', fun plan hp => by cases hp⟩
        · rename_i plan l htry
          cases hn
          obtain ⟨hj, hreq, hmade⟩ := tryRoots_sound hk hrest htry
          refine ⟨hj, hreq.trans hkreq', fun plan' hp => ?_⟩
          cases hp
          rw [← hkreq']
          exact hmade _ rfl
        · rename_i l htry
          obtain ⟨hl, hlreq, -⟩ := tryRoots_sound hk hrest htry
          have hnext : Sound { l with group := l.group + 1, roots := [], rootIndex := 0 } :=
            ⟨fun x hx => (by cases hx), hl.active⟩
          obtain ⟨hj, hreq, hmade⟩ := nextFrom_sound hnext hn
          have hlreq' : l.req = i.req := hlreq.trans hkreq'
          refine ⟨hj, hreq.trans hlreq', fun plan hp => ?_⟩
          rw [← hlreq']
          exact hmade plan hp

/-- One call keeps the invariant, and a plan it returns was made of kept options. -/
theorem next_sound (env : Surroundings) (h : Sound i) : Sound (i.next env).2 ∧
    (i.next env).2.req = i.req ∧
    ∀ plan, (i.next env).1 = .ok plan → Made i.req.toStoragePlanRequest plan := by
  unfold next
  split
  · exact ⟨⟨h.roots, h.active⟩, rfl, fun plan hp => by cases hp⟩
  · rename_i effort _
    cases hn : nextFrom env (i.req.groups.drop i.group) { i with effort := effort } with
    | mk r j =>
      exact nextFrom_sound (i := { i with effort := effort }) ⟨h.roots, h.active⟩ hn

end Sound

/-- One use of an iterator: a call of `Next` in any surroundings, or `MarkSubmitted`. -/
inductive Used (i : Iterator) : Iterator → Prop
  | next (env : Surroundings) : Used i (i.next env).2
  | submitted : Used i i.markSubmitted

/-- An iterator of a request, used any number of times. -/
def Reached (req : StoragePlanRequest) (i : Iterator) : Prop :=
  ∃ newSeed i₀, newStoragePlanIterator newSeed req = .ok i₀ ∧ Relation.ReflTransGen Used i₀ i

/-- A new iterator has nothing loaded, and its request keeps the inventory and the siblings. -/
theorem newStoragePlanIterator_sound {newSeed : Except String (BitVec 256)}
    {req : StoragePlanRequest}
    {i : Iterator} (h : newStoragePlanIterator newSeed req = .ok i) : Sound i ∧
      i.req.inventory = req.inventory ∧ i.req.siblingMemberBytes = req.siblingMemberBytes ∧
      i.req.siblingDomainBytes = req.siblingDomainBytes := by
  unfold newStoragePlanIterator at h
  obtain ⟨r, hr, h⟩ := bind_eq_ok.mp h
  split at h
  · cases h
  · cases h
    refine ⟨⟨fun o ho => (by cases ho), fun x hx => (by cases hx)⟩, ?_⟩
    unfold normalize at hr
    simp only [check_bind_eq_ok] at hr
    obtain ⟨-, -, -, hr⟩ := hr
    obtain ⟨_, -, hr⟩ := bind_eq_ok.mp hr
    obtain ⟨_, -, hr⟩ := bind_eq_ok.mp hr
    obtain ⟨_, -, hr⟩ := bind_eq_ok.mp hr
    obtain ⟨_, -, hr⟩ := bind_eq_ok.mp hr
    cases hr
    exact ⟨rfl, rfl, rfl⟩

/-- **Every reachable iterator is sound**, about the inventory and the siblings of the request.  By
induction over the calls, with `next_sound` as its step. -/
theorem Reached.sound {req : StoragePlanRequest} {i : Iterator} (h : Reached req i) : Sound i ∧
    i.req.inventory = req.inventory ∧ i.req.siblingMemberBytes = req.siblingMemberBytes ∧
    i.req.siblingDomainBytes = req.siblingDomainBytes := by
  obtain ⟨newSeed, i₀, hnew, hrun⟩ := h
  induction hrun with
  | refl => exact newStoragePlanIterator_sound hnew
  | tail _ hstep ih =>
    obtain ⟨hsound, hsame⟩ := ih
    cases hstep with
    | next env =>
      obtain ⟨hsound', hreq, -⟩ := next_sound env hsound
      rw [hreq]
      exact ⟨hsound', hsame⟩
    | submitted => exact ⟨⟨hsound.roots, hsound.active⟩, hsame⟩

end Iterator

/-! ## 4. The debit of a plan

At most three charges: the image, the primary disk, the ephemeral disk, under different names. -/

/-- A ledger grew by some charges, the last one first. -/
structure Grown (s : Snapshot) (l l' : Ledger) (cs : List Charge) : Prop where
  steps : Relation.ReflTransGen (PlanStep s) l l'
  held : l'.held = cs.map (recordOf s) ++ l.held
  good : ∀ c ∈ cs, Chargeable c ∧ Solid s c

namespace Grown

variable {s : Snapshot} {l l' l'' : Ledger} {c : Charge} {cs : List Charge}

theorem refl (l : Ledger) : Grown s l l [] := ⟨.refl, rfl, fun _ h => by cases h⟩

theorem cons (h : Grown s l l' cs) (hc : l'.withPlanned s c = .ok l'') :
    Grown s l l'' (c :: cs) where
  steps := h.steps.tail (.withPlanned c hc)
  held := by rw [withPlanned_held hc, h.held, List.map_cons, List.cons_append]
  good := List.forall_mem_cons.mpr ⟨⟨withPlanned_chargeable hc, withPlanned_solid hc⟩, h.good⟩

end Grown

/-- The charges of a plan: of the second disk, the primary disk and the image. -/
structure Debit (req : StoragePlanRequest) (root : PlanOption) (ep : Option PlanOption)
    (cs : List Charge) : Prop where
  grown : Grown req.inventory (Iterator.seeded req) (debited root ep) cs
  named : ∀ c ∈ cs, c.id = c.role
  distinct : (cs.map fun c => c.role).Nodup
  known : ∀ c ∈ cs, c.role = root.target.role ∨ c.role = storageRoleISO ∨
    ep.isSome ∧ c.role = storageRoleEphemeral
  node : ∀ c ∈ cs, c.node = root.target.node
  primary : ∃ limits, root.target.charge limits ∈ cs
  second : ∀ o ∈ ep, o.target.role = storageRoleEphemeral ∧ ∃ limits, o.target.charge limits ∈ cs

section Debit

variable {req : StoragePlanRequest} {root : PlanOption} {ep : Option PlanOption} {cs : List Charge}

/-- The image, if there is one. -/
theorem imaged_grown {base l : Ledger} {node : String} (h : Imaged req base node l) :
    ∃ cs, Grown req.inventory base l cs ∧ (cs = [] ∨ ∃ id, cs = [isoCharge req node id]) := by
  rcases h with rfl | ⟨id, h⟩
  · exact ⟨[], .refl l, .inl rfl⟩
  · exact ⟨[isoCharge req node id], (Grown.refl base).cons h, .inr ⟨id, rfl⟩⟩

theorem RootOffer.role_ne (h : RootOffer req root) :
    root.target.role ≠ storageRoleISO ∧ root.target.role ≠ storageRoleEphemeral := by
  rcases h.role with h | h
  · rw [h]
    decide
  · rw [h]
    decide

/-- A root without an ephemeral disk debits its own charge, and that of the ISO where there is
one. -/
theorem RootOffer.debit (hroot : RootOffer req root) : ∃ cs, Debit req root none cs := by
  obtain ⟨base, himage, -, ⟨limits, hadmitted⟩, -⟩ := hroot.offered.placed
  obtain ⟨cs, hgrown, hcs⟩ := imaged_grown himage
  have hne := hroot.role_ne.1
  refine ⟨root.target.charge limits :: cs, hgrown.cons hadmitted, ?_, ?_, ?_, ?_,
    ⟨limits, List.mem_cons_self⟩, fun o ho => by cases ho⟩
  · rcases hcs with rfl | ⟨id, rfl⟩
    · simp [StoragePlanTarget.charge]
    · simp [StoragePlanTarget.charge, isoCharge]
  · rcases hcs with rfl | ⟨id, rfl⟩
    · simp
    · simp [StoragePlanTarget.charge, isoCharge, hne]
  · rcases hcs with rfl | ⟨id, rfl⟩
    · simp [StoragePlanTarget.charge]
    · simp [StoragePlanTarget.charge, isoCharge]
  · rcases hcs with rfl | ⟨id, rfl⟩
    · simp [StoragePlanTarget.charge]
    · simp [StoragePlanTarget.charge, isoCharge]

/-- A continuation adds its charge. -/
theorem EpOffer.debit {o : PlanOption} (ho : EpOffer req root o) (hroot : RootOffer req root)
    (h : Debit req root none cs) : ∃ cs', Debit req root (some o) cs' := by
  obtain ⟨base, -, hbase, ⟨limits, hadmitted⟩, -⟩ := ho.placed
  rw [hbase rfl] at hadmitted
  have hrole : (o.target.charge limits).role = storageRoleEphemeral := ho.role_eq
  have hold : ∀ c ∈ cs, c.role = root.target.role ∨ c.role = storageRoleISO := by
    intro c hc
    rcases h.known c hc with hr | hr | ⟨hsome, -⟩
    · exact .inl hr
    · exact .inr hr
    · cases hsome
  refine ⟨o.target.charge limits :: cs, h.grown.cons hadmitted,
    List.forall_mem_cons.mpr ⟨rfl, h.named⟩, ?_, ?_, List.forall_mem_cons.mpr ⟨ho.node_eq, h.node⟩,
    ?_, ?_⟩
  · rw [List.map_cons]
    refine List.nodup_cons.mpr ⟨fun hmem => ?_, h.distinct⟩
    obtain ⟨c, hc, heq⟩ := List.mem_map.mp hmem
    rw [hrole] at heq
    rcases hold c hc with hr | hr
    · exact hroot.role_ne.2 (hr.symm.trans heq)
    · exact absurd (hr.symm.trans heq) (by decide)
  · refine List.forall_mem_cons.mpr ⟨.inr (.inr ⟨rfl, hrole⟩), fun c hc => ?_⟩
    rcases hold c hc with hr | hr
    · exact .inl hr
    · exact .inr (.inl hr)
  · obtain ⟨l, hl⟩ := h.primary
    exact ⟨l, List.mem_cons_of_mem _ hl⟩
  · intro x hx
    cases hx
    exact ⟨ho.role_eq, limits, List.mem_cons_self⟩

theorem exists_debit (hroot : RootOffer req root) (hep : ∀ o ∈ ep, EpOffer req root o) :
    ∃ cs, Debit req root ep cs := by
  obtain ⟨cs, hcs⟩ := hroot.debit
  cases ep with
  | none => exact ⟨cs, hcs⟩
  | some o => exact (hep o rfl).debit hroot hcs

namespace Debit

variable (h : Debit req root ep cs)

include h

/-- What the ledger of a plan holds. -/
theorem held_eq : (debited root ep).held = cs.map (recordOf req.inventory) := by
  rw [h.grown.held]
  exact List.append_nil _

theorem records_perm : (debited root ep).records.Perm (cs.map (recordOf req.inventory)) := by
  rw [← h.held_eq]
  exact List.mergeSort_perm _ _

/-- The charges are within every capacity and every domain, beside the siblings. -/
theorem within : Within req.inventory req.siblingMemberBytes req.siblingDomainBytes
    (debited root ep).records :=
  (Planned.reach h.grown.steps).within.perm (h.held_eq ▸ h.records_perm.symm)

theorem ids_nodup : (cs.map fun c => c.id).Nodup := by
  rw [List.map_congr_left h.named]
  exact h.distinct

/-- Every target of a plan has a charge, on the same node and storage. -/
theorem target {t : StoragePlanTarget} (ht : t ∈ planTargets req root ep) :
    ∃ c ∈ cs, t.node = c.node ∧ t.storageID = c.storageID := by
  unfold planTargets at ht
  rcases List.mem_append.mp ht with ht | ht
  · rcases List.mem_cons.mp ht with rfl | ht
    · obtain ⟨l, hl⟩ := h.primary
      exact ⟨_, hl, rfl, rfl⟩
    · obtain ⟨o, ho, rfl⟩ := List.mem_map.mp ht
      obtain ⟨-, l, hl⟩ := h.second o (Option.mem_toList.mp ho)
      exact ⟨_, hl, rfl, rfl⟩
  · obtain ⟨r, hr, rfl⟩ := List.mem_map.mp ht
    obtain ⟨c, hc, rfl⟩ := List.mem_map.mp (h.records_perm.mem_iff.mp (List.mem_of_mem_filter hr))
    exact ⟨c, hc, rfl, rfl⟩

/-- The root target among the targets: the primary one, if it is a root disk. -/
theorem find_root : (planTargets req root ep).find? (fun t => t.role == storageRoleRoot) =
    if root.target.role = storageRoleRoot then some root.target else none := by
  have hrest : ∀ t ∈ (ep.toList.map fun o => o.target) ++ isoTargets req (debited root ep).records,
      ¬ (t.role == storageRoleRoot) = true := by
    intro t ht hrole
    have hrole := eq_of_beq hrole
    rcases List.mem_append.mp ht with ht | ht
    · obtain ⟨o, ho, rfl⟩ := List.mem_map.mp ht
      rw [(h.second o (Option.mem_toList.mp ho)).1] at hrole
      exact absurd hrole (by decide)
    · obtain ⟨r, -, rfl⟩ := List.mem_map.mp ht
      exact absurd (show storageRoleISO = storageRoleRoot from hrole) (by decide)
  unfold planTargets
  rw [List.cons_append, List.find?_cons]
  split_ifs with hroot
  · rw [hroot, beq_self_eq_true]
  · rw [beq_eq_false_iff_ne.mpr hroot]
    exact List.find?_eq_none.mpr hrest

end Debit

end Debit

/-! ## 5. The split conserves the debit -/

/-- What is done to each record of a plan with a root source. -/
def executed (root : StoragePlanTarget) (source : StorageRootSource) (r : ChargeRecord) :
    List ChargeRecord :=
  if r.charge.role ≠ storageRoleRoot then [r] else splitRoot root source r

theorem executed_others {root : StoragePlanTarget} {source : StorageRootSource} :
    ∀ {rs : List ChargeRecord}, (∀ r ∈ rs, r.charge.role ≠ storageRoleRoot) →
      rs.flatMap (executed root source) = rs
  | [], _ => rfl
  | r :: rs, h => by
    obtain ⟨hr, hrs⟩ := List.forall_mem_cons.mp h
    rw [List.flatMap_cons, executed_others hrs, executed, if_pos hr, List.singleton_append]

/-- No subtraction, sum or product of the split wraps. -/
structure Exact (root : StoragePlanTarget) (source : StorageRootSource) : Prop where
  positive : 1 ≤ source.virtualBytes.toNat
  units : ((source.virtualBytes - 1) / gib + 1).toNat =
    (source.virtualBytes.toNat - 1) / gib.toNat + 1
  base : (baseBytes source).toNat = ((source.virtualBytes.toNat - 1) / gib.toNat + 1) * gib.toNat
  growth : (root.virtualBytes - baseBytes source).toNat =
    root.virtualBytes.toNat - (baseBytes source).toNat
  covered : (baseBytes source).toNat ≤ root.virtualBytes.toNat

/-- Under `Splits` the word arithmetic is exact: the base is rounded up to whole GiB without
wrapping, and it is not more than the root. -/
theorem Splits.exact {root : StoragePlanTarget} {source : StorageRootSource} {bytes : UInt64}
    (h : Splits root source bytes) : Exact root source := by
  have hsized := h.sized
  have hlt := source.virtualBytes.toNat_lt
  have hsub : (source.virtualBytes - 1).toNat = source.virtualBytes.toNat - 1 := by
    rw [UInt64.toNat_sub_of_le _ _ (by rw [UInt64.le_iff_toNat_le]; exact hsized)]
    rfl
  refine ⟨hsized, ?_, ?_, UInt64.toNat_sub_of_le _ _ (baseBytes_le h),
    UInt64.le_iff_toNat_le.mp (baseBytes_le h)⟩
  · rw [UInt64.toNat_add, UInt64.toNat_div, hsub, gib_toNat, show (1 : UInt64).toNat = 1 from rfl]
    omega
  · rw [baseBytes_toNat h, roundUp]
    have hquot : (source.virtualBytes.toNat + gib.toNat - 1) / gib.toNat =
        (source.virtualBytes.toNat - 1) / gib.toNat + 1 := by
      rw [gib_toNat]
      omega
    rw [hquot]

/-- The charges that replace a root charge are the root charge. -/
structure Conserved (r : ChargeRecord) (parts : List ChargeRecord) : Prop where
  ids : (parts.map fun p => p.charge.id).Nodup
  positive : ∀ p ∈ parts, 0 < p.charge.bytes.toNat
  capacityKey : ∀ p ∈ parts, p.capacityKey = r.capacityKey
  domainKey : ∀ p ∈ parts, p.domainKey = r.domainKey
  limits : ∀ p ∈ parts, p.charge.limits = r.charge.limits
  sum : (parts.map fun p => p.charge.bytes.toNat).sum = r.charge.bytes.toNat

/-- The portions of a root are positive, on its key, and add up to its charge. -/
theorem Splits.conserved {root : StoragePlanTarget} {source : StorageRootSource} {r : ChargeRecord}
    (h : Splits root source r.charge.bytes) : Conserved r (splitRoot root source r) where
  ids := splitRoot_ids root source r
  positive _ hp := splitRoot_positive hp
  capacityKey p hp := by
    obtain ⟨_, -, rfl⟩ := splitRoot_same hp
    rfl
  domainKey p hp := by
    obtain ⟨_, -, rfl⟩ := splitRoot_same hp
    rfl
  limits p hp := by
    obtain ⟨_, -, rfl⟩ := splitRoot_same hp
    rfl
  sum := splitRoot_sum h

section Split

variable {req : StoragePlanRequest} {root : PlanOption} {ep : Option PlanOption} {cs : List Charge}

/-- The one root charge among the records of a plan. -/
theorem Debit.root_record (h : Debit req root ep cs) (hrole : root.target.role = storageRoleRoot) :
    ∃ limits before after, (debited root ep).records =
        before ++ recordOf req.inventory (root.target.charge limits) :: after ∧
      (∀ r ∈ before ++ after, r.charge.role ≠ storageRoleRoot) ∧
      ∀ r ∈ before ++ after, ∃ c ∈ cs, r = recordOf req.inventory c := by
  obtain ⟨limits, hmem⟩ := h.primary
  have hin := h.records_perm.mem_iff.mpr (List.mem_map_of_mem hmem)
  obtain ⟨before, after, heq⟩ := List.append_of_mem hin
  have hdistinct : ((debited root ep).records.map fun r => r.charge.role).Nodup := by
    rw [(h.records_perm.map fun r => r.charge.role).nodup_iff, List.map_map]
    exact h.distinct
  rw [heq, (List.perm_middle.map _).nodup_iff, List.map_cons, List.nodup_cons] at hdistinct
  refine ⟨limits, before, after, heq, fun r hr hroot => hdistinct.1 ?_, fun r hr => ?_⟩
  · have hsame : (recordOf req.inventory (root.target.charge limits)).charge.role = r.charge.role :=
      hrole.trans hroot.symm
    rw [hsame]
    exact List.mem_map_of_mem hr
  · have hr' : r ∈ (debited root ep).records := by
      rw [heq]
      exact List.perm_middle.mem_iff.mpr (List.mem_cons_of_mem _ hr)
    obtain ⟨c, hc, rfl⟩ := List.mem_map.mp (h.records_perm.mem_iff.mp hr')
    exact ⟨c, hc, rfl⟩

/-- The charges of a plan with a root source. -/
theorem Debit.executed (h : Debit req root ep cs) (hrole : root.target.role = storageRoleRoot)
    {source : StorageRootSource} (hsource : root.target.source = some source)
    {before after : List ChargeRecord} {r : ChargeRecord}
    (heq : (debited root ep).records = before ++ r :: after)
    (hothers : ∀ r ∈ before ++ after, r.charge.role ≠ storageRoleRoot)
    (hr : r.charge.role = storageRoleRoot) :
    storagePlanExecutionCharges (debited root ep).records (planTargets req root ep) =
      before ++ splitRoot root.target source r ++ after := by
  obtain ⟨hbefore, hafter⟩ := List.forall_mem_append.mp hothers
  unfold storagePlanExecutionCharges
  rw [h.find_root, if_pos hrole]
  dsimp only
  rw [hsource]
  dsimp only
  change (debited root ep).records.flatMap (Storage.executed root.target source) = _
  rw [heq, List.flatMap_append, List.flatMap_cons, executed_others hbefore, executed_others hafter,
    Storage.executed, if_neg (not_not.mpr hr), List.append_assoc]

end Split

/-- **The split conserves the debit.**  Of every plan that `Next` returns with a root target and a
source: no value of the split wraps, every charge but the root charge stays as it is, and what
replaces the root charge has names of its own, bytes, the same capacity, domain and limits, and is
the root charge together.  The sizes of the root were checked when the option was made
(`rootSizes_splits`), so the subtractions are those of the naturals and the portions add up
(`splitRoot_sum`). -/
theorem executionCharges_conserve {req : StoragePlanRequest} {i : Iterator} (hi : i.Reached req)
    {env : Surroundings} {plan : StorageAllocationPlan} (h : (i.next env).1 = .ok plan)
    {root : StoragePlanTarget} {source : StorageRootSource}
    (hroot : roleTarget plan storageRoleRoot = some root) (hsource : root.source = some source) :
    ∃ group rejections option ep,
      plan = makePlan i.req.toStoragePlanRequest group rejections option ep ∧
      plan.charges = storagePlanExecutionCharges (debited option ep).records plan.targets ∧
      Exact root source ∧
      ∃ before after r, (debited option ep).records = before ++ r :: after ∧
        r.charge.role = storageRoleRoot ∧ r.charge.bytes = root.chargeBytes ∧
        (∀ x ∈ before ++ after, x.charge.role ≠ storageRoleRoot) ∧
        plan.charges = before ++ splitRoot root source r ++ after ∧
        Conserved r (splitRoot root source r) := by
  obtain ⟨hsound, -⟩ := hi.sound
  obtain ⟨-, -, hmade⟩ := Iterator.next_sound env hsound
  obtain ⟨group, rejections, option, ep, rfl, hoffer, hep⟩ := hmade plan h
  obtain ⟨cs, hdebit⟩ := exists_debit hoffer hep
  have hfind : roleTarget (makePlan i.req.toStoragePlanRequest group rejections option ep)
      storageRoleRoot = if option.target.role = storageRoleRoot then some option.target else none :=
    hdebit.find_root
  rw [hfind] at hroot
  split_ifs at hroot with hrole
  cases hroot
  obtain ⟨base, -, -, hplaced⟩ := hoffer.offered.placed
  obtain ⟨source', hsource', hsplits⟩ := hplaced.splits hrole
  rw [hsource, Option.some.injEq] at hsource'
  subst hsource'
  obtain ⟨limits, before, after, heq, hothers, -⟩ := hdebit.root_record hrole
  exact ⟨group, rejections, option, ep, rfl, rfl, hsplits.exact, before, after, _, heq, hrole, rfl,
    hothers, hdebit.executed hrole hsource heq hothers hrole,
    Splits.conserved (r := recordOf _ (option.target.charge limits)) hsplits⟩

/-- A role on the one storage of the samples. -/
def sampleRole (role : String) : StorageRoleSelection :=
  { role := role, kind := .pool, value := "nfs1" }

def sampleSelection : StoragePlacementSelection where
  root := some (sampleRole storageRoleRoot)
  ephemeral := some (sampleRole storageRoleEphemeral)
  root_role r hr := by
    cases hr
    rfl
  ephemeral_role r hr := by
    cases hr
    rfl
  persistent_role r hr := by cases hr

/-- One shared storage of sixteen gibibytes, fourteen of them free, in a domain of its own. -/
def sampleInventory : Snapshot where
  definitions := AList.singleton "nfs1"
    { name := "nfs1", type := "nfs", content := "images,iso", isShared := true,
      backingKey := "nfs://filer/a" }
  domainForID := AList.singleton "nfs1" "filer"
  nodes := ["pve1"]
  maxAge := 60
  pairs := AList.singleton ("pve1", "nfs1")
    { node := "pve1", storageID := "nfs1", backingKey := "nfs://filer/a",
      capacityKey := "nfs://filer/a", totalBytes := 17179869184, availableBytes := 15032385536,
      stamp := ⟨1, 7, 100, 110⟩ }
  backings := AList.singleton "nfs://filer/a"
    { key := "nfs://filer/a", totalBytes := 17179869184, availableBytes := 15032385536,
      reports := [⟨1, 7, 100, 110⟩] }
  domains := AList.singleton "filer"
    { name := "filer", members := ["nfs1"], capacityKeys := ["nfs://filer/a"],
      totalBytes := 17179869184, availableBytes := 15032385536, reports := [⟨1, 7, 100, 110⟩] }
  observedAt := 120
  keyed := by
    intro k p h _ hkey
    have hmem := AList.mem_lookup_iff.mp h
    rw [AList.singleton, List.mem_singleton] at hmem
    cases hmem
    exact absurd hkey (by decide)

/-- A root disk of three gibibytes from a template of two, a second disk and an image. -/
def samplePlanRequest : StoragePlanRequest where
  selection := sampleSelection
  inventory := sampleInventory
  groups := [{ az := "z1", nodes := ["pve1"] }]
  «namespace» := "director"
  allocationKey := "agent"
  seed := some 5
  rootBytes := 3000000000
  ephemeralBytes := 1000000000
  isoBytes := 400000
  sources := [
    { node := "pve1", storageID := "nfs1", volumeID := "nfs1:100/base", templateVMID := 100,
      virtualBytes := 1500000000, auxiliaryBytes := 5, scratchBytes := 7 }]
  originalISOStorage := "nfs1"
  siblingMemberBytes := AList.singleton "nfs://filer/a" 50
  searchBudget := 10

def sampleSurroundings : Surroundings where
  registry := ⟨(∅ : Map _ _).insert ⟨"spread", 1⟩ sampleStrategy⟩
  text := fun _ => ""
  utilizationPct := fun _ => .zero
  beyond := fun _ _ _ => false
  tick := fun _ => { now := 130 }

theorem executionCharges_conserve_sample : ∃ i plan root source,
    Iterator.Reached samplePlanRequest i ∧
    (i.next sampleSurroundings).1 = .ok plan ∧ roleTarget plan storageRoleRoot = some root ∧
    root.source = some source ∧ Exact root source := by
  have heval : (newStoragePlanIterator (.error "") samplePlanRequest).toOption.any (fun i =>
      (i.next sampleSurroundings).1.toOption.any fun plan =>
        (roleTarget plan storageRoleRoot).any fun t => t.source.isSome) = true := by
    decide +kernel
  obtain ⟨i, hi, heval⟩ := (Option.any_eq_true _ _).mp heval
  obtain ⟨plan, hplan, heval⟩ := (Option.any_eq_true _ _).mp heval
  obtain ⟨root, hroot, heval⟩ := (Option.any_eq_true _ _).mp heval
  obtain ⟨source, hsource⟩ := Option.isSome_iff_exists.mp heval
  have hreached : Iterator.Reached samplePlanRequest i := ⟨_, i, toOption_eq_some.mp hi, .refl⟩
  have hnext := toOption_eq_some.mp hplan
  obtain ⟨_, _, _, _, -, -, hexact, -⟩ := executionCharges_conserve hreached hnext hroot hsource
  exact ⟨i, plan, root, source, hreached, hnext, hroot, hsource, hexact⟩

/-! ## 6. A plan is feasible -/

/-- Without the siblings there is more room. -/
theorem Within.alone {s : Snapshot} {member domain : Map String UInt64} {rs : List ChargeRecord}
    (h : Within s member domain rs) : Within s ∅ ∅ rs where
  target := h.target
  valid := h.valid
  backing r hr := by
    obtain ⟨b, hb, hfit⟩ := h.backing r hr
    refine ⟨b, hb, ?_⟩
    unfold Fits at *
    rw [bytesAt_empty]
    omega
  domain r hr hd := by
    obtain ⟨d, hdom, hok, hfit⟩ := h.domain r hr hd
    refine ⟨d, hdom, hok, ?_⟩
    unfold Fits at *
    rw [bytesAt_empty]
    omega

/-- What the charges of a plan have to be. -/
structure Admissible (s : Snapshot) (member domain : Map String UInt64) (rs : List ChargeRecord) :
    Prop where
  within : Within s member domain rs
  recorded : ∀ r ∈ rs, r = recordOf s r.charge
  good : ∀ r ∈ rs, Chargeable r.charge ∧ Solid s r.charge
  ids : (rs.map fun r => r.charge.id).Nodup

/-- Admissible charges can be charged again in any order. -/
theorem Admissible.recharge {s : Snapshot} {member domain : Map String UInt64}
    {rs : List ChargeRecord}
    (h : Admissible s member domain rs) {cs : List Charge}
      (hcs : cs.Perm (rs.map fun r => r.charge)) :
    ∃ l, recharge s cs = .ok l := by
  refine replay (fun c hc => ?_) (h.within.alone.perm ?_) ?_
  · obtain ⟨r, hr, rfl⟩ := List.mem_map.mp (hcs.mem_iff.mp hc)
    exact h.good r hr
  · refine List.Perm.trans (.of_eq ?_) (hcs.map (recordOf s)).symm
    rw [List.map_map]
    exact (List.map_id rs).symm.trans (List.map_congr_left h.recorded)
  · rw [(hcs.map fun c => c.id).nodup_iff, List.map_map]
    exact h.ids

section Feasible

variable {req : StoragePlanRequest} {root : PlanOption} {ep : Option PlanOption} {cs : List Charge}

/-- The records that ranking debits are admissible. -/
theorem Debit.admissible (h : Debit req root ep cs) :
    Admissible req.inventory req.siblingMemberBytes
    req.siblingDomainBytes (debited root ep).records := by
  have hmem {r : ChargeRecord} (hr : r ∈ (debited root ep).records) :
      ∃ c ∈ cs, recordOf req.inventory c = r :=
    List.mem_map.mp (h.records_perm.mem_iff.mp hr)
  refine ⟨h.within, fun r hr => ?_, fun r hr => ?_, ?_⟩
  · obtain ⟨c, -, rfl⟩ := hmem hr
    rfl
  · obtain ⟨c, hc, rfl⟩ := hmem hr
    exact h.grown.good c hc
  · rw [(h.records_perm.map fun r => r.charge.id).nodup_iff, List.map_map]
    exact h.ids_nodup

/-- The names of the portions of a root disk. -/
def portionNames : List String := ["root_base", "root_growth", "root_auxiliary", "root_scratch"]

theorem splitRoot_named {t : StoragePlanTarget} {source : StorageRootSource} {r p : ChargeRecord}
    (hp : p ∈ splitRoot t source r) : p.charge.id ∈ portionNames := by
  obtain ⟨x, hx, rfl⟩ := splitRoot_same hp
  have hnames : (rootPortions t source).map (fun x => x.1) = portionNames := rfl
  rw [← hnames]
  exact List.mem_map_of_mem hx

theorem Splits.parts {t : StoragePlanTarget} {source : StorageRootSource} {r : ChargeRecord}
    (h : Splits t source r.charge.bytes) (hpos : r.charge.bytes ≠ 0) :
    Parts r (splitRoot t source r) := by
  refine ⟨fun p hp => ?_, fun hnil => hpos ?_, splitRoot_sum h⟩
  · obtain ⟨x, -, rfl⟩ := splitRoot_same hp
    exact ⟨rfl, rfl, rfl, rfl, rfl⟩
  · have hsum := splitRoot_sum (r := r) h
    rw [hnil] at hsum
    exact UInt64.toNat_inj.mp hsum.symm

/-- A portion of a charge is a charge. -/
theorem portion_good {s : Snapshot} {c : Charge} (h : Chargeable c ∧ Solid s c)
    {t : StoragePlanTarget} {source : StorageRootSource} {p : ChargeRecord}
    (hp : p ∈ splitRoot t source (recordOf s c)) :
    p = recordOf s p.charge ∧ Chargeable p.charge ∧ Solid s p.charge := by
  have hname := splitRoot_named hp
  have hpos := splitRoot_positive hp
  obtain ⟨x, -, rfl⟩ := splitRoot_same hp
  refine ⟨rfl, ⟨?_, h.1.role, fun h0 => ?_⟩, h.2.backing, h.2.domain⟩
  · have hall : ∀ name ∈ portionNames, nonblank name = true := by decide
    exact hall _ hname
  · rw [h0, UInt64.toNat_zero] at hpos
    exact absurd hpos (Nat.lt_irrefl 0)

/-- **The split keeps the charges admissible.** -/
theorem Debit.executed_admissible (h : Debit req root ep cs) (hoffer : RootOffer req root) :
    Admissible req.inventory req.siblingMemberBytes req.siblingDomainBytes
      (storagePlanExecutionCharges (debited root ep).records (planTargets req root ep)) := by
  have hwhole := h.admissible
  by_cases hrole : root.target.role = storageRoleRoot
  · obtain ⟨base, -, -, hplaced⟩ := hoffer.offered.placed
    obtain ⟨source, hsource, hsplits⟩ := hplaced.splits hrole
    obtain ⟨limits, before, after, heq, hothers, hfrom⟩ := h.root_record hrole
    rw [h.executed hrole hsource heq hothers hrole]
    rw [heq] at hwhole
    have hmove : (before ++ splitRoot root.target source
        (recordOf req.inventory (root.target.charge limits)) ++ after).Perm
        (splitRoot root.target source (recordOf req.inventory (root.target.charge limits)) ++
          (before ++ after)) := by
      rw [List.append_assoc]
      exact List.perm_append_comm_assoc _ _ _
    have hgood := hwhole.good _ (List.mem_append_right _ List.mem_cons_self)
    have hsplits' : Splits root.target source
        (recordOf req.inventory (root.target.charge limits)).charge.bytes := hsplits
    have hsame : ∀ x ∈ before ++ after, x ∈ before ++
        recordOf req.inventory (root.target.charge limits) :: after :=
      fun x hx => List.perm_middle.mem_iff.mpr (List.mem_cons_of_mem _ hx)
    refine ⟨?_, fun x hx => ?_, fun x hx => ?_, ?_⟩
    · exact ((hwhole.within.perm List.perm_middle).split (hsplits'.parts hgood.1.bytes)).perm
        hmove.symm
    · rcases List.mem_append.mp (hmove.mem_iff.mp hx) with hx | hx
      · exact (portion_good hgood hx).1
      · exact hwhole.recorded x (hsame x hx)
    · rcases List.mem_append.mp (hmove.mem_iff.mp hx) with hx | hx
      · exact (portion_good hgood hx).2
      · exact hwhole.good x (hsame x hx)
    · rw [(hmove.map _).nodup_iff, List.map_append]
      have hids := hwhole.ids
      rw [(List.perm_middle.map _).nodup_iff, List.map_cons, List.nodup_cons] at hids
      refine List.nodup_append.mpr ⟨splitRoot_ids _ _ _, hids.2, fun a ha b hb hab => ?_⟩
      obtain ⟨p, hp, rfl⟩ := List.mem_map.mp ha
      obtain ⟨x, hx, rfl⟩ := List.mem_map.mp hb
      obtain ⟨c, hc, rfl⟩ := hfrom x hx
      -- The other charges are named after their roles.
      have hname := splitRoot_named hp
      rw [hab, show (recordOf req.inventory c).charge.id = c.id from rfl, h.named c hc] at hname
      rcases h.known c hc with hr | hr | ⟨-, hr⟩
      · rw [hr, hrole] at hname
        exact absurd hname (by decide)
      · rw [hr] at hname
        exact absurd hname (by decide)
      · rw [hr] at hname
        exact absurd hname (by decide)
  · unfold storagePlanExecutionCharges
    rw [h.find_root, if_neg hrole]
    exact hwhole

end Feasible

/-- The charges of every plan are admissible, with the siblings of the request. -/
theorem plan_admissible {req : StoragePlanRequest} {i : Iterator} (hi : i.Reached req)
    {env : Surroundings} {plan : StorageAllocationPlan} (h : (i.next env).1 = .ok plan) :
    Admissible req.inventory req.siblingMemberBytes req.siblingDomainBytes plan.charges := by
  obtain ⟨hsound, hinventory, hmember, hdomain⟩ := hi.sound
  obtain ⟨-, -, hmade⟩ := Iterator.next_sound env hsound
  obtain ⟨group, rejections, root, ep, rfl, hoffer, hep⟩ := hmade plan h
  obtain ⟨cs, hdebit⟩ := exists_debit hoffer hep
  have hadm := hdebit.executed_admissible hoffer
  rw [hinventory, hmember, hdomain] at hadm
  exact hadm

/-- A plan charges something: the charge of its first target is there, whole or in portions. -/
theorem plan_charges_ne_nil {req : StoragePlanRequest} {i : Iterator} (hi : i.Reached req)
    {env : Surroundings} {plan : StorageAllocationPlan} (h : (i.next env).1 = .ok plan) :
    plan.charges ≠ [] := by
  obtain ⟨hsound, -⟩ := hi.sound
  obtain ⟨-, -, hmade⟩ := Iterator.next_sound env hsound
  obtain ⟨group, rejections, root, ep, rfl, hoffer, hep⟩ := hmade plan h
  obtain ⟨cs, hdebit⟩ := exists_debit hoffer hep
  have hcharges : (makePlan i.req.toStoragePlanRequest group rejections root ep).charges =
      storagePlanExecutionCharges (debited root ep).records
        (planTargets i.req.toStoragePlanRequest root ep) := rfl
  rw [hcharges]
  by_cases hrole : root.target.role = storageRoleRoot
  · obtain ⟨base, -, -, hplaced⟩ := hoffer.offered.placed
    obtain ⟨source, hsource, hsplits⟩ := hplaced.splits hrole
    obtain ⟨limits, before, after, heq, hothers, -⟩ := hdebit.root_record hrole
    have hwhole := hdebit.admissible
    rw [heq] at hwhole
    have hgood := hwhole.good _ (List.mem_append_right _ List.mem_cons_self)
    have hparts : Parts (recordOf i.req.toStoragePlanRequest.inventory (root.target.charge limits))
        (splitRoot root.target source (recordOf i.req.toStoragePlanRequest.inventory
          (root.target.charge limits))) := Splits.parts hsplits hgood.1.bytes
    rw [hdebit.executed hrole hsource heq hothers hrole]
    intro hnil
    rw [List.append_eq_nil_iff, List.append_eq_nil_iff] at hnil
    exact hparts.nonempty hnil.1.2
  · unfold storagePlanExecutionCharges
    rw [hdebit.find_root, if_neg hrole]
    obtain ⟨limits, hmem⟩ := hdebit.primary
    exact List.ne_nil_of_mem (hdebit.records_perm.mem_iff.mpr (List.mem_map_of_mem hmem))

/-- On every capacity and every domain that they charge, admissible charges are within the usable
bytes. -/
theorem Admissible.usable {s : Snapshot} {member domain : Map String UInt64}
    {rs : List ChargeRecord} (h : Admissible s member domain rs) :
    (∀ key, (∃ r ∈ rs, r.capacityKey = key) → ∃ b, s.backing key = some b ∧
      charged (onKey key) rs + (bytesAt member key).toNat ≤
        usableBytes b.totalBytes b.availableBytes (boundBy (onKey key) rs)) ∧
    ∀ key, key ≠ "" → (∃ r ∈ rs, r.domainKey = key) → ∃ d, s.domain key = some d ∧
      charged (onDomain key) rs + (bytesAt domain key).toNat ≤
        usableBytes d.totalBytes d.availableBytes (boundBy (onDomain key) rs) := by
  constructor
  · rintro key ⟨r, hr, rfl⟩
    exact h.within.backing r hr
  · rintro key hkey ⟨r, hr, rfl⟩
    obtain ⟨d, hdom, -, hfit⟩ := h.within.domain r hr hkey
    exact ⟨d, hdom, hfit⟩

/-- **A plan is feasible.**  Of every plan that any call of `Next` returns for an accepted request:
on every capacity and every domain that it charges, its charges and the bytes of the siblings are
within the usable bytes under the strictest of their limits; its node reaches every target; and its
charges can be charged one by one on an empty ledger, in any order.  The ledger of the plan grew by
admitted charges, so they are within everything (`Debit.within`); the split keeps that, and charges
that fit can be charged again in any order. -/
theorem plan_feasible {req : StoragePlanRequest} {i : Iterator} (hi : i.Reached req)
    {env : Surroundings} {plan : StorageAllocationPlan} (h : (i.next env).1 = .ok plan) :
    (∀ key, (∃ r ∈ plan.charges, r.capacityKey = key) → ∃ b, req.inventory.backing key = some b ∧
      charged (onKey key) plan.charges + (bytesAt req.siblingMemberBytes key).toNat ≤
        usableBytes b.totalBytes b.availableBytes (boundBy (onKey key) plan.charges)) ∧
    (∀ key, key ≠ "" → (∃ r ∈ plan.charges, r.domainKey = key) →
      ∃ d, req.inventory.domain key = some d ∧
        charged (onDomain key) plan.charges + (bytesAt req.siblingDomainBytes key).toNat ≤
          usableBytes d.totalBytes d.availableBytes (boundBy (onDomain key) plan.charges)) ∧
    (∀ t ∈ plan.targets, t.node = plan.node ∧ accessible req.inventory plan.node t.storageID =
      .ok ()) ∧
    ∀ cs, cs.Perm (plan.charges.map fun r => r.charge) →
      ∃ l, recharge req.inventory cs = .ok l := by
  have hadm := plan_admissible hi h
  refine ⟨hadm.usable.1, hadm.usable.2, fun t ht => ?_, fun cs' hcs' => hadm.recharge hcs'⟩
  · obtain ⟨hsound, hinventory, -⟩ := hi.sound
    obtain ⟨-, -, hmade⟩ := Iterator.next_sound env hsound
    obtain ⟨group, rejections, root, ep, rfl, hoffer, hep⟩ := hmade plan h
    obtain ⟨cs, hdebit⟩ := exists_debit hoffer hep
    obtain ⟨c, hc, hnode, hstorage⟩ := hdebit.target ht
    have hplan : t.node = root.target.node := hnode.trans (hdebit.node c hc)
    refine ⟨hplan, ?_⟩
    have hrecord := hdebit.records_perm.mem_iff.mpr (List.mem_map_of_mem hc)
    obtain ⟨p, hpair, hreason, -⟩ := hdebit.within.target _ hrecord
    have hpair' : req.inventory.pair root.target.node t.storageID = some p := by
      rw [← hinventory, hstorage, ← hdebit.node c hc]
      exact hpair
    unfold accessible
    rw [show (makePlan i.req.toStoragePlanRequest group rejections root ep).node = root.target.node
      from rfl, hpair']
    simp [hreason]

theorem plan_feasible_sample : ∃ i plan l, Iterator.Reached samplePlanRequest i ∧
    (i.next sampleSurroundings).1 = .ok plan ∧
    recharge sampleInventory (plan.charges.map fun r => r.charge).reverse = .ok l := by
  have heval : (newStoragePlanIterator (.error "") samplePlanRequest).toOption.any (fun i =>
      (i.next sampleSurroundings).1.toOption.isSome) = true := by
    decide +kernel
  obtain ⟨i, hi, heval⟩ := (Option.any_eq_true _ _).mp heval
  obtain ⟨plan, hplan⟩ := Option.isSome_iff_exists.mp heval
  have hreached : Iterator.Reached samplePlanRequest i := ⟨_, i, toOption_eq_some.mp hi, .refl⟩
  have hnext := toOption_eq_some.mp hplan
  obtain ⟨l, hl⟩ := (plan_feasible hreached hnext).2.2.2 _ (List.reverse_perm _)
  exact ⟨i, plan, l, hreached, hnext, hl⟩

end Storage
