/-
# Reverting a rule write

`revert` undoes the writes that one `Apply` recorded.  Only the first undo of an ID matters: it
brings the rule back to what it was before, and the later ones find it there.

The argument rests on what `Apply` records.  Outside of the recorded IDs the rules are as they were
(`Kept`), because a write that is not recorded had no effect: its error was taken for a refusal, or
a read showed that the rule was not the one that was meant.  The second half needs that the rule a
write leaves reads back as the one that was meant (`landedOn_of_takes`), and a partial update does
that only for rules with a positive or a negative affinity.

Three things are not promised, and `Candid` and the hypotheses of `revert_restores` say so: that a
refusal of the API had no effect, that a rule it reports missing is missing, and that a held write
is recorded although it could not be read back.

## The shape of the proof

`Apply` and `revert` are two programs one after the other on one server, with a recorded list
between them.  `KeptBut` relates the server to the first rules outside of the recorded IDs, along
all of `Apply`; `revertLoop_spec` brings the recorded IDs back one by one and keeps those that are
back.  A later undo of an ID that is back already is harmless: its target is the same rule.

Both halves use one specification of a write (`writeOnce_spec` for `revert`, `writeFirst_spec` for
`Apply`): when it says that it landed, the rule on the server reads back as the one that was meant,
and no other rule has changed.
-/
import PveCpi.Ha.RuleWriter

namespace Ha

open Lib.Interleave
open Lib.Service

/-! ## 1. Rules that match -/

theorem sameNodes_refl (m : AList fun _ : String => Int) : sameNodes m m = true := by
  rw [sameNodes, Bool.and_eq_true]
  refine ⟨decide_eq_true rfl, List.all_eq_true.mpr fun e he => decide_eq_true ?_⟩
  exact AList.mem_lookup_iff.mpr he

/-- `SameRule`, field by field. -/
theorem sameRule_iff {want got : Rule} : sameRule (some want) (some got) = true ↔
    want.type = got.type ∧ want.disabled = got.disabled ∧ want.resources = got.resources ∧
      want.comment = got.comment ∧ want.affinity = got.affinity ∧
      (want.type = ruleTypeNodeAffinity → want.strict = got.strict ∧
        sameNodes want.nodes got.nodes = true) := by
  simp only [sameRule, Bool.and_eq_true, Bool.or_eq_true, decide_eq_true_eq, and_assoc,
    ruleTypeNodeAffinity, ne_eq, ← imp_iff_not_or]

/-- A rule whose affinity the partial update of a node-affinity rule can carry. -/
def HasAffinity (r : Rule) : Prop := r.affinity = affinityPositive ∨ r.affinity = affinityNegative

def AllHaveAffinity (s : Server) : Prop := ∀ id r, s.lookup id = some r → HasAffinity (readRule r)

/-! ## 2. Reads -/

theorem mem_of_find {set : RuleSet} {id : String} {r : ListedRule} (h : set.find id = some r) :
    r ∈ set.rules ∧ r.id = id := by
  unfold RuleSet.find at h
  have hid := List.find?_some h
  exact ⟨List.mem_of_find?_eq_some h, of_decide_eq_true hid⟩

/-- Looking a rule up in a listing is looking it up on the server, as far as a listing shows it. -/
theorem find_of_reads {s : Server} {set : RuleSet} (h : Reads s set) (id : String) :
    (set.find id).map ListedRule.toRule = (s.lookup id).map readRule := by
  have hmem : ∀ r ∈ set.rules, (s.lookup r.id).map readRule = some r.toRule := by
    intro r hr
    have hin := h.mem_iff.mp (List.mem_map_of_mem hr)
    obtain ⟨e, he, heq⟩ := List.mem_map.mp hin
    obtain ⟨id', raw⟩ := e
    injection heq with hid hrule
    rw [← hid, AList.mem_lookup_iff.mpr he]
    exact congrArg some hrule
  cases hfind : set.find id with
  | some r =>
    obtain ⟨hr, hid⟩ := mem_of_find hfind
    rw [Option.map_some, ← hmem r hr, hid]
  | none =>
    cases hlookup : s.lookup id with
    | none => rfl
    | some raw =>
      have hin := h.mem_iff.mpr (List.mem_map_of_mem (AList.mem_lookup_iff.mp hlookup))
      obtain ⟨r, hr, heq⟩ := List.mem_map.mp hin
      injection heq with hid hrule
      exact absurd (decide_eq_true hid) (List.find?_eq_none.mp hfind r hr)

/-- The server shows the result of a write. -/
def LandedOn (op : RuleOp) (s : Server) : Prop :=
  match op.kind with
  | .delete => s.lookup op.rule.id = none
  | _ =>
    ∃ r, s.lookup op.rule.id = some r ∧ sameRule (some op.rule.toRule) (some (readRule r)) = true

/-- Whether a write has landed can be decided from a listing: a delete has when the rule is gone,
any other write when the rule that is shown is the same rule. -/
theorem landed_iff {s : Server} {set : RuleSet} (h : Reads s set) (op : RuleOp) :
    landed op set = true ↔ LandedOn op s := by
  have hfind := find_of_reads h op.rule.id
  have hother :
      ((set.find op.rule.id).any fun got => sameRule (some op.rule.toRule) (some got.toRule)) =
        true ↔
      ∃ r, s.lookup op.rule.id = some r ∧ sameRule (some op.rule.toRule) (some (readRule r)) =
        true := by
    cases hlookup : s.lookup op.rule.id with
    | none =>
      rw [hlookup] at hfind
      rw [Option.map_eq_none_iff.mp hfind]
      simp
    | some raw =>
      rw [hlookup, Option.map_some] at hfind
      obtain ⟨r, hr, hrule⟩ := Option.map_eq_some_iff.mp hfind
      rw [hr, Option.any_some, hrule]
      simp
  unfold landed LandedOn
  cases op.kind with
  | create => exact hother
  | update => exact hother
  | delete =>
    rw [Option.isNone_iff_eq_none, ← Option.map_eq_none_iff, hfind, Option.map_eq_none_iff]

/-! ## 3. What a write leaves

The only rules for which a partial update could leave a field behind are those whose affinity is
neither positive nor negative; the API has no such rules, and the planner makes none. -/

/-- The call of `send`. -/
def sentCall (set : RuleSet) (op : RuleOp) : RuleCall :=
  match op.kind with
  | .delete => .delete op.rule.id
  | .create => .create (createParams op.rule)
  | .update => .update op.rule.id (updateParams set op.rule)

/-- The rule of a write in the shape a read returns. -/
def Normal (r : ListedRule) : Prop := trimmed r.resources = r.resources

theorem normal_normalizeRule (r : ListedRule) : Normal (normalizeRule r) :=
  trimmed_trimmed r.resources

/-- A rule whose affinity is not negative has a positive one. -/
theorem HasAffinity.eq_positive {r : Rule} (h : HasAffinity r)
    (hneg : r.affinity ≠ affinityNegative) : r.affinity = affinityPositive := h.resolve_right hneg

theorem HasAffinity.ne_empty {r : Rule} (h : HasAffinity r) : r.affinity ≠ "" := by
  rcases h with h | h <;> rw [h] <;> decide

/-- **The rule that a POST creates reads back.** -/
theorem sameRule_made {r : ListedRule} (hr : Normal r) (ha : HasAffinity r.toRule) :
    sameRule (some r.toRule) (some (readRule (createParams r).made)) = true := by
  have hne := ha.ne_empty
  refine sameRule_iff.mpr ⟨rfl, ?_, hr.symm, ?_, ?_, fun htype => ?_⟩
  · cases hd : r.disabled <;> simp [readRule, CreateParams.made, createParams, hd]
  · by_cases hc : r.comment = "" <;> simp [readRule, CreateParams.made, createParams, hc]
  · by_cases htype : r.type = ruleTypeNodeAffinity
    · by_cases hneg : r.affinity = affinityNegative
      · simp [readRule, CreateParams.made, createParams, htype, hneg, affinityNegative]
      · have hread : (readRule (createParams r).made).affinity = affinityPositive := by
          simp [readRule, CreateParams.made, createParams, htype, hneg]
        rw [hread, ha.eq_positive hneg]
    · simp [readRule, CreateParams.made, createParams, htype, hne]
  · have hstrict : (createParams r).made.strict = r.strict := by
      simp [CreateParams.made, createParams, htype]
    have hnodes : (createParams r).made.nodes = r.nodes := by
      simp [CreateParams.made, createParams, htype]
    refine ⟨hstrict.symm, ?_⟩
    show sameNodes r.nodes (createParams r).made.nodes = true
    rw [hnodes]
    exact sameNodes_refl _

/-- **A partial update of a rule that was read makes it the rule that was meant.** -/
theorem sameRule_onto {s : Server} {set : RuleSet} {r : ListedRule} {raw : Rule}
    (hread : Reads s set)
    (hraw : s.lookup r.id = some raw) (hr : Normal r) (ha : HasAffinity r.toRule)
    (hold : HasAffinity (readRule raw)) :
    sameRule (some r.toRule) (some (readRule ((updateParams set r).onto raw))) = true := by
  have hfind := find_of_reads hread r.id
  rw [hraw, Option.map_some] at hfind
  obtain ⟨prev, hprev, hrule⟩ := Option.map_eq_some_iff.mp hfind
  have hcomment : prev.comment = raw.comment := (congrArg Rule.comment hrule).trans rfl
  have hdisabled : prev.disabled = raw.disabled := (congrArg Rule.disabled hrule).trans rfl
  have haffinity : prev.affinity = (readRule raw).affinity := congrArg Rule.affinity hrule
  have hne := ha.ne_empty
  refine sameRule_iff.mpr ⟨rfl, ?_, hr.symm, ?_, ?_, fun htype => ?_⟩
  · cases hd : r.disabled <;> cases hraw : raw.disabled <;>
      simp [readRule, UpdateRuleParams.onto, updateParams, hprev, hd, hdisabled, hraw]
  · by_cases hc : r.comment = ""
    · by_cases hrawc : raw.comment = "" <;>
        simp [readRule, UpdateRuleParams.onto, updateParams, hprev, hc, hcomment, hrawc]
    · simp [readRule, UpdateRuleParams.onto, updateParams, hc]
  · by_cases htype : r.type = ruleTypeNodeAffinity
    · by_cases hneg : r.affinity = affinityNegative ∨ prev.affinity = affinityNegative
      · simp [readRule, UpdateRuleParams.onto, updateParams, htype, hprev, hneg, hne]
      · -- Both are positive, and the affinity is left as it is.
        rw [not_or, haffinity] at hneg
        have hkept : ((updateParams set r).onto raw).affinity = raw.affinity := by
          simp [UpdateRuleParams.onto, updateParams, htype, hprev, haffinity, hneg]
        have hpos := hold.eq_positive hneg.2
        have hread : (readRule ((updateParams set r).onto raw)).affinity = affinityPositive := by
          show (if r.type = ruleTypeNodeAffinity ∧
            ((updateParams set r).onto raw).affinity = "" then
            affinityPositive else ((updateParams set r).onto raw).affinity) = affinityPositive
          rw [hkept]
          unfold readRule at hpos
          dsimp only at hpos
          split
          · rfl
          · rename_i hset
            split at hpos
            · rename_i hempty
              exact absurd ⟨htype, hempty.2⟩ hset
            · exact hpos
        rw [hread, ha.eq_positive hneg.1]
    · simp [readRule, UpdateRuleParams.onto, updateParams, htype, hne]
  · have hstrict : ((updateParams set r).onto raw).strict = r.strict := by
      simp [UpdateRuleParams.onto, updateParams, htype]
    have hnodes : ((updateParams set r).onto raw).nodes = r.nodes := by
      simp [UpdateRuleParams.onto, updateParams, htype]
    refine ⟨hstrict.symm, ?_⟩
    show sameNodes r.nodes ((updateParams set r).onto raw).nodes = true
    rw [hnodes]
    exact sameNodes_refl _

/-- A write only touches its rule. -/
theorem lookup_of_takes {s t : Server} {set : RuleSet} {op : RuleOp}
    (h : Takes s (sentCall set op) t)
    {id : String} (hid : id ≠ op.rule.id) : t.lookup id = s.lookup id := by
  unfold sentCall at h
  cases hkind : op.kind with
  | create =>
    rw [hkind] at h
    cases h
    exact AList.lookup_insert_ne hid
  | update =>
    rw [hkind] at h
    cases h
    exact AList.lookup_insert_ne hid
  | delete =>
    rw [hkind] at h
    cases h
    exact AList.lookup_erase_ne hid

/-- A write that can be meant: its rule is normal and has an affinity. -/
structure Meant (op : RuleOp) : Prop where
  normal : Normal op.rule
  affinity : op.kind ≠ .delete → HasAffinity op.rule.toRule

/-- **What takes effect has landed.** -/
theorem landedOn_of_takes {s t : Server} {set : RuleSet} {op : RuleOp} (hread : Reads s set)
    (hop : Meant op)
    (hall : AllHaveAffinity s) (h : Takes s (sentCall set op) t) : LandedOn op t := by
  unfold sentCall at h
  unfold LandedOn
  cases hkind : op.kind with
  | create =>
    rw [hkind] at h
    cases h
    exact ⟨_, AList.lookup_insert _, sameRule_made hop.normal (hop.affinity (by rw [hkind]; nofun))⟩
  | update =>
    rw [hkind] at h
    cases h with
    | update p hraw =>
      refine ⟨_, AList.lookup_insert _, ?_⟩
      exact sameRule_onto hread hraw hop.normal (hop.affinity (by rw [hkind]; nofun))
        (hall _ _ hraw)
  | delete =>
    rw [hkind] at h
    cases h
    exact AList.lookup_erase _ _

/-- The CPI writes an affinity into every rule, so the rules keep having one. -/
theorem allHaveAffinity_of_takes {s t : Server} {set : RuleSet} {op : RuleOp} (hread : Reads s set)
    (hop : Meant op) (hall : AllHaveAffinity s) (h : Takes s (sentCall set op) t) :
    AllHaveAffinity t := by
  intro id r hr
  by_cases hid : id = op.rule.id
  · have hlanded := landedOn_of_takes hread hop hall h
    unfold LandedOn at hlanded
    subst hid
    have hother : op.kind ≠ .delete → (∃ r, t.lookup op.rule.id = some r ∧
        sameRule (some op.rule.toRule) (some (readRule r)) = true) → HasAffinity (readRule r) := by
      rintro hkind ⟨r', hr', hsame⟩
      rw [hr] at hr'
      cases hr'
      have haff := (sameRule_iff.mp hsame).2.2.2.2.1
      unfold HasAffinity
      rw [← haff]
      exact hop.affinity hkind
    cases hkind : op.kind with
    | create =>
      rw [hkind] at hlanded hother
      exact hother nofun hlanded
    | update =>
      rw [hkind] at hlanded hother
      exact hother nofun hlanded
    | delete =>
      rw [hkind] at hlanded
      rw [hlanded] at hr
      cases hr
  · rw [lookup_of_takes h hid] at hr
    exact hall id r hr

/-! ## 4. Answers that can be relied on

`Candid` says of a refusal that nothing took effect and of a missing rule that it is missing. -/

/-- What the writer relies on: an error that it takes for a conflict or a refusal is one, so that
the call had no effect; a rule that a delete did not find is not there; and the planner asks for
rules with an affinity. -/
def Candid : Serve RuleCall RuleCall.Ans Server
  | s, .create _, a, t =>
    classifyRuleWrite .create a = .conflict ∨ classifyRuleWrite .create a = .rejected → t = s
  | s, .update _ _, a, t =>
    classifyRuleWrite .update a = .conflict ∨ classifyRuleWrite .update a = .rejected → t = s
  | s, .delete id, a, t =>
    (classifyRuleWrite .delete a = .conflict ∨ classifyRuleWrite .delete a = .rejected → t = s) ∧
      (classifyRuleWrite .delete a = .landed → t.lookup id = none)
  | _, .plan _, .ok ops, _ =>
    ∀ op ∈ ops, op.kind ≠ .delete → HasAffinity (normalizeRule op.rule).toRule
  | _, _, _, _ => True

/-- The service with answers that can be relied on. -/
def servesCandidly : Serve RuleCall RuleCall.Ans Server :=
  fun s c a t => serves s c a t ∧ Candid s c a t

/-- What is known after a write was sent. -/
structure Sent (set : RuleSet) (op : RuleOp) (s : Server) (a : Option RuleErr) (t : Server) :
    Prop where
  either : t = s ∨ Takes s (sentCall set op) t
  done : a = none → Takes s (sentCall set op) t
  refused : classifyRuleWrite op.kind a = .conflict ∨ classifyRuleWrite op.kind a = .rejected →
    t = s
  gone : op.kind = .delete → classifyRuleWrite op.kind a = .landed → t.lookup op.rule.id = none

/-- The rule for `send`. -/
theorem Holds.sent {α : Type} {Inv : Server → Prop} {set : RuleSet} {op : RuleOp} {s : Server}
    {f : Option RuleErr → RuleProg α} {R : α → Server → Prop} (hs : Inv s)
    (hf : ∀ a t, Sent set op s a t → Holds servesCandidly Inv (f a) R t) :
    Holds servesCandidly Inv (send set op >>= f) R s := by
  unfold send
  cases hkind : op.kind with
  | create =>
    refine Holds.perform hs fun a t ha => hf a t ?_
    have hcall : sentCall set op = .create (createParams op.rule) := by rw [sentCall, hkind]
    refine ⟨?_, ?_, by rw [hkind]; exact ha.2, by rw [hkind]; nofun⟩
    · rw [hcall]
      cases a with
      | none => exact .inr ha.1
      | some e => exact ha.1
    · rintro rfl
      rw [hcall]
      exact ha.1
  | update =>
    refine Holds.perform hs fun a t ha => hf a t ?_
    have hcall : sentCall set op = .update op.rule.id (updateParams set op.rule) := by
      rw [sentCall, hkind]
    refine ⟨?_, ?_, by rw [hkind]; exact ha.2, by rw [hkind]; nofun⟩
    · rw [hcall]
      cases a with
      | none => exact .inr ha.1
      | some e => exact ha.1
    · rintro rfl
      rw [hcall]
      exact ha.1
  | delete =>
    refine Holds.perform hs fun a t ha => hf a t ?_
    have hcall : sentCall set op = .delete op.rule.id := by rw [sentCall, hkind]
    refine ⟨?_, ?_, by rw [hkind]; exact ha.2.1, by rw [hkind]; exact fun _ => ha.2.2⟩
    · rw [hcall]
      cases a with
      | none => exact .inr ha.1
      | some e => exact ha.1
    · rintro rfl
      rw [hcall]
      exact ha.1

/-- The rule for a read. -/
theorem Holds.read {α : Type} {Inv : Server → Prop} {s : Server}
    {f : Except RuleErr RuleSet → RuleProg α}
    {R : α → Server → Prop} (hs : Inv s) (herr : ∀ e, Holds servesCandidly Inv (f (.error e)) R s)
    (hok : ∀ set, Reads s set → Holds servesCandidly Inv (f (.ok set)) R s) :
    Holds servesCandidly Inv (readRules >>= f) R s := by
  refine Holds.perform hs fun a t ha => ?_
  cases a with
  | error e =>
    obtain rfl : t = s := ha.1
    exact herr e
  | ok set =>
    obtain ⟨⟨rfl, hread⟩, -⟩ := ha
    exact hok set hread

theorem Holds.sleep {α : Type} {Inv : Server → Prop} {s : Server} {attempt : Nat}
    {f : Option RuleErr → RuleProg α} {R : α → Server → Prop} (hs : Inv s)
    (hf : ∀ a, Holds servesCandidly Inv (f a) R s) :
      Holds servesCandidly Inv (sleepBefore attempt >>= f) R s := by
  refine Holds.perform hs fun a t ha => ?_
  obtain rfl : t = s := ha.1
  exact hf a

/-! ## 5. One write of `revert` -/

/-- Outside of one ID the rules are those of another state. -/
def SameBut (id : String) (s t : Server) : Prop :=
  ∀ other, other ≠ id → t.lookup other = s.lookup other

theorem SameBut.trans {id : String} {s t u : Server} (h : SameBut id s t) (h' : SameBut id t u) :
    SameBut id s u := fun other hne => (h' other hne).trans (h other hne)

theorem Sent.sameBut {set : RuleSet} {op : RuleOp} {s t : Server} {a : Option RuleErr}
    (h : Sent set op s a t) : SameBut op.rule.id s t := by
  intro other hne
  rcases h.either with rfl | htakes
  · rfl
  · exact lookup_of_takes htakes hne

theorem Sent.allHaveAffinity {set : RuleSet} {op : RuleOp} {s t : Server} {a : Option RuleErr}
    (h : Sent set op s a t) (hread : Reads s set) (hop : Meant op) (hall : AllHaveAffinity s) :
    AllHaveAffinity t := by
  rcases h.either with rfl | htakes
  · exact hall
  · exact allHaveAffinity_of_takes hread hop hall htakes

/-- An error is taken for a landed write of a delete only. -/
theorem eq_delete_of_landed {kind : OpKind} {e : RuleErr}
    (h : classifyRuleWrite kind (some e) = .landed) : kind = .delete := by
  rw [classifyRuleWrite] at h
  split at h
  · cases h
  split at h
  · rename_i hboth
    exact of_decide_eq_true ((Bool.and_eq_true _ _).mp hboth).1
  split at h
  · cases h
  split at h
  · cases h
  split at h <;> cases h

/-- A write that is taken for landed has landed. -/
theorem Sent.landedOn {set : RuleSet} {op : RuleOp} {s t : Server} {a : Option RuleErr}
    (h : Sent set op s a t) (hread : Reads s set) (hop : Meant op) (hall : AllHaveAffinity s)
    (hclass : classifyRuleWrite op.kind a = .landed) : LandedOn op t := by
  cases a with
  | none => exact landedOn_of_takes hread hop hall (h.done rfl)
  | some e =>
    have hdelete := eq_delete_of_landed hclass
    unfold LandedOn
    rw [hdelete]
    exact h.gone hdelete hclass

/-- What a call of `writeOnce` leaves. -/
def WroteOnce (op : RuleOp) (s : Server) (res : Option RuleErr) (t : Server) : Prop :=
  SameBut op.rule.id s t ∧ (res = none → LandedOn op t)

/-- One attempt to write a rule.  The answer of the call is not believed: a listing behind it
decides, and all other rules are left alone. -/
theorem writeAttempt_spec {op : RuleOp} (hop : Meant op) {s₀ s : Server} (hall : AllHaveAffinity s)
    (hsame : SameBut op.rule.id s₀ s) (attempt : Nat) {again : Option (RuleProg (Option RuleErr))}
    (hagain : ∀ next, again = some next → ∀ t, AllHaveAffinity t → SameBut op.rule.id s₀ t →
      Holds servesCandidly AllHaveAffinity next (WroteOnce op s₀) t) :
    Holds servesCandidly AllHaveAffinity (writeAttempt op attempt again) (WroteOnce op s₀) s := by
  unfold writeAttempt
  refine Holds.read hall (fun e => ⟨hall, hsame, nofun⟩) fun set hread => ?_
  dsimp only
  split
  · rename_i hlanded
    exact ⟨hall, hsame, fun _ => (landed_iff hread op).mp hlanded⟩
  refine Holds.sent hall fun a t hsent => ?_
  have hall' := hsent.allHaveAffinity hread hop hall
  have hsame' := hsame.trans hsent.sameBut
  cases hclass : classifyRuleWrite op.kind a with
  | landed => exact ⟨hall', hsame', fun _ => hsent.landedOn hread hop hall hclass⟩
  | rejected =>
    refine ⟨hall', hsame', fun hnone => ?_⟩
    rw [hnone] at hclass
    cases hclass
  | conflict =>
    have hsome : a ≠ none := by
      rintro rfl
      cases hclass
    cases again with
    | none => exact ⟨hall', hsame', fun hnone => absurd hnone hsome⟩
    | some next =>
      refine Holds.sleep hall' fun b => ?_
      cases b with
      | some e => exact ⟨hall', hsame', nofun⟩
      | none => exact hagain next rfl t hall' hsame'
  | held =>
    have hsome : a ≠ none := by
      rintro rfl
      cases hclass
    refine Holds.read hall' (fun e => ⟨hall', hsame', nofun⟩) fun fresh hfresh => ?_
    dsimp only
    split
    · rename_i hlanded
      exact ⟨hall', hsame', fun _ => (landed_iff hfresh op).mp hlanded⟩
    · cases again with
      | none => exact ⟨hall', hsame', fun hnone => absurd hnone hsome⟩
      | some next => exact hagain next rfl t hall' hsame'

/-- **`writeOnce` that returns nil has written its rule, and no other.**  It returns nil where a
read shows the rule that was meant, or where the write that it sent was taken for landed. -/
theorem writeOnce_spec {op : RuleOp} (hop : Meant op) {s₀ : Server} (hall : AllHaveAffinity s₀) :
    Holds servesCandidly AllHaveAffinity (writeOnce op) (WroteOnce op s₀) s₀ := by
  have hfrom : ∀ left s, AllHaveAffinity s → SameBut op.rule.id s₀ s →
      Holds servesCandidly AllHaveAffinity (writeOnceFrom op left) (WroteOnce op s₀) s := by
    intro left
    induction left with
    | zero => exact fun s hs hsame => writeAttempt_spec hop hs hsame _ nofun
    | succ left ih =>
      intro s hs hsame
      refine writeAttempt_spec hop hs hsame _ fun next hnext t ht hsame' => ?_
      cases hnext
      exact ih t ht hsame'
  exact hfrom _ s₀ hall fun _ _ => rfl

/-! ## 6. What `Apply` records

A held write is recorded when a read shows that it landed. -/

/-- Outside of the recorded IDs the rules are as they were. -/
def KeptBut (start : Server) (wrote : List RuleOp) (s : Server) : Prop :=
  ∀ id, (∀ op ∈ wrote, op.rule.id ≠ id) → s.lookup id = start.lookup id

/-- What holds in every round: `before` is the first read, and what was not recorded is
unchanged. -/
structure Recorded (start : Server) (st : ApplyState) (s : Server) : Prop where
  before : ∀ set, st.before = some set → Reads start set
  fresh : st.before = none → s = start
  kept : KeptBut start st.wrote s

theorem KeptBut.recorded {start s t : Server} {wrote : List RuleOp} {op : RuleOp}
    (h : KeptBut start wrote s)
    (hsame : SameBut op.rule.id s t) : KeptBut start (wrote ++ [op]) t := by
  intro id hid
  have hne : id ≠ op.rule.id :=
    fun heq => hid op (List.mem_append_right _ List.mem_cons_self) heq.symm
  rw [hsame id hne]
  exact h id fun op' hop' => hid op' (List.mem_append_left _ hop')

/-- The end of a run of `Apply`: recorded, unless a held write could not be read back. -/
def AppliedTo (start : Server) (res : ApplyState × ApplyEnd) (t : Server) : Prop :=
  (∀ e, res.2 ≠ .unreadHeld e) → Recorded start res.1 t

/-- The first operation of a round.  The rules are recorded before it is sent, so whatever happens
to it can be undone. -/
theorem writeFirst_spec {w : RuleWriter} {start s : Server} {st : ApplyState} {set : RuleSet}
    {op : RuleOp}
    {again : ApplyState → ApplyProg} (hread : Reads s set) (hop : Meant op)
      (hall : AllHaveAffinity s)
    (hrec : Recorded start st s) (hbefore : st.before ≠ none)
    (hagain : ∀ st' t, AllHaveAffinity t → Recorded start st' t →
      Holds servesCandidly AllHaveAffinity (again st') (AppliedTo start) t) :
    Holds servesCandidly AllHaveAffinity (writeFirst w st set op again) (AppliedTo start) s := by
  unfold writeFirst
  split
  · exact ⟨hall, fun _ => hrec⟩
  refine Holds.sent hall fun a t hsent => ?_
  have hall' := hsent.allHaveAffinity hread hop hall
  -- Recording the write keeps the invariant whether or not it took effect.
  have hrecorded : Recorded start { st with wrote := st.wrote ++ [op] } t :=
    ⟨hrec.before, fun hnone => absurd hnone hbefore, hrec.kept.recorded hsent.sameBut⟩
  -- A write that had no effect need not be recorded.
  have hunchanged : t = s → ∀ st' : ApplyState, st'.before = st.before → st'.wrote = st.wrote →
      Recorded start st' t := by
    rintro rfl st' hb hw
    exact ⟨by rw [hb]; exact hrec.before, by rw [hb]; exact hrec.fresh, by rw [hw]; exact hrec.kept⟩
  cases a with
  | none => exact hagain _ t hall' hrecorded
  | some e =>
    dsimp only
    cases hclass : classifyRuleWrite op.kind (some e) with
    | landed => exact hagain _ t hall' hrecorded
    | rejected => exact ⟨hall', fun _ => hunchanged (hsent.refused (.inr hclass)) st rfl rfl⟩
    | conflict =>
      have hsame := hsent.refused (.inl hclass)
      dsimp only
      unfold backOff
      dsimp only
      split
      · exact ⟨hall', fun _ => hunchanged hsame _ rfl rfl⟩
      refine Holds.sleep hall' fun b => ?_
      cases b with
      | some e => exact ⟨hall', fun _ => hunchanged hsame _ rfl rfl⟩
      | none => exact hagain _ t hall' (hunchanged hsame _ rfl rfl)
    | held =>
      dsimp only
      unfold settleHeld
      refine Holds.read hall' (fun e => ⟨hall', fun h => absurd rfl (h e)⟩) fun fresh hfresh => ?_
      dsimp only
      split
      · exact hagain _ t hall' hrecorded
      rename_i hnot
      -- The rule is not the one that was meant, so the write had no effect.
      have hsame : t = s := hsent.either.resolve_right fun htakes =>
        hnot ((landed_iff hfresh op).mpr (landedOn_of_takes hread hop hall htakes))
      split
      · exact ⟨hall', fun _ => hunchanged hsame _ rfl rfl⟩
      · exact hagain _ t hall' (hunchanged hsame _ rfl rfl)

/-- Every round keeps the record of what was there and of what was written (`Recorded`).  The
induction is on the rounds. -/
theorem applyLoop_spec {w : RuleWriter} {start : Server} (rounds : Nat) :
    ∀ {st : ApplyState} {s : Server}, AllHaveAffinity s → Recorded start st s →
    Holds servesCandidly AllHaveAffinity (applyLoop w rounds st) (AppliedTo start) s := by
  induction rounds with
  | zero => exact fun hall hrec => ⟨hall, fun _ => hrec⟩
  | succ rounds ih =>
    intro st s hall hrec
    unfold applyLoop applyRound
    refine Holds.read hall (fun e => ⟨hall, fun _ => hrec⟩) fun set hread => ?_
    have hrec' : Recorded start { st with before := some (st.before.getD set) } s := by
      refine ⟨fun set' hset' => ?_, nofun, hrec.kept⟩
      cases hb : st.before with
      | none =>
        rw [hb] at hset'
        cases hset'
        rw [← hrec.fresh hb]
        exact hread
      | some first =>
        rw [hb] at hset'
        cases hset'
        exact hrec.before _ hb
    refine Holds.perform hall fun a t ha => ?_
    obtain rfl : t = s := ha.1
    cases a with
    | error e => exact ⟨hall, fun _ => hrec'⟩
    | ok ops =>
      cases ops with
      | nil => exact ⟨hall, fun _ => hrec'⟩
      | cons op ops =>
        have hop : Meant (normalizeOp op) :=
          ⟨normal_normalizeRule op.rule, ha.2 op List.mem_cons_self⟩
        dsimp only
        split
        · exact ⟨hall, fun _ => hrec'⟩
        · exact writeFirst_spec hread hop hall hrec' nofun fun st' t' hall' hrec'' =>
            ih hall' hrec''

/-- **`Apply` records every ID it changed**, unless a held write could not be read back.  What was
not recorded was refused, or was read back as not landed, and neither has touched the server. -/
theorem apply_spec (w : RuleWriter) (rounds : Nat) {start : Server} (hall : AllHaveAffinity start) :
    Holds servesCandidly AllHaveAffinity (apply w rounds) (AppliedTo start) start := by
  have hrec : Recorded start {} start := ⟨nofun, fun _ => rfl, fun _ _ => rfl⟩
  unfold apply
  refine Holds.perform hall fun a t ha => ?_
  obtain rfl : t = start := ha.1
  cases a with
  | some e => exact ⟨hall, fun _ => hrec⟩
  | none => exact applyLoop_spec rounds hall hrec

/-! ## 7. `revert` -/

/-- A rule is back: missing if it was missing, and otherwise the same as it was read before. -/
def RuleRestored (before : RuleSet) (id : String) (s : Server) : Prop :=
  match before.find id with
  | none => s.lookup id = none
  | some prev => ∃ r, s.lookup id = some r ∧ sameRule (some prev.toRule) (some (readRule r)) = true

theorem hasAffinity_of_find {start : Server} {before : RuleSet} {id : String} {prev : ListedRule}
    (hall : AllHaveAffinity start) (hbefore : Reads start before) (h : before.find id = some prev) :
    HasAffinity prev.toRule ∧ trimmed prev.resources = prev.resources := by
  have hfind := find_of_reads hbefore id
  rw [h, Option.map_some] at hfind
  obtain ⟨raw, hraw, hrule⟩ := Option.map_eq_some_iff.mp hfind.symm
  rw [← hrule]
  exact ⟨hall id raw hraw, trimmed_trimmed raw.resources⟩

/-- The undo of a write brings the rule back. -/
theorem undo_meant {start : Server} {before : RuleSet} (hall : AllHaveAffinity start)
    (hbefore : Reads start before) (op : RuleOp) : Meant (normalizeOp (undoOf before op)) := by
  refine ⟨normal_normalizeRule _, fun hkind => ?_⟩
  unfold undoOf normalizeOp at hkind ⊢
  cases hfind : before.find op.rule.id with
  | none =>
    rw [hfind] at hkind
    exact absurd rfl hkind
  | some prev =>
    have haff := (hasAffinity_of_find hall hbefore hfind).1
    dsimp only
    unfold HasAffinity normalizeRule
    dsimp only
    rw [if_neg fun h => haff.ne_empty h.2]
    exact haff

theorem undo_id (before : RuleSet) (op : RuleOp) :
    (normalizeOp (undoOf before op)).rule.id = op.rule.id := by
  unfold undoOf normalizeOp
  cases hfind : before.find op.rule.id with
  | none => rfl
  | some prev => exact (mem_of_find hfind).2

/-- The undo of an operation brings back what the listing showed before: the old rule, or no
rule. -/
theorem restored_of_landedOn {start : Server} {before : RuleSet} (hall : AllHaveAffinity start)
    (hbefore : Reads start before) {op : RuleOp} {s : Server}
    (h : LandedOn (normalizeOp (undoOf before op)) s) : RuleRestored before op.rule.id s := by
  have hid := undo_id before op
  unfold LandedOn at h
  rw [hid] at h
  unfold RuleRestored
  cases hfind : before.find op.rule.id with
  | none =>
    have hkind : (normalizeOp (undoOf before op)).kind = .delete := by
      rw [normalizeOp, undoOf, hfind]
    rw [hkind] at h
    exact h
  | some prev =>
    have hkind : (normalizeOp (undoOf before op)).kind ≠ .delete := by
      rw [normalizeOp, undoOf, hfind]
      dsimp only
      split <;> nofun
    have hrule : (normalizeOp (undoOf before op)).rule = normalizeRule prev := by
      rw [normalizeOp, undoOf, hfind]
    obtain ⟨haff, hres⟩ := hasAffinity_of_find hall hbefore hfind
    -- Putting the rule in shape changes nothing that is compared.
    have hsame : ∀ r : Rule, sameRule (some (normalizeRule prev).toRule) (some r) = true →
        sameRule (some prev.toRule) (some r) = true := by
      intro r hr
      obtain ⟨htype, hdis, hresources, hcomment, haffinity, hnodes⟩ := sameRule_iff.mp hr
      refine sameRule_iff.mpr ⟨htype, hdis, hres ▸ hresources, hcomment, ?_, fun hnode => ?_⟩
      · rw [← haffinity]
        exact (if_neg fun h => haff.ne_empty h.2).symm
      · have := hnodes hnode
        simpa [normalizeRule, hnode] using this
    rw [hrule] at h
    cases hk : (normalizeOp (undoOf before op)).kind with
    | delete => exact absurd hk hkind
    | create =>
      rw [hk] at h
      obtain ⟨r, hr, heq⟩ := h
      exact ⟨r, hr, hsame _ heq⟩
    | update =>
      rw [hk] at h
      obtain ⟨r, hr, heq⟩ := h
      exact ⟨r, hr, hsame _ heq⟩

/-- What is known in the loop of `revert`: an ID that is not to come is back. -/
def RevertedBut (before : RuleSet) (rest : List RuleOp) (s : Server) : Prop :=
  ∀ id, (∀ op ∈ rest, op.rule.id ≠ id) → RuleRestored before id s

theorem restored_congr {before : RuleSet} {id : String} {s t : Server}
    (h : t.lookup id = s.lookup id) (hs : RuleRestored before id s) : RuleRestored before id t := by
  unfold RuleRestored at hs ⊢
  rw [h]
  exact hs

/-- The undos are made one by one; those made stay made, since each one touches one rule
(`RevertedBut`). -/
theorem revertLoop_spec {start : Server} {before : RuleSet} (hall : AllHaveAffinity start)
    (hbefore : Reads start before) (rest : List RuleOp) : ∀ {s : Server}, AllHaveAffinity s →
    RevertedBut before rest s →
    Holds servesCandidly AllHaveAffinity (revertLoop before rest)
      (fun res t => res = none → ∀ id, RuleRestored before id t) s := by
  induction rest with
  | nil => exact fun hs hrev => ⟨hs, fun _ id => hrev id nofun⟩
  | cons op rest ih =>
    intro s hs hrev
    unfold revertLoop
    refine Holds.bind (writeOnce_spec (undo_meant hall hbefore op) hs) fun res t ht hwrote => ?_
    cases res with
    | some e => exact ⟨ht, nofun⟩
    | none =>
      refine ih ht fun id hid => ?_
      by_cases heq : id = op.rule.id
      · rw [heq]
        exact restored_of_landedOn hall hbefore (hwrote.2 rfl)
      · have hlookup := hwrote.1 id (by rw [undo_id]; exact heq)
        refine restored_congr hlookup (hrev id fun op' hop' => ?_)
        rcases List.mem_cons.mp hop' with rfl | hop'
        · exact Ne.symm heq
        · exact hid op' hop'

/-- The server holds the rules of the read, and no others. -/
def HoldsRules (before : RuleSet) (s : Server) : Prop := ∀ id, RuleRestored before id s

/-- **Reverting restores the rules.**  `Apply` ran against the server from `start`, where every rule
has a positive or a negative affinity, and did not end on a held write that it could not read back.
If then `revert` returns nil, the server holds the rules of `before`.  Outside of the recorded IDs
the rules are those of `start`; each recorded ID is undone by a write that landed, and the rule it
leaves is the one that was read before. -/
theorem revert_restores (w : RuleWriter) (rounds : Nat) {start s t : Server} {st : ApplyState}
    {fin : ApplyEnd} {before : RuleSet} (hall : AllHaveAffinity start)
    (happly : Runs servesCandidly (apply w rounds) start (.ret (st, fin)) s)
    (hfin : ∀ e, fin ≠ .unreadHeld e) (hbefore : st.before = some before)
    (hrevert : Runs servesCandidly (revert before st.wrote) s (.ret none) t) :
      HoldsRules before t := by
  obtain ⟨hs, happlied⟩ := (apply_spec w rounds hall).runs happly
  have hrec := happlied hfin
  have hread := hrec.before before hbefore
  have hrev : RevertedBut before st.wrote.reverse s := by
    intro id hid
    have hlookup : s.lookup id = start.lookup id :=
      hrec.kept id fun op hop => hid op (List.mem_reverse.mpr hop)
    have hfind := find_of_reads hread id
    unfold RuleRestored
    rw [hlookup]
    cases hb : before.find id with
    | none =>
      rw [hb] at hfind
      exact Option.map_eq_none_iff.mp hfind.symm
    | some prev =>
      rw [hb, Option.map_some] at hfind
      obtain ⟨raw, hraw, hrule⟩ := Option.map_eq_some_iff.mp hfind.symm
      refine ⟨raw, hraw, ?_⟩
      rw [hrule]
      exact sameRule_iff.mpr ⟨rfl, rfl, rfl, rfl, rfl, fun _ => ⟨rfl, sameNodes_refl _⟩⟩
  exact ((revertLoop_spec hall hread st.wrote.reverse hs hrev).runs hrevert).2 rfl

/-! ## 8. Runs

A scene is a server with fixed answers.  One of them reverts, the others show what the conditions of
the theorem leave out. -/

/-- The value a program has ended with. -/
def ended {E α : Type} {Ans : E → Type} : Prog E Ans α → Option α
  | .ret a => some a
  | .eff _ _ => none

theorem eq_ret_of_ended {E α : Type} {Ans : E → Type} {p : Prog E Ans α} {a : α}
    (h : ended p = some a) : p = .ret a := by
  cases p with
  | ret b => exact congrArg _ (Option.some.inj h)
  | eff e k => cases h

/-- A read of the rules in their order. -/
def readOf (s : Server) : RuleSet where
  rules := s.entries.map fun e => { toRule := readRule e.2, id := e.1 }
  digest := "d"

theorem reads_readOf (s : Server) : Reads s (readOf s) := by
  unfold Reads readOf
  rw [List.map_map]
  exact List.Perm.refl _

/-- A server with the rules it starts with, and a planner: how a POST is answered, whether the rules
can be read once there are some, and how a DELETE is answered. -/
structure Scene where
  start : Server := ∅
  plan : RuleSet → List RuleOp
  created : Option RuleErr
  blind : Bool := false
  deleted : Option RuleErr := none

def fault (text : String) : RuleErr := { text }

/-- A POST of a new rule takes effect, whatever its answer; a PUT of a rule that is there does, and
a DELETE does when it has no error. -/
def Scene.oracle (x : Scene) (s : Server) : (c : RuleCall) → c.Ans × Server
  | .list =>
    if x.blind && !s.keys.isEmpty then (.error (fault "timeout"), s) else (.ok (readOf s), s)
  | .plan set => (.ok (x.plan set), s)
  | .create p =>
    if p.rule ∈ s then (some (fault "timeout"), s) else (x.created, s.insert p.rule p.made)
  | .update id p => ((s.lookup id).elim (some (fault "timeout")) fun _ => none,
      (s.lookup id).elim s fun r => s.insert id (p.onto r))
  | .delete id => (x.deleted, if x.deleted.isSome then s else s.erase id)
  | .lock => (none, s)
  | .sleep _ => (none, s)

/-- The answers of a scene are answers that the service may give. -/
theorem Scene.oracle_serves (x : Scene) (s : Server) (c : RuleCall) :
    serves s c (x.oracle s c).1 (x.oracle s c).2 := by
  cases c with
  | list =>
    unfold Scene.oracle
    by_cases h : (x.blind && !s.keys.isEmpty) = true
    · simp only [h, if_true]
      exact rfl
    · simp only [h]
      exact ⟨rfl, reads_readOf s⟩
  | plan set => exact rfl
  | create p =>
    unfold Scene.oracle
    by_cases h : p.rule ∈ s
    · simp only [h, if_true]
      exact .inl rfl
    · simp only [h, if_false]
      cases x.created with
      | none => exact Takes.create p h
      | some e => exact .inr (Takes.create p h)
  | update id p =>
    unfold Scene.oracle
    dsimp only
    cases h : s.lookup id with
    | none => exact .inl rfl
    | some r => exact Takes.update p h
  | delete id =>
    unfold Scene.oracle
    cases x.deleted with
    | none => exact Takes.delete id
    | some e => exact .inl rfl
  | lock => exact rfl
  | sleep n => exact rfl

def writer : RuleWriter := { order := inOrder, clusterNodes := none }

/-- `Apply` in a scene. -/
def Scene.applied (x : Scene) : ApplyProg × Server := playFor x.oracle 20 (apply writer 5) x.start

def Scene.outcome (x : Scene) : ApplyState × ApplyEnd := (ended x.applied.1).getD ({}, .outOfRounds)

def Scene.before (x : Scene) : RuleSet := x.outcome.1.before.getD { rules := [], digest := "" }

/-- `revert` after it. -/
def Scene.reverted (x : Scene) : RuleProg (Option RuleErr) × Server :=
  playFor x.oracle 20 (revert x.before x.outcome.1.wrote) x.applied.2

/-- Both have ended, `revert` with nil. -/
def Scene.complete (x : Scene) : Bool :=
  (ended x.applied.1).isSome && x.outcome.1.before.isSome && decide (ended x.reverted.1 = some none)

/-- A scene that is complete is a run of `apply` followed by one of `revert`. -/
theorem Scene.runs {x : Scene} (h : x.complete = true) {P : Serve RuleCall RuleCall.Ans Server}
    (hsv : ∀ s c, P s c (x.oracle s c).1 (x.oracle s c).2) :
    Runs P (apply writer 5) x.start (.ret x.outcome) x.applied.2 ∧
      x.outcome.1.before = some x.before ∧
      Runs P (revert x.before x.outcome.1.wrote) x.applied.2 (.ret none) x.reverted.2 := by
  rw [Scene.complete, Bool.and_eq_true, Bool.and_eq_true] at h
  obtain ⟨⟨hended, hbefore⟩, hreverted⟩ := h
  obtain ⟨r, hr⟩ := Option.isSome_iff_exists.mp hended
  obtain ⟨b, hb⟩ := Option.isSome_iff_exists.mp hbefore
  have hout : x.outcome = r := by rw [Scene.outcome, hr, Option.getD_some]
  refine ⟨?_, ?_, ?_⟩
  · rw [hout, ← eq_ret_of_ended hr]
    exact playFor_runs hsv 20 _ _
  · rw [Scene.before, hb, Option.getD_some]
  · have hret := eq_ret_of_ended (of_decide_eq_true hreverted)
    have hruns := playFor_runs hsv 20 (revert x.before x.outcome.1.wrote) x.applied.2
    rw [show (playFor x.oracle 20 (revert x.before x.outcome.1.wrote) x.applied.2).1 =
      .ret none from hret] at hruns
    exact hruns

/-- **A server that answers as it does is candid**, when the planner asks for rules with an
affinity. -/
theorem Scene.oracle_candid {x : Scene} (hcreated : x.created = none) (hdeleted : x.deleted = none)
    (hplan : ∀ set, ∀ op ∈ x.plan set, HasAffinity (normalizeRule op.rule).toRule) (s : Server)
    (c : RuleCall) : servesCandidly s c (x.oracle s c).1 (x.oracle s c).2 := by
  refine ⟨x.oracle_serves s c, ?_⟩
  have hsuccess : ∀ kind, ¬(classifyRuleWrite kind none = .conflict ∨
      classifyRuleWrite kind none = .rejected) := by
    rintro kind (h | h) <;> cases h
  cases c with
  | list => exact trivial
  | plan set => exact fun op hop _ => hplan set op hop
  | create p =>
    unfold Scene.oracle
    by_cases h : p.rule ∈ s
    · simp only [h, if_true]
      exact fun _ => rfl
    · simp only [h, if_false, hcreated]
      exact fun hno => absurd hno (hsuccess _)
  | update id p =>
    unfold Scene.oracle
    dsimp only
    cases s.lookup id with
    | none => exact fun _ => rfl
    | some r => exact fun hno => absurd hno (hsuccess _)
  | delete id =>
    unfold Scene.oracle
    rw [hdeleted]
    exact ⟨fun hno => absurd hno (hsuccess _), fun _ => AList.lookup_erase _ _⟩
  | lock => exact trivial
  | sleep n => exact trivial

/-- A node-affinity rule of two VMs. -/
def sampleRule (id affinity comment : String) : ListedRule where
  id := id
  type := ruleTypeNodeAffinity
  affinity := affinity
  strict := false
  nodes := ∅
  resources := ["vm:1", "vm:2"]
  comment := comment

/-- Everything goes well.  The server starts with the rules `u` and `d`; the planner asks for a rule
`x`, for another comment in `u` and for the end of `d`, as far as a read does not show them. -/
def calm : Scene where
  start := (AList.insert "u" (sampleRule "u" "negative" "old").toRule ∅).insert "d"
    (sampleRule "d" "positive" "gone").toRule
  plan set := [{ kind := .create, rule := sampleRule "x" "negative" "" },
    { kind := .update, rule := sampleRule "u" "negative" "new" },
    { kind := .delete, rule := sampleRule "d" "positive" "gone" }].filter fun op => !landed op set
  created := none

theorem calm_affinity (set : RuleSet) : ∀ op ∈ calm.plan set,
    HasAffinity (normalizeRule op.rule).toRule := by
  intro op hop
  have hmem := List.mem_of_mem_filter hop
  fin_cases hmem
  · exact .inr rfl
  · exact .inr rfl
  · exact .inl rfl

def ApplyEnd.isPlanned : ApplyEnd → Bool
  | .planned => true
  | _ => false

theorem calm_evaluated : calm.complete = true ∧ calm.before.rules.map ListedRule.id = ["d", "u"] ∧
    calm.outcome.1.wrote.map (fun op => (op.kind, op.rule.id)) =
      [(.create, "x"), (.update, "u"), (.delete, "d")] ∧
    calm.applied.2.keys = ["u", "x"] ∧ calm.outcome.2.isPlanned = true := by
  decide +kernel

/-- `Apply` creates a rule, updates one and deletes one, and `revert` brings back the two that were
there. -/
theorem revert_restores_sample :
    calm.before.rules.map ListedRule.id = ["d", "u"] ∧
    calm.outcome.1.wrote.map (fun op => (op.kind, op.rule.id)) =
      [(.create, "x"), (.update, "u"), (.delete, "d")] ∧
    calm.applied.2.keys = ["u", "x"] ∧ HoldsRules calm.before calm.reverted.2 := by
  obtain ⟨hcomplete, hids, hwrote, hkeys, hplanned⟩ := calm_evaluated
  obtain ⟨happly, hbefore, hrevert⟩ :=
    calm.runs hcomplete (Scene.oracle_candid rfl rfl calm_affinity)
  have hall : AllHaveAffinity calm.start := by
    intro id r hr
    have hmem : (⟨id, r⟩ : Sigma fun _ : String => Rule) ∈ calm.start.entries :=
      AList.mem_lookup_iff.mp hr
    fin_cases hmem
    · exact .inl rfl
    · exact .inr rfl
  have hfin : ∀ e, calm.outcome.2 ≠ .unreadHeld e := by
    intro e he
    rw [he] at hplanned
    cases hplanned
  exact ⟨hids, hwrote, hkeys, revert_restores writer 5 hall happly hfin hbefore hrevert⟩

/-- The service of a scene. -/
def Scene.plays (x : Scene) : Serve RuleCall RuleCall.Ans Server :=
  fun s c a t => x.oracle s c = (a, t)

/-- In the scene, which the service allows, `revert` returns nil and the rules of the first read are
not what the server holds. -/
def Scene.NotRestored (x : Scene) : Prop :=
  (∀ s c a t, x.plays s c a t → serves s c a t) ∧
  ∃ (st : ApplyState) (fin : ApplyEnd) (s t : Server) (before : RuleSet),
    Runs x.plays (apply writer 5) x.start (.ret (st, fin)) s ∧ st.before = some before ∧
    Runs x.plays (revert before st.wrote) s (.ret none) t ∧ ¬HoldsRules before t

/-- A complete scene in which the rule is there at the end, but was not at the start. -/
theorem Scene.notRestored {x : Scene} (h : x.complete = true)
    (hbefore : x.before.rules.isEmpty = true)
    (hthere : (x.reverted.2.lookup "x").isSome = true) : x.NotRestored := by
  have hserves : ∀ s c a t, x.plays s c a t → serves s c a t := by
    intro s c a t hplays
    have := x.oracle_serves s c
    rwa [show x.oracle s c = (a, t) from hplays] at this
  obtain ⟨happly, hb, hrevert⟩ := x.runs h (P := x.plays) fun s c => rfl
  refine ⟨hserves, x.outcome.1, x.outcome.2, _, _, _, happly, hb, hrevert, fun hholds => ?_⟩
  have hnone : x.before.find "x" = none := by
    rw [RuleSet.find, List.isEmpty_iff.mp hbefore]
    rfl
  have hx := hholds "x"
  rw [RuleRestored, hnone] at hx
  rw [hx] at hthere
  cases hthere

/-- A planner that asks for one rule while there is none, and a server without rules. -/
def creates (affinity : String) (created : Option RuleErr) : Scene where
  plan set := if set.rules.isEmpty then
    [{ kind := .create, rule := sampleRule "x" affinity "" }] else []
  created := created

/-- **What takes effect behind an error stays.**  With failed calls that may have taken effect,
whatever their error, the first rules are not restored: a held POST that cannot be read back, a POST
that is refused and yet takes effect, a POST of a rule with another affinity, and a DELETE that
fails with the words of a missing rule. -/
theorem effects_behind_errors_stay :
    Scene.NotRestored { creates "negative" (some (fault "timeout")) with blind := true } ∧
    Scene.NotRestored (creates "negative" (some (fault "detected modified configuration"))) ∧
    Scene.NotRestored (creates "other" (some (fault "timeout"))) ∧
    Scene.NotRestored { creates "negative" none with deleted := some (fault "no such host") } :=
  ⟨Scene.notRestored (by decide) (by decide) (by decide),
    Scene.notRestored (by decide) (by decide) (by decide),
    Scene.notRestored (by decide) (by decide) (by decide),
    Scene.notRestored (by decide) (by decide) (by decide)⟩

end Ha
