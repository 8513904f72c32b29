/-
# No template is destroyed under a Director that holds it

The last reference is removed under the lock, but the template is destroyed after the lock is
released, and a registration that comes in between is too late: it clears the tag, returns without
an error, and then the template is gone (`destroyed_under_registration`).

`reference_safety` says that this is all that can go wrong.  In a run in which no registration takes
effect while another Director's destroy is under way, and no deregistration is served for a Director
that has registered since it called, no destroy hits a Director that holds the template.  Three
facts carry it: a reference that is held stands in the description and no destroy is pending
(`Keeps`), every destroy under way is by the only Director that can still be held, and what a
process has read under the lock stays true until it writes (`Guar`).

## The stages of a call

A call that destroys passes through stages: it has decided, it has released the lock, it has asked
PVE.  At each of them other calls run.  `calls` records which process is at which stage for which
Director, and `doomed` are the Directors whose destroys are under way.  The invariant ties the
stages to the template: while a destroy is under way nobody else is registered.  A registration that
comes in between breaks this, and that is the condition of the theorem; every other step keeps it.

The pure half is in §2: what a registration and a deregistration write, and that the written tags
and references read back.
-/
import PveCpi.Stemcell.Refs
import PveCpi.Vm.Merge

namespace Stemcell

open Vm (Text Tag Casing parseTagsField joinTags)
open Lib.Interleave

/-! ## 1. What a template must say

A template is kept for a reference when the reference stands in its description and no destroy is
pending, or when the description cannot be read at all. -/

section Keeps

variable (L : Casing)

/-- A description that cannot be read will not become readable. -/
def Settled (d : Description) : Prop :=
  parseStemcellProvenanceFromDescription L d = none → ∀ p d',
    mergeProvenanceIntoDescription d p = .ok d' → parseStemcellProvenanceFromDescription L d' = none

/-- The template is kept for `r`: the reference is there, as far as it can be read, and no destroy
is pending. -/
structure Keeps (t : Template) (r : Ref) : Prop where
  settled : Settled L t.description
  ref : ∀ q, parseStemcellProvenanceFromDescription L t.description = some q → r ∈ q.directorRefs
  pending : stemcellDestroyPendingTag ∉ parseTagsField t.tags

variable {L}

theorem settled_of_parse {d : Description} {q : Provenance}
    (h : parseStemcellProvenanceFromDescription L d = some q) : Settled L d := by
  intro hnone
  rw [h] at hnone
  cases hnone

theorem settled_of_merge {d d' : Description} {p : Provenance}
    (h : mergeProvenanceIntoDescription d p = .ok d') : Settled L d' :=
  fun hnone _ _ h' => merge_stuck h hnone h'

/-- A merge that keeps a reference keeps the template for it. -/
theorem keeps_of_merge {t : Template} {d' : Description} {p : Provenance} {tags : Text} {r : Ref}
    (h : mergeProvenanceIntoDescription t.description p = .ok d') (hd : Unshadowed L t.description)
    (hr : r ∈ p.directorRefs) (hpending : stemcellDestroyPendingTag ∉ parseTagsField tags) :
    Keeps L ⟨d', tags⟩ r := by
  refine ⟨settled_of_merge h, fun q hq => ?_, hpending⟩
  rw [merge_refs h hd (List.ne_nil_of_mem hr) hq]
  exact hr

/-- A merge into a description that could not be read leaves it so. -/
theorem keeps_of_merge_none {t : Template} {d' : Description} {p : Provenance} {tags : Text}
    {r : Ref} (h : mergeProvenanceIntoDescription t.description p = .ok d') (hk : Keeps L t r)
    (hnone : parseStemcellProvenanceFromDescription L t.description = none)
    (hpending : stemcellDestroyPendingTag ∉ parseTagsField tags) : Keeps L ⟨d', tags⟩ r := by
  refine ⟨settled_of_merge h, fun q hq => ?_, hpending⟩
  rw [hk.settled hnone p d' h] at hq
  cases hq

end Keeps

/-! ## 2. What the writes do -/

theorem directorTag_clean (ref : Ref) : Vm.TagClean (directorTagFor ref) := by
  refine Vm.clean_of_chars (fun hnil => ?_) fun c hc => ?_
  · exact absurd (List.append_eq_nil_iff.mp hnil).1 (by decide)
  · rcases List.mem_append.mp hc with hc | hc
    · have hall : ∀ d ∈ directorTagPrefix, Vm.isTagChar d = true :=
        Lib.Text.forall_of_all (by decide)
      exact hall c hc
    · exact Vm.sanitizeTagValue_chars c hc

/-- The tags that are written read back, when they are tags that were read and clean ones. -/
theorem parse_written {tags : Text} {new : List Tag} {extra : Tag} (hextra : Vm.TagClean extra)
    (hnew : ∀ t ∈ new, t ∈ parseTagsField tags ∨ t = extra) :
    parseTagsField (joinTags new) = new := by
  refine Vm.parse_joinTags fun t ht => ?_
  rcases hnew t ht with hold | rfl
  · exact Vm.clean_of_mem_parse hold
  · exact hextra

section Writes

variable {L : Casing} {tooLarge : Description → Bool} {ref : Ref} {t : Template}

theorem stringSliceEnsure_false {tags : List Tag} {tag : Tag}
    (h : (stringSliceEnsure tags tag).2 = false) : (stringSliceEnsure tags tag).1 = tags := by
  unfold stringSliceEnsure at h ⊢
  split at h
  · rename_i hcontains
    rw [if_pos hcontains]
  · cases h

theorem mem_stringSliceEnsure {tags : List Tag} {tag t : Tag}
    (h : t ∈ (stringSliceEnsure tags tag).1) : t ∈ tags ∨ t = tag := by
  unfold stringSliceEnsure at h
  split at h
  · exact .inl h
  · rcases List.mem_append.mp h with h | h
    · exact .inl h
    · exact .inr (List.mem_singleton.mp h)

/-- The tags of a registration: no destroy is pending. -/
theorem registerTags_pending (ref : Ref) (tags : Text) :
    let ensured := stringSliceEnsure (parseTagsField tags) (directorTagFor ref)
    let removed := stringSliceRemove ensured.1 stemcellDestroyPendingTag
    stemcellDestroyPendingTag ∉ parseTagsField
      ((if ensured.2 || removed.2 then some (joinTags removed.1) else none).getD tags) := by
  intro ensured removed
  split
  · have hread : parseTagsField (joinTags removed.1) = removed.1 :=
      parse_written (directorTag_clean ref) fun t ht =>
        mem_stringSliceEnsure (List.mem_of_mem_filter ht)
    rw [Option.getD_some, hread]
    intro hmem
    have hne := (List.mem_filter.mp hmem).2
    simp at hne
  · rename_i hnothing
    rw [Bool.or_eq_true, not_or, Bool.not_eq_true, Bool.not_eq_true] at hnothing
    have hsame : ensured.1 = parseTagsField tags := stringSliceEnsure_false hnothing.1
    have hpending : (ensured.1.contains stemcellDestroyPendingTag) = false := hnothing.2
    rw [Option.getD_none, ← hsame]
    simpa using hpending

/-- A reference that is not new was read. -/
theorem parsed_of_contains (h : (((parseStemcellProvenanceFromDescription L t.description).getD
    {}).directorRefs.contains ref) = true) :
    ∃ q, parseStemcellProvenanceFromDescription L t.description = some q ∧
      ref ∈ q.directorRefs := by
  cases hq : parseStemcellProvenanceFromDescription L t.description with
  | none =>
    rw [hq] at h
    cases h
  | some q =>
    rw [hq] at h
    exact ⟨q, rfl, by simpa using h⟩

/-- A registration that has nothing to write finds the template kept. -/
theorem registerWrite_none (h : registerWrite L tooLarge ref t = .ok none) : Keeps L t ref := by
  unfold registerWrite at h
  dsimp only at h
  split at h
  · cases h
  · split at h
    · cases h
    · split at h
      · rename_i hnothing
        simp only [Bool.and_eq_true, Bool.not_eq_true', Bool.not_eq_false'] at hnothing
        obtain ⟨⟨href, htag⟩, hremoved⟩ := hnothing
        obtain ⟨q, hq, hmem⟩ := parsed_of_contains href
        have hpending := registerTags_pending ref t.tags
        dsimp only at hpending
        rw [htag, hremoved, Bool.or_false, if_neg Bool.false_ne_true, Option.getD_none] at hpending
        refine ⟨settled_of_parse hq, fun q' hq' => ?_, hpending⟩
        rw [hq] at hq'
        cases hq'
        exact hmem
      · cases h

/-- What a registration writes keeps the template for its Director and for whom it was kept.  The
tag of a pending destroy is taken away in the same write. -/
theorem registerWrite_some {w : Write} (h : registerWrite L tooLarge ref t = .ok (some w))
    (ht : Unshadowed L t.description) : Unshadowed L (t.apply w).description ∧
      Keeps L (t.apply w) ref ∧ ∀ r, Keeps L t r → Keeps L (t.apply w) r := by
  unfold registerWrite at h
  dsimp only at h
  split at h
  · cases h
  · rename_i newDesc hmerge
    split at h
    · cases h
    · split at h
      · cases h
      · cases h
        have hpending := registerTags_pending ref t.tags
        dsimp only at hpending
        cases hadded : ((parseStemcellProvenanceFromDescription L t.description).getD
            {}).directorRefs.contains ref with
        | false =>
          -- The reference is new: the description is merged.
          rw [hadded] at hmerge
          simp only [Template.apply, Bool.not_false, ↓reduceIte, Option.getD_some] at hmerge ⊢
          refine ⟨merge_unshadowed hmerge ht, keeps_of_merge hmerge ht (by simp) hpending, ?_⟩
          intro r hr
          cases hq : parseStemcellProvenanceFromDescription L t.description with
          | none => exact keeps_of_merge_none hmerge hr hq hpending
          | some q =>
            refine keeps_of_merge hmerge ht ?_ hpending
            rw [hq]
            exact List.mem_append_left _ (hr.ref q hq)
        | true =>
          obtain ⟨q, hq, hmem⟩ := parsed_of_contains hadded
          simp only [Template.apply, Bool.not_true, Bool.false_eq_true, ↓reduceIte,
            Option.getD_none]
          refine ⟨ht, ⟨settled_of_parse hq, fun q' hq' => ?_, hpending⟩, fun r hr =>
            ⟨hr.settled, hr.ref, hpending⟩⟩
          rw [hq] at hq'
          cases hq'
          exact hmem

/-- The tags that stay have no new one but the marker of the generation. -/
theorem mem_dropDirectorTagForKept {tags kept : List Tag} {dropTag t : Tag} {refs : List Ref}
    (h : dropDirectorTagForKept L tags dropTag refs = some kept) (ht : t ∈ kept) :
    t ∈ tags ∨ t = Vm.stemcellCacheTag := by
  unfold dropDirectorTagForKept at h
  split at h
  · cases h
  · split at h
    · dsimp only at h
      split at h
      · cases h
        exact .inl (List.mem_of_mem_filter ht)
      · cases h
        rcases mem_stringSliceEnsure ht with ht | ht
        · exact .inl (List.mem_of_mem_filter ht)
        · exact .inr ht
    · cases h

/-- What a deregistration decides and writes. -/
theorem deregisterWrite_spec {decision : Decision} {w : Option Write}
    (h : deregisterWrite L ref t = .ok (decision, w)) (ht : Unshadowed L t.description) :
    (∀ resumed, decision = .destroy resumed → ∀ r, Keeps L t r → r = ref) ∧
    (∀ x, w = some x → Unshadowed L (t.apply x).description ∧
      ∀ r, r ≠ ref → Keeps L t r → Keeps L (t.apply x) r) := by
  unfold deregisterWrite at h
  dsimp only at h
  split at h
  · -- A destroy is pending, so nobody keeps the template.
    rename_i hpending
    cases h
    have hmem : stemcellDestroyPendingTag ∈ parseTagsField t.tags := by simpa using hpending
    exact ⟨fun _ _ r hr => absurd hmem hr.pending, fun x hx => by cases hx⟩
  · split at h
    · cases h
      exact ⟨fun _ hd => (by cases hd), fun x hx => (by cases hx)⟩
    · rename_i prov hprov
      split at h
      · -- The last reference: only this Director can be held.
        rename_i hlast
        have honly : ∀ r, Keeps L t r → r = ref := by
          intro r hr
          by_contra hne
          have hmem : r ∈ removeStringFromSlice prov.directorRefs ref :=
            List.mem_filter.mpr ⟨hr.ref prov hprov, by simpa using hne⟩
          rw [List.isEmpty_iff.mp hlast] at hmem
          exact absurd hmem List.not_mem_nil
        cases h
        refine ⟨fun _ _ => honly, fun x hx => ?_⟩
        split at hx
        · cases hx
          exact ⟨ht, fun r hne hr => absurd (honly r hr) hne⟩
        · cases hx
      · split at h
        · cases h
        · rename_i newDesc hmerge
          cases h
          refine ⟨fun _ hd => (by cases hd), fun x hx => ?_⟩
          cases hx
          refine ⟨merge_unshadowed hmerge ht, fun r hne hr => ?_⟩
          refine keeps_of_merge hmerge ht ?_ ?_
          · exact List.mem_filter.mpr ⟨hr.ref prov hprov, by simpa using hne⟩
          · cases hkept : dropDirectorTagForKept L (parseTagsField t.tags) (directorTagFor ref)
              (removeStringFromSlice prov.directorRefs ref) with
            | none => exact hr.pending
            | some kept =>
              have hmarker : Vm.TagClean Vm.stemcellCacheTag :=
                Vm.clean_of_chars (by decide) (Lib.Text.forall_of_all (by decide))
              have hread : parseTagsField (joinTags kept) = kept :=
                parse_written hmarker fun y hy => mem_dropDirectorTagForKept hkept hy
              rw [Option.map_some, Option.getD_some, hread]
              intro hmem
              rcases mem_dropDirectorTagForKept hkept hmem with hmem | hmem
              · exact hr.pending hmem
              · exact absurd hmem (by decide)

end Writes

/-! ## 3. The invariant and the guarantee

Under the lock the template is fixed for whoever holds it. -/

/-- What holds of the shared state at every moment. -/
structure Inv (L : Casing) (s : Shared) : Prop where
  unshadowed : ∀ t, s.template = some t → Unshadowed L t.description
  keeps : s.overlapped = false → ∀ t, s.template = some t → ∀ r ∈ s.held, Keeps L t r
  doomed : s.overlapped = false → ∀ d ∈ s.doomed, ∀ r ∈ s.held, r = d
  log : s.overlapped = false → ∀ e ∈ s.log, ∀ r ∈ e.live, r = e.ref

/-- What one step of process `i` may do: while another process holds the lock, it can at most delete
the template and lose references. -/
structure Guar (i : Nat) (s t : Shared) : Prop where
  lock : ∀ j, j ≠ i → s.lock = some j → t.lock = some j
  template : ∀ j, j ≠ i → s.lock = some j → t.template = s.template ∨ t.template = none
  held : ∀ j, j ≠ i → s.lock = some j → ∀ r ∈ t.held, r ∈ s.held
  overlapped : t.overlapped = false → s.overlapped = false
  calls : ∀ j, j ≠ i → ∀ stage, (j, stage) ∈ s.calls → (j, stage) ∈ t.calls

theorem Guar.refl (i : Nat) (s : Shared) : Guar i s s :=
  ⟨fun _ _ h => h, fun _ _ _ => .inl rfl, fun _ _ _ _ h => h, fun h => h, fun _ _ _ h => h⟩

/-! ## 4. Stages -/

theorem mem_held {s : Shared} {r : Ref} :
    r ∈ s.held ↔ r ∈ s.live ∨ ∃ j, (j, Stage.registered r) ∈ s.calls := by
  rw [Shared.held, List.mem_append, List.mem_filterMap]
  refine or_congr_right ⟨?_, ?_⟩
  · rintro ⟨⟨j, stage⟩, hmem, heq⟩
    cases stage with
    | registered r' =>
      cases heq
      exact ⟨j, hmem⟩
    | dooming r' => cases heq
  · rintro ⟨j, hmem⟩
    exact ⟨(j, .registered r), hmem, rfl⟩

theorem mem_doomed {s : Shared} {d : Ref} :
    d ∈ s.doomed ↔ d ∈ s.tasks ∨ ∃ j, (j, Stage.dooming d) ∈ s.calls := by
  rw [Shared.doomed, List.mem_append, List.mem_filterMap]
  refine or_congr_right ⟨?_, ?_⟩
  · rintro ⟨⟨j, stage⟩, hmem, heq⟩
    cases stage with
    | registered r' => cases heq
    | dooming r' =>
      cases heq
      exact ⟨j, hmem⟩
  · rintro ⟨j, hmem⟩
    exact ⟨(j, .dooming d), hmem, rfl⟩

theorem mem_leave {s : Shared} {i j : Nat} {stage : Stage} :
    (j, stage) ∈ (s.leave i).calls ↔ (j, stage) ∈ s.calls ∧ j ≠ i := by
  rw [Shared.leave, List.mem_filter, decide_eq_true_eq]

theorem mem_enterStage {s : Shared} {i j : Nat} {stage stage' : Stage} :
    (j, stage') ∈ (s.enterStage i stage).calls ↔
      (j = i ∧ stage' = stage) ∨ ((j, stage') ∈ s.calls ∧ j ≠ i) := by
  rw [Shared.enterStage, List.mem_cons, List.mem_filter, decide_eq_true_eq, Prod.mk.injEq]

/-- A step that only loses references, destroys and stages keeps the invariant. -/
theorem Inv.weaken {L : Casing} {s t : Shared} (h : Inv L s)
    (htemplate : ∀ x, t.template = some x → s.template = some x)
    (hheld : ∀ r ∈ t.held, r ∈ s.held) (hdoomed : ∀ d ∈ t.doomed, d ∈ s.doomed)
    (hlog : t.log = s.log) (hover : t.overlapped = false → s.overlapped = false) : Inv L t := by
  refine ⟨fun x hx => h.unshadowed x (htemplate x hx), fun ho x hx r hr => ?_,
    fun ho d hd r hr => ?_, fun ho e he => ?_⟩
  · exact h.keeps (hover ho) x (htemplate x hx) r (hheld r hr)
  · exact h.doomed (hover ho) d (hdoomed d hd) r (hheld r hr)
  · rw [hlog] at he
    exact h.log (hover ho) e he

/-! ## 5. One step

The steps that matter are the write under the lock and the destroy. -/

section Steps

variable {L : Casing} {i : Nat} {s s' : Shared} {ch : Choice}

/-- Taking the lock: it was free, and it is now held by this process. -/
theorem lock_step {a : Bool} (h : Inv L s) (hx : exec i .lock ch s = some (a, s')) :
    Inv L s' ∧ Guar i s s' ∧ (a = true → s'.lock = some i) := by
  have hcases : (a = false ∧ s' = s) ∨
      (a = true ∧ s.lock = none ∧ s' = { s with lock := some i }) := by
    have hx' : execLock i ch s = some (a, s') := hx
    unfold execLock at hx'
    split at hx'
    · cases hx'
      exact .inl ⟨rfl, rfl⟩
    · split at hx'
      · rename_i hfree
        cases hx'
        exact .inr ⟨rfl, hfree, rfl⟩
      · cases hx'
  rcases hcases with ⟨rfl, rfl⟩ | ⟨-, hfree, rfl⟩
  · exact ⟨h, Guar.refl i _, fun ha => by cases ha⟩
  · refine ⟨h.weaken (fun _ hx => hx) (fun _ hr => hr) (fun _ hd => hd) rfl (fun ho => ho),
      ⟨fun j _ hj => ?_, fun _ _ _ => .inl rfl, fun _ _ _ _ hr => hr, fun ho => ho,
        fun _ _ _ hm => hm⟩, fun _ => rfl⟩
    rw [hfree] at hj
    cases hj

/-- What must hold when the lock is given up. -/
def EndOk (L : Casing) (i : Nat) : BodyEnd → Shared → Prop
  | .nothing, s => s.lock = some i
  | .registered ref, s => s.lock = some i ∧
      (s.overlapped = false → ∀ t, s.template = some t → Keeps L t ref)
  | .destroys ref, s => s.lock = some i ∧ (s.overlapped = false → ∀ r ∈ s.held, r = ref)

/-- What the process knows of itself afterwards. -/
def After (i : Nat) : BodyEnd → Shared → Prop
  | .nothing, _ => True
  | .registered ref, s => (i, .registered ref) ∈ s.calls
  | .destroys ref, s => (i, .dooming ref) ∈ s.calls

theorem guar_of_locked (hlock : s.lock = some i)
    (hover : s'.overlapped = false → s.overlapped = false)
    (hcalls : ∀ j, j ≠ i → ∀ stage, (j, stage) ∈ s.calls → (j, stage) ∈ s'.calls) :
      Guar i s s' := by
  have hno : ∀ j, j ≠ i → ¬s.lock = some j := by
    intro j hj h
    rw [hlock] at h
    exact hj (Option.some.inj h).symm
  exact ⟨fun j hj h => absurd h (hno j hj), fun j hj h => absurd h (hno j hj),
    fun j hj h => absurd h (hno j hj), hover, hcalls⟩

theorem held_enterStage {stage : Stage} {r : Ref} (hr : r ∈ (s.enterStage i stage).held) :
    r ∈ s.held ∨ stage = .registered r := by
  rcases mem_held.mp hr with hlive | ⟨j, hj⟩
  · exact .inl (mem_held.mpr (.inl hlive))
  · rcases mem_enterStage.mp hj with ⟨-, hstage⟩ | ⟨hj, -⟩
    · exact .inr hstage.symm
    · exact .inl (mem_held.mpr (.inr ⟨j, hj⟩))

theorem doomed_enterStage {stage : Stage} {d : Ref} (hd : d ∈ (s.enterStage i stage).doomed) :
    d ∈ s.doomed ∨ stage = .dooming d := by
  rcases mem_doomed.mp hd with htask | ⟨j, hj⟩
  · exact .inl (mem_doomed.mpr (.inl htask))
  · rcases mem_enterStage.mp hj with ⟨-, hstage⟩ | ⟨hj, -⟩
    · exact .inr hstage.symm
    · exact .inl (mem_doomed.mpr (.inr ⟨j, hj⟩))

/-- Giving up the lock ends the body of a call.  What the body has decided is written down there, so
the invariant can speak of it while the call goes on without the lock. -/
theorem unlock_step {how : BodyEnd} (h : Inv L s) (hend : EndOk L i how s) :
    Inv L (s.unlock i how) ∧ Guar i s (s.unlock i how) ∧ After i how (s.unlock i how) := by
  cases how with
  | nothing =>
    exact ⟨h.weaken (fun _ hx => hx) (fun _ hr => hr) (fun _ hd => hd) rfl (fun ho => ho),
      guar_of_locked hend (fun ho => ho) (fun _ _ _ hm => hm), trivial⟩
  | registered ref =>
    obtain ⟨hlock, hkeeps⟩ := hend
    have hover : (s.unlock i (.registered ref)).overlapped = false →
        s.overlapped = false ∧ ∀ d ∈ s.doomed, d = ref := by
      intro ho
      have ho' : (s.overlapped || s.doomed.any fun d => decide (d ≠ ref)) = false := ho
      rw [Bool.or_eq_false_iff] at ho'
      refine ⟨ho'.1, fun d hd => ?_⟩
      have hany := List.any_eq_false.mp ho'.2 d hd
      simpa using hany
    refine ⟨⟨h.unshadowed, fun ho t ht r hr => ?_, fun ho d hd r hr => ?_,
      fun ho => h.log (hover ho).1⟩, guar_of_locked hlock (fun ho => (hover ho).1)
        (fun j hj stage hm => mem_enterStage.mpr (.inr ⟨hm, hj⟩)),
        mem_enterStage.mpr (.inl ⟨rfl, rfl⟩)⟩
    · rcases held_enterStage (show r ∈ (s.enterStage i (.registered ref)).held from hr) with
        hold | hnew
      · exact h.keeps (hover ho).1 t ht r hold
      · cases hnew
        exact hkeeps (hover ho).1 t ht
    · have hd' : d ∈ s.doomed := by
        rcases doomed_enterStage (show d ∈ (s.enterStage i (.registered ref)).doomed from hd) with
          hd | hd
        · exact hd
        · cases hd
      rcases held_enterStage (show r ∈ (s.enterStage i (.registered ref)).held from hr) with
        hold | hnew
      · exact h.doomed (hover ho).1 d hd' r hold
      · cases hnew
        exact ((hover ho).2 d hd').symm
  | destroys ref =>
    obtain ⟨hlock, hheld⟩ := hend
    have hold : ∀ r ∈ (s.unlock i (.destroys ref)).held, r ∈ s.held := by
      intro r hr
      rcases held_enterStage (show r ∈ (s.enterStage i (.dooming ref)).held from hr) with
        hold | hnew
      · exact hold
      · cases hnew
    refine ⟨⟨h.unshadowed, fun ho t ht r hr => h.keeps ho t ht r (hold r hr),
      fun ho d hd r hr => ?_, h.log⟩, guar_of_locked hlock (fun ho => ho)
        (fun j hj stage hm => mem_enterStage.mpr (.inr ⟨hm, hj⟩)),
        mem_enterStage.mpr (.inl ⟨rfl, rfl⟩)⟩
    rcases doomed_enterStage (show d ∈ (s.enterStage i (.dooming ref)).doomed from hd) with hd | hd
    · exact h.doomed ho d hd r (hold r hr)
    · cases hd
      exact hheld ho r (hold r hr)

/-- What a read under the lock tells: the template, and for a deregistration that its Director has
not registered since, unless that is on record. -/
theorem config_step {who : Caller} {a : Except ReadFault Template} (h : Inv L s)
    (hx : exec i (.config who) ch s = some (a, s')) :
    Inv L s' ∧ Guar i s s' ∧ s'.lock = s.lock ∧ (∀ t, a = .ok t → s'.template = some t ∧
      ∀ ref, who = .deregister ref → s'.overlapped = false → ref ∉ s'.held) := by
  have hx' : execConfig who ch s = (a, s') := Option.some.inj hx
  unfold execConfig at hx'
  have hsame : ∀ b : Except ReadFault Template, (∀ t, b ≠ .ok t) → (b, s) = (a, s') →
      Inv L s' ∧ Guar i s s' ∧ s'.lock = s.lock ∧ (∀ t, a = .ok t → s'.template = some t ∧
        ∀ ref, who = .deregister ref → s'.overlapped = false → ref ∉ s'.held) := by
    intro b hb heq
    cases heq
    exact ⟨h, Guar.refl i _, rfl, fun t ht => absurd ht (hb t)⟩
  split at hx'
  · exact hsame _ (fun t ht => (by cases ht)) hx'
  · split at hx'
    · exact hsame _ (fun t ht => (by cases ht)) hx'
    · rename_i t ht
      cases hx'
      cases who with
      | register ref =>
        refine ⟨h, Guar.refl i _, rfl, fun t' ht' => ⟨?_, fun r hr => by cases hr⟩⟩
        cases ht'
        exact ht
      | deregister ref =>
        have hover : (s.read (.deregister ref)).overlapped = false →
            s.overlapped = false ∧ ref ∉ s.held := by
          intro ho
          have ho' : (s.overlapped || s.held.contains ref) = false := ho
          rw [Bool.or_eq_false_iff] at ho'
          exact ⟨ho'.1, by simpa using ho'.2⟩
        refine ⟨h.weaken (fun _ hx => hx) (fun _ hr => hr) (fun _ hd => hd) rfl
          fun ho => (hover ho).1, ⟨fun _ _ hj => hj, fun _ _ _ => .inl rfl, fun _ _ _ _ hr => hr,
          fun ho => (hover ho).1, fun _ _ _ hm => hm⟩, rfl, fun t' ht' => ⟨?_, ?_⟩⟩
        · cases ht'
          exact ht
        · intro r hr ho
          cases hr
          exact (hover ho).2

/-- A write under the lock.  What it writes must keep the template for all that are held. -/
theorem update_step {w : Write} {a : Bool} (h : Inv L s) (hlock : s.lock = some i)
    (hnew : ∀ x, s.template = some x → Unshadowed L (x.apply w).description ∧
      (s.overlapped = false → ∀ r ∈ s.held, Keeps L (x.apply w) r))
    (hx : exec i (.update w) ch s = some (a, s')) :
    Inv L s' ∧ Guar i s s' ∧ (s' = s ∧ a = false ∨ s' = s.update w) := by
  have hx' : execUpdate w ch s = (a, s') := Option.some.inj hx
  have hupdated : Inv L (s.update w) ∧ Guar i s (s.update w) := by
    refine ⟨⟨fun y hy => ?_, fun ho y hy r hr => ?_, h.doomed, h.log⟩,
      guar_of_locked hlock (fun ho => ho) (fun _ _ _ hm => hm)⟩
    · obtain ⟨x, hx, rfl⟩ := Option.map_eq_some_iff.mp hy
      exact (hnew x hx).1
    · obtain ⟨x, hx, rfl⟩ := Option.map_eq_some_iff.mp hy
      exact (hnew x hx).2 ho r hr
  unfold execUpdate at hx'
  split at hx'
  · cases hx'
    exact ⟨h, Guar.refl i _, .inl ⟨rfl, rfl⟩⟩
  · cases hx'
    exact ⟨hupdated.1, hupdated.2, .inr rfl⟩
  · cases hx'
    exact ⟨hupdated.1, hupdated.2, .inr rfl⟩

/-- A destroy hits nobody else, when it was decided by the only Director that can be held.  The log
gets the Directors that are live now, and by the invariant these are at most the one whose call it
is. -/
theorem delete_inv {ref : Ref} (h : Inv L s) (hdoomed : ref ∈ s.doomed) :
    Inv L (s.delete ref) ∧ Guar i s (s.delete ref) := by
  unfold Shared.delete
  split
  · exact ⟨h, Guar.refl i s⟩
  · refine ⟨⟨fun _ hx => (by cases hx), fun _ _ hx => (by cases hx), h.doomed, fun ho e he => ?_⟩,
      ⟨fun _ _ hj => hj, fun _ _ _ => .inr rfl, fun _ _ _ _ hr => hr, fun ho => ho,
        fun _ _ _ hm => hm⟩⟩
    rcases List.mem_cons.mp he with rfl | he
    · exact fun r hr => h.doomed ho ref hdoomed r (mem_held.mpr (.inl hr))
    · exact h.log ho e he

/-- The destroy is sent by a call that has decided on it.  The decision is remembered since the
unlock, so the log entry is justified by it. -/
theorem delete_step {ref : Ref} {a : DeleteAnswer} (h : Inv L s)
    (hstage : (i, .dooming ref) ∈ s.calls) (hx : exec i (.delete ref) ch s = some (a, s')) :
    Inv L s' ∧ Guar i s s' ∧ (i, .dooming ref) ∈ s'.calls := by
  have hdoomed : ref ∈ s.doomed := mem_doomed.mpr (.inr ⟨i, hstage⟩)
  have hdeleted : Inv L (s.delete ref) ∧ Guar i s (s.delete ref) ∧
      (i, .dooming ref) ∈ (s.delete ref).calls := by
    obtain ⟨hinv, hguar⟩ := delete_inv (i := i) h hdoomed
    refine ⟨hinv, hguar, ?_⟩
    unfold Shared.delete
    split
    · exact hstage
    · exact hstage
  have htask : Inv L { s with tasks := ref :: s.tasks } ∧
      Guar i s { s with tasks := ref :: s.tasks } ∧ (i, .dooming ref) ∈ s.calls := by
    refine ⟨h.weaken (fun _ hx => hx) (fun _ hr => hr) (fun d hd => ?_) rfl (fun ho => ho),
      ⟨fun _ _ hj => hj, fun _ _ _ => .inl rfl, fun _ _ _ _ hr => hr, fun ho => ho,
        fun _ _ _ hm => hm⟩, hstage⟩
    rcases mem_doomed.mp hd with hd | hd
    · rcases List.mem_cons.mp hd with rfl | hd
      · exact hdoomed
      · exact mem_doomed.mpr (.inl hd)
    · exact mem_doomed.mpr (.inr hd)
  have hnone : Inv L s ∧ Guar i s s ∧ (i, .dooming ref) ∈ s.calls := ⟨h, Guar.refl i s, hstage⟩
  have hx' : execDelete ref ch s = (a, s') := Option.some.inj hx
  unfold execDelete at hx'
  split at hx'
  · cases hx'
    exact hnone
  · cases hx'
    exact hnone
  · split at hx'
    · cases hx'
      exact hnone
    · cases hx'
      exact hdeleted
  · cases hx'
    exact hdeleted
  · split at hx'
    · cases hx'
      exact hnone
    · cases hx'
      exact htask
  · cases hx'
    exact htask

/-- A task of PVE that deletes the template late; it was asked for by a call that had decided. -/
theorem fire_step {n : Nat} {a : Unit} (h : Inv L s) (hx : exec i (.fire n) ch s = some (a, s')) :
    Inv L s' ∧ Guar i s s' := by
  have heq : s' = execFire n ch s := by
    cases hx
    rfl
  subst heq
  unfold execFire
  split
  · exact ⟨h, Guar.refl i s⟩
  · rename_i ref href
    have hmem : ref ∈ s.tasks := List.mem_of_getElem? href
    have herase : ∀ (u : Shared), u.tasks = s.tasks → Inv L u ∧ Guar i s u →
        Inv L { u with tasks := s.tasks.eraseIdx n } ∧
        Guar i s { u with tasks := s.tasks.eraseIdx n } := by
      rintro u hu ⟨hinv, hguar⟩
      refine ⟨hinv.weaken (fun _ hx => hx) (fun _ hr => hr) (fun d hd => ?_) rfl (fun ho => ho),
        ⟨hguar.lock, hguar.template, hguar.held, hguar.overlapped, hguar.calls⟩⟩
      rcases mem_doomed.mp hd with hd | hd
      · refine mem_doomed.mpr (.inl ?_)
        rw [hu]
        exact (List.eraseIdx_sublist _ _).subset hd
      · exact mem_doomed.mpr (.inr hd)
    split
    · exact herase s rfl ⟨h, Guar.refl i s⟩
    · refine herase (s.delete ref) ?_ (delete_inv h (mem_doomed.mpr (.inl hmem)))
      unfold Shared.delete
      split
      · rfl
      · rfl

/-- A process that is at no stage any more. -/
theorem leave_inv {live : List Ref} (h : Inv L s) (hlive : ∀ r ∈ live, r ∈ s.held) :
    Inv L { s.leave i with live := live } ∧ Guar i s { s.leave i with live := live } := by
  have hheld : ∀ r ∈ Shared.held { s.leave i with live := live }, r ∈ s.held := by
    intro r hr
    rcases mem_held.mp hr with hr | ⟨j, hj⟩
    · exact hlive r hr
    · exact mem_held.mpr (.inr ⟨j, (mem_leave.mp hj).1⟩)
  refine ⟨h.weaken (fun _ hx => hx) hheld (fun d hd => ?_) rfl (fun ho => ho),
    ⟨fun _ _ hj => hj, fun _ _ _ => .inl rfl, fun _ _ _ r hr => hheld r hr, fun ho => ho,
      fun j hj stage hm => mem_leave.mpr ⟨hm, hj⟩⟩⟩
  rcases mem_doomed.mp hd with hd | ⟨j, hj⟩
  · exact mem_doomed.mpr (.inl hd)
  · exact mem_doomed.mpr (.inr ⟨j, (mem_leave.mp hj).1⟩)

theorem returned_step {registered : Option Ref} (h : Inv L s)
    (hstage : ∀ ref, registered = some ref → (i, .registered ref) ∈ s.calls) :
    Inv L { s.leave i with live := registered.toList ++ s.live } ∧
      Guar i s { s.leave i with live := registered.toList ++ s.live } := by
  refine leave_inv h fun r hr => ?_
  rcases List.mem_append.mp hr with hr | hr
  · exact mem_held.mpr (.inr ⟨i, hstage r (Option.mem_toList.mp hr)⟩)
  · exact mem_held.mpr (.inl hr)

end Steps

/-! ## 6. The calls

Each body is read once, under the lock. -/

section Calls

variable {L : Casing} {tooLarge : Description → Bool} {i : Nat} {s : Shared} {α : Type}

/-- What must hold now for a call of process `i` to end with `Q`. -/
abbrev WP (L : Casing) (tooLarge : Description → Bool) (i : Nat) (p : Call α)
    (Q : α → Shared → Prop) (s : Shared) : Prop :=
  wp (S := system L tooLarge) (Inv L) Guar i p Q s

/-- An assertion survives what the others do. -/
abbrev Survives (L : Casing) (tooLarge : Description → Bool) (i : Nat) (P : Shared → Prop) : Prop :=
  Kept (S := system L tooLarge) (Inv L) Guar i P

/-- What a process knows after it has read `t` under the lock; `F` holds of whom the template is
held for. -/
structure Locked (i : Nat) (t : Template) (F : Ref → Prop) (s : Shared) : Prop where
  lock : s.lock = some i
  template : ∀ x, s.template = some x → x = t
  held : s.overlapped = false → ∀ r ∈ s.held, F r

theorem survives_lock : Survives L tooLarge i fun s => s.lock = some i :=
  Stable.kept fun _ hj _ _ _ _ hg h => hg.lock i hj.symm h

theorem survives_locked {t : Template} {F : Ref → Prop} : Survives L tooLarge i (Locked i t F) := by
  refine Stable.kept fun j hj s u _ _ hg h =>
    ⟨hg.lock i hj.symm h.lock, fun x hx => ?_, fun ho r hr => ?_⟩
  · rcases hg.template i hj.symm h.lock with heq | hnone
    · rw [heq] at hx
      exact h.template x hx
    · rw [hnone] at hx
      cases hx
  · exact h.held (hg.overlapped ho) r (hg.held i hj.symm h.lock r hr)

/-- What a body knows at its end is about the lock it holds, and others leave that alone. -/
theorem survives_endOk {how : BodyEnd} : Survives L tooLarge i (EndOk L i how) := by
  refine Stable.kept fun j hj s u _ _ hg h => ?_
  cases how with
  | nothing => exact hg.lock i hj.symm h
  | registered ref =>
    refine ⟨hg.lock i hj.symm h.1, fun ho x hx => ?_⟩
    rcases hg.template i hj.symm h.1 with heq | hnone
    · rw [heq] at hx
      exact h.2 (hg.overlapped ho) x hx
    · rw [hnone] at hx
      cases hx
  | destroys ref =>
    exact ⟨hg.lock i hj.symm h.1, fun ho r hr =>
      h.2 (hg.overlapped ho) r (hg.held i hj.symm h.1 r hr)⟩

theorem survives_after (how : BodyEnd) : Survives L tooLarge i (After i how) := by
  refine Stable.kept fun j hj s u _ _ hg h => ?_
  cases how with
  | nothing => trivial
  | registered ref => exact hg.calls i hj.symm _ h
  | destroys ref => exact hg.calls i hj.symm _ h

theorem survives_true : Survives L tooLarge i fun _ => True := fun _ _ _ _ _ => trivial

/-- How the body of a registration ends. -/
def registerEnd (ref : Ref) : Except Fault Unit → BodyEnd
  | .ok _ => .registered ref
  | .error _ => .nothing

/-- The body of a registration, under the lock. -/
theorem wp_registerBody {ref : Ref} (hs : Inv L s) (hlock : s.lock = some i) :
    WP L tooLarge i (registerBody L tooLarge ref) (fun r => EndOk L i (registerEnd ref r)) s := by
  refine wp_bind (wp_perform survives_lock hlock (fun a => wp_kept _ _) ?_) hs
  intro u hu hul ch a u' hx
  obtain ⟨hu', hg, hlock', hread⟩ := config_step hu hx
  refine ⟨hu', hg, ?_⟩
  have hul' : u'.lock = some i := hlock'.trans hul
  have hret : ∀ (r : Except Fault Unit) (v : Shared), EndOk L i (registerEnd ref r) v →
      WP L tooLarge i (.ret r) (fun r => EndOk L i (registerEnd ref r)) v :=
    fun r v h => wp_ret survives_endOk h
  cases a with
  | error e =>
    cases e with
    | notFound => exact hret (.error .templateGone) u' hul'
    | other => exact hret (.error .readConfig) u' hul'
  | ok t =>
    obtain ⟨htemplate, -⟩ := hread t rfl
    dsimp only
    cases hwrite : registerWrite L tooLarge ref t with
    | error e => exact hret (.error e) u' hul'
    | ok w =>
      cases w with
      | none =>
        refine hret (.ok ()) u' ⟨hul', fun _ x hx => ?_⟩
        rw [htemplate] at hx
        cases hx
        exact registerWrite_none hwrite
      | some w =>
        have hlocked : Locked i t (Keeps L t) u' := by
          refine ⟨hul', fun x hx => ?_, fun ho r hr => hu'.keeps ho t htemplate r hr⟩
          rw [htemplate] at hx
          exact (Option.some.inj hx).symm
        refine wp_bind (wp_perform survives_locked hlocked (fun a => wp_kept _ _) ?_) hu'
        intro v hv hvl ch' b v' hx'
        have hnew : ∀ x, v.template = some x → Unshadowed L (x.apply w).description ∧
            (v.overlapped = false → ∀ r ∈ v.held, Keeps L (x.apply w) r) := by
          intro x hx
          have hunshadowed := hv.unshadowed x hx
          rw [hvl.template x hx] at hunshadowed ⊢
          obtain ⟨h1, -, h3⟩ := registerWrite_some hwrite hunshadowed
          exact ⟨h1, fun ho r hr => h3 r (hvl.held ho r hr)⟩
        obtain ⟨hv', hg', heq⟩ := update_step hv hvl.lock hnew hx'
        refine ⟨hv', hg', ?_⟩
        rcases heq with ⟨rfl, rfl⟩ | rfl
        · exact hret (.error .write) _ hvl.lock
        · cases b with
          | false => exact hret (.error .write) _ hvl.lock
          | true =>
            refine hret (.ok ()) _ ⟨hvl.lock, fun _ y hy => ?_⟩
            obtain ⟨x, hx, rfl⟩ := Option.map_eq_some_iff.mp hy
            have hunshadowed := hv.unshadowed x hx
            rw [hvl.template x hx] at hunshadowed ⊢
            exact (registerWrite_some hwrite hunshadowed).2.1

/-- How the body of a deregistration ends. -/
def deregisterEnd (ref : Ref) : Except Fault Decision → BodyEnd
  | .ok (.destroy _) => .destroys ref
  | _ => .nothing

/-- A deregistration that does not destroy needs the lock and nothing else. -/
theorem endOk_of_lock {ref : Ref} {r : Except Fault Decision} {v : Shared} (hlock : v.lock = some i)
    (h : ∀ resumed, r = .ok (.destroy resumed) → v.overlapped = false → ∀ x ∈ v.held, x = ref) :
    EndOk L i (deregisterEnd ref r) v := by
  cases r with
  | error e => exact hlock
  | ok decision =>
    cases decision with
    | gone => exact hlock
    | keep remaining => exact hlock
    | destroy resumed => exact ⟨hlock, h resumed rfl⟩

/-- The body of a deregistration, under the lock.  It decides to destroy only when no reference is
left in the description it has read. -/
theorem wp_deregisterBody {ref : Ref} (hs : Inv L s) (hlock : s.lock = some i) :
    WP L tooLarge i (deregisterBody L ref) (fun r => EndOk L i (deregisterEnd ref r)) s := by
  refine wp_bind (wp_perform survives_lock hlock (fun a => wp_kept _ _) ?_) hs
  intro u hu hul ch a u' hx
  obtain ⟨hu', hg, hlock', hread⟩ := config_step hu hx
  refine ⟨hu', hg, ?_⟩
  have hul' : u'.lock = some i := hlock'.trans hul
  have hret : ∀ (r : Except Fault Decision) (v : Shared), EndOk L i (deregisterEnd ref r) v →
      WP L tooLarge i (.ret r) (fun r => EndOk L i (deregisterEnd ref r)) v :=
    fun r v h => wp_ret survives_endOk h
  cases a with
  | error e =>
    cases e with
    | notFound => exact hret (.ok .gone) u' hul'
    | other => exact hret (.error .readConfig) u' hul'
  | ok t =>
    obtain ⟨htemplate, hfree⟩ := hread t rfl
    dsimp only
    -- Whom the template is held for: it is kept for them, and this Director is not among them.
    have hlocked : Locked i t (fun r => Keeps L t r ∧ r ≠ ref) u' := by
      refine ⟨hul', fun x hx => ?_, fun ho r hr => ⟨hu'.keeps ho t htemplate r hr, ?_⟩⟩
      · rw [htemplate] at hx
        exact (Option.some.inj hx).symm
      · rintro rfl
        exact hfree r rfl ho hr
    cases hwrite : deregisterWrite L ref t with
    | error e => exact hret (.error e) u' hul'
    | ok result =>
      obtain ⟨decision, w⟩ := result
      obtain ⟨hdestroy, hwritten⟩ := deregisterWrite_spec hwrite (hu'.unshadowed t htemplate)
      have hdecided : ∀ v : Shared, Locked i t (fun r => Keeps L t r ∧ r ≠ ref) v →
          ∀ resumed, Except.ok (ε := Fault) decision = .ok (.destroy resumed) →
          v.overlapped = false → ∀ x ∈ v.held, x = ref :=
        fun v hv resumed hd ho x hx => hdestroy resumed (Except.ok.inj hd) x (hv.held ho x hx).1
      cases w with
      | none => exact hret (.ok decision) u' (endOk_of_lock hul' (hdecided u' hlocked))
      | some w =>
        refine wp_bind (wp_perform survives_locked hlocked (fun a => wp_kept _ _) ?_) hu'
        intro v hv hvl ch' b v' hx'
        have hnew : ∀ x, v.template = some x → Unshadowed L (x.apply w).description ∧
            (v.overlapped = false → ∀ r ∈ v.held, Keeps L (x.apply w) r) := by
          intro x hx
          rw [hvl.template x hx]
          obtain ⟨h1, h2⟩ := hwritten w rfl
          exact ⟨h1, fun ho r hr => h2 r (hvl.held ho r hr).2 (hvl.held ho r hr).1⟩
        obtain ⟨hv', hg', heq⟩ := update_step hv hvl.lock hnew hx'
        refine ⟨hv', hg', ?_⟩
        rcases heq with ⟨rfl, rfl⟩ | rfl
        · exact hret (.error .write) _ hvl.lock
        · cases b with
          | false => exact hret (.error .write) _ hvl.lock
          | true => exact hret (.ok decision) _ (endOk_of_lock hvl.lock (hdecided v hvl))

/-- **Under the lock.**  A body that runs under the lock and ends as it should leaves its process at
its stage. -/
theorem wp_withVMIDLock {body : Call (Except Fault α)} (how : Except Fault α → BodyEnd)
    (hhow : how (.error .lock) = .nothing) (hs : Inv L s)
    (hbody : ∀ u, Inv L u → u.lock = some i → WP L tooLarge i body (fun r => EndOk L i (how r)) u) :
    WP L tooLarge i (withVMIDLock body how) (fun r => After i (how r)) s := by
  refine wp_bind (wp_perform survives_true trivial (fun a => wp_kept _ _) ?_) hs
  intro u hu _ ch a u' hx
  obtain ⟨hu', hg, hlock⟩ := lock_step hu hx
  refine ⟨hu', hg, ?_⟩
  cases a with
  | false =>
    refine wp_ret (survives_after _) ?_
    rw [hhow]
    trivial
  | true =>
    refine wp_bind (wp_mono ?_ (hbody u' hu' (hlock rfl))) hu'
    intro r v hv hend
    refine wp_bind (wp_perform survives_endOk hend (fun a => wp_kept _ _) ?_) hv
    intro x hx' hxe ch' b x' hxx
    cases hxx
    obtain ⟨h1, h2, h3⟩ := unlock_step hx' hxe
    exact ⟨h1, h2, wp_ret (survives_after _) h3⟩

/-- The deletes of a call that is going to destroy the template. -/
theorem wp_deleteQemu {ref : Ref} {tries : Nat} (hs : Inv L s)
    (hstage : (i, .dooming ref) ∈ s.calls) :
    WP L tooLarge i (deleteQemu ref tries) (fun _ _ => True) s := by
  have hstep : ∀ u, Inv L u → After i (.destroys ref) u → ∀ ch a u',
      exec i (.delete ref) ch u = some (a, u') →
      Inv L u' ∧ Guar i u u' ∧ (i, .dooming ref) ∈ u'.calls :=
    fun u hu hstage ch a u' hx => delete_step hu hstage hx
  induction tries generalizing s with
  | zero =>
    refine wp_perform (survives_after (.destroys ref)) hstage (fun _ => survives_true) ?_
    intro u hu hstage' ch a u' hx
    obtain ⟨h1, h2, -⟩ := hstep u hu hstage' ch a u' hx
    exact ⟨h1, h2, trivial⟩
  | succ tries ih =>
    refine wp_bind (wp_perform (survives_after (.destroys ref)) hstage
      (fun a => wp_kept _ _) ?_) hs
    intro u hu hstage' ch a u' hx
    obtain ⟨h1, h2, h3⟩ := hstep u hu hstage' ch a u' hx
    refine ⟨h1, h2, ?_⟩
    cases a with
    | transient => exact ih h1 h3
    | gone => exact wp_ret survives_true trivial
    | deleted => exact wp_ret survives_true trivial
    | task => exact wp_ret survives_true trivial
    | failed => exact wp_ret survives_true trivial

/-- The destroy with its retries; the decision stands through all of them. -/
theorem wp_destroyTemplateVM {ref : Ref} {tries : Nat} (hs : Inv L s)
    (hstage : (i, .dooming ref) ∈ s.calls) :
    WP L tooLarge i (destroyTemplateVM ref tries) (fun _ _ => True) s := by
  refine wp_bind (wp_mono ?_ (wp_deleteQemu hs hstage)) hs
  intro answer u hu _
  cases answer with
  | gone => exact wp_ret survives_true trivial
  | deleted => exact wp_ret survives_true trivial
  | transient => exact wp_ret survives_true trivial
  | failed => exact wp_ret survives_true trivial
  | task =>
    refine wp_perform survives_true trivial (fun _ => survives_true) ?_
    intro v hv _ ch a v' hx
    cases hx
    exact ⟨hv, Guar.refl i v, trivial⟩

/-- The end of a call. -/
theorem wp_returned {registered : Option Ref} (how : BodyEnd) (hs : After i how s)
    (hhow : ∀ ref, registered = some ref → how = .registered ref) :
    WP L tooLarge i (perform (.returned registered)) (fun _ _ => True) s := by
  refine wp_perform (survives_after how) hs (fun _ => survives_true) ?_
  intro u hu hafter ch a u' hx
  have hstage : ∀ ref, registered = some ref → (i, .registered ref) ∈ u.calls := by
    intro ref href
    rw [hhow ref href] at hafter
    exact hafter
  cases hx
  obtain ⟨h1, h2⟩ := returned_step hu hstage
  exact ⟨h1, h2, trivial⟩

/-- **Every call keeps to the protocol.** -/
theorem wp_prog (hs : Inv L s) (op : Op) :
    WP L tooLarge i (prog L tooLarge op) (fun _ _ => True) s := by
  cases op with
  | register directorUUID =>
    refine wp_bind (wp_mono ?_ (wp_withVMIDLock (registerEnd (directorRefOrSentinel directorUUID))
      rfl hs fun u hu hlock => wp_registerBody hu hlock)) hs
    intro r u _ hafter
    refine wp_returned _ hafter ?_
    intro ref href
    cases r with
    | ok _ =>
      cases href
      rfl
    | error e => cases href
  | deregister directorUUID tries =>
    have hcall : WP L tooLarge i (deregisterStemcellDirectorRef L tries directorUUID)
        (fun _ _ => True) s := by
      refine wp_bind (wp_mono ?_ (wp_withVMIDLock
        (deregisterEnd (directorRefOrSentinel directorUUID)) rfl hs
        fun u hu hlock => wp_deregisterBody hu hlock)) hs
      intro r u hu hafter
      cases r with
      | error e => exact wp_ret survives_true trivial
      | ok decision =>
        cases decision with
        | gone => exact wp_ret survives_true trivial
        | keep remaining => exact wp_ret survives_true trivial
        | destroy resumed =>
          refine wp_bind (wp_mono ?_ (wp_destroyTemplateVM hu hafter)) hu
          intro b v _ _
          cases b with
          | true => exact wp_ret survives_true trivial
          | false => exact wp_ret survives_true trivial
    refine wp_bind (wp_mono ?_ hcall) hs
    intro r u _ _
    exact wp_returned .nothing trivial fun ref href => by cases href
  | worker n =>
    refine wp_perform survives_true trivial (fun _ => survives_true) ?_
    intro u hu _ ch a u' hx
    obtain ⟨h1, h2⟩ := fire_step hu hx
    exact ⟨h1, h2, trivial⟩

end Calls

/-! ## 7. Runs -/

/-- A deregistration that is called takes its Director off the live ones; the other calls change
nothing. -/
theorem inv_enter {L : Casing} {s : Shared} (h : Inv L s) (i : Nat) (op : Op) :
    Inv L (enter op s) ∧ Guar i s (enter op s) := by
  cases op with
  | register directorUUID => exact ⟨h, Guar.refl i s⟩
  | worker n => exact ⟨h, Guar.refl i s⟩
  | deregister directorUUID tries =>
    have hheld : ∀ r ∈ (enter (.deregister directorUUID tries) s).held, r ∈ s.held := by
      intro r hr
      rcases mem_held.mp hr with hr | hr
      · exact mem_held.mpr (.inl (List.mem_of_mem_filter hr))
      · exact mem_held.mpr (.inr hr)
    exact ⟨h.weaken (fun _ hx => hx) hheld (fun _ hd => hd) rfl (fun ho => ho),
      ⟨fun _ _ hj => hj, fun _ _ _ => .inl rfl, fun _ _ _ r hr => hheld r hr, fun ho => ho,
        fun _ _ _ hm => hm⟩⟩

theorem inv_halt {L : Casing} {s : Shared} (h : Inv L s) (i : Nat) :
    Inv L { s.leave i with lock := if s.lock = some i then none else s.lock } ∧
      Guar i s { s.leave i with lock := if s.lock = some i then none else s.lock } := by
  have hlive : ∀ r ∈ s.live, r ∈ s.held := fun r hr => mem_held.mpr (.inl hr)
  obtain ⟨hinv, hguar⟩ := leave_inv (i := i) h hlive
  refine ⟨hinv.weaken (fun _ hx => hx) (fun _ hr => hr) (fun _ hd => hd) rfl (fun ho => ho),
    ⟨fun j hj hlock => ?_, hguar.template, hguar.held, hguar.overlapped, hguar.calls⟩⟩
  have hne : ¬s.lock = some i := by
    rw [hlock]
    exact fun heq => hj (Option.some.inj heq)
  exact (if_neg hne).trans hlock

/-- **The rely-guarantee proof.** -/
def protocol (L : Casing) (tooLarge : Description → Bool) : Protocol (system L tooLarge) where
  Inv := Inv L
  Guar := Guar
  Loc _ _ _ := True
  start_ok := by
    intro i op l p s hs _ hp
    cases hp
    obtain ⟨hinv, hguar⟩ := inv_enter hs i op
    exact ⟨hinv, hguar, wp_prog hinv op⟩
  halt_ok := by
    intro i s hs
    obtain ⟨hinv, hguar⟩ := inv_halt hs i
    exact ⟨hinv, hguar, trivial⟩
  boot_kept := fun _ _ _ _ _ _ => trivial

/-- A template with nobody around. -/
def untouched (t : Option Template) : Shared := { template := t }

theorem inv_untouched {L : Casing} {t : Option Template}
    (ht : ∀ x, t = some x → Unshadowed L x.description) : Inv L (untouched t) where
  unshadowed := ht
  keeps _ _ _ _ hr := absurd hr List.not_mem_nil
  doomed _ _ hd := absurd hd List.not_mem_nil
  log _ _ he := absurd he List.not_mem_nil

/-- **Reference safety.**  In every run in which no registration takes effect while another
Director's destroy is under way and no deregistration is served for a Director that has registered
since it called, every destroy of the template is by a call of the only Director that holds it.  The
conclusion is a clause of the invariant about the log.  A destroy is decided under the lock with one
reference left, and as long as no registration takes effect before it lands, the live Directors at
that moment are at most that one. -/
theorem reference_safety {L : Casing} {tooLarge : Description → Bool} {t : Option Template}
    (ht : ∀ x, t = some x → Unshadowed L x.description) {c : Config (system L tooLarge)}
    (hreach : Reach (Config.initial (untouched t)) c) (hcalm : c.shared.overlapped = false) :
    ∀ e ∈ c.shared.log, ∀ r ∈ e.live, r = e.ref :=
  ((protocol L tooLarge).reachable (inv_untouched ht) (fun _ => trivial) hreach).inv.log hcalm

/-- A template that the Director `d` alone refers to. -/
def soleTemplate : Template :=
  { description := .object [(Field.directorRefs.key, .arr (elemsOf ["d".toList]))]
    tags := "bosh-stemcell-cache".toList }

/-- The system on which the two runs below are. -/
abbrev asciiSystem : Sys := system Vm.asciiCasing fun _ => false

/-- The Director `e` registers after `d` has decided to destroy the template and before it does. -/
def lateRegistration : List (Act asciiSystem) :=
  [.start 0 (.deregister "d".toList 0), .run 0 .ok, .run 0 .ok, .run 0 .ok, .run 0 .ok,
   .start 1 (.register "e".toList), .run 1 .ok, .run 1 .ok, .run 1 .ok, .run 1 .ok, .run 1 .ok,
   .finish 1, .run 0 .ok]

/-- `e` registers beside `d`, and `d` deregisters: the template stays.  Then `e` deregisters,
registers again in another call, and the first of the two calls destroys the template. -/
def twoDirectors : List (Act asciiSystem) :=
  [.start 1 (.register "e".toList), .run 1 .ok, .run 1 .ok, .run 1 .ok, .run 1 .ok, .run 1 .ok,
   .finish 1,
   .start 0 (.deregister "d".toList 0), .run 0 .ok, .run 0 .ok, .run 0 .ok, .run 0 .ok, .run 0 .ok,
   .finish 0,
   .start 1 (.deregister "e".toList 0), .run 1 .ok, .run 1 .ok, .run 1 .ok, .run 1 .ok,
   .start 2 (.register "e".toList), .run 2 .ok, .run 2 .ok, .run 2 .ok, .run 2 .ok, .run 2 .ok,
   .finish 2,
   .run 1 .ok]

/-- **A destroy under a registration.**  The registration of `e` has returned without an error when
the call of `d` destroys the template. -/
theorem destroyed_under_registration :
    ∃ c : Config asciiSystem, Reach (Config.initial (untouched (some soleTemplate))) c ∧
      (⟨"d".toList, ["e".toList]⟩ : Destroyed) ∈ c.shared.log := by
  have hrun : (runActs lateRegistration (Config.initial (untouched (some soleTemplate)))).map
      (fun c => c.shared.log) = some [⟨"d".toList, ["e".toList]⟩] := by
    decide
  obtain ⟨c, hc, hlog⟩ := Option.map_eq_some_iff.mp hrun
  exact ⟨c, reach_of_runActs hc, by rw [hlog]; exact List.mem_cons_self⟩

/-- The condition is met in a run of two Directors that ends with a destroy while one of them is
live: the one whose call it is. -/
theorem reference_safety_sample :
    ∃ c : Config asciiSystem, Reach (Config.initial (untouched (some soleTemplate))) c ∧
      c.shared.log = [⟨"e".toList, ["e".toList]⟩] ∧ c.shared.overlapped = false ∧
      ∀ e ∈ c.shared.log, ∀ r ∈ e.live, r = e.ref := by
  have hrun : (runActs twoDirectors (Config.initial (untouched (some soleTemplate)))).map
      (fun c => (c.shared.log, c.shared.overlapped)) =
      some ([⟨"e".toList, ["e".toList]⟩], false) := by
    decide
  obtain ⟨c, hc, heq⟩ := Option.map_eq_some_iff.mp hrun
  obtain ⟨hlog, hcalm⟩ := Prod.mk.inj heq
  have hreach := reach_of_runActs hc
  refine ⟨c, hreach, hlog, hcalm, reference_safety (fun x hx => ?_) hreach hcalm⟩
  cases hx
  intro m hm hfield
  cases List.mem_singleton.mp hm
  exact le_refl _

end Stemcell
