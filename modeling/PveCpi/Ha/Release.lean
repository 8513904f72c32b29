/-
# What every run of the barrier guarantees

Two statements about `narrowActive` against every sequence of answers.

* **Order**: at each mutation on the ignored path, the resource was held, the CRM and then the LRM
  let go of the VM after that, the VM settled where they left it, on a node of the new pin, and the
  new pin was written.
* **Pins**: when the barrier requests a state other than ignored after it wrote a pin, the change
  has landed or the pin admits no node that the old one does not.  This is true exactly when the new
  pin is inside the old one; `Narrows` alone says only that some node is lost.

Both read the barrier step by step with `Keeps`, one lemma for each function of the source.

## How the order is carried

The history of a run is a list of events, and "the CRM let go after the request" is a statement
about positions in it.  Carried as such it would have to be proved again behind every call.  Instead
each stage is a predicate that survives any further events, or all those of a kind: `HeldSince` (the
resource was held at a time and nothing has changed since), `Draining` (out of the CRM since a
read), `Released`, `Written`.  A step of the barrier leads from one stage to the next, and `Ordered`
is the last one.

The equivalence about pins has an easy half, since the barrier writes only two pins and requests
states only at a few places.  For the other half a run has to be exhibited for EVERY input whose new
pin leaves the old one: `reaches_change` drives the barrier with suitable answers to its mutation on
any node of the new pin, and `change_fails` ends it there.
-/
import PveCpi.Ha.Narrow

namespace Ha

open Lib.Interleave
open Lib.Answers

/-- A run of the barrier. -/
abbrev Hist := History Ans

abbrev Ev := Event Ans

/-! ## 1. The order of a run

`InOrder` is the contract that is checked at each call; only mutations are bound by it. -/

/-- The resource was read as ignored, or the request for ignored returned nil: at once, or after a
read that settled its error. -/
def Held (h : Hist) : Prop :=
  (∃ res : Resource, (⟨.getResource, .ok (some res)⟩ : Ev) ∈ h ∧ res.state = some haStateIgnored) ∨
  ∃ p : UpdateParams, p.state = haStateIgnored ∧
    ((⟨.updateResource p, none⟩ : Ev) ∈ h ∨
      ∃ cause got, [(⟨.updateResource p, some cause⟩ : Ev), ⟨.getResource, got⟩] <:+: h ∧
        Barrier.settles haStateIgnored true got = true)

/-- The service is out of the CRM, in a round after `requestTime`. -/
structure Dropped (requestTime : Int) (st : ServiceState) : Prop where
  known : st.known = true
  outside : st.inCRM = false
  later : requestTime < st.crmStamp

/-- No known read of the events lists the service in the CRM. -/
def OutOfCRM (h : Hist) : Prop :=
  ∀ node st, (⟨.readState node, .ok (some st)⟩ : Ev) ∈ h → st.known = true → st.inCRM = false

/-- The reads from the one that showed the service dropped, as `first`, to the one that is the last
event, as `last`. -/
structure Window (requestTime : Int) (first last : ServiceState) (w : Hist) : Prop where
  head : ∃ node rest, w = (⟨.readState node, .ok (some first)⟩ : Ev) :: rest
  final : ∃ node rest, w = rest ++ [(⟨.readState node, .ok (some last)⟩ : Ev)]
  dropped : Dropped requestTime first
  droppedLast : Dropped requestTime last
  outOfCRM : OutOfCRM w

/-- The resource was held, then a state read gave the time `t`. -/
def HeldSince (t : Int) (h : Hist) : Prop :=
  ∃ held rest scan entry, h = held ++ (⟨.readState scan, .ok (some entry)⟩ : Ev) :: rest ∧
    Held held ∧ entry.known = true ∧ entry.entryTime = t

/-- The run ends with the settle wait that follows the reads of a released VM. -/
def Released (i : NarrowInput) (node : String) (h : Hist) : Prop :=
  ∃ t before window first last loc, h = before ++ window ++ [(⟨.settle, (loc, none)⟩ : Ev)] ∧
    HeldSince t before ∧ Window t first last window ∧ first.crmStamp < last.lrmStamp ∧
    loc.node = last.node ∧ node = loc.node ∧ admits i.newPin node = true

/-- Everything that comes before a mutation for the node. -/
def Ordered (i : NarrowInput) (node : String) (h : Hist) : Prop :=
  ∃ drained rest, h = drained ++ rest ∧ Released i node drained ∧
    (i.hasWritePin = true → (⟨.writePin i.newPin, none⟩ : Ev) ∈ rest)

/-- The barrier handed the resource, which is in the error state, to its re-registration. -/
def HandedOver (h : Hist) : Prop := ∃ st change a, (⟨.reregister st change, a⟩ : Ev) ∈ h

/-- The contract of a mutation on the ignored path. -/
def MutatesInOrder (i : NarrowInput) (h : Hist) (e : Op) : Prop :=
  ∀ m, e = .mutate m → ¬HandedOver h → ∃ node, Ordered i node h ∧
    m = { vmid := i.vmid, node := if node ≠ "" then node else i.mutationNode }

/-- An effect other than a mutation; a pin it writes is the new or the old one. -/
def Quiet (i : NarrowInput) : Op → Prop
  | .mutate _ => False
  | .writePin pin => i.hasWritePin = true ∧ (pin = i.newPin ∨ pin = i.oldPin)
  | _ => True

/-- The same for every effect: a pin it writes is the new or the old one. -/
def PinsOnly (i : NarrowInput) : Op → Prop
  | .writePin pin => i.hasWritePin = true ∧ (pin = i.newPin ∨ pin = i.oldPin)
  | _ => True

/-- The contract of every effect of the barrier. -/
def InOrder (i : NarrowInput) (h : Hist) (e : Op) : Prop := MutatesInOrder i h e ∧ PinsOnly i e

theorem Quiet.pinsOnly {i : NarrowInput} (e : Op) (he : Quiet i e) : PinsOnly i e := by
  cases e with
  | mutate m => trivial
  | writePin pin => exact he
  | _ => trivial

theorem Quiet.inOrder {i : NarrowInput} (h : Hist) (e : Op) (he : Quiet i e) : InOrder i h e := by
  refine ⟨fun m hm => ?_, he.pinsOnly⟩
  subst hm
  exact he.elim

theorem Requests.quiet {i : NarrowInput} (e : Op) (he : Requests e) : Quiet i e := by
  cases e with
  | getResource => trivial
  | updateResource p => trivial
  | _ => exact he.elim

theorem Requests.inOrder {i : NarrowInput} (h : Hist) (e : Op) (he : Requests e) : InOrder i h e :=
  Quiet.inOrder h e he.quiet

theorem Aside.quiet {i : NarrowInput} (e : Op) (he : Aside i e) : Quiet i e := by
  cases e with
  | writePin pin => exact he
  | mutate m => exact he.elim
  | _ => trivial

/-! ## 2. The drain

A drain may wait for any number of rounds, and lose what it has seen at each of them: a service that
is back in the CRM closes the window, and the next read may open another one. -/

theorem HeldSince.append {t : Int} {h : Hist} (hh : HeldSince t h) (ext : Hist) :
    HeldSince t (h ++ ext) := by
  obtain ⟨held, rest, scan, entry, rfl, hheld, hknown, htime⟩ := hh
  exact ⟨held, rest ++ ext, scan, entry, by simp, hheld, hknown, htime⟩

theorem OutOfCRM.append {w w' : Hist} (hw : OutOfCRM w) (hw' : OutOfCRM w') :
    OutOfCRM (w ++ w') := by
  intro node st hmem hknown
  rcases List.mem_append.mp hmem with h | h
  · exact hw node st h hknown
  · exact hw' node st h hknown

/-- The drain remembers the round `drop` in which the CRM dropped the service: since the read that
showed it, no known read lists the service. -/
def Draining (t drop : Int) (h : Hist) : Prop :=
  HeldSince t h ∧ (drop = 0 ∨ ∃ before node first rest,
    h = before ++ (⟨.readState node, .ok (some first)⟩ : Ev) :: rest ∧ HeldSince t before ∧
    Dropped t first ∧ first.crmStamp = drop ∧
    OutOfCRM ((⟨.readState node, .ok (some first)⟩ : Ev) :: rest))

namespace Draining

variable {t drop : Int} {h : Hist}

theorem forget (hd : Draining t drop h) (ext : Hist) : Draining t 0 (h ++ ext) :=
  ⟨hd.1.append ext, .inl rfl⟩

theorem append (hd : Draining t drop h) (ext : Hist) (hext : OutOfCRM ext) :
    Draining t drop (h ++ ext) := by
  refine ⟨hd.1.append ext, ?_⟩
  rcases hd.2 with rfl | ⟨before, node, first, rest, rfl, hheld, hdropped, hstamp, hout⟩
  · exact .inl rfl
  · refine .inr ⟨before, node, first, rest ++ ext, by simp, hheld, hdropped, hstamp, ?_⟩
    rw [← List.cons_append]
    exact hout.append hext

end Draining

theorem outOfCRM_single {st : ServiceState} (node : String)
    (h : st.known = true → st.inCRM = false) :
    OutOfCRM [(⟨.readState node, .ok (some st)⟩ : Ev)] := by
  intro node' st' hmem
  cases List.mem_singleton.mp hmem
  exact h

/-- The round in which the CRM dropped the service, after a read that shows it dropped. -/
def dropOf (drop : Int) (st : ServiceState) : Int := if drop = 0 then st.crmStamp else drop

/-- What a read that keeps the drain waiting can be. -/
theorem Barrier.round_wait {b : Barrier} {t drop drop' : Int} {st : ServiceState} {why : String}
    (hr : b.round t drop st = .wait drop' why) :
    ((st.known = true → st.inCRM = false) ∧ drop' = drop) ∨ drop' = 0 ∨
      (Dropped t st ∧ drop' = dropOf drop st) := by
  unfold Barrier.round at hr
  split at hr
  · rename_i hknown
    cases hr
    refine .inl ⟨fun h => ?_, rfl⟩
    rw [h] at hknown
    cases hknown
  · rename_i hknown
    split at hr
    · cases hr
    · split at hr
      · cases hr
        exact .inr (.inl rfl)
      · rename_i hcrm
        have hout : st.inCRM = false := Bool.eq_false_iff.mpr hcrm
        split at hr
        · cases hr
          exact .inl ⟨fun _ => hout, rfl⟩
        · rename_i hstamp
          change (if st.lrmStamp ≤ dropOf drop st then _ else _) = _ at hr
          split at hr
          · cases hr
            exact .inr (.inr ⟨⟨by simpa using hknown, hout, by omega⟩, rfl⟩)
          · cases hr

/-- A round ends the wait only when the CRM has dropped the VM after the request, and the LRM has
written its state after that. -/
theorem Barrier.round_released {b : Barrier} {t drop : Int} {st : ServiceState}
    (hr : b.round t drop st = .released) : Dropped t st ∧ dropOf drop st < st.lrmStamp := by
  unfold Barrier.round at hr
  split at hr
  · cases hr
  · rename_i hknown
    split at hr
    · cases hr
    · split at hr
      · cases hr
      · rename_i hcrm
        split at hr
        · cases hr
        · rename_i hstamp
          change (if st.lrmStamp ≤ dropOf drop st then _ else _) = _ at hr
          split at hr
          · cases hr
          · rename_i hlrm
            exact ⟨⟨by simpa using hknown, Bool.eq_false_iff.mpr hcrm, by omega⟩, by omega⟩

/-- A read that shows the service dropped opens a window, or falls into the one that is open. -/
theorem Draining.dropped {t drop : Int} {h : Hist} {st : ServiceState} (hd : Draining t drop h)
    (node : String) (hst : Dropped t st) :
    ∃ before w first, h ++ [(⟨.readState node, .ok (some st)⟩ : Ev)] = before ++ w ∧
      HeldSince t before ∧ Window t first st w ∧ first.crmStamp = dropOf drop st := by
  have hout := outOfCRM_single node fun _ : st.known = true => hst.outside
  by_cases hzero : drop = 0
  · refine ⟨h, _, st, rfl, hd.1, ⟨⟨node, [], rfl⟩, ⟨node, [], rfl⟩, hst, hst, hout⟩, ?_⟩
    exact (if_pos hzero).symm
  · rcases hd.2 with hz | ⟨before, node', first, rest, rfl, hheld, hfirst, hdrop, hw⟩
    · exact absurd hz hzero
    · refine ⟨before, _, first, List.append_assoc _ _ _, hheld,
        ⟨⟨node', _, rfl⟩, ⟨node, _, rfl⟩, hfirst, hst, hw.append hout⟩, ?_⟩
      rw [hdrop]
      exact (if_neg hzero).symm

/-- One read of the drain that does not release the VM. -/
theorem Draining.wait {b : Barrier} {t drop drop' : Int} {h : Hist} {st : ServiceState}
    {why : String} (hd : Draining t drop h) (node : String)
    (hr : b.round t drop st = .wait drop' why) :
    Draining t drop' (h ++ [⟨.readState node, .ok (some st)⟩]) := by
  rcases Barrier.round_wait hr with ⟨hout, rfl⟩ | rfl | ⟨hst, rfl⟩
  · exact hd.append _ (outOfCRM_single _ hout)
  · exact hd.forget _
  · obtain ⟨before, w, first, hsplit, hheld, hw, hdrop⟩ := hd.dropped node hst
    obtain ⟨node', rest, rfl⟩ := hw.head
    exact ⟨hd.1.append _, .inr ⟨before, node', first, rest, hsplit, hheld, hw.dropped, hdrop,
      hw.outOfCRM⟩⟩

/-- A drain that ends well released the VM. -/
def Drains (i : NarrowInput) (h : Hist) (r : Except Stop VMLocation) : Prop :=
  ∀ loc, r = .ok loc → Released i loc.node h

namespace Barrier

variable {b : Barrier}

theorem restoreAfter_drains {h : Hist} (loc : VMLocation) (cause : Err) :
    Keeps (fun _ => Quiet b.input) (b.restoreAfter loc cause) (Drains b.input) h := by
  refine (Keeps.of_only finish_requests fun _ => Requests.quiet).bind fun h _ _ loc hloc => ?_
  cases hloc

/-- The end of a round, for any rest of the loop. -/
theorem again_drains {t drop deadline : Int} {h : Hist} {node why : String}
    {next : String → Int → Run (Except Stop VMLocation)} (hd : Draining t drop h)
    (hnext : ∀ h', Draining t drop h' →
      Keeps (fun _ => Quiet b.input) (next node drop) (Drains b.input) h') :
    Keeps (fun _ => Quiet b.input) (b.again deadline next node drop why) (Drains b.input) h := by
  refine Keeps.perform trivial fun now => ?_
  have hd := hd.append [⟨.now, now⟩] (by intro node st hmem; cases List.mem_singleton.mp hmem)
  split
  · exact restoreAfter_drains _ _
  · refine Keeps.perform trivial fun slept => ?_
    have hd := hd.append [⟨.sleep b.input.pollInterval, slept⟩]
      (by intro node st hmem; cases List.mem_singleton.mp hmem)
    cases slept with
    | none => exact hnext _ hd
    | some cause =>
      intro loc hloc
      cases hloc

/-- The wait for release keeps `Draining` from round to round: a later read is a later state of the
same resource.  The induction is on the rounds. -/
theorem drainLoop_drains {t drop : Int} {h : Hist} (hd : Draining t drop h) (deadline : Int)
    (rounds : Nat) (node : String) :
    Keeps (fun _ => Quiet b.input) (b.drainLoop t deadline rounds node drop)
      (Drains b.input) h := by
  induction rounds generalizing drop h node with
  | zero =>
    intro loc hloc
    cases hloc
  | succ rounds ih =>
    refine Keeps.perform trivial fun a => ?_
    rcases a with cause | _ | st
    · refine again_drains (hd.append _ ?_) fun h' hd' => ih hd' _
      intro node st hmem
      cases List.mem_singleton.mp hmem
    · intro loc hloc
      cases hloc
    · dsimp only
      split
      · intro loc hloc
        cases hloc
      · rename_i drop' why hround
        exact again_drains (hd.wait node hround) fun h' hd' => ih hd' _
      · rename_i hround
        obtain ⟨hst, hlrm⟩ := round_released hround
        refine Keeps.perform trivial fun settled => ?_
        obtain ⟨loc, cause⟩ := settled
        cases cause with
        | some cause => exact restoreAfter_drains _ _
        | none =>
          dsimp only
          split
          · rw [List.append_assoc]
            exact again_drains (hd.forget _) fun h' hd' => ih hd' _
          · rename_i hnode
            split
            · exact restoreAfter_drains _ _
            · rename_i hset
              obtain ⟨before, w, first, hsplit, hheld, hw, hdrop⟩ := hd.dropped node hst
              intro loc' hloc
              cases hloc
              refine ⟨t, before, w, first, st, loc, by rw [hsplit], hheld, hw, by omega, ?_, rfl,
                ?_⟩
              · simpa using hnode
              · simpa [inNarrowSet] using hset

/-- **A drain that ends well released the VM after the request.**  A round that releases has seen a
round of the CRM without the service since the request, and a round of the LRM since that one. -/
theorem drain_drains {t : Int} {h : Hist} (hh : HeldSince t h) (rounds : Nat) (node : String) :
    Keeps (fun _ => Quiet b.input) (b.drain rounds t node) (Drains b.input) h :=
  Keeps.perform trivial fun _ => drainLoop_drains ⟨hh.append _, .inl rfl⟩ _ _ _

end Barrier

/-! ## 3. Every mutation comes in order

Step by step along `viaIgnored`.  The path through an error state hands the VM over and is not on
the ignored path any more. -/

theorem Held.append {h : Hist} (hh : Held h) (ext : Hist) : Held (h ++ ext) := by
  rcases hh with ⟨res, hmem, hstate⟩ | ⟨p, hp, hmem | ⟨cause, got, hin, hgot⟩⟩
  · exact .inl ⟨res, List.mem_append_left _ hmem, hstate⟩
  · exact .inr ⟨p, hp, .inl (List.mem_append_left _ hmem)⟩
  · exact .inr ⟨p, hp, .inr ⟨cause, got, hin.trans (List.prefix_append h ext).isInfix, hgot⟩⟩

namespace Barrier

variable {b : Barrier}

theorem params_state (state : String) (mark : Bool) : (b.params state mark).state = state := by
  unfold params
  split
  · rfl
  · split
    · rfl
    · split <;> rfl

/-- A request for ignored that returned nil holds the resource. -/
theorem request_held {h : Hist} : Keeps (fun _ => Quiet b.input) (b.request haStateIgnored true)
    (fun h r => r.1.input = b.input ∧ (r.2 = none → Held h)) h := by
  refine Keeps.perform trivial fun a => ?_
  cases a with
  | none =>
    refine ⟨rfl, fun _ => .inr ⟨_, params_state (b := b) _ true, .inl ?_⟩⟩
    exact List.mem_append_right _ (List.mem_singleton_self _)
  | some cause =>
    refine Keeps.perform trivial fun got => ?_
    split
    · rename_i hgot
      refine ⟨rfl, fun _ => .inr ⟨_, params_state (b := b) _ true, .inr ⟨cause, got, ?_, hgot⟩⟩⟩
      rw [List.append_assoc]
      exact (List.suffix_append _ _).isInfix
    · refine ⟨rfl, fun hnone => ?_⟩
      cases hnone

theorem hold_held {h : Hist} {resumed : Bool}
    (hread : (resumed = true ∨ b.restore = haStateIgnored) → Held h) :
    Keeps (fun _ => Quiet b.input) (b.hold resumed)
      (fun h r => r.1.input = b.input ∧ (r.2 = none → Held h)) h := by
  unfold hold
  split
  · exact request_held
  · rename_i hset
    refine ⟨rfl, fun _ => hread ?_⟩
    simp only [Bool.and_eq_true, Bool.not_eq_true', decide_eq_true_eq, not_and_or, not_not,
      Bool.not_eq_false] at hset
    exact hset

/-- A state read that was accepted. -/
theorem readState_ok {h : Hist} (node : String) : Keeps (fun _ => Quiet b.input) (b.readState node)
    (fun h' r => ∀ st, r = .ok st → st.known = true ∧
      h' = h ++ [(⟨.readState node, .ok (some st)⟩ : Ev)]) h := by
  refine Keeps.perform trivial fun a => ?_
  rcases a with cause | _ | st
  · intro st hst
    cases hst
  · intro st hst
    cases hst
  · intro st' hst
    split at hst
    · rename_i hknown
      cases hst
      exact ⟨hknown, rfl⟩
    · cases hst

theorem quiet_then {α β : Type} {p : Run α} {f : α → Run β} (hp : p.Only (Quiet b.input))
    (hf : ∀ a, (f a).Only (PinsOnly b.input)) : (p >>= f).Only (PinsOnly b.input) :=
  (hp.mono Quiet.pinsOnly).bind hf

theorem mutateAndCheck_pins (node : String) :
    (b.mutateAndCheck node).Only (PinsOnly b.input) := by
  refine mutate_then (fun _ => trivial) _ fun r => ?_
  obtain ⟨loc, cause⟩ := r
  cases cause with
  | some cause => trivial
  | none =>
    refine quiet_then ((checkReach_aside _).mono Aside.quiet) fun a => ?_
    cases a with
    | some cause => trivial
    | none => trivial

theorem between_pins (node : String) : (b.between node).Only (PinsOnly b.input) := by
  refine mutate_then (fun _ => trivial) _ fun r => ?_
  obtain ⟨loc, cause⟩ := r
  cases cause with
  | some cause => trivial
  | none =>
    refine quiet_then ((checkLanding_aside _).mono Aside.quiet) fun a => ?_
    cases a with
    | some e => trivial
    | none => trivial

theorem reregistering_pins (st : ServiceState) (rounds : Nat)
    (change : Option (Except Stop VMLocation)) :
    (b.reregistering st rounds change).Only (PinsOnly b.input) := by
  induction rounds generalizing change with
  | zero => trivial
  | succ rounds ih =>
    refine ⟨trivial, fun a => ?_⟩
    rcases a with node | ⟨loc, _ | cause⟩
    · exact (between_pins node).bind fun r => ih (some r)
    · trivial
    · trivial

/-- Whatever follows the hand-over is not on the ignored path. -/
theorem handedOver_keeps {i : NarrowInput} {α : Type} {h : Hist} (p : Run α) (hh : HandedOver h) :
    Keeps (MutatesInOrder i) p (fun _ _ => True) h := by
  induction p generalizing h with
  | ret a => trivial
  | eff e k ih =>
    refine ⟨fun m _ hnot => absurd hh hnot, fun a => ih a ?_⟩
    obtain ⟨st, change, answer, hmem⟩ := hh
    exact ⟨st, change, answer, List.mem_append_left _ hmem⟩

/-- A resource in error is handed over to its re-registration, and the contract speaks only of
mutations before a handover. -/
theorem errored_inOrder {h : Hist} (rounds : Nat) (st : ServiceState) :
    Keeps (InOrder b.input) (b.errored rounds st) (fun _ _ => True) h := by
  unfold errored
  split
  · trivial
  · cases rounds with
    | zero => trivial
    | succ rounds =>
      refine Keeps.perform (Quiet.inOrder _ _ trivial) fun a => ?_
      have hover : HandedOver (h ++ [(⟨.reregister st none, a⟩ : Ev)]) :=
        ⟨st, none, a, List.mem_append_right _ (List.mem_singleton_self _)⟩
      have hpins := (reregistering_pins (b := b) st (rounds + 1) none).2 a
      exact ((handedOver_keeps _ hover).and (Keeps.of_only hpins fun _ _ => id)).mono
        fun _ _ _ => trivial

theorem writeNewPin_written {h : Hist} : Keeps (fun _ => Quiet b.input) b.writeNewPin
    (fun h' r => ∃ rest, h' = h ++ rest ∧ (r = none → b.input.hasWritePin = true →
      (⟨.writePin b.input.newPin, none⟩ : Ev) ∈ rest)) h := by
  unfold writeNewPin
  split
  · rename_i hset
    refine ⟨⟨hset, .inl rfl⟩, fun a => ⟨_, rfl, fun hnone _ => ?_⟩⟩
    cases hnone
    exact List.mem_singleton_self _
  · rename_i hset
    exact ⟨[], (List.append_nil h).symm, fun _ h => absurd h hset⟩

/-- The mutation comes behind the pin, and the pin behind the release, which is what `InOrder` asks
for.  If the pin cannot be written, only requests follow. -/
theorem change_inOrder {h : Hist} {loc : VMLocation} (hh : Released b.input loc.node h) :
    Keeps (InOrder b.input) (b.change loc) (fun _ _ => True) h := by
  refine (writeNewPin_written.weaken Quiet.inOrder).bind fun h' a hw => ?_
  obtain ⟨rest, rfl, hw⟩ := hw
  cases a with
  | some cause => exact Keeps.of_only (restoreAfter_requests _ _) Requests.inOrder
  | none =>
    have hcall : InOrder b.input (h ++ rest)
        (.mutate ⟨b.input.vmid, if loc.node ≠ "" then loc.node else b.input.mutationNode⟩) := by
      refine ⟨fun m hm _ => ?_, trivial⟩
      cases hm
      exact ⟨loc.node, ⟨h, rest, rfl, hh, hw rfl⟩, rfl⟩
    refine ⟨hcall, fun a => ?_⟩
    obtain ⟨loc', cause⟩ := a
    cases cause with
    | some cause =>
      refine Keeps.of_only ?_ Quiet.inOrder
      exact ((revertPin_aside _).mono Aside.quiet).bind fun _ =>
        (restoreAfter_requests _ _).mono Requests.quiet
    | none =>
      refine Keeps.of_only ?_ Quiet.inOrder
      refine ((checkLanding_aside _).mono Aside.quiet).bind fun e => ?_
      cases e with
      | some e => trivial
      | none =>
        refine (finish_requests.mono Requests.quiet).bind fun e => ?_
        cases e with
        | some e => trivial
        | none => trivial

/-- The ignored path: read, request ignored unless the resource is held already, wait, and change.
Each stage hands its predicate to the next. -/
theorem viaIgnored_inOrder {h : Hist} {resumed : Bool} (rounds : Nat)
    (hread : (resumed = true ∨ b.restore = haStateIgnored) → Held h) :
    Keeps (InOrder b.input) (b.viaIgnored rounds resumed) (fun _ _ => True) h := by
  refine ((readState_ok _).weaken Quiet.inOrder).bind fun h₁ r hr => ?_
  cases r with
  | error e => trivial
  | ok st =>
    obtain ⟨-, rfl⟩ := hr st rfl
    dsimp only
    split
    · exact errored_inOrder rounds st
    · refine ((hold_held fun hset => (hread hset).append _).weaken Quiet.inOrder).bind
        fun h₂ r hr => ?_
      obtain ⟨b', e⟩ := r
      obtain ⟨hin, hheld⟩ := hr
      cases e with
      | some e => trivial
      | none =>
        have hheld : Held h₂ := hheld rfl
        change b'.input = b.input at hin
        rw [← hin]
        refine ((readState_ok _).weaken Quiet.inOrder).bind fun h₃ r hr => ?_
        cases r with
        | error e => exact Keeps.of_only (restoreAfter_requests _ _) Requests.inOrder
        | ok entry =>
          obtain ⟨hknown, rfl⟩ := hr entry rfl
          have hsince : HeldSince entry.entryTime
              (h₂ ++ [(⟨.readState st.node, .ok (some entry)⟩ : Ev)]) :=
            ⟨h₂, [], st.node, entry, rfl, hheld, hknown, rfl⟩
          refine ((drain_drains hsince rounds entry.node).weaken Quiet.inOrder).bind
            fun h₄ r hr => ?_
          cases r with
          | error e => trivial
          | ok loc => exact change_inOrder (hr loc rfl)

end Barrier

theorem Resource.ignored_of_current {res : Resource} (h : res.current = haStateIgnored) :
    res.state = some haStateIgnored := by
  unfold Resource.current at h
  cases hs : res.state with
  | none =>
    rw [hs] at h
    exact absurd h (by decide)
  | some s =>
    rw [hs] at h
    dsimp only at h
    split at h
    · exact absurd h (by decide)
    · rw [h]

/-- A resource that needs no ignored request was read as ignored. -/
theorem Resource.ignored_of_held {i : NarrowInput} {res : Resource} (h : res.resumed = true ∨
    (Barrier.ofResource i res).restore = haStateIgnored) : res.state = some haStateIgnored := by
  by_cases hres : res.resumed = true
  · rw [Resource.resumed, Bool.and_eq_true, decide_eq_true_eq] at hres
    exact res.ignored_of_current hres.2
  · rcases h with h | h
    · exact absurd h hres
    · rw [Barrier.ofResource, if_neg hres] at h
      exact res.ignored_of_current h

/-- What `narrowActive` does when a narrowing change finds the resource. -/
theorem narrowActive_present {i : NarrowInput} (rounds : Nat)
    (hn : narrows i.oldPin i.newPin = true) (hs : i.sysConsole = true)
    {rest : Hist} {res : Resource} {q : Run (Except Stop VMLocation)}
    (hr : Reaches (narrowActive rounds i) (⟨.getResource, .ok (some res)⟩ :: rest) q) :
    Reaches ((Barrier.ofResource i.defaults res).viaIgnored rounds res.resumed) rest q := by
  unfold narrowActive at hr
  dsimp only at hr
  split at hr
  · cases hr
  · rw [hs, hn] at hr
    cases hr with
    | step hr => exact hr

/-- **The order of narrowing.**  For a narrowing change of a present HA resource, each mutation on
the ignored path comes after everything in `Ordered`, and it is for the node the VM settled on; for
the node of the caller's mutation when that name is empty.  The barrier is walked with one predicate
for each stage, and the contract asks for the last of them at each mutation; `Keeps.call` makes a
statement about every run of it. -/
theorem narrow_order {i : NarrowInput} (hn : narrows i.oldPin i.newPin = true)
    (hs : i.sysConsole = true) {rounds : Nat} {res : Resource} {rest : Hist} {m : Mutation}
    {k : VMLocation × Option Fault → Run (Except Stop VMLocation)}
    (hr : Reaches (narrowActive rounds i) (⟨.getResource, .ok (some res)⟩ :: rest)
      (.eff (.mutate m) k))
    (hnot : ¬HandedOver rest) :
    ∃ node, Ordered i node (⟨.getResource, .ok (some res)⟩ :: rest) ∧
      m = { vmid := i.vmid, node := if node ≠ "" then node else i.mutationNode } := by
  have hr := narrowActive_present rounds hn hs hr
  have hread : (res.resumed = true ∨ (Barrier.ofResource i.defaults res).restore =
      haStateIgnored) → Held [⟨.getResource, .ok (some res)⟩] :=
    fun h => .inl ⟨res, List.mem_singleton_self _, res.ignored_of_held h⟩
  refine ((Barrier.viaIgnored_inOrder rounds hread).call hr).1 m rfl ?_
  rintro ⟨st, change, a, hmem⟩
  rcases List.mem_cons.mp hmem with heq | hmem
  · cases heq
  · exact hnot ⟨st, change, a, hmem⟩

/-! ## 4. A run through the whole barrier -/

/-- The resource that a crash inside an earlier barrier left. -/
def crashed : Resource := { state := some "ignored", comment := some "bosh-narrow-from=started" }

/-- The barrier that finishes it. -/
def resumption (i : NarrowInput) : Barrier := .ofResource i.defaults crashed

/-- The answers under which the VM drains on the node at once. -/
def opening (i : NarrowInput) (node : String) : Hist :=
  [⟨.getResource, .ok (some crashed)⟩,
   ⟨.readState i.node, .ok (some { known := true, node := node })⟩,
   ⟨.readState node, .ok (some { known := true, node := node })⟩,
   ⟨.now, 0⟩,
   ⟨.readState node, .ok (some { known := true, node := node, crmStamp := 1, lrmStamp := 2 })⟩,
   ⟨.settle, ({ node := node }, none)⟩]

theorem crashed_resumed : crashed.resumed = true := by decide

theorem drainLoop_opening {b : Barrier} {node : String} (hn : b.inNarrowSet node = true)
    (deadline : Int) : Reaches (b.drainLoop 0 deadline 1 node 0)
      [⟨.readState node, .ok (some { known := true, node := node, crmStamp := 1, lrmStamp := 2 })⟩,
       ⟨.settle, ({ node := node }, none)⟩] (.ret (.ok { node := node })) := by
  refine .step (.step ?_)
  dsimp only [bind, Prog.bind]
  rw [if_neg (by simp), hn]
  exact .here _

theorem viaIgnored_opening {b : Barrier} {node : String} (hn : b.inNarrowSet node = true) :
    Reaches (b.viaIgnored 1 true) ((opening b.input node).tail) (b.change { node := node }) := by
  refine .step (.step (.step ?_))
  have hloop := drainLoop_opening hn (0 + b.input.budget)
  exact Reaches.bind hloop (.here _)

/-- **Every accepted change can reach its mutation on every node of the new pin.**  The answers are:
the resource is ignored, the service is not in the CRM, the LRM has let go, the VM has settled on
the node. -/
theorem reaches_change {i : NarrowInput} (hv : 0 < i.vmid) (hm : i.hasMutation = true)
    (hs : i.sysConsole = true) {node : String} (hn : admits i.newPin node = true) :
    Reaches (narrowActive 1 i) (opening i node) ((resumption i).change { node := node }) := by
  have hvia := viaIgnored_opening (b := resumption i) hn
  unfold narrowActive
  dsimp only
  rw [if_neg (by simp [hm, hv]), hs]
  refine .step ?_
  change Reaches (if !narrows i.oldPin i.newPin && !crashed.resumed then _ else
    (resumption i).viaIgnored 1 crashed.resumed) _ _
  rw [crashed_resumed, Bool.not_true, Bool.and_false]
  exact hvia

theorem change_writes {b : Barrier} (loc : VMLocation) (hw : b.input.hasWritePin = true) :
    ∃ k, Reaches (b.change loc) [⟨.writePin b.input.newPin, none⟩]
      (.eff (.mutate ⟨b.input.vmid, if loc.node ≠ "" then loc.node else b.input.mutationNode⟩)
        k) := by
  unfold Barrier.change Barrier.writeNewPin
  rw [if_pos hw]
  exact ⟨_, .step (.here _)⟩

def pinA : Rule := { strict := true, nodes := AList.singleton "a" 0 }

/-- A VM without a pin that is confined to one node. -/
def sampleInput : NarrowInput := { vmid := 101, node := "a", oldPin := none, newPin := some pinA }

theorem narrow_order_sample : ∃ node,
    Ordered sampleInput node (opening sampleInput "a" ++ [⟨.writePin (some pinA), none⟩]) ∧
      (⟨101, "a"⟩ : Mutation) = ⟨101, if node ≠ "" then node else ""⟩ := by
  obtain ⟨k, hk⟩ := change_writes (b := resumption sampleInput) { node := "a" } rfl
  have hopen : Reaches (narrowActive 1 sampleInput) (opening sampleInput "a") _ :=
    reaches_change (by decide) rfl rfl (by decide)
  refine narrow_order (i := sampleInput) (by decide) rfl (hopen.trans hk) ?_
  rintro ⟨st, change, a, hmem⟩
  simp at hmem

/-- A pin that names the empty node. -/
def pinBlank : Rule := { strict := true, nodes := AList.singleton "" 0 }

def blankInput : NarrowInput :=
  { vmid := 101, node := "a", oldPin := none, newPin := some pinBlank, mutationNode := "b" }

/-- A VM that settled on the node with the empty name is changed on the node of the mutation. -/
theorem mutates_elsewhere : ∃ (rest : Hist) (m : Mutation) (k : _),
    narrows blankInput.oldPin blankInput.newPin = true ∧ blankInput.sysConsole = true ∧
    Reaches (narrowActive 1 blankInput) (⟨.getResource, .ok (some crashed)⟩ :: rest)
      (.eff (.mutate m) k) ∧
    ¬HandedOver rest ∧
    ¬∃ node, Ordered blankInput node (⟨.getResource, .ok (some crashed)⟩ :: rest) ∧
      m.node = node := by
  obtain ⟨k, hk⟩ := change_writes (b := resumption blankInput) {} rfl
  have hopen : Reaches (narrowActive 1 blankInput) (opening blankInput "") _ :=
    reaches_change (by decide) rfl rfl (by decide)
  refine ⟨_, _, k, by decide, rfl, hopen.trans hk, ?_, ?_⟩
  · rintro ⟨st, change, a, hmem⟩
    simp at hmem
  · rintro ⟨node, ⟨drained, rest, hsplit, ⟨_, before, w, _, _, loc, rfl, _, _, _, _, rfl, _⟩, _⟩,
      hnode⟩
    -- The only settle wait of the run answered the empty name.
    have hmem : (⟨.settle, (loc, none)⟩ : Ev) ∈ opening blankInput "" ++
        [⟨.writePin blankInput.newPin, none⟩] := by
      have hin : (⟨.settle, (loc, none)⟩ : Ev) ∈ before ++ w ++
          [⟨.settle, (loc, none)⟩] ++ rest := by
        simp
      rw [← hsplit] at hin
      exact hin
    simp [opening] at hmem
    rw [hmem] at hnode
    exact absurd hnode (by decide)

/-! ## 5. The pins a VM is freed under

What matters is the last pin that was written when a state other than ignored is requested. -/

/-- The pin that an event wrote successfully. -/
def pinOf : Ev → Option (Option Rule)
  | ⟨.writePin pin, none⟩ => some pin
  | _ => none

/-- The last pin that was written successfully. -/
def lastPin (h : Hist) : Option (Option Rule) := h.reverse.findSome? pinOf

/-- The mutation returned success, and the landing check passed after it. -/
def Landed (i : NarrowInput) (h : Hist) : Prop :=
  ∃ before after m loc, h = before ++ (⟨.mutate m, (loc, none)⟩ : Ev) :: after ∧
    (i.hasCheckReach = true → (⟨.checkReach loc.node, none⟩ : Ev) ∈ after) ∧
    admits i.newPin loc.node = true

theorem lastPin_mem {h : Hist} {pin : Option Rule} (hp : lastPin h = some pin) :
    (⟨.writePin pin, none⟩ : Ev) ∈ h := by
  obtain ⟨ev, hmem, hev⟩ := List.exists_of_findSome?_eq_some hp
  unfold pinOf at hev
  split at hev
  · cases hev
    exact List.mem_reverse.mp hmem
  · cases hev

/-- Events that write no pin do not change the last one. -/
theorem lastPin_append {h tail : Hist} (ht : ∀ ev ∈ tail, pinOf ev = none) :
    lastPin (h ++ tail) = lastPin h := by
  rw [lastPin, List.reverse_append, List.findSome?_append,
    List.findSome?_eq_none_iff.mpr fun ev hev => ht ev (List.mem_reverse.mp hev), Option.none_or]
  rfl

/-- The barrier may request a state. -/
def NarrowInput.Accepted (i : NarrowInput) : Prop :=
  0 < i.vmid ∧ i.hasMutation = true ∧ i.sysConsole = true

/-- A pin is written only through `WritePin`, the new or the old one, and a request is made only
for an accepted change. -/
def Allowed (i : NarrowInput) (e : Op) : Prop :=
  PinsOnly i e ∧ ∀ p, e = .updateResource p → i.Accepted

theorem widen_allowed (i : NarrowInput) {b : Barrier} (hb : b.input = i.defaults) :
    b.widen.Only (Allowed i) := by
  refine Barrier.widen_only (fun m => ⟨trivial, fun p hp => ?_⟩) fun hw => ?_
  · cases hp
  · rw [hb] at hw ⊢
    refine ⟨⟨hw, .inl rfl⟩, fun p hp => ?_⟩
    cases hp

/-- Whatever the barrier does, it writes a pin only through `WritePin`, and asks for a state only
when the change was accepted. -/
theorem narrowActive_allowed (rounds : Nat) (i : NarrowInput) :
    (narrowActive rounds i).Only (Allowed i) := by
  unfold narrowActive
  dsimp only
  split
  · trivial
  · rename_i hset
    simp only [not_or, Bool.not_eq_true', Bool.not_eq_false] at hset
    split
    · split
      · exact widen_allowed i rfl
      · trivial
    · rename_i hcon
      have hacc : i.Accepted := ⟨by omega, hset.2, by simpa using hcon⟩
      have hpins : ∀ e, PinsOnly i e → Allowed i e := fun e he => ⟨he, fun _ _ => hacc⟩
      refine ⟨hpins _ trivial, fun a => ?_⟩
      rcases a with cause | _ | res
      · dsimp only [bind, Prog.bind]
        split
        · split
          · exact widen_allowed i rfl
          · exact (Barrier.mutateAndCheck_pins _).mono hpins
        · trivial
      · trivial
      · dsimp only [bind, Prog.bind]
        split
        · exact widen_allowed i rfl
        · have hread : (res.resumed = true ∨ (Barrier.ofResource i.defaults res).restore =
              haStateIgnored) → Held [⟨.getResource, .ok (some res)⟩] :=
            fun h => .inl ⟨res, List.mem_singleton_self _, res.ignored_of_held h⟩
          exact (Barrier.viaIgnored_inOrder rounds hread).only fun _ e he => hpins e he.2

/-- The end of a change whose mutation fails while nobody can tell whether a task still runs: the
old state is requested. -/
theorem change_fails {b : Barrier} (loc : VMLocation) (hw : b.input.hasWritePin = true)
    (hm : b.marked = true) : ∃ (tail : Hist) (p : UpdateParams) (k : _),
      Reaches (b.change loc) (⟨.writePin b.input.newPin, none⟩ ::
        ⟨.mutate ⟨b.input.vmid, if loc.node ≠ "" then loc.node else b.input.mutationNode⟩,
          ({}, some {})⟩ :: tail) (.eff (.updateResource p) k) ∧ p.state = b.restore ∧
      ∀ ev ∈ tail, ∃ node a, ev = (⟨.moving node, a⟩ : Ev) := by
  have hreq : ∀ e, ∃ k, (b.restoreAfter {} e : Run (Except Stop VMLocation)) =
      .eff (.updateResource (b.params b.restore false)) k := by
    intro e
    unfold Barrier.restoreAfter Barrier.finish
    rw [hm, Bool.not_true, Bool.false_and]
    exact ⟨_, rfl⟩
  have hfail : ∃ tail, Reaches (b.revertPin loc.node) tail (.ret false) ∧
      ∀ ev ∈ tail, ∃ node a, ev = (⟨.moving node, a⟩ : Ev) := by
    unfold Barrier.revertPin
    split
    · exact ⟨[], .here _, fun _ h => absurd h List.not_mem_nil⟩
    · refine ⟨[⟨.moving loc.node, .error {}⟩], .step (.here _), fun ev hev => ?_⟩
      exact ⟨_, _, List.mem_singleton.mp hev⟩
  obtain ⟨tail, htail, hmoving⟩ := hfail
  obtain ⟨k, hk⟩ := hreq (.fault {})
  refine ⟨tail, _, k, ?_, Barrier.params_state (b := b) b.restore false, hmoving⟩
  unfold Barrier.change Barrier.writeNewPin
  rw [if_pos hw]
  refine .step (.step ?_)
  have hrest : Reaches (b.revertPin loc.node >>= fun running => b.restoreAfter {}
      (if running then .keepsPin b.input.vmid {} loc.node else .fault {})) (tail ++ [])
      (.eff (.updateResource (b.params b.restore false)) k) := by
    refine htail.bind ?_
    rw [← hk]
    exact .here _
  rw [List.append_nil] at hrest
  exact hrest

/-- In every run: when a state other than ignored is requested after a pin was written, the change
has landed, or the old pin admits every node of the last pin. -/
def FreesInsideOldPin (i : NarrowInput) : Prop :=
  ∀ rounds tr p k, Reaches (narrowActive rounds i) tr (.eff (.updateResource p) k) →
    p.state ≠ haStateIgnored → ∀ pin, lastPin tr = some pin →
      Landed i tr ∨ ∀ node, admits pin node = true → admits i.oldPin node = true

/-- A node of the new pin that the old one does not admit: the VM drains there, the mutation fails,
and the VM is freed under the new pin. -/
theorem not_frees_of_outside {i : NarrowInput} (hi : i.Accepted) (hw : i.hasWritePin = true)
    {node : String} (hnew : admits i.newPin node = true) (hold : admits i.oldPin node = false) :
    ¬FreesInsideOldPin i := by
  intro hfree
  obtain ⟨tail, p, k, hrun, hstate, hmoving⟩ :=
    change_fails (b := resumption i) { node := node } hw crashed_resumed
  have hopen := reaches_change hi.1 hi.2.1 hi.2.2 hnew
  have hrestore : (resumption i).restore ≠ haStateIgnored := by
    change (if crashed.resumed then (narrowMarkOf crashed.comment).getD "" else crashed.current) ≠ _
    rw [crashed_resumed, if_pos rfl]
    decide
  have hquiet : ∀ ev ∈ tail, pinOf ev = none := by
    intro ev hev
    obtain ⟨n, a, rfl⟩ := hmoving ev hev
    rfl
  have hlast : lastPin (opening i node ++ ⟨.writePin (resumption i).input.newPin, none⟩ ::
      ⟨.mutate ⟨(resumption i).input.vmid, if node ≠ "" then node else
        (resumption i).input.mutationNode⟩, ({}, some {})⟩ :: tail) = some i.newPin := by
    rw [List.append_cons, List.append_cons, lastPin_append hquiet, lastPin, List.reverse_append,
      List.reverse_append]
    rfl
  rcases hfree 1 _ p k (hopen.trans hrun) (hstate ▸ hrestore) _ hlast with hland | hin
  · obtain ⟨before, after, m, loc, hsplit, -, -⟩ := hland
    have hmem : (⟨.mutate m, (loc, none)⟩ : Ev) ∈ before ++ ⟨.mutate m, (loc, none)⟩ :: after :=
      List.mem_append_right _ List.mem_cons_self
    rw [← hsplit] at hmem
    simp only [opening, List.cons_append, List.nil_append, List.mem_cons, Event.mk.injEq,
      reduceCtorEq, false_and, false_or] at hmem
    rcases hmem with ⟨hm, hans⟩ | hmem
    · cases hm
      cases hans
    · obtain ⟨n, a, heq⟩ := hmoving _ hmem
      cases heq
  · rw [hin node hnew] at hold
    cases hold

/-- **The VM is freed inside its old pin exactly when the new pin is inside it.**  The conditions in
front say when the barrier writes a pin at all before it requests a state.  When the new pin is
inside the old one every pin that is written admits only nodes of the old one.  When it is not, the
VM drains on a node outside, the mutation fails without a word about its task, and the barrier keeps
the new pin and requests the old state. -/
theorem frees_inside_old_pin_iff (i : NarrowInput) :
    FreesInsideOldPin i ↔ (i.Accepted → i.hasWritePin = true →
      ∀ node, admits i.newPin node = true → admits i.oldPin node = true) := by
  constructor
  · intro hfree hi hw node hnew
    by_contra hold
    exact not_frees_of_outside hi hw hnew (Bool.eq_false_iff.mpr hold) hfree
  · intro hsub rounds tr p k hr _ pin hpin
    obtain ⟨hev, hcall⟩ := hr.only (narrowActive_allowed rounds i)
    obtain ⟨hw, hpins⟩ := (hev _ (lastPin_mem hpin)).1
    right
    rcases hpins with rfl | rfl
    · exact hsub (hcall.1.2 p rfl) hw
    · exact fun node hnode => hnode

def pinAB : Rule := { strict := true, nodes := [⟨"a", 0⟩, ⟨"b", 0⟩].toAList }

def pinBC : Rule := { strict := true, nodes := [⟨"b", 0⟩, ⟨"c", 0⟩].toAList }

/-- The pin loses one node and gains another. -/
def shiftInput : NarrowInput :=
  { vmid := 101, node := "b", oldPin := some pinAB, newPin := some pinBC }

theorem frees_outside_old_pin : narrows shiftInput.oldPin shiftInput.newPin = true ∧
    ¬FreesInsideOldPin shiftInput := by
  refine ⟨by decide, ?_⟩
  have hnew : admits shiftInput.newPin "c" = true := by decide
  exact not_frees_of_outside ⟨by decide, rfl, rfl⟩ rfl hnew (by decide)

end Ha
