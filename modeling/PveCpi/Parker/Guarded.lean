/-
# Guarded writes of a parker's description

`writeParkerDescriptionGuarded` of `parker_description_write.go`: read the config of a parker, let
an edit build the description, and send it with the digest of the read, so that PVE refuses it when
the config changed in between.  A refusal starts another round, three at most.

Any number of these calls share one parker.  Everything between two steps of a call is up to the
others.  The edit is arbitrary, and may depend on the moment at which it runs (it reads the clock
and other VMs).  A read may fail, or come back without a digest and with any config at all.  An
update may fail, and a client wrapper may refuse it before it is sent; otherwise PVE applies it
exactly when its digest is that of the current config, and answers.

What the state remembers besides the config is for the theorem: the accepted updates in their order,
and for each process how many calls it started and how many updates each of them asked for.

`no_lost_record` is the contract.  A digest may come back (a config that was changed and changed
back has the digest it had), so an update can be accepted after others were.  What saves the
argument is that the config is then the one that the edit saw.

## The argument

The invariant is that the config is the replay of the accepted edits.  An update is accepted when
its digest is the current one.  The process that sends it knows the config it has read and the
digest of THAT config; equal digests make equal configs, so its edit was computed from the current
config after all, however many others were accepted in between (`Open.commit`).  Nothing is needed
about the order of calls, and no lock is taken.

A read without a digest is the dangerous case, since an update without one would be accepted
unconditionally; the code does not send it.
-/
import PveCpi.Lib.Interleave
import PveCpi.Lib.Check
import Mathlib.Data.List.Nodup

namespace Parker

open Lib.Interleave

/-! ## 1. The parker

Configs, digests and edits are parameters, with one law: configs with one digest are equal. -/

/-- A config: the description, and what else PVE keeps. -/
structure VmConfig (Rest : Type) where
  description : String
  rest : Rest
  deriving DecidableEq, Repr

/-- What the calls depend on: what else is in a config, the moments at which an edit may run, the
errors of an edit and of the API, and the digest, which tells configs apart. -/
structure Setting where
  Rest : Type
  Moment : Type
  EditErr : Type
  Fault : Type
  digest : VmConfig Rest → String
  digest_injective : Function.Injective digest

variable (P : Setting)

abbrev Setting.Config := VmConfig P.Rest

/-- `parkerDescriptionEdit`: a description to write, nothing to write, or an error. -/
abbrev Setting.Edit := P.Moment → P.Config → Except P.EditErr (Option String)

/-- `parkerDescriptionWrite`, with the client it is given. -/
structure Write where
  client : Bool := true
  /-- The client has a nodes service. -/
  nodesService : Bool := true
  node : String
  vmid : Int
  edit : Option P.Edit

def parkerDescriptionWriteAttempts : Nat := 3

/-- How a call ends. -/
inductive Outcome where
  /-- "guarded description write needs a client, an edit, a node, and a parker VMID". -/
  | arguments
  | read (e : P.Fault)
  | edit (e : P.EditErr)
  /-- The edit declined to write. -/
  | unchanged
  /-- There is no nodes service; nothing is sent. -/
  | skipped
  | written
  | update (e : P.Fault)
  /-- `errParkerConfigNoDigest`. -/
  | noDigest
  /-- `ErrParkerDescriptionContended`. -/
  | contended

/-- The answer to an update. -/
inductive UpdateAns where
  | accepted
  /-- `IsConfigDigestStale`. -/
  | stale
  | failed (e : P.Fault)

/-! ## 2. The calls as programs -/

/-- The effects of a call.  `start` gives it a number, and an update says whose it is. -/
inductive Eff where
  | start
  | config
  | moment
  | updateQemuConfig (call : Nat) (edit : P.Edit) (moment : P.Moment) (description digest : String)

def Ans : Eff P → Type
  | .start => Nat
  | .config => Except P.Fault (P.Config × Option String)
  | .moment => P.Moment
  | .updateQemuConfig .. => UpdateAns P

abbrev Code (α : Type) := Prog (Eff P) (Ans P) α

variable {P}

/-- The rounds that are left. -/
def rounds (w : Write P) (edit : P.Edit) (call : Nat) : Nat → Bool → Code P (Outcome P)
  | 0, lastReadHadNoDigest => .ret (if lastReadHadNoDigest then .noDigest else .contended)
  | left + 1, _ => .eff .config fun (r : Except P.Fault (P.Config × Option String)) =>
    match r with
    | .error e => .ret (.read e)
    | .ok (vmCfg, digest) =>
      match digest.filter (· ≠ "") with
      | none => rounds w edit call left true
      | some digest => .eff .moment fun (m : P.Moment) =>
        match edit m vmCfg with
        | .error e => .ret (.edit e)
        | .ok none => .ret .unchanged
        | .ok (some desc) =>
          if w.nodesService = false then .ret .skipped
          else .eff (.updateQemuConfig call edit m desc digest) fun (a : UpdateAns P) =>
            match a with
            | .accepted => .ret .written
            | .stale => rounds w edit call left false
            | .failed e => .ret (.update e)

def writeParkerDescriptionGuarded (w : Write P) (call : Nat) : Code P (Outcome P) :=
  match w.edit with
  | none => .ret .arguments
  | some edit =>
    if w.client = false ∨ w.node = "" ∨ w.vmid ≤ 0 then .ret .arguments
    else rounds w edit call parkerDescriptionWriteAttempts false

/-! ## 3. The system

Each process makes one call after another; the commits are logged with their process and the number
of the call. -/

variable (P)

/-- An accepted update. -/
structure Commit where
  process : Nat
  call : Nat
  edit : P.Edit
  moment : P.Moment

structure State where
  current : P.Config
  commits : List (Commit P) := []
  /-- The calls that each process started. -/
  calls : Nat → Nat := fun _ => 0
  /-- The updates that each call of a process asked for. -/
  sent : Nat → Nat → Nat := fun _ _ => 0

/-- What is left open: how an effect fares, the moment of an edit, and what a bad read delivers. -/
inductive Choice where
  | plain
  | fails (e : P.Fault)
  /-- A read without a digest, or with a blank one. -/
  | partly (vmCfg : P.Config) (blank : Bool)
  | at (m : P.Moment)
  /-- A wrapper refuses the update before it is sent. -/
  | refused

/-- What a process knows between two calls: how its calls ended. -/
abbrev Results := List (Nat × Outcome P)

variable {P}

namespace State

def startCall (s : State P) (i : Nat) : State P :=
  { s with calls := fun j => if j = i then s.calls i + 1 else s.calls j }

def countUpdate (s : State P) (i call : Nat) : State P :=
  { s with sent := fun j n => if j = i ∧ n = call then s.sent i call + 1 else s.sent j n }

def apply (s : State P) (c : Commit P) (description : String) : State P :=
  { s with current := { s.current with description := description }, commits := s.commits ++ [c] }

end State

/-- One effect. -/
def exec (i : Nat) : (e : Eff P) → Choice P → State P → Option (Ans P e × State P)
  | .start, .plain, s => some (s.calls i, s.startCall i)
  | .config, .plain, s => some (.ok (s.current, some (P.digest s.current)), s)
  | .config, .fails e, s => some (.error e, s)
  | .config, .partly vmCfg blank, s => some (.ok (vmCfg, if blank then some "" else none), s)
  | .moment, .at m, s => some (m, s)
  | .updateQemuConfig call edit m desc digest, .plain, s =>
    if digest = P.digest s.current then
      some (.accepted, (s.countUpdate i call).apply ⟨i, call, edit, m⟩ desc)
    else some (.stale, s.countUpdate i call)
  | .updateQemuConfig call .., .fails e, s => some (.failed e, s.countUpdate i call)
  | .updateQemuConfig call .., .refused, s => some (.stale, s.countUpdate i call)
  | _, _, _ => none

variable (P)

/-- Processes that call `writeParkerDescriptionGuarded` on one parker, and may crash at any
point. -/
def system : Sys where
  σ := State P
  E := Eff P
  Ans := Ans P
  Ch := Choice P
  L := Results P
  Op := Write P
  exec := exec
  prog w done := some (.eff .start fun (call : Nat) =>
    writeParkerDescriptionGuarded w call >>= fun o => .ret ((call, o) :: done))
  enter _ _ s := s
  halt _ s := s
  boot := []

variable {P}

/-! ## 4. Applying the edits one after another -/

/-- Apply accepted edits in their order, each to what its predecessor left; `none` when one of them
does not write. -/
def replay : P.Config → List (Commit P) → Option P.Config
  | cfg, [] => some cfg
  | cfg, c :: cs =>
    match c.edit c.moment cfg with
    | .ok (some desc) => replay { cfg with description := desc } cs
    | _ => none

/-- Replaying in two parts. -/
theorem replay_append {cs cs' : List (Commit P)} : ∀ {cfg cfg' : P.Config},
    replay cfg cs = some cfg' → replay cfg (cs ++ cs') = replay cfg' cs' := by
  induction cs with
  | nil =>
    intro cfg cfg' h
    cases h
    rfl
  | cons c cs ih =>
    intro cfg cfg' h
    rw [replay] at h
    rw [List.cons_append, replay]
    split at h
    · exact ih h
    · cases h

/-- One more edit. -/
theorem replay_one {cfg : P.Config} {c : Commit P} {desc : String}
    (h : c.edit c.moment cfg = .ok (some desc)) :
    replay cfg [c] = some { cfg with description := desc } := by
  unfold replay
  rw [h]
  rfl

/-! ## 5. The proof

What a call knows is how many updates it has asked for and that none of them was accepted. -/

/-- Whose update it was. -/
def Commit.writer (c : Commit P) : Nat × Nat := (c.process, c.call)

structure Inv (cfg₀ : P.Config) (s : State P) : Prop where
  replayed : replay cfg₀ s.commits = some s.current
  distinct : (s.commits.map Commit.writer).Nodup
  started : ∀ c ∈ s.commits, c.call < s.calls c.process
  bounded : ∀ i n, s.sent i n ≤ parkerDescriptionWriteAttempts
  unsent : ∀ i n, s.calls i ≤ n → s.sent i n = 0

/-- A process changes only what is its own, and adds to the commits. -/
structure Guar (i : Nat) (s t : State P) : Prop where
  calls : ∀ j, j ≠ i → t.calls j = s.calls j
  sent : ∀ j, j ≠ i → ∀ n, t.sent j n = s.sent j n
  commits : ∃ new, t.commits = s.commits ++ new ∧ ∀ c ∈ new, c.process = i

theorem Guar.refl (i : Nat) (s : State P) : Guar i s s :=
  ⟨fun _ _ => rfl, fun _ _ _ => rfl, [], (List.append_nil _).symm, fun _ h => by cases h⟩

/-- The call `n` of a process committed. -/
def Committed (s : State P) (i n : Nat) : Prop := (i, n) ∈ s.commits.map Commit.writer

/-- What is known of the calls that ended: who wrote committed, and nobody else. -/
structure Settled (i : Nat) (done : Results P) (s : State P) : Prop where
  before : ∀ r ∈ done, r.1 < s.calls i
  result : ∀ r ∈ done, r.2 = .written ↔ Committed s i r.1

/-- Inside a call that did not commit and asked for so many updates, at most. -/
structure Open (i n used : Nat) (done : Results P) (s : State P) : Prop where
  settled : Settled i done s
  older : ∀ r ∈ done, r.1 < n
  calls : s.calls i = n + 1
  uncommitted : ¬ Committed s i n
  sent : s.sent i n ≤ used

section Stability

variable {cfg₀ : P.Config} {i j : Nat} {s t : State P}

/-- The commits of the others are not one's own. -/
theorem Guar.committed_iff (h : Guar j s t) (hj : j ≠ i) (n : Nat) :
    Committed t i n ↔ Committed s i n := by
  obtain ⟨new, heq, hnew⟩ := h.commits
  unfold Committed
  rw [heq, List.map_append, List.mem_append]
  refine ⟨fun hmem => ?_, .inl⟩
  rcases hmem with hmem | hmem
  · exact hmem
  · obtain ⟨c, hc, hw⟩ := List.mem_map.mp hmem
    exact absurd ((hnew c hc).symm.trans (congrArg Prod.fst hw)) hj

theorem Settled.other {done : Results P} (h : Settled i done s) (hg : Guar j s t) (hj : j ≠ i) :
    Settled i done t := by
  refine ⟨fun r hr => ?_, fun r hr => ?_⟩
  · rw [hg.calls i hj.symm]
    exact h.before r hr
  · rw [hg.committed_iff hj]
    exact h.result r hr

variable (cfg₀)

theorem kept_settled (i : Nat) (done : Results P) :
    Kept (S := system P) (Inv cfg₀) Guar i (Settled i done) :=
  Stable.kept fun _ hj _ _ _ _ hg h => h.other hg hj

theorem kept_open (i n used : Nat) (done : Results P) :
    Kept (S := system P) (Inv cfg₀) Guar i (Open i n used done) := by
  refine Stable.kept fun j hj s t _ _ hg h => ⟨h.settled.other hg hj, h.older, ?_, ?_, ?_⟩
  · rw [hg.calls i hj.symm]
    exact h.calls
  · rw [hg.committed_iff hj]
    exact h.uncommitted
  · rw [hg.sent i hj.symm]
    exact h.sent

end Stability

section Steps

variable {cfg₀ : P.Config} {i n used : Nat} {done : Results P} {s : State P}

/-- An update is asked for. -/
theorem Open.count (hs : Inv cfg₀ s) (h : Open i n used done s)
    (hused : used < parkerDescriptionWriteAttempts) :
    Inv cfg₀ (s.countUpdate i n) ∧ Guar i s (s.countUpdate i n) ∧
      Open i n (used + 1) done (s.countUpdate i n) := by
  refine ⟨⟨hs.replayed, hs.distinct, hs.started, fun j m => ?_, fun j m hm => ?_⟩,
    ⟨fun _ _ => rfl, fun j hj m => ?_, [], (List.append_nil _).symm, fun _ h => by cases h⟩,
    ⟨h.settled.before, h.settled.result⟩, h.older, h.calls, h.uncommitted, ?_⟩
  · dsimp only [State.countUpdate]
    split_ifs
    · exact Nat.lt_of_le_of_lt h.sent hused
    · exact hs.bounded j m
  · dsimp only [State.countUpdate]
    split_ifs with hjm
    · obtain ⟨rfl, rfl⟩ := hjm
      have hm' : s.calls j ≤ m := hm
      rw [h.calls] at hm'
      omega
    · exact hs.unsent j m hm
  · dsimp only [State.countUpdate]
    rw [if_neg fun hjm => hj hjm.1]
  · dsimp only [State.countUpdate]
    rw [if_pos ⟨rfl, rfl⟩]
    exact Nat.succ_le_succ h.sent

/-- **An accepted update.**  Its digest is that of the current config, so its edit saw the current
config. -/
theorem Open.commit (hs : Inv cfg₀ s) (h : Open i n used done s) {edit : P.Edit} {m : P.Moment}
    {vmCfg : P.Config} {desc : String} (hedit : edit m vmCfg = .ok (some desc))
    (hdigest : P.digest vmCfg = P.digest s.current) :
    Inv cfg₀ (s.apply ⟨i, n, edit, m⟩ desc) ∧ Guar i s (s.apply ⟨i, n, edit, m⟩ desc) ∧
      Settled i ((n, .written) :: done) (s.apply ⟨i, n, edit, m⟩ desc) := by
  have hcfg : vmCfg = s.current := P.digest_injective hdigest
  subst hcfg
  have hwriters : (s.apply ⟨i, n, edit, m⟩ desc).commits.map Commit.writer =
      s.commits.map Commit.writer ++ [(i, n)] := List.map_append
  have hnew : ¬ (i, n) ∈ s.commits.map Commit.writer := h.uncommitted
  have hstarted : n < s.calls i := by
    rw [h.calls]
    exact Nat.lt_succ_self n
  refine ⟨⟨?_, ?_, ?_, hs.bounded, hs.unsent⟩,
    ⟨fun _ _ => rfl, fun _ _ _ => rfl, [⟨i, n, edit, m⟩], rfl, fun c hc => ?_⟩, ?_, ?_⟩
  · exact (replay_append hs.replayed).trans (replay_one (c := ⟨i, n, edit, m⟩) hedit)
  · rw [hwriters, List.nodup_append_comm]
    exact List.nodup_cons.mpr ⟨hnew, hs.distinct⟩
  · intro c hc
    rcases List.mem_append.mp hc with hc | hc
    · exact hs.started c hc
    · rw [List.mem_singleton.mp hc]
      exact hstarted
  · rw [List.mem_singleton.mp hc]
  · exact List.forall_mem_cons.mpr ⟨hstarted, h.settled.before⟩
  · refine List.forall_mem_cons.mpr ⟨⟨fun _ => ?_, fun _ => rfl⟩, fun r hr => ?_⟩
    · unfold Committed
      rw [hwriters]
      exact List.mem_append_right _ List.mem_cons_self
    · rw [h.settled.result r hr]
      unfold Committed
      rw [hwriters, List.mem_append, List.mem_singleton]
      refine ⟨.inl, fun hmem => hmem.resolve_right fun heq => ?_⟩
      have hsame : r.1 = n := congrArg Prod.snd heq
      exact Nat.lt_irrefl n (hsame ▸ h.older r hr)

/-- A call that ends without an accepted update. -/
theorem Open.ends (h : Open i n used done s) {o : Outcome P} (ho : o ≠ .written) :
    Settled i ((n, o) :: done) s := by
  refine ⟨List.forall_mem_cons.mpr ⟨?_, h.settled.before⟩,
    List.forall_mem_cons.mpr ⟨⟨fun heq => absurd heq ho, fun hc => absurd hc h.uncommitted⟩,
      h.settled.result⟩⟩
  rw [h.calls]
  exact Nat.lt_succ_self n

end Steps

/-! ## 6. The rounds -/

section Rounds

section Update

variable {i call : Nat} {edit : P.Edit} {m : P.Moment} {desc digest : String} {s : State P}

theorem exec_accepted (h : digest = P.digest s.current) :
    exec i (.updateQemuConfig call edit m desc digest) .plain s =
      some (.accepted, (s.countUpdate i call).apply ⟨i, call, edit, m⟩ desc) := if_pos h

theorem exec_stale (h : digest ≠ P.digest s.current) :
    exec i (.updateQemuConfig call edit m desc digest) .plain s =
      some (.stale, s.countUpdate i call) := if_neg h

end Update

variable {cfg₀ : P.Config} {i n : Nat} {done : Results P} {s : State P}

/-- What a call ends with. -/
def Ended (i n : Nat) (done : Results P) (o : Outcome P) (s : State P) : Prop :=
  Settled i ((n, o) :: done) s

theorem kept_ended (o : Outcome P) : Kept (S := system P) (Inv cfg₀) Guar i (Ended i n done o) :=
  kept_settled cfg₀ i _

/-- End without an accepted update. -/
theorem wp_end {used : Nat} {o : Outcome P} (ho : o ≠ .written) (h : Open i n used done s) :
    wp (S := system P) (Inv cfg₀) Guar i (.ret o) (Ended i n done) s :=
  wp_ret (kept_ended o) (h.ends ho)

/-- **The rounds.**  Whatever the others do in between, a call that asked for `used` updates and has
`left` rounds ends as it says.  By induction on the rounds that are left. -/
theorem wp_rounds (w : Write P) (edit : P.Edit) : ∀ (left used : Nat) (last : Bool) {s : State P},
    used + left ≤ parkerDescriptionWriteAttempts → Inv cfg₀ s → Open i n used done s →
    wp (S := system P) (Inv cfg₀) Guar i (rounds w edit n left last) (Ended i n done) s
  | 0, used, last, s, _, _, h => by
    unfold rounds
    refine wp_end ?_ h
    cases last <;> simp
  | left + 1, used, last, s, hbound, hs, h => by
    unfold rounds
    intro t ht he ch a t' hx
    have hopen := kept_open cfg₀ i n used done s t ht he h
    -- A read without a digest starts another round.
    have hagain : wp (S := system P) (Inv cfg₀) Guar i (rounds w edit n left true)
      (Ended i n done) t :=
      wp_rounds w edit left used true (by omega) ht hopen
    cases ch with
    | plain =>
      cases hx
      refine ⟨ht, Guar.refl i t, ?_⟩
      dsimp only
      split
      · exact hagain
      · rename_i digest hdigest
        have hd : P.digest t.current = digest := by
          obtain ⟨hsome, -⟩ := Option.filter_eq_some_iff.mp hdigest
          exact Option.some.inj hsome
        intro u hu heu ch m u' hm
        have hopen := kept_open cfg₀ i n used done t u hu heu hopen
        cases ch with
        | «at» m =>
          cases hm
          refine ⟨hu, Guar.refl i u, ?_⟩
          dsimp only
          cases hedit : edit m t.current with
          | error e => exact wp_end (by simp) hopen
          | ok found =>
            cases found with
            | none => exact wp_end (by simp) hopen
            | some desc =>
              dsimp only
              split_ifs with hnodes
              · exact wp_end (by simp) hopen
              · intro v hv hev ch b v' hb
                have hopen := kept_open cfg₀ i n used done u v hv hev hopen
                obtain ⟨hinv, hguar, hcount⟩ := hopen.count hv (by omega)
                have hnext : wp (S := system P) (Inv cfg₀) Guar i (rounds w edit n left false)
                    (Ended i n done) (v.countUpdate i n) :=
                  wp_rounds w edit left (used + 1) false (by omega) hinv hcount
                cases ch with
                | plain =>
                  by_cases hsame : digest = P.digest v.current
                  · cases (exec_accepted hsame).symm.trans hb
                    obtain ⟨hinv', hguar', hsettled⟩ :=
                      hcount.commit hinv hedit (hd.trans hsame)
                    refine ⟨hinv', ⟨hguar.calls, hguar.sent, hguar'.commits⟩, ?_⟩
                    exact wp_ret (kept_ended _) hsettled
                  · cases (exec_stale hsame).symm.trans hb
                    exact ⟨hinv, hguar, hnext⟩
                | fails e =>
                  cases hb
                  exact ⟨hinv, hguar, wp_end (by simp) hcount⟩
                | refused =>
                  cases hb
                  exact ⟨hinv, hguar, hnext⟩
                | partly vmCfg blank => cases hb
                | «at» m => cases hb
        | plain => cases hm
        | fails e => cases hm
        | partly vmCfg blank => cases hm
        | refused => cases hm
    | fails e =>
      cases hx
      exact ⟨ht, Guar.refl i t, wp_end (by simp) hopen⟩
    | partly vmCfg blank =>
      cases hx
      refine ⟨ht, Guar.refl i t, ?_⟩
      cases blank
      · exact hagain
      · exact hagain
    | «at» m => cases hx
    | refused => cases hx

theorem wp_writeParkerDescriptionGuarded (w : Write P) (hs : Inv cfg₀ s) (h : Open i n 0 done s) :
    wp (S := system P) (Inv cfg₀) Guar i (writeParkerDescriptionGuarded w n)
    (Ended i n done) s := by
  unfold writeParkerDescriptionGuarded
  split
  · exact wp_end (by simp) h
  · split_ifs
    · exact wp_end (by simp) h
    · exact wp_rounds w _ _ 0 false (Nat.le_of_eq (Nat.zero_add _)) hs h

/-- A call begins. -/
theorem open_start (hs : Inv cfg₀ s) (h : Settled i done s) :
    Inv cfg₀ (s.startCall i) ∧ Guar i s (s.startCall i) ∧
    Open i (s.calls i) 0 done (s.startCall i) := by
  have hcalls (j : Nat) : s.calls j ≤ (s.startCall i).calls j := by
    dsimp only [State.startCall]
    split_ifs with hj
    · rw [hj]
      exact Nat.le_succ _
    · exact Nat.le_refl _
  refine ⟨⟨hs.replayed, hs.distinct, fun c hc => ?_, hs.bounded, fun j m hm => ?_⟩,
    ⟨fun j hj => ?_, fun _ _ _ => rfl, [], (List.append_nil _).symm, fun _ h => by cases h⟩,
    ⟨fun r hr => ?_, h.result⟩, h.before, ?_, fun hmem => ?_, ?_⟩
  · exact Nat.lt_of_lt_of_le (hs.started c hc) (hcalls _)
  · exact hs.unsent j m (Nat.le_trans (hcalls j) hm)
  · dsimp only [State.startCall]
    rw [if_neg hj]
  · exact Nat.lt_of_lt_of_le (h.before r hr) (hcalls i)
  · dsimp only [State.startCall]
    rw [if_pos rfl]
  · obtain ⟨c, hc, hw⟩ := List.mem_map.mp hmem
    have hlt := hs.started c hc
    rw [show c.process = i from congrArg Prod.fst hw,
      show c.call = s.calls i from congrArg Prod.snd hw] at hlt
    exact Nat.lt_irrefl _ hlt
  · exact Nat.le_of_eq (hs.unsent i _ (Nat.le_refl _))

end Rounds

/-- The obligations of the proof. -/
def protocol (cfg₀ : P.Config) : Protocol (system P) where
  Inv := Inv cfg₀
  Guar := Guar
  Loc i done s := Settled i done s
  start_ok i w done p s hs hl hp := by
    cases hp
    refine ⟨hs, Guar.refl i s, ?_⟩
    intro t ht he ch call t' hx
    have hsettled := kept_settled cfg₀ i done s t ht he hl
    cases ch with
    | plain =>
      cases hx
      obtain ⟨hinv, hguar, hopen⟩ := open_start ht hsettled
      refine ⟨hinv, hguar, wp_bind (wp_mono ?_ (wp_writeParkerDescriptionGuarded w hinv hopen))
        hinv⟩
      intro o u hu hended
      exact wp_ret (kept_settled cfg₀ i _) hended
    | fails e => cases hx
    | partly vmCfg blank => cases hx
    | «at» m => cases hx
    | refused => cases hx
  halt_ok i s hs := ⟨hs, Guar.refl i s, ⟨fun _ h => (by cases h), fun _ h => (by cases h)⟩⟩
  boot_kept i := kept_settled cfg₀ i []

/-- **No lost record.**  In every reachable configuration of any number of calls: the config is what
the accepted edits make of the first one, applied in their order, each to what its predecessor left;
no call is accepted twice; a call that ended is among the accepted ones exactly when it says that it
wrote, so one that gave up, that had no digest or whose edit failed changed nothing; and no call
asked for more updates than it has attempts.  The first part is the invariant; the others are the
local assertions of the calls, which say for each process which of its calls were accepted. -/
theorem no_lost_record (P : Setting) (cfg₀ : P.Config) {c : Config (system P)}
    (h : Reach (Config.initial (S := system P) { current := cfg₀ }) c) :
    replay cfg₀ c.shared.commits = some c.shared.current ∧
    (c.shared.commits.map Commit.writer).Nodup ∧
    (∀ i (done : Results P), c.actor i = .idle done → ∀ n o, (n, o) ∈ done →
      (o = .written ↔ ∃ x ∈ c.shared.commits, x.process = i ∧ x.call = n)) ∧
    ∀ i n, c.shared.sent i n ≤ parkerDescriptionWriteAttempts := by
  have hinit : Inv cfg₀ ({ current := cfg₀ } : State P) :=
    ⟨rfl, .nil, fun _ h => (by cases h), fun _ _ => Nat.zero_le _, fun _ _ _ => rfl⟩
  have hboot : ∀ i, Settled i [] ({ current := cfg₀ } : State P) :=
    fun i => ⟨fun _ h => (by cases h), fun _ h => (by cases h)⟩
  have hok := (protocol cfg₀).reachable hinit hboot h
  refine ⟨hok.inv.replayed, hok.inv.distinct, fun i done hidle n o hmem => ?_, hok.inv.bounded⟩
  have hactor := hok.actors i
  rw [hidle] at hactor
  have hsettled : Settled i done c.shared := hactor _ hok.inv .refl
  rw [hsettled.result (n, o) hmem]
  unfold Committed
  rw [List.mem_map]
  refine exists_congr fun x => and_congr_right fun _ => ?_
  exact Prod.mk.injEq _ _ _ _ ▸ Iff.rfl

/-- Configs that are nothing but their description. -/
def sampleSetting : Setting where
  Rest := Unit
  Moment := Unit
  EditErr := Unit
  Fault := Unit
  digest cfg := "d" ++ cfg.description
  digest_injective a b h := by
    obtain ⟨da, _⟩ := a
    obtain ⟨db, _⟩ := b
    have hchars := congrArg String.toList h
    rw [String.toList_append, String.toList_append] at hchars
    have hdesc : da = db := String.toList_inj.mp (List.append_cancel_left hchars)
    rw [hdesc]

/-- A writer that appends its mark. -/
def sampleWrite (mark : String) : Write sampleSetting :=
  { node := "pve1", vmid := 900, edit := some fun _ cfg => .ok (some (cfg.description ++ mark)) }

/-- Both writers read before either writes; the second is refused once. -/
def sampleActs : List (Act (system sampleSetting)) :=
  [.start 0 (sampleWrite "a"), .start 1 (sampleWrite "b"), .run 0 .plain, .run 1 .plain,
   .run 0 .plain, .run 1 .plain, .run 0 (.at ()), .run 1 (.at ()), .run 0 .plain, .finish 0,
   .run 1 .plain, .run 1 .plain, .run 1 (.at ()), .run 1 .plain, .finish 1]

theorem no_lost_record_sample : ∃ c, Reach (Config.initial (S := system sampleSetting)
      { current := ⟨"", ()⟩ }) c ∧ c.shared.commits.length = 2 ∧
      c.shared.current.description = "ab" ∧
    replay ⟨"", ()⟩ c.shared.commits = some c.shared.current := by
  have heval : (runActs sampleActs (Config.initial (S := system sampleSetting)
      { current := ⟨"", ()⟩ })).any (fun c => decide (c.shared.commits.length = 2) &&
        decide (c.shared.current.description = "ab")) = true := by
    decide +kernel
  obtain ⟨c, hc, heval⟩ := (Option.any_eq_true _ _).mp heval
  rw [Bool.and_eq_true, decide_eq_true_eq, decide_eq_true_eq] at heval
  have hreach := reach_of_runActs hc
  exact ⟨c, hreach, heval.1, heval.2, (no_lost_record sampleSetting ⟨"", ()⟩ hreach).1⟩

end Parker
