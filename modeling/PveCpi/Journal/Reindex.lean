/-
# The rebuilt index

`RecoverIndex` reads every record under all locks and chooses one for each agent: an open
generation, or else the closed one that was created last.  One pass keeps one choice per agent, and
`Chose` is what it knows after any part of the list, in whatever order the records come.

The rest of the module runs the call with nobody else acting and any failures of the disk
(`Lib.Interleave.after`).  It ends without a write when two generations of one agent are open, and
when an index that could be read names a record that cannot; when it succeeds the index on disk is
the one that was chosen, and the journal's own validator accepts it.

`pathKey` is a digest, so two agents may share a key in principle.  The choice is stated per agent
for records whose agents do not.
-/
import PveCpi.Journal.Guarantees

namespace Journal

open Lib.Interleave (Prog after alone after_bind after_bindE after_mono after_alone)

/-! ## 1. One choice per agent

`Chose` is over the records seen so far.  The pass is a fold, so the invariant is about a prefix of
the list; that the result does not depend on the order follows from what the invariant says at the
end. -/

/-- What is known after the records `seen`: each key has its open record, or the closed one that was
created last. -/
structure Chose (seen : List Record) (c : Choosing) : Prop where
  ids : ∀ key, c.activeVMs.lookup key = (c.chosen.lookup key).map fun r => r.id
  found : ∀ key r, c.chosen.lookup key = some r → r ∈ seen ∧ r.kind = .vm ∧ pathKey r.agentID = key
  best : ∀ key r, c.chosen.lookup key = some r → ∀ r' ∈ seen, r'.kind = .vm →
    pathKey r'.agentID = key → (generationClosed r'.state = false → r' = r) ∧
      (generationClosed r.state = true → r'.createdAt ≤ r.createdAt)
  all : ∀ r ∈ seen, r.kind = .vm → ∃ r', c.chosen.lookup (pathKey r.agentID) = some r'

section Choice

variable {seen : List Record} {c c' : Choosing} {r : Record}

theorem Chose.empty : Chose [] ⟨∅, ∅⟩ where
  ids _ := rfl
  found _ _ h := (by cases h)
  best _ _ h := (by cases h)
  all _ h := absurd h List.not_mem_nil

/-- A record that is not of a VM is passed over. -/
theorem Chose.skip (h : Chose seen c) (hkind : r.kind ≠ .vm) : Chose (seen ++ [r]) c where
  ids := h.ids
  found key p hp := by
    obtain ⟨hmem, hrest⟩ := h.found key p hp
    exact ⟨List.mem_append_left _ hmem, hrest⟩
  best key p hp r' hr' hk hkey := by
    rcases List.mem_append.mp hr' with hr' | hr'
    · exact h.best key p hp r' hr' hk hkey
    · rw [List.mem_singleton.mp hr'] at hk
      exact absurd hk hkind
  all r' hr' hk := by
    rcases List.mem_append.mp hr' with hr' | hr'
    · exact h.all r' hr' hk
    · rw [List.mem_singleton.mp hr'] at hk
      exact absurd hk hkind

/-- The record takes the place under its key, when it is better than all that came before. -/
theorem Chose.take (h : Chose seen c) (hkind : r.kind = .vm)
    (hbetter : ∀ r' ∈ seen, r'.kind = .vm → pathKey r'.agentID = pathKey r.agentID →
      generationClosed r'.state = true ∧
        (generationClosed r.state = true → r'.createdAt ≤ r.createdAt)) :
    Chose (seen ++ [r]) (c.add r) where
  ids key := by
    by_cases hkey : key = pathKey r.agentID
    · rw [hkey]
      simp [Choosing.add]
    · simp [Choosing.add, AList.lookup_insert_ne hkey, h.ids key]
  found key p hp := by
    by_cases hkey : key = pathKey r.agentID
    · rw [hkey, Choosing.add, AList.lookup_insert] at hp
      cases hp
      exact ⟨by simp, hkind, hkey.symm⟩
    · rw [Choosing.add, AList.lookup_insert_ne hkey] at hp
      obtain ⟨hmem, hrest⟩ := h.found key p hp
      exact ⟨List.mem_append_left _ hmem, hrest⟩
  best key p hp r' hr' hk hkey' := by
    by_cases hkey : key = pathKey r.agentID
    · rw [hkey, Choosing.add, AList.lookup_insert] at hp
      cases hp
      rcases List.mem_append.mp hr' with hr' | hr'
      · obtain ⟨hclosed, hlate⟩ := hbetter r' hr' hk (hkey'.trans hkey)
        refine ⟨fun hopen => ?_, hlate⟩
        rw [hclosed] at hopen
        cases hopen
      · rw [List.mem_singleton.mp hr']
        exact ⟨fun _ => rfl, fun _ => le_refl _⟩
    · rw [Choosing.add, AList.lookup_insert_ne hkey] at hp
      rcases List.mem_append.mp hr' with hr' | hr'
      · exact h.best key p hp r' hr' hk hkey'
      · rw [List.mem_singleton.mp hr'] at hkey'
        exact absurd hkey'.symm hkey
  all r' hr' hk := by
    by_cases hkey : pathKey r'.agentID = pathKey r.agentID
    · rw [hkey]
      exact ⟨r, by simp [Choosing.add]⟩
    · rcases List.mem_append.mp hr' with hr' | hr'
      · obtain ⟨p, hp⟩ := h.all r' hr' hk
        exact ⟨p, by rw [Choosing.add, AList.lookup_insert_ne hkey]; exact hp⟩
      · rw [List.mem_singleton.mp hr'] at hkey
        exact absurd rfl hkey

/-- The choice stays, when it is better than the record. -/
theorem Chose.keep (h : Chose seen c) {p : Record}
    (hp : c.chosen.lookup (pathKey r.agentID) = some p) (hclosed : generationClosed r.state = true)
    (hlate : generationClosed p.state = true → r.createdAt ≤ p.createdAt) :
    Chose (seen ++ [r]) c where
  ids := h.ids
  found key q hq := by
    obtain ⟨hmem, hrest⟩ := h.found key q hq
    exact ⟨List.mem_append_left _ hmem, hrest⟩
  best key q hq r' hr' hk hkey := by
    rcases List.mem_append.mp hr' with hr' | hr'
    · exact h.best key q hq r' hr' hk hkey
    · rw [List.mem_singleton.mp hr'] at hkey ⊢
      rw [← hkey, hp] at hq
      cases hq
      refine ⟨fun hopen => ?_, hlate⟩
      rw [hclosed] at hopen
      cases hopen
  all r' hr' hk := by
    rcases List.mem_append.mp hr' with hr' | hr'
    · exact h.all r' hr' hk
    · rw [List.mem_singleton.mp hr']
      exact ⟨p, hp⟩

/-- **One step of the pass.**  One case for each branch of the code. -/
theorem Chose.step (h : Chose seen c) (hstep : chooseGeneration c r = .ok c') :
    Chose (seen ++ [r]) c' := by
  unfold chooseGeneration at hstep
  by_cases hkind : r.kind = .vm
  · rw [if_neg (by simp [hkind])] at hstep
    cases hp : c.chosen.lookup (pathKey r.agentID) with
    | none =>
      rw [hp] at hstep
      cases hstep
      refine h.take hkind fun r' hr' hk hkey => ?_
      obtain ⟨q, hq⟩ := h.all r' hr' hk
      rw [hkey, hp] at hq
      cases hq
    | some p =>
      rw [hp] at hstep
      dsimp only at hstep
      split at hstep
      · cases hstep
      · rename_i hboth
        split at hstep
        · rename_i hadd
          cases hstep
          simp only [Bool.and_eq_true, Bool.or_eq_true, Bool.not_eq_true',
            decide_eq_true_eq] at hadd
          refine h.take hkind fun r' hr' hk hkey => ?_
          obtain ⟨hopen, hlate⟩ := h.best _ p hp r' hr' hk hkey
          refine ⟨?_, fun hclosed => ?_⟩
          · by_contra hne
            rw [hopen (Bool.eq_false_iff.mpr hne)] at hne
            exact hne hadd.1
          · rcases hadd.2 with hr | hr
            · rw [hclosed] at hr
              cases hr
            · exact le_trans (hlate hadd.1) (le_of_lt hr)
        · rename_i hadd
          cases hstep
          simp only [Bool.and_eq_true, Bool.or_eq_true, Bool.not_eq_true', decide_eq_true_eq,
            not_and, not_or, Bool.not_eq_false] at hadd hboth
          refine h.keep hp ?_ fun hclosed => not_lt.mp (hadd hclosed).2
          -- An open record would have been chosen, or refused beside another one.
          cases hpc : generationClosed p.state with
          | true => exact (hadd hpc).1
          | false => exact hboth hpc
  · rw [if_pos (by simpa using hkind)] at hstep
    cases hstep
    exact h.skip hkind

/-- **The whole pass**, from any order of the records. -/
theorem Chose.steps {records : List Record} : ∀ {seen : List Record} {c : Choosing}, Chose seen c →
    chooseGenerations c records = .ok c' → Chose (seen ++ records) c' := by
  induction records with
  | nil =>
    intro seen c h hsteps
    cases hsteps
    rw [List.append_nil]
    exact h
  | cons r rs ih =>
    intro seen c h hsteps
    unfold chooseGenerations at hsteps
    obtain ⟨d, hd, hrest⟩ := bind_eq_ok.mp hsteps
    have := ih (h.step hd) hrest
    rwa [List.append_assoc] at this

end Choice

/-- What the index of a recovery says about the records it was made from. -/
structure Indexes (records : List Record) (idx : Index) : Prop where
  chose : ∃ c : Choosing, Chose records c ∧ idx.activeVMs = c.activeVMs

theorem indexes_of_rebuild {records : List Record} {idx : Index}
    (h : rebuildIndex records = .ok idx) : Indexes records idx := by
  unfold rebuildIndex at h
  obtain ⟨c, hc, hidx⟩ := bind_eq_ok.mp h
  cases hidx
  exact ⟨c, Chose.empty.steps hc, rfl⟩

section Indexes

variable {records : List Record} {idx : Index}

theorem Indexes.perm {records' : List Record} (h : Indexes records idx)
    (hp : records'.Perm records) : Indexes records' idx := by
  obtain ⟨c, hc, heq⟩ := h.chose
  refine ⟨c,
    ⟨hc.ids, fun key r hr => ?_, fun key r hr r' hr' => hc.best key r hr r' (hp.mem_iff.mp hr'),
    fun r hr => hc.all r (hp.mem_iff.mp hr)⟩, heq⟩
  obtain ⟨hmem, hrest⟩ := hc.found key r hr
  exact ⟨hp.mem_iff.mpr hmem, hrest⟩

/-- **The validator accepts the index.**  Every entry names a record of its agent by construction,
and every open record was chosen. -/
theorem Indexes.valid (h : Indexes records idx) (hids : (records.map fun r => r.id).Nodup) :
    validateGenerationRecords idx records = .ok () := by
  obtain ⟨c, hc, heq⟩ := h.chose
  unfold validateGenerationRecords
  simp only [check_bind_eq_ok, refuse_eq_ok, Bool.not_eq_false', List.all_eq_true]
  refine ⟨fun entry hentry => ?_, fun r hr => ?_⟩
  · have hlookup : idx.activeVMs.lookup entry.1 = some entry.2 := AList.mem_lookup_iff.mpr hentry
    rw [heq, hc.ids] at hlookup
    obtain ⟨r, hr, hid⟩ := Option.map_eq_some_iff.mp hlookup
    obtain ⟨hmem, hkind, hkey⟩ := hc.found entry.1 r hr
    have hfind : (records.find? fun r => r.id == entry.2) = some r := by
      cases hf : records.find? fun r => r.id == entry.2 with
      | none =>
        have := List.find?_eq_none.mp hf r hmem
        simp [hid] at this
      | some q =>
        have hq : q.id = r.id := by
          rw [hid]
          simpa using List.find?_some hf
        rw [List.inj_on_of_nodup_map hids (List.mem_of_find?_eq_some hf) hmem hq]
    unfold indexEntryOk
    rw [hfind]
    simp [hkind, hkey]
  · unfold generationIndexed
    by_cases hopen : r.kind = .vm ∧ generationClosed r.state = false
    · obtain ⟨p, hp⟩ := hc.all r hr hopen.1
      have heq' : r = p := ((hc.best _ p hp r hr hopen.1 rfl).1 hopen.2)
      rw [heq, hc.ids, hp, ← heq']
      simp
    · have hnot : (r.kind == .vm && !generationClosed r.state) = false := by
        cases hk : r.kind == .vm with
        | false => rfl
        | true =>
          have hkind : r.kind = .vm := by simpa using hk
          simpa using fun hcl => hopen ⟨hkind, hcl⟩
      simp [hnot]

/-- The agents of the records have keys of their own. -/
def KeysApart (records : List Record) : Prop :=
  ∀ r ∈ records, ∀ r' ∈ records, pathKey r.agentID = pathKey r'.agentID → r.agentID = r'.agentID

/-- `id` stands for the agent: its open record, or the closed one that was created last. -/
structure StandsFor (records : List Record) (agentID : String) (r : Record) : Prop where
  mem : r ∈ records
  kind : r.kind = .vm
  agent : r.agentID = agentID
  «open» : ∀ r' ∈ records, r'.kind = .vm → r'.agentID = agentID →
    generationClosed r'.state = false → r' = r
  latest : generationClosed r.state = true → ∀ r' ∈ records, r'.kind = .vm → r'.agentID = agentID →
    generationClosed r'.state = true ∧ r'.createdAt ≤ r.createdAt

/-- **Every agent with a VM record stands in the index.** -/
theorem Indexes.stands (h : Indexes records idx) (hkeys : KeysApart records) {r : Record}
    (hr : r ∈ records) (hkind : r.kind = .vm) :
    ∃ p, StandsFor records r.agentID p ∧ idx.activeVMs.lookup (pathKey r.agentID) = some p.id := by
  obtain ⟨c, hc, heq⟩ := h.chose
  obtain ⟨p, hp⟩ := hc.all r hr hkind
  obtain ⟨hmem, hpkind, hkey⟩ := hc.found _ p hp
  have hsame : ∀ r' : Record, r'.agentID = r.agentID → pathKey r'.agentID = pathKey r.agentID :=
    fun r' h => by rw [h]
  refine ⟨p, ⟨hmem, hpkind, hkeys p hmem r hr hkey, fun r' hr' hk ha ho => ?_,
    fun hclosed r' hr' hk ha => ?_⟩, ?_⟩
  · exact (hc.best _ p hp r' hr' hk (hsame r' ha)).1 ho
  · obtain ⟨hopen, hlate⟩ := hc.best _ p hp r' hr' hk (hsame r' ha)
    refine ⟨?_, hlate hclosed⟩
    by_contra hne
    rw [hopen (Bool.eq_false_iff.mpr hne)] at hne
    exact hne hclosed
  · rw [heq, hc.ids, hp]
    rfl

end Indexes

/-! ## 2. Calls with nobody else acting

`RecoverIndex` holds all the locks, so nobody else acts; what can go wrong are the calls themselves.
`Ends` reads a program with every failure that `allowed` admits. -/

section Calls

variable {i : Nat} {allowed : Eff → Choice → Prop} {α β : Type} {w : World}

/-- Whatever the disk does within `allowed`, `Q` holds when the call ends. -/
def Ends (i : Nat) (allowed : Eff → Choice → Prop) (p : M α) (Q : Except Err α → World → Prop)
    (w : World) : Prop :=
  after (S := journalSys) i allowed p.run Q w

theorem ends_bind {p : M α} {f : α → M β} {Q : Except Err β → World → Prop}
    {R : Except Err α → World → Prop} (hp : Ends i allowed p R w)
    (herr : ∀ e t, R (.error e) t → Q (.error e) t)
      (hok : ∀ a t, R (.ok a) t → Ends i allowed (f a) Q t) :
    Ends i allowed (p >>= f) Q w :=
  after_bindE hp herr hok

theorem ends_mono {p : M α} {Q Q' : Except Err α → World → Prop} (hQ : ∀ r t, Q r t → Q' r t)
    (h : Ends i allowed p Q w) : Ends i allowed p Q' w :=
  after_mono hQ h

theorem ends_check {x : Except Err α} {Q : Except Err α → World → Prop} (h : Q x w) :
    Ends i allowed (check x) Q w := h

theorem ends_act {p : P α} {Q : Except Err α → World → Prop}
    (h : after (S := journalSys) i allowed p (fun a => Q (.ok a)) w) : Ends i allowed (act p) Q w :=
  after_bind h

/-- A system call whose answer the code goes on with. -/
theorem ends_perform {e : Eff} {f : Ans e → M α} {Q : Except Err α → World → Prop}
    (h : ∀ ch a t, allowed e ch → exec i e ch w = some (a, t) → Ends i allowed (f a) Q t) :
    Ends i allowed (act (Prog.perform e) >>= f) Q w :=
  fun ch a t ha hx => h ch a t ha hx

/-- A reader leaves the world as it is. -/
theorem ends_readOnly {p : M α} (hp : ReadOnly p) : Ends i allowed p (fun _ t => t = w) w := by
  unfold ReadOnly at hp
  unfold Ends
  generalize p.run = q at hp ⊢
  induction q with
  | ret a => rfl
  | eff e k ih =>
    intro ch x t _ hx
    rw [exec_read hp.1 hx]
    exact ih x (hp.2 x)

theorem ends_read {p : M α} {f : α → M β} {Q : Except Err β → World → Prop} (hp : ReadOnly p)
    (herr : ∀ e, Q (.error e) w) (hok : ∀ a, Ends i allowed (f a) Q w) :
    Ends i allowed (p >>= f) Q w := by
  refine ends_bind (ends_readOnly hp) (fun e t ht => ?_) fun a t ht => ?_
  · rw [ht]
    exact herr e
  · rw [ht]
    exact hok a

end Calls

/-! ## 3. The readers of the recovery -/

/-- The records on disk. -/
def retained (w : World) : List Record := w.records.entries.map fun entry => entry.2

section Readers

variable {i : Nat} {allowed : Eff → Choice → Prop} {w : World} {j : Authority}

theorem acceptRecord_id {id : String} {x : ReadResult} {r : Record}
    (h : acceptRecord j id x = .ok r) : r.id = id := by
  cases x with
  | failed => cases h
  | missing => cases h
  | malformed => cases h
  | found p =>
    simp only [acceptRecord, check_bind_eq_ok, refuse_eq_ok, pure_eq_ok] at h
    obtain ⟨-, hmatch, rfl⟩ := h
    simp only [Bool.or_eq_false_iff, bne_eq_false_iff_eq] at hmatch
    exact hmatch.1

/-- `Inspect` cannot give the record: the disk does not answer, or what it answers is refused. -/
def Unreadable (allowed : Eff → Choice → Prop) (j : Authority) (w : World) (id : String) : Prop :=
  (∀ ch, allowed (.readRecord id) ch → ch.fault ≠ .none) ∨
    ∀ r, acceptRecord j id (w.readRecord id) ≠ .ok r

/-- What `Inspect` gives is on disk, under its own name. -/
theorem ends_inspect {id : String} :
    Ends i allowed (inspect j id) (fun x t => t = w ∧ ∀ r, x = .ok r →
      w.records.lookup id = some r ∧ r.id = id ∧ ¬ Unreadable allowed j w id) w := by
  refine ends_bind (R := fun _ t => t = w) (ends_check rfl)
    (fun e t ht => ⟨ht, fun r hr => by cases hr⟩) fun _ t ht => ?_
  rw [ht]
  refine ends_perform fun ch a t hch hx => ends_check ?_
  refine ⟨exec_read (e := .readRecord id) trivial hx, fun r hr => ?_⟩
  have hid := acceptRecord_id hr
  simp only [exec, orFail] at hx
  split at hx
  · rename_i hfault
    obtain ⟨rfl, -⟩ := Prod.mk.inj (Option.some.inj hx)
    refine ⟨(acceptRecord_ok hr).1, hid, ?_⟩
    rintro (hnever | hrefused)
    · exact hnever ch hch hfault
    · exact hrefused r hr
  · obtain ⟨rfl, -⟩ := Prod.mk.inj (Option.some.inj hx)
    cases hr

/-- Inspecting the records reads them one by one, in the order of the listing, and writes
nothing. -/
theorem ends_inspectAll : ∀ {ids : List String},
    Ends i allowed (inspectAll j ids) (fun x t => t = w ∧ ∀ rs, x = .ok rs →
      List.Forall₂ (fun id r => w.records.lookup id = some r ∧ r.id = id) ids rs) w := by
  intro ids
  induction ids with
  | nil =>
    refine ends_check (x := .ok []) ⟨rfl, fun rs hrs => ?_⟩
    cases hrs
    exact .nil
  | cons id ids ih =>
    refine ends_bind ends_inspect (fun e t ht => ⟨ht.1, fun rs hrs => by cases hrs⟩) fun r t ht =>
      ?_
    obtain ⟨rfl, hr⟩ := ht
    refine ends_bind ih (fun e t ht => ⟨ht.1, fun rs hrs => by cases hrs⟩) fun rs t ht => ?_
    obtain ⟨rfl, hrs⟩ := ht
    refine ends_check (x := .ok (r :: rs)) ⟨rfl, fun rs' hrs' => ?_⟩
    cases hrs'
    obtain ⟨hlookup, hid, -⟩ := hr r rfl
    exact .cons ⟨hlookup, hid⟩ (hrs rs rfl)

/-- When every file was read, what was read is the list of all records on disk. -/
theorem retained_of_inspected {rs : List Record}
    (h : List.Forall₂ (fun id r => w.records.lookup id = some r ∧ r.id = id) w.records.keys rs) :
    rs = retained w ∧ rs.map (fun r => r.id) = w.records.keys := by
  constructor
  · have hkeys : w.records.keys = w.records.entries.map Sigma.fst := rfl
    rw [hkeys, List.forall₂_map_left_iff] at h
    obtain ⟨hlen, hall⟩ := List.forall₂_iff_zip.mp h
    refine (List.forall₂_eq_eq_eq ▸ List.forall₂_map_left_iff.mpr (List.forall₂_iff_zip.mpr
      ⟨hlen, fun {entry r} hmem => ?_⟩) : retained w = rs).symm
    have hlookup : w.records.lookup entry.1 = some entry.2 :=
      AList.mem_lookup_iff.mpr (List.of_mem_zip hmem).1
    exact Option.some.inj (hlookup.symm.trans (hall hmem).1)
  · have heq := h.imp (S := fun id r => r.id = id) fun _ _ h => h.2
    have heq :=
      (List.forall₂_map_right_iff (f := fun r : Record => r.id) (R := fun a b => b = a)).mpr heq
    exact (List.forall₂_eq_eq_eq ▸ heq.imp fun _ _ h => h.symm : w.records.keys = _).symm

/-- `List` gives the records on disk, in some order. -/
theorem ends_list :
    Ends i allowed (list j) (fun x t => t = w ∧ ∀ rs, x = .ok rs →
      rs.Perm (retained w) ∧ (rs.map fun r => r.id).Nodup) w := by
  refine ends_perform fun ch a t _ hx => ?_
  have ht := exec_read (e := .readDir) trivial hx
  rw [ht] at hx ⊢
  simp only [exec, orFail] at hx
  split at hx
  · obtain ⟨rfl, -⟩ := Prod.mk.inj (Option.some.inj hx)
    refine ends_bind (R := fun x t => t = w ∧ x = .ok w.records.keys) (ends_check ⟨rfl, rfl⟩)
      (fun e t ht => by cases ht.2) fun ids t ht => ?_
    obtain ⟨rfl, hids⟩ := ht
    cases hids
    refine ends_bind ends_inspectAll (fun e t ht => ⟨ht.1, fun rs hrs => by cases hrs⟩)
      fun rs t ht => ?_
    obtain ⟨rfl, hrs⟩ := ht
    refine ends_check (x := .ok (sortByID rs)) ⟨rfl, fun rs' hrs' => ?_⟩
    cases hrs'
    obtain ⟨heq, hids⟩ := retained_of_inspected (hrs rs rfl)
    have hperm : (sortByID rs).Perm rs := List.perm_insertionSort _ _
    refine ⟨heq ▸ hperm, ?_⟩
    rw [(hperm.map _).nodup_iff, hids]
    exact t.records.nodupKeys
  · obtain ⟨rfl, -⟩ := Prod.mk.inj (Option.some.inj hx)
    exact ends_bind (R := fun x t => t = w ∧ ∀ ids, x ≠ .ok ids)
      (ends_check ⟨rfl, fun _ h => by cases h⟩)
      (fun e t ht => ⟨ht.1, fun rs hrs => by cases hrs⟩) fun ids t ht => absurd rfl (ht.2 ids)

/-- The check of what the index names succeeds only if every record it names can be read. -/
theorem ends_requireIndexed : ∀ {ids : List String},
    Ends i allowed (requireIndexed j ids) (fun x t => t = w ∧ (x = .ok () → ∀ id ∈ ids,
      ¬ Unreadable allowed j w id)) w := by
  intro ids
  induction ids with
  | nil => exact ends_check (x := .ok ()) ⟨rfl, fun _ id hid => by cases hid⟩
  | cons id ids ih =>
    refine ends_bind (R := fun x t => t = w ∧ ∀ y r, x = .ok y → y = .ok r →
      ¬ Unreadable allowed j w id)
      (ends_act (ends_mono (fun x t h => ⟨h.1, fun y r hy hr => ?_⟩) ends_inspect))
      (fun e t ht => ⟨ht.1, fun h => by cases h⟩) fun x t ht => ?_
    · cases hy
      exact (h.2 r hr).2.2
    · obtain ⟨rfl, hx⟩ := ht
      cases x with
      | error e => exact ends_check (x := .error _) ⟨rfl, fun h => by cases h⟩
      | ok r =>
        refine ends_mono (fun x t h => ⟨h.1, fun hok id' hid' => ?_⟩) ih
        rcases List.mem_cons.mp hid' with rfl | hid'
        · exact hx (.ok r) r rfl rfl
        · exact h.2 hok id' hid'

/-- The index on disk can be read, and names a record that cannot. -/
structure LostIndexed (allowed : Eff → Choice → Prop) (j : Authority) (w : World) : Prop where
  read : ∀ ch, allowed .readIndex ch → ch.fault = .none
  accepted : acceptIndex (some w.index) = .ok w.index
  named : ∃ key id, w.index.activeVMs.lookup key = some id ∧ Unreadable allowed j w id

/-- The check of the old index.  An index that cannot be read asks for nothing, and then it is not
one that names a lost record either. -/
theorem ends_requireOldIndexed :
    Ends i allowed (requireOldIndexed j) (fun x t => t = w ∧ (x = .ok () →
      ¬ LostIndexed allowed j w)) w := by
  refine ends_bind (R := fun x t => t = w ∧ ∀ y, x = .ok y → LostIndexed allowed j w →
    y = .ok w.index) (ends_act (ends_perform fun ch a t hch hx => ends_check ⟨?_, ?_⟩))
    (fun e t ht => ⟨ht.1, fun h => by cases h⟩) fun x t ht => ?_
  · exact exec_read (e := .readIndex) trivial hx
  · intro y hy hlost
    cases hy
    simp only [exec, orFail, hlost.read ch hch] at hx
    obtain ⟨rfl, -⟩ := Prod.mk.inj (Option.some.inj hx)
    exact hlost.accepted
  · obtain ⟨rfl, hx⟩ := ht
    cases x with
    | error e =>
      refine ends_check (x := .ok ()) ⟨rfl, fun _ hlost => ?_⟩
      cases hx _ rfl hlost
    | ok idx =>
      refine ends_mono (fun x t' h => ⟨h.1, fun hok hlost => ?_⟩) ends_requireIndexed
      cases hx _ rfl hlost
      obtain ⟨key, id, hkey, hbad⟩ := hlost.named
      exact h.2 hok id (List.mem_map.mpr ⟨⟨key, id⟩, AList.mem_lookup_iff.mp hkey, rfl⟩) hbad

end Readers

/-! ### Three disks that are recovered -/

/-- A disk with the record of the sample agent, under an index that lost it. -/
def sampleUnindexed : World :=
  { enrolled sampleAuthority with
    records := (∅ : AList _).insert sampleID (sampleRecord (sampleIntent "{}")) }

/-- The same disk with a second open generation of the agent. -/
def sampleTwins : World :=
  { sampleUnindexed with
    records := sampleUnindexed.records.insert sampleEpoch
      { sampleRecord (sampleIntent "{}") with id := sampleEpoch } }

/-- An index that names a record which is not there. -/
def sampleDangling : World :=
  { enrolled sampleAuthority with
    index := { version := version, activeVMs := (∅ : AList _).insert sampleDigest sampleID } }

/-- Recovery of the unindexed disk succeeds. -/
theorem unindexed_evaluated :
    ((alone (S := journalSys) 0 { id := otherID }
      (recoverIndex sampleAuthority sampleEnrollment).run sampleUnindexed).any fun x => x.1.isOk) =
      true := by
  decide +kernel

/-- What the index names has the form of the names in an index. -/
theorem dangling_names : (sampleDangling.index.activeVMs.entries.all fun e =>
    validFingerprint e.1 && allocationIDPattern e.2) = true := by
  decide +kernel

/-! ## 4. The recovery

`Verdict` is the class of postconditions that the code around the rebuild keeps: locks that are
taken and released, a lock that fails to close.  Each half of the result is one of them. -/

theorem SameFiles.refl (w : World) : SameFiles w w := ⟨rfl, rfl, rfl, rfl, rfl, rfl, fun _ h => h⟩

theorem SameFiles.setLock {w t : World} (h : SameFiles w t) (n : LockName) (holder : Option Nat) :
    SameFiles w (t.setLock n holder) :=
  ⟨h.authority, h.index, h.records, h.clock, h.stamps, h.log, h.issued⟩

theorem LostIndexed.of_sameFiles {allowed : Eff → Choice → Prop} {j : Authority} {w t : World}
    (h : LostIndexed allowed j w) (hsame : SameFiles w t) : LostIndexed allowed j t := by
  have hread : ∀ id, t.readRecord id = w.readRecord id := by
    intro id
    unfold World.readRecord
    rw [hsame.records]
  obtain ⟨key, id, hkey, hbad⟩ := h.named
  refine ⟨h.read, by rw [hsame.index]; exact h.accepted, key, id, by rw [hsame.index]; exact hkey,
    ?_⟩
  unfold Unreadable
  rw [hread]
  exact hbad

/-- A verdict on a call that does not look at locks, and that an error without a write meets. -/
structure Verdict (w : World) (Q : Except Err Unit → World → Prop) : Prop where
  lock : ∀ x t n holder, Q x t → Q x (t.setLock n holder)
  refused : ∀ e t, SameFiles w t → Q (.error e) t
  close : ∀ x e t, Q x t → Q (.error e) t

section Recovery

variable {i : Nat} {allowed : Eff → Choice → Prop} {w t : World} {j : Authority}
variable {Q : Except Err Unit → World → Prop}

/-- The unlock at the end of a call keeps every verdict, also when it fails. -/
theorem ends_deferUnlock {n : LockName} {p : M Unit} (hQ : Verdict w Q) (h : Ends i allowed p Q t) :
    Ends i allowed (deferUnlock n noUndo p) Q t := by
  refine ends_bind (R := fun x t => ∃ y, x = .ok y ∧ Q y t)
    (ends_act (ends_mono (fun x t h => ⟨x, rfl, h⟩) h))
    (fun e t ⟨y, hy, _⟩ => by cases hy) fun x t ⟨y, hy, ht⟩ => ?_
  cases hy
  refine ends_perform fun ch closed t' _ hx => ?_
  have hx' : Q x t' := by
    simp only [exec] at hx
    obtain ⟨-, rfl⟩ := Prod.mk.inj (Option.some.inj hx)
    split
    · exact hQ.lock _ _ _ _ ht
    · exact ht
  cases x with
  | error e => exact ends_check (hQ.close _ _ _ hx')
  | ok a =>
    cases closed with
    | true => exact ends_check (x := .ok ()) hx'
    | false => exact ends_check (x := .error _) (hQ.close _ _ _ hx')

/-- Taking a lock, or not, is no write. -/
theorem ends_claimLock {id : String} {busy : Err} (h : SameFiles w t) :
    Ends i allowed (claimLock id busy) (fun _ t => SameFiles w t) t := by
  refine ends_perform fun ch a t' _ hx => ends_check ?_
  simp only [exec, orFail] at hx
  split at hx
  · split at hx
    · obtain ⟨-, rfl⟩ := Prod.mk.inj (Option.some.inj hx)
      exact h.setLock _ _
    · obtain ⟨-, rfl⟩ := Prod.mk.inj (Option.some.inj hx)
      exact h
  · obtain ⟨-, rfl⟩ := Prod.mk.inj (Option.some.inj hx)
    exact h

theorem ends_waitLock {n : LockName} (h : SameFiles w t) :
    Ends i allowed (waitLock n) (fun _ t => SameFiles w t) t := by
  refine ends_perform fun ch a t' _ hx => ends_check ?_
  simp only [exec, orFail] at hx
  split at hx
  · split at hx
    · obtain ⟨-, rfl⟩ := Prod.mk.inj (Option.some.inj hx)
      exact h.setLock _ _
    · cases hx
  · obtain ⟨-, rfl⟩ := Prod.mk.inj (Option.some.inj hx)
    exact h

theorem ends_withRecordLocks {p : M Unit} (hQ : Verdict w Q)
    (hp : ∀ t, SameFiles w t → Ends i allowed p Q t) : ∀ {rs : List Record} {t : World},
    SameFiles w t → Ends i allowed (withRecordLocks rs p) Q t := by
  intro rs
  induction rs with
  | nil => exact fun h => hp _ h
  | cons r rs ih =>
    exact fun h => ends_bind (ends_claimLock h) (fun e t ht => hQ.refused e t ht) fun _ t ht =>
      ends_deferUnlock hQ (ih ht)

/-- **What every recovery does.**  It ends without a write, or it rebuilds the index of the records
on disk and goes on to write it; no index that could be read then names a lost record. -/
theorem ends_recoverIndex {e : Enrollment} (hQ : Verdict w Q)
    (hwrite : ∀ t records idx, SameFiles w t → records.Perm (retained w) →
      (records.map fun r => r.id).Nodup → ¬ LostIndexed allowed j t →
      rebuildIndex records = .ok idx →
      Ends i allowed (writeIndex j idx >>= fun _ => writeNewEpoch j e) Q t) :
    Ends i allowed (recoverIndex j e) Q w := by
  have hrefl := SameFiles.refl w
  refine ends_bind (ends_check (Q := fun _ t => t = w) rfl) (fun e t ht => ?_) fun _ t ht => ?_
  · rw [ht]
    exact hQ.refused e w hrefl
  rw [ht]
  refine ends_bind (ends_check (Q := fun _ t => t = w) rfl) (fun e t ht => ?_) fun _ t ht => ?_
  · rw [ht]
    exact hQ.refused e w hrefl
  rw [ht]
  refine ends_bind (ends_waitLock hrefl) (fun e t ht => hQ.refused e t ht) fun _ t ht => ?_
  refine ends_deferUnlock hQ ?_
  refine ends_read ((readOnly_readAuthority _).bind fun _ => readOnly_check _)
    (fun e => hQ.refused e t ht) fun _ => ?_
  refine ends_read (readOnly_list j) (fun e => hQ.refused e t ht) fun records => ?_
  refine ends_withRecordLocks hQ (fun t ht => ?_) ht
  refine ends_bind ends_list (fun e u hu => ?_) fun records u hu => ?_
  · rw [hu.1]
    exact hQ.refused e t ht
  obtain ⟨rfl, hlist⟩ := hu
  obtain ⟨hperm, hids⟩ := hlist records rfl
  refine ends_read (readOnly_validateProvenance j _) (fun e => hQ.refused e u ht) fun _ => ?_
  refine ends_bind ends_requireOldIndexed (fun e v hv => ?_) fun _ v hv => ?_
  · rw [hv.1]
    exact hQ.refused e u ht
  obtain ⟨rfl, hkept⟩ := hv
  refine ends_bind (R := fun x t => t = v ∧ x = rebuildIndex records) (ends_check ⟨rfl, rfl⟩)
    (fun e x hx => ?_) fun idx x hx => ?_
  · rw [hx.1]
    exact hQ.refused e v ht
  obtain ⟨rfl, hidx⟩ := hx
  refine hwrite x records idx ht ?_ hids (hkept rfl) hidx.symm
  have hsame : retained x = retained w := by
    unfold retained
    rw [ht.records]
  rw [← hsame]
  exact hperm

/-- The call failed, and no file was written. -/
def Refused (w : World) (x : Except Err Unit) (t : World) : Prop :=
  (∃ e, x = .error e) ∧ SameFiles w t

theorem verdict_refused : Verdict w (Refused w) where
  lock _ _ _ _ h := ⟨h.1, h.2.setLock _ _⟩
  refused e _ h := ⟨⟨e, rfl⟩, h⟩
  close _ e _ h := ⟨⟨e, rfl⟩, h.2⟩

/-- The call failed, or the index on disk is the one of the records, which are unchanged. -/
def Rebuilt (w : World) (x : Except Err Unit) (t : World) : Prop :=
  x = .ok () → t.records = w.records ∧ Indexes (retained w) t.index ∧
    ((retained w).map fun r => r.id).Nodup

theorem verdict_rebuilt : Verdict w (Rebuilt w) where
  lock _ _ _ _ h := h
  refused _ _ _ h := by cases h
  close _ _ _ _ h := by cases h

/-- Two open generations of one agent are never indexed. -/
theorem rebuildIndex_duplicate {records : List Record} {r r' : Record} (hr : r ∈ records)
    (hr' : r' ∈ records) (hne : r ≠ r') (hkind : r.kind = .vm) (hkind' : r'.kind = .vm)
    (hagent : r.agentID = r'.agentID) (hopen : generationClosed r.state = false)
    (hopen' : generationClosed r'.state = false) {idx : Index} :
    rebuildIndex records ≠ .ok idx := by
  intro h
  obtain ⟨c, hc, -⟩ := (indexes_of_rebuild h).chose
  obtain ⟨p, hp⟩ := hc.all r hr hkind
  have h1 := (hc.best _ p hp r hr hkind rfl).1 hopen
  have h2 := (hc.best _ p hp r' hr' hkind' (by rw [hagent])).1 hopen'
  exact hne (h1.trans h2.symm)

/-- Writing the index and the new epoch. -/
theorem ends_write {e : Enrollment} {idx : Index} (hsame : SameFiles w t)
    (hidx : Indexes (retained w) idx) (hids : ((retained w).map fun r => r.id).Nodup) :
    Ends i allowed (writeIndex j idx >>= fun _ => writeNewEpoch j e) (Rebuilt w) t := by
  refine ends_bind (R := fun x u => x = .ok () → u.records = w.records ∧ u.index = idx)
    (ends_perform fun ch a u _ hx => ends_check ?_) (fun _ _ _ h => by cases h) fun _ u hu => ?_
  · intro ha
    cases a with
    | false => cases ha
    | true =>
      simp only [exec, World.commit] at hx
      split at hx
      · obtain ⟨-, rfl⟩ := Prod.mk.inj (Option.some.inj hx)
        exact ⟨hsame.records, rfl⟩
      · cases hx
      · cases hx
  obtain ⟨hrecords, hindex⟩ := hu rfl
  refine ends_bind (R := fun _ v => v.records = u.records ∧ v.index = u.index)
    (ends_perform fun ch a v _ hx => ends_check ?_) (fun _ _ _ h => by cases h) fun _ v hv => ?_
  · simp only [exec, orFail] at hx
    split at hx
    · split at hx
      · obtain ⟨-, rfl⟩ := Prod.mk.inj (Option.some.inj hx)
        exact ⟨rfl, rfl⟩
      · cases hx
    · obtain ⟨-, rfl⟩ := Prod.mk.inj (Option.some.inj hx)
      exact ⟨rfl, rfl⟩
  refine ends_perform fun ch a x _ hx => ends_check ?_
  intro ha
  cases a with
  | false => cases ha
  | true =>
    simp only [exec, World.commit] at hx
    split at hx
    · obtain ⟨-, rfl⟩ := Prod.mk.inj (Option.some.inj hx)
      refine ⟨hv.1.trans hrecords, ?_, hids⟩
      rw [show (v.putAuthority i j.epoch _).index = idx from hv.2.trans hindex]
      exact hidx
    · cases hx
    · cases hx

/-- Two entries of the disk are two records, when the records have names of their own. -/
theorem retained_apart (hids : ((retained w).map fun r => r.id).Nodup) {k k' : String}
    {r r' : Record}
    (hk : w.records.lookup k = some r) (hk' : w.records.lookup k' = some r') (hne : k ≠ k') :
    r ≠ r' := by
  intro heq
  unfold retained at hids
  rw [List.map_map] at hids
  have := List.inj_on_of_nodup_map hids (AList.mem_lookup_iff.mp hk) (AList.mem_lookup_iff.mp hk')
    (by simp [heq])
  exact hne (congrArg Sigma.fst this)

theorem mem_retained {k : String} {r : Record} (h : w.records.lookup k = some r) : r ∈ retained w :=
  List.mem_map.mpr ⟨⟨k, r⟩, AList.mem_lookup_iff.mp h, rfl⟩

end Recovery

/-- **`RecoverIndex`.**  Whatever the records on disk and their order, and whatever fails:

* with two open generations of one agent it fails and writes nothing;
* with an index that can be read and names a record that cannot, it fails and writes nothing;
* when it succeeds the records are as before, the validator accepts the index for them, and every
  agent with a VM record is mapped to its open record, or to the closed one created last.

The call is read once (`ends_recoverIndex`), and the two refusals and the success are three
postconditions of that reading.  The refusals are errors of the code before its first write; for the
success the index that is written is the one `Indexes` describes. -/
theorem recoverIndex_rebuilds (i : Nat) (allowed : Eff → Choice → Prop) (j : Authority)
    (e : Enrollment) (w : World) :
    (∀ k k' r r', k ≠ k' → w.records.lookup k = some r → w.records.lookup k' = some r' →
      r.kind = .vm → r'.kind = .vm → r.agentID = r'.agentID → generationClosed r.state = false →
      generationClosed r'.state = false → Ends i allowed (recoverIndex j e) (Refused w) w) ∧
    (LostIndexed allowed j w → Ends i allowed (recoverIndex j e) (Refused w) w) ∧
    Ends i allowed (recoverIndex j e) (fun x t => x = .ok () → t.records = w.records ∧
      ∀ records : List Record, records.Perm (retained w) →
        validateGenerationRecords t.index records = .ok () ∧
        (KeysApart records → ∀ r ∈ records, r.kind = .vm → ∃ p, StandsFor records r.agentID p ∧
          t.index.activeVMs.lookup (pathKey r.agentID) = some p.id)) w := by
  refine ⟨fun k k' r r' hne hk hk' hkind hkind' hagent hopen hopen' => ?_, fun hlost => ?_, ?_⟩
  · refine ends_recoverIndex verdict_refused fun t records idx _ hperm hids _ hidx => ?_
    have hids' : ((retained w).map fun r => r.id).Nodup := (hperm.map _).nodup_iff.mp hids
    exact absurd hidx (rebuildIndex_duplicate (hperm.mem_iff.mpr (mem_retained hk))
      (hperm.mem_iff.mpr (mem_retained hk')) (retained_apart hids' hk hk' hne) hkind hkind' hagent
      hopen hopen')
  · refine ends_recoverIndex verdict_refused fun t records idx ht _ _ hkept _ => ?_
    exact absurd (hlost.of_sameFiles ht) hkept
  · have hrebuilt : Ends i allowed (recoverIndex j e) (Rebuilt w) w := by
      refine ends_recoverIndex verdict_rebuilt fun t records idx ht hperm hids _ hidx => ?_
      exact ends_write ht ((indexes_of_rebuild hidx).perm hperm.symm)
        ((hperm.map _).nodup_iff.mp hids)
    refine ends_mono (fun x t h hx => ?_) hrebuilt
    obtain ⟨hrecords, hindexes, hids⟩ := h hx
    refine ⟨hrecords, fun records hperm => ?_⟩
    have hindexes' := hindexes.perm hperm
    exact ⟨hindexes'.valid ((hperm.map _).nodup_iff.mpr hids),
      fun hkeys r hr hkind => hindexes'.stands hkeys hr hkind⟩

theorem recoverIndex_rebuilds_sample :
    Ends 0 (fun _ _ => True) (recoverIndex sampleAuthority sampleEnrollment) (Refused sampleTwins)
      sampleTwins ∧
    Ends 0 (fun _ ch => ch.fault = .none) (recoverIndex sampleAuthority sampleEnrollment)
      (Refused sampleDangling) sampleDangling ∧
    ∃ ch t, alone (S := journalSys) 0 ch (recoverIndex sampleAuthority sampleEnrollment).run
        sampleUnindexed = some (.ok (), t) ∧
      validateGenerationRecords t.index [sampleRecord (sampleIntent "{}")] = .ok () ∧
      t.index.activeVMs.lookup (pathKey "agent") = some sampleID := by
  refine ⟨?_, ?_, ?_⟩
  · refine (recoverIndex_rebuilds 0 _ sampleAuthority sampleEnrollment sampleTwins).1 sampleEpoch
      sampleID
      { sampleRecord (sampleIntent "{}") with id := sampleEpoch } (sampleRecord (sampleIntent "{}"))
      (by decide) ?_ ?_ rfl rfl rfl rfl rfl
    · exact AList.lookup_insert _
    · rw [sampleTwins, AList.lookup_insert_ne (by decide)]
      exact AList.lookup_insert _
  · refine (recoverIndex_rebuilds 0 _ sampleAuthority sampleEnrollment sampleDangling).2.1
      ⟨fun _ h => h, ?_, sampleDigest, sampleID, AList.lookup_insert _, Or.inr fun r hr => ?_⟩
    · have hversion : ¬ (sampleDangling.index.version != version) = true := by decide
      simp only [acceptIndex]
      rw [if_neg hversion, if_pos dangling_names]
    · cases hr
  · have heval := unindexed_evaluated
    cases hrun : alone (S := journalSys) 0 { id := otherID }
        (recoverIndex sampleAuthority sampleEnrollment).run sampleUnindexed with
    | none =>
      rw [hrun] at heval
      cases heval
    | some x =>
      obtain ⟨y, t⟩ := x
      rw [hrun] at heval
      cases y with
      | error err => cases heval
      | ok u =>
        have hends := (recoverIndex_rebuilds 0 (fun _ _ => True) sampleAuthority sampleEnrollment
          sampleUnindexed).2.2
        obtain ⟨-, hall⟩ := after_alone (fun _ => trivial) hends hrun rfl
        have hretained : retained sampleUnindexed = [sampleRecord (sampleIntent "{}")] := rfl
        obtain ⟨hvalid, hstands⟩ := hall [sampleRecord (sampleIntent "{}")] (by rw [hretained])
        refine ⟨_, t, hrun, hvalid, ?_⟩
        have hkeys : KeysApart [sampleRecord (sampleIntent "{}")] := fun r hr r' hr' _ => by
          rw [List.mem_singleton.mp hr, List.mem_singleton.mp hr']
        obtain ⟨p, hp, hlookup⟩ := hstands hkeys (sampleRecord (sampleIntent "{}"))
          (List.mem_singleton.mpr rfl) rfl
        rw [List.mem_singleton.mp hp.mem] at hlookup
        exact hlookup

end Journal
