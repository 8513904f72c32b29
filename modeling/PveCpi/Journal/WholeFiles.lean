/-
# Whole files

What the journal's callers may count on, from `exec_ok` by rely-guarantee reasoning over the calls.

`files_whole` is over any number of processes, any interleaving of their system calls and any number
of power losses in between.  A file is always the whole of what one write was asked to put there.  A
write that returned nil is never lost: its file holds its bytes, or those of a write that was
renamed later.  A read returns the whole of such a write, and not one that was replaced before the
read began.  And each system call replaces one file as a whole or none, which is the step that
`Journal.World` makes of a write.

## How the pieces fit

A write knows its temporary inode to itself (`Holding`), then that its bytes are a version of the
file (`Renamed`), then that the version is below the sync of the directory (`Durable`).  Each of
these survives the steps of others, and each is what the next system call needs.  A read knows which
inode it has opened (`Opened`); the inode does not change any more, so the pieces it reads add up.

Processes that die leave temporary files behind; nothing here depends on their being cleaned up.
-/
import PveCpi.Journal.Files

namespace Files

open Lib.Interleave

/-! ## 1. What a call knows between two system calls

Every assertion is about versions, which are never taken back while the power stays on. -/

section Rules

variable {p : Nat} {α : Type} {s : Disk} {P : Disk → Prop}

/-- **One system call** of a program. -/
theorem wp_call {e : Eff} {f : Ans e → Run α} {Q : α → Disk → Prop} (hs : Inv s)
    (hP : Kept (S := fileSys) Inv Guar p P) (hPs : P s) (ha : ∀ d, Inv d → P d → Allowed p e d)
    (h : ∀ d ch a d', Inv d → P d → exec p e ch d = some (a, d') → Inv d' → Guar p d d' →
      wp (S := fileSys) Inv Guar p (f a) Q d') :
    wp (S := fileSys) Inv Guar p (sys e >>= f) Q s := by
  refine wp_bind (S := fileSys)
    (wp_perform (S := fileSys) hP hPs (fun a => wp_kept (S := fileSys) _ _) ?_) hs
  intro d hd hPd ch a d' hx
  obtain ⟨hd', hg⟩ := exec_ok hd (ha d hd hPd) hx
  exact ⟨hd', hg, h d ch a d' hd hPd hx hd' hg⟩

/-- The system calls that change nothing. -/
def Quiet : Eff → Prop
  | .lstat _ | .fstat _ | .close _ | .readAt _ _ => True
  | _ => False

theorem Quiet.same {e : Eff} (he : Quiet e) {d d' : Disk} {ch : Choice} {a : Ans e}
    (hx : exec p e ch d = some (a, d')) : d' = d := by
  cases e <;> first
    | exact he.elim
    | (simp only [exec, Option.some.injEq, Prod.mk.injEq] at hx; exact hx.2.symm)

theorem Quiet.allowed {e : Eff} (he : Quiet e) (d : Disk) : Allowed p e d := by
  cases e <;> first | exact he.elim | trivial

theorem wp_quiet {e : Eff} {f : Ans e → Run α} {Q : α → Disk → Prop} (he : Quiet e) (hs : Inv s)
    (hP : Kept (S := fileSys) Inv Guar p P) (hPs : P s)
    (h : ∀ a d, Inv d → P d → wp (S := fileSys) Inv Guar p (f a) Q d) :
    wp (S := fileSys) Inv Guar p (sys e >>= f) Q s := by
  refine wp_call hs hP hPs (fun d _ _ => he.allowed d) ?_
  intro d ch a d' hd hPd hx _ _
  rw [he.same hx]
  exact h a d hd hPd

theorem kept_true : Kept (S := fileSys) Inv Guar p fun _ => True := fun _ _ _ _ _ => trivial

/-- The last system call of a program. -/
theorem wp_last {e : Eff} (hP : Kept (S := fileSys) Inv Guar p P) (hPs : P s)
    (ha : ∀ d, Inv d → P d → Allowed p e d) :
    wp (S := fileSys) Inv Guar p (sys e) (fun _ _ => True) s := by
  refine wp_perform (S := fileSys) hP hPs (fun _ => kept_true) ?_
  intro d hd hPd ch a d' hx
  obtain ⟨hd', hg⟩ := exec_ok hd (ha d hd hPd) hx
  exact ⟨hd', hg, trivial⟩

end Rules

/-- The name is drawn, and the bytes are asked for. -/
structure Drawn (p : Nat) (name temp : String) (data : Bytes) (d : Disk) : Prop where
  drawer : d.drawer temp = some p
  asked : (name, data) ∈ d.asked

/-- The temporary file is open. -/
structure Holding (p : Nat) (name temp : String) (data : Bytes) (i : Nat) (x : Inode) (d : Disk) :
    Prop extends Drawn p name temp data d where
  entry : d.entries temp = some i
  own : Own p d i
  inode : d.inodes i = x

/-- The file is under its name. -/
def Renamed (p : Nat) (name : String) (data : Bytes) (d : Disk) : Prop :=
  Version d name (d.rank p) data

/-- And the rename is durable. -/
def Durable (p : Nat) (name : String) (data : Bytes) (d : Disk) : Prop :=
  d.rank p ≤ d.floor name ∧ Version d name (d.rank p) data

/-- The inode that was opened for a read is a version of the file, not replaced before the read
began. -/
def Opened (p : Nat) (name : String) (i : Nat) (data : Bytes) (d : Disk) : Prop :=
  ∃ j, d.began p ≤ j ∧ 0 < j ∧ (d.past name)[j - 1]? = some i ∧ (d.inodes i).content = data

section Stability

variable {p : Nat} {name temp : String} {data : Bytes} {i : Nat} {x : Inode}

theorem kept_asked : Kept (S := fileSys) Inv Guar p fun d => (name, data) ∈ d.asked :=
  Stable.kept (S := fileSys) fun _ _ _ _ _ _ hg h => hg.asked _ h

theorem stable_drawn : Stable (S := fileSys) Inv Guar p (Drawn p name temp data) :=
  fun _ _ _ _ _ _ hg h => ⟨hg.drawer _ _ h.drawer, hg.asked _ h.asked⟩

theorem kept_drawn : Kept (S := fileSys) Inv Guar p (Drawn p name temp data) :=
  stable_drawn.kept

/-- A temporary file belongs to the process that made it.  Other processes write to inodes of their
own and rename names of their own, so it stays as it is. -/
theorem kept_holding (ht : isTemp temp = true) :
    Kept (S := fileSys) Inv Guar p (Holding p name temp data i x) := by
  refine Stable.kept (S := fileSys) ?_
  intro q hq d d' hd hd' hg h
  have hown : d.owner i ≠ some q := by
    rw [h.own.owner]
    exact fun heq => hq (Option.some.inj heq).symm
  have hdraw : d.drawer temp ≠ some q := by
    rw [h.drawer]
    exact fun heq => hq (Option.some.inj heq).symm
  refine ⟨stable_drawn q hq d d' hd hd' hg h.toDrawn, (hg.temps temp ht hdraw).trans h.entry,
    ⟨?_, ?_, ?_⟩, ?_⟩
  · exact Nat.lt_of_lt_of_le h.own.used hg.used
  · exact (hg.owner i h.own.used).trans h.own.owner
  · exact fun hp => h.own.unplaced (hg.placed i h.own.used hown hp)
  · exact (hg.inodes i h.own.used (Or.inl hown)).trans h.inode

theorem kept_renamed (hn : isTemp name = false) :
    Kept (S := fileSys) Inv Guar p (Renamed p name data) := by
  refine Stable.kept (S := fileSys) ?_
  intro q hq d d' hd _ hg h
  unfold Renamed
  rw [hg.rank p (Ne.symm hq)]
  exact hg.version hd hn h

theorem kept_durable (hn : isTemp name = false) :
    Kept (S := fileSys) Inv Guar p (Durable p name data) := by
  refine Stable.kept (S := fileSys) ?_
  intro q hq d d' hd _ hg h
  unfold Durable
  rw [hg.rank p (Ne.symm hq)]
  exact ⟨Nat.le_trans h.1 (hg.floor name hn), hg.version hd hn h.2⟩

theorem kept_opened (hn : isTemp name = false) :
    Kept (S := fileSys) Inv Guar p (Opened p name i data) := by
  refine Stable.kept (S := fileSys) ?_
  rintro q hq d d' hd _ hg ⟨j, hj, hpos, hi, hdata⟩
  have hmem : i ∈ d.past name := List.mem_of_getElem? hi
  obtain ⟨more, hmore⟩ := hg.past_grows name
  refine ⟨j, by rw [hg.began p (Ne.symm hq)]; exact hj, hpos, ?_, ?_⟩
  · rw [hmore, List.getElem?_append_left (List.getElem?_eq_some_iff.mp hi).1]
    exact hi
  · rw [hg.inodes i (hd.placed name i hn hmem).1 (Or.inr ⟨name, hn, hmem⟩)]
    exact hdata

theorem kept_began : Kept (S := fileSys) Inv Guar p fun d => d.began p ≤ (d.past name).length := by
  refine Stable.kept (S := fileSys) ?_
  intro q hq d d' _ _ hg h
  obtain ⟨more, hmore⟩ := hg.past_grows name
  rw [hg.began p (Ne.symm hq), hmore, List.length_append]
  exact Nat.le_trans h (Nat.le_add_right _ _)

end Stability

/-! ## 2. The calls

A failed call ends without a promise.  The interesting case is a write that returns nil, whose every
system call succeeded. -/

section Writes

variable {p : Nat} {name temp : String} {data : Bytes} {i : Nat} {s : Disk}

theorem renamed_move {d : Disk} {x : Inode} (h : d.inodes i = x) :
    Renamed p name x.content (d.move p temp name i) := by
  have hrank : (d.move p temp name i).rank p = (d.past name).length + 1 := if_pos rfl
  have hpast : (d.move p temp name i).past name = d.past name ++ [i] := if_pos rfl
  unfold Renamed
  rw [hrank]
  refine ⟨Nat.succ_pos _, i, ?_, congrArg Inode.content h⟩
  rw [hpast, Nat.add_sub_cancel, List.getElem?_concat_length]

theorem Renamed.rank_le {d : Disk} (h : Renamed p name data d) :
    d.rank p ≤ (d.past name).length := by
  obtain ⟨hpos, j, hj, _⟩ := h
  have := (List.getElem?_eq_some_iff.mp hj).1
  omega

/-- Every error of a write is an end without promises. -/
theorem wp_error {α : Type} {e : Err} {Q : α → Disk → Prop} :
    wp (S := fileSys) Inv Guar p (pure (.error e) : Run (Except Err α))
    (fun r d => ∀ a, r = .ok a → Q a d) s :=
  wp_ret (S := fileSys) (fun _ _ _ _ _ _ h => by cases h) (fun _ h => by cases h)

theorem wp_ok {α : Type} {a : α} {Q : α → Disk → Prop} (hQ : Kept (S := fileSys) Inv Guar p (Q a))
    (h : Q a s) :
    wp (S := fileSys) Inv Guar p (pure (.ok a) : Run (Except Err α))
      (fun r d => ∀ a, r = .ok a → Q a d) s := by
  refine wp_ret (S := fileSys) ?_ ?_
  · intro d d' hd' he hd b hb
    cases hb
    exact hQ d d' hd' he (hd a rfl)
  · intro b hb
    cases hb
    exact h

/-- Opening a temporary name that was drawn: the inode is new, empty and owned. -/
theorem wp_openTemp (ht : isTemp temp = true) (hs : Inv s) (h : Drawn p name temp data s) :
    wp (S := fileSys) Inv Guar p (openPrivate temp true)
      (fun r d => ∀ i, r = .ok i → Holding p name temp data i {} d) s := by
  refine wp_quiet (e := .lstat temp) trivial hs kept_drawn h ?_
  intro prior d hd hdrawn
  by_cases hf : prior = .failed
  · rw [if_pos hf]
    exact wp_error
  rw [if_neg hf]
  refine wp_call hd kept_drawn hdrawn (fun _ _ h => ⟨ht, h.drawer⟩) ?_
  intro d ch a d' hd hdrawn hx hd' hg
  cases a with
  | none => exact wp_error
  | some i =>
    have hhold : Holding p name temp data i {} d' := by
      simp only [exec] at hx
      split at hx
      · cases hx
      · split at hx
        · contradiction
        · cases hx
          refine ⟨⟨hdrawn.drawer, hdrawn.asked⟩, if_pos rfl, ⟨Nat.lt_succ_self _, if_pos rfl, ?_⟩,
            if_pos rfl⟩
          rintro ⟨n, hn, hmem⟩
          exact absurd (hd.placed n _ hn hmem).1 (Nat.lt_irrefl _)
        · cases hx
    refine wp_quiet (e := .fstat i) trivial hd' (kept_holding ht) hhold ?_
    intro b d hd hhold
    cases b with
    | false => exact wp_quiet (e := .close i) trivial hd kept_true trivial fun _ _ _ _ => wp_error
    | true =>
      by_cases hsame : prior = .missing ∨ prior = .found i
      · rw [if_neg (by decide), if_pos hsame]
        exact wp_ok (kept_holding ht) hhold
      · rw [if_neg (by decide), if_neg hsame]
        exact wp_quiet (e := .close i) trivial hd kept_true trivial fun _ _ _ _ => wp_error

/-- The clean-up removes a name that the process drew. -/
theorem wp_abandon (i : Nat) {Q : Unit → Disk → Prop} (ht : isTemp temp = true) (closed : Bool)
    (hs : Inv s) (h : Drawn p name temp data s) :
    wp (S := fileSys) Inv Guar p (abandon i temp closed) (fun r d => ∀ a, r = .ok a → Q a d) s := by
  have hremove : ∀ d, Inv d → Drawn p name temp data d →
      wp (S := fileSys) Inv Guar p (sys (.remove temp) >>=
        fun _ => (pure (.error .os) : Run (Except Err Unit)))
        (fun r d => ∀ a, r = .ok a → Q a d) d := fun d hd hdrawn =>
    wp_call hd kept_drawn hdrawn (fun _ _ h => ⟨ht, h.drawer⟩) fun _ _ _ _ _ _ _ _ _ => wp_error
  cases closed with
  | true => exact hremove s hs h
  | false =>
    exact wp_quiet (e := .close i) trivial hs kept_drawn h fun _ d hd hdrawn => hremove d hd hdrawn

/-- **A write that returns nil has put the whole of its bytes under the name, for good.**  The bytes
were synced before the rename and the directory after it, so the version survives a power loss, and
any later version is a later rename. -/
theorem wp_replace (ht : isTemp temp = true) (hn : isTemp name = false)
    (hlen : data.length ≤ maxRecordBytes) (hs : Inv s) (h : Holding p name temp data i {} s) :
    wp (S := fileSys) Inv Guar p (replace name temp i data)
      (fun r d => ∀ a, r = .ok a → Durable p name data d) s := by
  refine wp_call hs (kept_holding ht) h (fun _ _ h => h.own) ?_
  intro d ch a d' hd hhold hx hd' hg
  simp only [exec, Option.some.injEq, Prod.mk.injEq] at hx
  obtain ⟨rfl, rfl⟩ := hx
  have hdrawn : ∀ x, Drawn p name temp data (d.setInode i x) := fun x => ⟨hhold.drawer, hhold.asked⟩
  by_cases hshort : (if ch.fails then none else some (min ch.count data.length)) ≠ some data.length
  · rw [if_pos hshort]
    exact wp_abandon i ht false hd' (hdrawn _)
  rw [if_neg hshort]
  have hcount : data.length ≤ ch.count := by
    have hall := Decidable.of_not_not hshort
    cases hf : ch.fails with
    | true =>
      rw [hf] at hall
      cases hall
    | false =>
      rw [hf] at hall
      have := Option.some.inj hall
      omega
  have hwritten : Holding p name temp data i { content := data, synced := false }
      (d.setInode i
        { content := (d.inodes i).content ++ data.take ch.count, synced := false }) := by
    refine ⟨hdrawn _, hhold.entry, ⟨hhold.own.used, hhold.own.owner, hhold.own.unplaced⟩,
      (if_pos rfl).trans ?_⟩
    rw [hhold.inode, List.take_of_length_le hcount]
    rfl
  refine wp_call hd' (kept_holding ht) hwritten (fun _ _ h => h.own) ?_
  intro d ch a d' hd hhold hx hd' hg
  cases a with
  | false =>
    have hdrawn : Drawn p name temp data d' := ⟨hg.drawer _ _ hhold.drawer, hg.asked _ hhold.asked⟩
    exact wp_abandon i ht false hd' hdrawn
  | true =>
    have hsynced : Holding p name temp data i { content := data, synced := true } d' := by
      simp only [exec] at hx
      split at hx
      · cases hx
      · cases hx
        refine ⟨⟨hhold.drawer, hhold.asked⟩, hhold.entry,
          ⟨hhold.own.used, hhold.own.owner, hhold.own.unplaced⟩, (if_pos rfl).trans ?_⟩
        rw [hhold.inode]
    refine wp_quiet (e := .close i) trivial hd' (kept_holding ht) hsynced ?_
    intro b d hd hhold
    cases b with
    | false => exact wp_abandon i ht true hd hhold.toDrawn
    | true =>
      refine wp_call (e := .rename temp name) hd (kept_holding ht) hhold ?_ ?_
      · intro d _ h
        refine ⟨ht, hn, h.drawer, ?_⟩
        intro j hj
        obtain rfl : i = j := Option.some.inj (h.entry.symm.trans hj)
        rw [h.inode]
        exact ⟨h.own, rfl, hlen, h.asked⟩
      · intro d ch a d' hd hhold hx hd' hg
        cases a with
        | false =>
          have hdrawn : Drawn p name temp data d' :=
            ⟨hg.drawer _ _ hhold.drawer, hg.asked _ hhold.asked⟩
          exact wp_abandon i ht true hd' hdrawn
        | true =>
          have hrenamed : Renamed p name data d' := by
            simp only [exec, hhold.entry] at hx
            split at hx
            · cases hx
            · simp only [Option.some.injEq, Prod.mk.injEq] at hx
              obtain ⟨_, rfl⟩ := hx
              exact renamed_move hhold.inode
          refine wp_call (e := .syncDir) hd' (kept_renamed hn) hrenamed (fun _ _ _ => trivial) ?_
          intro d ch a d' hd hren hx hd' hg
          cases a with
          | false => exact wp_error
          | true =>
            refine wp_ok (Q := fun _ => Durable p name data) (kept_durable hn) ?_
            simp only [exec] at hx
            split at hx
            · cases hx
            · cases hx
              exact ⟨hren.rank_le, hren⟩

/-- **A write that returns nil is durable.**  Temporary file, contents, sync, rename, sync of the
directory; each step hands on what the next one needs, and an error at any of them claims
nothing. -/
theorem wp_atomicEnvelope (hn : isTemp name = false) (hs : Inv s) (h : (name, data) ∈ s.asked) :
    wp (S := fileSys) Inv Guar p (atomicEnvelope name data)
      (fun r d => ∀ a, r = .ok a → Durable p name data d) s := by
  unfold atomicEnvelope
  by_cases hlen : maxRecordBytes < data.length
  · rw [if_pos hlen]
    exact wp_error
  rw [if_neg hlen]
  refine wp_quiet (e := .lstat name) trivial hs kept_asked h ?_
  intro prior d hd hask
  by_cases hf : prior = .failed
  · rw [if_pos hf]
    exact wp_error
  rw [if_neg hf]
  refine wp_call (e := .newID) hd kept_asked hask (fun _ _ _ => trivial) ?_
  intro d ch a d' hd hask hx hd' hg
  cases a with
  | none => exact wp_error
  | some id =>
    have hdrawn : Drawn p name (tempPrefix ++ id) data d' := by
      simp only [exec] at hx
      split at hx
      · cases hx
      · split at hx
        · cases hx
        · cases hx
          exact ⟨if_pos rfl, hask⟩
    refine wp_bind (S := fileSys)
      (wp_mono (S := fileSys) ?_ (wp_openTemp (isTemp_temp id) hd' hdrawn)) hd'
    intro r d hd hr
    cases r with
    | error e => exact wp_error
    | ok i => exact wp_replace (isTemp_temp id) hn (Nat.le_of_not_lt hlen) hd (hr i rfl)

end Writes

section Reads

variable {p : Nat} {name : String} {data : Bytes} {i : Nat} {s : Disk}

/-- The inode of a name is its last version. -/
theorem opened_last {d : Disk} (hn : isTemp name = false) (hd : Inv d)
    (hb : d.began p ≤ (d.past name).length)
    (hi : d.entries name = some i) : Opened p name i (d.inodes i).content d := by
  rw [hd.entries name hn, List.getLast?_eq_getElem?] at hi
  have hlt := (List.getElem?_eq_some_iff.mp hi).1
  exact ⟨_, hb, by omega, hi, rfl⟩

theorem version_opened {d : Disk} (h : Opened p name i data d) :
    ∃ j, d.began p ≤ j ∧ Version d name j data := by
  obtain ⟨j, hj, hpos, hi, hdata⟩ := h
  exact ⟨j, hj, hpos, i, hi, hdata⟩

/-- Opening the file gives the inode of one of its versions, not older than the start of the
call. -/
theorem wp_openFile (hn : isTemp name = false) (hs : Inv s) (h : s.began p ≤ (s.past name).length) :
    wp (S := fileSys) Inv Guar p (openPrivate name false)
      (fun r d => (∀ i, r = .ok i → ∃ data, Opened p name i data d) ∧
        d.began p ≤ (d.past name).length) s := by
  have herror : ∀ d e, Inv d → d.began p ≤ (d.past name).length →
      wp (S := fileSys) Inv Guar p (pure (.error e) : Run (Except Err Nat))
        (fun r d => (∀ i, r = .ok i → ∃ data, Opened p name i data d) ∧
          d.began p ≤ (d.past name).length) d := by
    intro d e _ hb
    refine wp_ret (S := fileSys) ?_ ⟨fun _ h => (by cases h), hb⟩
    exact fun d d' hd' he h => ⟨fun _ h => (by cases h), kept_began d d' hd' he h.2⟩
  have hclose : ∀ i d e, Inv d → d.began p ≤ (d.past name).length →
      wp (S := fileSys) Inv Guar p (sys (.close i) >>=
        fun _ => (pure (.error e) : Run (Except Err Nat)))
        (fun r d => (∀ i, r = .ok i → ∃ data, Opened p name i data d) ∧
          d.began p ≤ (d.past name).length) d :=
    fun i d e hd hb => wp_quiet (e := .close i) trivial hd kept_began hb fun _ d hd hb =>
      herror d e hd hb
  refine wp_quiet (e := .lstat name) trivial hs kept_began h ?_
  intro prior d hd hb
  by_cases hf : prior = .failed
  · rw [if_pos hf]
    exact herror d _ hd hb
  rw [if_neg hf]
  refine wp_call (e := .openat name false) hd kept_began hb (fun _ _ _ => trivial) ?_
  intro d ch a d' hd hb hx hd' hg
  have hsame : d' = d ∧ ∀ i, a = some i → d.entries name = some i := by
    simp only [exec] at hx
    split at hx
    · cases hx
      exact ⟨rfl, fun _ h => by cases h⟩
    · cases hx
      exact ⟨rfl, fun _ h => h⟩
  obtain ⟨rfl, hentry⟩ := hsame
  cases a with
  | none => exact herror _ _ hd hb
  | some i =>
    have hkept : Kept (S := fileSys) Inv Guar p
        fun d => Opened p name i (d'.inodes i).content d ∧ d.began p ≤ (d.past name).length :=
      Kept.and (S := fileSys) (kept_opened hn) kept_began
    refine wp_quiet (e := .fstat i) trivial hd hkept ⟨opened_last hn hd hb (hentry i rfl), hb⟩ ?_
    intro b d hd hopen
    cases b with
    | false => exact hclose i d _ hd hopen.2
    | true =>
      by_cases hsame : prior = .missing ∨ prior = .found i
      · rw [if_neg (by decide), if_pos hsame]
        refine wp_ret (S := fileSys) ?_ ⟨fun j hj => ?_, hopen.2⟩
        · rintro u v hv he ⟨h1, h2⟩
          obtain ⟨data, hdata⟩ := h1 i rfl
          refine ⟨fun j hj => ?_, kept_began u v hv he h2⟩
          cases hj
          exact ⟨data, kept_opened hn u v hv he hdata⟩
        · cases hj
          exact ⟨_, hopen.1⟩
      · rw [if_neg (by decide), if_neg hsame]
        exact hclose i d _ hd hopen.2

/-- A file that was replaced between the look at it and the opening is tried again. -/
theorem wp_openRetrying (hn : isTemp name = false) : ∀ (left : Nat) {s : Disk}, Inv s →
    s.began p ≤ (s.past name).length → wp (S := fileSys) Inv Guar p (openRetrying name left)
      (fun r d => ∀ i, r = .ok i → ∃ data, Opened p name i data d) s := by
  intro left
  induction left with
  | zero =>
    intro s hs hb
    exact wp_mono (S := fileSys) (fun _ _ _ h => h.1) (wp_openFile hn hs hb)
  | succ left ih =>
    intro s hs hb
    refine wp_bind (S := fileSys) (wp_mono (S := fileSys) ?_ (wp_openFile hn hs hb)) hs
    rintro r d hd ⟨hok, hb⟩
    cases r with
    | ok i =>
      obtain ⟨data, hdata⟩ := hok i rfl
      exact wp_ok (Q := fun i d => ∃ data, Opened p name i data d)
        (fun u v hv he ⟨x, hx⟩ => ⟨x, kept_opened hn u v hv he hx⟩) ⟨data, hdata⟩
    | error e =>
      cases e with
      | changed => exact ih hd hb
      | os => exact wp_error
      | corrupt => exact wp_error
      | tooLarge => exact wp_error
      | unfinished => exact wp_error

/-- **The reads of one inode put its whole bytes together**, however the system cuts them.  The
inode was whole when it was opened and is never written again. -/
theorem wp_readAll (hn : isTemp name = false) : ∀ (rounds : Nat) (sofar : Bytes) {s : Disk}, Inv s →
    sofar <+: data → Opened p name i data s → wp (S := fileSys) Inv Guar p (readAll i rounds sofar)
      (fun r d => Opened p name i data d ∧ ∀ x, r = .ok x → x.length ≤ maxRecordBytes → x = data)
      s := by
  have hend : ∀ (r : Except Err Bytes) (d : Disk), Opened p name i data d →
      (∀ x, r = .ok x → x.length ≤ maxRecordBytes → x = data) →
      wp (S := fileSys) Inv Guar p (pure r)
        (fun r d => Opened p name i data d ∧ ∀ x, r = .ok x → x.length ≤ maxRecordBytes → x = data)
        d :=
    fun r d h hr => wp_ret (S := fileSys) (fun u v hv he h => ⟨kept_opened hn u v hv he h.1, h.2⟩)
      ⟨h, hr⟩
  intro rounds
  induction rounds with
  | zero =>
    intro sofar s hs hpre h
    exact hend _ s h fun _ hx => by cases hx
  | succ rounds ih =>
    intro sofar s hs hpre h
    unfold readAll
    by_cases hfull : maxRecordBytes < sofar.length
    · rw [if_pos hfull]
      refine hend _ s h ?_
      intro x hx hlen
      cases hx
      omega
    rw [if_neg hfull]
    refine wp_call (e := .readAt i sofar.length) hs (kept_opened hn) h (fun _ _ _ => trivial) ?_
    intro d ch a d' hd hopen hx hd' hg
    simp only [exec, Option.some.injEq, Prod.mk.injEq] at hx
    obtain ⟨ha, rfl⟩ := hx
    cases a with
    | none => exact hend _ _ hopen fun _ hx => by cases hx
    | some chunk =>
      obtain ⟨rest, rfl⟩ := hpre
      have hcontent : (d.inodes i).content = sofar ++ rest := by
        obtain ⟨_, _, _, _, hc⟩ := hopen
        exact hc
      have hchunk : chunk = rest.take (ch.count + 1) := by
        rw [hcontent, List.drop_left] at ha
        cases hf : ch.fails with
        | true =>
          rw [hf] at ha
          cases ha
        | false =>
          rw [hf] at ha
          exact (Option.some.inj ha).symm
      by_cases hempty : chunk = []
      · rw [hempty]
        refine hend _ _ hopen ?_
        intro x hx _
        cases hx
        rw [hchunk, List.take_eq_nil_iff] at hempty
        rw [hempty.resolve_left (Nat.succ_ne_zero _), List.append_nil]
      · refine (congrArg (fun q => wp (S := fileSys) Inv Guar p q _ _) (if_neg hempty)).mpr ?_
        refine ih _ hd ?_ hopen
        rw [hchunk, List.take_take]
        exact List.prefix_append_right_inj _ |>.mpr (List.take_prefix _ _)

/-- **A read returns a whole version.**  The inode of a version does not change any more, so what is
read from it in pieces is what was written. -/
theorem wp_readEnvelope (hn : isTemp name = false) (rounds : Nat) (hs : Inv s)
    (h : s.began p ≤ (s.past name).length) : wp (S := fileSys) Inv Guar p (readEnvelope rounds name)
      (fun r d => ∀ data, r = .ok data → ∃ j, d.began p ≤ j ∧ Version d name j data) s := by
  refine wp_bind (S := fileSys) (wp_mono (S := fileSys) ?_ (wp_openRetrying hn readRetries hs h)) hs
  intro r d hd hr
  cases r with
  | error e => exact wp_error
  | ok i =>
    obtain ⟨data, hopen⟩ := hr i rfl
    refine wp_bind (S := fileSys)
      (wp_mono (S := fileSys) ?_ (wp_readAll hn rounds [] hd List.nil_prefix hopen)) hd
    rintro r d hd ⟨hopen, hwhole⟩
    refine wp_quiet (e := .close i) trivial hd (kept_opened hn) hopen ?_
    intro closed d hd hopen
    cases r with
    | error e => exact wp_error
    | ok x =>
      cases closed with
      | false => exact wp_error
      | true =>
        dsimp only
        by_cases hlen : maxRecordBytes < x.length
        · rw [if_neg (by decide), if_pos hlen]
          exact wp_error
        · rw [if_neg (by decide), if_neg hlen]
          obtain rfl := hwhole x rfl (Nat.le_of_not_lt hlen)
          refine wp_ok (Q := fun data d => ∃ j, d.began p ≤ j ∧ Version d name j data) ?_
            (version_opened hopen)
          intro u v hv he hu
          obtain ⟨j, hj, hpos, i, hi, hdata⟩ := hu
          exact version_opened (kept_opened hn u v hv he ⟨j, hj, hpos, hi, hdata⟩)

end Reads

/-! ## 3. Every run

A power loss ends all processes, so it is not a step of a run: the disk that it leaves is the start
of the next one. -/

theorem enter_ok {p : Nat} {d : Disk} (o : Op) (hd : Inv d) :
    Inv (enter p o d) ∧ Guar p d (enter p o d) := by
  cases o with
  | write name data =>
    have hg : Guar p d (enter p (.write name data) d) :=
      { Guar.refl p d with asked := fun _ h => List.mem_cons_of_mem _ h }
    exact ⟨hd.step hg hd.entries (fun n i _ h hnot => absurd h hnot) hd.floor
      (fun _ _ _ h => Or.inl h) (fun _ _ _ h => Or.inl h), hg⟩
  | read name rounds =>
    have hg : Guar p d (enter p (.read name rounds) d) :=
      { Guar.refl p d with began := fun q hq => if_neg hq }
    exact ⟨hd.step hg hd.entries (fun n i _ h hnot => absurd h hnot) hd.floor
      (fun _ _ _ h => Or.inl h) (fun _ _ _ h => Or.inl h), hg⟩

/-- Each of the two calls keeps what the process knows, from its beginning to its end. -/
theorem wp_program {p : Nat} {d : Disk} (o : Op) (hn : isTemp o.name = false) (hd : Inv d) :
    wp (S := fileSys) Inv Guar p (program o) (fun _ _ => True) (enter p o d) := by
  have hd' := (enter_ok (p := p) o hd).1
  cases o with
  | write name data =>
    refine wp_bind (S := fileSys) (wp_mono (S := fileSys) ?_
      (wp_atomicEnvelope hn hd' (List.mem_cons_self ..))) hd'
    intro r d hd hr
    cases r with
    | error e => exact wp_ret (S := fileSys) kept_true trivial
    | ok a =>
      exact wp_last (e := .wrote name data) (kept_durable hn) (hr a rfl) fun _ _ h => ⟨hn, h.1, h.2⟩
  | read name rounds =>
    refine wp_bind (S := fileSys) (wp_mono (S := fileSys) ?_
      (wp_readEnvelope hn rounds hd' (Nat.le_of_eq (if_pos rfl)))) hd'
    intro r d hd hr
    cases r with
    | error e => exact wp_ret (S := fileSys) kept_true trivial
    | ok data =>
      have hkept : Kept (S := fileSys) Inv Guar p fun d => ∃ j, d.began p ≤ j ∧
        Version d name j data := by
        intro u v hv he hu
        obtain ⟨j, hj, hpos, i, hi, hdata⟩ := hu
        exact version_opened (kept_opened hn u v hv he ⟨j, hj, hpos, hi, hdata⟩)
      exact wp_last (e := .got name data) hkept (hr data rfl) fun _ _ h => ⟨hn, h⟩

/-- The rely-guarantee proof of the files. -/
def protocol : Protocol fileSys where
  Inv := Inv
  Guar := Guar
  Loc _ _ _ := True
  start_ok p o l q d hd _ hq := by
    change (if isTemp o.name then none else some (program o)) = some q at hq
    cases hn : isTemp o.name with
    | true =>
      rw [hn] at hq
      cases hq
    | false =>
      rw [hn] at hq
      cases hq
      exact ⟨(enter_ok o hd).1, (enter_ok o hd).2, wp_program o hn hd⟩
  halt_ok p d hd := ⟨hd, Guar.refl p d, trivial⟩
  boot_kept _ := kept_true

/-- **A power loss leaves the invariant.** -/
theorem Inv.powerLoss {d d' : Disk} (hd : Inv d) (h : d.PowerLoss d') : Inv d' := by
  have hinode : ∀ n i, isTemp n = false → i ∈ d.past n → d'.inodes i = d.inodes i :=
    fun n i hn hi => h.inodes i (hd.placed n i hn hi).2.1
  refine ⟨?_, ?_, ?_, ?_, ?_⟩
  · intro n hn
    obtain ⟨v, _, _, hpast, _, hentry⟩ := h.version n hn
    rw [hpast]
    exact hentry
  · intro n i hn hi
    obtain ⟨v, _, _, hpast, _, _⟩ := h.version n hn
    rw [hpast] at hi
    have hold := List.mem_of_mem_take hi
    rw [hinode n i hn hold, h.used, h.asked]
    exact hd.placed n i hn hold
  · intro n hn
    obtain ⟨v, _, hv, hpast, hfloor, _⟩ := h.version n hn
    rw [hpast, hfloor, List.length_take]
    omega
  · intro n k data hw
    rw [h.wrote] at hw
    obtain ⟨hn, hk, hpos, i, hi, hdata⟩ := hd.wrote n k data hw
    obtain ⟨v, hv, _, hpast, hfloor, _⟩ := h.version n hn
    refine ⟨hn, by omega, hpos, i, ?_, ?_⟩
    · rw [hpast, List.getElem?_take_of_lt (by omega)]
      exact hi
    · rw [hinode n i hn (List.mem_of_getElem? hi)]
      exact hdata
  · intro n b data hr
    rw [h.reads] at hr
    cases hr

theorem Lives.inv {d : Disk} (hd : Lives d) : Inv d := by
  induction hd with
  | fresh =>
    exact ⟨fun _ _ => rfl, fun _ _ _ h => absurd h List.not_mem_nil, fun _ _ => Nat.le_refl _,
      fun _ _ _ h => absurd h List.not_mem_nil, fun _ _ _ h => absurd h List.not_mem_nil⟩
  | cut _ hr hl ih =>
    exact (Protocol.reachable (P := protocol) ih (fun _ => trivial) hr).inv.powerLoss hl

/-- What is under a name is its last version. -/
theorem Inv.file {d : Disk} (hd : Inv d) {n : String} (hn : isTemp n = false) :
    d.file n = (d.past n).getLast?.map fun i => (d.inodes i).content := by
  unfold Disk.file
  rw [hd.entries n hn]

/-- One file is replaced as a whole, or none. -/
def Replaces (d d' : Disk) : Prop :=
  ∃ m, (∀ n, isTemp n = false → n ≠ m → d'.file n = d.file n) ∧
    (d'.file m = d.file m ∨ ∃ data, (m, data) ∈ d'.asked ∧ d'.file m = some data)

theorem Inv.file_asked {d : Disk} (hd : Inv d) {n : String} {data : Bytes} (hn : isTemp n = false)
    (h : d.file n = some data) : (n, data) ∈ d.asked := by
  rw [hd.file hn] at h
  obtain ⟨i, hi, rfl⟩ := Option.map_eq_some_iff.mp h
  exact (hd.placed n i hn (List.mem_of_getLast? hi)).2.2.2

/-- One system call replaces one file by a new version, or none: versions only grow, and one at a
time. -/
theorem Guar.replaces {p : Nat} {d d' : Disk} (hd : Inv d) (hd' : Inv d') (hg : Guar p d d') :
    Replaces d d' := by
  have hsame : ∀ n, isTemp n = false → d'.past n = d.past n → d'.file n = d.file n := by
    intro n hn hpast
    rw [hd.file hn, hd'.file hn, hpast]
    cases hl : (d.past n).getLast? with
    | none => rfl
    | some i =>
      have hmem := List.mem_of_getLast? hl
      rw [Option.map_some, Option.map_some, hg.inodes i (hd.placed n i hn hmem).1
        (Or.inr ⟨n, hn, hmem⟩)]
  obtain ⟨m, hm, hother, hchange⟩ := hg.past
  refine ⟨m, fun n hn hne => hsame n hn (hother n hne), ?_⟩
  rcases hchange with hm' | ⟨i, hm'⟩
  · exact Or.inl (hsame m hm hm')
  · have hfile : d'.file m = some (d'.inodes i).content := by
      rw [hd'.file hm, hm', List.getLast?_append, List.getLast?_singleton]
      rfl
    exact Or.inr ⟨_, hd'.file_asked hm hfile, hfile⟩

/-- **Whole files.**  At every moment of every run of any number of processes, after any number of
power losses: each file is the whole of what a write was asked to put there; a write that returned
nil has its bytes there, or those of a write that was renamed later; a read returned the whole of a
version that was not replaced before the read began; and the next step replaces one file as a whole,
or none.  All four parts are read off the history of the names: the invariant for the file, the
local assertions for a write and a read that have returned, and the guarantee for a single call. -/
theorem files_whole {d : Disk} {c : Config fileSys} (hd : Lives d)
    (hr : Reach (Config.initial d) c) :
    (∀ n data, isTemp n = false → c.shared.file n = some data → (n, data) ∈ c.shared.asked) ∧
    (∀ n k data, (n, k, data) ∈ c.shared.wrote → Version c.shared n k data ∧
      ∃ j x, k ≤ j ∧ c.shared.file n = some x ∧ Version c.shared n j x ∧
      j = (c.shared.past n).length) ∧
    (∀ n b data, (n, b, data) ∈ c.shared.reads → (n, data) ∈ c.shared.asked ∧
      ∃ j, b ≤ j ∧ Version c.shared n j data) ∧
    (∀ a c', next c a = some c' → Replaces c.shared c'.shared) := by
  have hok : protocol.Ok c := Protocol.reachable (P := protocol) hd.inv (fun _ => trivial) hr
  have hinv : Inv c.shared := hok.inv
  refine ⟨fun n data hn h => hinv.file_asked hn h, ?_, ?_, ?_⟩
  · intro n k data hw
    obtain ⟨hn, hk, hv⟩ := hinv.wrote n k data hw
    have hpos : 0 < (c.shared.past n).length :=
      Nat.lt_of_lt_of_le hv.1 (Nat.le_trans hk (hinv.floor n hn))
    obtain ⟨i, hi⟩ : ∃ i, (c.shared.past n)[(c.shared.past n).length - 1]? = some i :=
      ⟨_, List.getElem?_eq_getElem (Nat.sub_lt hpos Nat.one_pos)⟩
    refine ⟨hv, _, (c.shared.inodes i).content, Nat.le_trans hk (hinv.floor n hn), ?_,
      ⟨hpos, i, hi, rfl⟩, rfl⟩
    rw [hinv.file hn, List.getLast?_eq_getElem?, hi]
    rfl
  · intro n b data hr
    obtain ⟨hn, j, hj, hv⟩ := hinv.reads n b data hr
    refine ⟨?_, j, hj, hv⟩
    obtain ⟨_, i, hi, rfl⟩ := hv
    exact (hinv.placed n i hn (List.mem_of_getElem? hi)).2.2.2
  · intro a c' hn
    obtain ⟨hok', hstep⟩ := hok.next hn
    rcases hstep with heq | hg
    · rw [heq]
      exact ⟨"", fun _ _ _ => rfl, Or.inl rfl⟩
    · exact Guar.replaces hinv hok'.inv hg

/-- A power loss may leave every name as the last sync of the directory had it. -/
def Disk.unsynced (d : Disk) : Disk :=
  { d with
    past := fun n => (d.past n).take (d.floor n)
    entries := fun n => ((d.past n).take (d.floor n)).getLast?
    reads := [] }

theorem Inv.powerLoss_unsynced {d : Disk} (hd : Inv d) : d.PowerLoss d.unsynced :=
  ⟨fun n hn => ⟨d.floor n, Nat.le_refl _, hd.floor n hn, rfl, rfl, rfl⟩,
    fun _ _ => rfl, rfl, rfl, rfl, rfl, rfl⟩

/-- A write of one byte under `a` that returns, and one that gets as far as its rename. -/
def twoWrites : List (Act fileSys) :=
  .start 0 (.write "a" [1]) :: List.replicate 11 (.run 0 { count := 9, id := "x" }) ++
    .finish 0 :: .start 1 (.write "a" [2]) :: List.replicate 9 (.run 1 { count := 9, id := "y" })

/-- A read of `a`. -/
def oneRead : List (Act fileSys) :=
  .start 2 (.read "a" 5) :: List.replicate 7 (.run 2 {})

def afterRuns (acts : List (Act fileSys)) (d : Disk) : Config fileSys :=
  (runActs acts (Config.initial d)).getD (Config.initial d)

theorem reach_afterRuns {acts : List (Act fileSys)} {d : Disk}
    (h : (runActs acts (Config.initial (S := fileSys) d)).isSome = true) :
    Reach (Config.initial d) (afterRuns acts d) := by
  obtain ⟨c, hc⟩ := Option.isSome_iff_exists.mp h
  unfold afterRuns
  rw [hc]
  exact reach_of_runActs hc

def lostWrite : Disk := (afterRuns twoWrites {}).shared.unsynced

/-- The second write is lost with the power; the read that follows gets the first. -/
theorem files_whole_after_loss :
    (afterRuns twoWrites {}).shared.file "a" = some [2] ∧
    (afterRuns oneRead lostWrite).shared.reads = [("a", 1, [1])] ∧
    ∃ j, 1 ≤ j ∧ Version (afterRuns oneRead lostWrite).shared "a" j [1] := by
  have hr₁ : Reach (Config.initial (S := fileSys) {}) (afterRuns twoWrites {}) :=
    reach_afterRuns (by decide)
  have hinv := (Protocol.reachable (P := protocol) Lives.fresh.inv (fun _ => trivial) hr₁).inv
  have hlives : Lives lostWrite := Lives.cut Lives.fresh hr₁ (Inv.powerLoss_unsynced hinv)
  have hr₂ : Reach (Config.initial lostWrite) (afterRuns oneRead lostWrite) :=
    reach_afterRuns (by decide)
  have hread : (afterRuns oneRead lostWrite).shared.reads = [("a", 1, [1])] := by decide
  obtain ⟨_, _, hreads, _⟩ := files_whole hlives hr₂
  exact ⟨by decide, hread, (hreads "a" 1 [1] (by rw [hread]; exact List.mem_singleton.mpr rfl)).2⟩

end Files
