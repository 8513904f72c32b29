/-
# Whether a description write landed

`pve/description_write_landed.go`: after a write of `sent` over `before`, the CPI reads the
description again and finds `current`, which another writer may have changed since.
`descriptionWriteLanded` asks of `current` only what the write itself changed.  Here the values of
the sentinel are texts, as `json.RawMessage` keeps them, because two values that cannot be decoded
are compared as texts.

* `writeLanded_iff`: what the answer means, key by key and record by record;
* `writeLanded_stable`: edits of others do not hide the write, and without the write the answer is
  no.

The check is used when the answer to a write was lost.  A wrong yes drops an update, a wrong no
repeats it over the edit of somebody else.  It cannot compare descriptions as texts, because other
writers edit other keys at the same time and respell what they touch; it compares decoded values,
and under a key that holds a map of records it compares record by record.

`OnlyOthers` is what "the edits of others" means: in the text, and under every key and record that
the write changed, what is there still says what was sent.  The second half of the result keeps the
first from being empty: a description that lacks one change of the write is not taken for the
written one.
-/
import PveCpi.Vm.Sentinel
import PveCpi.Lib.JsonAny

namespace Vm

open Lib.Json (Value Members Any decodeAny rawObject entriesOf parse Spells)
open Lib.Text (isSpace trimList)
open Lib.Assoc (lastOf)

/-! ## 1. The check -/

/-- The text and the top-level keys of a description: `ParseSentinel`, with the values as they are
written.  A key map that is nil reads as an empty one. -/
def parseSentinelTexts (desc : Text) : Text × TextMap Text :=
  match findSentinel desc with
  | none => (desc, ∅)
  | some (before, jsonStr, _) =>
    (trimList isSpace before, ((rawObject jsonStr).map entriesOf).getD ∅)

/-- `sentinelEntries`: no value is an empty map, and what is not an object is an error. -/
def sentinelEntries (value : Text) : Option (TextMap Text) :=
  if (trimList isSpace value).isEmpty then some ∅ else (rawObject value).map entriesOf

section Check

variable {N : Type} [DecidableEq N] (number : Text → Option N)

/-- `jsonValuesEqual`. -/
def jsonValuesEqual (a b : Text) : Bool :=
  match decodeAny number a, decodeAny number b with
  | some left, some right => left == right
  | none, none => a == b
  | _, _ => false

/-- Both are absent, or both are there and say the same. -/
def agree : Option Text → Option Text → Bool
  | none, none => true
  | some a, some b => jsonValuesEqual number a b
  | _, _ => false

/-- `sentinelKeyLanded`. -/
def sentinelKeyLanded (before sent current : Option Text) : Bool :=
  match sentinelEntries (before.getD []), sentinelEntries (sent.getD []),
    sentinelEntries (current.getD []) with
  | some beforeEntries, some sentEntries, some currentEntries =>
    (beforeEntries.keys ++ sentEntries.keys).all fun record =>
      agree number (beforeEntries.lookup record) (sentEntries.lookup record) ||
        agree number (sentEntries.lookup record) (currentEntries.lookup record)
  | _, _, _ => agree number sent current

/-- `DescriptionWriteLanded`. -/
def descriptionWriteLanded (before sent current : Text) : Bool :=
  let b := parseSentinelTexts before
  let s := parseSentinelTexts sent
  let c := parseSentinelTexts current
  (s.1 == b.1 || c.1 == s.1) &&
    (b.2.keys ++ s.2.keys).all fun key =>
      agree number (b.2.lookup key) (s.2.lookup key) ||
        sentinelKeyLanded number (b.2.lookup key) (s.2.lookup key) (c.2.lookup key)

end Check

/-! ## 2. Maps of records

A value is a map of records when it is an object, or blank.  Anything else is compared as a
whole. -/

section Records

variable {N : Type} {number : Text → Option N}

/-- A text of white space is no object. -/
theorem not_blank_of_obj {a : Text} {ms : Members} (h : parse a = some (.obj ms)) :
    ¬(trimList isSpace a).isEmpty = true := by
  intro hblank
  obtain ⟨rest, hcs, -⟩ := Lib.Json.parse_obj h
  have hmem : '{' ∈ a := (Lib.Json.skipWs_suffix a).subset (by rw [hcs]; exact List.mem_cons_self)
  obtain ⟨x, y, hsplit, hx, hy⟩ := Lib.Tokens.trimList_split isSpace a
  rw [List.isEmpty_iff.mp hblank, List.nil_append] at hsplit
  rw [hsplit, List.mem_append] at hmem
  rcases hmem with hmem | hmem
  · exact absurd (hx _ hmem) (by decide)
  · exact absurd (hy _ hmem) (by decide)

/-- What is a map of records is blank or an object. -/
theorem sentinelEntries_eq_some {a : Text} {m : TextMap Text} (h : sentinelEntries a = some m) :
    ((trimList isSpace a).isEmpty = true ∧ m = ∅) ∨
      ∃ l ms, parse a = some (.obj ms) ∧ Spells l ms ∧ m = entriesOf l := by
  unfold sentinelEntries at h
  split at h
  · rename_i hblank
    cases h
    exact .inl ⟨hblank, rfl⟩
  · obtain ⟨l, hl, rfl⟩ := Option.map_eq_some_iff.mp h
    obtain ⟨ms, hms, hspells⟩ := Lib.Json.rawObject_eq_some hl
    exact .inr ⟨l, ms, hms, hspells, rfl⟩

/-- What is decoded like an object is one. -/
theorem obj_of_toAny {v : Value} {d : Lib.Json.AnyMembers N} (h : v.toAny number = some (.obj d)) :
    ∃ ms, v = .obj ms := by
  cases v with
  | obj ms => exact ⟨ms, rfl⟩
  | null => cases h
  | bool b => cases h
  | num lit =>
    obtain ⟨_, _, h⟩ := Option.map_eq_some_iff.mp h
    cases h
  | str raw => cases h
  | arr es =>
    obtain ⟨_, _, h⟩ := Option.map_eq_some_iff.mp h
    cases h

/-- A map of records that is decoded, and what it is decoded to. -/
theorem decoded_records {a : Text} {m : TextMap Text} {v : Any N} (h : sentinelEntries a = some m)
    (hv : decodeAny number a = some v) :
    ((trimList isSpace a).isEmpty = true ∧ m = ∅) ∨ ∃ d, v = .obj d ∧
      ∀ record, (m.lookup record).map (decodeAny number) = (d.lookup record).map some := by
  rcases sentinelEntries_eq_some h with hblank | ⟨l, ms, hms, hspells, rfl⟩
  · exact .inl hblank
  · rw [decodeAny, hms, Option.bind_some, Value.toAny] at hv
    obtain ⟨d, hd, rfl⟩ := Option.map_eq_some_iff.mp hv
    exact .inr ⟨d, rfl, Lib.Json.lookup_entriesOf hspells hd⟩

theorem not_blank_of_decoded {a : Text} {d : Lib.Json.AnyMembers N}
    (h : decodeAny number a = some (.obj d)) : ¬(trimList isSpace a).isEmpty = true := by
  obtain ⟨v, hv, hd⟩ := Option.bind_eq_some_iff.mp h
  obtain ⟨ms, rfl⟩ := obj_of_toAny hd
  exact not_blank_of_obj hv

end Records

/-! ## 3. What is compared

Values that decode alike agree; values that do not decode agree when their texts do. -/

section Compare

variable {N : Type} [DecidableEq N] {number : Text → Option N}

theorem jsonValuesEqual_self (a : Text) : jsonValuesEqual number a a = true := by
  unfold jsonValuesEqual
  cases decodeAny number a with
  | none => exact beq_self_eq_true a
  | some v => exact beq_self_eq_true v

theorem jsonValuesEqual_comm (a b : Text) : jsonValuesEqual number a b =
    jsonValuesEqual number b a := by
  unfold jsonValuesEqual
  cases decodeAny number a with
  | none =>
    cases decodeAny number b with
    | none => exact BEq.comm
    | some w => rfl
  | some v =>
    cases decodeAny number b with
    | none => rfl
    | some w => exact BEq.comm

theorem agree_self (a : Option Text) : agree number a a = true := by
  cases a with
  | none => rfl
  | some a => exact jsonValuesEqual_self a

theorem agree_comm (a b : Option Text) : agree number a b = agree number b a := by
  cases a with
  | none => cases b <;> rfl
  | some a =>
    cases b with
    | none => rfl
    | some b => exact jsonValuesEqual_comm a b

/-- Values that are decoded alike agree. -/
theorem agree_of_decoded {a b : Option Text} {d : Option (Any N)}
    (ha : a.map (decodeAny number) = d.map some) (hb : b.map (decodeAny number) = d.map some) :
    agree number a b = true := by
  cases d with
  | none =>
    rw [Option.map_none, Option.map_eq_none_iff] at ha hb
    rw [ha, hb]
    rfl
  | some v =>
    obtain ⟨a, rfl, hav⟩ := Option.map_eq_some_iff.mp ha
    obtain ⟨b, rfl, hbv⟩ := Option.map_eq_some_iff.mp hb
    simp only [agree, jsonValuesEqual, hav, hbv, beq_self_eq_true]

/-- **Two record maps that say the same have the same records.**  Decoding an object and decoding
its members one by one give the same (`Lib.Json.lookup_entriesOf`). -/
theorem records_agree {a b : Text} (h : jsonValuesEqual number a b = true) {m m' : TextMap Text}
    (ha : sentinelEntries a = some m) (hb : sentinelEntries b = some m') (record : Text) :
    agree number (m.lookup record) (m'.lookup record) = true := by
  unfold jsonValuesEqual at h
  split at h
  · rename_i v w hv hw
    have heq := eq_of_beq h
    subst heq
    rcases decoded_records ha hv with ⟨hblank, rfl⟩ | ⟨d, rfl, hd⟩
    · rcases decoded_records hb hw with ⟨-, rfl⟩ | ⟨d, rfl, -⟩
      · exact agree_self _
      · exact absurd hblank (not_blank_of_decoded hv)
    · rcases decoded_records hb hw with ⟨hblank, -⟩ | ⟨d', hd', hrec⟩
      · exact absurd hblank (not_blank_of_decoded hw)
      · cases hd'
        exact agree_of_decoded (hd record) (hrec record)
  · have heq := eq_of_beq h
    subst heq
    rw [ha] at hb
    cases hb
    exact agree_self _
  · cases h

/-- The same for a value that may be absent. -/
theorem agree_records {a b : Option Text} (h : agree number a b = true) {m m' : TextMap Text}
    (ha : sentinelEntries (a.getD []) = some m) (hb : sentinelEntries (b.getD []) = some m')
    (record : Text) : agree number (m.lookup record) (m'.lookup record) = true := by
  cases a with
  | none =>
    cases b with
    | none =>
      rw [ha] at hb
      cases hb
      exact agree_self _
    | some b => cases h
  | some a =>
    cases b with
    | none => cases h
    | some b => exact records_agree h ha hb record

/-- To ask it of the keys of two maps is to ask it of every key. -/
theorem all_keys {m m' : TextMap Text} {f : Text → Bool}
    (h : ∀ k, m.lookup k = none → m'.lookup k = none → f k = true) :
    (m.keys ++ m'.keys).all f = true ↔ ∀ k, f k = true := by
  rw [List.all_eq_true]
  constructor
  · intro hall k
    by_cases hk : k ∈ m.keys ++ m'.keys
    · exact hall k hk
    · rw [List.mem_append, not_or] at hk
      exact h k (AList.lookup_eq_none.mpr hk.1) (AList.lookup_eq_none.mpr hk.2)
  · intro hall k _
    exact hall k

/-- **Record by record**, where all three values are maps of records. -/
theorem keyLanded_records {before sent current : Option Text} {b s c : TextMap Text}
    (hb : sentinelEntries (before.getD []) = some b) (hs : sentinelEntries (sent.getD []) = some s)
    (hc : sentinelEntries (current.getD []) = some c) :
    sentinelKeyLanded number before sent current = true ↔
      ∀ record, agree number (b.lookup record) (s.lookup record) = true ∨
        agree number (s.lookup record) (c.lookup record) = true := by
  simp only [sentinelKeyLanded, hb, hs, hc]
  rw [all_keys]
  · simp only [Bool.or_eq_true]
  · intro record hbefore hsent
    rw [hbefore, hsent]
    rfl

/-- **As a whole**, where one of them is not. -/
theorem keyLanded_whole {before sent current : Option Text}
    (h : sentinelEntries (before.getD []) = none ∨ sentinelEntries (sent.getD []) = none ∨
      sentinelEntries (current.getD []) = none) :
    sentinelKeyLanded number before sent current = agree number sent current := by
  unfold sentinelKeyLanded
  split
  · rename_i hb hs hc
    rcases h with h | h | h
    · rw [hb] at h
      cases h
    · rw [hs] at h
      cases h
    · rw [hc] at h
      cases h
  · rfl

/-- A key that reads as it was sent has landed. -/
theorem keyLanded_of_agree {before sent current : Option Text}
    (h : agree number sent current = true) :
    sentinelKeyLanded number before sent current = true := by
  cases hb : sentinelEntries (before.getD []) with
  | none => rw [keyLanded_whole (.inl hb), h]
  | some b =>
    cases hs : sentinelEntries (sent.getD []) with
    | none => rw [keyLanded_whole (.inr (.inl hs)), h]
    | some s =>
      cases hc : sentinelEntries (current.getD []) with
      | none => rw [keyLanded_whole (.inr (.inr hc)), h]
      | some c =>
        exact (keyLanded_records hb hs hc).mpr fun record => .inr (agree_records h hs hc record)

end Compare

/-! ## 4. Stable, and not vacuous

The two directions of the check. -/

/-- The text outside the sentinel. -/
def outside (desc : Text) : Text := (parseSentinelTexts desc).1

/-- The value under a key of the sentinel, as it is written. -/
def writtenUnder (desc key : Text) : Option Text := (parseSentinelTexts desc).2.lookup key

/-- The value under a key as a map of records. -/
def recordsOf (desc key : Text) : Option (TextMap Text) :=
  sentinelEntries ((writtenUnder desc key).getD [])

section Landed

variable {N : Type} [DecidableEq N]

/-- `current` differs from `sent` only in what the write left alone: the text outside the sentinel,
keys, and records inside keys that are maps of records on all three sides. -/
structure OnlyOthers (number : Text → Option N) (before sent current : Text) : Prop where
  text : outside sent = outside before ∨ outside current = outside sent
  keys : ∀ key, agree number (writtenUnder before key) (writtenUnder sent key) = true ∨
    agree number (writtenUnder sent key) (writtenUnder current key) = true ∨
    ∃ b s c, recordsOf before key = some b ∧ recordsOf sent key = some s ∧
      recordsOf current key = some c ∧
      ∀ record, agree number (b.lookup record) (s.lookup record) = true ∨
        agree number (s.lookup record) (c.lookup record) = true

/-- The write changed the text outside the sentinel, or added, changed or removed a record, or
changed a key whose value is not a map of records. -/
inductive Changes (number : Text → Option N) (before sent : Text) : Prop
  | text : outside sent ≠ outside before → Changes number before sent
  | record (key record : Text) {b s : TextMap Text} : recordsOf before key = some b →
    recordsOf sent key = some s → agree number (b.lookup record) (s.lookup record) = false →
    Changes number before sent
  | key (key : Text) : agree number (writtenUnder before key) (writtenUnder sent key) = false →
    (recordsOf before key = none ∨ recordsOf sent key = none) → Changes number before sent

variable {number : Text → Option N}

/-- What the answer means. -/
theorem writeLanded_iff {before sent current : Text} :
    descriptionWriteLanded number before sent current = true ↔
      (outside sent = outside before ∨ outside current = outside sent) ∧
        ∀ key, agree number (writtenUnder before key) (writtenUnder sent key) = true ∨
          sentinelKeyLanded number (writtenUnder before key) (writtenUnder sent key)
            (writtenUnder current key) = true := by
  simp only [descriptionWriteLanded]
  rw [Bool.and_eq_true, all_keys]
  · simp only [Bool.or_eq_true, beq_iff_eq]
    rfl
  · intro key hbefore hsent
    rw [hbefore, hsent]
    rfl

/-- A key that the write changed is not there without the write. -/
theorem not_keyLanded {before sent : Text} {key : Text}
    (h : agree number (writtenUnder before key) (writtenUnder sent key) = false)
    (hentries : recordsOf before key = none ∨ recordsOf sent key = none) :
    sentinelKeyLanded number (writtenUnder before key) (writtenUnder sent key)
      (writtenUnder before key) = false := by
  rw [keyLanded_whole (hentries.imp id .inl), agree_comm, h]

/-- Nor is a key with a record that it changed. -/
theorem not_keyLanded_record {before sent key record : Text} {b s : TextMap Text}
    (hb : recordsOf before key = some b) (hs : recordsOf sent key = some s)
    (h : agree number (b.lookup record) (s.lookup record) = false) :
    ¬sentinelKeyLanded number (writtenUnder before key) (writtenUnder sent key)
      (writtenUnder before key) = true := by
  intro hlanded
  rcases (keyLanded_records hb hs hb).mp hlanded record with hsame | hsame
  · rw [h] at hsame
    cases hsame
  · rw [agree_comm, h] at hsame
    cases hsame

/-- **The check sees the write through the edits of others, and it does not see a write that is not
there.**  The answer is a conjunction over keys and records that the write changed
(`writeLanded_iff`).  Others leave each of these as it was sent, so it holds; without the write the
one that is missing fails. -/
theorem writeLanded_stable (number : Text → Option N) (before sent : Text) :
    (∀ current, OnlyOthers number before sent current →
      descriptionWriteLanded number before sent current = true) ∧
    (Changes number before sent → descriptionWriteLanded number before sent before = false) := by
  constructor
  · intro current h
    refine writeLanded_iff.mpr ⟨h.text, fun key => ?_⟩
    rcases h.keys key with hsame | hsame | ⟨b, s, c, hb, hs, hc, hrecords⟩
    · exact .inl hsame
    · exact .inr (keyLanded_of_agree hsame)
    · exact .inr ((keyLanded_records hb hs hc).mpr hrecords)
  · intro h
    rw [Bool.eq_false_iff]
    intro hlanded
    obtain ⟨htext, hkeys⟩ := writeLanded_iff.mp hlanded
    cases h with
    | text hne => exact htext.elim hne (fun h => hne h.symm)
    | record key record hb hs hne =>
      rcases hkeys key with hsame | hsame
      · rw [agree_records hsame hb hs record] at hne
        cases hne
      · exact not_keyLanded_record hb hs hne hsame
    | key key hne hentries =>
      rcases hkeys key with hsame | hsame
      · rw [hne] at hsame
        cases hsame
      · rw [not_keyLanded hne hentries] at hsame
        cases hsame

end Landed

/-- What decimal digits are read as. -/
def digits (lit : Text) : Option Nat := some (lit.foldl (fun n c => 10 * n + (c.toNat - 48)) 0)

def landedBefore : Text := "vm\n<!--BOSH:\x7b\"a\":\x7b\"x\":1,\"y\":2\x7d,\"b\":3\x7d-->".toList
def landedSent : Text := "vm\n<!--BOSH:\x7b\"a\":\x7b\"x\":5,\"y\":2\x7d,\"b\":3\x7d-->".toList
def landedCurrent : Text :=
  "my vm\n<!--BOSH:\x7b\"a\":\x7b\"y\":4,\"x\": 5\x7d,\"b\":null\x7d-->".toList

theorem lookup_of_keys {m : TextMap Text} {keys : List Text} {k a b : Text} (hm : m.keys = keys)
    (hkeys : ∀ k ∈ keys, k = a ∨ k = b) (ha : k ≠ a) (hb : k ≠ b) : m.lookup k = none := by
  refine AList.lookup_eq_none.mpr fun hk => ?_
  rw [AList.mem_keys, hm] at hk
  exact (hkeys k hk).elim ha hb

/-- The records under `a` are `x` and `y`, with these values. -/
def Records (desc : Text) (m : TextMap Text) (x y : Char) : Prop :=
  recordsOf desc "a".toList = some m ∧ m.lookup "x".toList = some [x] ∧
    m.lookup "y".toList = some [y] ∧ ∀ k, k ≠ "x".toList → k ≠ "y".toList → m.lookup k = none

theorem records_of_lookup {desc : Text} {x y : Char} {keys : List Text}
    (h : (recordsOf desc "a".toList).map
      (fun m => (m.lookup "x".toList, m.lookup "y".toList, m.keys)) =
      some (some [x], some [y], keys)) (hkeys : ∀ k ∈ keys, k = "x".toList ∨ k = "y".toList) :
    ∃ m, Records desc m x y := by
  obtain ⟨m, hm, hreads⟩ := Option.map_eq_some_iff.mp h
  simp only [Prod.mk.injEq] at hreads
  exact ⟨m, hm, hreads.1, hreads.2.1, fun k => lookup_of_keys hreads.2.2 hkeys⟩

/-- What the three descriptions have under `a`. -/
theorem landed_records : (∃ m, Records landedBefore m '1' '2') ∧
    (∃ m, Records landedSent m '5' '2') ∧ ∃ m, Records landedCurrent m '5' '4' := by
  refine ⟨?_, ?_, ?_⟩
  · exact @records_of_lookup _ _ _ ["y".toList, "x".toList] (by decide +kernel) (by decide)
  · exact @records_of_lookup _ _ _ ["y".toList, "x".toList] (by decide +kernel) (by decide)
  · exact @records_of_lookup _ _ _ ["x".toList, "y".toList] (by decide +kernel) (by decide)

/-- The record `x` was written, and another writer has changed the text, the key `b` and the record
`y`. -/
theorem onlyOthers_sample : OnlyOthers digits landedBefore landedSent landedCurrent := by
  refine ⟨.inl (by decide +kernel), fun key => ?_⟩
  by_cases ha : key = "a".toList
  · subst ha
    obtain ⟨⟨b, hb, -, hby, hbrest⟩, ⟨s, hs, hsx, hsy, hsrest⟩, c, hc, hcx, -, -⟩ :=
      landed_records
    refine .inr (.inr ⟨b, s, c, hb, hs, hc, fun record => ?_⟩)
    by_cases hx : record = "x".toList
    · rw [hx, hsx, hcx]
      exact .inr (agree_self _)
    · by_cases hy : record = "y".toList
      · rw [hy, hby, hsy]
        exact .inl (agree_self _)
      · rw [hbrest record hx hy, hsrest record hx hy]
        exact .inl rfl
  · by_cases hb : key = "b".toList
    · subst hb
      exact .inl (by decide +kernel)
    · have hkeys : ∀ desc ∈ [landedBefore, landedSent],
          (parseSentinelTexts desc).2.keys = ["b".toList, "a".toList] := by decide +kernel
      have hnone : ∀ desc ∈ [landedBefore, landedSent], writtenUnder desc key = none :=
        fun desc hdesc =>
        lookup_of_keys (hkeys desc hdesc) (by decide) hb ha
      rw [hnone landedBefore (by simp), hnone landedSent (by simp)]
      exact .inl rfl

theorem writeLanded_stable_sample :
    descriptionWriteLanded digits landedBefore landedSent landedCurrent = true ∧
      descriptionWriteLanded digits landedBefore landedSent landedBefore = false := by
  have h := writeLanded_stable digits landedBefore landedSent
  obtain ⟨⟨b, hb, hbx, -⟩, ⟨s, hs, hsx, -⟩, -⟩ := landed_records
  refine ⟨h.1 _ onlyOthers_sample, h.2 (.record "a".toList "x".toList hb hs ?_)⟩
  rw [hbx, hsx]
  decide +kernel

end Vm
