/-
# The tags that queue a VM for teardown

`deferredTeardownQueue` of `cpi/handlers/vm_teardown_sweep.go`: the sweep tears down a VM that
carries `bosh-deleting` or an old birth tag, and leaves one alone that carries a tag of a
re-registration or, in a debugging mode, of a failed create.  Only the CPI is meant to write these
tags.  The filters in front of the writers (`Tags.lean`) do not keep them all out:

* the name of an instance becomes a tag, and is compared with the create-time prefixes alone, so a
  name can queue a VM (`queued_by_name`) or take it out of the queue;
* a custom tag can take a VM out of the queue, since the prefix of a re-registration is in none of
  the lists.

`teardown_queue_iff` says that nothing else can go wrong.

The queue is decided by a few tags out of a field, so a write changes it only by adding or replacing
one of them.  `Idle` is a tag that decides nothing.  The tags of the metadata keys and the owner tag
are idle by their prefixes, and a custom tag can only be of one kind that decides.  What remains is
the name of the instance.

The cap is set aside on purpose: a tag that is dropped can change the queue as well, but that is a
property of the cap, and the ownership tags are what the CPI protects from it.
-/
import PveCpi.Vm.Ownership
import Mathlib.Data.List.Chain

namespace Vm

open Lib.Text (isSpace trimList)
open Lib.Tokens

/-! ## 1. The queue -/

def haReaddTagPrefix : Tag := "bosh-ha-readd-".toList
def tagCreateFailed : Tag := "bosh-create-failed".toList

/-- A point of time in nanoseconds, as `time.Time` counts them. -/
abbrev Instant := Int

/-- The seconds between the origin of `time.Time` and the epoch. -/
def unixToInternal : Int := 62135596800

/-- An `int64` after a wrap. -/
def wrap64 (n : Int) : Int := (n + 2 ^ 63) % 2 ^ 64 - 2 ^ 63

/-- `time.Unix(secs, 0)`. -/
def unixTime (secs : Nat) : Instant := wrap64 (secs + unixToInternal) * 1000000000

/-- `Time.Sub`: the difference, at most what a `Duration` can hold. -/
def Instant.sub (t u : Instant) : Int := max (-2 ^ 63) (min (2 ^ 63 - 1) (t - u))

/-- The number that decimal digits write. -/
def decimal (digits : Text) : Nat := digits.foldl (fun n c => 10 * n + (c.toNat - '0'.toNat)) 0

/-- `birthTagTime`: one to nineteen digits after the prefix, in the range of an `int64`. -/
def birthTagTime (tag : Tag) : Option Instant :=
  let t := trimList isSpace tag
  if birthTagPrefix.isPrefixOf t then
    let digits := t.drop birthTagPrefix.length
    if digits.all Char.isDigit && decide (1 ≤ digits.length) && decide (digits.length ≤ 19) &&
        decide (decimal digits < 2 ^ 63) then
      some (unixTime (decimal digits))
    else none
  else none

/-- `isBirthTag`. -/
def isBirthTag (tag : Tag) : Bool := (birthTagTime tag).isSome

/-- `deferredTeardownQueue`. -/
structure DeferredTeardownQueue where
  now : Instant
  age : Int
  keepFailed : Bool

namespace DeferredTeardownQueue

variable (q : DeferredTeardownQueue)

/-- A birth tag older than the age of the queue. -/
def expired (tag : Tag) : Bool :=
  match birthTagTime tag with
  | none => false
  | some born => decide (q.age < q.now.sub born)

/-- The loop of `queued` over the lowered tags. -/
def queuedFrom (deleting expired : Bool) : List Tag → Bool
  | [] => deleting || (expired && !q.keepFailed)
  | tag :: tags =>
    if haReaddTagPrefix.isPrefixOf tag then false
    else if decide (tag = tagCreateFailed) && q.keepFailed then false
    else queuedFrom (deleting || decide (tag = tagDeletingVM)) (expired || q.expired tag) tags

/-- `queued`. -/
def queued (L : Casing) (tagsRaw : Text) : Bool :=
  q.queuedFrom false false (lowerTags L (parseTagsField tagsRaw))

/-- A tag that keeps its VM out of the queue. -/
def holds (tag : Tag) : Bool :=
  haReaddTagPrefix.isPrefixOf tag || (decide (tag = tagCreateFailed) && q.keepFailed)

/-- A tag that puts its VM into the queue. -/
def wants (tag : Tag) : Bool :=
  decide (tag = tagDeletingVM) || (q.expired tag && !q.keepFailed)

/-- Some tag of the field keeps its VM out of the queue. -/
def held (L : Casing) (tagsRaw : Text) : Bool :=
  (lowerTags L (parseTagsField tagsRaw)).any q.holds

end DeferredTeardownQueue

/-- `withoutBirthTags`. -/
def withoutBirthTags (entries : List Tag) : List Tag := entries.filter fun e => !isBirthTag e

/-- `birthTagFor`, of a time in seconds. -/
def birthTagFor (secs : Int) : Tag := birthTagPrefix ++ (toString secs).toList

/-- `withBirthTag`: the tag goes behind the tags in front. -/
def withBirthTag (L : Casing) (tags : Text) (tag : Tag) : Text × List Tag :=
  let entries := hoistHeadTags L (withoutBirthTags (parseTagsField tags))
  mergeTagListReporting (entries.takeWhile (isHead L) ++ [tag] ++ entries.dropWhile (isHead L)) []
    maxTagLength

/-- The tags that a create writes first, and what the cap dropped on the way.  Only the legacy
create adds a birth tag. -/
def createVMTags (L : Casing) (head provenance : List Tag) (custom : TextMap Text)
    (birth : Option Int) : Text × List Tag :=
  let tags := initialTags L head provenance custom
  match birth with
  | none => tags
  | some secs =>
    let tagged := withBirthTag L tags.1 (birthTagFor secs)
    (tagged.1, tags.2 ++ tagged.2)

/-! ## 2. What decides

By prefixes, and the first letter separates most of them. -/

namespace DeferredTeardownQueue

variable {q : DeferredTeardownQueue} {L : Casing}

/-- The loop over the tags in closed form: a tag that holds wins over any that asks. -/
theorem queuedFrom_eq (deleting expired : Bool) (tags : List Tag) :
    q.queuedFrom deleting expired tags = (!tags.any q.holds &&
      ((deleting || (expired && !q.keepFailed)) || tags.any q.wants)) := by
  induction tags generalizing deleting expired with
  | nil => simp [queuedFrom]
  | cons tag tags ih =>
    rw [queuedFrom, ih, List.any_cons, List.any_cons]
    by_cases hreadd : haReaddTagPrefix.isPrefixOf tag = true
    · simp [hreadd, holds]
    · by_cases hfailed : (decide (tag = tagCreateFailed) && q.keepFailed) = true
      · simp [hfailed, holds]
      · rw [if_neg hreadd, if_neg hfailed]
        rw [Bool.not_eq_true] at hreadd hfailed
        rw [holds, hreadd, hfailed, wants]
        cases q.keepFailed <;> cases deleting <;> cases expired <;> simp

theorem queued_eq (tagsRaw : Text) : q.queued L tagsRaw =
    (!q.held L tagsRaw && (lowerTags L (parseTagsField tagsRaw)).any q.wants) := by
  rw [queued, queuedFrom_eq]
  rfl

end DeferredTeardownQueue

/-- Every tag that decides starts with one of these. -/
def decidingPrefixes : List Tag :=
  [haReaddTagPrefix, tagCreateFailed, tagDeletingVM, birthTagPrefix]

theorem decidingPrefixes_first : ∀ p ∈ decidingPrefixes, ∃ q, p = 'b' :: q := by
  simp only [decidingPrefixes, List.forall_mem_cons, List.not_mem_nil, false_implies, implies_true,
    and_true]
  exact ⟨⟨_, rfl⟩, ⟨_, rfl⟩, ⟨_, rfl⟩, ⟨_, rfl⟩⟩

/-- A birth tag is the prefix and digits, but for white space around them. -/
theorem birthTagTime_eq {tag : Tag} {born : Instant} (h : birthTagTime tag = some born) :
    ∃ digits, trimList isSpace tag = birthTagPrefix ++ digits ∧ ∀ c ∈ digits, c.isDigit = true := by
  unfold birthTagTime at h
  dsimp only at h
  split at h
  · rename_i hpre
    obtain ⟨digits, hdigits⟩ := List.isPrefixOf_iff_prefix.mp hpre
    rw [← hdigits, List.drop_left] at h
    split at h
    · rename_i hall
      simp only [Bool.and_eq_true, List.all_eq_true] at hall
      exact ⟨digits, hdigits.symm, hall.1.1.1⟩
    · cases h
  · cases h

theorem trimList_prefix {p : Char → Bool} {c : Char} (hc : ¬p c = true) (rest : Text) :
    trimList p (c :: rest) <+: c :: rest := by
  rw [trimList, List.dropWhile_cons_of_neg hc]
  have hsuffix := List.dropWhile_suffix p (l := (c :: rest).reverse)
  have hprefix := List.reverse_prefix.mpr hsuffix
  rwa [List.reverse_reverse] at hprefix

section Deciding

variable {q : DeferredTeardownQueue} {L : Casing}

/-- An entry that decides nothing. -/
def Idle (q : DeferredTeardownQueue) (L : Casing) (e : Tag) : Prop :=
  q.holds (L.toLower e) = false ∧ q.wants (L.toLower e) = false

theorem birth_of_expired {tag : Tag} (h : q.expired tag = true) :
    ∃ born, birthTagTime tag = some born := by
  unfold DeferredTeardownQueue.expired at h
  split at h
  · cases h
  · rename_i born hborn
    exact ⟨born, hborn⟩

theorem holds_cases {tag : Tag} (h : q.holds tag = true) :
    haReaddTagPrefix <+: tag ∨ tag = tagCreateFailed := by
  rw [DeferredTeardownQueue.holds, Bool.or_eq_true, Bool.and_eq_true, decide_eq_true_eq] at h
  rcases h with h | h
  · exact .inl (List.isPrefixOf_iff_prefix.mp h)
  · exact .inr h.1

theorem wants_cases {tag : Tag} (h : q.wants tag = true) :
    tag = tagDeletingVM ∨ ∃ born, birthTagTime tag = some born := by
  rw [DeferredTeardownQueue.wants, Bool.or_eq_true, Bool.and_eq_true, decide_eq_true_eq] at h
  rcases h with h | h
  · exact .inl h
  · exact .inr (birth_of_expired h.1)

/-- A tag that decides starts with one of the prefixes, unless it starts with white space. -/
theorem prefix_of_decides {c : Char} {rest : Text} (hc : isSpace c = false)
    (h : q.holds (c :: rest) = true ∨ q.wants (c :: rest) = true) :
    hasAnyPrefix decidingPrefixes (c :: rest) = true := by
  refine hasAnyPrefix_iff.mpr ?_
  rcases h with h | h
  · rcases holds_cases h with h | h
    · exact ⟨haReaddTagPrefix, by simp [decidingPrefixes], h⟩
    · exact ⟨tagCreateFailed, by simp [decidingPrefixes], h ▸ List.prefix_refl _⟩
  · rcases wants_cases h with h | ⟨born, h⟩
    · exact ⟨tagDeletingVM, by simp [decidingPrefixes], h ▸ List.prefix_refl _⟩
    · obtain ⟨digits, hdigits, -⟩ := birthTagTime_eq h
      have htrim := trimList_prefix (Bool.eq_false_iff.mp hc) rest
      rw [hdigits] at htrim
      exact ⟨birthTagPrefix, by simp [decidingPrefixes], (List.prefix_append _ _).trans htrim⟩

theorem idle_of_first {c : Char} {rest : Text} (hc : isTagChar c = true)
    (h : hasAnyPrefix decidingPrefixes (L.toLower (c :: rest)) = false) : Idle q L (c :: rest) := by
  have hspace : isSpace (L.lower c) = false := isTagChar_space (isTagChar_lower hc)
  constructor
  · rw [Bool.eq_false_iff]
    intro hholds
    rw [Casing.toLower, List.map_cons, prefix_of_decides hspace (.inl hholds)] at h
    cases h
  · rw [Bool.eq_false_iff]
    intro hwants
    rw [Casing.toLower, List.map_cons, prefix_of_decides hspace (.inr hwants)] at h
    cases h

/-- An entry with a key of the metadata decides nothing. -/
theorem idle_of_reserved {e : Tag} (h : hasReservedBoshPrefix e = true) : Idle q L e := by
  obtain ⟨c, rest, rfl, hc, hascii, hlower, -⟩ := reserved_first h
  refine idle_of_first hc (hasAnyPrefix_first hascii fun p hp => ?_)
  obtain ⟨t, rfl⟩ := decidingPrefixes_first p hp
  exact ⟨'b', t, rfl, hlower⟩

/-- An owner tag decides nothing. -/
theorem idle_ownerTag (v : Text) : Idle q L (ownerTagPrefix ++ v) := by
  refine idle_of_first (c := 'b') (by decide) ?_
  rw [Bool.eq_false_iff]
  intro h
  obtain ⟨p, hp, hpre⟩ := hasAnyPrefix_iff.mp h
  have hapart : ∀ p ∈ decidingPrefixes, ¬p <+: ownerTagPrefix ∧ ¬ownerTagPrefix <+: p := by decide
  rcases List.prefix_or_prefix_of_prefix hpre (ownerTag_starts (L := L) v) with hle | hle
  · exact (hapart p hp).1 hle
  · exact (hapart p hp).2 hle

/-! ## 3. Entries that a custom tag replaces

Birth tags have single dashes only, so no custom tag replaces one. -/

/-- No two dashes stand side by side. -/
abbrev SingleDashes (t : Text) : Prop := t.IsChain fun a b => a ≠ '-' ∨ b ≠ '-'

/-- What a key replaces has two dashes. -/
theorem not_singleDashes {p x : Text} (hdash : "--".toList <:+ p) (hp : p <+: x) :
    ¬SingleDashes x := by
  intro h
  obtain ⟨a, rfl⟩ := hdash
  obtain ⟨b, rfl⟩ := hp
  have hpair := (h.left_of_append.right_of_append).rel
  rcases hpair with hne | hne
  · exact hne rfl
  · exact hne rfl

theorem singleDashes_append {a b : Text} (ha : SingleDashes a) (hb : ∀ c ∈ b, c ≠ '-') :
    SingleDashes (a ++ b) := by
  refine List.isChain_append.mpr ⟨ha, ?_, fun x _ y hy => .inr (hb y (List.mem_of_head? hy))⟩
  exact List.Pairwise.isChain (List.pairwise_of_forall_mem_list fun x hx _ _ => .inl (hb x hx))

/-- A birth tag has no two dashes side by side, with or without white space around it. -/
theorem singleDashes_birth {tag : Tag} {born : Instant} (h : birthTagTime tag = some born) :
    SingleDashes tag := by
  obtain ⟨digits, hdigits, hall⟩ := birthTagTime_eq h
  obtain ⟨a, b, hsplit, ha, hb⟩ := trimList_split isSpace tag
  have hspace : ∀ {c : Char}, isSpace c = true → c ≠ '-' := by
    rintro c hc rfl
    exact absurd hc (by decide)
  have hdigit : ∀ c ∈ digits, c ≠ '-' := by
    rintro c hc rfl
    exact absurd (hall '-' hc) (by decide)
  have hmiddle : SingleDashes (birthTagPrefix ++ digits ++ b) :=
    singleDashes_append (singleDashes_append (by decide) hdigit) fun c hc => hspace (hb c hc)
  rw [hsplit, hdigits]
  refine List.isChain_append.mpr ⟨?_, hmiddle, fun x hx _ _ => .inl ?_⟩
  · exact singleDashes_append (a := []) List.isChain_nil fun c hc => hspace (ha c hc)
  · exact hspace (ha x (List.mem_of_getLast? hx))

/-- An entry that a custom tag replaces puts no VM into the queue. -/
theorem wants_of_replaced {p x entry : Tag} (hp : keyPrefix entry = some p) (hx : p <+: x) :
    q.wants (L.toLower x) = false := by
  rw [Bool.eq_false_iff]
  intro h
  have hdouble : ¬SingleDashes (L.toLower x) :=
    not_singleDashes (toLower_dashes (keyPrefix_eq hp).2) (hx.map L.lower)
  rcases wants_cases h with heq | ⟨born, hborn⟩
  · rw [heq] at hdouble
    exact hdouble (by decide)
  · exact hdouble (singleDashes_birth hborn)

/-- An entry that a custom tag replaces and that keeps a VM out of the queue starts like the tag
that replaces it. -/
theorem holds_of_replaced {p x entry : Tag} (hp : keyPrefix entry = some p) (hx : p <+: x)
    (h : q.holds (L.toLower x) = true) : haReaddTagPrefix <+: L.toLower entry := by
  rcases holds_cases h with hreadd | heq
  · exact prefix_of_replaced (by decide) hp hx hreadd
  · have hdouble : ¬SingleDashes (L.toLower x) :=
      not_singleDashes (toLower_dashes (keyPrefix_eq hp).2) (hx.map L.lower)
    rw [heq] at hdouble
    exact absurd (by decide) hdouble

/-- A custom tag puts no VM into the queue, and keeps one out only as a re-registration would. -/
theorem custom_decides {custom : TextMap Text} {t : Tag} (ht : t ∈ buildCustomTags L custom) :
    q.wants (L.toLower t) = false ∧
      (q.holds (L.toLower t) = true ↔ haReaddTagPrefix <+: L.toLower t) := by
  obtain ⟨e, -, he, -⟩ := mem_buildCustomTags.mp ht
  obtain ⟨k, v, hk, hv, -, rfl⟩ := customEntry_eq he
  have hdouble : ¬SingleDashes (L.toLower (k ++ "--".toList ++ v)) :=
    not_singleDashes (toLower_dashes (List.suffix_append k "--".toList))
      (List.IsPrefix.map L.lower (List.prefix_append (k ++ "--".toList) v))
  constructor
  · rw [Bool.eq_false_iff]
    intro h
    rcases wants_cases h with heq | ⟨born, hborn⟩
    · rw [heq] at hdouble
      exact hdouble (by decide)
    · exact hdouble (singleDashes_birth hborn)
  · constructor
    · intro h
      rcases holds_cases h with hreadd | heq
      · exact hreadd
      · rw [heq] at hdouble
        exact absurd (by decide) hdouble
    · intro h
      rw [DeferredTeardownQueue.holds, List.isPrefixOf_iff_prefix.mpr h, Bool.true_or]

/-! ## 4. What a write adds

`Adds` is what the queue sees of a write: the tags that hold or want the VM are those of the field
before and those among the new entries. -/

/-- Some tag of the field puts its VM into the queue. -/
def DeferredTeardownQueue.wanted (q : DeferredTeardownQueue) (L : Casing) (tagsRaw : Text) : Bool :=
  (lowerTags L (parseTagsField tagsRaw)).any q.wants

/-- As far as the queue goes, `w` is `s` with the tags `new`. -/
structure Adds (q : DeferredTeardownQueue) (L : Casing) (s w : Text) (new : List Tag) : Prop where
  held : q.held L w = (q.held L s || new.any fun e => q.holds (L.toLower e))
  wanted : q.wanted L w = (q.wanted L s || new.any fun e => q.wants (L.toLower e))

theorem any_lowerTags {f : Tag → Bool} {tags : List Tag} :
    (lowerTags L tags).any f = tags.any fun e => f (L.toLower e) := List.any_map

/-- The entries of a field in terms of another one. -/
theorem adds_of_entries {s w : Text} {new : List Tag}
    (hfrom : ∀ e ∈ parseTagsField w, e ∈ parseTagsField s ∨ e ∈ new ∨ Idle q L e)
    (hwants : ∀ e ∈ parseTagsField s, q.wants (L.toLower e) = true → e ∈ parseTagsField w)
    (hholds : ∀ e ∈ parseTagsField s, q.holds (L.toLower e) = true → e ∈ parseTagsField w ∨
      ∃ n ∈ new, q.holds (L.toLower n) = true)
    (hnew : ∀ e ∈ new, e ∈ parseTagsField w) : Adds q L s w new := by
  constructor
  · rw [DeferredTeardownQueue.held, DeferredTeardownQueue.held, any_lowerTags, any_lowerTags,
      Bool.eq_iff_iff, Bool.or_eq_true, List.any_eq_true, List.any_eq_true, List.any_eq_true]
    constructor
    · rintro ⟨e, he, h⟩
      rcases hfrom e he with hold | hmem | hidle
      · exact .inl ⟨e, hold, h⟩
      · exact .inr ⟨e, hmem, h⟩
      · rw [hidle.1] at h
        cases h
    · rintro (⟨e, he, h⟩ | ⟨e, he, h⟩)
      · rcases hholds e he h with hmem | ⟨n, hn, hnh⟩
        · exact ⟨e, hmem, h⟩
        · exact ⟨n, hnew n hn, hnh⟩
      · exact ⟨e, hnew e he, h⟩
  · rw [DeferredTeardownQueue.wanted, DeferredTeardownQueue.wanted, any_lowerTags, any_lowerTags,
      Bool.eq_iff_iff, Bool.or_eq_true, List.any_eq_true, List.any_eq_true, List.any_eq_true]
    constructor
    · rintro ⟨e, he, h⟩
      rcases hfrom e he with hold | hmem | hidle
      · exact .inl ⟨e, hold, h⟩
      · exact .inr ⟨e, hmem, h⟩
      · rw [hidle.2] at h
        cases h
    · rintro (⟨e, he, h⟩ | ⟨e, he, h⟩)
      · exact ⟨e, hwants e he h, h⟩
      · exact ⟨e, hnew e he, h⟩

/-- When the cap drops nothing, a merge reads back as all of its entries. -/
theorem mem_parse_merge {existing additions : List Tag} {cap : Nat} {e : Tag}
    (hdropped : (mergeTagListReporting existing additions cap).2 = []) :
    e ∈ parseTagsField (mergeTagListReporting existing additions cap).1 ↔
      ∃ t, (t ∈ existing ∨ t ∈ additions) ∧ e ∈ parseTagsField t := by
  obtain ⟨kept, hkept, hmerged⟩ := merge_kept existing additions cap
  rw [hdropped] at hmerged
  rw [hkept, parseTagsField, joinTags, tokens_joined_flatMap rfl, List.mem_flatMap]
  constructor
  · rintro ⟨t, ht, he⟩
    exact ⟨t, (hmerged.mem_of_kept ht).1, he⟩
  · rintro ⟨t, ht, he⟩
    refine ⟨t, hmerged.kept_of_mem ht ?_, he⟩
    rintro rfl
    rw [show parseTagsField [] = [] from rfl] at he
    exact absurd he List.not_mem_nil

/-- When nothing is dropped, a field that is written from clean tags reads back as those tags. -/
theorem mem_parse_merge_clean {existing additions : List Tag} {cap : Nat} {e : Tag}
    (hdropped : (mergeTagListReporting existing additions cap).2 = [])
    (hexisting : ∀ t ∈ existing, TagClean t) (hadditions : ∀ t ∈ additions, TagClean t) :
    e ∈ parseTagsField (mergeTagListReporting existing additions cap).1 ↔
      e ∈ existing ∨ e ∈ additions := by
  have hclean : ∀ t, t ∈ existing ∨ t ∈ additions → parseTagsField t = [t] := by
    intro t ht
    rcases ht with ht | ht
    · exact (hexisting t ht).tokens_eq
    · exact (hadditions t ht).tokens_eq
  rw [mem_parse_merge hdropped]
  constructor
  · rintro ⟨t, ht, he⟩
    rw [hclean t ht] at he
    rwa [List.mem_singleton.mp he]
  · intro he
    refine ⟨e, he, ?_⟩
    rw [hclean e he]
    exact List.mem_singleton_self e

/-- The name that `set_vm_metadata` accepts as a tag. -/
def acceptedName (L : Casing) (metadata : TextMap (Option Text)) : List Tag :=
  ((nameTag metadata).filter fun t => !hasCreateTimePrefix L t).toList

/-- What `set_vm_metadata` keeps, and the owner tag it may add. -/
theorem mem_preservedTags {s directorUUID : Text} {agrees : Bool} {e : Tag} :
    e ∈ preservedTags L s directorUUID agrees ↔
      (e ∈ parseTagsField s ∧ hasReservedBoshPrefix e = false) ∨
      (e = ownerTagBackfill L (parseTagsField s) directorUUID agrees ∧ e ≠ []) := by
  have hstrip : e ∈ hoistHeadTags L (stripReservedBoshTags (parseTagsField s)) ↔
      e ∈ parseTagsField s ∧ hasReservedBoshPrefix e = false := by
    rw [mem_hoistHeadTags, stripReservedBoshTags, List.mem_filter, Bool.not_eq_true']
  unfold preservedTags
  dsimp only
  split
  · rename_i hnone
    rw [List.isEmpty_iff.mp hnone, hstrip]
    constructor
    · exact .inl
    · rintro (h | ⟨rfl, hne⟩)
      · exact h
      · exact absurd rfl hne
  · rename_i hsome
    rw [withOwnerTag, mem_hoistHeadTags, List.mem_append, hstrip, List.mem_singleton]
    refine or_congr_right ⟨fun h => ⟨h, ?_⟩, And.left⟩
    rintro rfl
    exact hsome (List.isEmpty_iff.mpr h.symm)

/-- The other tags of the metadata have reserved keys. -/
theorem reserved_of_keyed {metadata : TextMap (Option Text)} {vmPrefix : Text} {e : Tag}
    (h : (∃ key ∈ metadataKeys, metadataTag metadata key = some e) ∨ prefixTag vmPrefix = some e) :
    hasReservedBoshPrefix e = true := by
  refine hasAnyPrefix_iff.mpr ?_
  rcases h with ⟨key, hkey, he⟩ | he
  · obtain ⟨v, -, rfl⟩ := metadataTag_eq he
    have hkeys : ∀ k ∈ metadataKeys,
        sanitizeTagValue k.toList ++ "--".toList ∈ reservedBoshTagPrefixes := by decide
    exact ⟨_, hkeys key hkey, List.prefix_append _ _⟩
  · rw [prefixTag_eq he]
    exact ⟨parkerPrefixTagPrefix, by decide, List.prefix_append _ _⟩

/-- Of the metadata only the name decides anything. -/
theorem idle_of_managed {metadata : TextMap (Option Text)} {vmPrefix : Text} {e : Tag}
    (he : e ∈ buildBoshManagedTags L metadata vmPrefix) :
    e ∈ acceptedName L metadata ∨ Idle q L e := by
  have hidle : ((∃ key ∈ metadataKeys, metadataTag metadata key = some e) ∨
      prefixTag vmPrefix = some e) → Idle q L e := fun h => idle_of_reserved (reserved_of_keyed h)
  rcases mem_buildBoshManagedTags.mp he with hkey | hname | hpre
  · exact .inr (hidle (.inl hkey))
  · refine .inl ?_
    rw [acceptedName, Option.mem_toList, Option.filter_eq_some_iff]
    exact ⟨hname.1, by simpa using hname.2⟩
  · exact .inr (hidle (.inr hpre))

/-- `set_vm_metadata` adds the name. -/
theorem setVMMetadata_adds {s : Text} {metadata : TextMap (Option Text)}
    {vmPrefix directorUUID : Text} {agrees : Bool}
    (hdropped : (setVMMetadataTags L s metadata vmPrefix directorUUID agrees).2 = []) :
    Adds q L s (setVMMetadataTags L s metadata vmPrefix directorUUID agrees).1
      (acceptedName L metadata) := by
  have hclean : ∀ e ∈ preservedTags L s directorUUID agrees, TagClean e := by
    intro e he
    rcases mem_preservedTags.mp he with ⟨he, -⟩ | ⟨rfl, hne⟩
    · exact clean_of_mem_parse he
    · obtain ⟨-, v, hv, hchars⟩ := ownerTagBackfill_eq hne
      rw [hv]
      exact ownerTag_clean hchars
  have hmem :
      ∀ e, e ∈ parseTagsField (setVMMetadataTags L s metadata vmPrefix directorUUID agrees).1
      ↔ e ∈ preservedTags L s directorUUID agrees ∨ e ∈ buildBoshManagedTags L metadata vmPrefix :=
    fun e => mem_parse_merge_clean hdropped hclean fun t ht => buildBoshManagedTags_clean ht
  have hkept : ∀ e ∈ parseTagsField s, ¬Idle q L e →
      e ∈ parseTagsField (setVMMetadataTags L s metadata vmPrefix directorUUID agrees).1 := by
    intro e he hdecides
    refine (hmem e).mpr (.inl (mem_preservedTags.mpr (.inl ⟨he, ?_⟩)))
    rw [Bool.eq_false_iff]
    exact fun hreserved => hdecides (idle_of_reserved hreserved)
  refine adds_of_entries ?_ ?_ ?_ ?_
  · intro e he
    rcases (hmem e).mp he with he | he
    · rcases mem_preservedTags.mp he with ⟨he, -⟩ | ⟨rfl, hne⟩
      · exact .inl he
      · obtain ⟨-, v, hv, -⟩ := ownerTagBackfill_eq hne
        rw [hv]
        exact .inr (.inr (idle_ownerTag v))
    · exact .inr (idle_of_managed he)
  · intro e he h
    exact hkept e he fun hidle => by rw [hidle.2] at h; cases h
  · intro e he h
    exact .inl (hkept e he fun hidle => by rw [hidle.1] at h; cases h)
  · intro e he
    refine (hmem e).mpr (.inr (mem_buildBoshManagedTags.mpr (.inr (.inl ?_))))
    rw [acceptedName, Option.mem_toList, Option.filter_eq_some_iff] at he
    exact ⟨he.1, by simpa using he.2⟩

/-- `set_disk_metadata` adds its tags. -/
theorem setDiskMetadata_adds {s : Text} {tags : TextMap Text} {written : Text × List Tag}
    (hwritten : applyCustomTags L s tags = some written) (hdropped : written.2 = []) :
    Adds q L s written.1 (buildCustomTags L (dropReservedDiskTags L tags)) := by
  unfold applyCustomTags at hwritten
  dsimp only at hwritten
  split at hwritten
  · cases hwritten
  · cases hwritten
    have hmem : ∀ e, e ∈ parseTagsField _ ↔ _ := fun e => mem_parse_merge_clean (e := e) hdropped
      (fun t ht => clean_of_mem_parse (List.mem_of_mem_filter (mem_hoistHeadTags.mp ht)))
      fun t ht => buildCustomTags_clean ht
    -- An entry is kept, or replaced by an entry with its key.
    have hold : ∀ e ∈ parseTagsField s,
        e ∈ unreplacedTags s (buildCustomTags L (dropReservedDiskTags L tags)) ∨
        ∃ entry ∈ buildCustomTags L (dropReservedDiskTags L tags), ∃ p,
          keyPrefix entry = some p ∧ p <+: e := by
      intro e he
      rw [unreplacedTags, List.mem_filter]
      by_cases hany : (((buildCustomTags L (dropReservedDiskTags L tags)).filterMap keyPrefix).any
          fun p => p.isPrefixOf e) = true
      · obtain ⟨p, hp, hpre⟩ := List.any_eq_true.mp hany
        obtain ⟨entry, hentry, hkey⟩ := List.mem_filterMap.mp hp
        exact .inr ⟨entry, hentry, p, hkey, List.isPrefixOf_iff_prefix.mp hpre⟩
      · rw [Bool.not_eq_true] at hany
        rw [hany]
        exact .inl ⟨he, rfl⟩
    refine adds_of_entries ?_ ?_ ?_ ?_
    · intro e he
      rcases (hmem e).mp he with he | he
      · exact .inl (List.mem_of_mem_filter (mem_hoistHeadTags.mp he))
      · exact .inr (.inl he)
    · intro e he h
      rcases hold e he with hkept | ⟨entry, -, p, hkey, hpre⟩
      · exact (hmem e).mpr (.inl (mem_hoistHeadTags.mpr hkept))
      · rw [wants_of_replaced hkey hpre] at h
        cases h
    · intro e he h
      rcases hold e he with hkept | ⟨entry, hentry, p, hkey, hpre⟩
      · exact .inl ((hmem e).mpr (.inl (mem_hoistHeadTags.mpr hkept)))
      · exact .inr ⟨entry, hentry, (custom_decides hentry).2.mpr (holds_of_replaced hkey hpre h)⟩
    · intro e he
      exact (hmem e).mpr (.inr he)

/-- When a longer list of entries fits, a shorter one does. -/
theorem merge_dropped_mono {existing additions existing' additions' : List Tag} {cap : Nat}
    (hcap : 0 < cap) (hsub : ∀ e, e ∈ existing ∨ e ∈ additions → e ∈ existing' ∨ e ∈ additions')
    (hdropped : (mergeTagListReporting existing' additions' cap).2 = []) :
    (mergeTagListReporting existing additions cap).2 = [] := by
  obtain ⟨kept, hkept, hmerged⟩ := merge_kept existing' additions' cap
  rw [hdropped] at hmerged
  have hparts : kept = distinct (existing' ++ additions') := by
    rw [← hmerged.parts, List.append_nil]
  have hsubperm : (distinct (existing ++ additions)).Subperm kept := by
    rw [hparts]
    refine List.subperm_of_subset (nodup_distinct _) fun e he => ?_
    rw [mem_distinct, List.mem_append] at he ⊢
    exact ⟨hsub e he.1, he.2⟩
  have hlen : byteLen (joinTags (distinct (existing ++ additions))) ≤ cap :=
    (length_joined_le hsubperm).trans (hmerged.length hcap)
  unfold mergeTagListReporting
  dsimp only
  rw [if_pos (.inr hlen)]

/-- The entries of the first tags of a VM: those without custom tags, and the custom tags. -/
theorem mem_initialTags {head provenance : List Tag} {custom : TextMap Text} {e : Tag}
    (hdropped : (initialTags L head provenance custom).2 = []) :
    e ∈ parseTagsField (initialTags L head provenance custom).1 ↔
      e ∈ parseTagsField (initialTags L head provenance ∅).1 ∨ e ∈ buildCustomTags L custom := by
  have hempty : buildCustomTags L ∅ = [] := rfl
  have hbase : (initialTags L head provenance ∅).2 = [] := by
    refine merge_dropped_mono (by decide) (fun t ht => ?_) hdropped
    rw [hempty, List.nil_append] at ht
    rcases ht with ht | ht
    · exact .inl ht
    · exact .inr (List.mem_append_right _ ht)
  unfold initialTags at hdropped hbase ⊢
  rw [mem_parse_merge hdropped, mem_parse_merge hbase, hempty, List.nil_append]
  constructor
  · rintro ⟨t, ht, he⟩
    rw [List.mem_append] at ht
    rcases ht with ht | ht | ht
    · exact .inl ⟨t, .inl ht, he⟩
    · have hone : parseTagsField t = [t] := (buildCustomTags_clean ht).tokens_eq
      rw [hone, List.mem_singleton] at he
      exact .inr (he ▸ ht)
    · exact .inl ⟨t, .inr ht, he⟩
  · rintro (⟨t, ht, he⟩ | he)
    · refine ⟨t, ?_, he⟩
      rcases ht with ht | ht
      · exact .inl ht
      · exact .inr (List.mem_append_right _ ht)
    · have hone : parseTagsField e = [e] := (buildCustomTags_clean he).tokens_eq
      refine ⟨e, .inr (List.mem_append_left _ he), ?_⟩
      rw [hone]
      exact List.mem_singleton_self e

theorem mem_birthEntries {tags : Text} {tag t : Tag} :
    let entries := hoistHeadTags L (withoutBirthTags (parseTagsField tags))
    t ∈ entries.takeWhile (isHead L) ++ [tag] ++ entries.dropWhile (isHead L) ↔
      (t ∈ parseTagsField tags ∧ isBirthTag t = false) ∨ t = tag := by
  intro entries
  have hentries : t ∈ entries ↔ t ∈ parseTagsField tags ∧ isBirthTag t = false := by
    rw [mem_hoistHeadTags, withoutBirthTags, List.mem_filter, Bool.not_eq_true']
  have hsplit : t ∈ entries ↔ t ∈ entries.takeWhile (isHead L) ∨
      t ∈ entries.dropWhile (isHead L) := by
    rw [← List.mem_append, List.takeWhile_append_dropWhile]
  rw [← hentries, hsplit, List.mem_append, List.mem_append, List.mem_singleton, or_right_comm]

/-- The entries of a field with a birth tag. -/
theorem mem_withBirthTag {tags : Text} {tag e : Tag} (hdropped : (withBirthTag L tags tag).2 = []) :
    e ∈ parseTagsField (withBirthTag L tags tag).1 ↔
      (e ∈ parseTagsField tags ∧ isBirthTag e = false) ∨ e ∈ parseTagsField tag := by
  unfold withBirthTag at hdropped ⊢
  dsimp only at hdropped ⊢
  rw [mem_parse_merge hdropped]
  constructor
  · rintro ⟨t, ht | ht, he⟩
    · rcases mem_birthEntries.mp ht with ⟨hmem, hbirth⟩ | rfl
      · have hone : parseTagsField t = [t] := (clean_of_mem_parse hmem).tokens_eq
        rw [hone, List.mem_singleton] at he
        exact .inl (he ▸ ⟨hmem, hbirth⟩)
      · exact .inr he
    · exact absurd ht List.not_mem_nil
  · rintro (⟨hmem, hbirth⟩ | he)
    · have hone : parseTagsField e = [e] := (clean_of_mem_parse hmem).tokens_eq
      refine ⟨e, .inl (mem_birthEntries.mpr (.inl ⟨hmem, hbirth⟩)), ?_⟩
      rw [hone]
      exact List.mem_singleton_self e
    · exact ⟨tag, .inl (mem_birthEntries.mpr (.inr rfl)), he⟩

theorem withBirthTag_dropped_mono {tags tags' : Text} {tag : Tag}
    (hsub : ∀ e ∈ parseTagsField tags, e ∈ parseTagsField tags')
    (hdropped : (withBirthTag L tags' tag).2 = []) : (withBirthTag L tags tag).2 = [] := by
  unfold withBirthTag at hdropped ⊢
  dsimp only at hdropped ⊢
  have hcap : 0 < maxTagLength := by decide
  refine merge_dropped_mono hcap (fun t ht => ?_) hdropped
  rcases ht with ht | ht
  · refine .inl (mem_birthEntries.mpr ?_)
    rcases mem_birthEntries.mp ht with ⟨hmem, hbirth⟩ | rfl
    · exact .inl ⟨hsub t hmem, hbirth⟩
    · exact .inr rfl
  · exact .inr ht

/-- A custom tag is no birth tag. -/
theorem custom_not_birth {custom : TextMap Text} {t : Tag} (ht : t ∈ buildCustomTags L custom) :
    isBirthTag t = false := by
  rw [Bool.eq_false_iff]
  intro hbirth
  obtain ⟨born, hborn⟩ := Option.isSome_iff_exists.mp hbirth
  obtain ⟨e, -, he, -⟩ := mem_buildCustomTags.mp ht
  obtain ⟨k, v, -, -, -, rfl⟩ := customEntry_eq he
  exact not_singleDashes (List.suffix_append k "--".toList) (List.prefix_append _ v)
    (singleDashes_birth hborn)

theorem adds_of_iff {s w : Text} {new : List Tag}
    (h : ∀ e, e ∈ parseTagsField w ↔ e ∈ parseTagsField s ∨ e ∈ new) : Adds q L s w new := by
  refine adds_of_entries ?_ ?_ ?_ ?_
  · intro e he
    rcases (h e).mp he with he | he
    · exact .inl he
    · exact .inr (.inl he)
  · exact fun e he _ => (h e).mpr (.inl he)
  · exact fun e he _ => .inl ((h e).mpr (.inl he))
  · exact fun e he => (h e).mpr (.inr he)

/-- `create_vm` adds its tags to what it would write without them. -/
theorem createVM_adds {head provenance : List Tag} {custom : TextMap Text} {birth : Option Int}
    (hdropped : (createVMTags L head provenance custom birth).2 = []) :
    Adds q L (createVMTags L head provenance ∅ birth).1
      (createVMTags L head provenance custom birth).1 (buildCustomTags L custom) := by
  refine adds_of_iff fun e => ?_
  cases birth with
  | none => exact mem_initialTags hdropped
  | some secs =>
    obtain ⟨hinitial, htagged⟩ := List.append_eq_nil_iff.mp hdropped
    have hbase : (withBirthTag L (initialTags L head provenance ∅).1 (birthTagFor secs)).2 = [] :=
      withBirthTag_dropped_mono (fun e he => (mem_initialTags hinitial).mpr (.inl he)) htagged
    dsimp only [createVMTags]
    rw [mem_withBirthTag htagged, mem_withBirthTag hbase, mem_initialTags hinitial]
    constructor
    · rintro (⟨he | he, hbirth⟩ | he)
      · exact .inl (.inl ⟨he, hbirth⟩)
      · exact .inr he
      · exact .inl (.inr he)
    · rintro ((⟨he, hbirth⟩ | he) | he)
      · exact .inl ⟨.inl he, hbirth⟩
      · exact .inr he
      · exact .inl ⟨.inr he, custom_not_birth he⟩

/-! ## 5. When a write leaves the queue alone -/

/-- No tag both keeps a VM out of the queue and puts it in. -/
theorem wants_of_holds {tag : Tag} (h : q.holds tag = true) : q.wants tag = false := by
  rw [Bool.eq_false_iff]
  intro hwants
  rcases holds_cases h with hreadd | rfl
  · rcases wants_cases hwants with rfl | ⟨born, hborn⟩
    · exact absurd hreadd (by decide)
    · obtain ⟨digits, hdigits, -⟩ := birthTagTime_eq hborn
      obtain ⟨rest, rfl⟩ := hreadd
      have htrim := trimList_prefix (p := isSpace) (c := 'b') (by decide)
        ("osh-ha-readd-".toList ++ rest)
      have hbirth : birthTagPrefix <+: haReaddTagPrefix ++ rest := by
        refine List.IsPrefix.trans (List.prefix_append birthTagPrefix digits) ?_
        rw [← hdigits]
        exact htrim
      rcases List.prefix_or_prefix_of_prefix hbirth (List.prefix_append _ rest) with hle | hle
      · exact absurd hle (by decide)
      · exact absurd hle (by decide)
  · rcases wants_cases hwants with heq | ⟨born, hborn⟩
    · exact absurd heq (by decide)
    · exact absurd hborn (by rw [show birthTagTime tagCreateFailed = none by decide]; simp)

theorem queued_eq_iff {s w : Text} {new : List Tag} (h : Adds q L s w new) :
    q.queued L w = q.queued L s ↔
      (q.queued L s = true → (new.any fun e => q.holds (L.toLower e)) = false) ∧
      (q.queued L s = false → q.held L s = false →
        (new.any fun e => q.holds (L.toLower e)) = true ∨
        (new.any fun e => q.wants (L.toLower e)) = false) := by
  have hw : q.queued L w = (!q.held L w && q.wanted L w) := DeferredTeardownQueue.queued_eq w
  have hs : q.queued L s = (!q.held L s && q.wanted L s) := DeferredTeardownQueue.queued_eq s
  rw [hw, hs, h.held, h.wanted]
  cases q.held L s <;> cases q.wanted L s <;>
    cases (new.any fun e => q.holds (L.toLower e)) <;>
    cases (new.any fun e => q.wants (L.toLower e)) <;> decide

/-- Custom tags leave the queue alone unless one of them takes a queued VM out. -/
theorem queued_custom_iff {s w : Text} {custom : TextMap Text}
    (h : Adds q L s w (buildCustomTags L custom)) :
    q.queued L w = q.queued L s ↔ ¬(q.queued L s = true ∧
      ∃ e ∈ buildCustomTags L custom, haReaddTagPrefix <+: L.toLower e) := by
  have hwants : ((buildCustomTags L custom).any fun e => q.wants (L.toLower e)) = false := by
    rw [Bool.eq_false_iff]
    intro hany
    obtain ⟨e, he, hw⟩ := List.any_eq_true.mp hany
    rw [(custom_decides he).1] at hw
    cases hw
  have hholds : ((buildCustomTags L custom).any fun e => q.holds (L.toLower e)) = false ↔
      ¬∃ e ∈ buildCustomTags L custom, haReaddTagPrefix <+: L.toLower e := by
    rw [Bool.eq_false_iff, Ne, List.any_eq_true]
    exact not_congr (exists_congr fun e => and_congr_right fun he => (custom_decides he).2)
  rw [queued_eq_iff h, hwants, hholds, not_and]
  exact ⟨And.left, fun hleft => ⟨hleft, fun _ _ => .inr rfl⟩⟩

/-- The name leaves the queue alone unless it is a tag of the queue. -/
theorem queued_name_iff {s w : Text} {metadata : TextMap (Option Text)}
    (h : Adds q L s w (acceptedName L metadata)) :
    q.queued L w = q.queued L s ↔ ∀ n, nameTag metadata = some n →
      hasCreateTimePrefix L n = false →
      (q.queued L s = true → q.holds (L.toLower n) = false) ∧
      (q.queued L s = false → q.held L s = false → q.wants (L.toLower n) = false) := by
  rw [queued_eq_iff h, acceptedName]
  cases hname : (nameTag metadata).filter fun t => !hasCreateTimePrefix L t with
  | none =>
    refine ⟨fun _ n hn hcreate => ?_, fun _ => ⟨fun _ => rfl, fun _ _ => .inr rfl⟩⟩
    rw [hn, Option.filter_some, hcreate] at hname
    cases hname
  | some n =>
    obtain ⟨hn, hcreate⟩ := Option.filter_eq_some_iff.mp hname
    rw [Bool.not_eq_true'] at hcreate
    simp only [Option.toList_some, List.any_cons, List.any_nil, Bool.or_false]
    constructor
    · rintro ⟨hqueued, hfree⟩ m hm -
      rw [hn] at hm
      cases hm
      refine ⟨hqueued, fun hs hheld => ?_⟩
      rcases hfree hs hheld with hholds | hwants
      · exact wants_of_holds hholds
      · exact hwants
    · intro hall
      exact ⟨(hall n hn hcreate).1, fun hs hheld => .inr ((hall n hn hcreate).2 hs hheld)⟩

/-- **The teardown queue.**  Let the cap drop nothing.  Then `set_vm_metadata` leaves the queue as
it is exactly when the name it accepts as a tag neither takes a queued VM out nor puts a VM in that
is not held; `set_disk_metadata` and `create_vm` do exactly when no custom tag with the prefix of a
re-registration takes a queued VM out.  Each writer adds its entries to what was there (`Adds`), and
of the entries that it adds only those named here decide anything. -/
theorem teardown_queue_iff (q : DeferredTeardownQueue) (L : Casing) :
    (∀ (s : Text) (metadata : TextMap (Option Text)) (vmPrefix directorUUID : Text) (agrees : Bool),
      (setVMMetadataTags L s metadata vmPrefix directorUUID agrees).2 = [] →
      (q.queued L (setVMMetadataTags L s metadata vmPrefix directorUUID agrees).1 = q.queued L s ↔
        ∀ n, nameTag metadata = some n → hasCreateTimePrefix L n = false →
          (q.queued L s = true → q.holds (L.toLower n) = false) ∧
          (q.queued L s = false → q.held L s = false → q.wants (L.toLower n) = false))) ∧
    (∀ (s : Text) (tags : TextMap Text) (written : Text × List Tag),
      applyCustomTags L s tags = some written → written.2 = [] →
      (q.queued L written.1 = q.queued L s ↔ ¬(q.queued L s = true ∧
        ∃ e ∈ buildCustomTags L (dropReservedDiskTags L tags), haReaddTagPrefix <+: L.toLower e))) ∧
    (∀ (head provenance : List Tag) (custom : TextMap Text) (birth : Option Int),
      (createVMTags L head provenance custom birth).2 = [] →
      (q.queued L (createVMTags L head provenance custom birth).1 =
          q.queued L (createVMTags L head provenance ∅ birth).1 ↔
        ¬(q.queued L (createVMTags L head provenance ∅ birth).1 = true ∧
          ∃ e ∈ buildCustomTags L custom, haReaddTagPrefix <+: L.toLower e))) := by
  refine ⟨?_, ?_, ?_⟩
  · intro s metadata vmPrefix directorUUID agrees hdropped
    exact queued_name_iff (setVMMetadata_adds hdropped)
  · intro s tags written hwritten hdropped
    exact queued_custom_iff (setDiskMetadata_adds hwritten hdropped)
  · intro head provenance custom birth hdropped
    exact queued_custom_iff (createVM_adds hdropped)

end Deciding

/-- A VM that is being deleted stays in the queue under an ordinary name. -/
theorem teardown_queue_sample :
    let q : DeferredTeardownQueue := ⟨0, 0, false⟩
    let s := "bosh-cpi;bosh-deleting".toList
    let named := setVMMetadataTags asciiCasing s
      (AList.insert "name".toList (some "router/1".toList) ∅) [] [] false
    named.2 = [] ∧ q.queued asciiCasing s = true ∧
      q.queued asciiCasing named.1 = q.queued asciiCasing s := by
  intro q s named
  have hdropped : named.2 = [] := by decide
  have hname : nameTag (AList.insert "name".toList (some "router/1".toList) ∅) =
      some "router--1".toList := by decide
  refine ⟨hdropped, by decide,
    ((teardown_queue_iff q asciiCasing).1 s _ [] [] false hdropped).mpr fun n hn _ => ?_⟩
  rw [hname] at hn
  cases hn
  exact ⟨fun _ => by decide, fun _ _ => by decide⟩

/-- A Director that names an instance `bosh-deleting` queues a live VM, and a disk tag with the key
`bosh-ha-readd` takes a VM out of the queue. -/
theorem queued_by_name :
    let q : DeferredTeardownQueue := ⟨0, 0, false⟩
    let named := setVMMetadataTags asciiCasing "bosh-cpi".toList
      (AList.insert "name".toList (some "bosh-deleting".toList) ∅) [] [] false
    (named.2 = [] ∧ q.queued asciiCasing "bosh-cpi".toList = false ∧
      q.queued asciiCasing named.1 = true) ∧
    ∃ written, applyCustomTags asciiCasing "bosh-cpi;bosh-deleting".toList
        (AList.insert "bosh-ha-readd".toList "x".toList ∅) = some written ∧ written.2 = [] ∧
      q.queued asciiCasing "bosh-cpi;bosh-deleting".toList = true ∧
      q.queued asciiCasing written.1 = false := by
  refine ⟨by decide, _, rfl, ?_⟩
  decide

end Vm
