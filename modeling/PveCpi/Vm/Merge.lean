/-
# What a tag write keeps and what it adds

The two facts that every property of the tag writers rests on:

* `merge_kept`: the entries in front of a merge survive the byte cap when they fit by themselves,
  and the text that is written reads back as the entries that were kept;
* the entries that come from the outside, the Director's metadata and the operator's tags, are
  clean, and never start like one of the tags in front (`buildBoshManagedTags_head`,
  `buildCustomTags_head`).

Writers do not trust the field they find, nor what they are given.  A tag of the Director's metadata
is made from a key and a sanitized value; a custom tag is an operator's text, lowered and filtered
by prefixes.  The filters compare prefixes, so the lemmas are about first letters: every ownership
tag starts with the same letter, and no tag with a metadata key does; the name of the instance,
which is a tag without a key, is filtered by itself.

`Merged` is what a merge does, with the kept and the dropped entries as separate lists.  Properties
of writers are then properties of membership in them.
-/
import PveCpi.Vm.Tags
import Mathlib

namespace Vm

open Lib.Text (isSpace trimList)
open Lib.Tokens

/-! ## 1. Clean entries

An entry that survives being written and read: no separator in it, no blank at its ends, not
empty. -/

/-- An entry that reads back as it was written. -/
abbrev TagClean (t : Tag) : Prop := Clean isTagSeparator isSpace t

theorem clean_of_mem_parse {s : Text} {t : Tag} (h : t ∈ parseTagsField s) : TagClean t :=
  clean_of_mem_tokens h

theorem isTagChar_separator {c : Char} (h : isTagChar c = true) : isTagSeparator c = false := by
  rw [Bool.eq_false_iff]
  intro hs
  rw [isTagSeparator, Bool.or_eq_true, beq_iff_eq, beq_iff_eq] at hs
  rcases hs with rfl | rfl
  · exact absurd h (by decide)
  · exact absurd h (by decide)

theorem isTagChar_ascii {c : Char} (h : isTagChar c = true) : c.toNat < 128 := by
  rw [isTagChar, Bool.or_eq_true, beq_iff_eq] at h
  rcases h with h | rfl
  · simp only [Char.isAlphanum, Char.isAlpha, Char.isUpper, Char.isLower, Char.isDigit,
      Bool.or_eq_true, Bool.and_eq_true, decide_eq_true_eq, ge_iff_le, UInt32.le_iff_toNat_le] at h
    have hz : c.toNat = c.val.toNat := rfl
    rw [hz]
    rcases h with (⟨-, h⟩ | ⟨-, h⟩) | ⟨-, h⟩
    · exact Nat.lt_of_le_of_lt h (by decide)
    · exact Nat.lt_of_le_of_lt h (by decide)
    · exact Nat.lt_of_le_of_lt h (by decide)
  · decide

theorem isTagChar_space {c : Char} (h : isTagChar c = true) : isSpace c = false := by
  have hall : ∀ n : Fin 128, isTagChar (Char.ofNat n) = true → isSpace (Char.ofNat n) = false := by
    decide
  have hc := hall ⟨c.toNat, isTagChar_ascii h⟩
  rw [Char.ofNat_toNat] at hc
  exact hc h

theorem trimList_eq_self {α : Type} {p : α → Bool} {l : List α} (h : ∀ c ∈ l, p c = false) :
    trimList p l = l := by
  have hdrop : ∀ m : List α, (∀ c ∈ m, p c = false) → m.dropWhile p = m := by
    intro m hm
    cases m with
    | nil => rfl
    | cons x xs =>
      have hx : ¬p x = true := Bool.eq_false_iff.mp (hm x List.mem_cons_self)
      rw [List.dropWhile_cons_of_neg hx]
  rw [trimList, hdrop l h, hdrop l.reverse fun c hc => h c (List.mem_reverse.mp hc),
    List.reverse_reverse]

/-- A text of tag characters is an entry. -/
theorem clean_of_chars {t : Tag} (hne : t ≠ []) (h : ∀ c ∈ t, isTagChar c = true) : TagClean t :=
  ⟨hne, fun c hc => isTagChar_separator (h c hc),
    trimList_eq_self fun c hc => isTagChar_space (h c hc)⟩

theorem sanitizeTagValue_chars {s : Text} : ∀ c ∈ sanitizeTagValue s, isTagChar c = true := by
  intro c hc
  obtain ⟨x, -, hx⟩ := List.mem_flatMap.mp ((trimList_sublist _ _).subset hc)
  split at hx
  · rename_i hkeep
    rwa [List.mem_singleton.mp hx]
  · rw [List.eq_of_mem_replicate hx]
    rfl

/-! ## 2. Merging -/

/-- The entries that a merge writes, and those it drops. -/
structure Merged (existing additions : List Tag) (cap : Nat) (kept dropped : List Tag) : Prop where
  parts : kept ++ dropped = distinct (existing ++ additions)
  length : 0 < cap → byteLen (joinTags kept) ≤ cap
  front : ∀ front rest, existing = front ++ rest → byteLen (joinTags front) ≤ cap →
    ∀ e ∈ front, e ≠ [] → e ∈ kept

/-- **What a merge keeps.**  The merge puts the existing entries first and drops from the end, so
the entries in front are a prefix of what is kept as long as they fit
(`Lib.Tokens.prefix_fitting`). -/
theorem merge_kept (existing additions : List Tag) (cap : Nat) : ∃ kept,
    (mergeTagListReporting existing additions cap).1 = joinTags kept ∧
    Merged existing additions cap kept (mergeTagListReporting existing additions cap).2 := by
  unfold mergeTagListReporting
  dsimp only
  split
  · rename_i hfit
    refine ⟨_, rfl, List.append_nil _, fun hcap => hfit.resolve_left (by omega), ?_⟩
    intro front rest hex _ e he hne
    rw [mem_distinct, hex]
    exact ⟨List.mem_append_left _ (List.mem_append_left _ he), hne⟩
  · refine ⟨_, rfl, fitting_append [] _, fun _ => length_fitting [] _ ?_, ?_⟩
    · simp [joined, Lib.Tokens.length]
    · intro front rest hex hlen e he hne
      obtain ⟨tail, htail⟩ := distinct_append front (rest ++ additions)
      have hsub : (distinct front).Subperm front :=
        List.subperm_of_subset (nodup_distinct front) fun x hx => (mem_distinct.mp hx).1
      have hpre : distinct front <+: (fitting Char.utf8Size ';' cap []
          (distinct front ++ tail)).1 :=
        prefix_fitting ((length_joined_le hsub).trans hlen)
      rw [htail, ← List.append_assoc, ← hex] at hpre
      exact hpre.subset (mem_distinct.mpr ⟨he, hne⟩)

theorem parse_joinTags {tags : List Tag} (h : ∀ t ∈ tags, TagClean t) :
    parseTagsField (joinTags tags) = tags := tokens_joined rfl h

namespace Merged

variable {existing additions : List Tag} {cap : Nat} {kept dropped : List Tag}

theorem mem_of_kept (h : Merged existing additions cap kept dropped) {e : Tag} (he : e ∈ kept) :
    (e ∈ existing ∨ e ∈ additions) ∧ e ≠ [] := by
  have hmem : e ∈ kept ++ dropped := List.mem_append_left _ he
  rw [h.parts, mem_distinct, List.mem_append] at hmem
  exact hmem

theorem kept_of_mem (h : Merged existing additions cap kept []) {e : Tag}
    (he : e ∈ existing ∨ e ∈ additions) (hne : e ≠ []) : e ∈ kept := by
  have hmem : e ∈ distinct (existing ++ additions) := by
    rw [mem_distinct, List.mem_append]
    exact ⟨he, hne⟩
  rwa [← h.parts, List.append_nil] at hmem

/-- The text that is written reads back. -/
theorem parse (h : Merged existing additions cap kept dropped) (hex : ∀ t ∈ existing, TagClean t)
    (hadd : ∀ t ∈ additions, TagClean t) : parseTagsField (joinTags kept) = kept := by
  refine parse_joinTags fun t ht => ?_
  rcases (h.mem_of_kept ht).1 with ht | ht
  · exact hex t ht
  · exact hadd t ht

end Merged


/-! ## 3. Entries from the outside

One lemma for each source of entries: what they look like, that they are clean, and that they do not
start like a tag of ownership. -/

section Outside

variable {L : Casing}

theorem toLower_append (s t : Text) : L.toLower (s ++ t) = L.toLower s ++ L.toLower t :=
  List.map_append

theorem toLower_eq_self {s : Text} (h : ∀ c ∈ s, c.toNat < 128 ∧ c.toLower = c) :
    L.toLower s = s := by
  have hmap : s.map L.lower = s.map id :=
    List.map_congr_left fun c hc => (L.lower_ascii c (h c hc).1).trans (h c hc).2
  rw [Casing.toLower, hmap, List.map_id]

theorem hasAnyPrefix_iff {prefixes : List Tag} {entry : Tag} :
    hasAnyPrefix prefixes entry = true ↔ ∃ p ∈ prefixes, p <+: entry := by
  simp [hasAnyPrefix]

/-- The first letter decides: no prefix starts with another one. -/
theorem hasAnyPrefix_first {prefixes : List Tag} {c : Char} {rest : Tag} (hc : c.toNat < 128)
    (hp : ∀ p ∈ prefixes, ∃ d q, p = d :: q ∧ c.toLower ≠ d) :
    hasAnyPrefix prefixes (L.toLower (c :: rest)) = false := by
  rw [Bool.eq_false_iff]
  intro h
  obtain ⟨p, hmem, hpre⟩ := hasAnyPrefix_iff.mp h
  obtain ⟨d, q, rfl, hne⟩ := hp p hmem
  rw [Casing.toLower, List.map_cons, List.cons_prefix_cons, L.lower_ascii c hc] at hpre
  exact hne hpre.1.symm

theorem head_of_createTime {entry : Tag} (h : hasHeadTagPrefix L entry = true) :
    hasCreateTimePrefix L entry = true := by
  obtain ⟨p, hmem, hpre⟩ := hasAnyPrefix_iff.mp h
  refine hasAnyPrefix_iff.mpr ⟨p, ?_, hpre⟩
  simp only [headTagPrefixes, List.mem_cons, List.not_mem_nil, or_false] at hmem
  simp only [createTimeTagPrefixes, List.mem_cons, List.not_mem_nil, or_false]
  rcases hmem with rfl | rfl | rfl
  · exact .inr (.inl rfl)
  · exact .inr (.inr (.inl rfl))
  · exact .inr (.inr (.inr (.inl rfl)))

theorem dashed_chars {key value : Text} (hk : ∀ c ∈ key, isTagChar c = true)
    (hv : ∀ c ∈ value, isTagChar c = true) :
    ∀ c ∈ key ++ "--".toList ++ value, isTagChar c = true := by
  intro c hc
  rcases List.mem_append.mp hc with hc | hc
  · rcases List.mem_append.mp hc with hc | hc
    · exact hk c hc
    · have hdash : ∀ d ∈ "--".toList, isTagChar d = true := Lib.Text.forall_of_all (by decide)
      exact hdash c hc
  · exact hv c hc

/-- The keys of the metadata that become tags. -/
def metadataKeys : List String := ["director", "deployment", "instance_group", "job", "index"]

theorem metadataTag_eq {metadata : TextMap (Option Text)} {key : String} {t : Tag}
    (h : metadataTag metadata key = some t) :
    ∃ v, sanitizeTagValue v ≠ [] ∧
      t = sanitizeTagValue key.toList ++ "--".toList ++ sanitizeTagValue v := by
  obtain ⟨v, -, hv⟩ := Option.bind_eq_some_iff.mp h
  dsimp only at hv
  split at hv
  · cases hv
  · rename_i hne
    exact ⟨v, by simpa using hne, (Option.some.inj hv).symm⟩

theorem nameTag_eq {metadata : TextMap (Option Text)} {t : Tag} (h : nameTag metadata = some t) :
    ∃ v, t = sanitizeTagValue v ∧ t ≠ [] := by
  obtain ⟨v, -, hv⟩ := Option.bind_eq_some_iff.mp h
  dsimp only at hv
  split at hv
  · cases hv
  · rename_i hne
    cases hv
    exact ⟨_, rfl, by simpa using hne⟩

theorem prefixTag_eq {vmPrefix : Text} {t : Tag} (h : prefixTag vmPrefix = some t) :
    t = parkerPrefixTagPrefix ++ sanitizeTagValue vmPrefix := by
  unfold prefixTag at h
  dsimp only at h
  split at h
  · cases h
  · exact (Option.some.inj h).symm

/-- What an entry of the metadata is: a key with a value, the name, or the prefix. -/
theorem mem_buildBoshManagedTags {metadata : TextMap (Option Text)} {vmPrefix : Text} {t : Tag} :
    t ∈ buildBoshManagedTags L metadata vmPrefix ↔
      (∃ key ∈ metadataKeys, metadataTag metadata key = some t) ∨
      (nameTag metadata = some t ∧ hasCreateTimePrefix L t = false) ∨
      prefixTag vmPrefix = some t := by
  rw [buildBoshManagedTags, List.mem_append, List.mem_append, List.mem_filterMap, or_assoc,
    Option.mem_toList, Option.mem_toList]
  simp [metadataKeys, Option.filter_eq_some_iff]

/-- A tag with one of the metadata keys, or the prefix tag, starts with none of the prefixes that
begin with the letter `b`. -/
theorem not_prefix_of_keyed {prefixes : List Tag} {metadata : TextMap (Option Text)}
    {vmPrefix : Text} {t : Tag} (hp : ∀ p ∈ prefixes, ∃ q, p = 'b' :: q)
    (h : (∃ key ∈ metadataKeys, metadataTag metadata key = some t) ∨ prefixTag vmPrefix = some t) :
    hasAnyPrefix prefixes (L.toLower t) = false := by
  rcases h with ⟨key, hkey, ht⟩ | ht
  · obtain ⟨v, -, rfl⟩ := metadataTag_eq ht
    have hfirst : ∀ k ∈ metadataKeys, ∃ c rest, sanitizeTagValue k.toList = c :: rest ∧
        c.toNat < 128 ∧ c.toLower ≠ 'b' := by
      simp only [metadataKeys, List.forall_mem_cons, List.not_mem_nil, false_implies, implies_true,
        and_true]
      refine ⟨⟨'d', "irector".toList, ?_⟩, ⟨'d', "eployment".toList, ?_⟩,
        ⟨'i', "nstance-group".toList, ?_⟩, ⟨'j', "ob".toList, ?_⟩, ⟨'i', "ndex".toList, ?_⟩⟩ <;>
      decide
    obtain ⟨c, rest, hc, hascii, hne⟩ := hfirst key hkey
    rw [hc, List.cons_append, List.cons_append]
    refine hasAnyPrefix_first hascii fun p hmem => ?_
    obtain ⟨q, rfl⟩ := hp p hmem
    exact ⟨'b', q, rfl, hne⟩
  · rw [prefixTag_eq ht]
    refine hasAnyPrefix_first (c := 'v') (by decide) fun p hmem => ?_
    obtain ⟨q, rfl⟩ := hp p hmem
    exact ⟨'b', q, rfl, by decide⟩

theorem headTagPrefixes_first : ∀ p ∈ headTagPrefixes, ∃ q, p = 'b' :: q := by
  simp only [headTagPrefixes, List.forall_mem_cons, List.not_mem_nil, false_implies, implies_true,
    and_true]
  exact ⟨⟨_, rfl⟩, ⟨_, rfl⟩, ⟨_, rfl⟩⟩

/-- **No entry of the metadata starts like an ownership tag.** -/
theorem buildBoshManagedTags_head {metadata : TextMap (Option Text)} {vmPrefix : Text} {t : Tag}
    (h : t ∈ buildBoshManagedTags L metadata vmPrefix) : hasHeadTagPrefix L t = false := by
  rcases mem_buildBoshManagedTags.mp h with hkey | ⟨-, hname⟩ | hpre
  · have hkeyed : (∃ key ∈ metadataKeys, metadataTag metadata key = some t) ∨
        prefixTag vmPrefix = some t := .inl hkey
    exact not_prefix_of_keyed headTagPrefixes_first hkeyed
  · rw [Bool.eq_false_iff]
    intro hhead
    rw [head_of_createTime hhead] at hname
    cases hname
  · have hkeyed : (∃ key ∈ metadataKeys, metadataTag metadata key = some t) ∨
        prefixTag vmPrefix = some t := .inr hpre
    exact not_prefix_of_keyed headTagPrefixes_first hkeyed

/-- The tags of the metadata are clean: keys and values are sanitized and joined by dashes. -/
theorem buildBoshManagedTags_clean {metadata : TextMap (Option Text)} {vmPrefix : Text} {t : Tag}
    (h : t ∈ buildBoshManagedTags L metadata vmPrefix) : TagClean t := by
  rcases mem_buildBoshManagedTags.mp h with ⟨key, -, hkey⟩ | ⟨hname, -⟩ | hpre
  · obtain ⟨v, hv, rfl⟩ := metadataTag_eq hkey
    refine clean_of_chars ?_ (dashed_chars sanitizeTagValue_chars sanitizeTagValue_chars)
    exact fun hnil => hv (List.append_eq_nil_iff.mp hnil).2
  · obtain ⟨v, rfl, hne⟩ := nameTag_eq hname
    exact clean_of_chars hne sanitizeTagValue_chars
  · rw [prefixTag_eq hpre]
    refine clean_of_chars (fun hnil => ?_) fun c hc => ?_
    · exact absurd (List.append_eq_nil_iff.mp hnil).1 (by decide)
    · rcases List.mem_append.mp hc with hc | hc
      · have hall : ∀ d ∈ parkerPrefixTagPrefix, isTagChar d = true :=
          Lib.Text.forall_of_all (by decide)
        exact hall c hc
      · exact sanitizeTagValue_chars c hc

theorem customEntry_eq {key value : Text} {t : Tag} (h : customEntry key value = some t) :
    ∃ k v, (∀ c ∈ k, isTagChar c = true) ∧ (∀ c ∈ v, isTagChar c = true) ∧ v ≠ [] ∧
      t = k ++ "--".toList ++ v := by
  unfold customEntry at h
  dsimp only at h
  split at h
  · cases h
  · rename_i hne
    cases h
    refine ⟨_, _, sanitizeTagValue_chars, sanitizeTagValue_chars (s := value), ?_, rfl⟩
    simp only [Bool.or_eq_true, List.isEmpty_iff, not_or] at hne
    exact hne.2

theorem mem_buildCustomTags {custom : TextMap Text} {t : Tag} :
    t ∈ buildCustomTags L custom ↔ ∃ e ∈ custom.entries, customEntry e.1 e.2 = some t ∧
      hasCPIOwnedPrefix L t = false := by
  rw [buildCustomTags, List.mem_filterMap]
  simp only [List.mem_insertionSort, Option.filter_eq_some_iff, Bool.not_eq_true']

theorem buildCustomTags_clean {custom : TextMap Text} {t : Tag}
    (h : t ∈ buildCustomTags L custom) : TagClean t := by
  obtain ⟨e, -, he, -⟩ := mem_buildCustomTags.mp h
  obtain ⟨k, v, hk, hv, hne, rfl⟩ := customEntry_eq he
  refine clean_of_chars ?_ (dashed_chars hk hv)
  exact fun hnil => hne (List.append_eq_nil_iff.mp hnil).2

/-- **No custom tag starts like an ownership tag.** -/
theorem buildCustomTags_head {custom : TextMap Text} {t : Tag}
    (h : t ∈ buildCustomTags L custom) : hasHeadTagPrefix L t = false := by
  obtain ⟨e, -, -, howned⟩ := mem_buildCustomTags.mp h
  rw [Bool.eq_false_iff]
  intro hhead
  rw [hasCPIOwnedPrefix, head_of_createTime hhead] at howned
  simp at howned

/-! ## 4. Keys that a custom tag replaces

A custom tag `k--v` takes the place of the entries that start with `k--`.  The prefix ends in two
dashes and no prefix of the CPI has them inside, so a replaced entry starts like the replacing
one. -/

/-- Cutting at a separator takes the text apart without losing anything. -/
theorem cutList_eq {α : Type} [BEq α] [LawfulBEq α] {sep s a b : List α}
    (h : Lib.Text.cutList sep s = some (a, b)) : s = a ++ sep ++ b := by
  induction s generalizing a with
  | nil =>
    rw [Lib.Text.cutList] at h
    split at h
    · rename_i hsep
      cases h
      rw [List.isEmpty_iff.mp hsep]
      rfl
    · cases h
  | cons c cs ih =>
    rw [Lib.Text.cutList] at h
    split at h
    · rename_i hpre
      cases h
      obtain ⟨rest, hrest⟩ := List.isPrefixOf_iff_prefix.mp hpre
      rw [← hrest, List.drop_left, List.nil_append]
    · obtain ⟨r, hr, heq⟩ := Option.map_eq_some_iff.mp h
      cases heq
      rw [ih hr]
      rfl

/-- The prefix that an entry replaces is its own, and ends in two dashes. -/
theorem keyPrefix_eq {entry p : Tag} (h : keyPrefix entry = some p) :
    p <+: entry ∧ "--".toList <:+ p := by
  unfold keyPrefix at h
  split at h
  · cases h
  · rename_i key after hcut
    split at h
    · cases h
    · cases h
      refine ⟨⟨after, (cutList_eq hcut).symm⟩, List.suffix_append _ _⟩

/-- A text in which two dashes come only at the end, if at all. -/
def DashesLast (q : Tag) : Prop := ∀ n < q.length, ¬"--".toList <:+ q.take n

instance (q : Tag) : Decidable (DashesLast q) :=
  inferInstanceAs (Decidable (∀ n < q.length, ¬"--".toList <:+ q.take n))

theorem toLower_dashes {p : Tag} (h : "--".toList <:+ p) : "--".toList <:+ L.toLower p := by
  obtain ⟨q, rfl⟩ := h
  rw [toLower_append, toLower_eq_self (s := "--".toList) (Lib.Text.forall_of_all (by decide))]
  exact List.suffix_append _ _

/-- **A replaced entry starts like the entry that replaces it**, as far as such a text goes. -/
theorem prefix_of_replaced {q p x entry : Tag} (hq : DashesLast q)
    (hp : keyPrefix entry = some p) (hx : p <+: x) (hqx : q <+: L.toLower x) :
    q <+: L.toLower entry := by
  obtain ⟨hpe, hdash⟩ := keyPrefix_eq hp
  have hlower : L.toLower p <+: L.toLower x := hx.map L.lower
  rcases Nat.lt_or_ge (L.toLower p).length q.length with hlt | hge
  · -- The replaced prefix would end in two dashes inside the text.
    have htake : L.toLower p = q.take (L.toLower p).length :=
      List.prefix_iff_eq_take.mp (List.prefix_of_prefix_length_le hlower hqx hlt.le)
    exact absurd (htake ▸ toLower_dashes hdash) (hq _ hlt)
  · exact (List.prefix_of_prefix_length_le hqx hlower hge).trans (hpe.map L.lower)

end Outside

end Vm
