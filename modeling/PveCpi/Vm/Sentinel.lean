/-
# The sentinel in a description

`pve/sentinel.go`: the records that the CPI keeps in a VM's description stand in one JSON object
between `<!--BOSH:` and `-->`, behind whatever text people wrote.  Every writer reads the text and
the object (`parseSentinel`), changes members of its own, and writes both back (`renderSentinel`).

* `valueOf_render`: what was written behind a text without a sentinel is read back, every value
  saying what it said;
* `found_render`, `found_render_imp`: what a written sentinel does to the allocation marker in the
  text before it.

The value of a member is kept as its JSON tree: nothing looks at the white space of its text.

## Why the pattern matters

The sentinel is found by a regular expression that stops at the first `-->` on the line, and the
text around it is free.  Three things have to be excluded: that the encoded object ends the match
too early, that the text in front has a match of its own, and that a marker is found across the
border.  The first cannot happen because the encoder escapes `>` and `<`; the second is a condition
of every statement, and the text that `parseSentinel` returns meets it (`findSentinel_text`); the
third is §7.

The two parts of a description do not share a letter at their border: a line break stands between
them, and neither the pattern nor the lines of a marker contain one (`findSentinel_newline`).
-/
import PveCpi.Vm.Marker
import PveCpi.Stemcell.Provenance

namespace Vm

open Lib.Json (Value Elems Members parse print quote unquote escapeHtml)
open Lib.Text (isSpace trimList)
open Lib.Occurs
open Stemcell (putAll sortedMembers mem_sortedMembers nodup_sortedMembers lookup_putAll_of_mem
  lookup_putAll_empty)

/-! ## 1. Finding the sentinel -/

def sentinelOpen : Text := "<!--BOSH:".toList
def sentinelClose : Text := "-->".toList

/-- The rest of the pattern behind `<!--BOSH:`, which does not cross the end of a line: what it
captures, and what follows. -/
def captureSentinel : Text → Option (Text × Text)
  | [] => none
  | c :: cs =>
    if sentinelClose.isPrefixOf (c :: cs) then some ([], (c :: cs).drop sentinelClose.length)
    else if c = '\n' then none
    else (captureSentinel cs).map fun r => (c :: r.1, r.2)

/-- `sentinelPattern.FindStringSubmatchIndex`: the text before the first match, what the match
captures, and the text behind it. -/
def findSentinel : Text → Option (Text × Text × Text)
  | [] => none
  | c :: cs =>
    match if sentinelOpen.isPrefixOf (c :: cs) then
        captureSentinel ((c :: cs).drop sentinelOpen.length) else none with
    | some r => some ([], r)
    | none => (findSentinel cs).map fun r => (c :: r.1, r.2)

/-- The members of an object in the order written. -/
def membersList : Members → List (Text × Value)
  | .nil => []
  | .cons k v ms => (k, v) :: membersList ms

def listMembers : List (Text × Value) → Members
  | [] => .nil
  | (k, v) :: ms => .cons k v (listMembers ms)

/-- The top-level keys of a sentinel with their values. -/
abbrev Raw := TextMap Value

/-- `json.Unmarshal` into the key map; `null` makes it nil. -/
def decodeRaw (jsonStr : Text) : Option Raw :=
  match parse jsonStr with
  | some .null => none
  | some (.obj ms) => some (putAll ∅ ((membersList ms).map fun e => (unquote e.1, e.2)))
  | _ => some ∅

/-- `ParseSentinel`. -/
def parseSentinel (desc : Text) : Text × Option Raw :=
  match findSentinel desc with
  | none => (desc, some ∅)
  | some (before, jsonStr, _) => (trimList isSpace before, decodeRaw jsonStr)

/-! ## 2. Writing it -/

/-- What `json.Marshal` writes for the key map: sorted keys, and every value compacted. -/
def sentinelValue (raw : Raw) : Value :=
  .obj (listMembers ((sortedMembers raw).map fun e => (quote e.1, e.2.mapStr escapeHtml)))

/-- The sentinel itself. -/
def sentinelText (raw : Raw) : Text := sentinelOpen ++ (print (sentinelValue raw) ++ sentinelClose)

/-- `RenderSentinel`.  The encoder counts the object around the values, so it fails when a value is
nested as deep as the limit. -/
def renderSentinel (nonBOSH : Text) (raw : Raw) : Option Text :=
  if raw.entries.isEmpty then some nonBOSH
  else if raw.entries.any fun e => Lib.Json.maxDepth ≤ e.2.depth then none
  else if nonBOSH.isEmpty then some (sentinelText raw)
  else some (nonBOSH ++ '\n' :: sentinelText raw)

/-- The value a description has under a key. -/
def valueOf (desc : Text) (key : Text) : Option Value := (parseSentinel desc).2.bind (·.lookup key)

/-! ## 3. The pattern

`findSentinel` is the leftmost match.  What is added behind a match leaves it, what is added in
front of a text without a match can only make an earlier one. -/

/-- A sentinel ends on its line, so what stands on later lines is left behind it. -/
theorem captureSentinel_newline (t x : Text) :
    captureSentinel (t ++ '\n' :: x) = (captureSentinel t).map fun r =>
    (r.1, r.2 ++ '\n' :: x) := by
  induction t with
  | nil => rfl
  | cons c t ih =>
    have hsame : sentinelClose.isPrefixOf (c :: t ++ '\n' :: x) = sentinelClose.isPrefixOf
        (c :: t) := by
      rw [Bool.eq_iff_iff, List.isPrefixOf_iff_prefix, List.isPrefixOf_iff_prefix]
      exact prefix_append_cons (by decide)
    rw [List.cons_append] at hsame
    rw [List.cons_append, captureSentinel, captureSentinel, hsame]
    split
    · rename_i hpre
      have hlen := (List.isPrefixOf_iff_prefix.mp hpre).length_le
      rw [← List.cons_append, List.drop_append_of_le_length hlen]
      rfl
    · split
      · rfl
      · rw [ih, Option.map_map, Option.map_map]
        rfl

/-- **A line break separates what the pattern can match.**  The pattern has no line break, so a
match lies on one side. -/
theorem findSentinel_newline (t x : Text) :
    findSentinel (t ++ '\n' :: x) =
      match findSentinel t with
      | some (before, jsonStr, rest) => some (before, jsonStr, rest ++ '\n' :: x)
      | none => (findSentinel x).map fun r => (t ++ '\n' :: r.1, r.2) := by
  induction t with
  | nil => rfl
  | cons c t ih =>
    have hsame : sentinelOpen.isPrefixOf (c :: t ++ '\n' :: x) = sentinelOpen.isPrefixOf
        (c :: t) := by
      rw [Bool.eq_iff_iff, List.isPrefixOf_iff_prefix, List.isPrefixOf_iff_prefix]
      exact prefix_append_cons (by decide)
    rw [List.cons_append] at hsame
    rw [List.cons_append, findSentinel, findSentinel, hsame]
    by_cases hpre : sentinelOpen.isPrefixOf (c :: t) = true
    · have hlen := (List.isPrefixOf_iff_prefix.mp hpre).length_le
      rw [if_pos hpre, if_pos hpre, ← List.cons_append, List.drop_append_of_le_length hlen,
        captureSentinel_newline]
      cases captureSentinel ((c :: t).drop sentinelOpen.length) with
      | some r => rfl
      | none =>
        simp only [Option.map_none]
        rw [ih]
        cases findSentinel t with
        | some r => rfl
        | none => simp only [Option.map_none, Option.map_map]; rfl
    · rw [if_neg hpre, if_neg hpre]
      dsimp only
      rw [ih]
      cases findSentinel t with
      | some r => rfl
      | none => simp only [Option.map_none, Option.map_map]; rfl

theorem findSentinel_eq_none {t : Text} (h : ¬sentinelOpen <:+: t) : findSentinel t = none := by
  induction t with
  | nil => rfl
  | cons c t ih =>
    rw [List.infix_cons_iff, not_or] at h
    rw [findSentinel, if_neg (mt List.isPrefixOf_iff_prefix.mp h.1)]
    dsimp only
    rw [ih h.2]
    rfl

/-- What is captured is followed by the closing sign. -/
theorem captureSentinel_spec {t j rest : Text} (h : captureSentinel t = some (j, rest)) :
    t = j ++ (sentinelClose ++ rest) := by
  induction t generalizing j with
  | nil => cases h
  | cons c t ih =>
    rw [captureSentinel] at h
    split at h
    · rename_i hpre
      obtain ⟨r, hr⟩ := List.isPrefixOf_iff_prefix.mp hpre
      cases h
      rw [← hr, List.drop_left, List.nil_append]
    · split at h
      · cases h
      · obtain ⟨⟨j', rest'⟩, hcap, heq⟩ := Option.map_eq_some_iff.mp h
        cases heq
        rw [ih hcap]
        rfl

/-- The parts that are found are the text: before, opening, payload, closing, behind. -/
theorem findSentinel_spec {t before j rest : Text} (h : findSentinel t = some (before, j, rest)) :
    t = before ++ (sentinelOpen ++ (j ++ (sentinelClose ++ rest))) := by
  induction t generalizing before with
  | nil => cases h
  | cons c t ih =>
    rw [findSentinel] at h
    split at h
    · rename_i r hcap
      cases h
      split at hcap
      · rename_i hpre
        obtain ⟨r, hr⟩ := List.isPrefixOf_iff_prefix.mp hpre
        rw [← hr, List.drop_left] at hcap
        rw [← hr, captureSentinel_spec hcap, List.nil_append]
      · cases hcap
    · obtain ⟨⟨b', j', rest'⟩, hfind, heq⟩ := Option.map_eq_some_iff.mp h
      cases heq
      rw [ih hfind]
      rfl

/-- A payload without the closing character and without line breaks is captured as a whole. -/
theorem captureSentinel_append {j : Text} (hgt : '>' ∉ j) (hnl : '\n' ∉ j) (rest : Text) :
    captureSentinel (j ++ (sentinelClose ++ rest)) = some (j, rest) := by
  induction j with
  | nil => rfl
  | cons c j ih =>
    rw [List.mem_cons, not_or] at hgt hnl
    -- The pattern ends with `>`, and the third letter from here on is none.
    have hpre : ¬sentinelClose.isPrefixOf (c :: (j ++ (sentinelClose ++ rest))) = true := by
      rw [List.isPrefixOf_iff_prefix]
      rintro ⟨r, hr⟩
      have hthree : '>' :: r = (c :: (j ++ (sentinelClose ++ rest))).drop 2 := by rw [← hr]; rfl
      rcases j with _ | ⟨d, _ | ⟨e, j⟩⟩
      · exact absurd (List.cons.inj hthree).1 (by decide)
      · exact absurd (List.cons.inj hthree).1 (by decide)
      · have hgt' := hgt.2
        rw [(List.cons.inj hthree).1] at hgt'
        exact hgt' (by simp)
    rw [List.cons_append, captureSentinel, if_neg hpre, if_neg (Ne.symm hnl.1), ih hgt.2 hnl.2]
    rfl

theorem isPrefixOf_append {p t : Text} (h : p.isPrefixOf t = true) (x : Text) :
    p.isPrefixOf (t ++ x) = true :=
  List.isPrefixOf_iff_prefix.mpr ((List.isPrefixOf_iff_prefix.mp h).trans (List.prefix_append t x))

/-- More text behind does not change what is captured. -/
theorem captureSentinel_more {t j rest : Text} (h : captureSentinel t = some (j, rest)) (x : Text) :
    captureSentinel (t ++ x) = some (j, rest ++ x) := by
  induction t generalizing j with
  | nil => cases h
  | cons c t ih =>
    rw [captureSentinel] at h
    rw [List.cons_append, captureSentinel]
    split at h
    · rename_i hpre
      cases h
      have hlen := (List.isPrefixOf_iff_prefix.mp hpre).length_le
      have hmore := isPrefixOf_append hpre x
      rw [List.cons_append] at hmore
      rw [if_pos hmore, ← List.cons_append, List.drop_append_of_le_length hlen]
    · rename_i hpre
      split at h
      · cases h
      · rename_i hnl
        obtain ⟨⟨j', rest'⟩, hcap, heq⟩ := Option.map_eq_some_iff.mp h
        cases heq
        -- What is captured ends with the closing mark, so the text is long enough to show it.
        have hlen : sentinelClose.length ≤ (c :: t).length := by
          rw [captureSentinel_spec hcap]
          simp only [List.length_cons, List.length_append]
          omega
        have hmore : ¬sentinelClose.isPrefixOf (c :: (t ++ x)) = true := by
          intro hp
          refine hpre (List.isPrefixOf_iff_prefix.mpr ?_)
          exact List.prefix_of_prefix_length_le (List.isPrefixOf_iff_prefix.mp hp)
            (List.prefix_append (c :: t) x) hlen
        rw [if_neg hmore, if_neg hnl, ih hcap]
        rfl

/-- Text behind a match leaves a match, and none that comes later. -/
theorem findSentinel_more {t before j rest : Text} (h : findSentinel t = some (before, j, rest))
    (x : Text) : ∃ before' r, findSentinel (t ++ x) = some (before', r) ∧
      before'.length ≤ before.length := by
  induction t generalizing before with
  | nil => cases h
  | cons c t ih =>
    rw [findSentinel] at h
    rw [List.cons_append, findSentinel]
    split at h
    · rename_i r hcap
      cases h
      split at hcap
      · rename_i hpre
        have hlen := (List.isPrefixOf_iff_prefix.mp hpre).length_le
        have hmore := isPrefixOf_append hpre x
        rw [List.cons_append] at hmore
        rw [if_pos hmore, ← List.cons_append, List.drop_append_of_le_length hlen,
          captureSentinel_more hcap]
        exact ⟨[], _, rfl, Nat.le_refl _⟩
      · cases hcap
    · obtain ⟨⟨b', r'⟩, hfind, heq⟩ := Option.map_eq_some_iff.mp h
      cases heq
      split
      · exact ⟨[], _, rfl, Nat.zero_le _⟩
      · obtain ⟨b, r, hmore, hle⟩ := ih hfind
        rw [hmore]
        exact ⟨c :: b, r, rfl, Nat.succ_le_succ hle⟩

theorem findSentinel_front {t : Text} (h : (findSentinel t).isSome = true) (front : Text) :
    (findSentinel (front ++ t)).isSome = true := by
  induction front with
  | nil => exact h
  | cons c front ih =>
    rw [List.cons_append, findSentinel]
    split
    · rfl
    · rw [Option.isSome_map]
      exact ih

/-- A piece of a text without a sentinel has none. -/
theorem findSentinel_piece {a t b : Text} (h : findSentinel (a ++ (t ++ b)) = none) :
    findSentinel t = none := by
  by_contra hne
  obtain ⟨⟨before, j, rest⟩, hfind⟩ := Option.ne_none_iff_exists'.mp hne
  obtain ⟨before', r, hmore, -⟩ := findSentinel_more hfind b
  have hsome := findSentinel_front (Option.isSome_iff_exists.mpr ⟨_, hmore⟩) a
  rw [h] at hsome
  cases hsome

/-- The text before the first sentinel has none. -/
theorem findSentinel_before {t before j rest : Text} (h : findSentinel t = some (before, j, rest)) :
    findSentinel before = none := by
  by_contra hne
  obtain ⟨⟨b, j', rest'⟩, hfind⟩ := Option.ne_none_iff_exists'.mp hne
  obtain ⟨before', r, hmore, hle⟩ := findSentinel_more hfind
    (sentinelOpen ++ (j ++ (sentinelClose ++ rest)))
  rw [← findSentinel_spec h, h] at hmore
  cases hmore
  have hlen := congrArg List.length (findSentinel_spec hfind)
  have hopen : 0 < sentinelOpen.length := by decide
  simp only [List.length_append] at hlen
  omega

theorem findSentinel_trim {t : Text} (h : findSentinel t = none) :
    findSentinel (trimList isSpace t) = none := by
  obtain ⟨a, b, hsplit, -, -⟩ := Lib.Tokens.trimList_split isSpace t
  exact findSentinel_piece (hsplit ▸ h)

/-- **The text of a description has no sentinel in it.** -/
theorem findSentinel_text (desc : Text) : findSentinel (parseSentinel desc).1 = none := by
  unfold parseSentinel
  split
  · assumption
  · rename_i before j rest hfind
    exact findSentinel_trim (findSentinel_before hfind)

/-! ## 4. The encoded key map

`Encodable` says that every value is JSON and nested less than the limit, which is what the encoder
asks for. -/

theorem membersList_listMembers (l : List (Text × Value)) : membersList (listMembers l) = l := by
  induction l with
  | nil => rfl
  | cons e l ih => exact congrArg (e :: ·) ih

theorem listMembers_wf {l : List (Text × Value)}
    (h : ∀ e ∈ l, Lib.Json.rawOk e.1 = true ∧ e.2.wf = true) : (listMembers l).wf = true := by
  induction l with
  | nil => rfl
  | cons e l ih =>
    obtain ⟨hk, hv⟩ := h e List.mem_cons_self
    rw [listMembers, Members.wf, hk, hv, ih fun e he => h e (List.mem_cons_of_mem _ he)]
    rfl

theorem listMembers_depth {l : List (Text × Value)} {n : Nat} (h : ∀ e ∈ l, e.2.depth ≤ n) :
    (listMembers l).depth ≤ n := by
  induction l with
  | nil => exact Nat.zero_le n
  | cons e l ih =>
    exact max_le (h e List.mem_cons_self) (ih fun e he => h e (List.mem_cons_of_mem _ he))

theorem mem_listMembers_texts {l : List (Text × Value)} {t : Text} :
    t ∈ (listMembers l).texts ↔ ∃ e ∈ l, t = e.1 ∨ t ∈ e.2.texts := by
  induction l with
  | nil => simp [listMembers, Members.texts]
  | cons e l ih =>
    rw [listMembers, Members.texts, List.mem_cons, List.mem_append, ih, List.exists_mem_cons_iff,
      or_assoc]

/-- The values of a key map are JSON, and shallow enough to stand inside an object. -/
structure Encodable (raw : Raw) : Prop where
  wf : ∀ k v, raw.lookup k = some v → v.wf = true
  depth : ∀ k v, raw.lookup k = some v → v.depth < Lib.Json.maxDepth

variable {raw : Raw}

theorem Encodable.value_wf (h : Encodable raw) : (sentinelValue raw).wf = true := by
  refine listMembers_wf fun e he => ?_
  obtain ⟨⟨k, v⟩, hmem, rfl⟩ := List.mem_map.mp he
  exact ⟨Lib.Json.rawOk_quote k,
    Lib.Json.Value.wf_mapStr (fun _ => Lib.Json.rawOk_escapeHtml) v
    (h.wf k v (mem_sortedMembers.mp hmem))⟩

theorem Encodable.value_depth (h : Encodable raw) :
    (sentinelValue raw).depth ≤ Lib.Json.maxDepth := by
  have hall : (listMembers ((sortedMembers raw).map fun e =>
      (quote e.1, e.2.mapStr escapeHtml))).depth ≤ Lib.Json.maxDepth - 1 := by
    refine listMembers_depth fun e he => ?_
    obtain ⟨⟨k, v⟩, hmem, rfl⟩ := List.mem_map.mp he
    have hlt := h.depth k v (mem_sortedMembers.mp hmem)
    rw [Lib.Json.Value.depth_mapStr]
    exact Nat.le_sub_one_of_lt hlt
  exact Nat.succ_le_succ hall

/-- The texts of a payload: quoted keys, and the texts of the values with HTML escaped. -/
theorem mem_sentinelValue_texts {t : Text} :
    t ∈ (sentinelValue raw).texts ↔
      ∃ k v, raw.lookup k = some v ∧ (t = quote k ∨ ∃ s ∈ v.texts, t = escapeHtml s) := by
  rw [sentinelValue, Value.texts, mem_listMembers_texts]
  constructor
  · rintro ⟨e, he, ht⟩
    obtain ⟨⟨k, v⟩, hmem, rfl⟩ := List.mem_map.mp he
    refine ⟨k, v, mem_sortedMembers.mp hmem, ht.imp_right fun ht => ?_⟩
    rw [Lib.Json.Value.texts_mapStr, List.mem_map] at ht
    obtain ⟨s, hs, rfl⟩ := ht
    exact ⟨s, hs, rfl⟩
  · rintro ⟨k, v, hlookup, ht⟩
    refine ⟨(quote k, v.mapStr escapeHtml), ?_, ht.imp_right fun ht => ?_⟩
    · exact List.mem_map.mpr ⟨(k, v), mem_sortedMembers.mpr hlookup, rfl⟩
    · rw [Lib.Json.Value.texts_mapStr, List.mem_map]
      obtain ⟨s, hs, rfl⟩ := ht
      exact ⟨s, hs, rfl⟩

/-- A key map says neither line of a marker. -/
def Raw.Silent (raw : Raw) : Prop :=
  ∀ k v, raw.lookup k = some v → Vm.Silent k ∧ ∀ s ∈ v.texts, Vm.Silent s

theorem silent_sentinelValue (h : Encodable raw) :
    Silent (print (sentinelValue raw)) ↔ raw.Silent := by
  rw [silent_print h.value_wf]
  constructor
  · intro hall k v hlookup
    refine ⟨(silent_quote k).mp (hall _ ?_), fun s hs => (silent_escapeHtml s).mp (hall _ ?_)⟩
    · exact mem_sentinelValue_texts.mpr ⟨k, v, hlookup, .inl rfl⟩
    · exact mem_sentinelValue_texts.mpr ⟨k, v, hlookup, .inr ⟨s, hs, rfl⟩⟩
  · intro hall t ht
    obtain ⟨k, v, hlookup, rfl | ⟨s, hs, rfl⟩⟩ := mem_sentinelValue_texts.mp ht
    · exact (silent_quote k).mpr (hall k v hlookup).1
    · exact (silent_escapeHtml s).mpr ((hall k v hlookup).2 s hs)

/-- A letter that JSON has only in strings is in none of an encoded key map. -/
theorem notMem_print {c : Char} (h : (sentinelValue raw).wf = true)
    (hc : Lib.Json.isStructural c = false)
    (hq : c ≠ '"') (htext : ∀ t ∈ (sentinelValue raw).texts, c ∉ t) :
    c ∉ print (sentinelValue raw) := by
  intro hmem
  obtain ⟨a, b, hab⟩ := List.append_of_mem hmem
  have hin : [c] <:+: print (sentinelValue raw) := ⟨a, b, by rw [hab]; simp⟩
  rw [Lib.Json.infix_print List.mem_cons_self hc (by simpa using hq.symm) h] at hin
  obtain ⟨t, ht, hin⟩ := hin
  exact htext t ht (hin.subset List.mem_cons_self)

/-- The letters that the encoder escapes for HTML are not written. -/
theorem html_notMem_print {c : Char} (h : (sentinelValue raw).wf = true)
    (hhtml : Lib.Json.isHtml c = true) (hc : Lib.Json.isStructural c = false) (hq : c ≠ '"') :
    c ∉ print (sentinelValue raw) := by
  refine notMem_print h hc hq fun t ht hmem => ?_
  have hclean : t.all (fun c => !Lib.Json.isHtml c) = true := by
    obtain ⟨k, v, -, rfl | ⟨s, -, rfl⟩⟩ := mem_sentinelValue_texts.mp ht
    · rw [← Lib.Json.escapeHtml_quote]
      exact Lib.Json.escapeHtml_clean _
    · exact Lib.Json.escapeHtml_clean s
  have hno := List.all_eq_true.mp hclean _ hmem
  rw [hhtml] at hno
  cases hno

theorem gt_notMem_print (h : (sentinelValue raw).wf = true) : '>' ∉ print (sentinelValue raw) :=
  html_notMem_print h (by decide) (by decide) (by decide)

theorem lt_notMem_print (h : (sentinelValue raw).wf = true) : '<' ∉ print (sentinelValue raw) :=
  html_notMem_print h (by decide) (by decide) (by decide)

theorem newline_notMem_print (h : (sentinelValue raw).wf = true) :
    '\n' ∉ print (sentinelValue raw) :=
  notMem_print h (by decide) (by decide) fun t ht =>
    Lib.Json.rawOk_newline (Value.rawOk_texts _ h t ht)

/-! ## 5. Reading back what was written -/

theorem sentinelText_head : sentinelText raw =
    '<' :: ("!--BOSH:".toList ++ (print (sentinelValue raw) ++ sentinelClose)) := rfl

theorem sentinelText_cut : sentinelText raw =
    "<!--BOSH".toList ++ ':' :: (print (sentinelValue raw) ++ '-' :: "->".toList) := rfl

theorem findSentinel_sentinelText (h : (sentinelValue raw).wf = true) :
    findSentinel (sentinelText raw) = some ([], print (sentinelValue raw), []) := by
  have hcap := captureSentinel_append (gt_notMem_print h) (newline_notMem_print h) []
  rw [List.append_nil] at hcap
  have hpre : sentinelOpen.isPrefixOf
      ('<' :: ("!--BOSH:".toList ++ (print (sentinelValue raw) ++ sentinelClose))) = true := by
    rw [← sentinelText_head, List.isPrefixOf_iff_prefix]
    exact List.prefix_append _ _
  have hdrop : ('<' :: ("!--BOSH:".toList ++ (print (sentinelValue raw) ++ sentinelClose))).drop
      sentinelOpen.length = print (sentinelValue raw) ++ sentinelClose := by
    rw [← sentinelText_head]
    exact List.drop_left
  rw [sentinelText_head, findSentinel, if_pos hpre, hdrop, hcap]

/-- A payload reads back, with HTML escaped in its texts. -/
theorem decodeRaw_print (h : Encodable raw) :
    ∃ raw', decodeRaw (print (sentinelValue raw)) = some raw' ∧
      ∀ k, raw'.lookup k = (raw.lookup k).map fun v => v.mapStr escapeHtml := by
  have hparse := Lib.Json.parse_print h.value_wf h.value_depth
  refine ⟨_, by unfold decodeRaw; rw [hparse]; rfl, fun k => ?_⟩
  rw [membersList_listMembers, List.map_map]
  have hmap : (sortedMembers raw).map ((fun e : Text × Value => (unquote e.1, e.2)) ∘
      fun e => (quote e.1, e.2.mapStr escapeHtml)) =
        (sortedMembers raw).map fun e => (e.1, e.2.mapStr escapeHtml) := by
    refine List.map_congr_left fun e _ => ?_
    simp only [Function.comp, Lib.Json.unquote_quote]
  have hkeys :
      (((sortedMembers raw).map fun e => (e.1, e.2.mapStr escapeHtml)).map Prod.fst).Nodup := by
    rw [List.map_map]
    exact nodup_sortedMembers raw
  rw [hmap]
  cases hlookup : raw.lookup k with
  | some v =>
    refine lookup_putAll_of_mem hkeys (List.mem_map.mpr ⟨(k, v), ?_, rfl⟩)
    exact mem_sortedMembers.mpr hlookup
  | none =>
    rw [Option.map_none, Option.eq_none_iff_forall_not_mem]
    intro v hv
    obtain ⟨⟨k', v'⟩, hmem, heq⟩ := List.mem_map.mp (lookup_putAll_empty hv)
    cases heq
    rw [mem_sortedMembers.mp hmem] at hlookup
    cases hlookup

/-- What rendering does when it succeeds. -/
theorem renderSentinel_eq_some {nonBOSH d : Text} (h : renderSentinel nonBOSH raw = some d) :
    (raw.entries = [] ∧ d = nonBOSH) ∨
    (raw.entries ≠ [] ∧ nonBOSH = [] ∧ d = sentinelText raw) ∨
    (raw.entries ≠ [] ∧ nonBOSH ≠ [] ∧ d = nonBOSH ++ '\n' :: sentinelText raw) := by
  unfold renderSentinel at h
  split_ifs at h with hempty hdeep hblank
  · exact .inl ⟨List.isEmpty_iff.mp hempty, (Option.some.inj h).symm⟩
  · exact .inr (.inl ⟨mt List.isEmpty_iff.mpr hempty, List.isEmpty_iff.mp hblank,
      (Option.some.inj h).symm⟩)
  · exact .inr (.inr ⟨mt List.isEmpty_iff.mpr hempty, mt List.isEmpty_iff.mpr hblank,
      (Option.some.inj h).symm⟩)

/-- A key map that can be encoded can be rendered. -/
theorem Encodable.renders (h : Encodable raw) (nonBOSH : Text) :
    ∃ d, renderSentinel nonBOSH raw = some d := by
  have hshallow : ¬(raw.entries.any fun e => Lib.Json.maxDepth ≤ e.2.depth) = true := by
    rw [List.any_eq_true]
    rintro ⟨⟨k, v⟩, he, hdeep⟩
    have hlt := h.depth k v (AList.mem_lookup_iff.mpr he)
    exact absurd (of_decide_eq_true hdeep) (Nat.not_le.mpr hlt)
  unfold renderSentinel
  rw [if_neg hshallow]
  split
  · exact ⟨_, rfl⟩
  · split
    · exact ⟨_, rfl⟩
    · exact ⟨_, rfl⟩

theorem entries_ne_nil {k : Text} {v : Value} (h : raw.lookup k = some v) : raw.entries ≠ [] := by
  intro hnil
  have := AList.mem_lookup_iff.mp h
  rw [hnil] at this
  cases this

/-- Whatever stands in front, a sentinel on a line of its own is the one that is read, unless there
is one before it. -/
theorem valueOf_line (h : Encodable raw) {front : Text} (hfront : findSentinel front = none)
    (k : Text) : valueOf (front ++ '\n' :: sentinelText raw) k =
      (raw.lookup k).map fun v => v.mapStr escapeHtml := by
  obtain ⟨raw', hraw', hlookup⟩ := decodeRaw_print h
  unfold valueOf parseSentinel
  rw [findSentinel_newline, hfront, findSentinel_sentinelText h.value_wf]
  simp only [Option.map_some, hraw', Option.bind_some, hlookup]

theorem valueOf_sentinelText (h : Encodable raw) (k : Text) :
    valueOf (sentinelText raw) k = (raw.lookup k).map fun v => v.mapStr escapeHtml := by
  obtain ⟨raw', hraw', hlookup⟩ := decodeRaw_print h
  unfold valueOf parseSentinel
  rw [findSentinel_sentinelText h.value_wf]
  simp only [hraw', Option.bind_some, hlookup]

/-- **A sentinel that is written behind a text without one is the one that is read**, and the text
in front of it is read without the space around it.  The text in front has no match, the opening
stands behind a line break, and the encoded object has no `>` that could end it before its end. -/
theorem parseSentinel_render (h : Encodable raw) {nonBOSH d : Text} (hne : raw.entries ≠ [])
    (hnone : findSentinel nonBOSH = none) (hd : renderSentinel nonBOSH raw = some d) :
    ∃ raw', parseSentinel d = (trimList isSpace nonBOSH, some raw') ∧
      ∀ k, raw'.lookup k = (raw.lookup k).map fun v => v.mapStr escapeHtml := by
  obtain ⟨raw', hraw', hlookup⟩ := decodeRaw_print h
  refine ⟨raw', ?_, hlookup⟩
  unfold parseSentinel
  rcases renderSentinel_eq_some hd with ⟨hnil, -⟩ | ⟨-, rfl, rfl⟩ | ⟨-, -, rfl⟩
  · exact absurd hnil hne
  · rw [findSentinel_sentinelText h.value_wf]
    simp only [hraw']
  · rw [findSentinel_newline, hnone, findSentinel_sentinelText h.value_wf]
    simp only [Option.map_some, hraw', Lib.Tokens.trimList_concat (p := isSpace) (c := '\n') rfl]

/-- The value says the same under a key of another description. -/
def SameValue (v : Value) (desc key : Text) : Prop :=
  ∃ v', valueOf desc key = some v' ∧ v'.said = v.said

/-- **What is written behind a text without a sentinel is read back.** -/
theorem valueOf_render (h : Encodable raw) {nonBOSH d k : Text} {v : Value}
    (hnone : findSentinel nonBOSH = none) (hd : renderSentinel nonBOSH raw = some d)
    (hv : raw.lookup k = some v) : SameValue v d k := by
  have hsaid := Lib.Json.Value.said_compact (h.wf k v hv)
  refine ⟨v.mapStr escapeHtml, ?_, hsaid⟩
  rcases renderSentinel_eq_some hd with ⟨hnil, -⟩ | ⟨-, -, rfl⟩ | ⟨-, -, rfl⟩
  · exact absurd hnil (entries_ne_nil hv)
  · rw [valueOf_sentinelText h, hv]
    rfl
  · rw [valueOf_line h hnone, hv]
    rfl

/-- A sentinel in the text itself is the one that is read. -/
theorem valueOf_render_of_some {nonBOSH d k : Text} (hsome : (findSentinel nonBOSH).isSome = true)
    (hd : renderSentinel nonBOSH raw = some d) : valueOf d k = valueOf nonBOSH k := by
  obtain ⟨⟨before, j, rest⟩, hfind⟩ := Option.isSome_iff_exists.mp hsome
  rcases renderSentinel_eq_some hd with ⟨-, rfl⟩ | ⟨-, rfl, -⟩ | ⟨-, -, rfl⟩
  · rfl
  · cases hfind
  · unfold valueOf parseSentinel
    rw [findSentinel_newline, hfind]

/-! ## 6. The marker in front of a written sentinel

The marker's parser counts its lines over the whole description, so a sentinel behind it counts as
well: the marker survives exactly when the sentinel says neither line (`Raw.Silent`). -/

theorem count_sentinelText {d : Text} (hd : d ∈ delimiters) :
    count d (sentinelText raw) = count d (print (sentinelValue raw)) := by
  have hzero : ∀ d ∈ delimiters, count d "<!--BOSH".toList = 0 ∧ count d "->".toList = 0 := by
    decide
  rw [sentinelText_cut, count_delimiter_append hd (by decide),
    count_delimiter_append hd (by decide), (hzero d hd).1, (hzero d hd).2, Nat.zero_add,
    Nat.add_zero]

theorem silent_sentinelText (h : Encodable raw) : Silent (sentinelText raw) ↔ raw.Silent := by
  rw [← silent_sentinelValue h, silent_iff, silent_iff]
  exact forall₂_congr fun d hd => by rw [count_sentinelText hd]

theorem count_of_found {t : Text} {m : Marker} (h : parseStorageAllocationMarker t = .found m) :
    ∀ d ∈ delimiters, count d t = 1 := by
  obtain ⟨hs, he, -⟩ := found_iff.mp h
  intro d hd
  simp only [delimiters, List.mem_cons, List.not_mem_nil, or_false] at hd
  rcases hd with rfl | rfl
  · exact hs
  · exact he

/-- **A marker is still found when lines are added behind it that say neither of its lines**, and
only then. -/
theorem found_append_iff {t x : Text} {m : Marker} (h : parseStorageAllocationMarker t = .found m) :
    parseStorageAllocationMarker (t ++ '\n' :: x) = .found m ↔ Silent x := by
  have hcount : ∀ d ∈ delimiters, count d (t ++ '\n' :: x) = 1 + count d x := by
    intro d hd
    rw [count_delimiter_append hd (by decide), count_of_found h d hd]
  constructor
  · intro hfound
    rw [silent_iff]
    intro d hd
    have hone := count_of_found hfound d hd
    rw [hcount d hd] at hone
    omega
  · intro hsilent
    rw [silent_iff] at hsilent
    obtain ⟨-, -, a, payload, b, rfl, hdecode⟩ := found_iff.mp h
    refine found_iff.mpr ⟨?_, ?_, a, payload, b ++ '\n' :: x, by simp, hdecode⟩
    · rw [hcount _ (by decide), hsilent _ (by decide)]
    · rw [hcount _ (by decide), hsilent _ (by decide)]

theorem ne_nil_of_found {t : Text} {m : Marker} (h : parseStorageAllocationMarker t = .found m) :
    t ≠ [] := by
  rintro rfl
  cases h

theorem silent_of_empty (h : raw.entries = []) : raw.Silent := by
  intro k v hlookup
  exact absurd h (entries_ne_nil hlookup)

/-- **Writing a sentinel behind a marker keeps the marker unless the sentinel says one of its
lines.**  The lines of the description are counted in both parts, and the text has each of them once
already. -/
theorem found_render (h : Encodable raw) {nonBOSH d : Text} {m : Marker}
    (hfound : parseStorageAllocationMarker nonBOSH = .found m)
    (hd : renderSentinel nonBOSH raw = some d) :
    parseStorageAllocationMarker d = .found m ↔ raw.Silent := by
  rcases renderSentinel_eq_some hd with ⟨hnil, rfl⟩ | ⟨-, hnil, -⟩ | ⟨-, -, rfl⟩
  · exact iff_of_true hfound (silent_of_empty hnil)
  · exact absurd hnil (ne_nil_of_found hfound)
  · rw [found_append_iff hfound, silent_sentinelText h]

/-! ## 7. A marker is not found inside a sentinel

A text between the two lines that begins inside a JSON string would run into the closing quote of
that string, and behind the quote stands a separator, not the key of an object. -/

/-- **The strings of a sentinel do not make a marker**, whatever they say. -/
theorem not_found_inside (h : Encodable raw) {front : Text} {m : Marker}
    (hfront : count storageAllocationMarkerStart front = 0) :
    parseStorageAllocationMarker (front ++ sentinelText raw) ≠ .found m := by
  intro hfound
  obtain ⟨-, -, x, payload, y, hsplit, hdecode⟩ := found_iff.mp hfound
  obtain ⟨w, c, rest, rfl, hw, hfollow⟩ := decodeMarker_key hdecode
  have hbefore : ¬storageAllocationMarkerStart <:+: front ++ "<!--BOSH".toList := by
    have hcut : front ++ "<!--BOSH".toList = front ++ '<' :: "!--BOSH".toList := rfl
    have hzero : count storageAllocationMarkerStart "!--BOSH".toList = 0 := by decide
    rw [start_eq, ← count_eq_zero, ← start_eq, hcut, count_delimiter_append (by decide) (by decide),
      hfront, hzero]
  -- The first line lies in the JSON, and so does the second, which comes behind it.
  rw [sentinelText_cut, ← List.append_assoc] at hsplit
  obtain ⟨x', -, hjson⟩ := after_cut (by decide) (by decide) hbefore hsplit
  have hassoc : x' ++ (storageAllocationMarkerStart ++ (w ++ '"' :: c :: rest ++
      (storageAllocationMarkerEnd ++ y))) = (x' ++ storageAllocationMarkerStart ++
        (w ++ '"' :: c :: rest)) ++ (storageAllocationMarkerEnd ++ y) := by
    simp only [List.append_assoc]
  rw [hassoc] at hjson
  obtain ⟨y', -, hprint⟩ := before_cut (by decide) (by decide) hjson
  have hblock : print (sentinelValue raw) = x' ++ (storageAllocationMarkerStart ++ w) ++
      '"' :: c :: (rest ++ (storageAllocationMarkerEnd ++ y')) := by
    rw [hprint]
    simp only [List.append_assoc, List.cons_append]
  have hquote : '"' ∉ storageAllocationMarkerStart ++ w := by
    rw [List.mem_append, not_or]
    refine ⟨by decide, fun hmem => ?_⟩
    rcases hw _ hmem with heq | hws
    · exact absurd heq (by decide)
    · exact absurd hws (by decide)
  have hlast : (storageAllocationMarkerStart ++ w).getLast? ≠ some '\\' := by
    intro hlast
    have hmem := List.mem_of_getLast? hlast
    rcases List.mem_append.mp hmem with hmem | hmem
    · exact absurd hmem (by decide)
    · rcases hw _ hmem with heq | hws
      · exact absurd heq (by decide)
      · exact absurd hws (by decide)
  have hfollow' := Lib.Json.after_quote (p := storageAllocationMarkerStart) (z := '_') (by decide)
    (by decide) h.value_wf hblock (List.prefix_append _ _).isInfix hquote hlast
  rw [hfollow] at hfollow'
  cases hfollow'

/-- **A marker in front of a written sentinel was there before it was written.** -/
theorem found_render_imp (h : Encodable raw) {nonBOSH d : Text} {m : Marker}
    (hne : raw.entries ≠ []) (hd : renderSentinel nonBOSH raw = some d)
    (hfound : parseStorageAllocationMarker d = .found m) :
    raw.Silent ∧ parseStorageAllocationMarker nonBOSH = .found m := by
  rcases renderSentinel_eq_some hd with ⟨hnil, -⟩ | ⟨-, -, rfl⟩ | ⟨-, -, rfl⟩
  · exact absurd hnil hne
  · have hnone : parseStorageAllocationMarker ([] ++ sentinelText raw) ≠ .found m :=
      not_found_inside h rfl
    exact absurd hfound hnone
  · obtain ⟨hs, he, x, payload, y, hsplit, hdecode⟩ := found_iff.mp hfound
    rw [count_delimiter_append (by decide) (by decide)] at hs he
    -- The first line is in the text: the sentinel alone makes no marker.
    have hstart : count storageAllocationMarkerStart nonBOSH = 1 := by
      by_contra hno
      have hzero : count storageAllocationMarkerStart nonBOSH = 0 := by omega
      have hline : nonBOSH ++ '\n' :: sentinelText raw =
          (nonBOSH ++ ['\n']) ++ sentinelText raw := by
        simp
      rw [hline] at hfound
      refine absurd hfound (not_found_inside h ?_)
      rw [count_delimiter_append (by decide) (by decide), hzero]
      rfl
    have hsent : count storageAllocationMarkerStart (sentinelText raw) = 0 := by omega
    obtain ⟨r, hr, hbefore⟩ := before_cut (by decide)
      (by rw [start_eq, ← count_eq_zero, ← start_eq]; exact hsent) hsplit
    -- The second line is in the text too: nothing between the two starts a line with a tag.
    have hend : count storageAllocationMarkerEnd nonBOSH = 1 := by
      by_contra hno
      have hzero : count storageAllocationMarkerEnd r = 0 := by
        have hrin : ¬storageAllocationMarkerEnd <:+: r := by
          intro hin
          have hall : storageAllocationMarkerEnd <:+: nonBOSH := by
            rw [hbefore]
            exact hin.trans ⟨x ++ storageAllocationMarkerStart, [], by simp⟩
          rw [end_eq, ← count_pos, ← end_eq] at hall
          omega
        rw [end_eq, count_eq_zero, ← end_eq]
        exact hrin
      obtain ⟨q, hpayload, hq⟩ := after_cut (by decide) (by decide)
        (by rw [end_eq, ← count_eq_zero, ← end_eq]; exact hzero) hr.symm
      rw [sentinelText_head] at hq
      obtain ⟨q', rfl⟩ : ∃ q', q = '<' :: q' := by
        cases q with
        | nil =>
          rw [end_eq, List.nil_append, List.cons_append] at hq
          exact absurd (List.cons.inj hq).1 (by decide)
        | cons e q =>
          rw [List.cons_append] at hq
          rw [(List.cons.inj hq).1]
          exact ⟨q, rfl⟩
      unfold decodeMarker at hdecode
      split at hdecode
      · rename_i ms hparse
        rw [hpayload] at hparse
        obtain ⟨a', e, heq, hne⟩ := Lib.Json.parse_calm hparse (r ++ ['\n']) q' (by simp)
        have hlast := List.append_inj_right' heq rfl
        exact hne (List.cons.inj hlast).1.symm
      · cases hdecode
    have hassoc : x ++
        (storageAllocationMarkerStart ++ (payload ++ (storageAllocationMarkerEnd ++ y))) =
        (x ++ storageAllocationMarkerStart ++ payload) ++ (storageAllocationMarkerEnd ++ y) := by
      simp only [List.append_assoc]
    have hesent : count storageAllocationMarkerEnd (sentinelText raw) = 0 := by omega
    rw [hassoc] at hsplit
    obtain ⟨y', -, hmarked⟩ := before_cut (by decide)
      (by rw [end_eq, ← count_eq_zero, ← end_eq]; exact hesent) hsplit
    refine ⟨(silent_sentinelText h).mp (silent_iff.mpr fun d hd => ?_), found_iff.mpr
      ⟨hstart, hend, x, payload, y', by rw [hmarked]; simp only [List.append_assoc], hdecode⟩⟩
    simp only [delimiters, List.mem_cons, List.not_mem_nil, or_false] at hd
    rcases hd with rfl | rfl
    · exact hsent
    · exact hesent

end Vm
