/-
# The text that a value is read from

A decoder may keep the members of an object as they were written (`rawObject`), to decode them
later.  Then it decodes the text of a member by itself, and what it reads is what it read as a part
of the object (`rawObject_spec`): the text of a value determines the value, whatever follows it
(`parseValue_spans`).

The parser returns what follows a value and not the text it has used, so "the text of a member" is
the difference of two rests.  To say that this text, parsed alone, gives the member again, one needs
to know that a parser never looks past what it uses, apart from deciding where a number ends. `Spans
used v` is this knowledge: `used`, with anything behind it that does not extend a number and with
enough fuel, is read as `v`.

* §2  `Spans` is closed under every way to build a value, with white space anywhere.
* §3  What was read spans its value (`parseValue_spans`): the parser is followed backwards, and at
  each step the text it used is put together from the texts of the parts.
* §4  The decoder that keeps texts (`rawObject`), and its contract.
-/
import PveCpi.Lib.JsonText

namespace Lib.Json

/-! ## 1. White space -/

theorem skipWs_append {w : List Char} (hw : ∀ c ∈ w, isWs c = true) (cs : List Char) :
    skipWs (w ++ cs) = skipWs cs := by
  induction w with
  | nil => rfl
  | cons c w ih =>
    rw [List.cons_append, skipWs, if_pos (hw c List.mem_cons_self)]
    exact ih fun d hd => hw d (List.mem_cons_of_mem _ hd)

theorem skipWs_head {cs rest : List Char} {c : Char} (h : skipWs cs = c :: rest) :
    isWs c = false := by
  induction cs with
  | nil => cases h
  | cons d cs ih =>
    rw [skipWs] at h
    split at h
    · exact ih h
    · rename_i hd
      cases h
      exact Bool.eq_false_iff.mpr hd

theorem parseValue_skipAll {w : List Char} (hw : ∀ c ∈ w, isWs c = true) (n : Nat)
    (cs : List Char) : parseValue n (w ++ cs) = parseValue n cs := by
  induction w with
  | nil => rfl
  | cons c w ih =>
    rw [List.cons_append, parseValue_skip (hw c List.mem_cons_self)]
    exact ih fun d hd => hw d (List.mem_cons_of_mem _ hd)

theorem isNumChar_of_ws {c : Char} (h : isWs c = true) : isNumChar c = false := by
  simp only [isWs, Bool.or_eq_true, beq_iff_eq] at h
  rcases h with ((rfl | rfl) | rfl) | rfl <;> decide

theorem follow_ws {w : List Char} (hw : ∀ c ∈ w, isWs c = true) {c : Char}
    (hc : isNumChar c = false) (cs : List Char) : Follow (w ++ c :: cs) := by
  cases w with
  | nil => exact follow_cons hc cs
  | cons d w => exact follow_cons (isNumChar_of_ws (hw d List.mem_cons_self)) _

/-! ## 2. A text that is read as a value, whatever follows

Each lemma of this section is one production of the grammar, read from the parts to the whole. -/

/-- The text is read as the value. -/
structure Spans (used : List Char) (v : Value) : Prop where
  size : v.size ≤ 2 * used.length
  head : ∃ c cs, used = c :: cs ∧ isWs c = false
  reads : ∀ m tail, v.size ≤ m → Follow tail → parseValue m (used ++ tail) = some (v, tail)

/-- The text is read as the elements and the closing bracket. -/
structure SpansElems (used : List Char) (es : Elems) : Prop where
  ne : used ≠ []
  size : es.size ≤ 2 * used.length
  reads : ∀ m tail, es.size ≤ m → parseElems m (used ++ tail) = some (es, tail)

/-- The text is read as the members and the closing brace. -/
structure SpansMembers (used : List Char) (ms : Members) : Prop where
  ne : used ≠ []
  size : ms.size ≤ 2 * used.length
  reads : ∀ m tail, ms.size ≤ m → parseMembers m (used ++ tail) = some (ms, tail)

theorem spans_print {v : Value} (hwf : v.wf = true) : Spans (print v) v := by
  obtain ⟨c, cs, hprint, hws, -⟩ := print_head v hwf
  exact ⟨Value.size_le v hwf, ⟨c, cs, hprint, hws⟩,
    fun m tail hm hf => parseValue_print v hwf m tail hm hf⟩

/-- An opening bracket, white space, and a text that goes on with neither. -/
theorem spans_arr {used w : List Char} {es : Elems} (h : SpansElems used es)
    (hw : ∀ c ∈ w, isWs c = true)
    (hhead : ∃ c cs, used = c :: cs ∧ isWs c = false ∧ c ≠ ']') :
      Spans ('[' :: (w ++ used)) (.arr es) := by
  obtain ⟨c, cs, rfl, hws, hne⟩ := hhead
  refine ⟨?_, ⟨'[', _, rfl, by decide⟩, fun m tail hm _ => ?_⟩
  · have hsize := h.size
    simp only [Value.size, List.length_cons, List.length_append] at hsize ⊢
    omega
  · cases m with
    | zero => simp [Value.size] at hm
    | succ m =>
      have hread := h.reads m tail (Nat.le_of_succ_le_succ hm)
      rw [List.cons_append] at hread
      rw [List.cons_append, List.append_assoc, parseValue, skipWs_cons (by decide)]
      simp only
      rw [skipWs_append hw, List.cons_append, skipWs_cons hws]
      split
      · rename_i heq
        exact absurd (List.cons.inj heq).1 hne
      · rw [hread]
        rfl

/-- The span of an object is the brace, white space and the span of its members. -/
theorem spans_obj {used w : List Char} {ms : Members} (h : SpansMembers used ms)
    (hw : ∀ c ∈ w, isWs c = true) (hhead : ∃ c cs, used = c :: cs ∧ isWs c = false ∧ c ≠ '}') :
    Spans ('{' :: (w ++ used)) (.obj ms) := by
  obtain ⟨c, cs, rfl, hws, hne⟩ := hhead
  refine ⟨?_, ⟨'{', _, rfl, by decide⟩, fun m tail hm _ => ?_⟩
  · have hsize := h.size
    simp only [Value.size, List.length_cons, List.length_append] at hsize ⊢
    omega
  · cases m with
    | zero => simp [Value.size] at hm
    | succ m =>
      have hread := h.reads m tail (Nat.le_of_succ_le_succ hm)
      rw [List.cons_append] at hread
      rw [List.cons_append, List.append_assoc, parseValue, skipWs_cons (by decide)]
      simp only
      rw [skipWs_append hw, List.cons_append, skipWs_cons hws]
      split
      · rename_i heq
        exact absurd (List.cons.inj heq).1 hne
      · rw [hread]
        rfl

section Items

variable {w₀ w₁ w₂ w₃ used more k : List Char} {v : Value} {es : Elems} {ms : Members}

/-- The span of the last element, with the white space around it and the closing bracket. -/
theorem spans_last_elem (h : Spans used v) (hw₀ : ∀ c ∈ w₀, isWs c = true)
    (hw₁ : ∀ c ∈ w₁, isWs c = true) :
    SpansElems (w₀ ++ (used ++ (w₁ ++ [']']))) (.cons v .nil) := by
  refine ⟨by simp, ?_, fun m tail hm => ?_⟩
  · have hsize := h.size
    simp only [Elems.size, List.length_append, List.length_cons]
    omega
  · simp only [Elems.size] at hm
    obtain ⟨m, rfl⟩ : ∃ n, m = n + 1 := ⟨m - 1, by omega⟩
    have hread := h.reads m (w₁ ++ ']' :: tail) (by omega) (follow_ws hw₁ (by decide) tail)
    simp only [List.append_assoc, List.singleton_append]
    rw [parseElems, parseValue_skipAll hw₀, hread, Option.bind_some, skipWs_append hw₁,
      skipWs_cons (by decide)]
    rfl

/-- The span of an element in front of others. -/
theorem spans_next_elem (h : Spans used v) (hmore : SpansElems more es)
    (hw₀ : ∀ c ∈ w₀, isWs c = true)
    (hw₁ : ∀ c ∈ w₁, isWs c = true) : SpansElems (w₀ ++ (used ++ (w₁ ++ ',' :: more)))
      (.cons v es) := by
  refine ⟨by simp, ?_, fun m tail hm => ?_⟩
  · have hsize := h.size
    have hsize' := hmore.size
    simp only [Elems.size, List.length_append, List.length_cons]
    omega
  · simp only [Elems.size] at hm
    obtain ⟨m, rfl⟩ : ∃ n, m = n + 1 := ⟨m - 1, by omega⟩
    have hread := h.reads m (w₁ ++ ',' :: (more ++ tail)) (by omega) (follow_ws hw₁ (by decide) _)
    simp only [List.append_assoc, List.cons_append]
    rw [parseElems, parseValue_skipAll hw₀, hread, Option.bind_some, skipWs_append hw₁,
      skipWs_cons (by decide)]
    simp only [hmore.reads m tail (by omega), Option.map_some]

/-- The front of a member, up to its value. -/
theorem parseMembers_front (hk : rawOk k = true) (hw₀ : ∀ c ∈ w₀, isWs c = true)
    (hw₁ : ∀ c ∈ w₁, isWs c = true) (m : Nat) (cs : List Char) :
    parseMembers (m + 1) (w₀ ++ '"' :: (k ++ '"' :: (w₁ ++ ':' :: cs))) =
      (parseValue m cs).bind fun r =>
        match skipWs r.2 with
        | '}' :: rest => some (.cons k r.1 .nil, rest)
        | ',' :: rest => (parseMembers m rest).map fun q => (.cons k r.1 q.1, q.2)
        | _ => none := by
  rw [parseMembers, skipWs_append hw₀, skipWs_cons (by decide)]
  simp only
  rw [lexString_append hk, Option.bind_some, skipWs_append hw₁, skipWs_cons (by decide)]
  rfl

/-- The span of the last member: key, colon, value and the closing brace. -/
theorem spans_last_member (hk : rawOk k = true) (h : Spans used v) (hw₀ : ∀ c ∈ w₀, isWs c = true)
    (hw₁ : ∀ c ∈ w₁, isWs c = true) (hw₂ : ∀ c ∈ w₂, isWs c = true)
    (hw₃ : ∀ c ∈ w₃, isWs c = true) :
    SpansMembers (w₀ ++ '"' :: (k ++ '"' :: (w₁ ++ ':' :: (w₂ ++ (used ++ (w₃ ++ ['}']))))))
      (.cons k v .nil) := by
  refine ⟨by simp, ?_, fun m tail hm => ?_⟩
  · have hsize := h.size
    simp only [Members.size, List.length_append, List.length_cons]
    omega
  · simp only [Members.size] at hm
    obtain ⟨m, rfl⟩ : ∃ n, m = n + 1 := ⟨m - 1, by omega⟩
    have hread := h.reads m (w₃ ++ '}' :: tail) (by omega) (follow_ws hw₃ (by decide) tail)
    simp only [List.append_assoc, List.cons_append, List.nil_append]
    rw [parseMembers_front hk hw₀ hw₁, parseValue_skipAll hw₂, hread, Option.bind_some,
      skipWs_append hw₃, skipWs_cons (by decide)]
    rfl

/-- The span of a member in front of others. -/
theorem spans_next_member (hk : rawOk k = true) (h : Spans used v) (hmore : SpansMembers more ms)
    (hw₀ : ∀ c ∈ w₀, isWs c = true) (hw₁ : ∀ c ∈ w₁, isWs c = true) (hw₂ : ∀ c ∈ w₂, isWs c = true)
    (hw₃ : ∀ c ∈ w₃, isWs c = true) :
    SpansMembers (w₀ ++ '"' :: (k ++ '"' :: (w₁ ++ ':' :: (w₂ ++ (used ++ (w₃ ++ ',' :: more))))))
      (.cons k v ms) := by
  refine ⟨by simp, ?_, fun m tail hm => ?_⟩
  · have hsize := h.size
    have hsize' := hmore.size
    simp only [Members.size, List.length_append, List.length_cons]
    omega
  · simp only [Members.size] at hm
    obtain ⟨m, rfl⟩ : ∃ n, m = n + 1 := ⟨m - 1, by omega⟩
    have hread := h.reads m (w₃ ++ ',' :: (more ++ tail)) (by omega) (follow_ws hw₃ (by decide) _)
    simp only [List.append_assoc, List.cons_append]
    rw [parseMembers_front hk hw₀ hw₁, parseValue_skipAll hw₂, hread, Option.bind_some,
      skipWs_append hw₃, skipWs_cons (by decide)]
    simp only [hmore.reads m tail (by omega), Option.map_some]

end Items

/-! ## 3. What is read spans its value

The converse: one lemma for each parser, proved together by induction on the fuel. -/

theorem spans_str {raw : List Char} (h : rawOk raw = true) :
    Spans ('"' :: (raw ++ ['"'])) (.str raw) := by
  have hwf : (Value.str raw).wf = true := h
  have hspan := spans_print hwf
  rwa [print] at hspan

/-- Brackets with white space between them. -/
theorem spans_empty {w : List Char} (hw : ∀ c ∈ w, isWs c = true) :
    Spans ('{' :: (w ++ ['}'])) (.obj .nil) ∧ Spans ('[' :: (w ++ [']'])) (.arr .nil) := by
  have hread : ∀ (m : Nat) (tail : List Char), 1 ≤ m →
      parseValue m ('{' :: (w ++ '}' :: tail)) = some (.obj .nil, tail) ∧
        parseValue m ('[' :: (w ++ ']' :: tail)) = some (.arr .nil, tail) := by
    intro m tail hm
    obtain ⟨m, rfl⟩ : ∃ n, m = n + 1 := ⟨m - 1, by omega⟩
    constructor
    · rw [parseValue, skipWs_cons (by decide)]
      simp only
      rw [skipWs_append hw, skipWs_cons (by decide)]
      rfl
    · rw [parseValue, skipWs_cons (by decide)]
      simp only
      rw [skipWs_append hw, skipWs_cons (by decide)]
      rfl
  constructor
  · refine ⟨by simp [Value.size, Members.size]; omega, ⟨_, _, rfl, by decide⟩,
      fun m tail hm _ => ?_⟩
    rw [List.cons_append, List.append_assoc, List.singleton_append]
    exact (hread m tail hm).1
  · refine ⟨by simp [Value.size, Elems.size]; omega, ⟨_, _, rfl, by decide⟩, fun m tail hm _ => ?_⟩
    rw [List.cons_append, List.append_assoc, List.singleton_append]
    exact (hread m tail hm).2

/-- What comes behind an opening bracket, when it is not the closing one. -/
theorem behind_open {cs used rest : List Char} {b : Char} (hused : skipWs cs = used ++ rest)
    (hne : used ≠ [])
    (hopen : ∀ rest', skipWs cs ≠ b :: rest') : ∃ c cs', used = c :: cs' ∧ isWs c = false ∧
      c ≠ b := by
  cases used with
  | nil => exact absurd rfl hne
  | cons c cs' =>
    rw [List.cons_append] at hused
    refine ⟨c, cs', rfl, skipWs_head hused, ?_⟩
    rintro rfl
    exact hopen _ hused

mutual

/-- **What is read as a value spans it.**  By induction on the fuel, with the same for elements and
members.  In each case the text that was used falls into the texts of the parts and white space, and
the production of §2 puts the span together. -/
theorem parseValue_spans : ∀ (n : Nat) {cs : List Char} {v : Value} {rest : List Char},
    parseValue n cs = some (v, rest) → ∃ used, skipWs cs = used ++ rest ∧ Spans used v
  | 0, _, _, _, h => by simp [parseValue] at h
  | n + 1, cs, v, rest, h => by
    rw [parseValue] at h
    split at h
    · rename_i cs₁ hcs
      obtain ⟨w, hw, hall⟩ := skipWs_split cs₁
      split at h
      · rename_i rest' hclose
        simp only [Option.some.injEq, Prod.mk.injEq] at h
        obtain ⟨rfl, rfl⟩ := h
        refine ⟨'{' :: (w ++ ['}']), ?_, (spans_empty hall).1⟩
        rw [hcs, show cs₁ = w ++ '}' :: rest' from hclose ▸ hw]
        simp
      · rename_i hopen
        obtain ⟨⟨items, rest'⟩, hitems, heq⟩ := Option.map_eq_some_iff.mp h
        simp only [Prod.mk.injEq] at heq
        obtain ⟨rfl, rfl⟩ := heq
        obtain ⟨used, hused, hspans⟩ := parseMembers_spans n hitems
        refine ⟨'{' :: (w ++ used), ?_, spans_obj hspans hall (behind_open hused hspans.ne hopen)⟩
        rw [hcs, show cs₁ = w ++ (used ++ rest') from hused ▸ hw]
        simp
    · rename_i cs₁ hcs
      obtain ⟨w, hw, hall⟩ := skipWs_split cs₁
      split at h
      · rename_i rest' hclose
        simp only [Option.some.injEq, Prod.mk.injEq] at h
        obtain ⟨rfl, rfl⟩ := h
        refine ⟨'[' :: (w ++ [']']), ?_, (spans_empty hall).2⟩
        rw [hcs, show cs₁ = w ++ ']' :: rest' from hclose ▸ hw]
        simp
      · rename_i hopen
        obtain ⟨⟨items, rest'⟩, hitems, heq⟩ := Option.map_eq_some_iff.mp h
        simp only [Prod.mk.injEq] at heq
        obtain ⟨rfl, rfl⟩ := heq
        obtain ⟨used, hused, hspans⟩ := parseElems_spans n hitems
        refine ⟨'[' :: (w ++ used), ?_, spans_arr hspans hall (behind_open hused hspans.ne hopen)⟩
        rw [hcs, show cs₁ = w ++ (used ++ rest') from hused ▸ hw]
        simp
    · obtain ⟨⟨raw, rest'⟩, hr, heq⟩ := Option.map_eq_some_iff.mp h
      rename_i cs₁ hcs
      simp only [Prod.mk.injEq] at heq
      obtain ⟨rfl, rfl⟩ := heq
      obtain ⟨hok, rfl⟩ := lexString_spec hr
      exact ⟨'"' :: (raw ++ ['"']), by rw [hcs]; simp, spans_str hok⟩
    · rename_i rest' hcs
      simp only [Option.some.injEq, Prod.mk.injEq] at h
      obtain ⟨rfl, rfl⟩ := h
      exact ⟨_, hcs, spans_print (v := .null) rfl⟩
    · rename_i rest' hcs
      simp only [Option.some.injEq, Prod.mk.injEq] at h
      obtain ⟨rfl, rfl⟩ := h
      exact ⟨_, hcs, spans_print (v := .bool true) rfl⟩
    · rename_i rest' hcs
      simp only [Option.some.injEq, Prod.mk.injEq] at h
      obtain ⟨rfl, rfl⟩ := h
      exact ⟨_, hcs, spans_print (v := .bool false) rfl⟩
    · obtain ⟨⟨lit, rest'⟩, hr, heq⟩ := Option.map_eq_some_iff.mp h
      simp only [Prod.mk.injEq] at heq
      obtain ⟨rfl, rfl⟩ := heq
      refine ⟨lit, ?_, spans_print (v := .num lit) (lexNumber_spec hr)⟩
      rw [lexNumber] at hr
      split at hr
      · simp only [Option.some.injEq, Prod.mk.injEq] at hr
        rw [← hr.1, ← hr.2, List.takeWhile_append_dropWhile]
      · cases hr

/-- What the parser of elements has read is a span of them.  The white space that was skipped is put
back into the span on both sides of each element. -/
theorem parseElems_spans : ∀ (n : Nat) {cs : List Char} {es : Elems} {rest : List Char},
    parseElems n cs = some (es, rest) → ∃ used, cs = used ++ rest ∧ SpansElems used es
  | 0, _, _, _, h => by simp [parseElems] at h
  | n + 1, cs, es, rest, h => by
    rw [parseElems] at h
    obtain ⟨⟨v, rest₁⟩, hr, h⟩ := Option.bind_eq_some_iff.mp h
    obtain ⟨used, hused, hv⟩ := parseValue_spans n hr
    obtain ⟨w₀, hcs, hw₀⟩ := skipWs_split cs
    obtain ⟨w₁, hw₁, hall₁⟩ := skipWs_split rest₁
    rw [hused] at hcs
    dsimp only at h
    split at h
    · rename_i rest' hclose
      simp only [Option.some.injEq, Prod.mk.injEq] at h
      obtain ⟨rfl, rfl⟩ := h
      refine ⟨w₀ ++ (used ++ (w₁ ++ [']'])), ?_, spans_last_elem hv hw₀ hall₁⟩
      rw [hcs, show rest₁ = w₁ ++ ']' :: rest' from hclose ▸ hw₁]
      simp
    · rename_i rest' hcomma
      obtain ⟨⟨es', rest''⟩, hq, heq⟩ := Option.map_eq_some_iff.mp h
      simp only [Prod.mk.injEq] at heq
      obtain ⟨rfl, rfl⟩ := heq
      obtain ⟨more, rfl, hmore⟩ := parseElems_spans n hq
      refine ⟨w₀ ++ (used ++ (w₁ ++ ',' :: more)), ?_, spans_next_elem hv hmore hw₀ hall₁⟩
      rw [hcs, show rest₁ = w₁ ++ ',' :: (more ++ rest'') from hcomma ▸ hw₁]
      simp
    · cases h

/-- What the parser of members has read is a span of them. -/
theorem parseMembers_spans : ∀ (n : Nat) {cs : List Char} {ms : Members} {rest : List Char},
    parseMembers n cs = some (ms, rest) → ∃ used, cs = used ++ rest ∧ SpansMembers used ms
  | 0, _, _, _, h => by simp [parseMembers] at h
  | n + 1, cs, ms, rest, h => by
    rw [parseMembers] at h
    obtain ⟨w₀, hcs, hw₀⟩ := skipWs_split cs
    split at h
    · rename_i cs₁ hquote
      rw [hquote] at hcs
      obtain ⟨⟨k, rest₁⟩, hk, h⟩ := Option.bind_eq_some_iff.mp h
      obtain ⟨hok, hcs₁⟩ := lexString_spec hk
      obtain ⟨w₁, hrest₁, hw₁⟩ := skipWs_split rest₁
      dsimp only at h
      split at h
      · rename_i cs₂ hcolon
        rw [hcolon] at hrest₁
        obtain ⟨⟨v, rest₂⟩, hr, h⟩ := Option.bind_eq_some_iff.mp h
        obtain ⟨used, hused, hv⟩ := parseValue_spans n hr
        obtain ⟨w₂, hcs₂, hw₂⟩ := skipWs_split cs₂
        rw [hused] at hcs₂
        obtain ⟨w₃, hrest₂, hw₃⟩ := skipWs_split rest₂
        dsimp only at h
        split at h
        · rename_i rest' hclose
          simp only [Option.some.injEq, Prod.mk.injEq] at h
          obtain ⟨rfl, rfl⟩ := h
          rw [hclose] at hrest₂
          refine ⟨_, ?_, spans_last_member hok hv hw₀ hw₁ hw₂ hw₃⟩
          rw [hcs, hcs₁, hrest₁, hcs₂, hrest₂]
          simp
        · rename_i rest' hcomma
          obtain ⟨⟨ms', rest''⟩, hq, heq⟩ := Option.map_eq_some_iff.mp h
          simp only [Prod.mk.injEq] at heq
          obtain ⟨rfl, rfl⟩ := heq
          obtain ⟨more, rfl, hmore⟩ := parseMembers_spans n hq
          rw [hcomma] at hrest₂
          refine ⟨_, ?_, spans_next_member hok hv hmore hw₀ hw₁ hw₂ hw₃⟩
          rw [hcs, hcs₁, hrest₁, hcs₂, hrest₂]
          simp
        · cases h
      · cases h
    · cases h

end

/-! ## 4. The members of an object as they were written -/

/-- Parse one or more members and keep the texts of their values. -/
def rawMembers : Nat → List Char → Option (List (List Char × List Char))
  | 0, _ => none
  | n + 1, cs =>
    match skipWs cs with
    | '"' :: cs =>
      (lexString cs).bind fun k =>
        match skipWs k.2 with
        | ':' :: cs =>
          (parseValue n cs).bind fun r =>
            let text := (skipWs cs).take ((skipWs cs).length - r.2.length)
            match skipWs r.2 with
            | '}' :: _ => some [(k.1, text)]
            | ',' :: rest => (rawMembers n rest).map fun q => (k.1, text) :: q
            | _ => none
        | _ => none
    | _ => none

/-- The members of the object that a text is, with the texts of their values. -/
def rawObject (cs : List Char) : Option (List (List Char × List Char)) :=
  match parse cs with
  | some (.obj .nil) => some []
  | some (.obj _) =>
    match skipWs cs with
    | '{' :: rest => rawMembers (2 * cs.length + 1) (skipWs rest)
    | _ => none
  | _ => none

/-- The texts spell the values of the members. -/
inductive Spells : List (List Char × List Char) → Members → Prop
  | nil : Spells [] .nil
  | cons {k t : List Char} {v : Value} {l : List (List Char × List Char)} {ms : Members} :
    parse t = some v → Spells l ms → Spells ((k, t) :: l) (.cons k v ms)

theorem Spans.parse {t : List Char} {v : Value} (h : Spans t v) (hd : v.depth ≤ maxDepth) :
    parse t = some v := by
  have hread := h.reads (2 * t.length + 2) [] (by have := h.size; omega) follow_nil
  rw [List.append_nil] at hread
  rw [Lib.Json.parse, parseFirst, hread, Option.bind_some, if_pos hd, Option.bind_some]
  rfl

theorem take_span {cs used rest : List Char} (h : cs = used ++ rest) :
    cs.take (cs.length - rest.length) = used := by
  rw [h, List.length_append, Nat.add_sub_cancel, List.take_left]

/-- **The raw members of an object are the texts of its values.**  Each is cut out of the input as
the span that the parser has read, and a span parses to its value with nothing behind it. -/
theorem rawMembers_spec : ∀ (n : Nat) {cs : List Char} {ms : Members} {rest : List Char},
    parseMembers n cs = some (ms, rest) → ms.depth ≤ maxDepth → ∃ l, rawMembers n cs = some l ∧
    Spells l ms
  | 0, _, _, _, h, _ => by simp [parseMembers] at h
  | n + 1, cs, ms, rest, h, hd => by
    rw [parseMembers] at h
    split at h
    · rename_i cs₁ hquote
      obtain ⟨⟨k, rest₁⟩, hk, h⟩ := Option.bind_eq_some_iff.mp h
      split at h
      · rename_i cs₂ hcolon
        obtain ⟨⟨v, rest₂⟩, hr, h⟩ := Option.bind_eq_some_iff.mp h
        obtain ⟨used, hused, hv⟩ := parseValue_spans n hr
        have htext := take_span hused
        split at h
        · rename_i rest' hclose
          simp only [Option.some.injEq, Prod.mk.injEq] at h
          obtain ⟨rfl, rfl⟩ := h
          refine ⟨[(k, used)], ?_, .cons (hv.parse ((le_max_left _ _).trans hd)) .nil⟩
          simp only [rawMembers, hquote, hk, Option.bind_some, hcolon, hr, hclose, htext]
        · rename_i rest' hcomma
          obtain ⟨⟨ms', rest''⟩, hq, heq⟩ := Option.map_eq_some_iff.mp h
          simp only [Prod.mk.injEq] at heq
          obtain ⟨rfl, rfl⟩ := heq
          obtain ⟨l, hl, hspells⟩ := rawMembers_spec n hq ((le_max_right _ _).trans hd)
          refine ⟨(k, used) :: l, ?_, .cons (hv.parse ((le_max_left _ _).trans hd)) hspells⟩
          simp only [rawMembers, hquote, hk, Option.bind_some, hcolon, hr, hcomma, htext, hl,
            Option.map_some]
        · cases h
      · cases h
    · cases h

/-- What is read as an object starts with a brace. -/
theorem parse_obj {cs : List Char} {ms : Members} (h : parse cs = some (.obj ms)) :
    ∃ rest, skipWs cs = '{' :: rest ∧
      (ms = .nil ∨ ∃ rest', parseMembers (2 * cs.length + 1) (skipWs rest) = some (ms, rest')) := by
  obtain ⟨⟨v', rest⟩, hfirst, hv⟩ := Option.bind_eq_some_iff.mp h
  obtain ⟨⟨v'', rest'⟩, hvalue, hbound⟩ := Option.bind_eq_some_iff.mp hfirst
  have hread : parseValue (2 * cs.length + 1 + 1) cs = some (.obj ms, rest) := by
    split at hbound
    · split at hv
      · cases hbound
        cases hv
        exact hvalue
      · cases hv
    · cases hbound
  rw [parseValue] at hread
  split at hread
  · rename_i cs₁ hcs
    refine ⟨cs₁, hcs, ?_⟩
    split at hread
    · cases hread
      exact .inl rfl
    · obtain ⟨⟨items, rest'⟩, hitems, heq⟩ := Option.map_eq_some_iff.mp hread
      cases heq
      exact .inr ⟨_, hitems⟩
  · split at hread
    · cases hread
    · obtain ⟨_, _, heq⟩ := Option.map_eq_some_iff.mp hread
      cases heq
  · obtain ⟨_, _, heq⟩ := Option.map_eq_some_iff.mp hread
    cases heq
  · cases hread
  · cases hread
  · cases hread
  · obtain ⟨_, _, heq⟩ := Option.map_eq_some_iff.mp hread
    cases heq

/-- **The members of an object are there as they were written**, and each of them is read by itself
as the object has it.  The text of a member is the difference of two rests, which is what its value
spans. -/
theorem rawObject_spec {cs : List Char} {ms : Members} (h : parse cs = some (.obj ms)) :
    ∃ l, rawObject cs = some l ∧ Spells l ms := by
  have hdepth := (parse_spec h).2
  obtain ⟨rest, hcs, hms⟩ := parse_obj h
  unfold rawObject
  rw [h]
  cases ms with
  | nil => exact ⟨[], rfl, .nil⟩
  | cons k v ms =>
    rcases hms with hms | ⟨rest', hread⟩
    · cases hms
    · obtain ⟨l, hl, hspells⟩ := rawMembers_spec _ hread (Nat.le_of_succ_le hdepth)
      refine ⟨l, ?_, hspells⟩
      simp only [hcs]
      exact hl

/-- Only an object has members. -/
theorem rawObject_eq_some {cs : List Char} {l : List (List Char × List Char)}
    (h : rawObject cs = some l) : ∃ ms, parse cs = some (.obj ms) ∧ Spells l ms := by
  have hobj : ∃ ms, parse cs = some (.obj ms) := by
    unfold rawObject at h
    split at h
    · exact ⟨_, ‹_›⟩
    · exact ⟨_, ‹_›⟩
    · cases h
  obtain ⟨ms, hms⟩ := hobj
  obtain ⟨l', hl', hspells⟩ := rawObject_spec hms
  rw [h] at hl'
  cases hl'
  exact ⟨ms, hms, hspells⟩

end Lib.Json
