/-
# What the texts of a JSON value say

A JSON value that stands inside another text is safe there when its strings are: every pattern
that has a letter which JSON uses only in strings, and no quote, occurs in the compact text exactly
when it occurs in one of the strings (`infix_print`).  Encoding a string neither hides such a
pattern nor makes one up (`infix_quote`, `infix_escapeHtml`), and what it encodes is read back
(`unquote_quote`, `unquote_escapeHtml`).

The last three sections are about the other direction, a text that is read as JSON although it was
cut out of a larger one: it has no line that starts with `<` (`parse_calm`), and a piece of a
compact text that begins inside a string does not read on past the end of that string
(`after_quote`).

## Why patterns can be traced through JSON

The code keeps JSON inside free text and finds it again by searching for fixed patterns.  Whether
such a search can go wrong depends on what the JSON can say, and its strings can say anything.  The
three facts that decide it are about one letter each:

* outside of strings a JSON text consists of few letters (`isStructural`), so a pattern with any
  other letter lies in a string, or reaches into one; and with no quote in it, it lies in one string
  as a whole (§2);
* an escape consists of few letters as well (`isEscapeTail`), so a pattern that begins with another
  one is never made up of an escape and its neighbours (§3);
* a string never has a bare line break, so a line that starts inside the text starts between two
  tokens, where no `<` can stand (§6).

Each section has a relation that is closed under the ways to write a value, `Says`, `Eats` and
`Closes`, one induction over the tree or the parser for it, and a main theorem.
-/
import PveCpi.Lib.Json
import PveCpi.Lib.Occurs

namespace Lib.Json

open Lib.Occurs

/-! ## 1. The strings of a value -/

mutual

/-- The strings and keys of a value, as the tree has them. -/
def Value.texts : Value → List (List Char)
  | .null | .bool _ | .num _ => []
  | .str s => [s]
  | .arr es => es.texts
  | .obj ms => ms.texts

def Elems.texts : Elems → List (List Char)
  | .nil => []
  | .cons v es => v.texts ++ es.texts

def Members.texts : Members → List (List Char)
  | .nil => []
  | .cons k v ms => k :: (v.texts ++ ms.texts)

end

mutual

theorem Value.texts_mapStr (f : List Char → List Char) :
    ∀ v : Value, (v.mapStr f).texts = v.texts.map f
  | .null | .bool _ | .num _ | .str _ => rfl
  | .arr es => Elems.texts_mapStr f es
  | .obj ms => Members.texts_mapStr f ms

theorem Elems.texts_mapStr (f : List Char → List Char) :
    ∀ es : Elems, (es.mapStr f).texts = es.texts.map f
  | .nil => rfl
  | .cons v es => by
    rw [Elems.mapStr, Elems.texts, Elems.texts, List.map_append, Value.texts_mapStr f v,
      Elems.texts_mapStr f es]

theorem Members.texts_mapStr (f : List Char → List Char) :
    ∀ ms : Members, (ms.mapStr f).texts = ms.texts.map f
  | .nil => rfl
  | .cons k v ms => by
    rw [Members.mapStr, Members.texts, Members.texts, List.map_cons, List.map_append,
      Value.texts_mapStr f v, Members.texts_mapStr f ms]

end

mutual

/-- The strings of a well-formed value can be written. -/
theorem Value.rawOk_texts : ∀ v : Value, v.wf = true → ∀ t ∈ v.texts, rawOk t = true
  | .null, _, _, ht | .bool _, _, _, ht | .num _, _, _, ht => absurd ht List.not_mem_nil
  | .str s, h, t, ht => by
    rw [List.mem_singleton.mp ht]
    exact h
  | .arr es, h, t, ht => Elems.rawOk_texts es h t ht
  | .obj ms, h, t, ht => Members.rawOk_texts ms h t ht

theorem Elems.rawOk_texts : ∀ es : Elems, es.wf = true → ∀ t ∈ es.texts, rawOk t = true
  | .nil, _, _, ht => absurd ht List.not_mem_nil
  | .cons v es, h, t, ht => by
    rw [Elems.wf, Bool.and_eq_true] at h
    rcases List.mem_append.mp ht with ht | ht
    · exact Value.rawOk_texts v h.1 t ht
    · exact Elems.rawOk_texts es h.2 t ht

theorem Members.rawOk_texts : ∀ ms : Members, ms.wf = true → ∀ t ∈ ms.texts, rawOk t = true
  | .nil, _, _, ht => absurd ht List.not_mem_nil
  | .cons k v ms, h, t, ht => by
    rw [Members.wf, Bool.and_eq_true, Bool.and_eq_true] at h
    rcases List.mem_cons.mp ht with rfl | ht
    · exact h.1.1
    · rcases List.mem_append.mp ht with ht | ht
      · exact Value.rawOk_texts v h.1.2 t ht
      · exact Members.rawOk_texts ms h.2 t ht

end

/-! ## 2. Patterns in the compact text

`Says p cs texts` allows any structural text in front, which makes it compose: between two strings
there are only brackets, commas and colons, and the pattern cannot use them. -/

/-- The letters that JSON has outside of strings. -/
def isStructural (c : Char) : Bool :=
  c == '{' || c == '}' || c == '[' || c == ']' || c == ',' || c == ':' || isNumChar c ||
  c ∈ ['t', 'r', 'u', 'f', 'a', 'l', 's', 'n']

section Pattern

variable {p : List Char} {z : Char}

/-- Behind any structural text, the pattern occurs in `cs` exactly when it occurs in one of the
texts. -/
def Says (p : List Char) (cs : List Char) (texts : List (List Char)) : Prop :=
  ∀ front : List Char, (∀ c ∈ front, isStructural c = true) →
    (p <:+: front ++ cs ↔ ∃ t ∈ texts, p <:+: t)

theorem not_infix_structural (hz : z ∈ p) (hs : isStructural z = false) {cs : List Char}
    (h : ∀ c ∈ cs, isStructural c = true) : ¬p <:+: cs := by
  intro hin
  have hstruct := h z (hin.subset hz)
  rw [hs] at hstruct
  cases hstruct

theorem says_nil (hz : z ∈ p) (hs : isStructural z = false) : Says p [] [] := by
  intro front hfront
  rw [List.append_nil]
  exact iff_of_false (not_infix_structural hz hs hfront) (by simp)

theorem Says.structural {cs front : List Char} {texts : List (List Char)} (h : Says p cs texts)
    (hfront : ∀ c ∈ front, isStructural c = true) : Says p (front ++ cs) texts := by
  intro front' hfront'
  rw [← List.append_assoc]
  refine h _ fun c hc => ?_
  rcases List.mem_append.mp hc with hc | hc
  · exact hfront' c hc
  · exact hfront c hc

theorem Says.cons {cs : List Char} {c : Char} {texts : List (List Char)} (h : Says p cs texts)
    (hc : isStructural c = true) : Says p (c :: cs) texts := by
  have hone := h.structural fun d (hd : d ∈ [c]) => by rwa [List.mem_singleton.mp hd]
  simpa using hone

theorem Says.string (hz : z ∈ p) (hs : isStructural z = false) (hq : '"' ∉ p) {cs r : List Char}
    {texts : List (List Char)} (h : Says p cs texts) :
    Says p ('"' :: (r ++ '"' :: cs)) (r :: texts) := by
  intro front hfront
  have hrest := h [] (by simp)
  rw [List.nil_append] at hrest
  rw [infix_append_cons hq, infix_append_cons hq, hrest, List.exists_mem_cons_iff]
  constructor
  · rintro (hin | hin)
    · exact absurd hin (not_infix_structural hz hs hfront)
    · exact hin
  · exact .inr

theorem isStructural_of_number {c : Char} (h : isNumChar c = true) : isStructural c = true := by
  simp [isStructural, h]

mutual

/-- A value says what its texts say.  By recursion on the value: punctuation and numbers are
structural, so they add nothing to what is said, and a string adds itself. -/
theorem says_print (hz : z ∈ p) (hs : isStructural z = false) (hq : '"' ∉ p) :
    ∀ (v : Value), v.wf = true → ∀ {cs : List Char} {texts : List (List Char)},
      Says p cs texts → Says p (print v ++ cs) (v.texts ++ texts)
  | .null, _, cs, texts, h => h.structural (Lib.Text.forall_of_all (by decide))
  | .bool true, _, cs, texts, h => h.structural (Lib.Text.forall_of_all (by decide))
  | .bool false, _, cs, texts, h => h.structural (Lib.Text.forall_of_all (by decide))
  | .num lit, hwf, cs, texts, h => by
    refine h.structural fun c hc => isStructural_of_number ?_
    have hall : lit.all isNumChar = true := by
      simp only [Value.wf, isNumber, Bool.and_eq_true] at hwf
      exact hwf.1
    exact List.all_eq_true.mp hall c hc
  | .str raw, _, cs, texts, h => by
    have := h.string (r := raw) hz hs hq
    simpa [print, Value.texts] using this
  | .arr .nil, _, cs, texts, h => h.structural (Lib.Text.forall_of_all (by decide))
  | .arr (.cons v es), hwf, cs, texts, h => by
    rw [print, List.cons_append]
    exact (says_printElems hz hs hq (.cons v es) hwf h).cons (by decide)
  | .obj .nil, _, cs, texts, h => h.structural (Lib.Text.forall_of_all (by decide))
  | .obj (.cons k v ms), hwf, cs, texts, h => by
    rw [print, List.cons_append]
    exact (says_printMembers hz hs hq (.cons k v ms) hwf h).cons (by decide)

/-- The elements of an array say what their texts say, one behind the other. -/
theorem says_printElems (hz : z ∈ p) (hs : isStructural z = false) (hq : '"' ∉ p) :
    ∀ (es : Elems), es.wf = true →
    ∀ {cs : List Char} {texts : List (List Char)}, Says p cs texts →
      Says p (printElems es ++ cs) (es.texts ++ texts)
  | .nil, _, cs, texts, h => h
  | .cons v .nil, hwf, cs, texts, h => by
    rw [Elems.wf, Bool.and_eq_true] at hwf
    rw [printElems, Elems.texts, Elems.texts, List.append_nil, List.append_assoc]
    exact says_print hz hs hq v hwf.1 (h.cons (by decide))
  | .cons v (.cons w es), hwf, cs, texts, h => by
    rw [Elems.wf, Bool.and_eq_true] at hwf
    rw [printElems, Elems.texts, List.append_assoc, List.append_assoc, List.cons_append]
    exact says_print hz hs hq v hwf.1
      ((says_printElems hz hs hq (.cons w es) hwf.2 h).cons (by decide))

/-- The members of an object say what their keys and values say, in order. -/
theorem says_printMembers (hz : z ∈ p) (hs : isStructural z = false) (hq : '"' ∉ p) :
    ∀ (ms : Members), ms.wf = true →
    ∀ {cs : List Char} {texts : List (List Char)}, Says p cs texts →
      Says p (printMembers ms ++ cs) (ms.texts ++ texts)
  | .nil, _, cs, texts, h => h
  | .cons k v .nil, hwf, cs, texts, h => by
    simp only [Members.wf, Bool.and_eq_true] at hwf
    have hv := says_print hz hs hq v hwf.1.2 (h.cons (c := '}') (by decide))
    have := (hv.cons (c := ':') (by decide)).string (r := k) hz hs hq
    simpa [printMembers, Members.texts] using this
  | .cons k v (.cons k' v' ms), hwf, cs, texts, h => by
    rw [Members.wf, Bool.and_eq_true, Bool.and_eq_true] at hwf
    have hms := says_printMembers hz hs hq (.cons k' v' ms) hwf.2 h
    have hv := says_print hz hs hq v hwf.1.2 (hms.cons (c := ',') (by decide))
    have := (hv.cons (c := ':') (by decide)).string (r := k) hz hs hq
    rw [printMembers, Members.texts]
    simpa using this

end

/-- **A pattern occurs in the compact text when it occurs in a string of the value.**  The letter
`z` forces an occurrence to touch a string, and since the pattern has no quote it cannot leave
it. -/
theorem infix_print (hz : z ∈ p) (hs : isStructural z = false) (hq : '"' ∉ p) {v : Value}
    (hwf : v.wf = true) : p <:+: print v ↔ ∃ t ∈ v.texts, p <:+: t := by
  have h := says_print hz hs hq v hwf (says_nil hz hs) [] (by simp)
  simpa using h

end Pattern

/-! ## 3. Patterns in encoded strings

`Escapes` is the condition on one letter; `infix_flatMap` is the induction over the string.  The
pattern must have no backslash, else it could be found across the border of an escape. -/

section Escape

variable {f : Char → List Char} {h : Char} {p : List Char}

/-- A letter is left alone, or it becomes an escape that has nothing of the pattern. -/
def Escapes (f : Char → List Char) (h : Char) (p : List Char) (c : Char) : Prop :=
  f c = [c] ∨ c ∉ h :: p ∧ ∃ tail, f c = '\\' :: tail ∧ h ∉ tail

/-- **Escaping neither hides nor makes a pattern.**  A character that the pattern has is written as
it is, and one that is escaped becomes a backslash with a tail in which the pattern cannot start.
The induction carries the text that is already in front. -/
theorem infix_flatMap (hp : '\\' ∉ h :: p) {s : List Char} (hf : ∀ c ∈ s, Escapes f h p c) :
    h :: p <:+: s.flatMap f ↔ h :: p <:+: s := by
  have hgen : ∀ front : List Char, h :: p <:+: front ++ s.flatMap f ↔ h :: p <:+: front ++ s := by
    induction s with
    | nil => intro front; rfl
    | cons c s ih =>
      intro front
      have ih' := ih fun d hd => hf d (List.mem_cons_of_mem _ hd)
      rcases hf c List.mem_cons_self with hc | ⟨hc, tail, htail, hh⟩
      · have := ih' (front ++ [c])
        simpa [List.flatMap_cons, hc] using this
      · have hrest := ih' []
        rw [List.nil_append, List.nil_append] at hrest
        rw [List.flatMap_cons, htail, List.cons_append, infix_append_cons hp,
          infix_append_cons hc, infix_append_of_head_notMem hh, hrest]
  have := hgen []
  rwa [List.nil_append, List.nil_append] at this

/-- The letters of an escape behind its backslash. -/
def isEscapeTail (c : Char) : Bool := isHex c || isEscape c || c == 'u'

/-- The three characters of HTML are written with a tail of letters and digits. -/
theorem escapes_html (hh : isEscapeTail h = false) (hp : ∀ c ∈ h :: p, isHtml c = false)
    (c : Char) : Escapes htmlEscape h p c := by
  by_cases hc : isHtml c = true
  · refine .inr ⟨fun hmem => ?_, ?_⟩
    · rw [hp c hmem] at hc
      cases hc
    · simp only [isHtml, Bool.or_eq_true, beq_iff_eq] at hc
      have hout : ∀ tail : List Char, tail.all isEscapeTail = true → h ∉ tail := by
        intro tail htail hmem
        rw [List.all_eq_true.mp htail h hmem] at hh
        cases hh
      rcases hc with (((rfl | rfl) | rfl) | rfl) | rfl <;>
        exact ⟨_, rfl, hout _ (by decide)⟩
  · exact .inl (htmlEscape_plain (by simpa using hc))

/-- **Compaction keeps the patterns of a string.**  The letters it replaces are not in the pattern,
and what it writes for them begins with a backslash and goes on with letters that the pattern does
not start with. -/
theorem infix_escapeHtml (hh : isEscapeTail h = false) (hp : ∀ c ∈ h :: p, isHtml c = false)
    (hb : '\\' ∉ h :: p) (s : List Char) : h :: p <:+: escapeHtml s ↔ h :: p <:+: s :=
  infix_flatMap hb fun c _ => escapes_html hh hp c

/-- A quoted character is itself, or a backslash with a tail in which the pattern cannot start. -/
theorem escapes_quote (hh : isEscapeTail h = false)
    (hp : ∀ c ∈ h :: p, isHtml c = false ∧ isPlain c = true) (c : Char) :
    Escapes quoteChar h p c := by
  have hout : ∀ tail : List Char, tail.all isEscapeTail = true → h ∉ tail := by
    intro tail htail hmem
    rw [List.all_eq_true.mp htail h hmem] at hh
    cases hh
  have hnot : isPlain c = false → c ∉ h :: p := by
    intro hc hmem
    rw [(hp c hmem).2] at hc
    cases hc
  unfold Escapes quoteChar
  split_ifs with h1 h2 h3 h4 h5 h6 h7 h8
  · rw [beq_iff_eq] at h1
    exact .inr ⟨hnot (by subst h1; decide), _, rfl, hout _ (by decide)⟩
  · rw [beq_iff_eq] at h2
    exact .inr ⟨hnot (by subst h2; decide), _, rfl, hout _ (by decide)⟩
  · rw [beq_iff_eq] at h3
    exact .inr ⟨hnot (by subst h3; decide), _, rfl, hout _ (by decide)⟩
  · rw [beq_iff_eq] at h4
    exact .inr ⟨hnot (by subst h4; decide), _, rfl, hout _ (by decide)⟩
  · rw [beq_iff_eq] at h5
    exact .inr ⟨hnot (by subst h5; decide), _, rfl, hout _ (by decide)⟩
  · rw [beq_iff_eq] at h6
    exact .inr ⟨hnot (by subst h6; decide), _, rfl, hout _ (by decide)⟩
  · rw [beq_iff_eq] at h7
    exact .inr ⟨hnot (by subst h7; decide), _, rfl, hout _ (by decide)⟩
  · have hn := toNat_lt_of_control h8
    have hd1 : isHex (hexDigit (c.toNat / 16)) = true := isHex_hexDigit (by omega)
    have hd2 : isHex (hexDigit (c.toNat % 16)) = true := isHex_hexDigit (by omega)
    have hz : isHex '0' = true := by decide
    refine .inr ⟨hnot ?_, _, rfl, hout _ ?_⟩
    · have : ¬ ' ' ≤ c := Char.not_le.mpr h8
      simp [isPlain, this]
    · simp [isEscapeTail, hd1, hd2, hz]
  · exact escapes_html hh (fun d hd => (hp d hd).1) c

/-- **Encoding a string keeps its patterns.**  As for compaction, with the larger set of letters
that the encoder replaces. -/
theorem infix_quote (hh : isEscapeTail h = false)
    (hp : ∀ c ∈ h :: p, isHtml c = false ∧ isPlain c = true) (s : List Char) :
    h :: p <:+: quote s ↔ h :: p <:+: s := by
  refine infix_flatMap (fun hmem => ?_) fun c _ => escapes_quote hh hp c
  have := (hp _ hmem).2
  exact absurd this (by decide)

end Escape

/-! ## 4. Reading encoded strings back

Surrogate pairs are the hard case: a code unit is decoded together with the next one, so reading is
not letter by letter.  Compaction writes no surrogate of its own, so a pair stays one. -/

theorem unquote_plain {c : Char} (h : c ≠ '\\') (cs : List Char) :
    unquote (c :: cs) = c :: unquote cs := by
  rw [unquote.eq_def]
  split
  · rename_i heq
    cases heq
  · rename_i heq
    exact absurd (List.cons.inj heq).1 h
  · rename_i heq
    exact absurd (List.cons.inj heq).1 h
  · rename_i heq
    cases heq
    rfl

theorem unquote_escape {e : Char} (h : e ≠ 'u') (cs : List Char) :
    unquote ('\\' :: e :: cs) = unescape e :: unquote cs := by
  rw [unquote]
  intro a b c d cs' he _
  exact h he

/-- The code unit is half of a surrogate pair. -/
def isSurrogate (n : Nat) : Bool := 0xD800 ≤ n && n < 0xE000

theorem unquote_unit {a b c d : Char} (h : isSurrogate (hex4 a b c d) = false) (cs : List Char) :
    unquote ('\\' :: 'u' :: a :: b :: c :: d :: cs) = Char.ofNat (hex4 a b c d) :: unquote cs := by
  unfold isSurrogate at h
  rw [unquote.eq_def]
  change ite _ _ _ = _
  rw [h, if_neg Bool.false_ne_true]

theorem unquote_htmlEscape {c : Char} (h : c ≠ '\\') (cs : List Char) :
    unquote (htmlEscape c ++ cs) = c :: unquote cs := by
  by_cases hc : isHtml c = true
  · simp only [isHtml, Bool.or_eq_true, beq_iff_eq] at hc
    rcases hc with (((rfl | rfl) | rfl) | rfl) | rfl <;> exact unquote_unit (by decide) cs
  · rw [htmlEscape_plain (by simpa using hc)]
    exact unquote_plain h cs

theorem hexVal_hexDigit {n : Nat} (h : n < 16) : hexVal (hexDigit n) = n := by
  have : ∀ m : Fin 16, hexVal (hexDigit m) = m := by decide
  exact this ⟨n, h⟩

/-- One character is read back from its quotation, whichever of its forms was written. -/
theorem unquote_quoteChar (c : Char) (cs : List Char) :
    unquote (quoteChar c ++ cs) = c :: unquote cs := by
  unfold quoteChar
  split_ifs with h1 h2 h3 h4 h5 h6 h7 h8
  · rw [beq_iff_eq] at h1
    subst h1
    exact unquote_escape (by decide) cs
  · rw [beq_iff_eq] at h2
    subst h2
    exact unquote_escape (by decide) cs
  · rw [beq_iff_eq] at h3
    subst h3
    exact unquote_escape (by decide) cs
  · rw [beq_iff_eq] at h4
    subst h4
    exact unquote_escape (by decide) cs
  · rw [beq_iff_eq] at h5
    subst h5
    exact unquote_escape (by decide) cs
  · rw [beq_iff_eq] at h6
    subst h6
    exact unquote_escape (by decide) cs
  · rw [beq_iff_eq] at h7
    subst h7
    exact unquote_escape (by decide) cs
  · have hn := toNat_lt_of_control h8
    have hunit : hex4 '0' '0' (hexDigit (c.toNat / 16)) (hexDigit (c.toNat % 16)) = c.toNat := by
      rw [hex4, hexVal_hexDigit (by omega), hexVal_hexDigit (by omega)]
      have hz : hexVal '0' = 0 := rfl
      rw [hz]
      omega
    have hplain : isSurrogate c.toNat = false := by
      simp only [isSurrogate, Bool.and_eq_false_iff, decide_eq_false_iff_not]
      omega
    have hread := unquote_unit (hunit ▸ hplain) cs
    rw [hunit, Char.ofNat_toNat] at hread
    exact hread
  · rw [beq_iff_eq] at h2
    exact unquote_htmlEscape h2 cs

/-- **An encoded string is read back.**  Letter by letter: no letter is written as a surrogate. -/
theorem unquote_quote (s : List Char) : unquote (quote s) = s := by
  induction s with
  | nil => rfl
  | cons c s ih =>
    rw [quote, List.flatMap_cons, unquote_quoteChar]
    exact congrArg (c :: ·) ih

/-- A surrogate that the following escape does not complete. -/
theorem unquote_lone {a b c d : Char} {cs : List Char} (hs : isSurrogate (hex4 a b c d) = true)
    (hcs : ∀ a' b' c' d' cs', cs = '\\' :: 'u' :: a' :: b' :: c' :: d' :: cs' →
      (decide (hex4 a b c d < 0xDC00) && decide (0xDC00 ≤ hex4 a' b' c' d') &&
        decide (hex4 a' b' c' d' < 0xE000)) = false) :
    unquote ('\\' :: 'u' :: a :: b :: c :: d :: cs) = '\uFFFD' :: unquote cs := by
  unfold isSurrogate at hs
  rw [unquote.eq_def]
  change ite _ _ _ = _
  rw [hs, if_pos rfl]
  split
  · rename_i a' b' c' d' cs'
    rw [hcs a' b' c' d' cs' rfl]
    rfl
  · rfl

theorem escapeHtml_cons (c : Char) (cs : List Char) :
    escapeHtml (c :: cs) = htmlEscape c ++ escapeHtml cs := by
  rw [escapeHtml, List.flatMap_cons]
  rfl

theorem escapeHtml_unit {a b c d : Char} (ha : isHex a = true) (hb : isHex b = true)
    (hc : isHex c = true) (hd : isHex d = true) (cs : List Char) :
    escapeHtml ('\\' :: 'u' :: a :: b :: c :: d :: cs) =
      '\\' :: 'u' :: a :: b :: c :: d :: escapeHtml cs := by
  simp only [escapeHtml_cons, htmlEscape_plain (isHex_not_html ha),
    htmlEscape_plain (isHex_not_html hb), htmlEscape_plain (isHex_not_html hc),
    htmlEscape_plain (isHex_not_html hd)]
  rfl

theorem escapeHtml_escape {e : Char} (he : isEscape e = true) (cs : List Char) :
    escapeHtml ('\\' :: e :: cs) = '\\' :: e :: escapeHtml cs := by
  simp only [escapeHtml_cons, htmlEscape_plain (isEscape_not_html he)]
  rfl

/-- The two code units make a surrogate pair. -/
def isPair (hi lo : Nat) : Bool :=
  decide (hi < 0xDC00) && decide (0xDC00 ≤ lo) && decide (lo < 0xE000)

theorem unquote_pair {a b c d a' b' c' d' : Char} (hs : isSurrogate (hex4 a b c d) = true)
    (hp : isPair (hex4 a b c d) (hex4 a' b' c' d') = true) (cs : List Char) :
    unquote ('\\' :: 'u' :: a :: b :: c :: d :: '\\' :: 'u' :: a' :: b' :: c' :: d' :: cs) =
      Char.ofNat (0x10000 + (hex4 a b c d - 0xD800) * 0x400 + (hex4 a' b' c' d' - 0xDC00)) ::
        unquote cs := by
  unfold isSurrogate at hs
  unfold isPair at hp
  rw [unquote.eq_def]
  change ite _ _ _ = _
  rw [hs, if_pos rfl]
  change ite _ _ _ = _
  rw [hp, if_pos rfl]

/-- The second unit of a pair means nothing by itself. -/
theorem unquote_low {a b c d : Char} (hi : Nat) (hp : isPair hi (hex4 a b c d) = true)
    (cs : List Char) : unquote ('\\' :: 'u' :: a :: b :: c :: d :: cs) =
      '\uFFFD' :: unquote cs := by
  simp only [isPair, Bool.and_eq_true, decide_eq_true_eq] at hp
  refine unquote_lone ?_ fun _ _ _ _ _ _ => ?_
  · simp only [isSurrogate, Bool.and_eq_true, decide_eq_true_eq]
    omega
  · simp only [Bool.and_eq_false_iff, decide_eq_false_iff_not]
    omega

/-- An escape that compaction leaves in front was there before, unless it is one of its own. -/
theorem unit_of_escapeHtml {cs cs' : List Char} {a b c d : Char} (hcs : rawOk cs = true)
    (h : escapeHtml cs = '\\' :: 'u' :: a :: b :: c :: d :: cs') (hlow : 0xDC00 ≤ hex4 a b c d) :
    ∃ r, cs = '\\' :: 'u' :: a :: b :: c :: d :: r ∧ escapeHtml r = cs' ∧ rawOk r = true := by
  fun_cases rawOk cs with
  | case1 => cases h
  | case2 a' b' c' d' r =>
    simp only [rawOk, Bool.and_eq_true] at hcs
    rw [escapeHtml_unit hcs.1.1.1.1 hcs.1.1.1.2 hcs.1.1.2 hcs.1.2] at h
    cases h
    exact ⟨r, rfl, rfl, hcs.2⟩
  | case3 e r hne =>
    rw [rawOk, Bool.and_eq_true] at hcs
    · rw [escapeHtml_escape hcs.1] at h
      have hu : e = 'u' := (List.cons.inj (List.cons.inj h).2).1
      subst hu
      exact absurd hcs.1 (by decide)
    · exact hne
  | case4 x r h1 h2 =>
    have hx : x ≠ '\\' := by
      rintro rfl
      rw [rawOk, Bool.and_eq_true] at hcs
      · exact absurd hcs.1 (by decide)
      all_goals assumption
    rw [escapeHtml_cons] at h
    by_cases hhtml : isHtml x = true
    · simp only [isHtml, Bool.or_eq_true, beq_iff_eq] at hhtml
      rcases hhtml with (((rfl | rfl) | rfl) | rfl) | rfl <;>
        (cases h; exact absurd hlow (by decide))
    · rw [htmlEscape_plain (by simpa using hhtml)] at h
      exact absurd (List.cons.inj h).1 hx

/-- **Compaction does not change what a string says.**  The induction goes by the escapes of the
string.  An escape in front of a letter that is replaced must not become the first half of a pair
with what replaces it, and it does not: the escapes that compaction writes are no surrogates. -/
theorem unquote_escapeHtml {raw : List Char} (h : rawOk raw = true) :
    unquote (escapeHtml raw) = unquote raw := by
  fun_induction rawOk raw with
  | case1 => rfl
  | case2 a b c d cs ih =>
    simp only [Bool.and_eq_true] at h
    obtain ⟨⟨⟨⟨ha, hb⟩, hc⟩, hd⟩, hcs⟩ := h
    rw [escapeHtml_unit ha hb hc hd]
    by_cases hs : isSurrogate (hex4 a b c d) = true
    · by_cases hpair : ∃ a' b' c' d' cs', cs = '\\' :: 'u' :: a' :: b' :: c' :: d' :: cs' ∧
          isPair (hex4 a b c d) (hex4 a' b' c' d') = true
      · obtain ⟨a', b', c', d', cs', rfl, hp⟩ := hpair
        have hcs' := hcs
        simp only [rawOk, Bool.and_eq_true] at hcs'
        obtain ⟨⟨⟨⟨ha', hb'⟩, hc'⟩, hd'⟩, -⟩ := hcs'
        -- The second unit is a replacement character on its own, so the rest is read alike.
        have hrest := ih hcs
        rw [escapeHtml_unit ha' hb' hc' hd', unquote_low _ hp, unquote_low _ hp] at hrest
        rw [escapeHtml_unit ha' hb' hc' hd', unquote_pair hs hp, unquote_pair hs hp,
          (List.cons.inj hrest).2]
      · have hlone : ∀ a' b' c' d' cs', cs = '\\' :: 'u' :: a' :: b' :: c' :: d' :: cs' →
            isPair (hex4 a b c d) (hex4 a' b' c' d') = false := by
          intro a' b' c' d' cs' heq
          by_contra hp
          exact hpair ⟨a', b', c', d', cs', heq, by simpa using hp⟩
        have hlone' : ∀ a' b' c' d' cs',
            escapeHtml cs = '\\' :: 'u' :: a' :: b' :: c' :: d' :: cs' →
            isPair (hex4 a b c d) (hex4 a' b' c' d') = false := by
          intro a' b' c' d' cs' heq
          by_contra hp
          rw [Bool.not_eq_false] at hp
          have hlow : 0xDC00 ≤ hex4 a' b' c' d' := by
            simp only [isPair, Bool.and_eq_true, decide_eq_true_eq] at hp
            exact hp.1.2
          obtain ⟨r, hr, -, -⟩ := unit_of_escapeHtml hcs heq hlow
          rw [hlone a' b' c' d' r hr] at hp
          cases hp
        rw [unquote_lone hs hlone', unquote_lone hs hlone, ih hcs]
    · rw [Bool.not_eq_true] at hs
      rw [unquote_unit hs, unquote_unit hs, ih hcs]
  | case3 e cs hne ih =>
    simp only [Bool.and_eq_true] at h
    have hu : e ≠ 'u' := by rintro rfl; exact absurd h.1 (by decide)
    rw [escapeHtml_escape h.1, unquote_escape hu, unquote_escape hu, ih h.2]
  | case4 c cs h1 h2 ih =>
    simp only [Bool.and_eq_true] at h
    have hb : c ≠ '\\' := by rintro rfl; exact absurd h.1 (by decide)
    rw [escapeHtml_cons, unquote_htmlEscape hb, unquote_plain hb, ih h.2]

theorem parseValue_skip {n : Nat} {c : Char} (hc : isWs c = true) (cs : List Char) :
    parseValue n (c :: cs) = parseValue n cs := by
  cases n with
  | zero => rfl
  | succ n =>
    have hskip : skipWs (c :: cs) = skipWs cs := by rw [skipWs, if_pos hc]
    rw [parseValue, parseValue, hskip]

/-- A compact text on a line of its own is read. -/
theorem parse_print_line {v : Value} (hwf : v.wf = true) (hd : v.depth ≤ maxDepth) :
    parse ('\n' :: (print v ++ ['\n'])) = some v := by
  have hsize : v.size ≤ 2 * ('\n' :: (print v ++ ['\n'])).length + 2 := by
    have := Value.size_le v hwf
    simp only [List.length_cons, List.length_append]
    omega
  have hread := parseValue_print v hwf _ ['\n'] hsize (follow_cons (by decide) [])
  rw [← parseValue_skip (c := '\n') (by decide)] at hread
  have hws : skipWs ['\n'] = [] := rfl
  rw [parse, parseFirst, hread, Option.bind_some, if_pos hd, Option.bind_some, if_pos hws]

/-! ## 5. Rewriting the strings twice -/

mutual

theorem Value.mapStr_mapStr (f g : List Char → List Char) :
    ∀ v : Value, (v.mapStr f).mapStr g = v.mapStr fun s => g (f s)
  | .null | .bool _ | .num _ | .str _ => rfl
  | .arr es => congrArg Value.arr (Elems.mapStr_mapStr f g es)
  | .obj ms => congrArg Value.obj (Members.mapStr_mapStr f g ms)

theorem Elems.mapStr_mapStr (f g : List Char → List Char) :
    ∀ es : Elems, (es.mapStr f).mapStr g = es.mapStr fun s => g (f s)
  | .nil => rfl
  | .cons v es => by
    simp only [Elems.mapStr, Value.mapStr_mapStr f g v, Elems.mapStr_mapStr f g es]

theorem Members.mapStr_mapStr (f g : List Char → List Char) :
    ∀ ms : Members, (ms.mapStr f).mapStr g = ms.mapStr fun s => g (f s)
  | .nil => rfl
  | .cons k v ms => by
    simp only [Members.mapStr, Value.mapStr_mapStr f g v, Members.mapStr_mapStr f g ms]

end

mutual

theorem Value.mapStr_congr {f g : List Char → List Char}
    (hfg : ∀ s, rawOk s = true → f s = g s) :
    ∀ v : Value, v.wf = true → v.mapStr f = v.mapStr g
  | .null, _ | .bool _, _ | .num _, _ => rfl
  | .str s, h => congrArg Value.str (hfg s h)
  | .arr es, h => congrArg Value.arr (Elems.mapStr_congr hfg es h)
  | .obj ms, h => congrArg Value.obj (Members.mapStr_congr hfg ms h)

theorem Elems.mapStr_congr {f g : List Char → List Char}
    (hfg : ∀ s, rawOk s = true → f s = g s) :
    ∀ es : Elems, es.wf = true → es.mapStr f = es.mapStr g
  | .nil, _ => rfl
  | .cons v es, h => by
    rw [Elems.wf, Bool.and_eq_true] at h
    simp only [Elems.mapStr, Value.mapStr_congr hfg v h.1, Elems.mapStr_congr hfg es h.2]

theorem Members.mapStr_congr {f g : List Char → List Char}
    (hfg : ∀ s, rawOk s = true → f s = g s) :
    ∀ ms : Members, ms.wf = true → ms.mapStr f = ms.mapStr g
  | .nil, _ => rfl
  | .cons k v ms, h => by
    rw [Members.wf, Bool.and_eq_true, Bool.and_eq_true] at h
    simp only [Members.mapStr, hfg k h.1.1, Value.mapStr_congr hfg v h.1.2,
      Members.mapStr_congr hfg ms h.2]

end

/-- What the value says, with every string decoded. -/
def Value.said (v : Value) : Value := v.mapStr unquote

/-- **Compaction does not change what a value says.** -/
theorem Value.said_compact {v : Value} (h : v.wf = true) :
    (v.mapStr escapeHtml).said = v.said := by
  rw [Value.said, Value.mapStr_mapStr]
  exact Value.mapStr_congr (fun s hs => unquote_escapeHtml hs) v h

/-! ## 6. What is read has no line that starts with a tag

`Eats` follows the parser over the text it uses.  The only place where a line can break is white
space, and behind white space the parser looks for a token. -/

/-- Every `<` has a letter before it that does not end a line. -/
def Calm (cs : List Char) : Prop :=
  ∀ a b, cs = a ++ '<' :: b → ∃ a' c, a = a' ++ [c] ∧ c ≠ '\n'

theorem Calm.append {x y : List Char} (hx : Calm x) (hy : Calm y) : Calm (x ++ y) := by
  intro a b h
  rcases List.append_eq_append_iff.mp h with ⟨r, ha, hr⟩ | ⟨r, hxa, hr⟩
  · obtain ⟨a', c, rfl, hc⟩ := hy r b hr
    exact ⟨x ++ a', c, by rw [ha, List.append_assoc], hc⟩
  · cases r with
    | nil =>
      rw [List.append_nil] at hxa
      obtain ⟨a', c, h', -⟩ := hy [] b hr.symm
      exact absurd (congrArg List.length h') (by simp)
    | cons d r =>
      obtain rfl : '<' = d := (List.cons.inj hr).1
      exact hx a r hxa

theorem calm_of_head {cs : List Char} (hhead : ∀ c ∈ cs.head?, c ≠ '<') (hnl : '\n' ∉ cs) :
    Calm cs := by
  intro a b h
  subst h
  rcases List.eq_nil_or_concat a with rfl | ⟨a', c, rfl⟩
  · exact absurd rfl (hhead '<' rfl)
  · refine ⟨a', c, List.concat_eq_append, ?_⟩
    rintro rfl
    exact hnl (by simp)

theorem calm_of_notMem {cs : List Char} (h : '<' ∉ cs) : Calm cs := by
  intro a b hcs
  exact absurd (by rw [hcs]; simp) h

/-- A reader gets from one text to the other over text without such lines. -/
def Eats (cs rest : List Char) : Prop := ∃ used, cs = used ++ rest ∧ Calm used

theorem Eats.trans {a b c : List Char} (h1 : Eats a b) (h2 : Eats b c) : Eats a c := by
  obtain ⟨u, rfl, hu⟩ := h1
  obtain ⟨w, rfl, hw⟩ := h2
  exact ⟨u ++ w, by rw [List.append_assoc], hu.append hw⟩

theorem eats_append {u : List Char} (hu : '<' ∉ u) (rest : List Char) : Eats (u ++ rest) rest :=
  ⟨u, rfl, calm_of_notMem hu⟩

theorem eats_cons {c : Char} (hc : c ≠ '<') (rest : List Char) : Eats (c :: rest) rest :=
  eats_append (u := [c]) (by simpa using hc.symm) rest

/-- What `skipWs` leaves out is white space. -/
theorem skipWs_split (cs : List Char) :
    ∃ w, cs = w ++ skipWs cs ∧ ∀ c ∈ w, isWs c = true := by
  induction cs with
  | nil => exact ⟨[], rfl, by simp⟩
  | cons c cs ih =>
    obtain ⟨w, hw, hall⟩ := ih
    by_cases hc : isWs c = true
    · refine ⟨c :: w, ?_, ?_⟩
      · rw [skipWs, if_pos hc, List.cons_append, ← hw]
      · intro d hd
        rcases List.mem_cons.mp hd with rfl | hd
        · exact hc
        · exact hall d hd
    · exact ⟨[], by rw [skipWs, if_neg hc, List.nil_append], by simp⟩

theorem eats_skipWs (cs : List Char) : Eats cs (skipWs cs) := by
  obtain ⟨w, hw, hall⟩ := skipWs_split cs
  have hlt : '<' ∉ w := fun hmem => absurd (hall _ hmem) (by decide)
  have := eats_append hlt (skipWs cs)
  rwa [← hw] at this

/-- A string literal has no line break: it is neither plain, nor an escape, nor a hex digit. -/
theorem rawOk_newline {raw : List Char} (h : rawOk raw = true) : '\n' ∉ raw := by
  have hhex : isHex '\n' = false := by decide
  have hesc : isEscape '\n' = false := by decide
  have hplain : isPlain '\n' = false := by decide
  fun_induction rawOk raw with
  | case1 => simp
  | case2 a b c d cs ih =>
    simp only [Bool.and_eq_true] at h
    obtain ⟨⟨⟨⟨ha, hb⟩, hc⟩, hd⟩, hcs⟩ := h
    have hne : ∀ x : Char, isHex x = true → '\n' ≠ x := by
      rintro x hx rfl
      rw [hhex] at hx
      cases hx
    simp [hne a ha, hne b hb, hne c hc, hne d hd, ih hcs]
  | case3 e cs hne ih =>
    simp only [Bool.and_eq_true] at h
    have he : '\n' ≠ e := by
      rintro rfl
      rw [hesc] at h
      cases h.1
    simp [he, ih h.2]
  | case4 c cs h1 h2 ih =>
    simp only [Bool.and_eq_true] at h
    have hc : '\n' ≠ c := by
      rintro rfl
      rw [hplain] at h
      cases h.1
    simp [hc, ih h.2]

theorem eats_string {cs raw rest : List Char} (h : lexString cs = some (raw, rest)) :
    Eats ('"' :: cs) rest := by
  obtain ⟨hraw, rfl⟩ := lexString_spec h
  refine ⟨'"' :: (raw ++ ['"']), by simp, calm_of_head (by simp) ?_⟩
  have := rawOk_newline hraw
  simp [this]

theorem eats_number {cs lit rest : List Char} (h : lexNumber cs = some (lit, rest)) :
    Eats cs rest := by
  unfold lexNumber at h
  split at h
  · cases h
    have hlt : '<' ∉ cs.takeWhile isNumChar := by
      intro hmem
      have hnum := List.all_eq_true.mp List.all_takeWhile _ hmem
      exact absurd hnum (by decide)
    have := eats_append hlt (cs.dropWhile isNumChar)
    rwa [List.takeWhile_append_dropWhile] at this
  · cases h

mutual

/-- What the parser of a value reads is calm.  One case for each way a value can start; outside of
strings there is no `<` at all, and a string has no line break.  The induction is on the fuel. -/
theorem parseValue_eats : ∀ (n : Nat) {cs : List Char} {v : Value} {rest : List Char},
    parseValue n cs = some (v, rest) → Eats cs rest
  | 0, _, _, _, h => by simp [parseValue] at h
  | n + 1, cs, v, rest, h => by
    refine (eats_skipWs cs).trans ?_
    rw [parseValue] at h
    split at h <;> rename_i hcs
    · rename_i cs'
      rw [hcs]
      refine (eats_cons (by decide) _).trans ?_
      split at h
      · rename_i r hr
        cases h
        refine (eats_skipWs cs').trans ?_
        rw [hr]
        exact eats_cons (by decide) _
      · obtain ⟨r, hr, he⟩ := Option.map_eq_some_iff.mp h
        cases he
        exact (eats_skipWs cs').trans (parseMembers_eats n hr)
    · rename_i cs'
      rw [hcs]
      refine (eats_cons (by decide) _).trans ?_
      split at h
      · rename_i r hr
        cases h
        refine (eats_skipWs cs').trans ?_
        rw [hr]
        exact eats_cons (by decide) _
      · obtain ⟨r, hr, he⟩ := Option.map_eq_some_iff.mp h
        cases he
        exact (eats_skipWs cs').trans (parseElems_eats n hr)
    · obtain ⟨r, hr, he⟩ := Option.map_eq_some_iff.mp h
      cases he
      rw [hcs]
      exact eats_string hr
    · cases h
      rw [hcs]
      exact eats_append (u := ['n', 'u', 'l', 'l']) (by decide) _
    · cases h
      rw [hcs]
      exact eats_append (u := ['t', 'r', 'u', 'e']) (by decide) _
    · cases h
      rw [hcs]
      exact eats_append (u := ['f', 'a', 'l', 's', 'e']) (by decide) _
    · obtain ⟨r, hr, he⟩ := Option.map_eq_some_iff.mp h
      cases he
      exact eats_number hr

/-- The elements are eaten up to the bracket that closes them. -/
theorem parseElems_eats : ∀ (n : Nat) {cs : List Char} {es : Elems} {rest : List Char},
    parseElems n cs = some (es, rest) → Eats cs rest
  | 0, _, _, _, h => by simp [parseElems] at h
  | n + 1, cs, es, rest, h => by
    rw [parseElems] at h
    obtain ⟨r, hr, h⟩ := Option.bind_eq_some_iff.mp h
    refine (parseValue_eats n hr).trans ((eats_skipWs r.2).trans ?_)
    split at h <;> rename_i hr2
    · cases h
      rw [hr2]
      exact eats_cons (by decide) _
    · obtain ⟨q, hq, he⟩ := Option.map_eq_some_iff.mp h
      cases he
      rw [hr2]
      exact (eats_cons (by decide) _).trans (parseElems_eats n hq)
    · cases h

/-- The members are eaten up to the brace that closes them. -/
theorem parseMembers_eats : ∀ (n : Nat) {cs : List Char} {ms : Members} {rest : List Char},
    parseMembers n cs = some (ms, rest) → Eats cs rest
  | 0, _, _, _, h => by simp [parseMembers] at h
  | n + 1, cs, ms, rest, h => by
    refine (eats_skipWs cs).trans ?_
    rw [parseMembers] at h
    split at h
    · rename_i cs' hcs
      rw [hcs]
      obtain ⟨k, hk, h⟩ := Option.bind_eq_some_iff.mp h
      refine (eats_string hk).trans ((eats_skipWs k.2).trans ?_)
      split at h
      · rename_i cs'' hk2
        rw [hk2]
        refine (eats_cons (by decide) _).trans ?_
        obtain ⟨r, hr, h⟩ := Option.bind_eq_some_iff.mp h
        refine (parseValue_eats n hr).trans ((eats_skipWs r.2).trans ?_)
        split at h <;> rename_i hr2
        · cases h
          rw [hr2]
          exact eats_cons (by decide) _
        · obtain ⟨q, hq, he⟩ := Option.map_eq_some_iff.mp h
          cases he
          rw [hr2]
          exact (eats_cons (by decide) _).trans (parseMembers_eats n hq)
        · cases h
      · cases h
    · cases h

end

/-- **A text that is one JSON value has no line that starts with `<`.**  A string has no bare line
break in it, and between the tokens no `<` is read. -/
theorem parse_calm {cs : List Char} {v : Value} (h : parse cs = some v) : Calm cs := by
  obtain ⟨r, hr, h⟩ := Option.bind_eq_some_iff.mp h
  obtain ⟨q, hq, hr⟩ := Option.bind_eq_some_iff.mp hr
  split at hr
  · cases hr
    split at h
    · rename_i hws
      obtain ⟨u, hu, hcalm⟩ := (parseValue_eats _ hq).trans (eats_skipWs r.2)
      rw [hws, List.append_nil] at hu
      rwa [hu]
    · cases h
  · cases hr

/-! ## 7. The strings of a value stand in the text it was read from -/

theorem Eats.suffix {cs rest : List Char} (h : Eats cs rest) : rest <:+ cs := by
  obtain ⟨u, rfl, -⟩ := h
  exact List.suffix_append u rest

theorem infix_string {cs raw rest : List Char} (h : lexString cs = some (raw, rest)) :
    raw <:+: cs := by
  obtain ⟨-, rfl⟩ := lexString_spec h
  exact (List.prefix_append _ _).isInfix

theorem skipWs_suffix (cs : List Char) : skipWs cs <:+ cs := (eats_skipWs cs).suffix

theorem cons_suffix {cs cs' : List Char} {c : Char} (h : skipWs cs = c :: cs') : cs' <:+ cs :=
  (List.suffix_cons c cs').trans (h ▸ skipWs_suffix cs)

mutual

/-- Every text of a value that was read stands in what was read.  Strings are kept as they were
spelled, so nothing has to be decoded. -/
theorem parseValue_texts : ∀ (n : Nat) {cs : List Char} {v : Value} {rest : List Char},
    parseValue n cs = some (v, rest) → ∀ t ∈ v.texts, t <:+: cs
  | 0, _, _, _, h => by simp [parseValue] at h
  | n + 1, cs, v, rest, h => by
    intro t ht
    rw [parseValue] at h
    split at h <;> rename_i hcs
    · split at h
      · cases h
        cases ht
      · obtain ⟨r, hr, he⟩ := Option.map_eq_some_iff.mp h
        cases he
        have hin := parseMembers_texts n hr t ht
        exact hin.trans ((skipWs_suffix _).trans (cons_suffix hcs)).isInfix
    · split at h
      · cases h
        cases ht
      · obtain ⟨r, hr, he⟩ := Option.map_eq_some_iff.mp h
        cases he
        have hin := parseElems_texts n hr t ht
        exact hin.trans ((skipWs_suffix _).trans (cons_suffix hcs)).isInfix
    · obtain ⟨r, hr, he⟩ := Option.map_eq_some_iff.mp h
      cases he
      rw [List.mem_singleton.mp ht]
      exact (infix_string hr).trans (cons_suffix hcs).isInfix
    · cases h
      cases ht
    · cases h
      cases ht
    · cases h
      cases ht
    · obtain ⟨r, -, he⟩ := Option.map_eq_some_iff.mp h
      cases he
      cases ht

/-- The texts of the elements stand in the input: behind each element is a suffix of it. -/
theorem parseElems_texts : ∀ (n : Nat) {cs : List Char} {es : Elems} {rest : List Char},
    parseElems n cs = some (es, rest) → ∀ t ∈ es.texts, t <:+: cs
  | 0, _, _, _, h => by simp [parseElems] at h
  | n + 1, cs, es, rest, h => by
    intro t ht
    rw [parseElems] at h
    obtain ⟨⟨v, cs'⟩, hr, h⟩ := Option.bind_eq_some_iff.mp h
    have hv := parseValue_texts n hr
    have hsuffix := (parseValue_eats n hr).suffix
    split at h <;> rename_i hcs
    · cases h
      rw [Elems.texts, Elems.texts, List.append_nil] at ht
      exact hv t ht
    · obtain ⟨q, hq, he⟩ := Option.map_eq_some_iff.mp h
      cases he
      rcases List.mem_append.mp ht with ht | ht
      · exact hv t ht
      · exact (parseElems_texts n hq t ht).trans ((cons_suffix hcs).trans hsuffix).isInfix
    · cases h

/-- The keys and the texts of the values stand in the input. -/
theorem parseMembers_texts : ∀ (n : Nat) {cs : List Char} {ms : Members} {rest : List Char},
    parseMembers n cs = some (ms, rest) → ∀ t ∈ ms.texts, t <:+: cs
  | 0, _, _, _, h => by simp [parseMembers] at h
  | n + 1, cs, ms, rest, h => by
    intro t ht
    rw [parseMembers] at h
    split at h
    · rename_i cs₁ hcs₁
      obtain ⟨⟨k, cs₂⟩, hk, h⟩ := Option.bind_eq_some_iff.mp h
      have hkey : k <:+: cs := (infix_string hk).trans (cons_suffix hcs₁).isInfix
      have hsuffix₂ : cs₂ <:+ cs :=
        (eats_string hk).suffix.trans (hcs₁ ▸ skipWs_suffix cs)
      split at h
      · rename_i cs₃ hcs₃
        obtain ⟨⟨v, cs₄⟩, hr, h⟩ := Option.bind_eq_some_iff.mp h
        have hsuffix₃ : cs₃ <:+ cs := (cons_suffix hcs₃).trans hsuffix₂
        have hv : ∀ t ∈ v.texts, t <:+: cs := fun t ht =>
          (parseValue_texts n hr t ht).trans hsuffix₃.isInfix
        have hsuffix₄ : cs₄ <:+ cs := (parseValue_eats n hr).suffix.trans hsuffix₃
        split at h <;> rename_i hcs₄
        · cases h
          rw [Members.texts, Members.texts, List.append_nil] at ht
          rcases List.mem_cons.mp ht with rfl | ht
          · exact hkey
          · exact hv t ht
        · obtain ⟨q, hq, he⟩ := Option.map_eq_some_iff.mp h
          cases he
          rcases List.mem_cons.mp ht with rfl | ht
          · exact hkey
          · rcases List.mem_append.mp ht with ht | ht
            · exact hv t ht
            · exact (parseMembers_texts n hq t ht).trans
                ((cons_suffix hcs₄).trans hsuffix₄).isInfix
        · cases h
      · cases h
    · cases h

end

/-- **The strings of a value stand in the text it was read from.**  The tree keeps them as
written. -/
theorem parse_texts {cs : List Char} {v : Value} (h : parse cs = some v) :
    ∀ t ∈ v.texts, t <:+: cs := by
  obtain ⟨r, hr, h⟩ := Option.bind_eq_some_iff.mp h
  obtain ⟨q, hq, hr⟩ := Option.bind_eq_some_iff.mp hr
  split at hr
  · cases hr
    split at h
    · cases h
      exact parseValue_texts _ hq
    · cases h
  · cases hr

/-! ## 8. Behind the end of a string

A piece that is cut out of a compact text may begin in the middle of a string.  When it holds a
pattern that only strings can say, it cannot have begun between two tokens; and where it meets a
quote that is not escaped, that quote is the end of the string. -/

/-- Inside a literal a quote has a backslash in front of it. -/
theorem rawOk_quote_escaped {a b : List Char} (h : rawOk (a ++ '"' :: b) = true) :
    ∃ a', a = a' ++ ['\\'] := by
  have hhex : isHex '"' = false := by decide
  have hplain : isPlain '"' = false := by decide
  -- The induction is on the string; `a` says how far the quote is away.
  have hgen : ∀ raw, rawOk raw = true → ∀ a b, raw = a ++ '"' :: b → ∃ a', a = a' ++ ['\\'] := by
    intro raw hraw
    fun_induction rawOk raw with
    | case1 => intro a b h; simp at h
    | case2 x y z w cs ih =>
      simp only [Bool.and_eq_true] at hraw
      obtain ⟨⟨⟨⟨hx, hy⟩, hz⟩, hw⟩, hcs⟩ := hraw
      have hne : ∀ d : Char, isHex d = true → d ≠ '"' := by
        rintro d hd rfl
        rw [hhex] at hd
        cases hd
      intro a b h
      rcases a with _ | ⟨a1, _ | ⟨a2, _ | ⟨a3, _ | ⟨a4, _ | ⟨a5, _ | ⟨a6, a⟩⟩⟩⟩⟩⟩ <;>
        simp only [List.nil_append, List.cons_append, List.cons.injEq] at h
      · exact absurd h.1 (by decide)
      · exact absurd h.2.1 (by decide)
      · exact absurd h.2.2.1 (hne x hx)
      · exact absurd h.2.2.2.1 (hne y hy)
      · exact absurd h.2.2.2.2.1 (hne z hz)
      · exact absurd h.2.2.2.2.2.1 (hne w hw)
      · obtain ⟨rfl, rfl, rfl, rfl, rfl, rfl, h⟩ := h
        obtain ⟨a', rfl⟩ := ih hcs a b h
        exact ⟨'\\' :: 'u' :: x :: y :: z :: w :: a', rfl⟩
    | case3 e cs hne ih =>
      simp only [Bool.and_eq_true] at hraw
      intro a b h
      rcases a with _ | ⟨a1, _ | ⟨a2, a⟩⟩ <;>
        simp only [List.nil_append, List.cons_append, List.cons.injEq] at h
      · exact absurd h.1 (by decide)
      · exact ⟨[], by rw [← h.1]; rfl⟩
      · obtain ⟨rfl, rfl, h⟩ := h
        obtain ⟨a', rfl⟩ := ih hraw.2 a b h
        exact ⟨'\\' :: e :: a', rfl⟩
    | case4 c cs h1 h2 ih =>
      simp only [Bool.and_eq_true] at hraw
      intro a b h
      rcases a with _ | ⟨a1, a⟩ <;>
        simp only [List.nil_append, List.cons_append, List.cons.injEq] at h
      · rw [h.1, hplain] at hraw
        cases hraw.1
      · obtain ⟨rfl, h⟩ := h
        obtain ⟨a', rfl⟩ := ih hraw.2 a b h
        exact ⟨c :: a', rfl⟩
  exact hgen _ h a b rfl

/-- The letters that can follow a string. -/
def isFollow (c : Char) : Bool := c == ':' || c == ',' || c == '}' || c == ']'

section Closing

variable {p : List Char} {z : Char}

/-- Behind any structural text: where a block that says `p` runs into a quote, the quote ends its
string. -/
def Closes (p cs : List Char) : Prop :=
  ∀ front : List Char, (∀ c ∈ front, isStructural c = true) → ∀ x b c y,
    front ++ cs = x ++ b ++ '"' :: c :: y → p <:+: b → '"' ∉ b → b.getLast? ≠ some '\\' →
    isFollow c = true

/-- The text goes on as a text does behind a string. -/
def Ends (cs : List Char) : Prop := ∀ c ∈ cs.head?, isFollow c = true

theorem ends_cons {c : Char} (h : isFollow c = true) (cs : List Char) : Ends (c :: cs) := by
  intro d hd
  rw [List.head?_cons, Option.mem_some_iff] at hd
  rwa [← hd]

theorem closes_nil : Closes p [] := by
  intro front hfront x b c y h
  rw [List.append_nil] at h
  exact absurd (hfront '"' (by rw [h]; simp)) (by decide)

theorem Closes.structural {cs front : List Char} (h : Closes p cs)
    (hfront : ∀ c ∈ front, isStructural c = true) : Closes p (front ++ cs) := by
  intro front' hfront' x b c y heq
  rw [← List.append_assoc] at heq
  refine h _ (fun d hd => ?_) x b c y heq
  rcases List.mem_append.mp hd with hd | hd
  · exact hfront' d hd
  · exact hfront d hd

theorem Closes.cons {cs : List Char} {c : Char} (h : Closes p cs) (hc : isStructural c = true) :
    Closes p (c :: cs) := by
  have hone := h.structural fun d (hd : d ∈ [c]) => by rwa [List.mem_singleton.mp hd]
  simpa using hone

/-- A string in front keeps the property.  A block that ends in front of a quote inside the literal
ends with a backslash, which is excluded, and behind the closing quote stands what may follow a
string. -/
theorem Closes.string (hz : z ∈ p) (hs : isStructural z = false) {cs r : List Char}
    (hr : rawOk r = true) (hends : Ends cs) (h : Closes p cs) :
    Closes p ('"' :: (r ++ '"' :: cs)) := by
  intro front hfront x b c y heq hp hq hlast
  have hbne : b ≠ [] := by
    rintro rfl
    rw [List.infix_nil.mp hp] at hz
    cases hz
  have hnot : ∀ rest, front ≠ x ++ b ++ rest := by
    rintro rest rfl
    exact not_infix_structural hz hs hfront (hp.trans ⟨x, rest, rfl⟩)
  -- The block does not fit in front of the string.
  obtain ⟨x', hr'⟩ : ∃ x', r ++ '"' :: cs = x' ++ b ++ '"' :: c :: y := by
    rcases List.append_eq_append_iff.mp heq with ⟨a, hxb, ha⟩ | ⟨a, hfr, -⟩
    · cases a with
      | nil => exact absurd (by rw [hxb]; simp) (hnot [])
      | cons d a =>
        rw [List.cons_append] at ha
        obtain ⟨rfl, hrest⟩ := List.cons.inj ha
        obtain ⟨x', -, rfl⟩ := split_before hq hxb
        exact ⟨x', hrest⟩
    · exact absurd hfr (hnot a)
  rcases List.append_eq_append_iff.mp hr' with ⟨a, hxb, ha⟩ | ⟨a, hra, ha⟩
  · cases a with
    | nil =>
      obtain ⟨-, hcs⟩ := List.cons.inj ha
      exact hends c (by rw [hcs]; rfl)
    | cons d a =>
      rw [List.cons_append] at ha
      obtain ⟨rfl, hrest⟩ := List.cons.inj ha
      obtain ⟨x'', -, rfl⟩ := split_before hq hxb
      exact h [] (by simp) x'' b c y hrest hp hq hlast
  · cases a with
    | nil =>
      obtain ⟨-, hcs⟩ := List.cons.inj ha
      exact hends c (by rw [← hcs]; rfl)
    | cons d a =>
      rw [List.cons_append] at ha
      obtain ⟨rfl, -⟩ := List.cons.inj ha
      rw [hra] at hr
      obtain ⟨a', ha'⟩ := rawOk_quote_escaped hr
      obtain ⟨b', e, rfl⟩ := (List.eq_nil_or_concat b).resolve_left hbne
      rw [List.concat_eq_append, ← List.append_assoc] at ha'
      have he := List.append_inj_right' ha' rfl
      rw [List.concat_eq_append, List.getLast?_concat, List.cons.inj he |>.1] at hlast
      exact absurd rfl hlast

mutual

/-- Every printed value keeps the property; strings are the case with an argument. -/
theorem closes_print (hz : z ∈ p) (hs : isStructural z = false) :
    ∀ (v : Value), v.wf = true → ∀ {cs : List Char}, Ends cs → Closes p cs →
      Closes p (print v ++ cs)
  | .null, _, cs, _, h => h.structural (Lib.Text.forall_of_all (by decide))
  | .bool true, _, cs, _, h => h.structural (Lib.Text.forall_of_all (by decide))
  | .bool false, _, cs, _, h => h.structural (Lib.Text.forall_of_all (by decide))
  | .num lit, hwf, cs, _, h => by
    refine h.structural fun c hc => isStructural_of_number ?_
    have hall : lit.all isNumChar = true := by
      simp only [Value.wf, isNumber, Bool.and_eq_true] at hwf
      exact hwf.1
    exact List.all_eq_true.mp hall c hc
  | .str raw, hwf, cs, he, h => by
    have := h.string hz hs hwf he
    simpa [print] using this
  | .arr .nil, _, cs, _, h => h.structural (Lib.Text.forall_of_all (by decide))
  | .arr (.cons v es), hwf, cs, he, h => by
    rw [print, List.cons_append]
    exact (closes_printElems hz hs (.cons v es) hwf h).cons (by decide)
  | .obj .nil, _, cs, _, h => h.structural (Lib.Text.forall_of_all (by decide))
  | .obj (.cons k v ms), hwf, cs, he, h => by
    rw [print, List.cons_append]
    exact (closes_printMembers hz hs (.cons k v ms) hwf h).cons (by decide)

theorem closes_printElems (hz : z ∈ p) (hs : isStructural z = false) :
    ∀ (es : Elems), es.wf = true → ∀ {cs : List Char}, Closes p cs →
    Closes p (printElems es ++ cs)
  | .nil, _, cs, h => h
  | .cons v .nil, hwf, cs, h => by
    rw [Elems.wf, Bool.and_eq_true] at hwf
    rw [printElems, List.append_assoc]
    exact closes_print hz hs v hwf.1 (ends_cons (by decide) _) (h.cons (by decide))
  | .cons v (.cons w es), hwf, cs, h => by
    rw [Elems.wf, Bool.and_eq_true] at hwf
    rw [printElems, List.append_assoc, List.cons_append]
    exact closes_print hz hs v hwf.1 (ends_cons (by decide) _)
      ((closes_printElems hz hs (.cons w es) hwf.2 h).cons (by decide))

/-- The members keep the property, each with its key as one more string. -/
theorem closes_printMembers (hz : z ∈ p) (hs : isStructural z = false) :
    ∀ (ms : Members), ms.wf = true → ∀ {cs : List Char}, Closes p cs →
    Closes p (printMembers ms ++ cs)
  | .nil, _, cs, h => h
  | .cons k v .nil, hwf, cs, h => by
    simp only [Members.wf, Bool.and_eq_true] at hwf
    have hv := closes_print hz hs v hwf.1.2 (ends_cons (c := '}') (by decide) cs)
      (h.cons (by decide))
    have := (hv.cons (c := ':') (by decide)).string hz hs hwf.1.1 (ends_cons (by decide) _)
    simpa [printMembers] using this
  | .cons k v (.cons k' v' ms), hwf, cs, h => by
    rw [Members.wf, Bool.and_eq_true, Bool.and_eq_true] at hwf
    have hms := closes_printMembers hz hs (.cons k' v' ms) hwf.2 h
    have hv := closes_print hz hs v hwf.1.2 (ends_cons (c := ',') (by decide) _)
      (hms.cons (by decide))
    have := (hv.cons (c := ':') (by decide)).string hz hs hwf.1.1 (ends_cons (by decide) _)
    rw [printMembers]
    simpa using this

end

/-- **A block that begins inside a string ends at its closing quote.**  Behind the quote of a string
only a separator can follow; a block that says `p` is inside a string when it runs into the quote,
so what follows the quote is a separator. -/
theorem after_quote (hz : z ∈ p) (hs : isStructural z = false) {v : Value} (hwf : v.wf = true)
    {x b y : List Char} {c : Char}
    (h : print v = x ++ b ++ '"' :: c :: y) (hp : p <:+: b) (hq : '"' ∉ b)
    (hlast : b.getLast? ≠ some '\\') : isFollow c = true := by
  have hends : Ends ([] : List Char) := by
    intro d hd
    cases hd
  have hclose := closes_print hz hs v hwf hends closes_nil
  rw [List.append_nil] at hclose
  exact hclose [] (by simp) x b c y h hp hq hlast

end Closing

/-- The first key of an object that was read is the first string behind the brace. -/
theorem parseMembers_first_key {n : Nat} {cs k rest : List Char} {v : Value} {ms : Members}
    (h : parseMembers n cs = some (.cons k v ms, rest)) :
    ∃ r, skipWs cs = '"' :: (k ++ '"' :: r) := by
  cases n with
  | zero => simp [parseMembers] at h
  | succ n =>
    rw [parseMembers] at h
    split at h
    · rename_i cs' hcs
      obtain ⟨k', hk', h⟩ := Option.bind_eq_some_iff.mp h
      have hkey : k'.1 = k := by
        split at h
        · obtain ⟨u, -, h⟩ := Option.bind_eq_some_iff.mp h
          split at h
          · cases h
            rfl
          · obtain ⟨u', -, he⟩ := Option.map_eq_some_iff.mp h
            cases he
            rfl
          · cases h
        · cases h
      obtain ⟨-, hsplit⟩ := lexString_spec hk'
      rw [hkey] at hsplit
      exact ⟨k'.2, by rw [hcs, hsplit]⟩
    · cases h

/-- The same for the object itself, with its opening brace. -/
theorem parseValue_first_key {n : Nat} {cs k rest : List Char} {v : Value} {ms : Members}
    (h : parseValue n cs = some (.obj (.cons k v ms), rest)) :
    ∃ cs' r, skipWs cs = '{' :: cs' ∧ skipWs (skipWs cs') = '"' :: (k ++ '"' :: r) := by
  cases n with
  | zero => simp [parseValue] at h
  | succ n =>
    rw [parseValue] at h
    split at h <;> rename_i hcs
    · split at h
      · cases h
      · obtain ⟨⟨ms', rest'⟩, hq, he⟩ := Option.map_eq_some_iff.mp h
        cases he
        obtain ⟨r, hr⟩ := parseMembers_first_key hq
        exact ⟨_, r, hcs, hr⟩
    · split at h
      · cases h
      · obtain ⟨q, -, he⟩ := Option.map_eq_some_iff.mp h
        cases he
    · obtain ⟨q, -, he⟩ := Option.map_eq_some_iff.mp h
      cases he
    · cases h
    · cases h
    · cases h
    · obtain ⟨q, -, he⟩ := Option.map_eq_some_iff.mp h
      cases he

/-- The first key of an object that is read stands behind a quote and nothing but brackets and
white space. -/
theorem parse_first_key {cs k : List Char} {v : Value} {ms : Members}
    (h : parse cs = some (.obj (.cons k v ms))) :
    ∃ w rest, cs = w ++ '"' :: (k ++ '"' :: rest) ∧ ∀ c ∈ w, c = '{' ∨ isWs c = true := by
  obtain ⟨r, hr, h⟩ := Option.bind_eq_some_iff.mp h
  obtain ⟨q, hq, hr⟩ := Option.bind_eq_some_iff.mp hr
  split at hr
  · cases hr
    split at h
    · have hv : r.1 = .obj (.cons k v ms) := Option.some.inj h
      rw [show r = (r.1, r.2) from rfl, hv] at hq
      obtain ⟨cs', rest, hcs, hkey⟩ := parseValue_first_key hq
      obtain ⟨w, hw, hws⟩ := skipWs_split cs
      obtain ⟨w', hw', hws'⟩ := skipWs_split cs'
      obtain ⟨w'', hw'', hws''⟩ := skipWs_split (skipWs cs')
      refine ⟨w ++ '{' :: (w' ++ w''), rest, ?_, ?_⟩
      · rw [hw, hcs, hw', hw'', hkey]
        simp
      · intro c hc
        rw [List.mem_append, List.mem_cons, List.mem_append] at hc
        rcases hc with hc | rfl | hc | hc
        · exact .inr (hws c hc)
        · exact .inl rfl
        · exact .inr (hws' c hc)
        · exact .inr (hws'' c hc)
    · cases h
  · cases hr

end Lib.Json
