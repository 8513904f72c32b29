/-
# Where a pattern occurs in a text

Code that keeps records in a free text looks for fixed patterns: it counts them, finds the first
one, and takes what stands between two of them.  A pattern here starts with a letter that it does
not contain again, so two of its occurrences never overlap, and a text can be cut anywhere where
the next letter is not inside the pattern:

* `count_append_cons`: the number of occurrences is the sum over the two parts;
* `between_eq_some`: when each of two patterns occurs once, the text between them is the middle of
  the one way to split the text at both.

The occurrences are those of `<:+:`, so that Mathlib's lemmas about infixes apply; `count` and
`cutList` are the functions of the source.  The condition on the first letter is a real one, and all
the patterns of the source meet it.  Without it two occurrences can overlap, the greedy count is
then no longer a sum over the parts, and "the text between two markers" may depend on where one
starts to look.

* §1  Infixes across a cut: what a letter that is not in the pattern separates.
* §2  Words, for code that compares whole words of a text with a fixed one.
* §3  `count`: additive at a cut, one more for an occurrence (`count_split`), unchanged by trimming
  (`count_trimList`).
* §4  The first occurrence, and the text between two patterns.
-/
import PveCpi.Lib.Text
import Mathlib.Data.List.Infix
import Mathlib.Tactic.Cases

namespace Lib.Occurs

open Lib.Text (cutList trimList)

variable {α : Type}

/-! ## 1. Infixes

Each lemma cuts a text at a letter and says on which side an occurrence lies. -/

/-- A letter that a pattern does not have separates its occurrences. -/
theorem infix_append_cons {p x y : List α} {c : α} (hc : c ∉ p) :
    p <:+: x ++ c :: y ↔ p <:+: x ∨ p <:+: y := by
  constructor
  · rintro ⟨a, b, h⟩
    rcases List.append_eq_append_iff.mp h with ⟨r, hx, -⟩ | ⟨r, hap, hcy⟩
    · exact .inl ⟨a, r, hx.symm⟩
    · cases r with
      | nil =>
        rw [List.append_nil] at hap
        exact .inl ⟨a, [], by rw [List.append_nil, hap]⟩
      | cons d r =>
        rw [List.cons_append] at hcy
        obtain ⟨rfl, hy⟩ := List.cons.inj hcy
        rcases List.append_eq_append_iff.mp hap with ⟨q, -, hp⟩ | ⟨q, -, hq⟩
        · exact absurd (by rw [hp]; simp) hc
        · cases q with
          | nil => exact absurd (by rw [← List.nil_append p, ← hq]; simp) hc
          | cons e q =>
            rw [List.cons_append] at hq
            exact .inr ⟨q, b, by rw [hy, ← (List.cons.inj hq).2]⟩
  · rintro (⟨a, b, rfl⟩ | ⟨a, b, rfl⟩)
    · exact ⟨a, b ++ c :: y, by simp⟩
    · exact ⟨x ++ c :: a, b, by simp⟩

/-- Letters other than its first one in front of a text add no occurrence of a pattern. -/
theorem infix_append_of_head_notMem {h : α} {p t s : List α} (ht : h ∉ t) :
    h :: p <:+: t ++ s ↔ h :: p <:+: s := by
  induction t with
  | nil => rfl
  | cons c t ih =>
    rw [List.mem_cons, not_or] at ht
    rw [List.cons_append, List.infix_cons_iff, ih ht.2]
    constructor
    · rintro (hpre | hin)
      · exact absurd (List.cons_prefix_cons.mp hpre).1 ht.1
      · exact hin
    · exact .inr

/-- Two ways to cut a text at a letter that it has only once. -/
theorem cut_at_only {x y p b : List α} {c : α} (hx : c ∉ x) (hy : c ∉ y)
    (h : x ++ c :: y = p ++ c :: b) : p = x := by
  rcases List.append_eq_append_iff.mp h with ⟨d, hp, hd⟩ | ⟨d, hx', hd⟩
  · cases d with
    | nil => simpa using hp
    | cons e d =>
      rw [List.cons_append, List.cons.injEq] at hd
      exact absurd (by rw [hd.2]; simp) hy
  · cases d with
    | nil => simpa using hx'.symm
    | cons e d =>
      rw [List.cons_append, List.cons.injEq] at hd
      refine absurd ?_ hx
      rw [hx', ← hd.1]
      simp

/-- What follows the last separator of a text is at the end of every text it ends. -/
theorem suffix_cut {x y d d' : List α} {c : α} (hd : c ∉ d) (hd' : c ∉ d')
    (h : x ++ c :: d <:+ y ++ c :: d') : d = d' ∧ x <:+ y := by
  obtain ⟨a, ha⟩ := h
  rw [← List.append_assoc] at ha
  rcases List.append_eq_append_iff.mp ha with ⟨u, hu, hcut⟩ | ⟨u, hu, hcut⟩
  · cases u with
    | nil =>
      rw [List.nil_append, List.cons.injEq] at hcut
      exact ⟨hcut.2, ⟨a, by simpa using hu.symm⟩⟩
    | cons v u =>
      rw [List.cons_append, List.cons.injEq] at hcut
      exact absurd (by rw [hcut.2]; simp) hd
  · cases u with
    | nil =>
      rw [List.nil_append, List.cons.injEq] at hcut
      exact ⟨hcut.2.symm, ⟨a, by simpa using hu⟩⟩
    | cons v u =>
      rw [List.cons_append, List.cons.injEq] at hcut
      exact absurd (by rw [hcut.2]; simp) hd'

/-- A pattern without `c` that starts a text ends before the first `c`. -/
theorem prefix_append_cons {t x y : List α} {c : α} (hc : c ∉ t) :
    t <+: x ++ c :: y ↔ t <+: x := by
  induction x generalizing t with
  | nil =>
    cases t with
    | nil => simp
    | cons d t =>
      rw [List.mem_cons, not_or] at hc
      rw [List.nil_append, List.cons_prefix_cons, List.prefix_nil]
      constructor
      · rintro ⟨rfl, -⟩
        exact absurd rfl hc.1
      · intro h
        cases h
  | cons a x ih =>
    cases t with
    | nil => simp
    | cons d t =>
      rw [List.mem_cons, not_or] at hc
      rw [List.cons_append, List.cons_prefix_cons, List.cons_prefix_cons, ih hc.2]

/-- An occurrence that does not begin before a cut begins behind it. -/
theorem after_cut {p a b x r : List α} {c : α} (hp : p ≠ []) (hc : c ∉ p) (ha : ¬p <:+: a)
    (h : a ++ c :: b = x ++ (p ++ r)) : ∃ x', x = a ++ c :: x' ∧ b = x' ++ (p ++ r) := by
  rcases List.append_eq_append_iff.mp h with ⟨q, hx, hq⟩ | ⟨q, hax, hq⟩
  · cases q with
    | nil =>
      obtain ⟨d, p', rfl⟩ := List.exists_cons_of_ne_nil hp
      exact absurd (List.cons.inj hq).1 fun hcd => hc (hcd ▸ List.mem_cons_self)
    | cons d q =>
      obtain ⟨rfl, hb⟩ := List.cons.inj hq
      exact ⟨q, hx, hb⟩
  · rcases List.append_eq_append_iff.mp hq with ⟨s, hqs, -⟩ | ⟨s, hps, hs⟩
    · exact absurd ⟨x, s, by rw [hax, hqs, List.append_assoc]⟩ ha
    · cases s with
      | nil =>
        rw [List.append_nil] at hps
        exact absurd ⟨x, [], by rw [List.append_nil, hax, hps]⟩ ha
      | cons d s =>
        obtain rfl : c = d := (List.cons.inj hs).1
        exact absurd (by rw [hps]; simp) hc

/-- A letter that a block does not have lies in front of the block. -/
theorem split_before {x b f a : List α} {c : α} (hc : c ∉ b) (h : x ++ b = f ++ c :: a) :
    ∃ x', x = f ++ c :: x' ∧ a = x' ++ b := by
  rcases List.append_eq_append_iff.mp h with ⟨r, -, hb⟩ | ⟨r, hx, hr⟩
  · exact absurd (by rw [hb]; simp) hc
  · cases r with
    | nil => exact absurd (by rw [← List.nil_append b, ← hr]; simp) hc
    | cons d r =>
      rw [List.cons_append] at hr
      obtain ⟨rfl, ha⟩ := List.cons.inj hr
      exact ⟨r, hx, ha⟩

/-- An occurrence that does not end behind a cut ends before it. -/
theorem before_cut {p a b x r : List α} {c : α} (hc : c ∉ p) (hb : ¬p <:+: b)
    (h : a ++ c :: b = x ++ (p ++ r)) : ∃ r', r = r' ++ c :: b ∧ a = x ++ (p ++ r') := by
  rw [← List.append_assoc] at h
  rcases List.append_eq_append_iff.mp h with ⟨q, hxp, hq⟩ | ⟨q, haq, hq⟩
  · cases q with
    | nil =>
      rw [List.append_nil] at hxp
      exact ⟨[], hq.symm, by rw [List.append_nil, hxp]⟩
    | cons d q =>
      obtain ⟨rfl, hbq⟩ := List.cons.inj hq
      obtain ⟨x', -, rfl⟩ := split_before hc hxp
      exact absurd ⟨x', r, hbq.symm⟩ hb
  · exact ⟨q, hq, by rw [haq, List.append_assoc]⟩

theorem dropWhile_block {f : α → Bool} {a : α} {m : List α} (ha : f a = false) (x y : List α) :
    ∃ x', (x ++ (a :: m ++ y)).dropWhile f = x' ++ (a :: m ++ y) := by
  induction x with
  | nil => exact ⟨[], by simp [ha]⟩
  | cons c x ih =>
    by_cases hc : f c = true
    · rw [List.cons_append, List.dropWhile_cons_of_pos hc]
      exact ih
    · rw [List.cons_append, List.dropWhile_cons_of_neg hc]
      exact ⟨c :: x, rfl⟩

/-- Trimming does not cut into a block that starts and ends with letters that stay. -/
theorem trimList_block {f : α → Bool} {a b : α} {m : List α} (ha : f a = false) (hb : f b = false)
    (x y : List α) : ∃ x' y', trimList f (x ++ (a :: (m ++ [b]) ++ y)) = x' ++
      (a :: (m ++ [b]) ++ y') := by
  obtain ⟨x', hx⟩ := dropWhile_block (m := m ++ [b]) ha x y
  have hrev : (x' ++ (a :: (m ++ [b]) ++ y)).reverse =
      y.reverse ++ (b :: (m.reverse ++ [a]) ++ x'.reverse) := by
    simp
  obtain ⟨y', hy⟩ := dropWhile_block (m := m.reverse ++ [a]) hb y.reverse x'.reverse
  refine ⟨x', y'.reverse, ?_⟩
  rw [trimList, hx, hrev, hy]
  simp

/-! ## 2. Words -/

section Words

variable {sep : α → Bool}

/-- The runs of letters between separators. -/
def words (sep : α → Bool) (s : List α) : List (List α) :=
  (s.splitOnP sep).filter fun w => !w.isEmpty

/-- A separator ends a word. -/
theorem words_append_cons {c : α} (hc : sep c = true) (x y : List α) :
    words sep (x ++ c :: y) = words sep x ++ words sep y := by
  unfold words
  rw [List.splitOnP_append_cons x y hc, List.filter_append]

theorem words_of_block {t : List α} (hne : t ≠ []) (ht : ∀ c ∈ t, sep c = false) :
    words sep t = [t] := by
  unfold words
  rw [List.splitOnP_eq_singleton ht]
  exact List.filter_eq_self.mpr (by simpa using hne)

theorem splitOnP_block {t : List α} (ht : ∀ c ∈ t, sep c = false) (y : List α) :
    (t ++ y).splitOnP sep = (y.splitOnP sep).modifyHead (t ++ ·) := by
  induction t with
  | nil => cases h : y.splitOnP sep <;> simp [h]
  | cons c t ih =>
    have hc : ¬sep c = true := by simp [ht c List.mem_cons_self]
    rw [List.cons_append, List.splitOnP_cons_eq_if_modifyHead, if_neg hc,
      ih fun d hd => ht d (List.mem_cons_of_mem _ hd)]
    cases h : y.splitOnP sep <;> simp

/-- The word at the front of a text begins with the text's first letters. -/
theorem exists_word_of_block {t : List α} (hne : t ≠ []) (ht : ∀ c ∈ t, sep c = false)
    (y : List α) : ∃ w ∈ words sep (t ++ y), t <+: w := by
  cases h : y.splitOnP sep with
  | nil => exact absurd h (List.splitOnP_ne_nil _ _)
  | cons w ws =>
    refine ⟨t ++ w, ?_, List.prefix_append _ _⟩
    unfold words
    rw [splitOnP_block ht, h, List.modifyHead_cons]
    refine List.mem_filter.mpr ⟨List.mem_cons_self, ?_⟩
    simp [hne]

end Words

/-! ## 3. Counting

The source counts from the left and skips what it has counted.  `countFrom` has the number of
letters that are still to be skipped, so the recursion is structural. -/

variable [DecidableEq α]

/-- Occurrences of `sep` behind the first `skip` letters that do not overlap. -/
def countFrom (sep : List α) : Nat → List α → Nat
  | _, [] => 0
  | skip + 1, _ :: cs => countFrom sep skip cs
  | 0, c :: cs =>
    if sep.isPrefixOf (c :: cs) then countFrom sep (sep.length - 1) cs + 1
    else countFrom sep 0 cs

/-- `strings.Count` of a pattern that is not empty. -/
def count (sep s : List α) : Nat := countFrom sep 0 s

section Pattern

variable {h : α} {t : List α}

theorem count_eq_zero {s : List α} : count (h :: t) s = 0 ↔ ¬h :: t <:+: s := by
  induction s with
  | nil => simp [count, countFrom]
  | cons c s ih =>
    unfold count at ih ⊢
    rw [countFrom, List.infix_cons_iff]
    by_cases hpre : (h :: t).isPrefixOf (c :: s) = true
    · rw [if_pos hpre]
      simp [List.isPrefixOf_iff_prefix.mp hpre]
    · rw [if_neg hpre, ih]
      simp [mt List.isPrefixOf_iff_prefix.mpr hpre]

/-- Something is counted exactly when the pattern occurs. -/
theorem count_pos {s : List α} : 0 < count (h :: t) s ↔ h :: t <:+: s := by
  rw [Nat.pos_iff_ne_zero, ne_eq, count_eq_zero, not_not]

/-- **Cutting a text where the pattern cannot go on keeps the number of occurrences.**  An
occurrence across the cut would have the letter `c` behind its first one, and the pattern has it
nowhere there. -/
theorem count_append_cons {x y : List α} {c : α} (hc : c ∉ t) :
    count (h :: t) (x ++ c :: y) = count (h :: t) x + count (h :: t) (c :: y) := by
  have hgen : ∀ (x : List α) (k : Nat), k ≤ x.length →
      countFrom (h :: t) k (x ++ c :: y) =
        countFrom (h :: t) k x + countFrom (h :: t) 0 (c :: y) := by
    intro x
    induction x with
    | nil =>
      intro k hk
      obtain rfl : k = 0 := Nat.le_zero.mp hk
      rw [List.nil_append, countFrom.eq_def (h :: t) 0 []]
      simp
    | cons a x ih =>
      intro k hk
      cases k with
      | succ k => exact ih k (Nat.le_of_succ_le_succ hk)
      | zero =>
        have hsame : (h :: t).isPrefixOf (a :: (x ++ c :: y)) = (h :: t).isPrefixOf (a :: x) := by
          rw [Bool.eq_iff_iff, List.isPrefixOf_iff_prefix, List.isPrefixOf_iff_prefix,
            List.cons_prefix_cons, List.cons_prefix_cons, prefix_append_cons hc]
        rw [List.cons_append, countFrom, countFrom, hsame]
        by_cases hpre : (h :: t).isPrefixOf (a :: x) = true
        · have hlen : t.length ≤ x.length := by
            have := (List.isPrefixOf_iff_prefix.mp hpre).length_le
            simpa using this
          rw [if_pos hpre, if_pos hpre, List.length_cons, Nat.add_sub_cancel, ih _ hlen]
          omega
        · rw [if_neg hpre, if_neg hpre, ih 0 (Nat.zero_le _)]
  exact hgen x 0 (Nat.zero_le _)

theorem count_cons_of_notMem {y : List α} {c : α} (hc : c ∉ h :: t) :
    count (h :: t) (c :: y) = count (h :: t) y := by
  have hpre : ¬(h :: t).isPrefixOf (c :: y) = true := by
    rw [List.isPrefixOf_iff_prefix, List.cons_prefix_cons]
    rintro ⟨rfl, -⟩
    exact hc List.mem_cons_self
  rw [count, countFrom, if_neg hpre]
  rfl

theorem count_nil : count (h :: t) [] = 0 := rfl

/-- A letter the pattern does not have cuts a text in two. -/
theorem count_append_notMem {x y : List α} {c : α} (hc : c ∉ h :: t) :
    count (h :: t) (x ++ c :: y) = count (h :: t) x + count (h :: t) y := by
  rw [count_append_cons fun hmem => hc (List.mem_cons_of_mem _ hmem), count_cons_of_notMem hc]

theorem countFrom_length (s y : List α) (k : Nat) :
    countFrom (h :: t) (s.length + k) (s ++ y) = countFrom (h :: t) k y := by
  induction s with
  | nil => rw [List.length_nil, Nat.zero_add, List.nil_append]
  | cons c s ih =>
    rw [List.length_cons, Nat.add_right_comm, List.cons_append, countFrom, ih]

/-- An occurrence in front counts one. -/
theorem count_self_append (y : List α) : count (h :: t) (h :: t ++ y) = count (h :: t) y + 1 := by
  have hpre : (h :: t).isPrefixOf (h :: (t ++ y)) = true := by
    rw [List.isPrefixOf_iff_prefix, List.cons_prefix_cons]
    exact ⟨rfl, List.prefix_append _ _⟩
  have hskip := countFrom_length (h := h) (t := t) t y 0
  rw [Nat.add_zero] at hskip
  rw [count, List.cons_append, countFrom, if_pos hpre, List.length_cons, Nat.add_sub_cancel, hskip]
  rfl

/-- An occurrence inside counts one more than both sides. -/
theorem count_split (hh : h ∉ t) (x y : List α) :
    count (h :: t) (x ++ (h :: t ++ y)) = count (h :: t) x + count (h :: t) y + 1 := by
  have h1 := count_append_cons (h := h) (x := x) (y := t ++ y) hh
  rw [List.cons_append, h1, ← List.cons_append, count_self_append]
  omega

/-- Trimming letters that the pattern does not have removes no occurrence. -/
theorem count_trimList {f : α → Bool} (hf : ∀ c ∈ h :: t, f c = false) (x : List α) :
    count (h :: t) (trimList f x) = count (h :: t) x := by
  have hout : ∀ c, f c = true → c ∉ h :: t := by
    intro c hc hmem
    rw [hf c hmem] at hc
    cases hc
  have hfront : ∀ x : List α, count (h :: t) (x.dropWhile f) = count (h :: t) x := by
    intro x
    induction x with
    | nil => rfl
    | cons c x ih =>
      by_cases hc : f c = true
      · rw [List.dropWhile_cons_of_pos hc, ih, count_cons_of_notMem (hout c hc)]
      · rw [List.dropWhile_cons_of_neg hc]
  have hback : ∀ x : List α, count (h :: t) (x.reverse.dropWhile f).reverse = count (h :: t) x := by
    intro x
    induction x using List.reverseRecOn with
    | nil => rfl
    | append_singleton x c ih =>
      rw [List.reverse_concat]
      by_cases hc : f c = true
      · rw [List.dropWhile_cons_of_pos hc, ih, count_append_notMem (hout c hc), count_nil,
          Nat.add_zero]
      · rw [List.dropWhile_cons_of_neg hc, List.reverse_cons, List.reverse_reverse]
  rw [trimList, hback, hfront]

end Pattern

/-! ## 4. The first occurrence, and what stands between two patterns

When each of the two patterns occurs exactly once, there is one way to split the text, and a
function that looks for the first occurrence of each finds it. -/

section Between

/-- Cutting at the first occurrence takes the text apart without losing anything. -/
theorem cutList_spec {p s a b : List α} (hs : cutList p s = some (a, b)) : s = a ++ (p ++ b) := by
  induction s generalizing a with
  | nil =>
    unfold cutList at hs
    split at hs
    · rename_i hp
      cases hs
      rw [List.isEmpty_iff.mp hp]
      rfl
    · cases hs
  | cons c s ih =>
    unfold cutList at hs
    split at hs
    · rename_i hpre
      obtain ⟨r, hr⟩ := List.isPrefixOf_iff_prefix.mp hpre
      cases hs
      rw [← hr, List.drop_left, List.nil_append]
    · obtain ⟨⟨a', b'⟩, hcut, heq⟩ := Option.map_eq_some_iff.mp hs
      cases heq
      rw [ih hcut]
      rfl

/-- Splitting a text at the first occurrence of a pattern. -/
theorem cutList_of_split {h : α} {t : List α} (hh : h ∉ t) {x : List α} (y : List α)
    (hx : count (h :: t) x = 0) : cutList (h :: t) (x ++ (h :: t ++ y)) = some (x, y) := by
  induction x with
  | nil =>
    rw [List.nil_append, List.cons_append, cutList, if_pos]
    · simp
    · rw [List.isPrefixOf_iff_prefix, ← List.cons_append]
      exact List.prefix_append _ _
  | cons c x ih =>
    rw [count_eq_zero, List.infix_cons_iff, not_or] at hx
    have hpre : ¬(h :: t).isPrefixOf (c :: (x ++ (h :: t ++ y))) = true := by
      rw [List.isPrefixOf_iff_prefix, List.cons_prefix_cons, List.cons_append,
        prefix_append_cons hh, ← List.cons_prefix_cons]
      exact hx.1
    rw [List.cons_append, cutList, if_neg hpre, ih (count_eq_zero.mpr hx.2)]
    rfl

/-- The text behind the first `p` and before the first `q`; nothing when they come in the other
order. -/
def between (p q s : List α) : Option (List α) :=
  match cutList p s, cutList q s with
  | some (a, b), some (a', _) =>
    if a'.length < a.length + p.length then none
    else some (b.take (a'.length - (a.length + p.length)))
  | _, _ => none

variable {h k : α} {t u : List α}

/-- **What stands between two patterns that occur once each.**  The first occurrences are the only
ones, so any split of the text at both is the one that the function finds. -/
theorem between_eq_some (hh : h ∉ t) (hk : k ∉ u) {s m : List α} (hp : count (h :: t) s = 1)
    (hq : count (k :: u) s = 1) :
    between (h :: t) (k :: u) s = some m ↔
      ∃ x y, s = x ++ (h :: t ++ (m ++ (k :: u ++ y))) := by
  constructor
  · intro hb
    unfold between at hb
    split at hb
    · rename_i a b a' b' hcp hcq
      have hsp := cutList_spec hcp
      have hsq := cutList_spec hcq
      split at hb
      · cases hb
      · rename_i hle
        cases hb
        have hpre : a ++ (h :: t) <+: a' := by
          have hps : a ++ (h :: t) <+: s := ⟨b, by rw [hsp, List.append_assoc]⟩
          have hqs : a' <+: s := ⟨k :: u ++ b', hsq.symm⟩
          refine List.prefix_of_prefix_length_le hps hqs ?_
          rw [List.length_append]
          omega
        obtain ⟨m, rfl⟩ := hpre
        have hbm : b = m ++ (k :: u ++ b') := by
          have heq := hsp.symm.trans hsq
          rw [List.append_assoc, List.append_assoc] at heq
          exact List.append_cancel_left (List.append_cancel_left heq)
        have hlen : (a ++ (h :: t) ++ m).length - (a.length + (h :: t).length) = m.length := by
          simp only [List.length_append]
          omega
        rw [hlen, hbm, List.take_left]
        exact ⟨a, b', by rw [hsp, hbm]⟩
    · cases hb
  · rintro ⟨x, y, rfl⟩
    have hx : count (h :: t) x = 0 := by
      rw [count_split hh] at hp
      omega
    have hassoc : x ++ (h :: t ++ (m ++ (k :: u ++ y))) =
        (x ++ (h :: t) ++ m) ++ (k :: u ++ y) := by
      simp only [List.append_assoc]
    have hm : count (k :: u) (x ++ (h :: t) ++ m) = 0 := by
      rw [hassoc, count_split hk] at hq
      omega
    have hcp := cutList_of_split hh (m ++ (k :: u ++ y)) hx
    have hcq := cutList_of_split hk y hm
    rw [← hassoc] at hcq
    unfold between
    rw [hcp, hcq]
    have hlt : ¬(x ++ (h :: t) ++ m).length < x.length + (h :: t).length := by
      simp only [List.length_append]
      omega
    have hlen : (x ++ (h :: t) ++ m).length - (x.length + (h :: t).length) = m.length := by
      simp only [List.length_append]
      omega
    simp only [if_neg hlt, hlen, List.take_left]

end Between

end Lib.Occurs
