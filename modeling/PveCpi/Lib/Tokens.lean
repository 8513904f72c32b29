/-
# Lists of tokens kept in one text

A text that holds a list: the tokens stand one after another with a separator between them.  The
module has what code does with such a text: split it and trim the tokens (`tokens`), write it back
(`joined`), merge lists without repeating a token (`distinct`), and cut the list where the text
would grow too long (`fitting`).

* `tokens_joined`: what is written reads back, when no token holds a separator or has blanks at its
  ends;
* `distinct_append`, `prefix_fitting`: tokens in front survive both the merge and the cut, as long
  as they fit by themselves.

A list that is kept in one text is read, changed and written again by code that does not know of
each other.  Two questions are asked about every such edit: does a token that was there come back,
and can a token be pushed out by others.  Both are answered for lists, before any text: splitting
undoes joining on clean tokens, and the merge and the cut both keep a prefix.

The letters are of any type, with the separators and the blanks as predicates and the size of a
letter as a function, because the limit of the source counts bytes while the tokens are characters.
-/
import PveCpi.Lib.Text
import Mathlib

namespace Lib.Tokens

open Lib.Text

variable {α : Type}

/-! ## 1. Splitting and joining

A token is `Clean` when it has no separator, is not empty, and has no blank at its ends.  What is
read is clean, so after one reading the text is in normal form. -/

section Split

variable (sep : α → Bool) (blank : α → Bool)

/-- The trimmed parts between separators, without the empty ones. -/
def tokens (s : List α) : List (List α) :=
  ((s.splitOnP sep).map (trimList blank)).filter fun t => !t.isEmpty

/-- The tokens with a separator between any two. -/
def joined (c : α) (ts : List (List α)) : List α := [c].intercalate ts

/-- A token that survives splitting and trimming. -/
structure Clean (t : List α) : Prop where
  ne_nil : t ≠ []
  separators : ∀ c ∈ t, sep c = false
  trimmed : trimList blank t = t

variable {sep blank}

/-- The pieces of a split have no separator, and nothing that was not there. -/
theorem mem_of_mem_splitOnP {s : List α} : ∀ t ∈ s.splitOnP sep, ∀ c ∈ t, sep c = false ∧
    c ∈ s := by
  induction s with
  | nil =>
    intro t ht c hc
    rw [List.splitOnP_nil, List.mem_singleton] at ht
    rw [ht] at hc
    exact absurd hc List.not_mem_nil
  | cons x xs ih =>
    intro t ht c hc
    rw [List.splitOnP_cons_eq_if_modifyHead] at ht
    by_cases hx : sep x = true
    · rw [if_pos hx] at ht
      rcases List.mem_cons.mp ht with rfl | ht
      · exact absurd hc List.not_mem_nil
      · exact ⟨(ih t ht c hc).1, List.mem_cons_of_mem _ (ih t ht c hc).2⟩
    · rw [if_neg hx] at ht
      cases hs : xs.splitOnP sep with
      | nil => exact absurd hs (List.splitOnP_ne_nil _ _)
      | cons t₀ ts =>
        rw [hs, List.modifyHead_cons] at ht
        rcases List.mem_cons.mp ht with rfl | ht
        · rcases List.mem_cons.mp hc with rfl | hc
          · exact ⟨Bool.eq_false_iff.mpr hx, List.mem_cons_self⟩
          · have h₀ := ih t₀ (by rw [hs]; exact List.mem_cons_self) c hc
            exact ⟨h₀.1, List.mem_cons_of_mem _ h₀.2⟩
        · have h₁ := ih t (by rw [hs]; exact List.mem_cons_of_mem _ ht) c hc
          exact ⟨h₁.1, List.mem_cons_of_mem _ h₁.2⟩

theorem trimList_sublist (p : α → Bool) (l : List α) : (trimList p l).Sublist l := by
  unfold trimList
  have h₁ : ((l.dropWhile p).reverse.dropWhile p).Sublist (l.dropWhile p).reverse :=
    (List.dropWhile_suffix p).sublist
  have h₂ := h₁.reverse
  rw [List.reverse_reverse] at h₂
  exact h₂.trans (List.dropWhile_suffix p).sublist

theorem dropWhile_dropWhile (p : α → Bool) (l : List α) :
    (l.dropWhile p).dropWhile p = l.dropWhile p := by
  induction l with
  | nil => rfl
  | cons x xs ih =>
    by_cases hx : p x = true
    · rw [List.dropWhile_cons_of_pos hx, ih]
    · rw [List.dropWhile_cons_of_neg hx, List.dropWhile_cons_of_neg hx]

/-- The front of a trimmed list stays when the end is trimmed. -/
theorem dropWhile_trimList (p : α → Bool) (l : List α) :
    (trimList p l).dropWhile p = trimList p l := by
  unfold trimList
  cases hd : l.dropWhile p with
  | nil => simp
  | cons x xs =>
    have hx : ¬p x = true := by
      have hne : l.dropWhile p ≠ [] := by
        rw [hd]
        exact List.cons_ne_nil _ _
      have h := List.head_dropWhile_not p hne
      simp only [hd, List.head_cons] at h
      exact Bool.eq_false_iff.mp h
    -- The end that is dropped does not reach the first element.
    have hmem : ((x :: xs).reverse.dropWhile p).reverse <+: x :: xs := by
      have h := List.dropWhile_suffix p (l := (x :: xs).reverse)
      have h' := List.reverse_prefix.mpr h
      rwa [List.reverse_reverse] at h'
    cases hr : ((x :: xs).reverse.dropWhile p).reverse with
    | nil => simp
    | cons y ys =>
      rw [hr] at hmem
      obtain ⟨rest, hrest⟩ := hmem
      rw [List.cons_append] at hrest
      rw [(List.cons.inj hrest).1, List.dropWhile_cons_of_neg hx]

theorem trimList_trimList (p : α → Bool) (l : List α) :
    trimList p (trimList p l) = trimList p l := by
  have h : trimList p l = ((l.dropWhile p).reverse.dropWhile p).reverse := rfl
  rw [show trimList p (trimList p l) =
    (((trimList p l).dropWhile p).reverse.dropWhile p).reverse from rfl, dropWhile_trimList, h,
    List.reverse_reverse, dropWhile_dropWhile]

theorem trimList_split (p : α → Bool) (l : List α) : ∃ a b,
    l = a ++ (trimList p l ++ b) ∧ (∀ c ∈ a, p c = true) ∧ ∀ c ∈ b, p c = true := by
  refine ⟨l.takeWhile p, ((l.dropWhile p).reverse.takeWhile p).reverse, ?_,
    fun c hc => List.mem_takeWhile_imp hc,
    fun c hc => List.mem_takeWhile_imp (List.mem_reverse.mp hc)⟩
  rw [trimList, ← List.reverse_append, List.takeWhile_append_dropWhile, List.reverse_reverse,
    List.takeWhile_append_dropWhile]

/-- What would be trimmed may as well be left out at the end. -/
theorem trimList_concat {p : α → Bool} {c : α} (hc : p c = true) (l : List α) :
    trimList p (l ++ [c]) = trimList p l := by
  unfold trimList
  rw [List.dropWhile_append]
  split
  · rename_i hnil
    rw [List.isEmpty_iff.mp hnil, List.dropWhile_cons_of_pos hc]
    rfl
  · rw [List.reverse_append, List.reverse_singleton, List.singleton_append,
      List.dropWhile_cons_of_pos hc]

theorem clean_of_mem_tokens {s t : List α} (h : t ∈ tokens sep blank s) : Clean sep blank t := by
  obtain ⟨hmem, hne⟩ := List.mem_filter.mp h
  obtain ⟨u, hu, rfl⟩ := List.mem_map.mp hmem
  refine ⟨fun hnil => ?_, fun c hc => ?_, trimList_trimList _ _⟩
  · rw [hnil] at hne
    cases hne
  · exact (mem_of_mem_splitOnP u hu c ((trimList_sublist _ _).subset hc)).1

theorem tokens_append {c : α} (hc : sep c = true) (s t : List α) :
    tokens sep blank (s ++ c :: t) = tokens sep blank s ++ tokens sep blank t := by
  rw [tokens, List.splitOnP_append_cons _ _ hc, List.map_append, List.filter_append]
  rfl

/-- What is written reads back as the tokens of its parts. -/
theorem tokens_joined_flatMap {c : α} (hc : sep c = true) (ts : List (List α)) :
    tokens sep blank (joined c ts) = ts.flatMap (tokens sep blank) := by
  induction ts with
  | nil => simp [tokens, joined, trimList]
  | cons t ts ih =>
    cases ts with
    | nil => rw [joined, List.intercalate_singleton, List.flatMap_singleton]
    | cons u us =>
      rw [joined, List.intercalate_cons_cons, List.append_assoc, List.singleton_append,
        tokens_append hc, List.flatMap_cons, ← ih]
      rfl

theorem Clean.tokens_eq {t : List α} (h : Clean sep blank t) : tokens sep blank t = [t] := by
  rw [tokens, List.splitOnP_eq_singleton h.separators, List.map_singleton, h.trimmed]
  simpa using h.ne_nil

/-- **What is written reads back.**  At each separator the text falls apart, and a clean token is
its own only part, with nothing to trim. -/
theorem tokens_joined {c : α} (hc : sep c = true) {ts : List (List α)}
    (h : ∀ t ∈ ts, Clean sep blank t) : tokens sep blank (joined c ts) = ts := by
  rw [tokens_joined_flatMap hc]
  induction ts with
  | nil => rfl
  | cons t ts ih =>
    rw [List.flatMap_cons, (h t List.mem_cons_self).tokens_eq,
      ih fun u hu => h u (List.mem_cons_of_mem _ hu), List.singleton_append]

end Split

/-! ## 2. Tokens without repetitions

The first occurrence of a token decides its place, so the tokens that are put in front stay in
front. -/

section Distinct

variable [DecidableEq α]

/-- Add a token that is new and not empty. -/
def addToken (ts : List (List α)) (t : List α) : List (List α) :=
  if t.isEmpty || ts.contains t then ts else ts ++ [t]

/-- The tokens in the order of their first occurrences. -/
def distinct (ts : List (List α)) : List (List α) := ts.foldl addToken []

/-- A token is added unless it is empty or there already. -/
theorem mem_addToken {ts : List (List α)} {t u : List α} :
    u ∈ addToken ts t ↔ u ∈ ts ∨ (u = t ∧ t ≠ []) := by
  unfold addToken
  split
  · rename_i h
    rw [Bool.or_eq_true, List.isEmpty_iff, List.contains_iff_mem] at h
    constructor
    · exact .inl
    · rintro (hu | ⟨rfl, hne⟩)
      · exact hu
      · exact h.resolve_left hne
  · rename_i h
    rw [Bool.or_eq_true, List.isEmpty_iff, not_or] at h
    rw [List.mem_append, List.mem_singleton]
    exact or_congr_right ⟨fun hu => ⟨hu, h.1⟩, fun hu => hu.1⟩

theorem mem_foldl_addToken {ts acc : List (List α)} {u : List α} :
    u ∈ ts.foldl addToken acc ↔ u ∈ acc ∨ (u ∈ ts ∧ u ≠ []) := by
  induction ts generalizing acc with
  | nil => simp
  | cons t ts ih =>
    rw [List.foldl_cons, ih, mem_addToken, List.mem_cons, or_assoc]
    refine or_congr_right ⟨?_, ?_⟩
    · rintro (⟨rfl, hne⟩ | ⟨hu, hne⟩)
      · exact ⟨.inl rfl, hne⟩
      · exact ⟨.inr hu, hne⟩
    · rintro ⟨rfl | hu, hne⟩
      · exact .inl ⟨rfl, hne⟩
      · exact .inr ⟨hu, hne⟩

@[simp] theorem mem_distinct {ts : List (List α)} {u : List α} :
    u ∈ distinct ts ↔ u ∈ ts ∧ u ≠ [] := by
  rw [distinct, mem_foldl_addToken]
  simp

theorem prefix_foldl_addToken (ts acc : List (List α)) : acc <+: ts.foldl addToken acc := by
  induction ts generalizing acc with
  | nil => exact List.prefix_refl acc
  | cons t ts ih =>
    refine List.IsPrefix.trans ?_ (ih _)
    unfold addToken
    split
    · exact List.prefix_refl acc
    · exact List.prefix_append acc [t]

/-- The tokens in front come first. -/
theorem distinct_append (as bs : List (List α)) : distinct as <+: distinct (as ++ bs) := by
  rw [distinct, distinct, List.foldl_append]
  exact prefix_foldl_addToken bs _

/-- Tokens that are added one by one are not repeated. -/
theorem nodup_foldl_addToken {ts acc : List (List α)} (h : acc.Nodup) :
    (ts.foldl addToken acc).Nodup := by
  induction ts generalizing acc with
  | nil => exact h
  | cons t ts ih =>
    refine ih ?_
    unfold addToken
    split
    · exact h
    · rename_i hnew
      rw [Bool.or_eq_true, List.contains_iff_mem, not_or] at hnew
      rw [List.nodup_append]
      refine ⟨h, List.nodup_singleton t, fun a ha b hb hab => hnew.2 ?_⟩
      rw [List.mem_singleton.mp hb] at hab
      exact hab ▸ ha

theorem nodup_distinct (ts : List (List α)) : (distinct ts).Nodup :=
  nodup_foldl_addToken List.nodup_nil

end Distinct

/-! ## 3. The length of the text -/

section Length

variable (size : α → Nat)

/-- The length of a text, when every character has a size. -/
def length (s : List α) : Nat := (s.map size).sum

variable {size}

/-- The length that a list of tokens needs, one separator for each. -/
def needed (size : α → Nat) (c : α) (ts : List (List α)) : Nat :=
  (ts.map fun t => length size t + size c).sum

/-- The size of a joined list, counted with one separator for each entry. -/
theorem length_joined {c : α} (ts : List (List α)) (hne : ts ≠ []) :
    length size (joined c ts) + size c = needed size c ts := by
  induction ts with
  | nil => exact absurd rfl hne
  | cons t ts ih =>
    cases ts with
    | nil =>
      rw [joined, List.intercalate_singleton]
      simp [needed]
    | cons u us =>
      have hrest := ih (List.cons_ne_nil _ _)
      simp only [needed, List.map_cons, List.sum_cons] at hrest ⊢
      rw [joined, List.intercalate_cons_cons]
      simp only [length, List.map_append, List.sum_append, List.map_cons, List.map_nil,
        List.sum_cons, List.sum_nil, joined] at hrest ⊢
      omega

/-- Fewer tokens, or the same in another order, need no more room. -/
theorem length_joined_le {c : α} {as bs : List (List α)} (h : as.Subperm bs) :
    length size (joined c as) ≤ length size (joined c bs) := by
  cases as with
  | nil =>
    have hz : length size (joined c ([] : List (List α))) = 0 := by simp [joined, length]
    rw [hz]
    exact Nat.zero_le _
  | cons a as =>
    have hne : bs ≠ [] := by
      rintro rfl
      exact List.not_mem_nil (h.subset List.mem_cons_self)
    have h₁ : length size (joined c (a :: as)) + size c = needed size c (a :: as) :=
      length_joined (a :: as) (List.cons_ne_nil _ _)
    have h₂ : length size (joined c bs) + size c = needed size c bs := length_joined bs hne
    obtain ⟨l, hl, hsub⟩ := h
    have hsum : needed size c (a :: as) ≤ needed size c bs := by
      rw [needed, ← (hl.map fun t => length size t + size c).sum_eq]
      exact (hsub.map _).sum_le_sum fun _ _ => Nat.zero_le _
    omega

end Length

/-! ## 4. Cutting a list at a length

The cut is at the first token that does not fit; later, shorter tokens are not tried. -/

section Fitting

variable (size : α → Nat) (c : α) (cap : Nat)

/-- The tokens up to the first that does not fit, and the rest. -/
def fitting (kept : List (List α)) : List (List α) → List (List α) × List (List α)
  | [] => (kept, [])
  | t :: ts =>
    if cap < length size (joined c (kept ++ [t])) then (kept, t :: ts)
    else fitting (kept ++ [t]) ts

variable {size c cap}

theorem fitting_append (kept ts : List (List α)) :
    (fitting size c cap kept ts).1 ++ (fitting size c cap kept ts).2 = kept ++ ts := by
  induction ts generalizing kept with
  | nil => rfl
  | cons t ts ih =>
    rw [fitting]
    split
    · rfl
    · rw [ih, List.append_assoc, List.singleton_append]

theorem prefix_fitting_kept (kept ts : List (List α)) :
    kept <+: (fitting size c cap kept ts).1 := by
  induction ts generalizing kept with
  | nil => exact List.prefix_refl kept
  | cons t ts ih =>
    rw [fitting]
    split
    · exact List.prefix_refl kept
    · exact (List.prefix_append kept [t]).trans (ih _)

/-- **Tokens in front that fit by themselves survive the cut.**  The cut looks at the tokens kept so
far and the next one, and every beginning of a list that fits, fits. -/
theorem prefix_fitting {front rest : List (List α)}
    (h : length size (joined c front) ≤ cap) :
    front <+: (fitting size c cap [] (front ++ rest)).1 := by
  suffices hgen : ∀ (front kept : List (List α)), length size (joined c (kept ++ front)) ≤ cap →
      kept ++ front <+: (fitting size c cap kept (front ++ rest)).1 from by
    simpa using hgen front [] (by simpa using h)
  intro front
  induction front with
  | nil =>
    intro kept _
    rw [List.append_nil]
    exact prefix_fitting_kept kept rest
  | cons t ts ih =>
    intro kept hk
    have hfit : ¬cap < length size (joined c (kept ++ [t])) := by
      have hsub : (kept ++ [t]).Subperm (kept ++ t :: ts) :=
        (List.Sublist.append_left (List.singleton_sublist.mpr List.mem_cons_self) kept).subperm
      have hle : length size (joined c (kept ++ [t])) ≤ length size (joined c (kept ++ t :: ts)) :=
        length_joined_le hsub
      omega
    rw [List.cons_append, fitting, if_neg hfit, List.append_cons]
    exact ih (kept ++ [t]) (by rwa [← List.append_cons])

theorem length_fitting (kept ts : List (List α)) (h : length size (joined c kept) ≤ cap) :
    length size (joined c (fitting size c cap kept ts).1) ≤ cap := by
  induction ts generalizing kept with
  | nil => exact h
  | cons t ts ih =>
    rw [fitting]
    split
    · exact h
    · rename_i hfit
      exact ih _ (Nat.le_of_not_lt hfit)

end Fitting

end Lib.Tokens
