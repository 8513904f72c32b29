/-
# Sorting by a comparison

A sort that is only promised a comparison function (less, equal, greater) and only promises a sorted
permutation: it need not be stable, and it promises nothing when the comparison is not an order.
The comparison need only be an order on the elements that are sorted (`OrderedOn`); orders on keys
are, and lexicographic combinations of orders are.

When different elements never compare as equal (`Separates`), the sorted permutation is unique.  So
the result does not depend on the order of the input (`sort_eq_of_perm`), and sorting some of the
elements is sorting all of them and leaving the others out (`sort_filter`).

## Why not a total order on the type

Go's `slices.SortFunc` takes any function.  The comparisons of the source look up tables, compare
ratios that exist only for the elements at hand, and break ties by a name; on other values of the
type they are no order at all.  So the order is asked on the elements of the list (`OrderedOn`), and
a sort is any function that permutes and, given an order on the elements, sorts (`SortFunc`).  A
result about every `SortFunc` holds of the library's sort, whatever its version does with ties.

* §1  Orders from keys, the other way round, and one behind another (`andThen`).
* §2  Uniqueness, and what follows from it.
* §3  One sort, so that a ranking can be evaluated.
* §4  The stable sort, where ties keep their order.
-/
import Mathlib.Data.List.Sort
import Mathlib.Order.Compare

namespace Lib.Sorting

variable {α κ : Type} {cmp cmp' : α → α → Ordering} {l l' : List α}

/-! ## 1. Comparisons -/

/-- An order on the elements of a list. -/
structure OrderedOn (cmp : α → α → Ordering) (l : List α) : Prop where
  swap : ∀ a ∈ l, ∀ b ∈ l, cmp b a = (cmp a b).swap
  trans : ∀ a ∈ l, ∀ b ∈ l, ∀ c ∈ l, cmp a b ≠ .gt → cmp b c ≠ .gt → cmp a c ≠ .gt

/-- Different elements are not equal to the comparison. -/
def Separates (cmp : α → α → Ordering) (l : List α) : Prop :=
  ∀ a ∈ l, ∀ b ∈ l, cmp a b = .eq → a = b

namespace OrderedOn

theorem subset (h : OrderedOn cmp l) (hsub : ∀ a ∈ l', a ∈ l) : OrderedOn cmp l' where
  swap a ha b hb := h.swap a (hsub a ha) b (hsub b hb)
  trans a ha b hb c hc := h.trans a (hsub a ha) b (hsub b hb) c (hsub c hc)

theorem congr (h : OrderedOn cmp l) (heq : ∀ a ∈ l, ∀ b ∈ l, cmp' a b = cmp a b) :
    OrderedOn cmp' l where
  swap a ha b hb := by rw [heq a ha b hb, heq b hb a ha, h.swap a ha b hb]
  trans a ha b hb c hc := by
    rw [heq a ha b hb, heq b hb c hc, heq a ha c hc]
    exact h.trans a ha b hb c hc

/-- Comparing keys. -/
theorem of_key [Ord κ] [Std.TransOrd κ] (key : α → κ) (l : List α) :
    OrderedOn (fun a b => compare (key a) (key b)) l where
  swap a _ b _ := Std.OrientedCmp.eq_swap
  trans a _ b _ c _ hab hbc := by
    rw [ne_eq, ← Ordering.isLE_iff_ne_gt] at hab hbc ⊢
    exact Std.TransCmp.isLE_trans hab hbc

/-- Comparing the other way round. -/
theorem flip (h : OrderedOn cmp l) : OrderedOn (fun a b => cmp b a) l where
  swap a ha b hb := h.swap b hb a ha
  trans a ha b hb c hc hab hbc := h.trans c hc b hb a ha hbc hab

/-- Two elements that are in order both ways are equal. -/
theorem antisymm (h : OrderedOn cmp l) {a b : α} (ha : a ∈ l) (hb : b ∈ l) (hab : cmp a b ≠ .gt)
    (hba : cmp b a ≠ .gt) : cmp a b = .eq := by
  rw [h.swap a ha b hb] at hba
  cases hx : cmp a b with
  | eq => rfl
  | lt =>
    rw [hx] at hba
    exact absurd rfl hba
  | gt => exact absurd hx hab

/-- **One comparison, and another one for ties.**  Transitivity is the case distinction: a tie in
the first comparison on one side and a decision on the other is a decision. -/
theorem andThen (h : OrderedOn cmp l) (h' : OrderedOn cmp' l) :
    OrderedOn (fun a b => (cmp a b).then (cmp' a b)) l where
  swap a ha b hb := by rw [h.swap a ha b hb, h'.swap a ha b hb, Ordering.swap_then]
  trans a ha b hb c hc hab hbc := by
    -- A tie in the composite is a tie in both parts, since the first part is transitive.
    have hfirst : ∀ {x y : α}, (cmp x y).then (cmp' x y) ≠ .gt → cmp x y ≠ .gt := by
      intro x y hxy hgt
      rw [hgt] at hxy
      exact hxy rfl
    have hac := h.trans a ha b hb c hc (hfirst hab) (hfirst hbc)
    cases hcmp : cmp a c with
    | gt => exact absurd hcmp hac
    | lt => nofun
    | eq =>
      have hca : cmp c a ≠ .gt := by
        rw [h.swap a ha c hc, hcmp]
        decide
      have hab' := h.antisymm ha hb (hfirst hab) (h.trans b hb c hc a ha (hfirst hbc) hca)
      have hbc' := h.antisymm hb hc (hfirst hbc) (h.trans c hc a ha b hb hca (hfirst hab))
      rw [hab'] at hab
      rw [hbc'] at hbc
      exact h'.trans a ha b hb c hc hab hbc

end OrderedOn

/-! ## 2. Sorting

All the results say that a sort is determined by what is sorted; none looks inside it. -/

/-- Any sort that may be given a comparison. -/
structure SortFunc where
  sort : {α : Type} → (α → α → Ordering) → List α → List α
  perm : ∀ {α : Type} (cmp : α → α → Ordering) (l : List α), (sort cmp l).Perm l
  sorted : ∀ {α : Type} {cmp : α → α → Ordering} {l : List α}, OrderedOn cmp l →
    (sort cmp l).Pairwise fun a b => cmp a b ≠ .gt

namespace SortFunc

variable (s : SortFunc)

/-- **There is one sorted permutation.**  Two sorted permutations of one list agree element by
element, since two elements that are in order both ways are equal to the comparison, and `Separates`
makes them the same. -/
theorem sort_eq (h : OrderedOn cmp l) (hsep : Separates cmp l) (hp : l'.Perm l)
    (hs : l'.Pairwise fun a b => cmp a b ≠ .gt) : s.sort cmp l = l' := by
  refine List.Perm.eq_of_pairwise (fun a b ha hb hab hba => ?_) (s.sorted h) hs
    ((s.perm cmp l).trans hp.symm)
  have ha := (s.perm cmp l).mem_iff.mp ha
  have hb := hp.mem_iff.mp hb
  exact hsep a ha b hb (h.antisymm ha hb hab hba)

/-- The order of the input does not matter. -/
theorem sort_eq_of_perm (h : OrderedOn cmp l) (hsep : Separates cmp l) (hp : l'.Perm l) :
    s.sort cmp l' = s.sort cmp l := by
  have hsub : ∀ a ∈ l', a ∈ l := fun a ha => hp.mem_iff.mp ha
  exact (s.sort_eq h hsep ((s.perm cmp l').trans hp) (s.sorted (h.subset hsub))).symm

/-- Leaving elements out and sorting commute. -/
theorem sort_filter (h : OrderedOn cmp l) (hsep : Separates cmp l) (p : α → Bool) :
    s.sort cmp (l.filter p) = (s.sort cmp l).filter p := by
  have hsub : ∀ a ∈ l.filter p, a ∈ l := fun a ha => List.mem_of_mem_filter ha
  refine s.sort_eq (h.subset hsub) (fun a ha b hb => hsep a (hsub a ha) b (hsub b hb)) ?_ ?_
  · exact (s.perm cmp l).filter p
  · exact (s.sorted h).filter p

end SortFunc

/-! ## 3. One sort -/

/-- The insertion sort.  It sorts the elements with their membership, so that the comparison need be
an order on them only. -/
def insertion : SortFunc where
  sort cmp l := (l.attach.insertionSort fun a b => cmp a.val b.val ≠ .gt).map Subtype.val
  perm cmp l := by
    have h :=
      (List.perm_insertionSort (fun a b : { x // x ∈ l } => cmp a.val b.val ≠ .gt) l.attach).map
      Subtype.val
    rwa [List.attach_map_subtype_val] at h
  sorted := by
    intro α cmp l h
    have htotal : Std.Total fun a b : { x // x ∈ l } => cmp a.val b.val ≠ .gt :=
      ⟨fun a b => by
        rw [h.swap a.val a.property b.val b.property]
        cases cmp a.val b.val <;> simp⟩
    have htrans : IsTrans { x // x ∈ l } fun a b => cmp a.val b.val ≠ .gt :=
      ⟨fun a b c => h.trans a.val a.property b.val b.property c.val c.property⟩
    exact List.pairwise_map.mpr (List.pairwise_insertionSort _ _)

/-! ## 4. Ties -/

theorem map_orderedInsert_of {β : Type} {r : β → β → Prop} {r' : α → α → Prop} [DecidableRel r]
    [DecidableRel r'] (f : α → β) {a : α} {l : List α} (h : ∀ b ∈ l, r (f a) (f b) ↔ r' a b) :
    (l.orderedInsert r' a).map f = (l.map f).orderedInsert r (f a) := by
  induction l with
  | nil => rfl
  | cons b l ih =>
    rw [List.map_cons, List.orderedInsert_cons, List.orderedInsert_cons]
    by_cases hb : r' a b
    · rw [if_pos hb, if_pos ((h b List.mem_cons_self).mpr hb)]
      rfl
    · rw [if_neg hb, if_neg (fun hr => hb ((h b List.mem_cons_self).mp hr)), List.map_cons,
        ih fun c hc => h c (List.mem_cons_of_mem _ hc)]

/-- **A stable sort asks only whether an element may stay before a later one.**  So ties may be
broken in favour of the earlier element. -/
theorem insertionSort_map_of {β : Type} {r : β → β → Prop} {r' : α → α → Prop} [DecidableRel r]
    [DecidableRel r'] (f : α → β) {l : List α} (h : l.Pairwise fun a b => r (f a) (f b) ↔ r' a b) :
    (l.map f).insertionSort r = (l.insertionSort r').map f := by
  induction l with
  | nil => rfl
  | cons a l ih =>
    rw [List.pairwise_cons] at h
    rw [List.map_cons, List.insertionSort_cons, List.insertionSort_cons, ih h.2]
    refine (map_orderedInsert_of f fun b hb => h.1 b ?_).symm
    exact (List.mem_insertionSort r').mp hb

end Lib.Sorting
