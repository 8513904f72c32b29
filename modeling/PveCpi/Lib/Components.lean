/-
# Grouping items that share something

Each item has a footprint, a finite set.  The items come one after another, and each is put together
with all the blocks whose footprint it meets.  The blocks are then the classes of the items that are
linked through shared elements (`mem_block_iff`), so they do not depend on the order in which the
items came.

`blocks` is the loop as a program writes it: one pass over the items, with the blocks found so far
merged as soon as an item connects them.  What it is for is a statement without a loop: `Linked`,
the reflexive and transitive closure of sharing an element.  The two meet in `mem_block_iff`.

The invariant behind it is `Grouped`, about a prefix of the items: no block is empty, the items of a
block are linked through items of the prefix, and two different blocks share nothing.  The last part
is the one that makes the blocks maximal, and it is why an item has to be put together with ALL the
blocks that it meets: with the first one alone it would fail at once.  No order of the items enters
the invariant, so `blocks_congr` follows: two lists with the same items have the same blocks as
sets.
-/
import Mathlib.Data.Finset.Lattice.Fold
import Mathlib.Data.List.Pairwise
import Mathlib.Logic.Relation

namespace Lib.Components

variable {ι κ : Type} [DecidableEq κ]

/-! ## 1. The blocks

Sharing is symmetric but not transitive, so two items of one block need not share anything. -/

/-- Two items share an element. -/
def Meets (res : ι → Finset κ) (x y : ι) : Prop := ¬Disjoint (res x) (res y)

instance (res : ι → Finset κ) (x y : ι) : Decidable (Meets res x y) :=
  inferInstanceAs (Decidable (¬Disjoint (res x) (res y)))

omit [DecidableEq κ] in
theorem Meets.symm {res : ι → Finset κ} {x y : ι} (h : Meets res x y) : Meets res y x :=
  fun hd => h hd.symm

omit [DecidableEq κ] in
theorem meets_iff {res : ι → Finset κ} {x y : ι} : Meets res x y ↔ ∃ s, s ∈ res x ∧ s ∈ res y := by
  rw [Meets, Finset.not_disjoint_iff]

/-- An item shares an element with some item of a block. -/
def touches (res : ι → Finset κ) (x : ι) (block : List ι) : Bool :=
  block.any fun y => decide (Meets res x y)

/-- Put an item together with the blocks it touches. -/
def absorb (res : ι → Finset κ) (blocks : List (List ι)) (x : ι) : List (List ι) :=
  blocks.filter (fun b => !touches res x b) ++ [x :: (blocks.filter (touches res x)).flatten]

/-- The blocks of a list of items. -/
def blocks (res : ι → Finset κ) (l : List ι) : List (List ι) := l.foldl (absorb res) []

theorem blocks_append_singleton (res : ι → Finset κ) (l : List ι) (x : ι) :
    blocks res (l ++ [x]) = absorb res (blocks res l) x := by
  rw [blocks, List.foldl_append]
  rfl

/-- Renaming the items renames the blocks. -/
theorem blocks_map {ι' : Type} (res : ι → Finset κ) (f : ι' → ι) (l : List ι') :
    blocks res (l.map f) = (blocks (fun i => res (f i)) l).map (List.map f) := by
  have htouch : ∀ (x : ι') (b : List ι'),
      touches res (f x) (b.map f) = touches (fun i => res (f i)) x b := by
    intro x b
    rw [touches, touches, List.any_map]
    rfl
  induction l using List.reverseRecOn with
  | nil => rfl
  | append_singleton l x ih =>
    rw [List.map_append, List.map_singleton, blocks_append_singleton, blocks_append_singleton, ih,
      absorb, absorb, List.filter_map, List.filter_map, List.map_append, List.map_singleton,
      List.map_cons, List.map_flatten]
    simp only [Function.comp_def, htouch]

/-- Every item is in a block, and as often as it came: merging blocks only moves items. -/
theorem flatten_blocks_perm (res : ι → Finset κ) (l : List ι) : (blocks res l).flatten.Perm l := by
  induction l using List.reverseRecOn with
  | nil => exact List.Perm.refl _
  | append_singleton l x ih =>
    rw [blocks_append_singleton, absorb, List.flatten_append, List.flatten_singleton]
    have hsplit : (((blocks res l).filter (fun b => !touches res x b)).flatten ++
        ((blocks res l).filter (touches res x)).flatten).Perm (blocks res l).flatten := by
      rw [← List.flatten_append]
      exact (List.perm_append_comm.trans (List.filter_append_perm _ _)).flatten
    refine (List.perm_middle.trans ?_).trans (List.perm_append_singleton x l).symm
    exact (hsplit.trans ih).cons x

theorem mem_blocks {res : ι → Finset κ} {l : List ι} {x : ι} :
    x ∈ l ↔ ∃ b ∈ blocks res l, x ∈ b := by
  rw [← (flatten_blocks_perm res l).mem_iff, List.mem_flatten]

theorem exists_block (res : ι → Finset κ) {l : List ι} {x : ι} (h : x ∈ l) :
    ∃ b ∈ blocks res l, x ∈ b :=
  mem_blocks.mp h

/-! ## 2. What the blocks are

`Linked` speaks of a fixed list of items: a chain may only pass through items of the list.  With one
more item there are more chains (`Linked.mono`), which is what the step from one prefix to the next
uses. -/

/-- A step from an item to one of the list that shares an element with it. -/
def Step (res : ι → Finset κ) (l : List ι) (x y : ι) : Prop := x ∈ l ∧ y ∈ l ∧ Meets res x y

/-- Two items are linked through items of the list. -/
abbrev Linked (res : ι → Finset κ) (l : List ι) : ι → ι → Prop := Relation.ReflTransGen (Step res l)

omit [DecidableEq κ] in
theorem Linked.symm {res : ι → Finset κ} {l : List ι} {x y : ι} (h : Linked res l x y) :
    Linked res l y x := by
  induction h with
  | refl => exact Relation.ReflTransGen.refl
  | tail _ hstep ih => exact ih.head ⟨hstep.2.1, hstep.1, hstep.2.2.symm⟩

omit [DecidableEq κ] in
theorem Linked.mono {res : ι → Finset κ} {l l' : List ι} {x y : ι} (hsub : ∀ z ∈ l, z ∈ l')
    (h : Linked res l x y) : Linked res l' x y := by
  have hstep : Step res l ≤ Step res l' := fun a b hab => ⟨hsub a hab.1, hsub b hab.2.1, hab.2.2⟩
  exact Relation.ReflTransGen.mono hstep x y h

/-- Two blocks share nothing. -/
def Apart (res : ι → Finset κ) (b b' : List ι) : Prop := ∀ x ∈ b, ∀ y ∈ b', ¬Meets res x y

instance (res : ι → Finset κ) : Std.Symm (Apart res) :=
  ⟨fun _ _ h y hy z hz hm => h z hz y hy hm.symm⟩

/-- What holds after each item: no block is empty, the items of a block are linked, and different
blocks share nothing. -/
structure Grouped (res : ι → Finset κ) (l : List ι) (bs : List (List ι)) : Prop where
  nonempty : ∀ b ∈ bs, b ≠ []
  linked : ∀ b ∈ bs, ∀ x ∈ b, ∀ y ∈ b, Linked res l x y
  apart : bs.Pairwise (Apart res)

theorem not_touches {res : ι → Finset κ} {x : ι} {b : List ι} (h : (!touches res x b) = true) :
    ∀ y ∈ b, ¬Meets res x y := by
  intro y hy hm
  rw [touches, Bool.not_eq_true', List.any_eq_false] at h
  exact h y hy (decide_eq_true hm)

/-- **One more item.**  The blocks it touches become one, linked through the item itself.  The
blocks it does not touch share nothing with it and nothing with the merged ones, since they shared
nothing with any of these before. -/
theorem Grouped.absorbed {res : ι → Finset κ} {l : List ι} {bs : List (List ι)} {x : ι}
    (h : Grouped res l bs) (hmem : ∀ b ∈ bs, ∀ y ∈ b, y ∈ l) :
    Grouped res (l ++ [x]) (absorb res bs x) where
  nonempty := by
    intro b hb
    rcases List.mem_append.mp hb with hb | hb
    · exact h.nonempty b (List.mem_of_mem_filter hb)
    · rw [List.mem_singleton.mp hb]
      exact List.cons_ne_nil _ _
  linked := by
    have hold : ∀ b ∈ bs, ∀ y ∈ b, ∀ z ∈ b, Linked res (l ++ [x]) y z := fun b hb y hy z hz =>
      (h.linked b hb y hy z hz).mono fun w hw => List.mem_append_left _ hw
    intro b hb
    rcases List.mem_append.mp hb with hb | hb
    · exact hold b (List.mem_of_mem_filter hb)
    -- Every item of the merged block is linked to the new one.
    rw [List.mem_singleton.mp hb]
    have hnew : ∀ y ∈ x :: (bs.filter (touches res x)).flatten, Linked res (l ++ [x]) x y := by
      intro y hy
      rcases List.mem_cons.mp hy with rfl | hy
      · exact Relation.ReflTransGen.refl
      obtain ⟨b', hb', hyb⟩ := List.mem_flatten.mp hy
      obtain ⟨hb'mem, htouch⟩ := List.mem_filter.mp hb'
      obtain ⟨z, hz, hmeets⟩ := List.any_eq_true.mp htouch
      have hstep : Step res (l ++ [x]) x z :=
        ⟨List.mem_append_right _ List.mem_cons_self, List.mem_append_left _ (hmem b' hb'mem z hz),
          of_decide_eq_true hmeets⟩
      exact (hold b' hb'mem z hz y hyb).head hstep
    intro y hy z hz
    exact (hnew y hy).symm.trans (hnew z hz)
  apart := by
    rw [absorb, List.pairwise_append]
    refine ⟨h.apart.filter _, List.pairwise_singleton _ _, fun b hb b' hb' => ?_⟩
    obtain ⟨hbmem, hbnot⟩ := List.mem_filter.mp hb
    rw [List.mem_singleton.mp hb']
    intro y hy z hz hm
    rcases List.mem_cons.mp hz with rfl | hz
    · exact not_touches hbnot y hy hm.symm
    obtain ⟨c, hc, hzc⟩ := List.mem_flatten.mp hz
    obtain ⟨hcmem, hctouch⟩ := List.mem_filter.mp hc
    have hne : b ≠ c := by
      rintro rfl
      rw [hctouch] at hbnot
      cases hbnot
    exact h.apart.forall hbmem hcmem hne y hy z hzc hm

/-- The invariant holds of the blocks of every list, by induction from its end. -/
theorem grouped (res : ι → Finset κ) (l : List ι) : Grouped res l (blocks res l) := by
  induction l using List.reverseRecOn with
  | nil => exact ⟨nofun, nofun, List.Pairwise.nil⟩
  | append_singleton l x ih =>
    rw [blocks_append_singleton]
    exact ih.absorbed fun b hb y hy => mem_blocks.mpr ⟨b, hb, hy⟩

omit [DecidableEq κ] in
/-- Two items of the list that share an element are in one block. -/
theorem Grouped.same_block {res : ι → Finset κ} {l : List ι} {bs : List (List ι)} {b b' : List ι}
    {x y : ι} (h : Grouped res l bs) (hb : b ∈ bs) (hb' : b' ∈ bs) (hx : x ∈ b) (hy : y ∈ b')
    (hm : Meets res x y) : b = b' := by
  by_contra hne
  exact h.apart.forall hb hb' hne x hx y hy hm

/-- **A block is everything linked to any one of its items.**  From left to right this is the second
part of the invariant.  From right to left a chain is followed step by step: two items that share an
element cannot be in different blocks, so a chain that starts in the block never leaves it. -/
theorem mem_block_iff {res : ι → Finset κ} {l : List ι} {b : List ι} {x y : ι}
    (hb : b ∈ blocks res l) (hx : x ∈ b) : y ∈ b ↔ Linked res l x y := by
  have hg := grouped res l
  refine ⟨hg.linked b hb x hx y, fun hlink => ?_⟩
  induction hlink with
  | refl => exact hx
  | tail _ hstep ih =>
    obtain ⟨b', hb', hy⟩ := exists_block res hstep.2.1
    rw [hg.same_block hb hb' ih hy hstep.2.2]
    exact hy

/-- The blocks of two lists with the same items. -/
theorem blocks_congr {res : ι → Finset κ} {l l' : List ι} {b : List ι} {x : ι}
    (hsame : ∀ y, y ∈ l ↔ y ∈ l')
    (hb : b ∈ blocks res l) (hx : x ∈ b) : ∃ b' ∈ blocks res l', x ∈ b' ∧ ∀ y, y ∈ b' ↔ y ∈ b := by
  have hxl : x ∈ l' := (hsame x).mp (mem_blocks.mpr ⟨b, hb, hx⟩)
  obtain ⟨b', hb', hx'⟩ := exists_block res hxl
  refine ⟨b', hb', hx', fun y => ?_⟩
  rw [mem_block_iff hb hx, mem_block_iff hb' hx']
  exact ⟨Linked.mono fun z => (hsame z).mpr, Linked.mono fun z => (hsame z).mp⟩

end Lib.Components
