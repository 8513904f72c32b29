/-
# Lists that only grow

`Extends R l l'`: every element of `l` still stands at its position in `l'`, changed at most as
`R` allows; `l'` may have more elements behind.  This is what a list of evidence does over time,
so the relation is reflexive and transitive whenever `R` is.

The source never says that a list grows: it compares the old list with the new one, position by
position, and refuses what has changed.  `iff_zip` reads such a loop as the relation.  Between two
saved states it then holds of each step, and along a run by `trans`.

The relation on the elements is a parameter because the lists are nested: an attempt may change, but
only in that its own list of steps grows.  `Extends (Extends R)` is this, and every lemma applies at
each level.
-/
import Mathlib.Data.List.Basic

namespace Lib

variable {α β : Type} {R R' : α → α → Prop}

/-- Every element keeps its position and changes at most by `R`. -/
def Extends (R : α → α → Prop) (l l' : List α) : Prop :=
  ∀ (i : Nat) (a : α), l[i]? = some a → ∃ b, l'[i]? = some b ∧ R a b

namespace Extends

theorem refl (hR : ∀ a, R a a) (l : List α) : Extends R l l := by
  intro i a ha
  exact ⟨a, ha, hR a⟩

/-- What has grown twice has grown: a position of the first list is one of the second, and the
second's elements have changed as `R` allows. -/
theorem trans (hR : ∀ a b c, R a b → R b c → R a c) {l l' l'' : List α}
    (h : Extends R l l') (h' : Extends R l' l'') : Extends R l l'' := by
  intro i a ha
  obtain ⟨b, hb, hab⟩ := h i a ha
  obtain ⟨c, hc, hbc⟩ := h' i b hb
  exact ⟨c, hc, hR a b c hab hbc⟩

theorem mono (hR : ∀ a b, R a b → R' a b) {l l' : List α} (h : Extends R l l') :
    Extends R' l l' := by
  intro i a ha
  obtain ⟨b, hb, hab⟩ := h i a ha
  exact ⟨b, hb, hR a b hab⟩

theorem length_le {l l' : List α} (h : Extends R l l') : l.length ≤ l'.length := by
  by_contra hlt
  have hi : l'.length < l.length := by omega
  obtain ⟨b, hb, _⟩ := h l'.length (l[l'.length]) (List.getElem?_eq_getElem hi)
  simp at hb

/-- Mapping both lists maps the relation. -/
theorem map {S : β → β → Prop} (f : α → β) (hS : ∀ a b, R a b → S (f a) (f b))
    {l l' : List α} (h : Extends R l l') : Extends S (l.map f) (l'.map f) := by
  intro i c hc
  rw [List.getElem?_map, Option.map_eq_some_iff] at hc
  obtain ⟨a, ha, rfl⟩ := hc
  obtain ⟨b, hb, hab⟩ := h i a ha
  exact ⟨f b, by rw [List.getElem?_map, hb]; rfl, hS a b hab⟩

/-- The pairs of a zip, read as an extension: a loop that compares position by position, behind a
check of the lengths, decides the relation. -/
theorem iff_zip {l l' : List α} :
    Extends R l l' ↔ l.length ≤ l'.length ∧ ∀ p ∈ l.zip l', R p.1 p.2 := by
  constructor
  · intro h
    refine ⟨h.length_le, ?_⟩
    intro p hp
    obtain ⟨i, hi⟩ := List.mem_iff_getElem?.mp hp
    rw [List.getElem?_zip_eq_some] at hi
    obtain ⟨b, hb, hab⟩ := h i p.1 hi.1
    have : b = p.2 := Option.some.inj (hb.symm.trans hi.2)
    exact this ▸ hab
  · rintro ⟨hlen, hzip⟩ i a ha
    have hi : i < l'.length := by
      have := (List.getElem?_eq_some_iff.mp ha).1
      omega
    refine ⟨l'[i], List.getElem?_eq_getElem hi, ?_⟩
    refine hzip (a, l'[i]) (List.mem_iff_getElem?.mpr ⟨i, ?_⟩)
    rw [List.getElem?_zip_eq_some]
    exact ⟨ha, List.getElem?_eq_getElem hi⟩

end Extends

end Lib
