/-
# Association lists

What a decoder does to a map: it puts one entry after another into it, and the last entry under a
key counts (`lookup_putAll`).  What an encoder does with one: it maps the values and writes the
entries in some order (`lookup_mapVals`, `lookup_putAll_of_perm`).  And a map of lists that grow:
what is under a key are the values that came for it, in their order (`lookup_gather`).

The maps are Mathlib's `AList`, a list of entries without a double key, compared through `lookup`
and never as lists: two maps that answer alike can hold their entries in different orders, and the
source ranges over its maps in no order at all.  So every lemma that other modules use says what is
found under a key.

* §1  `lookup_putAll`: what is under a key after a decoder has put its entries is the last entry for
  it, or else what was there.  With distinct keys the order does not matter
  (`lookup_putAll_of_perm`), which is what makes a map survive being written in any order.
* §2  `mapVals`, a function applied below the keys.
* §3  `eraseAll`, a set of keys taken out, as a lookup and as a filter of the entries.
* §4  `gather`, the map of lists that a loop with `m[k] = append(m[k], v)` builds.
-/
import Mathlib.Data.List.AList
import Mathlib.Data.List.Induction

namespace Lib.Assoc

variable {K V W : Type} [DecidableEq K]

/-! ## 1. Putting entries into a map

`lastOf` is the meaning of a fold of insertions: it forgets every entry but the last one under the
key.  The decoders of the source accept a key twice, and this is what they then do. -/

/-- The entries put into a map, one after another. -/
def putAll (m : AList fun _ : K => V) (l : List (K × V)) : AList fun _ : K => V :=
  l.foldl (fun m e => m.insert e.1 e.2) m

/-- The last value under a key, or else the one given. -/
def lastOf (k : K) (start : Option V) (l : List (K × V)) : Option V :=
  l.foldl (fun r e => if e.1 = k then some e.2 else r) start

/-- The last entry under the key counts, and what was there before counts where there is none. -/
theorem lookup_putAll (m : AList fun _ : K => V) (l : List (K × V)) (k : K) :
    (putAll m l).lookup k = lastOf k (m.lookup k) l := by
  induction l generalizing m with
  | nil => rfl
  | cons e l ih =>
    rw [putAll, lastOf, List.foldl_cons, List.foldl_cons]
    refine (ih (m.insert e.1 e.2)).trans ?_
    by_cases hk : e.1 = k
    · subst hk
      rw [AList.lookup_insert, if_pos rfl, lastOf]
    · rw [AList.lookup_insert_ne (Ne.symm hk), if_neg hk, lastOf]

theorem lastOf_of_notMem {k : K} {start : Option V} {l : List (K × V)} (h : k ∉ l.map Prod.fst) :
    lastOf k start l = start := by
  induction l generalizing start with
  | nil => rfl
  | cons e l ih =>
    rw [List.map_cons, List.mem_cons, not_or] at h
    rw [lastOf, List.foldl_cons, if_neg (Ne.symm h.1)]
    exact ih h.2

theorem lastOf_of_mem {k : K} {v : V} {start : Option V} {l : List (K × V)}
    (hkeys : (l.map Prod.fst).Nodup) (h : (k, v) ∈ l) : lastOf k start l = some v := by
  induction l generalizing start with
  | nil => exact absurd h List.not_mem_nil
  | cons e l ih =>
    rw [List.map_cons, List.nodup_cons] at hkeys
    rw [lastOf, List.foldl_cons]
    rcases List.mem_cons.mp h with rfl | h
    · rw [if_pos rfl]
      exact lastOf_of_notMem hkeys.1
    · exact ih hkeys.2 h

theorem lastOf_map (f : V → W) (k : K) (start : Option V) (l : List (K × V)) :
    lastOf k (start.map f) (l.map fun e => (e.1, f e.2)) = (lastOf k start l).map f := by
  induction l generalizing start with
  | nil => rfl
  | cons e l ih =>
    rw [List.map_cons, lastOf, lastOf, List.foldl_cons, List.foldl_cons]
    by_cases hk : e.1 = k
    · rw [if_pos hk, if_pos hk]
      exact ih (some e.2)
    · rw [if_neg hk, if_neg hk]
      exact ih start

/-- **The entries of a map, in any order, make the map again.**  The keys of a map are distinct, so
under each key there is at most one entry to be the last one, and its position does not matter. -/
theorem lookup_putAll_of_perm {m : AList fun _ : K => V} {l : List (K × V)}
    (h : l.Perm (m.entries.map fun e => (e.1, e.2))) (k : K) :
    (putAll ∅ l).lookup k = m.lookup k := by
  have hkeys : (l.map Prod.fst).Nodup := by
    refine (h.map Prod.fst).nodup_iff.mpr ?_
    rw [List.map_map]
    exact m.keys_nodup
  rw [lookup_putAll]
  cases hm : m.lookup k with
  | some v =>
    refine lastOf_of_mem hkeys (h.mem_iff.mpr ?_)
    exact List.mem_map.mpr ⟨⟨k, v⟩, AList.mem_lookup_iff.mp hm, rfl⟩
  | none =>
    refine lastOf_of_notMem fun hmem => ?_
    rw [(h.map Prod.fst).mem_iff, List.map_map] at hmem
    exact absurd hmem (AList.lookup_eq_none.mp hm)

/-! ## 2. Mapping the values -/

/-- The map with a function applied to its values. -/
def mapVals (f : V → W) (m : AList fun _ : K => V) : AList fun _ : K => W :=
  ⟨m.entries.map fun e => ⟨e.1, f e.2⟩, by
    rw [List.NodupKeys, List.keys, List.map_map]
    exact m.nodupKeys⟩

/-- Mapping the values commutes with looking one up. -/
@[simp] theorem lookup_mapVals (f : V → W) (m : AList fun _ : K => V) (k : K) :
    (mapVals f m).lookup k = (m.lookup k).map f := by
  cases hm : m.lookup k with
  | some v =>
    rw [Option.map_some]
    refine AList.mem_lookup_iff.mpr ?_
    exact List.mem_map.mpr ⟨⟨k, v⟩, AList.mem_lookup_iff.mp hm, rfl⟩
  | none =>
    rw [Option.map_none, AList.lookup_eq_none]
    intro hmem
    obtain ⟨e, he, heq⟩ := List.mem_map.mp (show k ∈ (mapVals f m).entries.map Sigma.fst from hmem)
    obtain ⟨e', he', rfl⟩ := List.mem_map.mp he
    refine AList.lookup_eq_none.mp hm ?_
    exact heq ▸ List.mem_map.mpr ⟨e', he', rfl⟩

omit [DecidableEq K] in
theorem entries_mapVals_eq_nil {f : V → W} {m : AList fun _ : K => V} :
    (mapVals f m).entries = [] ↔ m.entries = [] := List.map_eq_nil_iff

/-! ## 3. Taking keys out -/

/-- The map without some keys. -/
def eraseAll (m : AList fun _ : K => V) (keys : List K) : AList fun _ : K => V :=
  keys.foldl (fun m k => m.erase k) m

theorem lookup_eraseAll_of_notMem (m : AList fun _ : K => V) {keys : List K} {k : K}
    (h : k ∉ keys) : (eraseAll m keys).lookup k = m.lookup k := by
  induction keys generalizing m with
  | nil => rfl
  | cons x xs ih =>
    rw [List.mem_cons, not_or] at h
    rw [eraseAll, List.foldl_cons]
    exact (ih (m.erase x) h.2).trans (AList.lookup_erase_ne h.1)

/-- Without repeated keys, erasing a key is leaving out its entries. -/
theorem kerase_eq_filter {a : K} {l : List (Sigma fun _ : K => V)} (h : l.NodupKeys) :
    l.kerase a = l.filter fun e => decide (e.1 ≠ a) := by
  induction l with
  | nil => rfl
  | cons e l ih =>
    obtain ⟨hnotin, hl⟩ := List.nodupKeys_cons.mp h
    by_cases ha : a = e.1
    · have hall : ∀ e' ∈ l, decide (e'.1 ≠ a) = true := by
        intro e' he'
        refine decide_eq_true fun heq => hnotin ?_
        rw [← ha, ← heq]
        exact List.mem_map.mpr ⟨e', he', rfl⟩
      rw [List.kerase_cons_eq ha, List.filter_cons_of_neg (by simp [ha]),
        List.filter_eq_self.mpr hall]
    · rw [List.kerase_cons_ne ha, List.filter_cons_of_pos (by simp [Ne.symm ha]), ih hl]

/-- Erasing keys is a filter of the entries, whatever test says which keys are erased. -/
theorem entries_eraseAll (m : AList fun _ : K => V) {keys : List K}
    {p : (Sigma fun _ : K => V) → Bool}
    (hp : ∀ e ∈ m.entries, p e = true ↔ e.1 ∉ keys) :
      (eraseAll m keys).entries = m.entries.filter p := by
  have hfilter : ∀ (keys : List K) (m : AList fun _ : K => V),
      (eraseAll m keys).entries = m.entries.filter fun e => decide (e.1 ∉ keys) := by
    intro keys
    induction keys with
    | nil => simp [eraseAll]
    | cons x xs ih =>
      intro m
      rw [eraseAll, List.foldl_cons]
      refine (ih (m.erase x)).trans ?_
      rw [show (m.erase x).entries = m.entries.kerase x from rfl, kerase_eq_filter m.nodupKeys,
        List.filter_filter]
      refine List.filter_congr fun e _ => ?_
      rw [Bool.eq_iff_iff]
      simp [and_comm]
  rw [hfilter]
  refine List.filter_congr fun e he => ?_
  rw [Bool.eq_iff_iff, decide_eq_true_iff, hp e he]

/-! ## 4. Maps of lists

A loop over `append(m[k], v)` keeps, under each key, the values in the order they came.  `valuesOf`
says so without the map.  A key that never came has no entry at all, which differs from an empty
list wherever the source ranges over the map. -/

/-- Append a value to the list under a key. -/
def append (m : AList fun _ : K => List V) (k : K) (v : V) : AList fun _ : K => List V :=
  m.insert k ((m.lookup k).getD [] ++ [v])

/-- The map that collects values under their keys. -/
def gather (l : List (K × V)) : AList fun _ : K => List V := l.foldl (fun m e => append m e.1 e.2) ∅

/-- The values that came for a key. -/
def valuesOf (k : K) (l : List (K × V)) : List V :=
  (l.filter fun e => decide (e.1 = k)).map Prod.snd

theorem mem_valuesOf {k : K} {v : V} {l : List (K × V)} : v ∈ valuesOf k l ↔ (k, v) ∈ l := by
  simp [valuesOf]

/-- **Under a key are its values; a key without one has no entry.**  By induction from the back of
the list: one more value is appended under its own key, and every other key is untouched. -/
theorem lookup_gather (k : K) (l : List (K × V)) :
    (gather l).lookup k = if valuesOf k l = [] then none else some (valuesOf k l) := by
  induction l using List.reverseRecOn with
  | nil => rfl
  | append_singleton l e ih =>
    have hstep : gather (l ++ [e]) = append (gather l) e.1 e.2 := by
      rw [gather, List.foldl_append]
      rfl
    rw [hstep, append]
    by_cases hk : e.1 = k
    · subst hk
      have hvalues : valuesOf e.1 (l ++ [e]) = valuesOf e.1 l ++ [e.2] := by simp [valuesOf]
      have hgot : ((gather l).lookup e.1).getD [] = valuesOf e.1 l := by
        rw [ih]
        split
        · rename_i hnil
          rw [hnil]
          rfl
        · rfl
      rw [AList.lookup_insert, hgot, hvalues,
        if_neg (List.append_ne_nil_of_right_ne_nil _ (List.cons_ne_nil _ _))]
    · have hvalues : valuesOf k (l ++ [e]) = valuesOf k l := by simp [valuesOf, hk]
      rw [AList.lookup_insert_ne (Ne.symm hk), ih, hvalues]

theorem valuesOf_perm {l l' : List (K × V)} (h : l.Perm l') (k : K) :
    (valuesOf k l).Perm (valuesOf k l') :=
  (h.filter _).map _

end Lib.Assoc
