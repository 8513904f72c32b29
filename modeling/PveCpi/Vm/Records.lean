/-
# The records in a sentinel

Each writer owns one key of the sentinel and keeps a Go map under it: the drive options of a disk,
its tags, the metadata the Director sent for it.  To change an entry it decodes the map, edits it
and encodes it again, so every string of the map is decoded and written anew.

A decoded map is a `Raw` whose strings are the texts themselves.  `encodeMap` is `json.Marshal` of
such a map; `readMap` is `json.Unmarshal` into one, which keeps what it can of a value that does
not have the map's type.

A value passes through Go's decoder and encoder although only one entry of the map is meant to
change.  That pass is not the identity.  Strings are respelled, members are sorted, a value of
another type becomes a zero value, and numbers without a type become floats and are printed anew
(`Floats` is a parameter: nothing depends on how).  What matters to the other writers is whether the
texts of the map still say what they said, and that the result can be written (`storable_recorded`).
-/
import PveCpi.Vm.Sentinel

namespace Vm

open Lib.Json (Value Elems Members parse print quote unquote escapeHtml)
open Stemcell (putAll sortedMembers mem_sortedMembers lookup_putAll_empty)

/-! ## 1. Numbers

Only the literal of a number changes, so neither the strings nor the nesting do. -/

/-- How a number reads as a 64-bit float and is written again; nothing when it is out of range. -/
structure Floats where
  format : Text → Option Text
  number : ∀ lit out, format lit = some out → Lib.Json.isNumber out = true

mutual

/-- Numbers as they are written again; one that is out of range is nil. -/
def refloat (F : Floats) : Value → Value
  | .num lit =>
    match F.format lit with
    | some out => .num out
    | none => .null
  | .arr es => .arr (refloatElems F es)
  | .obj ms => .obj (refloatMembers F ms)
  | v => v

def refloatElems (F : Floats) : Elems → Elems
  | .nil => .nil
  | .cons v es => .cons (refloat F v) (refloatElems F es)

def refloatMembers (F : Floats) : Members → Members
  | .nil => .nil
  | .cons k v ms => .cons k (refloat F v) (refloatMembers F ms)

end

mutual

theorem refloat_wf (F : Floats) : ∀ v : Value, (v.mapStr quote).wf = true →
    ((refloat F v).mapStr quote).wf = true
  | .null, h | .bool _, h | .str _, h => h
  | .num lit, _ => by
    rw [refloat]
    split
    · rename_i out hout
      exact F.number lit out hout
    · rfl
  | .arr es, h => refloatElems_wf F es h
  | .obj ms, h => refloatMembers_wf F ms h

theorem refloatElems_wf (F : Floats) : ∀ es : Elems, (es.mapStr quote).wf = true →
    ((refloatElems F es).mapStr quote).wf = true
  | .nil, h => h
  | .cons v es, h => by
    rw [Elems.mapStr, Elems.wf, Bool.and_eq_true] at h
    rw [refloatElems, Elems.mapStr, Elems.wf, refloat_wf F v h.1, refloatElems_wf F es h.2]
    rfl

theorem refloatMembers_wf (F : Floats) : ∀ ms : Members, (ms.mapStr quote).wf = true →
    ((refloatMembers F ms).mapStr quote).wf = true
  | .nil, h => h
  | .cons k v ms, h => by
    rw [Members.mapStr, Members.wf, Bool.and_eq_true, Bool.and_eq_true] at h
    rw [refloatMembers, Members.mapStr, Members.wf, h.1.1, refloat_wf F v h.1.2,
      refloatMembers_wf F ms h.2]
    rfl

end

mutual

theorem refloat_depth (F : Floats) : ∀ v : Value, (refloat F v).depth = v.depth
  | .null | .bool _ | .str _ => rfl
  | .num lit => by
    rw [refloat]
    split <;> rfl
  | .arr es => congrArg (· + 1) (refloatElems_depth F es)
  | .obj ms => congrArg (· + 1) (refloatMembers_depth F ms)

theorem refloatElems_depth (F : Floats) : ∀ es : Elems, (refloatElems F es).depth = es.depth
  | .nil => rfl
  | .cons v es => by
    rw [refloatElems, Elems.depth, Elems.depth, refloat_depth F v, refloatElems_depth F es]

theorem refloatMembers_depth (F : Floats) : ∀ ms : Members, (refloatMembers F ms).depth = ms.depth
  | .nil => rfl
  | .cons k v ms => by
    rw [refloatMembers, Members.depth, Members.depth, refloat_depth F v, refloatMembers_depth F ms]

end

/-! ## 2. Decoding and encoding a map

`recorded` is the whole of the first half: the value under the writer's key, decoded as far as it
goes, and nil when it is null. -/

/-- An element of type `map[string]any`; anything but an object leaves it nil. -/
def readAnyMap (F : Floats) : Value → Value
  | .obj ms => refloat F (Value.obj ms).decode
  | _ => .null

/-- An element of type `string`; anything but a string leaves it empty. -/
def readText : Value → Value
  | .str s => .str (unquote s)
  | _ => .str []

/-- The entries of an object with their values read. -/
def readEntries (elem : Value → Value) (ms : Members) : Raw :=
  putAll ∅ ((membersList ms).map fun e => (unquote e.1, elem e.2))

/-- A decoded map as a value. -/
def mapValue (m : Raw) : Value := .obj (listMembers (sortedMembers m))

/-- An element of type `map[string]string`. -/
def readTextMap : Value → Value
  | .obj ms => mapValue (readEntries readText ms)
  | _ => .null

/-- `json.Unmarshal` into a map that is empty; `null` makes it nil, and a value of another type
leaves it as it is. -/
def readMap (elem : Value → Value) : Value → Option Raw
  | .null => none
  | .obj ms => some (readEntries elem ms)
  | _ => some ∅

/-- `json.Marshal` of a map. -/
def encodeMap (m : Raw) : Value := (mapValue m).mapStr quote

/-- The map under a key of the sentinel. -/
def recorded (elem : Value → Value) (raw : Raw) (key : Text) : Option Raw :=
  match raw.lookup key with
  | none => some ∅
  | some v => readMap elem v

/-- A map of texts as a decoded map. -/
def ofTexts (m : TextMap Text) : Raw := putAll ∅ (m.entries.map fun e => (e.1, Value.str e.2))

/-! ## 3. What can be encoded again -/

/-- The values of a map can be written inside the map and the sentinel. -/
structure Storable (m : Raw) : Prop where
  wf : ∀ k v, m.lookup k = some v → (v.mapStr quote).wf = true
  depth : ∀ k v, m.lookup k = some v → v.depth + 2 ≤ Lib.Json.maxDepth

theorem mapStr_listMembers (g : Text → Text) (l : List (Text × Value)) :
    (listMembers l).mapStr g = listMembers (l.map fun e => (g e.1, e.2.mapStr g)) := by
  induction l with
  | nil => rfl
  | cons e l ih => rw [listMembers, Members.mapStr, ih]; rfl

/-- The members of an encoded object, as the decoder hands them on. -/
theorem membersList_encoded (l : List (Text × Value)) :
    membersList ((listMembers l).mapStr quote) = l.map fun e => (quote e.1, e.2.mapStr quote) := by
  rw [mapStr_listMembers, membersList_listMembers]

theorem listMembers_encoded_wf {l : List (Text × Value)}
    (h : ∀ e ∈ l, (e.2.mapStr quote).wf = true) : ((listMembers l).mapStr quote).wf = true := by
  rw [mapStr_listMembers]
  refine listMembers_wf fun e he => ?_
  obtain ⟨e', he', rfl⟩ := List.mem_map.mp he
  exact ⟨Lib.Json.rawOk_quote _, h e' he'⟩

theorem mapValue_wf {m : Raw} (h : ∀ k v, m.lookup k = some v → (v.mapStr quote).wf = true) :
    ((mapValue m).mapStr quote).wf = true :=
  listMembers_encoded_wf fun e he => h e.1 e.2 (mem_sortedMembers.mp he)

theorem mapValue_depth {m : Raw} {n : Nat} (h : ∀ k v, m.lookup k = some v → v.depth ≤ n) :
    (mapValue m).depth ≤ n + 1 :=
  Nat.succ_le_succ (listMembers_depth fun e he => h e.1 e.2 (mem_sortedMembers.mp he))

/-- A map that can be written is a value of the sentinel. -/
theorem Storable.encode {m : Raw} (h : Storable m) :
    (encodeMap m).wf = true ∧ (encodeMap m).depth < Lib.Json.maxDepth := by
  refine ⟨mapValue_wf h.wf, ?_⟩
  have hdepth := mapValue_depth (m := m) (n := Lib.Json.maxDepth - 2) fun k v hv =>
    Nat.le_sub_of_add_le (h.depth k v hv)
  rw [encodeMap, Lib.Json.Value.depth_mapStr]
  have hmax : (2 : Nat) ≤ Lib.Json.maxDepth := by decide
  omega

theorem storable_empty : Storable ∅ := by
  constructor <;> (intro k v h; cases h)

/-- A value that is shallow enough can be added. -/
theorem Storable.insert {m : Raw} (h : Storable m) {k : Text} {v : Value}
    (hwf : (v.mapStr quote).wf = true) (hdepth : v.depth + 2 ≤ Lib.Json.maxDepth) :
    Storable (m.insert k v) := by
  have hcases : ∀ k' v', (m.insert k v).lookup k' = some v' → v' = v ∨ m.lookup k' = some v' := by
    intro k' v' hlookup
    by_cases hk : k' = k
    · subst hk
      rw [AList.lookup_insert] at hlookup
      exact .inl (Option.some.inj hlookup).symm
    · rw [AList.lookup_insert_ne hk] at hlookup
      exact .inr hlookup
  constructor
  · intro k' v' hlookup
    rcases hcases k' v' hlookup with rfl | hold
    · exact hwf
    · exact h.wf k' v' hold
  · intro k' v' hlookup
    rcases hcases k' v' hlookup with rfl | hold
    · exact hdepth
    · exact h.depth k' v' hold

theorem lookup_erase_some {m : Raw} {k k' : Text} {v : Value} (h : (m.erase k).lookup k' = some v) :
    k' ≠ k ∧ m.lookup k' = some v := by
  by_cases hk : k' = k
  · subst hk
    rw [AList.lookup_erase] at h
    cases h
  · rw [AList.lookup_erase_ne hk] at h
    exact ⟨hk, h⟩

theorem Storable.erase {m : Raw} (h : Storable m) (k : Text) : Storable (m.erase k) :=
  ⟨fun k' v hv => h.wf k' v (lookup_erase_some hv).2, fun k' v hv =>
    h.depth k' v (lookup_erase_some hv).2⟩

theorem mem_membersList_depth {ms : Members} {e : Text × Value} (h : e ∈ membersList ms) :
    e.2.depth ≤ ms.depth := by
  fun_induction membersList ms with
  | case1 => cases h
  | case2 k v ms ih =>
    rcases List.mem_cons.mp h with rfl | h
    · exact le_max_left _ _
    · exact (ih h).trans (le_max_right _ _)

theorem mem_membersList_wf {ms : Members} (hms : ms.wf = true) {e : Text × Value}
    (h : e ∈ membersList ms) : e.2.wf = true := by
  fun_induction membersList ms with
  | case1 => cases h
  | case2 k v ms ih =>
    rw [Members.wf, Bool.and_eq_true, Bool.and_eq_true] at hms
    rcases List.mem_cons.mp h with rfl | h
    · exact hms.1.2
    · exact ih hms.2 h

theorem lookup_readEntries {elem : Value → Value} {ms : Members} {k : Text} {v : Value}
    (h : (readEntries elem ms).lookup k = some v) : ∃ e ∈ membersList ms, v = elem e.2 := by
  obtain ⟨e, he, heq⟩ := List.mem_map.mp (lookup_putAll_empty h)
  exact ⟨e, he, (Prod.mk.inj heq).2.symm⟩

/-- What an element reads as can be written, and is not nested deeper than what it was read from. -/
def Reads (elem : Value → Value) : Prop :=
  ∀ v : Value, v.wf = true → ((elem v).mapStr quote).wf = true ∧ (elem v).depth ≤ v.depth

theorem reads_readText : Reads readText := by
  intro v _
  cases v with
  | str s => exact ⟨Lib.Json.rawOk_quote _, Nat.zero_le _⟩
  | null | bool | num | arr | obj => exact ⟨rfl, Nat.zero_le _⟩

theorem reads_readAnyMap (F : Floats) : Reads (readAnyMap F) := by
  intro v hwf
  cases v with
  | obj ms =>
    refine ⟨refloat_wf F _ (Lib.Json.Value.wf_canonical (.obj ms) hwf), ?_⟩
    rw [readAnyMap, refloat_depth]
    exact Lib.Json.Value.depth_decode (.obj ms)
  | null | bool | num | str | arr => exact ⟨rfl, Nat.zero_le _⟩

/-- Reading a map of texts keeps only texts, which are flat. -/
theorem reads_readTextMap : Reads readTextMap := by
  intro v hwf
  cases v with
  | obj ms =>
    have hentry : ∀ k w, (readEntries readText ms).lookup k = some w →
        (w.mapStr quote).wf = true ∧ w.depth ≤ 0 := by
      intro k w hlookup
      obtain ⟨e, he, rfl⟩ := lookup_readEntries hlookup
      refine ⟨(reads_readText e.2 (mem_membersList_wf hwf he)).1, ?_⟩
      cases e.2 <;> exact Nat.le_refl _
    refine ⟨mapValue_wf fun k w h => (hentry k w h).1, ?_⟩
    refine (mapValue_depth fun k w h => (hentry k w h).2).trans ?_
    exact Nat.succ_le_succ (Nat.zero_le _)
  | null | bool | num | str | arr => exact ⟨rfl, Nat.zero_le _⟩

/-- **What is recorded under a key of a sentinel can be written again.** -/
theorem storable_recorded {elem : Value → Value} (helem : Reads elem) {raw m : Raw} {key : Text}
    (hraw : Encodable raw) (h : recorded elem raw key = some m) : Storable m := by
  unfold recorded at h
  split at h
  · cases h
    exact storable_empty
  · rename_i v hv
    have hwf := hraw.wf key v hv
    have hdepth := hraw.depth key v hv
    unfold readMap at h
    split at h
    · cases h
    · rename_i ms
      cases h
      have hentry : ∀ k w, (readEntries elem ms).lookup k = some w →
          (w.mapStr quote).wf = true ∧ w.depth + 2 ≤ Lib.Json.maxDepth := by
        intro k w hlookup
        obtain ⟨e, he, rfl⟩ := lookup_readEntries hlookup
        obtain ⟨hw, hle⟩ := helem e.2 (mem_membersList_wf hwf he)
        have hms := mem_membersList_depth he
        rw [Value.depth] at hdepth
        exact ⟨hw, by omega⟩
      exact ⟨fun k w h => (hentry k w h).1, fun k w h => (hentry k w h).2⟩
    · cases h
      exact storable_empty

theorem ofTexts_values {m : TextMap Text} {k : Text} {v : Value}
    (h : (ofTexts m).lookup k = some v) : (v.mapStr quote).wf = true ∧ v.depth ≤ 0 := by
  obtain ⟨e, -, heq⟩ := List.mem_map.mp (lookup_putAll_empty h)
  cases heq
  exact ⟨Lib.Json.rawOk_quote _, Nat.le_refl _⟩

theorem ofTexts_wf (m : TextMap Text) : ((mapValue (ofTexts m)).mapStr quote).wf = true :=
  mapValue_wf fun _ _ h => (ofTexts_values h).1

theorem ofTexts_depth (m : TextMap Text) : (mapValue (ofTexts m)).depth ≤ 1 :=
  mapValue_depth fun _ _ h => (ofTexts_values h).2

theorem storable_ofTexts (m : TextMap Text) :
    ((mapValue (ofTexts m)).mapStr quote).wf = true ∧
    (mapValue (ofTexts m)).depth + 2 ≤ Lib.Json.maxDepth := by
  have hdepth := ofTexts_depth m
  have hmax : (3 : Nat) ≤ Lib.Json.maxDepth := by decide
  exact ⟨ofTexts_wf m, by omega⟩

/-! ## 4. What an encoded map says

Encoding keeps which patterns the texts say (`Lib.Json.infix_quote`), so the danger to the marker
can be read off the decoded map. -/

/-- The strings of a value say neither line of a marker. -/
def Quiet (v : Value) : Prop := ∀ s ∈ v.texts, Silent s

theorem quiet_mapValue {m : Raw} : Quiet (mapValue m) ↔ m.Silent := by
  unfold Quiet mapValue
  rw [Value.texts]
  constructor
  · intro h k v hlookup
    have hmem := mem_sortedMembers.mpr hlookup
    exact ⟨h k (mem_listMembers_texts.mpr ⟨_, hmem, .inl rfl⟩),
      fun s hs => h s (mem_listMembers_texts.mpr ⟨_, hmem, .inr hs⟩)⟩
  · intro h s hs
    obtain ⟨⟨k, v⟩, hmem, heq | hs⟩ := mem_listMembers_texts.mp hs
    · rw [heq]
      exact (h k v (mem_sortedMembers.mp hmem)).1
    · exact (h k v (mem_sortedMembers.mp hmem)).2 s hs

theorem quiet_quote {v : Value} : Quiet (v.mapStr quote) ↔ Quiet v := by
  unfold Quiet
  rw [Lib.Json.Value.texts_mapStr]
  simp only [List.mem_map, forall_exists_index, and_imp, forall_apply_eq_imp_iff₂]
  exact forall₂_congr fun s _ => silent_quote s

/-- **An encoded map says what its texts say.** -/
theorem quiet_encodeMap {m : Raw} : Quiet (encodeMap m) ↔ m.Silent := by
  rw [encodeMap, quiet_quote, quiet_mapValue]

/-- A map with one more entry is silent when the entry and the rest are. -/
theorem silent_insert {m : Raw} {k : Text} {v : Value} :
    Raw.Silent (m.insert k v) ↔ (Silent k ∧ Quiet v) ∧ Raw.Silent (m.erase k) := by
  constructor
  · intro h
    refine ⟨h k v (AList.lookup_insert _), fun k' v' hlookup => ?_⟩
    obtain ⟨hk, hlookup⟩ := lookup_erase_some hlookup
    exact h k' v' (by rw [AList.lookup_insert_ne hk, hlookup])
  · rintro ⟨hnew, hold⟩ k' v' hlookup
    by_cases hk : k' = k
    · subst hk
      rw [AList.lookup_insert] at hlookup
      rw [← Option.some.inj hlookup]
      exact hnew
    · rw [AList.lookup_insert_ne hk] at hlookup
      exact hold k' v' (by rw [AList.lookup_erase_ne hk, hlookup])

end Vm
