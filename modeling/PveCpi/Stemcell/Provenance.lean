/-
# The provenance in a template's description

`stemcellProvenance` of `cpi/handlers/stemcell_provenance.go`, and the two functions that read it
from the description of a cache template and write it back: `parseStemcellProvenanceFromDescription`
and `mergeProvenanceIntoDescription` of `stemcell_refs.go`.  A description is what the JSON decoder
sees of it: nothing, an object with its members in order, or something else.

`merge_foreign` and `merge_member` say what can be read back after a merge.  Members that the
provenance does not own are kept, so they decide two things: a member that the decoder takes for a
field and that has the wrong type makes the description unreadable for good, and a member that the
decoder takes for `director_refs` and that comes behind it would hide the references (`Unshadowed`
rules it out).

The description is JSON that other tools may edit, and the code keeps what it does not know.  That
is good manners and has a consequence: Go matches field names without regard to case, so a foreign
member named `Director_Refs` is taken for the field, and whichever comes last wins.  The encoder
sorts the members, so what comes last depends on the spelling.  `Unshadowed` excludes exactly the
spellings that would come behind and be read.

That unreadable descriptions stay unreadable (`merge_stuck`) matters to safety: a template whose
references cannot be read is never destroyed, and no merge changes that.
-/
import PveCpi.Vm.Tags
import PveCpi.Lib.Json

namespace Stemcell

open Vm (Text TextMap Casing)
open Lib.Json (Value Elems Members)

abbrev Ref := Text

/-! ## 1. Fields -/

/-- The fields of `stemcellProvenance` that hold a text. -/
inductive TextField
  | name | version | osType | diskFormat | sha8 | source | created | sha256 | kind | cid | createdBy
deriving DecidableEq

def TextField.all : List TextField :=
  [.name, .version, .osType, .diskFormat, .sha8, .source, .created, .sha256, .kind, .cid,
    .createdBy]

def TextField.key : TextField → Text
  | .name => "name".toList
  | .version => "version".toList
  | .osType => "os_type".toList
  | .diskFormat => "disk_format".toList
  | .sha8 => "sha8".toList
  | .source => "source".toList
  | .created => "created".toList
  | .sha256 => "sha256".toList
  | .kind => "kind".toList
  | .cid => "cid".toList
  | .createdBy => "created_by".toList

/-- The field is written even when it is empty. -/
def TextField.always : TextField → Bool
  | .name | .version | .sha8 | .created => true
  | _ => false

inductive Field
  | text (f : TextField)
  | directorRefs
  | directorTags
deriving DecidableEq

def Field.key : Field → Text
  | .text f => f.key
  | .directorRefs => "director_refs".toList
  | .directorTags => "director_tags".toList

def Field.all : List Field := TextField.all.map .text ++ [.directorRefs, .directorTags]

/-- `stemcellProvenance`. -/
structure Provenance where
  text : TextField → Text := fun _ => []
  directorRefs : List Ref := []
  directorTags : TextMap Text := ∅

/-- `provenanceOwnedJSONKeys`. -/
def ownedKeys : List Text := Field.all.map Field.key ++
    ["director_id".toList, "stemcell_refs".toList]

/-! ## 2. Descriptions -/

/-- What the decoder sees of a description. -/
inductive Description
  | blank
  | notObject
  | null
  | object (members : List (Text × Value))

/-- The field that the decoder stores a member in: the one of that name, or else one whose name
differs only in letter case. -/
def fieldOf (L : Casing) (key : Text) : Option Field :=
  match Field.all.find? fun f => decide (f.key = key) with
  | some f => some f
  | none => Field.all.find? fun f => L.equalFold f.key key

/-- The elements are texts or null. -/
def textElems : Elems → Bool
  | .nil => true
  | .cons (.str _) es | .cons .null es => textElems es
  | .cons _ _ => false

/-- The members are texts or null. -/
def textMembers : Members → Bool
  | .nil => true
  | .cons _ (.str _) ms | .cons _ .null ms => textMembers ms
  | .cons _ _ _ => false

/-- The value has the type of the field. -/
def readable : Field → Value → Bool
  | _, .null => true
  | .text _, .str _ => true
  | .directorRefs, .arr es => textElems es
  | .directorTags, .obj ms => textMembers ms
  | _, _ => false

/-- The texts of an array; null leaves an element as it was. -/
def readElems : List Text → Elems → List Text
  | _, .nil => []
  | prev, .cons (.str s) es => s :: readElems prev.tail es
  | prev, .cons _ es => prev.headD [] :: readElems prev.tail es

/-- The members of an object, put into a map. -/
def readMembers : TextMap Text → Members → TextMap Text
  | m, .nil => m
  | m, .cons k (.str s) ms => readMembers (m.insert k s) ms
  | m, .cons k _ ms => readMembers (m.insert k []) ms

/-- Store a value in its field. -/
def store (p : Provenance) : Field → Value → Provenance
  | .text f, .str s => { p with text := Function.update p.text f s }
  | .directorRefs, .null => { p with directorRefs := [] }
  | .directorRefs, .arr es => { p with directorRefs := readElems p.directorRefs es }
  | .directorTags, .null => { p with directorTags := ∅ }
  | .directorTags, .obj ms => { p with directorTags := readMembers p.directorTags ms }
  | _, _ => p

/-- A member that is no field, or has the type of its field. -/
def fits (L : Casing) (m : Text × Value) : Bool :=
  match fieldOf L m.1 with
  | none => true
  | some f => readable f m.2

/-- Store a member, if it is a field. -/
def storeMember (L : Casing) (p : Provenance) (m : Text × Value) : Provenance :=
  match fieldOf L m.1 with
  | none => p
  | some f => store p f m.2

/-- `parseStemcellProvenanceFromDescription`; `none` when the second result is false. -/
def parseStemcellProvenanceFromDescription (L : Casing) : Description → Option Provenance
  | .blank | .notObject => none
  | .null => some {}
  | .object ms => if ms.all (fits L) then some (ms.foldl (storeMember L) {}) else none

/-! ## 3. Writing the provenance -/

def elemsOf : List Text → Elems
  | [] => .nil
  | s :: ss => .cons (.str s) (elemsOf ss)

def membersOf : List (Text × Text) → Members
  | [] => .nil
  | (k, s) :: ms => .cons k (.str s) (membersOf ms)

/-- The members that `json.Marshal` writes for a provenance. -/
def provenanceMembers (p : Provenance) : List (Text × Value) :=
  (TextField.all.filter fun f => f.always || !(p.text f).isEmpty).map
    (fun f => (f.key, Value.str (p.text f))) ++
  (if p.directorRefs.isEmpty then [] else
    [(Field.directorRefs.key, Value.arr (elemsOf p.directorRefs))]) ++
  (if p.directorTags.entries.isEmpty then [] else
    [(Field.directorTags.key,
      Value.obj (membersOf (p.directorTags.entries.map fun e => (e.1, e.2))))])

/-- The members as a map; the last of several equal keys counts. -/
def putAll (m : TextMap Value) (ms : List (Text × Value)) : TextMap Value :=
  ms.foldl (fun m e => m.insert e.1 e.2) m

/-- The members of a map in the order of their keys. -/
def sortedMembers (m : TextMap Value) : List (Text × Value) :=
  (m.entries.map fun e => (e.1, e.2)).insertionSort fun a b => a.1 ≤ b.1

/-- Why a merge fails: the description is no object, or it is `null` and the map is nil. -/
inductive MergeError
  | notObject
  | nilMap
deriving DecidableEq

/-- `mergeProvenanceIntoDescription`. -/
def mergeProvenanceIntoDescription (desc : Description) (prov : Provenance) :
    Except MergeError Description :=
  match desc with
  | .notObject => .error .notObject
  | .null => .error .nilMap
  | .blank => .ok (.object (sortedMembers (putAll (ownedKeys.foldl (fun m k => m.erase k) ∅)
      (provenanceMembers prov))))
  | .object ms => .ok (.object (sortedMembers
      (putAll (ownedKeys.foldl (fun m k => m.erase k) (putAll ∅ ms)) (provenanceMembers prov))))

/-! ## 4. What a map holds -/

theorem mem_sortedMembers {m : TextMap Value} {k : Text} {v : Value} :
    (k, v) ∈ sortedMembers m ↔ m.lookup k = some v := by
  rw [sortedMembers, List.mem_insertionSort, List.mem_map]
  constructor
  · rintro ⟨e, he, heq⟩
    cases heq
    exact AList.mem_lookup_iff.mpr he
  · intro h
    exact ⟨⟨k, v⟩, AList.mem_lookup_iff.mp h, rfl⟩

theorem lookup_putAll_of_notMem {m : TextMap Value} {ms : List (Text × Value)} {k : Text}
    (h : k ∉ ms.map Prod.fst) : (putAll m ms).lookup k = m.lookup k := by
  induction ms generalizing m with
  | nil => rfl
  | cons e es ih =>
    rw [List.map_cons, List.mem_cons, not_or] at h
    rw [putAll, List.foldl_cons]
    exact (ih h.2).trans (AList.lookup_insert_ne h.1)

/-- When the keys differ, a map holds every member. -/
theorem lookup_putAll_of_mem {m : TextMap Value} {ms : List (Text × Value)} {k : Text} {v : Value}
    (hkeys : (ms.map Prod.fst).Nodup) (h : (k, v) ∈ ms) : (putAll m ms).lookup k = some v := by
  induction ms generalizing m with
  | nil => exact absurd h List.not_mem_nil
  | cons e es ih =>
    rw [List.map_cons, List.nodup_cons] at hkeys
    rw [putAll, List.foldl_cons]
    rcases List.mem_cons.mp h with rfl | h
    · exact (lookup_putAll_of_notMem hkeys.1).trans (AList.lookup_insert _)
    · exact ih hkeys.2 h

/-- What a map holds after some puts is one of the things that were put. -/
theorem lookup_putAll_empty {ms : List (Text × Value)} {k : Text} {v : Value}
    (h : (putAll ∅ ms).lookup k = some v) : (k, v) ∈ ms := by
  have hgen : ∀ (ms : List (Text × Value)) (m : TextMap Value), (putAll m ms).lookup k = some v →
      (k, v) ∈ ms ∨ m.lookup k = some v := by
    intro ms
    induction ms with
    | nil => exact fun m h => .inr h
    | cons e es ih =>
      intro m h
      rw [putAll, List.foldl_cons] at h
      rcases ih _ h with hmem | hins
      · exact .inl (List.mem_cons_of_mem _ hmem)
      · by_cases hk : k = e.1
        · subst hk
          rw [AList.lookup_insert] at hins
          cases hins
          exact .inl List.mem_cons_self
        · rw [AList.lookup_insert_ne hk] at hins
          exact .inr hins
  rcases hgen ms ∅ h with hmem | hnone
  · exact hmem
  · cases hnone

theorem lookup_eraseAll {keys : List Text} {m : TextMap Value} {k : Text} :
    (keys.foldl (fun m k => m.erase k) m).lookup k = if k ∈ keys then none else m.lookup k := by
  induction keys generalizing m with
  | nil => rfl
  | cons x xs ih =>
    rw [List.foldl_cons, ih]
    by_cases hk : k ∈ xs
    · rw [if_pos hk, if_pos (List.mem_cons_of_mem _ hk)]
    · rw [if_neg hk]
      by_cases hx : k = x
      · subst hx
        rw [if_pos List.mem_cons_self, AList.lookup_erase]
      · rw [if_neg (by simp [hx, hk]), AList.lookup_erase_ne hx]

theorem nodup_sortedMembers (m : TextMap Value) : ((sortedMembers m).map Prod.fst).Nodup := by
  have hperm : ((sortedMembers m).map Prod.fst).Perm m.keys := by
    refine ((List.perm_insertionSort _ _).map Prod.fst).trans ?_
    rw [List.map_map]
    exact List.Perm.refl _
  exact hperm.nodup_iff.mpr m.keys_nodup

/-! ## 5. The members of a provenance

Each field is written under its name and read under any spelling of it. -/

theorem provenanceMembers_keys (p : Provenance) :
    ((provenanceMembers p).map Prod.fst).Sublist (Field.all.map Field.key) := by
  rw [provenanceMembers, Field.all, List.map_append, List.map_append, List.map_append,
    List.append_assoc, List.map_map, List.map_map]
  refine List.Sublist.append (List.filter_sublist.map _) ?_
  have hone : ∀ (b : Bool) (m : Text × Value),
      ((if b then [] else [m]).map Prod.fst).Sublist [m.1] := by
    intro b m
    cases b
    · exact List.Sublist.refl _
    · exact List.nil_sublist _
  exact List.Sublist.append (hone _ _) (hone _ _)

theorem nodup_provenanceMembers (p : Provenance) : ((provenanceMembers p).map Prod.fst).Nodup := by
  have hall : (Field.all.map Field.key).Nodup := by decide
  exact hall.sublist (provenanceMembers_keys p)

theorem owned_of_mem {p : Provenance} {k : Text} (h : k ∈ (provenanceMembers p).map Prod.fst) :
    k ∈ ownedKeys := List.mem_append_left _ ((provenanceMembers_keys p).subset h)

theorem Field.mem_all (f : Field) : f ∈ Field.all := by
  cases f with
  | text t => cases t <;> decide
  | directorRefs => decide
  | directorTags => decide

theorem Field.key_inj {f g : Field} (h : f.key = g.key) : f = g := by
  have hall : ∀ f ∈ Field.all, ∀ g ∈ Field.all, f.key = g.key → f = g := by decide
  exact hall f f.mem_all g g.mem_all h

/-- A name of a field is read as that field. -/
theorem fieldOf_key (L : Casing) (f : Field) : fieldOf L f.key = some f := by
  have hfind : (Field.all.find? fun g => decide (g.key = f.key)) = some f := by
    cases hres : Field.all.find? fun g => decide (g.key = f.key) with
    | none =>
      have hno := List.find?_eq_none.mp hres f f.mem_all
      exact absurd (decide_eq_true rfl) hno
    | some g =>
      have hkey := List.find?_some hres
      rw [decide_eq_true_eq] at hkey
      rw [Field.key_inj hkey]
  rw [fieldOf, hfind]

theorem textElems_elemsOf (ss : List Text) : textElems (elemsOf ss) = true := by
  induction ss with
  | nil => rfl
  | cons s ss ih => exact ih

theorem textMembers_membersOf (ms : List (Text × Text)) : textMembers (membersOf ms) = true := by
  induction ms with
  | nil => rfl
  | cons m ms ih => exact ih

theorem readElems_elemsOf (prev ss : List Text) : readElems prev (elemsOf ss) = ss := by
  induction ss generalizing prev with
  | nil => rfl
  | cons s ss ih => rw [elemsOf, readElems, ih]

/-- What a provenance writes can be read. -/
theorem mem_provenanceMembers {p : Provenance} {k : Text} {v : Value}
    (h : (k, v) ∈ provenanceMembers p) : ∃ f : Field, k = f.key ∧ readable f v = true ∧
      (f = .directorRefs → v = .arr (elemsOf p.directorRefs)) := by
  rw [provenanceMembers, List.mem_append, List.mem_append] at h
  rcases h with (h | h) | h
  · obtain ⟨f, -, heq⟩ := List.mem_map.mp h
    cases heq
    exact ⟨.text f, rfl, rfl, fun hf => by cases hf⟩
  · split at h
    · exact absurd h List.not_mem_nil
    · cases List.mem_singleton.mp h
      exact ⟨.directorRefs, rfl, textElems_elemsOf _, fun _ => rfl⟩
  · split at h
    · exact absurd h List.not_mem_nil
    · cases List.mem_singleton.mp h
      exact ⟨.directorTags, rfl, textMembers_membersOf _, fun hf => by cases hf⟩

/-! ## 6. Reading after a merge

The members of the provenance replace those with the same keys, and everything is sorted. -/

/-- The members of a description. -/
def Description.members : Description → List (Text × Value)
  | .object ms => ms
  | _ => []

/-- No member that is read as `director_refs` comes behind it. -/
def Unshadowed (L : Casing) (d : Description) : Prop :=
  ∀ m ∈ d.members, fieldOf L m.1 = some .directorRefs → m.1 ≤ Field.directorRefs.key

section Merge

variable {L : Casing} {d d' d'' : Description} {p p' : Provenance}

theorem merge_eq (h : mergeProvenanceIntoDescription d p = .ok d') : d' = .object (sortedMembers
    (putAll (ownedKeys.foldl (fun m k => m.erase k) (putAll ∅ d.members))
      (provenanceMembers p))) := by
  cases d with
  | blank =>
    cases h
    rfl
  | notObject => cases h
  | null => cases h
  | object ms =>
    cases h
    rfl

/-- A merge keeps what the provenance does not own. -/
theorem merge_foreign (h : mergeProvenanceIntoDescription d p = .ok d')
    (hkeys : (d.members.map Prod.fst).Nodup) {k : Text} {v : Value} (hk : k ∉ ownedKeys)
    (hmem : (k, v) ∈ d.members) : (k, v) ∈ d'.members := by
  rw [merge_eq h, Description.members, mem_sortedMembers,
    lookup_putAll_of_notMem fun hp => hk (owned_of_mem hp), lookup_eraseAll, if_neg hk]
  exact lookup_putAll_of_mem hkeys hmem

/-- A member after a merge is one of the provenance, or one that it does not own. -/
theorem merge_member (h : mergeProvenanceIntoDescription d p = .ok d') {k : Text} {v : Value}
    (hmem : (k, v) ∈ d'.members) :
    (k, v) ∈ provenanceMembers p ∨ (k ∉ ownedKeys ∧ (k, v) ∈ d.members) := by
  rw [merge_eq h, Description.members, mem_sortedMembers] at hmem
  by_cases hk : k ∈ (provenanceMembers p).map Prod.fst
  · obtain ⟨⟨k', w⟩, hw, hfst⟩ := List.mem_map.mp hk
    dsimp only at hfst
    subst hfst
    rw [lookup_putAll_of_mem (nodup_provenanceMembers p) hw] at hmem
    cases hmem
    exact .inl hw
  · rw [lookup_putAll_of_notMem hk, lookup_eraseAll] at hmem
    split at hmem
    · cases hmem
    · rename_i howned
      exact .inr ⟨howned, lookup_putAll_empty hmem⟩

theorem merge_unshadowed (h : mergeProvenanceIntoDescription d p = .ok d') (hd : Unshadowed L d) :
    Unshadowed L d' := by
  rintro ⟨k, v⟩ hm hfield
  rcases merge_member h hm with hp | ⟨-, hold⟩
  · obtain ⟨f, rfl, -, -⟩ := mem_provenanceMembers hp
    rw [fieldOf_key] at hfield
    cases hfield
    exact le_refl _
  · exact hd (k, v) hold hfield

theorem fits_of_provenance {m : Text × Value} (h : m ∈ provenanceMembers p) : fits L m = true := by
  obtain ⟨f, hk, hread, -⟩ := mem_provenanceMembers h
  rw [fits, hk, fieldOf_key]
  exact hread

/-- A description cannot be read exactly when one of its members does not fit the field it is taken
for. -/
theorem parse_eq_none_iff {ms : List (Text × Value)} :
    parseStemcellProvenanceFromDescription L (.object ms) = none ↔ ∃ m ∈ ms, fits L m = false := by
  rw [parseStemcellProvenanceFromDescription]
  split
  · rename_i hall
    constructor
    · intro h
      cases h
    · rintro ⟨m, hm, hfits⟩
      rw [List.all_eq_true.mp hall m hm] at hfits
      cases hfits
  · rename_i hall
    rw [List.all_eq_true] at hall
    push Not at hall
    obtain ⟨m, hm, hfits⟩ := hall
    exact ⟨fun _ => ⟨m, hm, Bool.eq_false_iff.mpr hfits⟩, fun _ => rfl⟩

/-- A description that cannot be read after a merge cannot be read after the next. -/
theorem merge_stuck (h : mergeProvenanceIntoDescription d p = .ok d')
    (hnone : parseStemcellProvenanceFromDescription L d' = none)
    (h' : mergeProvenanceIntoDescription d' p' = .ok d'') :
    parseStemcellProvenanceFromDescription L d'' = none := by
  have heq := merge_eq h
  rw [heq] at hnone
  obtain ⟨⟨k, v⟩, hm, hfits⟩ := parse_eq_none_iff.mp hnone
  have hmem : (k, v) ∈ d'.members := by
    rw [heq]
    exact hm
  have hkeys : (d'.members.map Prod.fst).Nodup := by
    rw [heq]
    exact nodup_sortedMembers _
  rcases merge_member h hmem with hp | ⟨hk, -⟩
  · rw [fits_of_provenance hp] at hfits
    cases hfits
  · have hkept := merge_foreign h' hkeys hk hmem
    rw [merge_eq h'] at hkept ⊢
    exact parse_eq_none_iff.mpr ⟨(k, v), hkept, hfits⟩

theorem store_refs_ne {q : Provenance} {f : Field} {v : Value} (hf : f ≠ .directorRefs) :
    (store q f v).directorRefs = q.directorRefs := by
  cases f with
  | text t => cases v <;> rfl
  | directorRefs => exact absurd rfl hf
  | directorTags => cases v <;> rfl

/-- Members behind the references do not change them, when none of them is read as such. -/
theorem foldl_storeMember_refs {q : Provenance} {ms : List (Text × Value)} {refs : List Ref}
    (hq : q.directorRefs = refs)
    (hms : ∀ m ∈ ms, fieldOf L m.1 = some .directorRefs → m.2 = .arr (elemsOf refs)) :
    (ms.foldl (storeMember L) q).directorRefs = refs := by
  induction ms generalizing q with
  | nil => exact hq
  | cons m ms ih =>
    rw [List.foldl_cons]
    refine ih ?_ fun x hx => hms x (List.mem_cons_of_mem _ hx)
    unfold storeMember
    split
    · exact hq
    · rename_i f hf
      by_cases hrefs : f = .directorRefs
      · subst hrefs
        rw [hms m List.mem_cons_self hf]
        exact readElems_elemsOf _ _
      · rw [store_refs_ne hrefs, hq]

/-- **What is written can be read.**  After a merge the references are those of the provenance, if
the description can be read at all.  The member that is written under the name of the field is the
last one that is read as it, and what it says is read back. -/
theorem merge_refs (h : mergeProvenanceIntoDescription d p = .ok d') (hd : Unshadowed L d)
    (hne : p.directorRefs ≠ []) {q : Provenance}
    (hq : parseStemcellProvenanceFromDescription L d' = some q) :
    q.directorRefs = p.directorRefs := by
  have heq := merge_eq h
  have hmem : (Field.directorRefs.key, Value.arr (elemsOf p.directorRefs)) ∈ provenanceMembers
      p := by
    rw [provenanceMembers, if_neg (by simpa using hne)]
    simp
  have hlookup : (Field.directorRefs.key, Value.arr (elemsOf p.directorRefs)) ∈ d'.members := by
    rw [heq, Description.members, mem_sortedMembers]
    exact lookup_putAll_of_mem (nodup_provenanceMembers p) hmem
  have hsorted : d'.members.Pairwise fun a b => a.1 ≤ b.1 := by
    rw [heq]
    exact List.pairwise_insertionSort _ _
  have hparse : q = d'.members.foldl (storeMember L) {} := by
    rw [heq, parseStemcellProvenanceFromDescription] at hq
    rw [heq]
    split at hq
    · exact (Option.some.inj hq).symm
    · cases hq
  obtain ⟨before, after, hsplit⟩ := List.append_of_mem hlookup
  rw [hsplit, List.pairwise_append, List.pairwise_cons] at hsorted
  rw [hparse, hsplit, List.foldl_append, List.foldl_cons]
  refine foldl_storeMember_refs ?_ ?_
  · rw [storeMember, fieldOf_key]
    exact readElems_elemsOf _ _
  · rintro ⟨k, v⟩ hm hfield
    -- A member behind the references has their key, so it is the same member.
    have hin : (k, v) ∈ d'.members := by
      rw [hsplit]
      exact List.mem_append_right _ (List.mem_cons_of_mem _ hm)
    have hle : Field.directorRefs.key ≤ k := hsorted.2.1.1 _ hm
    have hge : k ≤ Field.directorRefs.key := merge_unshadowed h hd (k, v) hin hfield
    have hk : k = Field.directorRefs.key := le_antisymm hge hle
    rcases merge_member h hin with hp | ⟨hfree, -⟩
    · obtain ⟨f, hkey, -, harr⟩ := mem_provenanceMembers hp
      exact harr (Field.key_inj (hkey.symm.trans hk))
    · exact absurd (hk ▸ List.mem_append_left _ (List.mem_map_of_mem Field.directorRefs.mem_all))
        hfree

end Merge

end Stemcell
