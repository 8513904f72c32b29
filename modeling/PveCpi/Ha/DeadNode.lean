/-
# The destinations of a dead node's VM

`DeletionDestinations` of `ha/dead_node.go`, with the volume record of `ha/staging.go` and the
access set of `pve/volume_access_set.go`.  A delete of a VM whose node is fenced cannot read the
VM's config, so all that is known of its volumes is the record in the comment of its pin.

The record is a text codec: `withVolumeRecord` writes the storages as one word of the comment, and
`volumeRecord` reads them back (`volumeRecord_withVolumeRecord`).  Together with the access set and
the filter of a strict pin this bounds the destinations.  A storage name with a colon reads back
too, but the access set takes the part before the colon for the storage.

A nil argument is `none`; what the function returns beside an error is left out.

A wrong destination is worse than none: a VM that is started where one of its volumes is missing, or
where it would run beside a copy that is still alive, loses data.  So the statement is one-sided on
purpose.  It bounds the destinations and does not say that there are any.

The record is written when the pin is, and read when the node is dead and nothing else can be asked.
Between the two the comment may be edited, so the codec is stated for any comment around it: other
words stay, an older record is replaced.
-/
import PveCpi.Lib.Occurs
import PveCpi.Lib.Tokens
import PveCpi.Ha.Feasibility

namespace Ha

open Lib.Text

/-! ## 1. The function -/

def deadNodeSourceKey : String := "dead-node-from"

/-- The value of a `key=value` word. -/
def wordValue (key word : String) : Option String :=
  match cut word "=" with
  | some (k, val) => if k = key then some val else none
  | none => none

/-- `VolumeRecord`: the first record counts, and an empty one is none. -/
def volumeRecord (comment : String) : Option (List String) :=
  match (fields comment).findSome? (wordValue volumeRecordKey) with
  | none => none
  | some val =>
    let out := trimmed ((val.toList.splitOn ',').map String.ofList)
    if out = [] then none else some out

/-- `DeadNodeSource`: the first word with a value. -/
def deadNodeSource (comment : String) : Option String :=
  (fields comment).findSome? fun f => (wordValue deadNodeSourceKey f).filter fun val =>
    decide (val ≠ "")

/-- `DeadNodeReach`. -/
structure DeadNodeReach where
  source : String
  pinned : Bool := false
  admissible : List String := []
  reach : List String := []
  destinations : List String := []
  unplaceable : List String := []
  recorded : List String := []

/-- Why there is no answer. -/
inductive DeadNodeErr
  | sourceUnnamed
  | sourceNotMember (source : String)
  | noHealth
  | rulesUnread
  | storagesUnread
  | resourceUnnamed
  | noPin (sid pinID : String)
  | notNodeAffinity (pinID : String)
  | notOwned (pinID : String)
  | holdsOthers (pinID : String) (resources : List String) (sid : String)
  | strictNamesNone (pinID : String)
  | noRecord (pinID : String)
  | access (recorded : List String) (err : AccessErr)
  | strictLeavesSource (pinID source : String)

/-- One round of the last loop. -/
def admitMember (source : String) (placeable : String → Bool) (out : DeadNodeReach) (m : String) :
    DeadNodeReach :=
  if trimSpace m = "" ∨ m ∈ out.admissible then out
  else
    let out := { out with admissible := out.admissible ++ [m] }
    if m = source then out
    else
      let out := { out with reach := out.reach ++ [m] }
      if placeable m then { out with destinations := out.destinations ++ [m] }
      else { out with unplaceable := out.unplaceable ++ [m] }

/-- The lists of an answer, sorted. -/
def DeadNodeReach.sort (out : DeadNodeReach) : DeadNodeReach :=
  { out with
    admissible := sorted out.admissible
    reach := sorted out.reach
    destinations := sorted out.destinations
    unplaceable := sorted out.unplaceable }

/-- The volume that stands for a recorded storage. -/
def recordedVolume (source sid storage : String) : AccessVolume :=
  { volume := storage ++ ":" ++ sid, homeNode := source }

/-- What follows the checks of the arguments and of the pin. -/
def reachOfPin (source : String) (members : List String) (sid : String) (pin : ListedRule)
    (placeable : String → Bool) (get : String → Option StorageInfo) :
    Except DeadNodeErr DeadNodeReach :=
  match volumeRecord pin.comment with
  | none => .error (.noRecord pin.id)
  | some recorded =>
    match volumeAccessSet get members (recorded.map (recordedVolume source sid)) with
    | .error e => .error (.access recorded e)
    | .ok reachable =>
      if pin.strict && !decide (source ∈ pin.nodes) &&
        decide (deadNodeSource pin.comment ≠ some source) then
        .error (.strictLeavesSource pin.id source)
      else
        let admissible := if pin.strict then reachable.filter fun n => decide (n ∈ pin.nodes)
          else reachable
        let start : DeadNodeReach := { source, pinned := pin.strict, recorded }
        .ok (admissible.foldl (admitMember source placeable) start).sort

/-- `DeletionDestinations`. -/
def deletionDestinations (source : String) (members : List String) (set : Option (List ListedRule))
    (sid pinID : String) (owned : Option (ListedRule → Bool)) (placeable : Option (String → Bool))
    (storages : Option (String → Option StorageInfo)) : Except DeadNodeErr DeadNodeReach :=
  if trimSpace source = "" then .error .sourceUnnamed
  else if source ∉ members then .error (.sourceNotMember source)
  else
    match placeable, set, storages with
    | none, _, _ => .error .noHealth
    | some _, none, _ => .error .rulesUnread
    | some _, some _, none => .error .storagesUnread
    | some placeable, some rules, some get =>
      if trimSpace sid = "" ∨ trimSpace pinID = "" then .error .resourceUnnamed
      else
        match rules.find? fun r => decide (r.id = pinID) with
        | none => .error (.noPin sid pinID)
        | some pin =>
          if pin.type ≠ ruleTypeNodeAffinity ∨ pin.affinity = affinityNegative then
            .error (.notNodeAffinity pinID)
          else if !(owned.any fun o => o pin) then .error (.notOwned pinID)
          else if pin.resources ≠ [sid] then .error (.holdsOthers pinID pin.resources sid)
          else if pin.strict && pin.nodes.keys.isEmpty then .error (.strictNamesNone pinID)
          else reachOfPin source members sid pin placeable get

/-! ## 2. The record reads back

A comment is a list of words, and the record is one word with a key.  Storage names must have no
white space and no comma, and the names that PVE allows have neither. -/

/-- A word of a comment. -/
def IsWord (w : String) : Prop := w ≠ "" ∧ ∀ c ∈ w.toList, isSpace c = false

theorem toList_ne_nil {w : String} (h : w ≠ "") : w.toList ≠ [] := fun hnil => h (String.ext hnil)

theorem isWord_of_mem_fields {s w : String} (h : w ∈ fields s) : IsWord w := by
  obtain ⟨l, hl, rfl⟩ := List.mem_map.mp h
  obtain ⟨hmem, hne⟩ := List.mem_filter.mp hl
  refine ⟨fun hempty => ?_, fun c hc => ?_⟩
  · have : l = [] := by simpa using congrArg String.toList hempty
    rw [this] at hne
    cases hne
  · rw [String.toList_ofList] at hc
    exact (Lib.Tokens.mem_of_mem_splitOnP l hmem c hc).1

/-- Words with blanks between them are the fields of the text. -/
theorem fields_intercalate {ws : List String} (h : ∀ w ∈ ws, IsWord w) :
    fields (" ".intercalate ws) = ws := by
  have htrim : trimList (fun _ : Char => false) = id := by
    funext l
    have hdrop : ∀ l : List Char, l.dropWhile (fun _ => false) = l := fun l => by cases l <;> rfl
    rw [trimList, hdrop, hdrop, List.reverse_reverse, id]
  have htokens : Lib.Tokens.tokens isSpace (fun _ => false)
      (Lib.Tokens.joined ' ' (ws.map String.toList)) = ws.map String.toList := by
    refine Lib.Tokens.tokens_joined (by decide) fun t ht => ?_
    obtain ⟨w, hw, rfl⟩ := List.mem_map.mp ht
    exact ⟨toList_ne_nil (h w hw).1, (h w hw).2, congrFun htrim _⟩
  rw [Lib.Tokens.tokens, Lib.Tokens.joined, htrim, List.map_id] at htokens
  rw [fields, String.toList_intercalate, show " ".toList = [' '] from rfl, htokens, List.map_map]
  simp

theorem trimSpace_eq_self {s : String} (h : ∀ c ∈ s.toList, isSpace c = false) :
    trimSpace s = s := by
  have hdrop : ∀ l : List Char, (∀ c ∈ l, isSpace c = false) → l.dropWhile isSpace = l := by
    intro l hl
    cases l with
    | nil => rfl
    | cons c l => rw [List.dropWhile_cons_of_neg (by simp [hl c List.mem_cons_self])]
  rw [trimSpace, trimList, hdrop _ h, hdrop _ (fun c hc => h c (List.mem_reverse.mp hc)),
    List.reverse_reverse, String.ofList_toList]

/-- The names of a record: no white space and no comma in them. -/
def RecordNames (names : List String) : Prop := ∀ s ∈ names, ∀ c ∈ s.toList, isSpace c = false ∧
    c ≠ ','

theorem mem_trimmed_names {names : List String} (h : RecordNames names) {s : String} :
    s ∈ trimmed names ↔ s ≠ "" ∧ s ∈ names := by
  rw [mem_trimmed]
  refine and_congr_right fun _ => ⟨?_, fun hs => ⟨s, hs, ?_⟩⟩
  · rintro ⟨m, hm, rfl⟩
    rwa [trimSpace_eq_self fun c hc => (h m hm c hc).1]
  · exact trimSpace_eq_self fun c hc => (h s hs c hc).1

/-- The word of a record. -/
def recordWord (clean : List String) : String := volumeRecordKey ++ "=" ++ ",".intercalate clean

theorem wordValue_recordWord (clean : List String) :
    wordValue volumeRecordKey (recordWord clean) = some (",".intercalate clean) := by
  have hcut : cut (recordWord clean) "=" = some (volumeRecordKey, ",".intercalate clean) := by
    have hsplit := Lib.Occurs.cutList_of_split (h := '=') (t := []) (by simp)
      (x := volumeRecordKey.toList) (",".intercalate clean).toList (by decide)
    rw [cut, recordWord, String.toList_append, String.toList_append, show "=".toList =
      ['='] from rfl, List.append_assoc, hsplit, Option.map_some, String.ofList_toList,
      String.ofList_toList]
  rw [wordValue, hcut]
  rfl

theorem mem_intercalate {sep : List Char} {ls : List (List Char)} {c : Char}
    (h : c ∈ sep.intercalate ls) : c ∈ sep ∨ ∃ l ∈ ls, c ∈ l := by
  induction ls with
  | nil => cases h
  | cons l ls ih =>
    cases ls with
    | nil => exact .inr ⟨l, List.mem_cons_self, by simpa using h⟩
    | cons l' ls =>
      rw [List.intercalate_cons_cons, List.mem_append, List.mem_append] at h
      rcases h with (h | h) | h
      · exact .inr ⟨l, List.mem_cons_self, h⟩
      · exact .inl h
      · exact (ih h).imp_right fun ⟨m, hm, hc⟩ => ⟨m, List.mem_cons_of_mem _ hm, hc⟩

/-- The record of volumes is one word: the key is not empty, and storage names have no white
space. -/
theorem isWord_recordWord {clean : List String}
    (h : ∀ s ∈ clean, ∀ c ∈ s.toList, isSpace c = false) : IsWord (recordWord clean) := by
  refine ⟨fun hempty => ?_, fun c hc => ?_⟩
  · have := congrArg String.toList hempty
    simp [recordWord, volumeRecordKey] at this
  · rw [recordWord, String.toList_append, String.toList_append, List.mem_append, List.mem_append,
      String.toList_intercalate] at hc
    rcases hc with (hc | hc) | hc
    · exact forall_of_all (P := fun c => isSpace c = false) (by decide) c hc
    · exact forall_of_all (P := fun c => isSpace c = false) (by decide) c hc
    · rcases mem_intercalate hc with hc | ⟨l, hl, hc⟩
      · exact forall_of_all (P := fun c => isSpace c = false) (by decide) c hc
      · obtain ⟨s, hs, rfl⟩ := List.mem_map.mp hl
        exact h s hs c hc

/-- The words of a comment that are not a record. -/
def keptWords (comment : String) : List String :=
  (fields comment).filter fun f => decide ((cut f "=").map Prod.fst ≠ some volumeRecordKey)

theorem withVolumeRecord_eq (comment : String) (names : List String) :
    withVolumeRecord comment names = " ".intercalate
      (keptWords comment ++ if trimmed names = [] then [] else [recordWord (trimmed names)]) := by
  rw [withVolumeRecord]
  by_cases hnil : trimmed names = []
  · rw [if_pos hnil, if_pos hnil, List.append_nil]
    rfl
  · rw [if_neg hnil, if_neg hnil]
    rfl

theorem findSome?_keptWords (comment : String) :
    (keptWords comment).findSome? (wordValue volumeRecordKey) = none := by
  refine List.findSome?_eq_none_iff.mpr fun w hw => ?_
  have hkey := of_decide_eq_true (List.mem_filter.mp hw).2
  unfold wordValue
  split
  · rename_i k val hcut
    rw [hcut] at hkey
    exact if_neg fun heq => hkey (congrArg some heq)
  · rfl

/-- **The record codec.**  What `WithVolumeRecord` wrote into a comment is what `VolumeRecord`
reads.  The words with the key are taken out before the new one is added, so it is the only one that
is found. -/
theorem volumeRecord_withVolumeRecord {names : List String} (h : RecordNames names)
    (comment : String) : volumeRecord (withVolumeRecord comment names) =
      if trimmed names = [] then none else some (trimmed names) := by
  have hnames : ∀ s ∈ trimmed names, ∀ c ∈ s.toList, isSpace c = false ∧ c ≠ ',' := fun s hs =>
    h s ((mem_trimmed_names h).mp hs).2
  have hwords : ∀ w ∈ keptWords comment ++ if trimmed names = [] then []
      else [recordWord (trimmed names)], IsWord w := by
    intro w hw
    rcases List.mem_append.mp hw with hw | hw
    · exact isWord_of_mem_fields (List.mem_of_mem_filter hw)
    · split at hw
      · cases hw
      · rw [List.mem_singleton.mp hw]
        exact isWord_recordWord fun s hs c hc => (hnames s hs c hc).1
  rw [volumeRecord, withVolumeRecord_eq, fields_intercalate hwords, List.findSome?_append,
    findSome?_keptWords, Option.none_or]
  by_cases hnil : trimmed names = []
  · rw [if_pos hnil, if_pos hnil]
    rfl
  · -- No name has a comma, so splitting at the commas gives the names back.
    have hsplit : ((",".intercalate (trimmed names)).toList.splitOn ',').map String.ofList =
        trimmed names := by
      rw [String.toList_intercalate, show ",".toList = [','] from rfl, List.splitOn_intercalate]
      · simp
      · intro l hl hcomma
        obtain ⟨s, hs, rfl⟩ := List.mem_map.mp hl
        exact (hnames s hs _ hcomma).2 rfl
      · simpa using hnil
    rw [if_neg hnil, if_neg hnil, List.findSome?_singleton, wordValue_recordWord]
    dsimp only
    rw [hsplit, trimmed_trimmed, if_neg hnil]

/-! ## 3. The destinations

The function folds over the members; each one is accepted or rejected with a reason. -/

/-- What the last loop keeps of its destinations. -/
def Destined (source : String) (placeable : String → Bool) (admissible : List String)
    (out : DeadNodeReach) : Prop :=
  ∀ n ∈ out.destinations, n ∈ admissible ∧ n ≠ source ∧ placeable n = true

/-- One node of the loop.  The source is no destination, a destination is a node that may be placed
on, and every node that is listed is an admissible one. -/
theorem destined_admitMember {source m : String} {placeable : String → Bool}
    {admissible : List String}
    {out : DeadNodeReach} (hm : m ∈ admissible) (h : Destined source placeable admissible out) :
    Destined source placeable admissible (admitMember source placeable out m) := by
  unfold admitMember
  split
  · exact h
  dsimp only
  split
  · exact h
  rename_i hne
  split
  · rename_i hplace
    intro n hn
    rcases List.mem_append.mp hn with hn | hn
    · exact h n hn
    · rw [List.mem_singleton.mp hn]
      exact ⟨hm, hne, hplace⟩
  · exact h

theorem destined_foldl {source : String} {placeable : String → Bool} {all l : List String}
    {out : DeadNodeReach} (hsub : ∀ m ∈ l, m ∈ all) (h : Destined source placeable all out) :
    Destined source placeable all (l.foldl (admitMember source placeable) out) := by
  induction l generalizing out with
  | nil => exact h
  | cons m l ih =>
    exact ih (fun m' hm' => hsub m' (List.mem_cons_of_mem _ hm'))
      (destined_admitMember (hsub m List.mem_cons_self) h)

/-- What an answer rests on: the record, the access set of its storages, and the pin. -/
theorem reachOfPin_ok {source sid : String} {members : List String} {pin : ListedRule}
    {placeable : String → Bool} {get : String → Option StorageInfo} {out : DeadNodeReach}
    (h : reachOfPin source members sid pin placeable get = .ok out) :
    ∃ recorded access, volumeRecord pin.comment = some recorded ∧
      volumeAccessSet get members (recorded.map (recordedVolume source sid)) = .ok access ∧
      ∀ n ∈ out.destinations, n ∈ access ∧ n ≠ source ∧ placeable n = true ∧
        (pin.strict = true → n ∈ pin.nodes) := by
  unfold reachOfPin at h
  split at h
  · cases h
  rename_i recorded hrecorded
  split at h
  · cases h
  rename_i access haccess
  split at h
  · cases h
  cases h
  refine ⟨recorded, access, hrecorded, haccess, fun n hn => ?_⟩
  obtain ⟨hadm, hne, hplace⟩ :=
    destined_foldl (fun _ => id) (fun _ h => absurd h List.not_mem_nil) n (mem_sorted.mp hn)
  split at hadm
  · obtain ⟨hmem, hnode⟩ := List.mem_filter.mp hadm
    exact ⟨hmem, hne, hplace, fun _ => of_decide_eq_true hnode⟩
  · rename_i hstrict
    exact ⟨hadm, hne, hplace, fun hs => absurd hs hstrict⟩

/-- What a successful call has checked. -/
theorem deletionDestinations_ok {source sid pinID : String} {members : List String}
    {rules : List ListedRule} {owned : Option (ListedRule → Bool)} {placeable : String → Bool}
    {get : String → Option StorageInfo} {out : DeadNodeReach} {pin : ListedRule}
    (hpin : (rules.find? fun r => decide (r.id = pinID)) = some pin)
    (h : deletionDestinations source members (some rules) sid pinID owned (some placeable)
      (some get) = .ok out) :
    sid ≠ "" ∧ reachOfPin source members sid pin placeable get = .ok out := by
  unfold deletionDestinations at h
  split at h
  · cases h
  split at h
  · cases h
  dsimp only at h
  split at h
  · cases h
  rename_i hnamed
  rw [hpin] at h
  dsimp only at h
  repeat
    split at h
    · cases h
  refine ⟨fun hsid => hnamed (.inl ?_), h⟩
  rw [hsid]
  rfl

/-- A volume of a storage without a colon in its name. -/
theorem storageOf_recordedVolume {source sid s : String} (hs : s ≠ "") (hsid : sid ≠ "")
    (hcolon : ':' ∉ s.toList) : storageOf (recordedVolume source sid s).volume = some s := by
  have hcut : cut (s ++ ":" ++ sid) ":" = some (s, sid) := by
    have hcount : Lib.Occurs.count [':'] s.toList = 0 := by
      rw [Lib.Occurs.count_eq_zero]
      intro hin
      exact hcolon (hin.subset List.mem_cons_self)
    have hsplit := Lib.Occurs.cutList_of_split List.not_mem_nil sid.toList hcount
    rw [cut, String.toList_append, String.toList_append, show ":".toList = [':'] from rfl,
      List.append_assoc, hsplit, Option.map_some, String.ofList_toList, String.ofList_toList]
  rw [storageOf, recordedVolume, hcut]
  exact if_neg fun h => h.elim hs hsid

/-- A volume of node-local storage is reached from its home node only. -/
theorem eq_of_hits_local {get : String → Option StorageInfo} {v : AccessVolume} {s n : String}
    {info : StorageInfo} (hs : storageOf v.volume = some s) (hinfo : get s = some info)
    (hlocal : info.isShared = false) (hreach : (reachOf get v).isSome) (h : Hits get v n) :
      n = v.homeNode := by
  have heq : reachOf get v = storageNodeSet info v.homeNode := by simp [reachOf, hs, hinfo]
  rw [Hits, heq] at h
  rw [heq] at hreach
  unfold storageNodeSet at h hreach
  rw [hlocal] at h hreach
  split at h
  · exact absurd (h [] rfl) List.not_mem_nil
  rename_i hdisabled
  rw [if_neg hdisabled] at hreach
  rw [Bool.not_false, if_pos rfl] at h hreach
  split at h
  · rename_i hhome
    rw [if_pos hhome] at hreach
    cases hreach
  split at h
  · exact absurd (h [] rfl) List.not_mem_nil
  · exact List.mem_singleton.mp (h _ rfl)

/-- **The destinations of a dead node's VM are safe.**  The pin's comment is one that
`WithVolumeRecord` wrote: then each destination is a member other than the source that the health
report accepts, is named by a strict pin, and reaches every recorded storage; and a node-local
storage leaves none.  A destination was accepted by every test of the loop, the last of which is the
access set of the recorded volumes.  A node-local volume is reached from its home node only, which
is the source, and the source is never a destination. -/
theorem deletionDestinations_safe {source sid pinID : String} {members names : List String}
    (comment : String)
    {rules : List ListedRule} {owned : Option (ListedRule → Bool)} {placeable : String → Bool}
    {get : String → Option StorageInfo} {out : DeadNodeReach} {pin : ListedRule}
    (h : deletionDestinations source members (some rules) sid pinID owned (some placeable)
      (some get) = .ok out)
    (hpin : (rules.find? fun r => decide (r.id = pinID)) = some pin)
    (hcomment : pin.comment = withVolumeRecord comment names) (hnames : RecordNames names) :
    (∀ n ∈ out.destinations, n ∈ members ∧ n ≠ source ∧ placeable n = true ∧
      (pin.strict = true → n ∈ pin.nodes) ∧
      ∀ s ∈ names, s ≠ "" → ∃ access,
        volumeAccessSet get members [recordedVolume source sid s] = .ok access ∧ n ∈ access) ∧
    ((∃ s ∈ names, s ≠ "" ∧ ':' ∉ s.toList ∧ ∃ info, get s = some info ∧ info.isShared = false) →
      out.destinations = []) := by
  obtain ⟨hsid, hreach⟩ := deletionDestinations_ok hpin h
  obtain ⟨recorded, access, hrecorded, haccess, hdest⟩ := reachOfPin_ok hreach
  rw [hcomment, volumeRecord_withVolumeRecord hnames] at hrecorded
  have hmem : ∀ s ∈ names, s ≠ "" → s ∈ recorded := by
    intro s hs hne
    have hin : s ∈ trimmed names := (mem_trimmed_names hnames).mpr ⟨hne, hs⟩
    rw [if_neg (List.ne_nil_of_mem hin)] at hrecorded
    rwa [← Option.some.inj hrecorded]
  have hvolume : ∀ s ∈ names, s ≠ "" →
      recordedVolume source sid s ∈ recorded.map (recordedVolume source sid) := fun s hs hne =>
    List.mem_map_of_mem (hmem s hs hne)
  obtain ⟨hall, hmembers, -⟩ := volumeAccessSet_ok haccess
  constructor
  · intro n hn
    obtain ⟨hacc, hne, hplace, hstrict⟩ := hdest n hn
    refine ⟨((hmembers n).mp hacc).1.1, hne, hplace, hstrict, fun s hs hs' => ?_⟩
    refine volumeAccessSet_mono haccess hacc fun v hv => ?_
    rw [List.mem_singleton.mp hv]
    exact hvolume s hs hs'
  · rintro ⟨s, hs, hs', hcolon, info, hinfo, hlocal⟩
    refine List.eq_nil_iff_forall_not_mem.mpr fun n hn => ?_
    obtain ⟨hacc, hne, -⟩ := hdest n hn
    have hhits := ((hmembers n).mp hacc).2 _ (hvolume s hs hs')
    exact hne (eq_of_hits_local (storageOf_recordedVolume hs' hsid hcolon) hinfo hlocal
      (hall _ (hvolume s hs hs')) hhits)

/-- The record pin of VM 7, with some storages. -/
def samplePin (names : List String) : ListedRule where
  id := "pin"
  strict := false
  nodes := ∅
  resources := ["vm:7"]
  comment := withVolumeRecord "bosh" names

/-- Shared storage `a`, and node-local storages under other names. -/
def sampleStorages (name : String) : Option StorageInfo :=
  some { name, shared := decide (name = "a") }

def sampleDestinations (names : List String) : Except DeadNodeErr DeadNodeReach :=
  deletionDestinations "n1" ["n1", "n2"] (some [samplePin names]) "vm:7" "pin" (some fun _ => true)
    (some fun _ => true) (some sampleStorages)

theorem recordNames_of_all {names : List String}
    (h : (names.all fun s => s.toList.all fun c => decide (isSpace c = false ∧ c ≠ ',')) = true) :
    RecordNames names :=
  fun s hs => forall_of_all (List.all_eq_true.mp h s hs)

/-- A strict pin of the VM, on shared storage. -/
def strictPin : ListedRule :=
  { samplePin ["a"] with
    strict := true
    nodes := (AList.insert "n1" 0 ∅).insert "n2" 0 }

def strictDestinations : Except DeadNodeErr DeadNodeReach :=
  deletionDestinations "n1" ["n1", "n2", "n3"] (some [strictPin]) "vm:7" "pin" (some fun _ => true)
    (some fun _ => true) (some sampleStorages)

theorem sampleDestinations_evaluated : (sampleDestinations ["a", "b"]).isOk = true ∧
    strictDestinations.toOption.map DeadNodeReach.destinations = some ["n2"] := by
  decide

/-- Storage `b` is node-local, so the VM stays where it is.  On the shared storage alone it may go
to the other node of its strict pin, which reaches the storage. -/
theorem deletionDestinations_safe_sample :
    (∃ out, sampleDestinations ["a", "b"] = .ok out ∧ out.destinations = []) ∧
    ∃ out access, strictDestinations = .ok out ∧ out.destinations = ["n2"] ∧
      "n2" ∈ strictPin.nodes ∧
      volumeAccessSet sampleStorages ["n1", "n2", "n3"] [recordedVolume "n1" "vm:7" "a"] =
        .ok access ∧ "n2" ∈ access := by
  obtain ⟨hlocal, hshared⟩ := sampleDestinations_evaluated
  constructor
  · cases h : sampleDestinations ["a", "b"] with
    | error e =>
      rw [h] at hlocal
      cases hlocal
    | ok out =>
      have hnames : RecordNames ["a", "b"] := recordNames_of_all (by decide)
      have hcomment : (samplePin ["a", "b"]).comment = withVolumeRecord "bosh" ["a", "b"] := rfl
      refine ⟨out, rfl, (deletionDestinations_safe "bosh" h rfl hcomment hnames).2 ?_⟩
      exact ⟨"b", by decide, by decide, by decide, _, rfl, by decide⟩
  · cases h : strictDestinations with
    | error e =>
      rw [h] at hshared
      cases hshared
    | ok out =>
      rw [h] at hshared
      have hdest : out.destinations = ["n2"] := Option.some.inj hshared
      have hnames : RecordNames ["a"] := recordNames_of_all (by decide)
      have hcomment : strictPin.comment = withVolumeRecord "bosh" ["a"] := rfl
      obtain ⟨-, -, -, hpinned, hreach⟩ :=
        (deletionDestinations_safe "bosh" h rfl hcomment hnames).1
        "n2" (hdest ▸ List.mem_singleton_self _)
      obtain ⟨access, haccess, hmem⟩ := hreach "a" (List.mem_singleton_self _) (by decide)
      exact ⟨out, access, rfl, hdest, hpinned rfl, haccess, hmem⟩

/-- With the node-local storage `a:b` in the record, or a nameless one, there is a destination all
the same. -/
theorem destination_beside_local_storage :
    (RecordNames ["a:b"] ∧ (sampleStorages "a:b").map StorageInfo.isShared = some false ∧
      (sampleDestinations ["a:b"]).toOption.map DeadNodeReach.destinations = some ["n2"]) ∧
    RecordNames ["", "a"] ∧ (sampleStorages "").map StorageInfo.isShared = some false ∧
      (sampleDestinations ["", "a"]).toOption.map DeadNodeReach.destinations = some ["n2"] :=
  ⟨⟨recordNames_of_all (by decide), by decide, by decide⟩,
    recordNames_of_all (by decide), by decide, by decide⟩

example : volumeRecord (withVolumeRecord "bosh bosh-vols=old" ["b", "a"]) = some ["a", "b"] := by
  decide

end Ha
