/-
# The claim on a lock sentinel, byte by byte

`Claim.lean` reads claims as texts.  The strings of the program are bytes, and a caller's token may
hold bytes that are not UTF-8: `lockOwnerToken` copies those, replaces what `unicode.IsSpace`
reports, and so works on characters, while the comment around the token is put together from bytes
and taken apart by `strings.Fields`, on characters again, and by `strings.Contains`, on bytes.

What carries the proof is that an ASCII character never joins a stray byte before it: the `-` that
replaces a space, the `@` behind the token and the blank behind the owner cut the string for both
readings (`runes_substitute`, `runes_cut`).

* `lock_claim_codec`: owner and expiry read back, and of the owners that a process issues only the
  one of the comment is found in it.

The text level is not enough here.  The counter that tells two owners of one process apart is
compared as bytes at the end of the token, and a token may end in a byte that is half of a
character; if the `@` behind it could complete that character, the number would not be found again.
It cannot, because no continuation byte is ASCII.  `Lib.Utf8` has this as a fact about `runes`.
-/
import PveCpi.Lock.Claim
import PveCpi.Lib.Decimal
import PveCpi.Lib.Utf8

namespace LockCodec

open Lib.Text (isSpace cutList)
open Lib.Tokens (tokens joined)
open Lib.Utf8
open Lib.Decimal (digits formatInt parseInt)
open Lock (isHostChar lockOwnerHostLimit)

/-- A Go string. -/
abbrev Str := List UInt8

/-- The string of a text. -/
def str (s : String) : Str := encode s.toList

/-! ## 1. Comments -/

/-- `unicode.IsSpace`; a stray byte is read as the replacement character, which is no space. -/
def isSpaceRune : Option Char → Bool
  | some c => isSpace c
  | none => false

/-- `strings.Fields`. -/
def fields (s : Str) : List Str :=
  (tokens (fun r => isSpaceRune r.1) (fun _ => false) (spans s)).map fun t => t.flatMap Prod.snd

def lockCommentOwnerKey : Str := str "owner="
def lockCommentExpKey : Str := str "exp="

/-- Seconds between the year one, from which `time.Time` counts, and the epoch. -/
def unixToInternal : Int64 := 62135596800

/-- `Time.Unix` of a moment in whole seconds since the year one. -/
def unix (exp : Int64) : Int64 := exp - unixToInternal

/-- `time.Unix(secs, 0)`. -/
def unixTime (secs : Int64) : Int64 := secs + unixToInternal

/-- `encodeLockComment`. -/
def encodeLockComment (owner : Str) (exp : Int64) : Str :=
  lockCommentOwnerKey ++ owner ++ 32 :: (lockCommentExpKey ++ formatInt (unix exp).toInt)

/-- What follows the key in the first field that starts with it. -/
def fieldAfter (key comment : Str) : Option Str :=
  ((fields comment).find? fun field => key.isPrefixOf field).map fun field => field.drop key.length

/-- `decodeLockOwner`. -/
def decodeLockOwner (comment : Str) : Option Str := fieldAfter lockCommentOwnerKey comment

/-- `decodeLockExpiry`. -/
def decodeLockExpiry (comment : Str) : Option Int64 :=
  (fieldAfter lockCommentExpKey comment).bind fun rest =>
    (parseInt rest).map fun secs => unixTime (Int64.ofInt secs)

/-- The containment test of `sentinelClaim`. -/
def carriesClaim (comment owner : Str) : Bool :=
  (cutList (lockCommentOwnerKey ++ owner ++ [32]) comment).isSome

/-! ## 2. Owners -/

/-- `lockOwnerHost`: one byte for each character, up to the limit. -/
def lockOwnerHost (host : Str) : Str :=
  let kept := ((runes host).take lockOwnerHostLimit).map fun r =>
    match r with
    | some c => if isHostChar c then UInt8.ofNat c.toNat else 45
    | none => 45
  if kept.isEmpty then str "unknown-host" else kept

/-- `lockOwnerToken`. -/
def lockOwnerToken (owner : Str) : Str :=
  if owner.isEmpty then str "unnamed" else substitute isSpaceRune 45 owner

/-- On texts it is the `lockOwnerToken` of `Claim.lean`. -/
theorem lockOwnerToken_encode (owner : List Char) :
    lockOwnerToken (encode owner) = encode (Lock.lockOwnerToken owner) := by
  unfold lockOwnerToken Lock.lockOwnerToken
  cases owner with
  | nil => rfl
  | cons c owner =>
    have hne : (encode (c :: owner)).isEmpty = false := by
      rw [List.isEmpty_eq_false_iff]
      exact fun hnil => absurd (encode_eq_nil.mp hnil) (by simp)
    rw [hne, List.isEmpty_cons]
    exact substitute_encode (by decide) _

/-- What the process identity is made of: the host name, empty when it is not known, the pid and the
nonce. -/
structure Process where
  host : Str
  pid : Int
  nonce : List UInt8

def hexDigit (n : Nat) : UInt8 := if n < 10 then UInt8.ofNat (48 + n) else UInt8.ofNat (87 + n)

/-- `hex.EncodeToString`. -/
def encodeToString (bytes : List UInt8) : Str :=
  bytes.flatMap fun b => [hexDigit (b.toNat / 16), hexDigit (b.toNat % 16)]

/-- `processLockIdentity`. -/
def processLockIdentity (p : Process) : Str :=
  lockOwnerHost p.host ++ 47 :: (formatInt p.pid ++ 45 :: encodeToString p.nonce)

/-- The owner with the number `seq`. -/
def ownerWith (p : Process) (owner : Str) (seq : UInt64) : Str :=
  lockOwnerToken owner ++ 64 :: (processLockIdentity p ++ 45 :: digits seq.toNat)

/-- `ProcessLockOwner`: the owner, and `lockOwnerSeq` after it. -/
def processLockOwner (p : Process) (owner : Str) (lockOwnerSeq : UInt64) : Str × UInt64 :=
  (ownerWith p owner (lockOwnerSeq + 1), lockOwnerSeq + 1)

/-- The owners that a process issues for these tokens, one after another. -/
def issue (p : Process) : List Str → UInt64 → List Str
  | [], _ => []
  | owner :: rest, seq =>
    let r := processLockOwner p owner seq
    r.1 :: issue p rest r.2

/-- The tokens for which a process was asked for owners.  The counter has 64 bits, and no process is
asked so often that it starts again. -/
structure Calls where
  tokens : List Str
  fits : tokens.length < 2 ^ 64

/-- The owners that a process issues. -/
def issued (p : Process) (calls : Calls) : List Str := issue p calls.tokens 0

/-! ## 3. No white space

White space is a property of characters.  A stray byte is no character, so it is none. -/

/-- No character of the string is white space. -/
def Unspaced (s : Str) : Prop := ∀ r ∈ runes s, isSpaceRune r = false

theorem unspaced_encode {cs : List Char} (h : ∀ c ∈ cs, isSpace c = false) :
    Unspaced (encode cs) := by
  intro r hr
  rw [runes_encode] at hr
  obtain ⟨c, hc, rfl⟩ := List.mem_map.mp hr
  exact h c hc

/-- Strings on both sides of an ASCII character. -/
theorem Unspaced.cut {x y : Str} {c : Char} {a : UInt8} (hx : Unspaced x) (hy : Unspaced y)
    (hc : String.utf8EncodeChar c = [a]) (ha : a.toNat < 128) (hspace : isSpace c = false) :
    Unspaced (x ++ a :: y) := by
  intro r hr
  rw [runes_cut hc ha, List.mem_append, List.mem_cons] at hr
  rcases hr with hr | rfl | hr
  · exact hx r hr
  · exact hspace
  · exact hy r hr

/-- A visible ASCII character. -/
def Visible (a : UInt8) : Prop := 33 ≤ a.toNat ∧ a.toNat < 127

theorem unspaced_of_visible {s : Str} (h : ∀ a ∈ s, Visible a) : Unspaced s := by
  have hall : ∀ n : Fin 127, 33 ≤ n.val → isSpace (Char.ofNat n.val) = false := by decide
  intro r hr
  rw [runes_ascii fun a ha => (h a ha).2.trans (by decide)] at hr
  obtain ⟨a, ha, rfl⟩ := List.mem_map.mp hr
  exact hall ⟨a.toNat, (h a ha).2⟩ (h a ha).1

/-- **What a token is made of is never white space**, whatever its bytes are.  Every character that
is white space was replaced by an ASCII one, and a replacement makes no new characters
(`Lib.Utf8.runes_substitute`). -/
theorem unspaced_lockOwnerToken (owner : Str) : Unspaced (lockOwnerToken owner) := by
  unfold lockOwnerToken
  split
  · exact unspaced_encode (Lib.Text.forall_of_all (by decide))
  · intro r hr
    rw [runes_substitute (c := '-') rfl (by decide) (by decide)] at hr
    obtain ⟨r', -, rfl⟩ := List.mem_map.mp hr
    split
    · decide
    · rename_i hspace
      exact Bool.eq_false_iff.mpr hspace

theorem visible_of_isDigit {a : UInt8} (h : Lib.Decimal.isDigit a = true) : Visible a := by
  simp only [Lib.Decimal.isDigit, Bool.and_eq_true, decide_eq_true_eq] at h
  unfold Visible
  omega

theorem visible_formatInt {n : Int} : ∀ a ∈ formatInt n, Visible a := by
  intro a ha
  rcases Lib.Decimal.mem_formatInt ha with rfl | ha
  · exact ⟨by decide, by decide⟩
  · exact visible_of_isDigit ha

/-- What is left of a host name is visible ASCII; checked for each of the 128 characters. -/
theorem visible_lockOwnerHost (host : Str) : ∀ a ∈ lockOwnerHost host, Visible a := by
  have hhost : ∀ n : Fin 128, isHostChar (Char.ofNat n.val) = true → 33 ≤ n.val ∧ n.val < 127 := by
    decide
  intro a ha
  unfold lockOwnerHost at ha
  dsimp only at ha
  split at ha
  · have hname : ∀ b ∈ str "unknown-host", 33 ≤ b.toNat ∧ b.toNat < 127 :=
      Lib.Text.forall_of_all (by decide)
    exact hname a ha
  · obtain ⟨r, -, rfl⟩ := List.mem_map.mp ha
    split
    · rename_i c
      split
      · rename_i hc
        have hsmall : c.toNat < 128 := by
          simp only [isHostChar, Char.isLower, Char.isUpper, Char.isDigit, Bool.or_eq_true,
            Bool.and_eq_true, decide_eq_true_eq, beq_iff_eq] at hc
          rcases hc with ((((hc | hc) | hc) | rfl) | rfl) | rfl
          · exact Nat.lt_of_le_of_lt hc.2 (by decide)
          · exact Nat.lt_of_le_of_lt hc.2 (by decide)
          · exact Nat.lt_of_le_of_lt hc.2 (by decide)
          · decide
          · decide
          · decide
        have hvisible := hhost ⟨c.toNat, hsmall⟩ (by rwa [Char.ofNat_toNat])
        rw [Visible, UInt8.toNat_ofNat']
        dsimp only at hvisible
        omega
      · exact ⟨by decide, by decide⟩
    · exact ⟨by decide, by decide⟩

theorem visible_encodeToString (bytes : List UInt8) : ∀ a ∈ encodeToString bytes, Visible a := by
  have hhex : ∀ n : Fin 16, 33 ≤ (hexDigit n.val).toNat ∧ (hexDigit n.val).toNat < 127 := by decide
  intro a ha
  obtain ⟨b, -, hb⟩ := List.mem_flatMap.mp ha
  have hlt := b.toNat_lt
  simp only [List.mem_cons, List.not_mem_nil, or_false] at hb
  rcases hb with rfl | rfl
  · exact hhex ⟨b.toNat / 16, by omega⟩
  · exact hhex ⟨b.toNat % 16, by omega⟩

/-- The token is the given owner without white space, or the identity of the process, which has
none. -/
theorem unspaced_ownerWith (p : Process) (owner : Str) (seq : UInt64) :
    Unspaced (ownerWith p owner seq) := by
  have hrest : ∀ a ∈ processLockIdentity p ++ 45 :: digits seq.toNat, Visible a := by
    intro a ha
    simp only [processLockIdentity, List.mem_append, List.mem_cons] at ha
    rcases ha with (ha | rfl | ha | rfl | ha) | rfl | ha
    · exact visible_lockOwnerHost _ a ha
    · exact ⟨by decide, by decide⟩
    · exact visible_formatInt a ha
    · exact ⟨by decide, by decide⟩
    · exact visible_encodeToString _ a ha
    · exact ⟨by decide, by decide⟩
    · exact visible_of_isDigit (Lib.Decimal.isDigit_of_mem_digits ha)
  exact (unspaced_lockOwnerToken owner).cut (unspaced_of_visible hrest) (c := '@') (by decide)
    (by decide) (by decide)

/-! ## 4. The codec

Between the blank behind the owner and the end of the comment stands the expiry. -/

/-- The two fields of a comment. -/
theorem fields_encode {owner : Str} {exp : Int64} (howner : Unspaced owner) :
    fields (encodeLockComment owner exp) =
      [lockCommentOwnerKey ++ owner, lockCommentExpKey ++ formatInt (unix exp).toInt] := by
  have hclean : ∀ s : Str, s ≠ [] → Unspaced s →
      Lib.Tokens.Clean (fun r => isSpaceRune r.1) (fun _ => false) (spans s) := by
    intro s hne hs
    refine ⟨fun hnil => hne ?_, fun r hr => hs r.1 ?_, ?_⟩
    · rw [← flatMap_snd_spans s, hnil]
      rfl
    · rw [← map_fst_spans]
      exact List.mem_map_of_mem hr
    · have hdrop : ∀ l : List (Option Char × Str), l.dropWhile (fun _ => false) = l := fun l => by
        cases l <;> rfl
      rw [Lib.Text.trimList, hdrop, hdrop, List.reverse_reverse]
  have hkey : ∀ key : String, (∀ c ∈ key.toList, isSpace c = false) → ∀ s, Unspaced s →
      Unspaced (str key ++ s) := by
    intro key hkey s hs r hr
    rw [str, runes_encode_append, List.mem_append] at hr
    rcases hr with hr | hr
    · obtain ⟨c, hc, rfl⟩ := List.mem_map.mp hr
      exact hkey c hc
    · exact hs r hr
  have hfirst := hkey "owner=" (Lib.Text.forall_of_all (by decide)) owner howner
  have hsecond := hkey "exp=" (Lib.Text.forall_of_all (by decide)) _
    (unspaced_of_visible (visible_formatInt (n := (unix exp).toInt)))
  have hspans : spans (encodeLockComment owner exp) = joined (some ' ', [32])
      [spans (lockCommentOwnerKey ++ owner),
        spans (lockCommentExpKey ++ formatInt (unix exp).toInt)] := by
    rw [encodeLockComment, spans_cut (c := ' ') (by decide) (by decide)]
    simp [joined, List.intercalate, List.intersperse]
  rw [fields, hspans, Lib.Tokens.tokens_joined (by decide)]
  · simp only [List.map_cons, List.map_nil, flatMap_snd_spans]
  · simp only [List.forall_mem_cons, List.not_mem_nil, false_implies, implies_true, and_true]
    exact ⟨hclean _ (by simp [lockCommentOwnerKey, str, encode_eq_nil]) hfirst,
      hclean _ (by simp [lockCommentExpKey, str, encode_eq_nil]) hsecond⟩

theorem decodeLockOwner_encode {owner : Str} {exp : Int64} (howner : Unspaced owner) :
    decodeLockOwner (encodeLockComment owner exp) = some owner := by
  unfold decodeLockOwner fieldAfter
  rw [fields_encode howner, List.find?_cons_of_pos (by simp)]
  simp

/-- The expiry reads back.  The owner is one word without white space, so the fields of the comment
are the two that were written, and only the second starts like an expiry. -/
theorem decodeLockExpiry_encode {owner : Str} {exp : Int64} (howner : Unspaced owner) :
    decodeLockExpiry (encodeLockComment owner exp) = some exp := by
  have hother : ¬ lockCommentExpKey.isPrefixOf (lockCommentOwnerKey ++ owner) = true := by
    have hexp : lockCommentExpKey = 101 :: (str "xp=") := by decide
    have hown : lockCommentOwnerKey = 111 :: (str "wner=") := by decide
    rw [hexp, hown]
    simp
  have hafter : fieldAfter lockCommentExpKey (encodeLockComment owner exp) =
      some (formatInt (unix exp).toInt) := by
    unfold fieldAfter
    rw [fields_encode howner, List.find?_cons_of_neg hother, List.find?_cons_of_pos (by simp)]
    simp
  unfold decodeLockExpiry
  rw [hafter, Option.bind_some,
    Lib.Decimal.parseInt_formatInt (unix exp).le_toInt (unix exp).toInt_lt, Option.map_some,
    Int64.ofInt_toInt, unixTime, unix, Int64.sub_add_cancel]

/-- A string without white space has no blank. -/
theorem Unspaced.blank_notMem {s : Str} (h : Unspaced s) : 32 ∉ s := by
  intro hmem
  obtain ⟨x, y, rfl⟩ := List.append_of_mem hmem
  have hblank := h (some ' ') (by rw [runes_cut (c := ' ') (by decide) (by decide)]; simp)
  exact absurd hblank (by decide)

/-- A comment carries the claim of the owner it was written for. -/
theorem carriesClaim_self (owner : Str) (exp : Int64) :
    carriesClaim (encodeLockComment owner exp) owner = true := by
  have hfront : encodeLockComment owner exp = (lockCommentOwnerKey ++ owner ++ [32]) ++
      (lockCommentExpKey ++ formatInt (unix exp).toInt) := by
    simp [encodeLockComment]
  rw [carriesClaim, hfront]
  generalize lockCommentExpKey ++ formatInt (unix exp).toInt = rest
  generalize lockCommentOwnerKey ++ owner = key
  cases key with
  | nil => simp [cutList]
  | cons b key =>
    rw [List.cons_append, List.cons_append, cutList, if_pos]
    · rfl
    · rw [List.isPrefixOf_iff_prefix, ← List.cons_append]
      exact List.prefix_append _ _

/-- **An owner is found in a comment only when its number is that of the comment.** -/
theorem seq_eq_of_carriesClaim {p : Process} {owner owner' : Str} {seq seq' : UInt64} {exp : Int64}
    (h : carriesClaim (encodeLockComment (ownerWith p owner seq) exp) (ownerWith p owner' seq') =
      true) :
    seq' = seq := by
  obtain ⟨⟨a, b⟩, hcut⟩ := Option.isSome_iff_exists.mp h
  have hsplit := Lib.Occurs.cutList_spec hcut
  have hx : (32 : UInt8) ∉ lockCommentOwnerKey ++ ownerWith p owner seq := by
    rw [List.mem_append, not_or]
    exact ⟨by decide, (unspaced_ownerWith p owner seq).blank_notMem⟩
  have hy : (32 : UInt8) ∉ lockCommentExpKey ++ formatInt (unix exp).toInt := by
    rw [List.mem_append, not_or]
    exact ⟨by decide, fun hmem => absurd (visible_formatInt _ hmem).1 (by decide)⟩
  have hone : a ++ (lockCommentOwnerKey ++ ownerWith p owner' seq') =
      lockCommentOwnerKey ++ ownerWith p owner seq := by
    refine Lib.Occurs.cut_at_only (b := b) hx hy ?_
    rw [encodeLockComment] at hsplit
    simpa using hsplit
  have hdash : ∀ n : Nat, (45 : UInt8) ∉ digits n := fun n hmem =>
    absurd (Lib.Decimal.isDigit_of_mem_digits hmem) (by decide)
  have hparts : ∀ (owner : Str) (seq : UInt64), lockCommentOwnerKey ++ ownerWith p owner seq =
      (lockCommentOwnerKey ++ lockOwnerToken owner ++ 64 :: processLockIdentity p) ++
        45 :: digits seq.toNat := by
    intro owner seq
    simp [ownerWith]
  rw [hparts, hparts] at hone
  obtain ⟨hdigits, -⟩ := Lib.Occurs.suffix_cut (hdash _) (hdash _) ⟨a, hone⟩
  have hvalue := congrArg Lib.Decimal.number hdigits
  rw [Lib.Decimal.number_digits, Lib.Decimal.number_digits] at hvalue
  exact UInt64.toNat_inj.mp hvalue

/-! ## 5. The owners of a process

A process numbers its calls, and the number wraps after `2 ^ 64` of them; below that, numbers
differ. -/

/-- The owner of a call has the number of the call. -/
theorem issue_getElem? (p : Process) (tokens : List Str) (seq : UInt64) (i : Nat) :
    (issue p tokens seq)[i]? = tokens[i]?.map fun owner =>
    ownerWith p owner (seq + 1 + UInt64.ofNat i) := by
  induction tokens generalizing seq i with
  | nil => simp [issue]
  | cons owner rest ih =>
    cases i with
    | zero => simp [issue, processLockOwner]
    | succ i =>
      have hnext : seq + 1 + UInt64.ofNat (i + 1) = seq + 1 + 1 + UInt64.ofNat i := by
        rw [UInt64.ofNat_add, UInt64.add_comm (UInt64.ofNat i), UInt64.add_assoc (seq + 1)]
        rfl
      rw [List.getElem?_cons_succ, hnext]
      exact ih (seq + 1) i

/-- **Claims read back, and owners are told apart.**  The fields of the comment are the owner and
the expiry, since neither has white space; and an owner that is found is delimited on both sides, so
its number is that of the comment. -/
theorem lock_claim_codec (p : Process) (calls : Calls) (i : Nat) (owner : Str)
    (howner : (issued p calls)[i]? = some owner) (e : Int64) :
    decodeLockOwner (encodeLockComment owner e) = some owner ∧
    decodeLockExpiry (encodeLockComment owner e) = some e ∧
    carriesClaim (encodeLockComment owner e) owner = true ∧
    ∀ (j : Nat) (other : Str), (issued p calls)[j]? = some other → j ≠ i →
      carriesClaim (encodeLockComment owner e) other = false := by
  have hcall : ∀ {k : Nat} {o : Str}, (issued p calls)[k]? = some o →
      k < 2 ^ 64 ∧ ∃ token, o = ownerWith p token (0 + 1 + UInt64.ofNat k) := by
    intro k o hk
    rw [issued, issue_getElem?] at hk
    obtain ⟨token, htoken, rfl⟩ := Option.map_eq_some_iff.mp hk
    obtain ⟨hlt, -⟩ := List.getElem?_eq_some_iff.mp htoken
    exact ⟨hlt.trans calls.fits, token, rfl⟩
  obtain ⟨hi, token, rfl⟩ := hcall howner
  have hspace := unspaced_ownerWith p token (0 + 1 + UInt64.ofNat i)
  refine ⟨decodeLockOwner_encode hspace, decodeLockExpiry_encode hspace, carriesClaim_self _ e, ?_⟩
  intro j other hother hne
  obtain ⟨hj, token', rfl⟩ := hcall hother
  refine Bool.eq_false_iff.mpr fun hcarries => hne ?_
  have hseq : UInt64.ofNat j = UInt64.ofNat i :=
    (UInt64.add_right_inj _).mp (seq_eq_of_carriesClaim hcarries)
  have hmod := congrArg UInt64.toNat hseq
  rwa [UInt64.toNat_ofNat_of_lt' hj, UInt64.toNat_ofNat_of_lt' hi] at hmod

/-- A process that is asked for a token of a stray byte and a blank, and for the same behind
`owner=`. -/
def sampleProcess : Process := ⟨[], 7, [1, 2, 3, 4]⟩

def sampleCalls : Calls := ⟨[[255, 32], str "owner=" ++ [255, 32]], by decide⟩

theorem lock_claim_codec_sample :
    decodeLockOwner (encodeLockComment (ownerWith sampleProcess [255, 32] 1) 5) =
      some (ownerWith sampleProcess [255, 32] 1) ∧
    carriesClaim (encodeLockComment (ownerWith sampleProcess (str "owner=" ++ [255, 32]) 2) 5)
      (ownerWith sampleProcess [255, 32] 1) = false := by
  have hfirst : (issued sampleProcess sampleCalls)[0]? =
      some (ownerWith sampleProcess [255, 32] 1) := rfl
  have hsecond : (issued sampleProcess sampleCalls)[1]? =
      some (ownerWith sampleProcess (str "owner=" ++ [255, 32]) 2) := rfl
  exact ⟨(lock_claim_codec sampleProcess sampleCalls 0 _ hfirst 5).1,
    (lock_claim_codec sampleProcess sampleCalls 1 _ hsecond 5).2.2.2 0 _ hfirst (by decide)⟩

end LockCodec
