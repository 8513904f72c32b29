/-
# The claim on a lock sentinel

A cluster lock is a resource pool, its sentinel, and the comment of the pool is the claim of whoever
created it: `owner=<token> exp=<seconds>`.  This module is what `pve/cluster_lock.go` writes into a
comment, what it reads out of one, and the owner tokens for which the two agree.

`sentinelClaim` looks for `owner=<token> ` anywhere in the comment, so two tokens are told apart
only when neither ends in `owner=` and the other; and a token with white space would be cut by
`strings.Fields`.  `Owners` is what is needed of the tokens, and `processOwners` says that the
tokens of `ProcessLockOwner` are such.

A moment is its nanoseconds since the epoch and a duration its nanoseconds, both an `Int`.

The comment is searched and not parsed because an operator may have written into it; that is the
source's choice, and it makes the tokens part of the protocol.  With `Owners` the search is as good
as a parse: a comment that an acquirer wrote is found by that acquirer and by no other one
(`carriesClaim_encode`).

Expiries are written in seconds and compared in nanoseconds, and Go's conversion wraps.  `Shown` is
the range of moments in which it does not, some centuries around now.
-/
import PveCpi.Lib.Occurs
import PveCpi.Lib.Tokens
import Mathlib.Tactic.IntervalCases

namespace Lock

open Lib.Text (isSpace cutList)
open Lib.Tokens (tokens joined)

/-- Text, one character at a time. -/
abbrev Text := List Char

/-! ## 1. Numbers and moments

What `strconv` and `time` do with the numbers of a comment. -/

def second : Int := 1000000000

/-- `Time.Unix`: the whole seconds since the epoch. -/
def unix (t : Int) : Int := t / second

/-- `time.Unix(secs, 0)`.  The seconds are kept from another origin, in an `int64` that wraps. -/
def unixTime (secs : Int) : Int :=
  ((secs + 62135596800 + 2 ^ 63) % 2 ^ 64 - 2 ^ 63 - 62135596800) * second

/-- `strconv.FormatInt` with base ten. -/
def formatInt (n : Int) : Text :=
  if n < 0 then '-' :: Nat.toDigits 10 n.natAbs else Nat.toDigits 10 n.natAbs

/-- The digits of a number without a sign. -/
def parseDigits (s : Text) : Option Int :=
  if s.isEmpty || !s.all Char.isDigit then none else some (Nat.ofDigitChars 10 s 0 : Nat)

/-- `strconv.ParseInt` with base ten and 64 bits. -/
def parseInt (s : Text) : Option Int :=
  let value : Option Int :=
    match s with
    | '-' :: rest => (parseDigits rest).map fun n => -n
    | '+' :: rest => parseDigits rest
    | s => parseDigits s
  value.filter fun n => decide (-2 ^ 63 ≤ n) && decide (n < 2 ^ 63)

theorem isDigit_of_mem {n : Nat} {c : Char} (h : c ∈ Nat.toDigits 10 n) : c.isDigit = true :=
  Nat.isDigit_of_mem_toDigits (by decide) (by decide) h

theorem isSpace_of_isDigit {c : Char} (h : c.isDigit = true) : isSpace c = false := by
  simp only [Char.isDigit, Bool.and_eq_true, decide_eq_true_eq] at h
  have hlow : 48 ≤ c.toNat := h.1
  have hhigh : c.toNat ≤ 57 := h.2
  rw [← Char.ofNat_toNat c]
  generalize c.toNat = n at hlow hhigh
  interval_cases n <;> decide

theorem parseDigits_toDigits (n : Nat) : parseDigits (Nat.toDigits 10 n) = some (n : Int) := by
  have hne : (Nat.toDigits 10 n).isEmpty = false := by simp
  have hall : (Nat.toDigits 10 n).all Char.isDigit = true :=
    List.all_eq_true.mpr fun c hc => isDigit_of_mem hc
  rw [parseDigits, hne, hall]
  simp

/-- **A number is read as it was written.** -/
theorem parseInt_formatInt {n : Int} (hlow : -2 ^ 63 ≤ n) (hhigh : n < 2 ^ 63) :
    parseInt (formatInt n) = some n := by
  have hrange : (decide (-2 ^ 63 ≤ n) && decide (n < 2 ^ 63)) = true := by
    rw [decide_eq_true hlow, decide_eq_true hhigh]
    rfl
  have hfilter : (some n).filter (fun n => decide (-2 ^ 63 ≤ n) && decide (n < 2 ^ 63)) = some n :=
    Option.filter_eq_some_iff.mpr ⟨rfl, hrange⟩
  unfold formatInt
  split
  · have habs : -(n.natAbs : Int) = n := by omega
    simp only [parseInt, parseDigits_toDigits, Option.map_some, habs]
    exact hfilter
  · have habs : (n.natAbs : Int) = n := by omega
    have hsign : ∀ c rest, Nat.toDigits 10 n.natAbs = c :: rest → c ≠ '-' ∧ c ≠ '+' := by
      intro c rest heq
      have hc : c.isDigit = true :=
        isDigit_of_mem (n := n.natAbs) (by rw [heq]; exact List.mem_cons_self)
      refine ⟨?_, ?_⟩
      · rintro rfl
        exact absurd hc (by decide)
      · rintro rfl
        exact absurd hc (by decide)
    unfold parseInt
    split
    · rename_i rest heq
      exact absurd rfl (hsign _ rest heq).1
    · rename_i rest heq
      exact absurd rfl (hsign _ rest heq).2
    · rw [parseDigits_toDigits, habs]
      exact hfilter

/-- No white space is written. -/
theorem formatInt_unspaced {n : Int} : ∀ c ∈ formatInt n, isSpace c = false := by
  intro c hc
  unfold formatInt at hc
  split at hc
  · rcases List.mem_cons.mp hc with rfl | hc
    · decide
    · exact isSpace_of_isDigit (isDigit_of_mem hc)
  · exact isSpace_of_isDigit (isDigit_of_mem hc)

/-! ## 2. Comments -/

def lockCommentOwnerKey : Text := "owner=".toList
def lockCommentExpKey : Text := "exp=".toList

/-- `encodeLockComment`. -/
def encodeLockComment (owner : Text) (exp : Int) : Text :=
  lockCommentOwnerKey ++ owner ++ ' ' :: (lockCommentExpKey ++ formatInt (unix exp))

/-- `strings.Fields`. -/
def fields (s : Text) : List Text := tokens isSpace (fun _ => false) s

/-- What follows the key in the first field that starts with it. -/
def fieldAfter (key comment : Text) : Option Text :=
  ((fields comment).find? fun field => key.isPrefixOf field).map fun field => field.drop key.length

/-- `decodeLockOwner`. -/
def decodeLockOwner (comment : Text) : Option Text := fieldAfter lockCommentOwnerKey comment

/-- `decodeLockExpiry`. -/
def decodeLockExpiry (comment : Text) : Option Int :=
  (fieldAfter lockCommentExpKey comment).bind fun rest => (parseInt rest).map unixTime

/-- The comment carries the claim of `owner`, as `sentinelClaim` judges it: with
`strings.Contains`. -/
def carriesClaim (comment owner : Text) : Bool :=
  (cutList (lockCommentOwnerKey ++ owner ++ [' ']) comment).isSome

/-- `claimExpiry`. -/
def claimExpiry (now ttl : Int) : Int := unixTime (unix (now + ttl))

/-! ## 3. Owner tokens

A token is one word, and no token ends in `owner=` and another one. -/

/-- The owner tokens of the acquirers: without white space, and none at the end of another. -/
structure Owners where
  token : Nat → Text
  unspaced : ∀ i, ∀ c ∈ token i, isSpace c = false
  apart : ∀ i j, lockCommentOwnerKey ++ token i <:+ lockCommentOwnerKey ++ token j → i = j

theorem Owners.token_injective (O : Owners) {i j : Nat} (h : O.token i = O.token j) : i = j :=
  O.apart i j (by rw [h])

/-- The two fields of a comment. -/
theorem fields_encode {owner : Text} {exp : Int} (howner : ∀ c ∈ owner, isSpace c = false) :
    fields (encodeLockComment owner exp) =
      [lockCommentOwnerKey ++ owner, lockCommentExpKey ++ formatInt (unix exp)] := by
  have hclean : ∀ t ∈ [lockCommentOwnerKey ++ owner, lockCommentExpKey ++ formatInt (unix exp)],
      Lib.Tokens.Clean isSpace (fun _ => false) t := by
    have hof : ∀ key rest : Text, key ≠ [] → (∀ c ∈ key, isSpace c = false) →
        (∀ c ∈ rest, isSpace c = false) → Lib.Tokens.Clean isSpace (fun _ => false)
        (key ++ rest) := by
      intro key rest hkey hk hr
      refine ⟨fun h => hkey (List.append_eq_nil_iff.mp h).1, fun c hc => ?_, ?_⟩
      · rcases List.mem_append.mp hc with hc | hc
        · exact hk c hc
        · exact hr c hc
      · have hdrop : ∀ l : Text, l.dropWhile (fun _ => false) = l := fun l => by cases l <;> rfl
        rw [Lib.Text.trimList, hdrop, hdrop, List.reverse_reverse]
    intro t ht
    simp only [List.mem_cons, List.not_mem_nil, or_false] at ht
    rcases ht with rfl | rfl
    · exact hof _ _ (by decide) (Lib.Text.forall_of_all (by decide)) howner
    · exact hof _ _ (by decide) (Lib.Text.forall_of_all (by decide))
        formatInt_unspaced
  have hjoin : encodeLockComment owner exp =
      joined ' ' [lockCommentOwnerKey ++ owner, lockCommentExpKey ++ formatInt (unix exp)] := by
    simp [encodeLockComment, joined, List.intercalate, List.intersperse]
  rw [fields, hjoin]
  exact Lib.Tokens.tokens_joined (by decide) hclean

theorem decodeLockOwner_encode {owner : Text} {exp : Int}
    (howner : ∀ c ∈ owner, isSpace c = false) :
    decodeLockOwner (encodeLockComment owner exp) = some owner := by
  unfold decodeLockOwner fieldAfter
  rw [fields_encode howner, List.find?_cons_of_pos (by simp)]
  simp

theorem fieldAfter_exp_encode {owner : Text} {exp : Int}
    (howner : ∀ c ∈ owner, isSpace c = false) :
    fieldAfter lockCommentExpKey (encodeLockComment owner exp) = some (formatInt (unix exp)) := by
  have hother : ¬lockCommentExpKey.isPrefixOf (lockCommentOwnerKey ++ owner) = true := by
    simp [lockCommentExpKey, lockCommentOwnerKey]
  unfold fieldAfter
  rw [fields_encode howner, List.find?_cons_of_neg hother, List.find?_cons_of_pos (by simp)]
  simp

/-- Seconds in this range are kept by `time.Unix`. -/
theorem unixTime_eq {secs : Int} (hlow : -2 ^ 62 ≤ secs) (hhigh : secs < 2 ^ 62) :
    unixTime secs = secs * second := by
  have hwrap : (secs + 62135596800 + 2 ^ 63) % 2 ^ 64 - 2 ^ 63 - 62135596800 = secs := by omega
  rw [unixTime, hwrap]

/-- The clock of the acquirers stays within this distance of the epoch, thousands of millions of
years. -/
def horizon : Int := 2 ^ 60 * second

/-- A moment that the clock can show. -/
def Shown (t : Int) : Prop := -horizon ≤ t ∧ t ≤ horizon

/-- The expiry of a claim that is made now reads back. -/
theorem decodeLockExpiry_encode {owner : Text} {now ttl : Int}
    (howner : ∀ c ∈ owner, isSpace c = false) (hnow : Shown now) (hpos : 0 < ttl)
    (httl : ttl < 2 ^ 63) :
    decodeLockExpiry (encodeLockComment owner (claimExpiry now ttl)) =
      some (claimExpiry now ttl) := by
  have hsecs : -2 ^ 62 ≤ unix (now + ttl) ∧ unix (now + ttl) < 2 ^ 62 := by
    obtain ⟨hlow, hhigh⟩ := hnow
    unfold horizon second at hlow hhigh
    unfold unix second
    omega
  have hexp : claimExpiry now ttl = unix (now + ttl) * second := unixTime_eq hsecs.1 hsecs.2
  have hunix : unix (claimExpiry now ttl) = unix (now + ttl) := by
    rw [hexp]
    exact Int.mul_ediv_cancel _ (by decide)
  have hparse : parseInt (formatInt (unix (now + ttl))) = some (unix (now + ttl)) :=
    parseInt_formatInt (by omega) (by omega)
  unfold decodeLockExpiry
  rw [fieldAfter_exp_encode howner, hunix, Option.bind_some, hparse]
  rfl

theorem blank_notMem {t : Text} (h : ∀ c ∈ t, isSpace c = false) : ' ' ∉ t :=
  fun hmem => absurd (h ' ' hmem) (by decide)

/-- **Only its owner finds its claim in a comment.**  The pattern is delimited by `owner=` and a
blank, and the comment has one owner; a token that ends in another token behind `owner=` is
excluded. -/
theorem carriesClaim_encode (O : Owners) {i j : Nat} {exp : Int}
    (h : carriesClaim (encodeLockComment (O.token j) exp) (O.token i) = true) : i = j := by
  obtain ⟨⟨a, b⟩, hcut⟩ := Option.isSome_iff_exists.mp h
  have hsplit := Lib.Occurs.cutList_spec hcut
  have hkey : ' ' ∉ lockCommentOwnerKey := by decide
  have hx : ' ' ∉ lockCommentOwnerKey ++ O.token j := by
    rw [List.mem_append, not_or]
    exact ⟨hkey, blank_notMem (O.unspaced j)⟩
  have hy : ' ' ∉ lockCommentExpKey ++ formatInt (unix exp) := by
    rw [List.mem_append, not_or]
    exact ⟨by decide, blank_notMem formatInt_unspaced⟩
  have hone : a ++ (lockCommentOwnerKey ++ O.token i) = lockCommentOwnerKey ++ O.token j := by
    refine Lib.Occurs.cut_at_only (b := b) hx hy ?_
    rw [encodeLockComment] at hsplit
    simpa using hsplit
  exact O.apart i j ⟨a, hone⟩

/-! ## 4. What is needed of a comment -/

/-- The comment is the claim of acquirer `k` until `e`. -/
structure IsClaim (O : Owners) (k : Nat) (e : Int) (comment : Text) : Prop where
  expiry : decodeLockExpiry comment = some e
  owner : decodeLockOwner comment = some (O.token k)
  carries : ∀ j, carriesClaim comment (O.token j) = true → j = k

/-- The comment is the claim of no acquirer. -/
structure Foreign (O : Owners) (comment : Text) : Prop where
  owner : ∀ j, decodeLockOwner comment ≠ some (O.token j)
  carries : ∀ j, carriesClaim comment (O.token j) = false

/-- **What an acquirer writes is its claim.** -/
theorem isClaim_encode (O : Owners) (k : Nat) {now ttl : Int} (hnow : Shown now)
    (hpos : 0 < ttl) (httl : ttl < 2 ^ 63) :
    IsClaim O k (claimExpiry now ttl) (encodeLockComment (O.token k) (claimExpiry now ttl)) where
  expiry := decodeLockExpiry_encode (O.unspaced k) hnow hpos httl
  owner := decodeLockOwner_encode (O.unspaced k)
  carries _ h := carriesClaim_encode O h

/-! ## 5. The tokens of `ProcessLockOwner`

A token of the source has a counter behind its last `@`, and the text in front of it has no white
space; so the conditions of `Owners` are met by construction. -/

def lockOwnerHostLimit : Nat := 63

/-- The characters that stay in the host part of a token. -/
def isHostChar (c : Char) : Bool :=
  c.isLower || c.isUpper || c.isDigit || c == '-' || c == '.' || c == '_'

/-- `lockOwnerHost`. -/
def lockOwnerHost (host : Text) : Text :=
  if host.isEmpty then "unknown-host".toList
  else (host.take lockOwnerHostLimit).map fun c => if isHostChar c then c else '-'

/-- `lockOwnerToken`. -/
def lockOwnerToken (owner : Text) : Text :=
  if owner.isEmpty then "unnamed".toList else owner.map fun c => if isSpace c then '-' else c

/-- What tells a process from others: its host, its pid and its nonce of four bytes. -/
structure Process where
  host : Text
  pid : Nat
  nonce : List (Fin 256)

/-- `hex.EncodeToString`. -/
def encodeToString (bytes : List (Fin 256)) : Text :=
  bytes.flatMap fun b => [Nat.digitChar (b.val / 16), Nat.digitChar (b.val % 16)]

/-- `processLockIdentity`. -/
def processLockIdentity (p : Process) : Text :=
  lockOwnerHost p.host ++ '/' :: (Nat.toDigits 10 p.pid ++ '-' :: encodeToString p.nonce)

/-- `ProcessLockOwner`, for the number `seq` of the sequence of the process. -/
def processLockOwner (p : Process) (owner : Text) (seq : Nat) : Text :=
  lockOwnerToken owner ++ '@' :: (processLockIdentity p ++ '-' :: Nat.toDigits 10 seq)

/-- Nothing but the two separators is special in an identity. -/
theorem mem_processLockIdentity {p : Process} {c : Char} (hc : c ∈ processLockIdentity p) :
    isSpace c = false ∧ c ≠ '@' := by
  have hhost : ∀ d : Char, isHostChar d = true → isSpace d = false ∧ d ≠ '@' := by
    intro d hd
    have hsmall : d.toNat < 128 := by
      simp only [isHostChar, Char.isLower, Char.isUpper, Char.isDigit, Bool.or_eq_true,
        Bool.and_eq_true, decide_eq_true_eq, beq_iff_eq] at hd
      rcases hd with ((((hd | hd) | hd) | rfl) | rfl) | rfl
      · exact Nat.lt_of_le_of_lt hd.2 (by decide)
      · exact Nat.lt_of_le_of_lt hd.2 (by decide)
      · exact Nat.lt_of_le_of_lt hd.2 (by decide)
      · decide
      · decide
      · decide
    have hall : ∀ n : Fin 128, isHostChar (Char.ofNat n.val) = true →
        isSpace (Char.ofNat n.val) = false ∧ Char.ofNat n.val ≠ '@' := by
      decide
    have hchar := hall ⟨d.toNat, hsmall⟩
    rw [Char.ofNat_toNat] at hchar
    exact hchar hd
  have hdigit : ∀ d : Char, d.isDigit = true → isSpace d = false ∧ d ≠ '@' := by
    intro d hd
    refine ⟨isSpace_of_isDigit hd, ?_⟩
    rintro rfl
    exact absurd hd (by decide)
  have hhex : ∀ n : Fin 16, isSpace (Nat.digitChar n.val) = false ∧ Nat.digitChar n.val ≠ '@' := by
    decide
  rcases List.mem_append.mp hc with hc | hc
  · unfold lockOwnerHost at hc
    split at hc
    · have hall : ∀ d ∈ "unknown-host".toList, isSpace d = false ∧ d ≠ '@' :=
        Lib.Text.forall_of_all (by decide)
      exact hall c hc
    · obtain ⟨d, -, rfl⟩ := List.mem_map.mp hc
      split
      · rename_i hd
        exact hhost d hd
      · decide
  · rcases List.mem_cons.mp hc with rfl | hc
    · decide
    · rcases List.mem_append.mp hc with hc | hc
      · exact hdigit c (isDigit_of_mem hc)
      · rcases List.mem_cons.mp hc with rfl | hc
        · decide
        · obtain ⟨b, -, hb⟩ := List.mem_flatMap.mp hc
          simp only [List.mem_cons, List.not_mem_nil, or_false] at hb
          rcases hb with rfl | rfl
          · exact hhex ⟨b.val / 16, by omega⟩
          · exact hhex ⟨b.val % 16, by omega⟩

theorem lockOwnerToken_unspaced {owner : Text} : ∀ c ∈ lockOwnerToken owner, isSpace c = false := by
  intro c hc
  unfold lockOwnerToken at hc
  split at hc
  · have hall : ∀ d ∈ "unnamed".toList, isSpace d = false :=
      Lib.Text.forall_of_all (by decide)
    exact hall c hc
  · obtain ⟨d, -, rfl⟩ := List.mem_map.mp hc
    split
    · decide
    · rename_i hd
      exact Bool.eq_false_iff.mpr hd

theorem dash_notMem_digits (n : Nat) : '-' ∉ Nat.toDigits 10 n :=
  fun h => absurd (isDigit_of_mem h) (by decide)

/-- **The tokens of `ProcessLockOwner` serve.**  Whatever the callers pass, the tokens are told
apart when no two of them have both the identity of the process and the number in common. -/
def processOwners (process : Nat → Process) (owner : Nat → Text) (seq : Nat → Nat)
    (hdistinct : ∀ i j, processLockIdentity (process i) = processLockIdentity (process j) →
      seq i = seq j → i = j) : Owners where
  token i := processLockOwner (process i) (owner i) (seq i)
  unspaced i c hc := by
    rcases List.mem_append.mp hc with hc | hc
    · exact lockOwnerToken_unspaced c hc
    · rcases List.mem_cons.mp hc with rfl | hc
      · decide
      · rcases List.mem_append.mp hc with hc | hc
        · exact (mem_processLockIdentity hc).1
        · rcases List.mem_cons.mp hc with rfl | hc
          · decide
          · exact isSpace_of_isDigit (isDigit_of_mem hc)
  apart i j h := by
    have hparts : ∀ k, lockCommentOwnerKey ++ processLockOwner (process k) (owner k) (seq k) =
        (lockCommentOwnerKey ++ lockOwnerToken (owner k) ++ '@' :: processLockIdentity (process k))
        ++
          '-' :: Nat.toDigits 10 (seq k) := by
      intro k
      simp [processLockOwner]
    rw [hparts i, hparts j] at h
    obtain ⟨hseq, hrest⟩ := Lib.Occurs.suffix_cut (dash_notMem_digits _) (dash_notMem_digits _) h
    have hat : ∀ k, '@' ∉ processLockIdentity (process k) :=
      fun k hk => (mem_processLockIdentity hk).2 rfl
    obtain ⟨hidentity, -⟩ := Lib.Occurs.suffix_cut (hat i) (hat j) hrest
    refine hdistinct i j hidentity ?_
    have hvalue := congrArg (fun d => Nat.ofDigitChars 10 d 0) hseq
    simpa using hvalue

end Lock
