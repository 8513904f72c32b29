/-
# The barrier finishes what a crashed barrier began

The state that a barrier must put back lives only in a token on the resource's comment, so a run
that was cut off is finished by the next one.  This file follows the resource through any number of
runs of `narrowActive`, each cut off between two of its calls or with the answers of its updates
lost, and shows that a run that returns nil leaves the state and the comment from before the first
run.

The argument has two halves.

* **The token.**  Behind a comment with no word that starts with the key, the appended token is the
  only one: it names the state, and stripping it gives the comment back to the letter.
* **The resource.**  An update sets state and comment at once, so the resource is always as it was
  (`Untouched`) or ignored with the token (`Marked`).  A barrier that holds it (`Ready`) knows the
  comment and the state to put back in either case.

The service is the one of a resource that exists, that nobody else writes and that never shows the
error state.

The first half is about texts and needs care with spaces.  Stripping works word by word, by
replacing the first occurrence of a word, so a comment that repeats a word, or in which the token's
text is part of another word, could lose the wrong one.  `Unmarked` excludes only words that START
with the key, which is what the code itself looks for; that the replacement then hits the appended
token and nothing else is `stripWord_token`.

The second half is `Lib.Service` with `Kept` as the invariant.  It holds around every call, so it is
what any cut leaves behind, and it is what the next run starts from; the induction over the runs is
then immediate (`Cuts.kept`).
-/
import PveCpi.Lib.Service
import PveCpi.Lib.Occurs
import PveCpi.Ha.Release

namespace Ha

open Lib.Interleave
open Lib.Service
open Lib.Text

/-! ## 1. The token -/

/-- A state that a token can carry: set, and a single word. -/
structure Word (s : String) : Prop where
  set : s ≠ ""
  unspaced : ∀ c ∈ s.toList, isSpace c = false

/-- No word of the text starts with the key of the token. -/
def Unmarked (text : String) : Prop := ∀ w ∈ fields text, hasPrefix w narrowMarkKey = false

/-- The token for a state. -/
def token (s : String) : String := narrowMarkKey ++ s

variable {s : String}

theorem hasPrefix_token (s : String) : hasPrefix (token s) narrowMarkKey = true := by
  unfold hasPrefix token
  rw [List.isPrefixOf_iff_prefix, String.toList_append]
  exact List.prefix_append _ _

theorem cutPrefix_token (s : String) : cutPrefix (token s) narrowMarkKey = some s := by
  unfold cutPrefix
  rw [if_pos (hasPrefix_token s), token, String.toList_append, List.drop_left, String.ofList_toList]

theorem narrowMarkKey_unspaced : ∀ c ∈ narrowMarkKey.toList, isSpace c = false :=
  forall_of_all (by decide)

theorem Word.token_unspaced (hs : Word s) : ∀ c ∈ (token s).toList, isSpace c = false := by
  intro c hc
  rw [token, String.toList_append] at hc
  rcases List.mem_append.mp hc with hc | hc
  · exact narrowMarkKey_unspaced c hc
  · exact hs.unspaced c hc

theorem token_ne_nil (s : String) : (token s).toList ≠ [] := by
  rw [token, String.toList_append]
  simp [narrowMarkKey]

theorem fields_eq_words (text : String) :
    fields text = (Lib.Occurs.words isSpace text.toList).map String.ofList := rfl

theorem withNarrowMark_of_empty {comment : Option String} (h : comment.getD "" = "") (s : String) :
    withNarrowMark comment s = token s := if_pos h

theorem withNarrowMark_toList {comment : Option String} (h : comment.getD "" ≠ "") (s : String) :
    (withNarrowMark comment s).toList = (comment.getD "").toList ++ ' ' :: (token s).toList := by
  unfold withNarrowMark
  rw [if_neg h]
  simp [token]

/-- The token is the last word of the comment that carries it. -/
theorem fields_withNarrowMark (hs : Word s) (comment : Option String) :
    fields (withNarrowMark comment s) = fields (comment.getD "") ++ [token s] := by
  have htoken : Lib.Occurs.words isSpace (token s).toList = [(token s).toList] :=
    Lib.Occurs.words_of_block (token_ne_nil s) hs.token_unspaced
  rw [fields_eq_words, fields_eq_words]
  by_cases h : comment.getD "" = ""
  · rw [withNarrowMark_of_empty h, h, htoken]
    simp [Lib.Occurs.words]
  · rw [withNarrowMark_toList h, Lib.Occurs.words_append_cons (by decide), htoken]
    simp

theorem narrowMarkOf_of_unmarked {comment : Option String} (h : Unmarked (comment.getD "")) :
    narrowMarkOf comment = none := by
  unfold narrowMarkOf
  refine List.findSome?_eq_none_iff.mpr fun w hw => ?_
  rw [cutPrefix, h w hw]
  rfl

/-- **The token names the state.** -/
theorem narrowMarkOf_withNarrowMark {comment : Option String} (hs : Word s)
    (h : Unmarked (comment.getD "")) :
    narrowMarkOf (some (withNarrowMark comment s)) = some s := by
  have hnone := narrowMarkOf_of_unmarked h
  unfold narrowMarkOf at hnone ⊢
  rw [Option.getD_some, fields_withNarrowMark hs, List.findSome?_append, hnone]
  simp [cutPrefix_token, hs.set]

/-- What `stripNarrowMark` does for one word. -/
def stripWord (out f : String) : String :=
  if !hasPrefix f narrowMarkKey then out
  else if contains out (" " ++ f) then replaceFirst out (" " ++ f) ""
  else replaceFirst out f ""

theorem stripNarrowMark_some (text : String) :
    stripNarrowMark (some text) = some ((fields text).foldl stripWord text) := rfl

theorem foldl_stripWord {ws : List String} (h : ∀ w ∈ ws, hasPrefix w narrowMarkKey = false)
    (out : String) : ws.foldl stripWord out = out := by
  induction ws with
  | nil => rfl
  | cons w ws ih =>
    have hw : stripWord out w = out := by simp [stripWord, h w List.mem_cons_self]
    rw [List.foldl_cons, hw]
    exact ih fun v hv => h v (List.mem_cons_of_mem _ hv)

theorem stripNarrowMark_of_unmarked {comment : Option String} (h : Unmarked (comment.getD "")) :
    stripNarrowMark comment = comment := by
  cases comment with
  | none => rfl
  | some text => exact congrArg some (foldl_stripWord h text)

/-- An unmarked comment has no token behind a space. -/
theorem Unmarked.not_infix {text : String} (hs : Word s) (h : Unmarked text) :
    ¬ ' ' :: (token s).toList <:+: text.toList := by
  rintro ⟨a, b, hab⟩
  obtain ⟨w, hw, hpre⟩ := Lib.Occurs.exists_word_of_block (token_ne_nil s) hs.token_unspaced b
  have hmem : String.ofList w ∈ fields text := by
    rw [fields_eq_words, ← hab, List.append_assoc, List.cons_append,
      Lib.Occurs.words_append_cons (by decide)]
    exact List.mem_map_of_mem (List.mem_append_right _ hw)
  have hkey : hasPrefix (String.ofList w) narrowMarkKey = true := by
    unfold hasPrefix
    rw [List.isPrefixOf_iff_prefix, String.toList_ofList]
    refine List.IsPrefix.trans ?_ hpre
    rw [token, String.toList_append]
    exact List.prefix_append _ _
  rw [h _ hmem] at hkey
  cases hkey

theorem stripWord_token {text : String} (hs : Word s) (h : Unmarked text) :
    stripWord (String.ofList (text.toList ++ ' ' :: (token s).toList)) (token s) = text := by
  have hcut : Lib.Text.cutList (" " ++ token s).toList
      (String.ofList (text.toList ++ ' ' :: (token s).toList)).toList = some (text.toList, []) := by
    have hspace : ' ' ∉ (token s).toList := fun hmem => by
      have := hs.token_unspaced ' ' hmem
      cases this
    have := Lib.Occurs.cutList_of_split hspace [] (Lib.Occurs.count_eq_zero.mpr (h.not_infix hs))
    simpa using this
  unfold stripWord
  rw [hasPrefix_token, contains, hcut, replaceFirst, hcut]
  simp

/-- A token with a space in front is longer than the token. -/
theorem stripWord_token_alone (s : String) : stripWord (token s) (token s) = "" := by
  have hlonger : Lib.Text.cutList (" " ++ token s).toList (token s).toList = none := by
    refine Option.eq_none_iff_forall_ne_some.mpr fun ⟨a, b⟩ hcut => ?_
    have hlen := congrArg List.length (Lib.Occurs.cutList_spec hcut)
    simp only [String.toList_append, List.length_append] at hlen
    have hspace : " ".toList.length = 1 := rfl
    omega
  have hself : Lib.Text.cutList (token s).toList (token s).toList = some ([], []) := by
    cases htoken : (token s).toList with
    | nil => exact absurd htoken (token_ne_nil s)
    | cons c cs =>
      rw [Lib.Text.cutList, if_pos (List.isPrefixOf_iff_prefix.mpr List.prefix_rfl),
        List.drop_length]
  have hnone : contains (token s) (" " ++ token s) = false := by rw [contains, hlonger]; rfl
  have hempty : replaceFirst (token s) (token s) "" = "" := by rw [replaceFirst, hself]; rfl
  simp [stripWord, hasPrefix_token, hnone, hempty]

/-- **Stripping gives the comment back.**  The token is the only word with the key, and it occurs
behind a space only at the end. -/
theorem stripNarrowMark_withNarrowMark {comment : Option String} (hs : Word s)
    (h : Unmarked (comment.getD "")) :
    (stripNarrowMark (some (withNarrowMark comment s))).getD "" = comment.getD "" := by
  rw [stripNarrowMark_some, fields_withNarrowMark hs, List.foldl_append, foldl_stripWord h,
    Option.getD_some, List.foldl_cons, List.foldl_nil]
  by_cases hempty : comment.getD "" = ""
  · rw [withNarrowMark_of_empty hempty, hempty, stripWord_token_alone]
  · rw [← String.ofList_toList (s := withNarrowMark comment s), withNarrowMark_toList hempty,
      stripWord_token hs h]

/-! ## 2. The service

An update may take place although its answer is an error.  Reads show the resource as it is. -/

/-- The resource after an update: state and comment are set at once. -/
def Resource.apply (r : Resource) (p : UpdateParams) : Resource where
  state := some p.state
  comment := if p.delete = some "comment" then none else p.comment <|> r.comment

/-- **The HA resource of a VM as its only writer sees it.**  A read may fail, but not with an answer
that says the resource is missing.  An update takes place or not, and its answer may be lost in both
cases.  The service never shows the error state.  Every other effect may be answered by anything and
leaves the resource alone. -/
def Serves (r : Resource) : (e : Op) → Ans e → Resource → Prop
  | .getResource, a, r' => r' = r ∧ (a = .ok (some r) ∨ ∃ f : Fault, a = .error f ∧ ¬f.notFound)
  | .updateResource p, a, r' => r' = r.apply p ∨ (r' = r ∧ a ≠ none)
  | .readState _, a, r' => r' = r ∧ ∀ st, a = .ok (some st) → st.raw ≠ haStateError
  | _, _, r' => r' = r

/-- Any number of runs for the resource's VM, each cut off somewhere or at its end. -/
inductive Cuts (r₀ : Resource) : Resource → Prop
  | start : Cuts r₀ r₀
  | run {r r' : Resource} {i : NarrowInput} {rounds : Nat} {q : Run (Except Stop VMLocation)}
      (h : Cuts r₀ r) (hsys : i.sysConsole = true)
      (hrun : Runs Serves (narrowActive rounds i) r q r') : Cuts r₀ r'

/-- The resource is as it was: the state, and the comment as a text. -/
structure Untouched (s text : String) (r : Resource) : Prop where
  state : r.state = some s
  comment : r.comment.getD "" = text

/-- The resource is ignored by a barrier, and its comment says what to put back. -/
structure Marked (s text : String) (r : Resource) : Prop where
  changed : s ≠ haStateIgnored
  state : r.state = some haStateIgnored
  comment : r.comment = some (withNarrowMark (some text) s)

/-- What holds of the resource at every moment. -/
def Kept (s text : String) (r : Resource) : Prop := Untouched s text r ∨ Marked s text r

/-- What a barrier that goes on knows: the comment and the state to put back, and that the resource
is held with its token, or was left ignored by an operator. -/
structure Ready (s text : String) (b : Barrier) (r : Resource) : Prop where
  comment : b.comment.getD "" = text
  restore : b.restore = s
  held : (b.marked = true ∧ Marked s text r) ∨
    (b.marked = false ∧ s = haStateIgnored ∧ Untouched s text r)

/-- The comment of a barrier matters only as a text. -/
theorem withNarrowMark_congr {comment : Option String} {text : String}
    (h : comment.getD "" = text) (s : String) :
    withNarrowMark comment s = withNarrowMark (some text) s := by
  unfold withNarrowMark
  rw [h, Option.getD_some]

theorem Marked.narrowMarkOf_eq {text : String} {r : Resource} (hs : Word s) (ht : Unmarked text)
    (h : Marked s text r) : narrowMarkOf r.comment = some s := by
  rw [h.comment]
  exact narrowMarkOf_withNarrowMark hs ht

/-- A read that shows the resource held settles the request for ignored. -/
theorem Kept.marked_of_settles {text : String} {r : Resource} (hne : s ≠ haStateIgnored)
    (h : Kept s text r) (hsettle : Barrier.settles haStateIgnored true (.ok (some r)) = true) :
    Marked s text r := by
  rcases h with h | h
  · simp only [Barrier.settles, Bool.and_eq_true, decide_eq_true_eq] at hsettle
    rw [h.state] at hsettle
    exact absurd (Option.some.inj hsettle.1) hne
  · exact h

/-- A read that shows the state without a token settles the restore. -/
theorem Kept.fresh_of_settles {text : String} {r : Resource} (hs : Word s) (ht : Unmarked text)
    (h : Kept s text r) (hsettle : Barrier.settles s false (.ok (some r)) = true) :
    Untouched s text r := by
  rcases h with h | h
  · exact h
  · simp only [Barrier.settles, Bool.and_eq_true, decide_eq_true_eq] at hsettle
    rw [h.narrowMarkOf_eq hs ht] at hsettle
    exact absurd hsettle.2 (by simp)

/-! ## 3. The two updates

Each sets the state and the comment in one call, so there is no state in between. -/

variable {text : String} {b : Barrier} {r : Resource}

/-- The update that holds the resource. -/
theorem Resource.apply_hold (hc : b.comment.getD "" = text) (hb : b.restore = s)
    (hne : s ≠ haStateIgnored) (r : Resource) :
    Marked s text (r.apply (b.params haStateIgnored true)) := by
  refine ⟨hne, rfl, ?_⟩
  rw [← hb]
  exact congrArg some (withNarrowMark_congr hc _)

/-- **The update that puts the state back drops the token with it.** -/
theorem Resource.apply_restore (hc : b.comment.getD "" = text) (htokened : b.marked = true)
    (r : Resource) : Untouched s text (r.apply (b.params s false)) := by
  unfold Barrier.params Resource.apply
  rw [if_neg Bool.false_ne_true, hc]
  by_cases ht : text = ""
  · rw [if_neg (not_not_intro ht), if_pos htokened]
    exact ⟨rfl, by simp [ht]⟩
  · rw [if_pos ht]
    refine ⟨rfl, ?_⟩
    cases hb : b.comment with
    | none => exact absurd (by rw [← hc, hb]; rfl) ht
    | some c =>
      rw [hb] at hc
      simpa using hc

/-- What the service can do with an update, and what the client learns. -/
theorem serves_update {p : UpdateParams} {a : Option Fault} {r' : Resource}
    (h : Serves r (.updateResource p) a r') : r' = r.apply p ∨
    (r' = r ∧ ∃ cause, a = some cause) := by
  rcases h with h | ⟨h, hne⟩
  · exact .inl h
  · exact .inr ⟨h, Option.ne_none_iff_exists'.mp hne⟩

/-- **A request that returns nil took place**: one that was answered by an error is settled by a
read of the resource itself.  The answer may be an error, and then the read that follows decides; a
read that shows the request settled has seen it take place. -/
theorem request_holds {state : String} {mark : Bool} {Goal : Resource → Prop}
    (hr : Kept s text r) (happly : Kept s text (r.apply (b.params state mark)))
    (hgoal : Goal (r.apply (b.params state mark)))
    (hsettles : ∀ r', Kept s text r' → Barrier.settles state mark (.ok (some r')) = true →
      Goal r') :
    Holds Serves (Kept s text) (b.request state mark)
      (fun a r' => a.2 = none → a.1 = { b with marked := mark } ∧ Goal r') r := by
  refine Holds.perform hr fun a r' ha => ?_
  have hkept : Kept s text r' := by
    rcases serves_update ha with rfl | ⟨rfl, -⟩
    · exact happly
    · exact hr
  cases a with
  | none =>
    rcases serves_update ha with rfl | ⟨-, cause, hcause⟩
    · exact ⟨hkept, fun _ => ⟨rfl, hgoal⟩⟩
    · cases hcause
  | some cause =>
    refine Holds.perform hkept fun got r'' hgot => ?_
    obtain ⟨rfl, hread⟩ := hgot
    split
    · rename_i hset
      refine ⟨hkept, fun _ => ⟨rfl, ?_⟩⟩
      rcases hread with rfl | ⟨f, rfl, -⟩
      · exact hsettles _ hkept hset
      · cases hset
    · exact ⟨hkept, fun h => by cases h⟩

/-! ## 4. The steps of the barrier -/

/-- A run that returns nil left the resource as it was. -/
def Restored (s text : String) (a : Except Stop VMLocation) (r : Resource) : Prop :=
  ∀ loc, a = .ok loc → Untouched s text r

theorem restored_error {e : Stop} : Restored s text (.error e) r := fun _ h => by cases h

/-- An effect that does not update the resource. -/
def Still : Op → Prop
  | .updateResource _ => False
  | _ => True

theorem Aside.still {i : NarrowInput} (e : Op) (he : Aside i e) : Still e := by
  cases e with
  | updateResource p => exact he.elim
  | _ => trivial

theorem Still.unchanged (r : Resource) (e : Op) (a : Ans e) (r' : Resource) (he : Still e)
    (h : Serves r e a r') : r' = r := by
  cases e with
  | updateResource p => exact he.elim
  | getResource => exact h.1
  | readState node => exact h.1
  | _ => exact h

theorem Ready.kept (h : Ready s text b r) : Kept s text r := by
  rcases h.held with ⟨-, h⟩ | ⟨-, -, h⟩
  · exact .inr h
  · exact .inl h

namespace Barrier

/-- The request for ignored. -/
theorem hold_request_holds (hc : b.comment.getD "" = text) (hb : b.restore = s)
    (hne : s ≠ haStateIgnored) (hr : Kept s text r) :
    Holds Serves (Kept s text) (b.request haStateIgnored true)
      (fun a r' => a.2 = none → Ready s text a.1 r') r := by
  have happly := Resource.apply_hold hc hb hne r
  refine (request_holds hr (.inr happly) happly fun r' => Kept.marked_of_settles hne).mono ?_
  intro a r' h hnil
  obtain ⟨hb', hmarked⟩ := h hnil
  rw [hb']
  exact ⟨hc, hb, .inl ⟨rfl, hmarked⟩⟩

/-- **Finishing.**  A resource that an operator left ignored needs no write, and the token says what
to write for every other one. -/
theorem finish_holds (hs : Word s) (ht : Unmarked text) (h : Ready s text b r) :
    Holds Serves (Kept s text) b.finish (fun e r' => e = none → Untouched s text r') r := by
  unfold finish
  rcases h.held with ⟨hm, hmarked⟩ | ⟨hm, hign, hfresh⟩
  · rw [if_neg (by simp [hm])]
    have happly := Resource.apply_restore (s := s) h.comment hm r
    rw [h.restore]
    refine (request_holds h.kept (.inl happly) happly fun r' =>
      Kept.fresh_of_settles hs ht).bind ?_
    intro a r' hr' ha
    exact ⟨hr', fun hnil => (ha hnil).2⟩
  · rw [if_pos (by simp [hm, h.restore, hign])]
    exact ⟨h.kept, fun _ => hfresh⟩

theorem restoreAfter_holds {α : Type} {Q : Except Stop α → Resource → Prop} {loc : VMLocation}
    {cause : Err} (hs : Word s) (ht : Unmarked text) (h : Ready s text b r)
    (hQ : ∀ e r', Q (.error e) r') :
    Holds Serves (Kept s text) (b.restoreAfter loc cause) Q r :=
  (finish_holds hs ht h).bind fun _ _ hr' _ => ⟨hr', hQ _ _⟩

/-- A drain that ends well leaves the resource to the barrier. -/
def Drained (s text : String) (b : Barrier) (a : Except Stop VMLocation) (r : Resource) : Prop :=
  ∀ loc, a = .ok loc → Ready s text b r

/-- The end of a round leaves the resource as it was, or has restored it. -/
theorem again_holds (hs : Word s) (ht : Unmarked text) {deadline : Int} {node why : String}
    {drop : Int} {next : String → Int → Run (Except Stop VMLocation)} (h : Ready s text b r)
    (hnext : Holds Serves (Kept s text) (next node drop) (Drained s text b) r) :
    Holds Serves (Kept s text) (b.again deadline next node drop why) (Drained s text b) r := by
  have hfail : ∀ e r', Drained s text b (.error e) r' := fun _ _ _ h => by cases h
  refine Holds.perform h.kept fun now r' hr' => ?_
  obtain rfl := hr'
  split
  · exact restoreAfter_holds hs ht h hfail
  · refine Holds.perform h.kept fun a r' hr' => ?_
    obtain rfl := hr'
    cases a with
    | some cause => exact ⟨h.kept, hfail _ _⟩
    | none => exact hnext

/-- Waiting for the managers to let go only reads, so the record on the resource stays.  The
induction is on the rounds; running out of them is an error. -/
theorem drainLoop_holds (hs : Word s) (ht : Unmarked text) (requestTime deadline : Int)
    (rounds : Nat) (node : String) (dropRound : Int) (h : Ready s text b r) :
    Holds Serves (Kept s text) (b.drainLoop requestTime deadline rounds node dropRound)
      (Drained s text b) r := by
  induction rounds generalizing node dropRound r with
  | zero => exact ⟨h.kept, fun _ h => by cases h⟩
  | succ rounds ih =>
    have hfail : ∀ e r', Drained s text b (.error e) r' := fun _ _ _ h => by cases h
    unfold drainLoop
    refine Holds.perform h.kept fun a r' hr' => ?_
    obtain ⟨rfl, -⟩ := hr'
    rcases a with cause | _ | st
    · exact again_holds hs ht h (ih _ _ h)
    · exact ⟨h.kept, hfail _ _⟩
    · dsimp only
      cases b.round requestTime dropRound st with
      | errored => exact ⟨h.kept, hfail _ _⟩
      | wait drop why => exact again_holds hs ht h (ih _ _ h)
      | released =>
        refine Holds.perform h.kept fun a r' hr' => ?_
        obtain rfl := hr'
        obtain ⟨loc, cause⟩ := a
        cases cause with
        | some cause => exact restoreAfter_holds hs ht h hfail
        | none =>
          dsimp only
          split
          · exact again_holds hs ht h (ih _ _ h)
          · split
            · exact restoreAfter_holds hs ht h hfail
            · exact ⟨h.kept, fun _ _ => h⟩

theorem drain_holds (hs : Word s) (ht : Unmarked text) (rounds : Nat) (requestTime : Int)
    (node : String) (h : Ready s text b r) :
    Holds Serves (Kept s text) (b.drain rounds requestTime node) (Drained s text b) r := by
  refine Holds.perform h.kept fun now r' hr' => ?_
  obtain rfl := hr'
  exact drainLoop_holds hs ht _ _ _ _ _ h

/-- What follows the drain. -/
theorem change_holds (hs : Word s) (ht : Unmarked text) (drained : VMLocation)
    (h : Ready s text b r) :
    Holds Serves (Kept s text) (b.change drained) (Restored s text) r := by
  have hfail : ∀ e r', Restored s text (.error e) r' := fun _ _ => restored_error
  unfold change
  refine (Holds.of_only (writeNewPin_aside.mono Aside.still) Still.unchanged h.kept).bind
    fun a r' _ hr' => ?_
  obtain rfl := hr'
  cases a with
  | some cause => exact restoreAfter_holds hs ht h hfail
  | none =>
    refine Holds.perform h.kept fun a r' hr' => ?_
    obtain rfl := hr'
    obtain ⟨loc, cause⟩ := a
    cases cause with
    | some cause =>
      refine (Holds.of_only ((revertPin_aside _).mono Aside.still) Still.unchanged h.kept).bind
        fun a r' _ hr' => ?_
      obtain rfl := hr'
      exact restoreAfter_holds hs ht h hfail
    | none =>
      refine (Holds.of_only ((checkLanding_aside _).mono Aside.still) Still.unchanged h.kept).bind
        fun a r' _ hr' => ?_
      obtain rfl := hr'
      cases a with
      | some e => exact ⟨h.kept, hfail _ _⟩
      | none =>
        refine (finish_holds hs ht h).bind fun e r' hr' hfresh => ?_
        cases e with
        | some e => exact ⟨hr', hfail _ _⟩
        | none => exact ⟨hr', fun _ _ => hfresh rfl⟩

/-- A state read leaves the resource alone and does not show the error state. -/
theorem readState_holds (node : String) (hr : Kept s text r) :
    Holds Serves (Kept s text) (b.readState node)
      (fun a r' => r' = r ∧ ∀ st, a = .ok st → st.raw ≠ haStateError) r := by
  refine Holds.perform hr fun a r' hr' => ?_
  obtain ⟨rfl, hraw⟩ := hr'
  rcases a with cause | _ | st
  · exact ⟨hr, rfl, fun _ h => by cases h⟩
  · exact ⟨hr, rfl, fun _ h => by cases h⟩
  · refine ⟨hr, rfl, fun st' hst => ?_⟩
    split at hst
    · cases hst
      exact hraw st rfl
    · cases hst

/-- What a barrier knows before it holds the resource. -/
structure Starts (s text : String) (b : Barrier) (resumed : Bool) (r : Resource) : Prop where
  comment : b.comment.getD "" = text
  restore : b.restore = s
  marked : b.marked = resumed
  resource : if resumed then Marked s text r else Untouched s text r

theorem Starts.kept {resumed : Bool} (h : Starts s text b resumed r) : Kept s text r := by
  have hres := h.resource
  cases resumed with
  | false => exact .inl hres
  | true => exact .inr hres

theorem hold_holds {resumed : Bool} (h : Starts s text b resumed r) :
    Holds Serves (Kept s text) (b.hold resumed)
      (fun a r' => a.2 = none → Ready s text a.1 r') r := by
  unfold hold
  have hres := h.resource
  cases resumed with
  | true => exact ⟨h.kept, fun _ => ⟨h.comment, h.restore, .inl ⟨h.marked, hres⟩⟩⟩
  | false =>
    by_cases hign : s = haStateIgnored
    · rw [if_neg (by simp [h.restore, hign])]
      exact ⟨h.kept, fun _ => ⟨h.comment, h.restore, .inr ⟨h.marked, hign, hres⟩⟩⟩
    · rw [if_pos (by simp [h.restore, hign])]
      exact hold_request_holds h.comment h.restore hign h.kept

/-- The ignored path from its first read to its last request.  Every exit is either an error, of
which nothing is claimed, or the state that the record names. -/
theorem viaIgnored_holds (hs : Word s) (ht : Unmarked text) (rounds : Nat) {resumed : Bool}
    (h : Starts s text b resumed r) :
    Holds Serves (Kept s text) (b.viaIgnored rounds resumed) (Restored s text) r := by
  have hfail : ∀ e r', Restored s text (.error e) r' := fun _ _ => restored_error
  unfold viaIgnored
  refine (readState_holds _ h.kept).bind fun a r' _ hr' => ?_
  obtain ⟨rfl, hraw⟩ := hr'
  cases a with
  | error e => exact ⟨h.kept, hfail _ _⟩
  | ok st =>
    dsimp only
    rw [if_neg (hraw st rfl)]
    refine (hold_holds h).bind fun a r' hr' hready => ?_
    obtain ⟨b', e⟩ := a
    cases e with
    | some e => exact ⟨hr', hfail _ _⟩
    | none =>
      have hb' : Ready s text b' r' := hready rfl
      refine (readState_holds _ hr').bind fun a r'' _ hr'' => ?_
      obtain ⟨rfl, -⟩ := hr''
      cases a with
      | error e => exact restoreAfter_holds hs ht hb' hfail
      | ok after =>
        refine (drain_holds hs ht rounds _ _ hb').bind fun a r'' hr'' hdrained => ?_
        cases a with
        | error e => exact ⟨hr'', hfail _ _⟩
        | ok loc => exact change_holds hs ht loc (hdrained loc rfl)

end Barrier

/-! ## 5. A run, and any number of them

`Cuts` is any sequence of runs that were cut off. -/

theorem Untouched.resumed_eq (ht : Unmarked text) (h : Untouched s text r) : r.resumed = false := by
  have hnone : narrowMarkOf r.comment = none :=
    narrowMarkOf_of_unmarked (by rw [h.comment]; exact ht)
  simp [Resource.resumed, hnone]

theorem Marked.resumed_eq (hs : Word s) (ht : Unmarked text) (h : Marked s text r) :
    r.resumed = true := by
  have hcurrent : r.current = haStateIgnored := by simp [Resource.current, h.state, haStateIgnored]
  simp [Resource.resumed, h.narrowMarkOf_eq hs ht, hcurrent]

/-- **What a run reads off the resource**: the comment from before, the state to put back, and
whether an earlier run holds it. -/
theorem Kept.starts (hs : Word s) (ht : Unmarked text) (i : NarrowInput) (h : Kept s text r) :
    Barrier.Starts s text (Barrier.ofResource i r) r.resumed r := by
  rcases h with h | h
  · have hresumed := h.resumed_eq ht
    have hstrip : stripNarrowMark r.comment = r.comment :=
      stripNarrowMark_of_unmarked (by rw [h.comment]; exact ht)
    have hcurrent : r.current = s := by simp [Resource.current, h.state, hs.set]
    rw [hresumed]
    refine ⟨?_, ?_, hresumed, h⟩
    · rw [Barrier.ofResource, hstrip, h.comment]
    · simp [Barrier.ofResource, hresumed, hcurrent]
  · have hresumed := h.resumed_eq hs ht
    rw [hresumed]
    refine ⟨?_, ?_, hresumed, h⟩
    · rw [Barrier.ofResource, h.comment]
      exact stripNarrowMark_withNarrowMark hs ht
    · simp [Barrier.ofResource, hresumed, h.narrowMarkOf_eq hs ht]

/-- **One run from a kept resource.** -/
theorem narrowActive_holds (hs : Word s) (ht : Unmarked text) (rounds : Nat) {i : NarrowInput}
    (hsys : i.sysConsole = true) (h : Kept s text r) :
    Holds Serves (Kept s text) (narrowActive rounds i) (Restored s text) r := by
  unfold narrowActive
  split
  · exact ⟨h, restored_error⟩
  · rw [if_neg (by simp [hsys])]
    refine Holds.perform h fun a r' hr' => ?_
    obtain ⟨rfl, rfl | ⟨cause, rfl, hfound⟩⟩ := hr'
    · dsimp only
      split
      · rename_i hwiden
        have hfresh : Untouched s text r' := by
          rcases h with h | h
          · exact h
          · rw [h.resumed_eq hs ht] at hwiden
            simp at hwiden
        refine (Holds.of_only
          (Barrier.widen_only (fun _ => trivial) fun _ => trivial) Still.unchanged h).mono
          fun a r'' hr'' => ?_
        rw [hr'']
        exact fun _ _ => hfresh
      · exact Barrier.viaIgnored_holds hs ht rounds (h.starts hs ht i.defaults)
    · dsimp only
      rw [if_neg hfound]
      exact ⟨h, restored_error⟩

/-- Whatever was cut off, the resource is as it was or says how it was. -/
theorem Cuts.kept {r₀ : Resource} (hs : Word s) (ht : Unmarked text) (h₀ : Kept s text r₀)
    (h : Cuts r₀ r) : Kept s text r := by
  induction h with
  | start => exact h₀
  | run _ hsys hrun ih => exact (Holds.runs hrun (narrowActive_holds hs ht _ hsys ih)).inv

/-- **A run that returns nil after any number of runs that were cut off leaves the resource with the
state and the comment from before the first of them.**  Whatever was cut off, the resource is
untouched or carries the token with its old state and comment (`Cuts.kept`); from either a run knows
what to put back (`Kept.starts`), and one that returns nil has put it back. -/
theorem narrowActive_recovers {r₀ r r' : Resource} {s : String} (hstate : r₀.state = some s)
    (hs : Word s) (hcomment : Unmarked (r₀.comment.getD "")) (hcuts : Cuts r₀ r) {i : NarrowInput}
    (hsys : i.sysConsole = true) {rounds : Nat} {loc : VMLocation}
    (hrun : Runs Serves (narrowActive rounds i) r (.ret (.ok loc)) r') :
    r'.state = r₀.state ∧ r'.comment.getD "" = r₀.comment.getD "" := by
  have hkept := hcuts.kept hs hcomment (.inl ⟨hstate, rfl⟩)
  have hfresh := (Holds.runs hrun (narrowActive_holds hs hcomment rounds hsys hkept)).2 loc rfl
  exact ⟨hfresh.state.trans hstate.symm, hfresh.comment⟩

/-! ## 6. A crash and its recovery -/

/-- A VM that stays on one node, under an HA stack that lets go of it at once. -/
def steady (r : Resource) : (e : Op) → Ans e × Resource
  | .getResource => (.ok (some r), r)
  | .updateResource p => (none, r.apply p)
  | .readState node => (.ok (some { known := true, node := node, crmStamp := 1, lrmStamp := 2 }), r)
  | .settle => (({ node := "a", found := true }, none), r)
  | .mutate _ => (({ node := "a", found := true }, none), r)
  | .writePin _ => (none, r)
  | .checkReach _ => (none, r)
  | .unchanged _ => (.ok false, r)
  | .moving _ => (.ok false, r)
  | .reregister _ _ => (.done {} none, r)
  | .now => (0, r)
  | .sleep _ => (none, r)

theorem steady_serves (r : Resource) (e : Op) : Serves r e (steady r e).1 (steady r e).2 := by
  cases e with
  | getResource => exact ⟨rfl, .inl rfl⟩
  | updateResource p => exact .inl rfl
  | readState node =>
    refine ⟨rfl, fun st hst => ?_⟩
    cases hst
    exact (by decide : "" ≠ haStateError)
  | _ => rfl

def pinned : NarrowInput where
  vmid := 7
  node := "a"
  oldPin := none
  newPin := some { strict := true, nodes := [⟨"a", 1⟩].toAList }

def started : Resource := { state := some "started", comment := some "db" }

/-- The resource as a run leaves it that was cut off right after the request for ignored. -/
def heldStarted : Resource :=
  { state := some haStateIgnored, comment := some "db bosh-narrow-from=started" }

theorem cuts_heldStarted : Cuts started heldStarted :=
  .run .start rfl (playFor_runs steady_serves 3 (narrowActive 1 pinned) started)

/-- The next run finishes what the first began. -/
theorem narrowActive_recovers_started :
    Cuts started heldStarted ∧ ∃ r', Runs Serves (narrowActive 1 pinned) heldStarted
      (.ret (.ok { node := "a", found := true })) r' ∧
      r'.state = some "started" ∧ r'.comment.getD "" = "db" := by
  have hrun := playFor_runs steady_serves 20 (narrowActive 1 pinned) heldStarted
  refine ⟨cuts_heldStarted, _, hrun, ?_⟩
  have hword : Word "started" := ⟨by decide, forall_of_all (by decide)⟩
  have hcomment : Unmarked (started.comment.getD "") := by
    unfold Unmarked
    decide
  exact narrowActive_recovers rfl hword hcomment cuts_heldStarted rfl hrun

end Ha
