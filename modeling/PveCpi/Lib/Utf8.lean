/-
# Byte strings and the characters they spell

A Go string is a sequence of bytes that need not be UTF-8.  `runes` is what a loop over such a
string sees: the characters it spells, and nothing for each byte that is not part of one.  The
standard encoders write a replacement character there, so that what comes back is `coerce`.

* `runes_encode`: a text that is encoded is seen as it was;
* `coerce_eq_self`: exactly the valid strings are kept by `coerce`;
* `valid_coerce`: what `coerce` returns is valid.

## Why not `String` alone

Lean's strings are valid by their type, Go's are not, and the difference is visible wherever the
source checks a name with `utf8.ValidString` or encodes one that nobody has checked.  So identifiers
that come from outside are byte strings, and this module says what each reader makes of them.

* §1  One character, through the core library's encoder and decoder.
* §2  `runes` and its induction: a byte string is a character followed by a byte string, or a stray
  byte followed by one.  Every later proof goes by `runes_induction`.
* §3  Validity and replacement.
* §4  An ASCII character cuts a string (`text_cut`).  This is why code may search for a colon in
  bytes and then treat the parts as texts: no byte of a longer character is ASCII.
* §5-6  The bytes of each character, and characters replaced by an ASCII one, where a stray byte
  must not become part of a character that was not there.
-/
import Mathlib.Data.List.Basic
import Mathlib.Tactic.Cases

namespace Lib.Utf8

/-! ## 1. One character -/

/-- The bytes of a text. -/
def encode (cs : List Char) : List UInt8 := cs.flatMap String.utf8EncodeChar

/-- The character at the front of a byte string. -/
def decodeChar (bs : List UInt8) : Option Char := bs.toByteArray.utf8DecodeChar? 0

theorem toByteArray_inj {a b : List UInt8} (h : a.toByteArray = b.toByteArray) : a = b := by
  rw [← List.toList_data_toByteArray (l := a), h, List.toList_data_toByteArray]

@[simp] theorem decodeChar_encodeChar (c : Char) (bs : List UInt8) :
    decodeChar (String.utf8EncodeChar c ++ bs) = some c := by
  unfold decodeChar
  rw [List.toByteArray_append]
  exact ByteArray.utf8DecodeChar?_utf8EncodeChar_append

theorem decodeChar_spec {bs : List UInt8} {c : Char} (h : decodeChar bs = some c) :
    ∃ rest, bs = String.utf8EncodeChar c ++ rest := by
  obtain ⟨l, hl⟩ := ByteArray.exists_of_utf8DecodeChar?_eq_some h
  refine ⟨l.data.toList, toByteArray_inj ?_⟩
  rw [List.toByteArray_append, hl]
  congr 1
  apply ByteArray.ext
  apply Array.toList_inj.mp
  rw [List.toList_data_toByteArray]

theorem drop_encodeChar (c : Char) (bs : List UInt8) :
    (String.utf8EncodeChar c ++ bs).drop c.utf8Size = bs := by
  rw [← String.length_utf8EncodeChar, List.drop_left]

theorem encodeChar_ne_nil (c : Char) : String.utf8EncodeChar c ≠ [] := by
  intro h
  have hlen := String.length_utf8EncodeChar c
  rw [h] at hlen
  exact absurd hlen.symm (Nat.ne_of_gt c.utf8Size_pos)

/-! ## 2. What a loop over a string sees

The recursion is well-founded, on the number of bytes, so `runes` is never unfolded: the three
equations below say what it is. -/

/-- The characters of a byte string; a byte that is not part of one counts by itself. -/
def runes : List UInt8 → List (Option Char)
  | [] => []
  | b :: bs =>
    match decodeChar (b :: bs) with
    | some c => some c :: runes ((b :: bs).drop c.utf8Size)
    | none => none :: runes bs
termination_by bs => bs.length
decreasing_by
  · have hpos := c.utf8Size_pos
    rw [List.length_drop, List.length_cons]
    omega
  · simp

@[simp] theorem runes_nil : runes [] = [] := by
  rw [runes]

theorem runes_encodeChar (c : Char) (bs : List UInt8) :
    runes (String.utf8EncodeChar c ++ bs) = some c :: runes bs := by
  have hdecode := decodeChar_encodeChar c bs
  have hdrop := drop_encodeChar c bs
  cases hbytes : String.utf8EncodeChar c ++ bs with
  | nil => exact absurd (List.append_eq_nil_iff.mp hbytes).1 (encodeChar_ne_nil c)
  | cons b rest =>
    rw [hbytes] at hdecode hdrop
    rw [runes, hdecode]
    simp only [hdrop]

theorem runes_stray {b : UInt8} {bs : List UInt8} (h : decodeChar (b :: bs) = none) :
    runes (b :: bs) = none :: runes bs := by
  rw [runes, h]

/-- The induction that `runes` goes by. -/
theorem runes_induction {P : List UInt8 → Prop} (hnil : P [])
    (hchar : ∀ c bs, P bs → P (String.utf8EncodeChar c ++ bs))
    (hstray : ∀ b bs, decodeChar (b :: bs) = none → P bs → P (b :: bs)) (bs : List UInt8) :
    P bs := by
  induction bs using runes.induct with
  | case1 => exact hnil
  | case2 b bs c h ih =>
    obtain ⟨rest, hrest⟩ := decodeChar_spec h
    rw [hrest] at ih ⊢
    rw [drop_encodeChar] at ih
    exact hchar c rest ih
  | case3 b bs h ih => exact hstray b bs h ih

/-- **A text is seen as it was written.**  Each character is decoded from its own bytes, whatever
follows them. -/
@[simp] theorem runes_encode (cs : List Char) : runes (encode cs) = cs.map some := by
  induction cs with
  | nil => simp [encode]
  | cons c cs ih =>
    have hcons : encode (c :: cs) = String.utf8EncodeChar c ++ encode cs := rfl
    rw [hcons, runes_encodeChar, ih]
    rfl

theorem encode_injective {a b : List Char} (h : encode a = encode b) : a = b := by
  have hrunes : a.map some = b.map some := by rw [← runes_encode, h, runes_encode]
  exact List.map_injective_iff.mpr (fun x y hxy => Option.some.inj hxy) hrunes

/-! ## 3. Validity and replacement -/

/-- `utf8.ValidString`. -/
def valid (bs : List UInt8) : Bool := (runes bs).all Option.isSome

/-- The text of a string, with a replacement character for each stray byte. -/
def text (bs : List UInt8) : List Char := (runes bs).map fun r => r.getD '\ufffd'

/-- The string after its stray bytes are replaced. -/
def coerce (bs : List UInt8) : List UInt8 := encode (text bs)

@[simp] theorem text_encode (cs : List Char) : text (encode cs) = cs := by
  simp [text, Function.comp_def]

@[simp] theorem valid_encode (cs : List Char) : valid (encode cs) = true := by
  simp [valid]

@[simp] theorem valid_coerce (bs : List UInt8) : valid (coerce bs) = true := valid_encode _

theorem encode_text {bs : List UInt8} : valid bs = true → encode (text bs) = bs := by
  induction bs using runes_induction with
  | hnil => intro _; simp [text, encode]
  | hchar c bs ih =>
    intro h
    have htext : text (String.utf8EncodeChar c ++ bs) = c :: text bs := by
      simp [text, runes_encodeChar]
    have hrest : valid bs = true := by simpa [valid, runes_encodeChar] using h
    have hcons : encode (c :: text bs) = String.utf8EncodeChar c ++ encode (text bs) := rfl
    rw [htext, hcons, ih hrest]
  | hstray b bs hb ih =>
    intro h
    simp [valid, runes_stray hb] at h

/-- **Exactly the valid strings are kept.**  What `coerce` returns is valid, and on a valid string
there is nothing to replace. -/
theorem coerce_eq_self {bs : List UInt8} : coerce bs = bs ↔ valid bs = true := by
  constructor
  · intro h
    rw [← h]
    exact valid_coerce bs
  · exact encode_text

theorem text_ne_nil {bs : List UInt8} (h : bs ≠ []) : text bs ≠ [] := by
  induction bs using runes_induction with
  | hnil => exact absurd rfl h
  | hchar c bs ih => simp [text, runes_encodeChar]
  | hstray b bs hb ih => simp [text, runes_stray hb]

theorem encode_eq_nil {cs : List Char} : encode cs = [] ↔ cs = [] := by
  constructor
  · intro h
    exact encode_injective (b := []) h
  · rintro rfl
    rfl

theorem coerce_ne_nil {bs : List UInt8} (h : bs ≠ []) : coerce bs ≠ [] := fun hc =>
  text_ne_nil h (encode_eq_nil.mp hc)

/-! ## 4. An ASCII character cuts a string

A stray byte in front of an ASCII character stays one: it could only be completed by continuation
bytes. -/

/-- A byte that can only stand behind the first one of a character. -/
def Continues (b : UInt8) : Prop := 128 ≤ b.toNat ∧ b.toNat < 192

/-- All bytes of a character but the first are continuation bytes. -/
theorem continues_of_mem_tail {c : Char} {b : UInt8} (h : b ∈ (String.utf8EncodeChar c).tail) :
    Continues b := by
  have hcont : ∀ n : Nat, Continues (UInt8.ofNat (n % 0x40 + 0x80)) := by
    intro n
    rw [Continues, UInt8.toNat_ofNat']
    omega
  unfold String.utf8EncodeChar at h
  dsimp only at h
  split_ifs at h
  · cases h
  · rw [List.tail_cons, List.mem_singleton] at h
    exact h ▸ hcont _
  · simp only [List.tail_cons, List.mem_cons, List.not_mem_nil, or_false] at h
    rcases h with rfl | rfl
    · exact hcont _
    · exact hcont _
  · simp only [List.tail_cons, List.mem_cons, List.not_mem_nil, or_false] at h
    rcases h with rfl | rfl | rfl
    · exact hcont _
    · exact hcont _
    · exact hcont _

/-- The bytes behind the first one of a character are no ASCII. -/
theorem tail_encodeChar {c : Char} {b : UInt8} (h : b ∈ (String.utf8EncodeChar c).tail) :
    128 ≤ b.toNat :=
  (continues_of_mem_tail h).1

/-- A stray byte stays one in front of an ASCII character. -/
theorem decodeChar_stray {b a : UInt8} {bs rest : List UInt8} (ha : a.toNat < 128)
    (h : decodeChar (b :: bs) = none) : decodeChar (b :: (bs ++ a :: rest)) = none := by
  by_contra hne
  obtain ⟨c, hc⟩ := Option.ne_none_iff_exists'.mp hne
  obtain ⟨tail, htail⟩ := decodeChar_spec hc
  have hsplit : (b :: bs) ++ a :: rest = String.utf8EncodeChar c ++ tail := htail
  rcases List.append_eq_append_iff.mp hsplit with ⟨z, hz, hrest⟩ | ⟨z, hz, -⟩
  · -- The character reaches over the end, so the ASCII byte is one of its bytes.
    cases z with
    | nil =>
      rw [List.append_nil] at hz
      have hdecode := decodeChar_encodeChar c []
      rw [List.append_nil, hz, h] at hdecode
      cases hdecode
    | cons x z =>
      rw [List.cons_append] at hrest
      obtain ⟨rfl, -⟩ := List.cons.inj hrest
      have hmem : a ∈ (String.utf8EncodeChar c).tail := by
        rw [hz, List.cons_append, List.tail_cons]
        exact List.mem_append_right _ List.mem_cons_self
      exact absurd (tail_encodeChar hmem) (Nat.not_le.mpr ha)
  · rw [hz, decodeChar_encodeChar] at h
    cases h

theorem runes_cut {c : Char} {a : UInt8} (hc : String.utf8EncodeChar c = [a]) (ha : a.toNat < 128)
    (x y : List UInt8) : runes (x ++ a :: y) = runes x ++ some c :: runes y := by
  induction x using runes_induction with
  | hnil =>
    rw [List.nil_append, runes_nil, List.nil_append, ← List.singleton_append, ← hc,
      runes_encodeChar]
  | hchar c' bs ih =>
    rw [List.append_assoc, runes_encodeChar, runes_encodeChar, ih, List.cons_append]
  | hstray b bs hb ih =>
    rw [List.cons_append, runes_stray (decodeChar_stray ha hb), runes_stray hb, ih,
      List.cons_append]

/-- **The text on both sides of an ASCII character is read by itself.**  By `runes_induction` on the
left part: a character ends before the cut, and a stray byte is not completed by it. -/
theorem text_cut {c : Char} {a : UInt8} (hc : String.utf8EncodeChar c = [a]) (ha : a.toNat < 128)
    (x y : List UInt8) : text (x ++ a :: y) = text x ++ c :: text y := by
  rw [text, runes_cut hc ha, List.map_append, List.map_cons]
  rfl

theorem encodeChar_ascii {a : UInt8} (ha : a.toNat < 128) :
    String.utf8EncodeChar (Char.ofNat a.toNat) = [a] := by
  have hall : ∀ n : Fin 128, String.utf8EncodeChar (Char.ofNat n.val) = [UInt8.ofNat n.val] := by
    decide +kernel
  have hone := hall ⟨a.toNat, ha⟩
  rwa [UInt8.ofNat_toNat] at hone

theorem runes_ascii {bs : List UInt8} (h : ∀ a ∈ bs, a.toNat < 128) :
    runes bs = bs.map fun a => some (Char.ofNat a.toNat) := by
  induction bs with
  | nil => simp
  | cons a bs ih =>
    have ha := encodeChar_ascii (h a List.mem_cons_self)
    rw [← List.singleton_append, ← ha, runes_encodeChar, ih fun b hb =>
      h b (List.mem_cons_of_mem _ hb)]
    rw [ha]
    rfl

theorem runes_encode_append (cs : List Char) (bs : List UInt8) :
    runes (encode cs ++ bs) = cs.map some ++ runes bs := by
  induction cs with
  | nil => simp [encode]
  | cons c cs ih =>
    have hcons : encode (c :: cs) = String.utf8EncodeChar c ++ encode cs := rfl
    rw [hcons, List.append_assoc, runes_encodeChar, ih]
    rfl

/-! ## 5. The bytes of each character -/

/-- The characters of a byte string, each with its bytes. -/
def spans : List UInt8 → List (Option Char × List UInt8)
  | [] => []
  | b :: bs =>
    match decodeChar (b :: bs) with
    | some c => (some c, (b :: bs).take c.utf8Size) :: spans ((b :: bs).drop c.utf8Size)
    | none => (none, [b]) :: spans bs
termination_by bs => bs.length
decreasing_by
  · have hpos := c.utf8Size_pos
    rw [List.length_drop, List.length_cons]
    omega
  · simp

@[simp] theorem spans_nil : spans [] = [] := by
  rw [spans]

theorem spans_encodeChar (c : Char) (bs : List UInt8) :
    spans (String.utf8EncodeChar c ++ bs) = (some c, String.utf8EncodeChar c) :: spans bs := by
  have hdecode := decodeChar_encodeChar c bs
  have hdrop := drop_encodeChar c bs
  have htake : (String.utf8EncodeChar c ++ bs).take c.utf8Size = String.utf8EncodeChar c := by
    rw [← String.length_utf8EncodeChar, List.take_left]
  cases hbytes : String.utf8EncodeChar c ++ bs with
  | nil => exact absurd (List.append_eq_nil_iff.mp hbytes).1 (encodeChar_ne_nil c)
  | cons b rest =>
    rw [hbytes] at hdecode hdrop htake
    rw [spans, hdecode]
    simp only [hdrop, htake]

theorem spans_stray {b : UInt8} {bs : List UInt8} (h : decodeChar (b :: bs) = none) :
    spans (b :: bs) = (none, [b]) :: spans bs := by
  rw [spans, h]

theorem map_fst_spans (bs : List UInt8) : (spans bs).map Prod.fst = runes bs := by
  induction bs using runes_induction with
  | hnil => simp
  | hchar c bs ih => rw [spans_encodeChar, runes_encodeChar, List.map_cons, ih]
  | hstray b bs hb ih => rw [spans_stray hb, runes_stray hb, List.map_cons, ih]

/-- No byte is lost. -/
@[simp] theorem flatMap_snd_spans (bs : List UInt8) : (spans bs).flatMap Prod.snd = bs := by
  induction bs using runes_induction with
  | hnil => simp
  | hchar c bs ih => rw [spans_encodeChar, List.flatMap_cons, ih]
  | hstray b bs hb ih => rw [spans_stray hb, List.flatMap_cons, ih, List.singleton_append]

theorem spans_cut {c : Char} {a : UInt8} (hc : String.utf8EncodeChar c = [a]) (ha : a.toNat < 128)
    (x y : List UInt8) : spans (x ++ a :: y) = spans x ++ (some c, [a]) :: spans y := by
  induction x using runes_induction with
  | hnil =>
    rw [List.nil_append, spans_nil, List.nil_append, ← List.singleton_append, ← hc,
      spans_encodeChar]
  | hchar c' bs ih =>
    rw [List.append_assoc, spans_encodeChar, spans_encodeChar, ih, List.cons_append]
  | hstray b bs hb ih =>
    rw [List.cons_append, spans_stray (decodeChar_stray ha hb), spans_stray hb, ih,
      List.cons_append]

/-! ## 6. An ASCII character in the place of others

Substitution shortens what follows a stray byte, and the danger is that the byte is then completed
to a character.  What continues a character in the new string did so in the old one
(`prefix_of_prefix_substitute`), so it is not. -/

/-- The string with the byte `a` for every character that `p` picks. -/
def substitute (p : Option Char → Bool) (a : UInt8) (bs : List UInt8) : List UInt8 :=
  (spans bs).flatMap fun s => if p s.1 then [a] else s.2

theorem head_encodeChar {c : Char} {b : UInt8} {t : List UInt8}
    (h : String.utf8EncodeChar c = b :: t) : ¬ Continues b := by
  unfold String.utf8EncodeChar at h
  dsimp only at h
  split_ifs at h
  all_goals
    obtain ⟨rfl, -⟩ := List.cons.inj h
    rw [Continues, UInt8.toNat_ofNat']
    omega

section Substitute

variable {p : Option Char → Bool} {a : UInt8}

theorem substitute_encodeChar (c : Char) (bs : List UInt8) :
    substitute p a (String.utf8EncodeChar c ++ bs) =
      (if p (some c) then [a] else String.utf8EncodeChar c) ++ substitute p a bs := by
  rw [substitute, spans_encodeChar]
  rfl

theorem substitute_stray (hp : p none = false) {b : UInt8} {bs : List UInt8}
    (h : decodeChar (b :: bs) = none) : substitute p a (b :: bs) = b :: substitute p a bs := by
  rw [substitute, spans_stray h, List.flatMap_cons, hp]
  rfl

/-- What continues a character in front of the new string does so in front of the old one. -/
theorem prefix_of_prefix_substitute (hp : p none = false) (ha : a.toNat < 128) (bs : List UInt8) :
    ∀ t, (∀ x ∈ t, Continues x) → t <+: substitute p a bs → t <+: bs := by
  induction bs using runes_induction with
  | hnil =>
    intro t _ ht
    simpa [substitute] using ht
  | hchar c bs ih =>
    intro t hcont ht
    cases t with
    | nil => exact List.nil_prefix
    | cons x t =>
      have hx := hcont x List.mem_cons_self
      rw [substitute_encodeChar] at ht
      split at ht
      · obtain ⟨rfl, -⟩ := List.cons_prefix_cons.mp ht
        exact absurd hx.1 (Nat.not_le.mpr ha)
      · cases hbytes : String.utf8EncodeChar c with
        | nil => exact absurd hbytes (encodeChar_ne_nil c)
        | cons b rest =>
          rw [hbytes] at ht
          obtain ⟨rfl, -⟩ := List.cons_prefix_cons.mp ht
          exact absurd hx (head_encodeChar hbytes)
  | hstray b bs hb ih =>
    intro t hcont ht
    cases t with
    | nil => exact List.nil_prefix
    | cons x t =>
      rw [substitute_stray hp hb] at ht
      obtain ⟨rfl, hrest⟩ := List.cons_prefix_cons.mp ht
      have hcont' : ∀ y ∈ t, Continues y := fun y hy => hcont y (List.mem_cons_of_mem _ hy)
      exact List.cons_prefix_cons.mpr ⟨rfl, ih t hcont' hrest⟩

/-- A stray byte stays one when what follows it is substituted. -/
theorem decodeChar_substitute (hp : p none = false) (ha : a.toNat < 128) {b : UInt8}
    {bs : List UInt8}
    (h : decodeChar (b :: bs) = none) : decodeChar (b :: substitute p a bs) = none := by
  by_contra hne
  obtain ⟨c, hc⟩ := Option.ne_none_iff_exists'.mp hne
  obtain ⟨tail, htail⟩ := decodeChar_spec hc
  cases hbytes : String.utf8EncodeChar c with
  | nil => exact encodeChar_ne_nil c hbytes
  | cons x rest =>
    rw [hbytes, List.cons_append] at htail
    obtain ⟨rfl, hrest⟩ := List.cons.inj htail
    have hcont : ∀ y ∈ rest, Continues y := by
      intro y hy
      refine continues_of_mem_tail (c := c) ?_
      rw [hbytes]
      exact hy
    obtain ⟨tail', htail'⟩ := prefix_of_prefix_substitute hp ha bs rest hcont ⟨tail, hrest.symm⟩
    have hdecode := decodeChar_encodeChar c tail'
    rw [hbytes, List.cons_append, htail', h] at hdecode
    cases hdecode

/-- **Only the characters that are picked change.**  A picked character becomes one ASCII byte,
which is seen as itself; every other character keeps its bytes, and every stray byte stays stray. -/
theorem runes_substitute {c : Char} (hp : p none = false) (hc : String.utf8EncodeChar c = [a])
    (ha : a.toNat < 128) (bs : List UInt8) :
    runes (substitute p a bs) = (runes bs).map fun r => if p r then some c else r := by
  induction bs using runes_induction with
  | hnil => simp [substitute]
  | hchar c' bs ih =>
    rw [substitute_encodeChar, runes_encodeChar, List.map_cons, ← ih]
    split
    · rw [← hc, runes_encodeChar]
    · rw [runes_encodeChar]
  | hstray b bs hb ih =>
    rw [substitute_stray hp hb, runes_stray (decodeChar_substitute hp ha hb), runes_stray hb,
      List.map_cons, ih, hp]
    rfl

/-- A text with a character in the place of others. -/
theorem substitute_encode {c : Char} (hc : String.utf8EncodeChar c = [a]) (cs : List Char) :
    substitute p a (encode cs) = encode (cs.map fun d => if p (some d) then c else d) := by
  induction cs with
  | nil => simp [substitute, encode]
  | cons d cs ih =>
    have hcons : encode (d :: cs) = String.utf8EncodeChar d ++ encode cs := rfl
    rw [hcons, substitute_encodeChar, ih, ← hc, List.map_cons]
    split <;> rfl

end Substitute

end Lib.Utf8
