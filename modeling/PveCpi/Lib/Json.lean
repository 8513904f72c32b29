/-
# JSON text

A JSON text is parsed to a tree that keeps every string and number exactly as it was written
(`Value`), so that the tree and the compact text determine each other:

* `parse_print`: the compact rendering of a well-formed tree parses back to that tree;
* `parse_spec`: whatever parses is well formed.

On top of the tree sit the two rewritings the standard encoder performs on text it is handed:

* `compact`: drop insignificant whitespace and escape `<`, `>`, `&` and the two Unicode line
  separators inside strings.  It keeps a valid text valid (`valid_compact`) and is idempotent
  (`compact_compact`);
* `canonical`: decode the first value of the text and encode it again, with sorted keys, the
  last of several equal keys kept, and one spelling for every string.  Its results are fixed
  points of `compact` (`compact_canonical`).

Texts are lists of characters: a Go string that holds JSON is UTF-8.  A value nested deeper
than `maxDepth` is refused, as the standard scanner refuses it.

## Why strings are kept as written

A tree with decoded strings would be smaller, but then the text could not be had back from it: one
string has many spellings, and the code under study compares, hashes and measures TEXTS.  So the
tree keeps the spelling, and decoding (`unquote`) is a function on it.  The two rewritings above are
then functions on trees, `mapStr` with a function on spellings, and a fact about a rewriting is a
fact about one string (§5) plus one induction over the tree, done once.

## What is proved

* §1  The lexers invert their printers: `lexString_append` and `lexString_spec`, `lexNumber_append`
  with the condition `Follow` that the number really ends where it was printed to end.
* §2-3  The parser with its fuel, and that the fuel it starts with is enough (`Value.size_le`), so
  `parse_print` has no fuel in it.
* §4  Soundness: `parse_spec`.  With §3 this makes `print` and `parse` inverse to each other on the
  compact texts.
* §5-6  `mapStr`, and compaction as `mapStr escapeHtml` after a parse.
* §7  Decoding, the spelling that the encoder writes, and the canonical text of an object.
* §8  The readers of typed fields: integers by their literal, and the range of a float.
-/
import Mathlib

namespace Lib.Json

/-! ## 1. Lexing

A string is lexed to its inside as it was written, and `rawOk` says which insides there are.  The
two lemmas about `lexString` together say that the inside determines the place of the closing quote:
a quote inside a string is always escaped. -/

/-- JSON whitespace. -/
def isWs (c : Char) : Bool := c == ' ' || c == '\t' || c == '\n' || c == '\r'

/-- The text from its first character that is not whitespace on. -/
def skipWs : List Char → List Char
  | [] => []
  | c :: cs => if isWs c then skipWs cs else c :: cs

/-- A hexadecimal digit. -/
def isHex (c : Char) : Bool :=
  ('0' ≤ c && c ≤ '9') || ('a' ≤ c && c ≤ 'f') || ('A' ≤ c && c ≤ 'F')

/-- The characters that may follow a backslash other than `u`. -/
def isEscape (c : Char) : Bool :=
  c == '"' || c == '\\' || c == '/' || c == 'b' || c == 'f' || c == 'n' || c == 'r' || c == 't'

/-- A character that stands for itself inside a string. -/
def isPlain (c : Char) : Bool := c != '"' && c != '\\' && (' ' ≤ c : Bool)

/-- The inside of a string up to its closing quote, as written, and what follows the quote. -/
def lexString : List Char → Option (List Char × List Char)
  | [] => none
  | '"' :: cs => some ([], cs)
  | '\\' :: 'u' :: a :: b :: c :: d :: cs =>
    if isHex a && isHex b && isHex c && isHex d then
      (lexString cs).map fun r => ('\\' :: 'u' :: a :: b :: c :: d :: r.1, r.2)
    else none
  | '\\' :: e :: cs =>
    if isEscape e then (lexString cs).map fun r => ('\\' :: e :: r.1, r.2) else none
  | c :: cs => if isPlain c then (lexString cs).map fun r => (c :: r.1, r.2) else none

/-- The inside of a string, as it may be written. -/
def rawOk : List Char → Bool
  | [] => true
  | '\\' :: 'u' :: a :: b :: c :: d :: cs =>
    isHex a && isHex b && isHex c && isHex d && rawOk cs
  | '\\' :: e :: cs => isEscape e && rawOk cs
  | c :: cs => isPlain c && rawOk cs

/-- A well-formed literal with its closing quote is lexed as that literal, whatever comes behind. -/
theorem lexString_append {raw : List Char} (h : rawOk raw = true) (rest : List Char) :
    lexString (raw ++ '"' :: rest) = some (raw, rest) := by
  fun_induction rawOk raw with
  | case1 => simp [lexString]
  | case2 a b c d cs ih =>
    simp only [Bool.and_eq_true] at h
    simp [lexString, h, ih h.2]
  | case3 e cs hne ih =>
    simp only [Bool.and_eq_true] at h
    have hu : e ≠ 'u' := by rintro rfl; exact absurd h.1 (by decide)
    rw [List.cons_append, List.cons_append, lexString]
    · simp [h, ih h.2]
    · intro a b c d cs' he _
      exact hu he
  | case4 c cs h1 h2 ih =>
    simp only [Bool.and_eq_true] at h
    have hq : c ≠ '"' := by rintro rfl; exact absurd h.1 (by decide)
    have hb : c ≠ '\\' := by rintro rfl; exact absurd h.1 (by decide)
    rw [List.cons_append, lexString]
    · simp [h, ih h.2]
    all_goals simp [hq, hb]

/-- What the lexer accepts is a well-formed literal and its closing quote. -/
theorem lexString_spec {cs : List Char} : ∀ {raw rest : List Char},
    lexString cs = some (raw, rest) → rawOk raw = true ∧ cs = raw ++ '"' :: rest := by
  fun_induction lexString cs with
  | case1 => intro raw rest h; cases h
  | case2 cs =>
    intro raw rest h
    simp only [Option.some.injEq, Prod.mk.injEq] at h
    obtain ⟨rfl, rfl⟩ := h
    exact ⟨rfl, rfl⟩
  | case3 a b c d cs hhex ih =>
    intro raw rest h
    obtain ⟨r, hr, he⟩ := Option.map_eq_some_iff.mp h
    simp only [Prod.mk.injEq] at he
    obtain ⟨rfl, rfl⟩ := he
    obtain ⟨h1, h2⟩ := ih hr
    simp only [Bool.and_eq_true] at hhex
    exact ⟨by simp [rawOk, hhex, h1], by rw [h2]; rfl⟩
  | case4 => intro raw rest h; cases h
  | case5 e cs hne hesc ih =>
    intro raw rest h
    obtain ⟨r, hr, he⟩ := Option.map_eq_some_iff.mp h
    simp only [Prod.mk.injEq] at he
    obtain ⟨rfl, rfl⟩ := he
    obtain ⟨h1, h2⟩ := ih hr
    have hu : e ≠ 'u' := by rintro rfl; exact absurd hesc (by decide)
    refine ⟨?_, by rw [h2]; rfl⟩
    rw [rawOk]
    · simp [hesc, h1]
    · intro a b c d cs' he _
      exact hu he
  | case6 => intro raw rest h; cases h
  | case7 c cs h1 h2 h3 hplain ih =>
    intro raw rest h
    obtain ⟨r, hr, he⟩ := Option.map_eq_some_iff.mp h
    simp only [Prod.mk.injEq] at he
    obtain ⟨rfl, rfl⟩ := he
    obtain ⟨h4, h5⟩ := ih hr
    have hb : c ≠ '\\' := by rintro rfl; exact absurd hplain (by decide)
    refine ⟨?_, by rw [h5]; rfl⟩
    rw [rawOk]
    · simp [hplain, h4]
    all_goals simp [hb]
  | case8 => intro raw rest h; cases h

/-- The characters a number literal is made of. -/
def isNumChar (c : Char) : Bool :=
  c.isDigit || c == '-' || c == '+' || c == '.' || c == 'e' || c == 'E'

/-- One or more digits. -/
def isDigits (cs : List Char) : Bool := !cs.isEmpty && cs.all Char.isDigit

/-- An exponent: nothing, or `e` with an optional sign and digits. -/
def isExponent : List Char → Bool
  | [] => true
  | e :: s :: cs =>
    (e == 'e' || e == 'E') && (if s == '+' || s == '-' then isDigits cs else isDigits (s :: cs))
  | _ => false

/-- A fraction and an exponent, each of which may be missing. -/
def isFraction (cs : List Char) : Bool :=
  match cs with
  | '.' :: ds =>
    isDigits (ds.takeWhile Char.isDigit) && isExponent (ds.dropWhile Char.isDigit)
  | _ => isExponent cs

/-- An integer part without superfluous zeros, then a fraction and an exponent. -/
def isUnsigned : List Char → Bool
  | '0' :: cs => isFraction cs
  | c :: cs => c.isDigit && isFraction (cs.dropWhile Char.isDigit)
  | [] => false

/-- A JSON number literal. -/
def isNumber (cs : List Char) : Bool :=
  cs.all isNumChar && (match cs with
    | '-' :: ds => isUnsigned ds
    | _ => isUnsigned cs)

/-- The number literal at the front of a text.  No character that may follow a value is a
number character, so the literal is the longest run of them. -/
def lexNumber (cs : List Char) : Option (List Char × List Char) :=
  if isNumber (cs.takeWhile isNumChar) then
    some (cs.takeWhile isNumChar, cs.dropWhile isNumChar)
  else none

/-- The text goes on with something that cannot extend a number. -/
def Follow (rest : List Char) : Prop := ∀ c ∈ rest.head?, isNumChar c = false

/-- A number is lexed as it is printed when what follows does not continue it (`Follow`): the lexer
takes the longest run of number characters. -/
theorem lexNumber_append {lit rest : List Char} (h : isNumber lit = true) (hf : Follow rest) :
    lexNumber (lit ++ rest) = some (lit, rest) := by
  have hall : ∀ c ∈ lit, isNumChar c = true := by
    simp only [isNumber, Bool.and_eq_true, List.all_eq_true] at h
    exact h.1
  have htake : rest.takeWhile isNumChar = [] := by
    cases rest with
    | nil => rfl
    | cons c cs =>
      have : isNumChar c = false := hf c rfl
      simp [this]
  have hdrop : rest.dropWhile isNumChar = rest := by
    cases rest with
    | nil => rfl
    | cons c cs =>
      have : isNumChar c = false := hf c rfl
      simp [this]
  have h1 : (lit ++ rest).takeWhile isNumChar = lit := by
    rw [List.takeWhile_append_of_pos hall, htake, List.append_nil]
  have h2 : (lit ++ rest).dropWhile isNumChar = rest := by
    rw [List.dropWhile_append_of_pos hall, hdrop]
  rw [lexNumber, h1, h2, if_pos h]

/-! ## 2. Trees, their compact text, and the parser

The lists of elements and members are types of their own and not `List Value`, so that every
function over a tree is structurally recursive and evaluates. -/

mutual

/-- A JSON value.  Strings and numbers are kept as written. -/
inductive Value where
  | null
  | bool (b : Bool)
  | num (lit : List Char)
  | str (raw : List Char)
  | arr (es : Elems)
  | obj (ms : Members)

/-- The elements of an array. -/
inductive Elems where
  | nil
  | cons (v : Value) (es : Elems)

/-- The members of an object, in the order written. -/
inductive Members where
  | nil
  | cons (key : List Char) (v : Value) (ms : Members)

end

mutual

/-- The compact text of a value. -/
def print : Value → List Char
  | .null => ['n', 'u', 'l', 'l']
  | .bool true => ['t', 'r', 'u', 'e']
  | .bool false => ['f', 'a', 'l', 's', 'e']
  | .num lit => lit
  | .str raw => '"' :: (raw ++ ['"'])
  | .arr .nil => ['[', ']']
  | .arr (.cons v es) => '[' :: printElems (.cons v es)
  | .obj .nil => ['{', '}']
  | .obj (.cons k v ms) => '{' :: printMembers (.cons k v ms)

/-- The elements with their separators and the closing bracket. -/
def printElems : Elems → List Char
  | .nil => []
  | .cons v .nil => print v ++ [']']
  | .cons v (.cons w es) => print v ++ ',' :: printElems (.cons w es)

/-- The members with their separators and the closing brace. -/
def printMembers : Members → List Char
  | .nil => []
  | .cons k v .nil => '"' :: (k ++ '"' :: ':' :: (print v ++ ['}']))
  | .cons k v (.cons k' v' ms) =>
    '"' :: (k ++ '"' :: ':' :: (print v ++ ',' :: printMembers (.cons k' v' ms)))

end

mutual

/-- Every literal of the tree can be written. -/
def Value.wf : Value → Bool
  | .null | .bool _ => true
  | .num lit => isNumber lit
  | .str raw => rawOk raw
  | .arr es => es.wf
  | .obj ms => ms.wf

def Elems.wf : Elems → Bool
  | .nil => true
  | .cons v es => v.wf && es.wf

def Members.wf : Members → Bool
  | .nil => true
  | .cons k v ms => rawOk k && v.wf && ms.wf

end

mutual

/-- Parse one value; the text after it is returned.  `n` bounds the nesting of the calls. -/
def parseValue : Nat → List Char → Option (Value × List Char)
  | 0, _ => none
  | n + 1, cs =>
    match skipWs cs with
    | '{' :: cs =>
      match skipWs cs with
      | '}' :: rest => some (.obj .nil, rest)
      | cs => (parseMembers n cs).map fun r => (.obj r.1, r.2)
    | '[' :: cs =>
      match skipWs cs with
      | ']' :: rest => some (.arr .nil, rest)
      | cs => (parseElems n cs).map fun r => (.arr r.1, r.2)
    | '"' :: cs => (lexString cs).map fun r => (.str r.1, r.2)
    | 'n' :: 'u' :: 'l' :: 'l' :: rest => some (.null, rest)
    | 't' :: 'r' :: 'u' :: 'e' :: rest => some (.bool true, rest)
    | 'f' :: 'a' :: 'l' :: 's' :: 'e' :: rest => some (.bool false, rest)
    | cs => (lexNumber cs).map fun r => (.num r.1, r.2)

/-- Parse one or more elements and the closing bracket. -/
def parseElems : Nat → List Char → Option (Elems × List Char)
  | 0, _ => none
  | n + 1, cs =>
    (parseValue n cs).bind fun r =>
      match skipWs r.2 with
      | ']' :: rest => some (.cons r.1 .nil, rest)
      | ',' :: rest => (parseElems n rest).map fun q => (.cons r.1 q.1, q.2)
      | _ => none

/-- Parse one or more members and the closing brace. -/
def parseMembers : Nat → List Char → Option (Members × List Char)
  | 0, _ => none
  | n + 1, cs =>
    match skipWs cs with
    | '"' :: cs =>
      (lexString cs).bind fun k =>
        match skipWs k.2 with
        | ':' :: cs =>
          (parseValue n cs).bind fun r =>
            match skipWs r.2 with
            | '}' :: rest => some (.cons k.1 r.1 .nil, rest)
            | ',' :: rest => (parseMembers n rest).map fun q => (.cons k.1 r.1 q.1, q.2)
            | _ => none
        | _ => none
    | _ => none

end

/-- How deep the scanner follows arrays and objects. -/
def maxDepth : Nat := 10000

mutual

/-- How deep the arrays and objects of a value are nested. -/
def Value.depth : Value → Nat
  | .null | .bool _ | .num _ | .str _ => 0
  | .arr es => es.depth + 1
  | .obj ms => ms.depth + 1

def Elems.depth : Elems → Nat
  | .nil => 0
  | .cons v es => max v.depth es.depth

def Members.depth : Members → Nat
  | .nil => 0
  | .cons _ v ms => max v.depth ms.depth

end

/-- The first value of a text and what follows it. -/
def parseFirst (cs : List Char) : Option (Value × List Char) :=
  (parseValue (2 * cs.length + 2) cs).bind fun r =>
    if r.1.depth ≤ maxDepth then some r else none

/-- The one value of a text. -/
def parse (cs : List Char) : Option Value :=
  (parseFirst cs).bind fun r => if skipWs r.2 = [] then some r.1 else none

/-- The text is one JSON value. -/
def valid (cs : List Char) : Bool := (parse cs).isSome

/-! ## 3. The compact text parses back

The induction is over the tree, with the fuel and the rest of the text general: a parser calls
itself on what is left, and the rest is where the next separator stands. -/

mutual

/-- How many nested calls the parser needs. -/
def Value.size : Value → Nat
  | .null | .bool _ | .num _ | .str _ => 1
  | .arr es => es.size + 1
  | .obj ms => ms.size + 1

def Elems.size : Elems → Nat
  | .nil => 0
  | .cons v es => v.size + es.size + 1

def Members.size : Members → Nat
  | .nil => 0
  | .cons _ v ms => v.size + ms.size + 1

end

theorem follow_cons {c : Char} (h : isNumChar c = false) (rest : List Char) :
    Follow (c :: rest) := by
  intro d hd
  simp only [List.head?_cons, Option.mem_some_iff] at hd
  exact hd ▸ h

theorem follow_nil : Follow [] := by
  intro d hd
  cases hd

theorem skipWs_cons {c : Char} (h : isWs c = false) (cs : List Char) :
    skipWs (c :: cs) = c :: cs := by
  simp [skipWs, h]

/-- A number literal starts with a digit or a minus sign. -/
theorem isNumber_head {lit : List Char} (h : isNumber lit = true) :
    ∃ c cs, lit = c :: cs ∧ (c = '-' ∨ c.isDigit = true) := by
  cases lit with
  | nil => exact absurd h (by decide)
  | cons c cs =>
    refine ⟨c, cs, rfl, ?_⟩
    by_cases hm : c = '-'
    · exact Or.inl hm
    · right
      simp only [isNumber, Bool.and_eq_true] at h
      have hu : isUnsigned (c :: cs) = true := by
        have := h.2
        split at this
        · rename_i heq
          exact absurd (List.cons.inj heq).1 hm
        · exact this
      by_cases hz : c = '0'
      · subst hz; decide
      · rw [isUnsigned] at hu
        · simp only [Bool.and_eq_true] at hu
          exact hu.1
        · simp [hz]

/-- A number is not taken for any of the other values: none of them starts like it. -/
theorem parseValue_number {n : Nat} {lit rest : List Char} (h : isNumber lit = true)
    (hf : Follow rest) : parseValue (n + 1) (lit ++ rest) = some (.num lit, rest) := by
  obtain ⟨c, cs, rfl, hc⟩ := isNumber_head h
  have hw : isWs c = false := by
    rcases hc with rfl | hc
    · decide
    · simp only [isWs, Bool.or_eq_false_iff, beq_eq_false_iff_ne]
      refine ⟨⟨⟨?_, ?_⟩, ?_⟩, ?_⟩ <;> (rintro rfl; exact absurd hc (by decide))
  have hne : ∀ d : Char, d.isDigit = false → d ≠ '-' → c ≠ d := by
    intro d hd hm he
    subst he
    rcases hc with hc | hc
    · exact hm hc
    · rw [hd] at hc; cases hc
  have hlex := lexNumber_append h hf
  rw [parseValue, List.cons_append, skipWs_cons hw]
  split <;> rename_i heq
  · exact absurd (List.cons.inj heq).1 (hne _ (by decide) (by decide))
  · exact absurd (List.cons.inj heq).1 (hne _ (by decide) (by decide))
  · exact absurd (List.cons.inj heq).1 (hne _ (by decide) (by decide))
  · exact absurd (List.cons.inj heq).1 (hne _ (by decide) (by decide))
  · exact absurd (List.cons.inj heq).1 (hne _ (by decide) (by decide))
  · exact absurd (List.cons.inj heq).1 (hne _ (by decide) (by decide))
  · rw [← List.cons_append, hlex]
    rfl

theorem parseValue_string {n : Nat} {raw : List Char} (h : rawOk raw = true)
    (rest : List Char) : parseValue (n + 1) ('"' :: (raw ++ '"' :: rest)) =
      some (.str raw, rest) := by
  rw [parseValue, skipWs_cons (by decide)]
  simp [lexString_append h rest]

/-- A printed value starts with a character that is neither white space nor a closing bracket, so
the parser of a list can tell an element from the end. -/
theorem print_head (v : Value) (hv : v.wf = true) :
    ∃ c cs, print v = c :: cs ∧ isWs c = false ∧ c ≠ ']' ∧ c ≠ '}' := by
  cases v with
  | null => exact ⟨_, _, rfl, by decide, by decide, by decide⟩
  | bool b => cases b <;> exact ⟨_, _, rfl, by decide, by decide, by decide⟩
  | num lit =>
    obtain ⟨c, cs, rfl, hc⟩ := isNumber_head hv
    refine ⟨c, cs, rfl, ?_, ?_, ?_⟩
    · rcases hc with rfl | hc
      · decide
      · simp only [isWs, Bool.or_eq_false_iff, beq_eq_false_iff_ne]
        refine ⟨⟨⟨?_, ?_⟩, ?_⟩, ?_⟩ <;> (rintro rfl; exact absurd hc (by decide))
    all_goals (rintro rfl; rcases hc with hc | hc <;> exact absurd hc (by decide))
  | str raw => exact ⟨_, _, rfl, by decide, by decide, by decide⟩
  | arr es => cases es <;> exact ⟨_, _, rfl, by decide, by decide, by decide⟩
  | obj ms => cases ms <;> exact ⟨_, _, rfl, by decide, by decide, by decide⟩

mutual

/-- **The compact text of a value parses back to it**, whatever follows.  By induction over the
tree, together with the same statements about elements and members.  What follows matters for a
number only, whose literal could otherwise go on: behind it stands a bracket, a comma or the end,
and none of these is part of a number. -/
theorem parseValue_print : ∀ (v : Value), v.wf = true → ∀ (n : Nat) (rest : List Char),
    v.size ≤ n → Follow rest → parseValue n (print v ++ rest) = some (v, rest)
  | v, hwf, 0, rest, hn, _ => by cases v <;> simp [Value.size] at hn
  | .null, _, n + 1, rest, _, _ => by
    rw [parseValue]
    rfl
  | .bool true, _, n + 1, rest, _, _ => by
    rw [parseValue]
    rfl
  | .bool false, _, n + 1, rest, _, _ => by
    rw [parseValue]
    rfl
  | .num lit, hwf, n + 1, rest, _, hf => parseValue_number hwf hf
  | .str raw, hwf, n + 1, rest, _, _ => by
    have := parseValue_string (n := n) hwf rest
    simpa [print] using this
  | .arr .nil, _, n + 1, rest, _, _ => by
    rw [parseValue]
    rfl
  | .arr (.cons v es), hwf, n + 1, rest, hn, _ => by
    have hs : (Elems.cons v es).size ≤ n := by simp only [Value.size] at hn; omega
    have hrec := parseElems_print v es hwf n rest hs
    have hv : v.wf = true := by
      simp only [Value.wf, Elems.wf, Bool.and_eq_true] at hwf
      exact hwf.1
    obtain ⟨c, cs, hp, hw, hb, _⟩ := print_head v hv
    obtain ⟨cs', hp'⟩ : ∃ cs', printElems (.cons v es) = c :: cs' := by
      cases es <;> exact ⟨_, by rw [printElems, hp]; rfl⟩
    rw [parseValue, print, List.cons_append, skipWs_cons (by decide)]
    simp only
    rw [hp'] at hrec ⊢
    rw [List.cons_append, skipWs_cons hw]
    split
    · rename_i heq
      exact absurd (List.cons.inj heq).1 hb
    · rw [← List.cons_append, hrec]
      rfl
  | .obj .nil, _, n + 1, rest, _, _ => by
    rw [parseValue]
    rfl
  | .obj (.cons k v ms), hwf, n + 1, rest, hn, _ => by
    have hs : (Members.cons k v ms).size ≤ n := by simp only [Value.size] at hn; omega
    have hrec := parseMembers_print k v ms hwf n rest hs
    obtain ⟨cs', hp'⟩ : ∃ cs', printMembers (.cons k v ms) = '"' :: cs' := by
      cases ms <;> exact ⟨_, by rw [printMembers]⟩
    rw [parseValue, print, List.cons_append, skipWs_cons (by decide)]
    simp only
    rw [hp'] at hrec ⊢
    rw [List.cons_append, skipWs_cons (by decide)]
    split
    · rename_i heq
      exact absurd (List.cons.inj heq).1 (by decide)
    · rw [← List.cons_append, hrec]
      rfl

/-- Printed elements read back, with fuel for their size. -/
theorem parseElems_print : ∀ (v : Value) (es : Elems), (Elems.cons v es).wf = true →
    ∀ (n : Nat) (rest : List Char), (Elems.cons v es).size ≤ n →
    parseElems n (printElems (.cons v es) ++ rest) = some (.cons v es, rest)
  | v, es, _, 0, _, hn => by simp [Elems.size] at hn
  | v, .nil, hwf, n + 1, rest, hn => by
    have hv : v.wf = true := by
      simp only [Elems.wf, Bool.and_eq_true] at hwf
      exact hwf.1
    have hs : v.size ≤ n := by simp only [Elems.size] at hn; omega
    have hrec := parseValue_print v hv n (']' :: rest) hs (follow_cons (by decide) rest)
    rw [parseElems, printElems, List.append_assoc, List.singleton_append, hrec,
      Option.bind_some]
    simp only
    rw [skipWs_cons (by decide)]
    rfl
  | v, .cons w es, hwf, n + 1, rest, hn => by
    have hw : v.wf = true ∧ (Elems.cons w es).wf = true := by
      rw [Elems.wf, Bool.and_eq_true] at hwf
      exact hwf
    have hs : v.size ≤ n ∧ (Elems.cons w es).size ≤ n := by
      rw [Elems.size] at hn
      omega
    have hrec := parseValue_print v hw.1 n (',' :: (printElems (.cons w es) ++ rest)) hs.1
      (follow_cons (by decide) _)
    have htail := parseElems_print w es hw.2 n rest hs.2
    rw [parseElems, printElems, List.append_assoc, List.cons_append, hrec, Option.bind_some]
    simp only
    rw [skipWs_cons (by decide)]
    simp only
    rw [htail]
    rfl

/-- Printed members read back, with fuel for their size. -/
theorem parseMembers_print : ∀ (k : List Char) (v : Value) (ms : Members),
    (Members.cons k v ms).wf = true → ∀ (n : Nat) (rest : List Char),
    (Members.cons k v ms).size ≤ n →
    parseMembers n (printMembers (.cons k v ms) ++ rest) = some (.cons k v ms, rest)
  | k, v, ms, _, 0, _, hn => by simp [Members.size] at hn
  | k, v, .nil, hwf, n + 1, rest, hn => by
    have hw : rawOk k = true ∧ v.wf = true := by
      simp only [Members.wf, Bool.and_eq_true] at hwf
      exact hwf.1
    have hs : v.size ≤ n := by simp only [Members.size] at hn; omega
    have hrec := parseValue_print v hw.2 n ('}' :: rest) hs (follow_cons (by decide) rest)
    have hlex := lexString_append hw.1 (':' :: (print v ++ '}' :: rest))
    have htext : printMembers (.cons k v .nil) ++ rest =
        '"' :: (k ++ '"' :: ':' :: (print v ++ '}' :: rest)) := by
      simp [printMembers]
    rw [parseMembers, htext, skipWs_cons (by decide)]
    simp only
    rw [hlex, Option.bind_some]
    simp only
    rw [skipWs_cons (by decide)]
    simp only
    rw [hrec, Option.bind_some]
    simp only
    rw [skipWs_cons (by decide)]
    rfl
  | k, v, .cons k' v' ms, hwf, n + 1, rest, hn => by
    have hw : (rawOk k = true ∧ v.wf = true) ∧ (Members.cons k' v' ms).wf = true := by
      rw [Members.wf, Bool.and_eq_true, Bool.and_eq_true] at hwf
      exact hwf
    have hs : v.size ≤ n ∧ (Members.cons k' v' ms).size ≤ n := by
      rw [Members.size] at hn
      omega
    have hrec := parseValue_print v hw.1.2 n (',' :: (printMembers (.cons k' v' ms) ++ rest))
      hs.1 (follow_cons (by decide) _)
    have htail := parseMembers_print k' v' ms hw.2 n rest hs.2
    have hlex := lexString_append hw.1.1
      (':' :: (print v ++ ',' :: (printMembers (.cons k' v' ms) ++ rest)))
    have htext : printMembers (.cons k v (.cons k' v' ms)) ++ rest =
        '"' ::
        (k ++ '"' :: ':' :: (print v ++ ',' :: (printMembers (.cons k' v' ms) ++ rest))) := by
      simp [printMembers]
    rw [parseMembers, htext, skipWs_cons (by decide)]
    simp only
    rw [hlex, Option.bind_some]
    simp only
    rw [skipWs_cons (by decide)]
    simp only
    rw [hrec, Option.bind_some]
    simp only
    rw [skipWs_cons (by decide)]
    simp only
    rw [htail]
    rfl

end

mutual

/-- The fuel `parse` starts with is enough. -/
theorem Value.size_le : ∀ (v : Value), v.wf = true → v.size ≤ 2 * (print v).length
  | .null, _ => by simp [Value.size, print]
  | .bool true, _ => by simp [Value.size, print]
  | .bool false, _ => by simp [Value.size, print]
  | .num lit, hwf => by
    obtain ⟨c, cs, rfl, _⟩ := isNumber_head hwf
    simp only [Value.size, print, List.length_cons]
    omega
  | .str raw, _ => by
    simp only [Value.size, print, List.length_cons, List.length_append]
    omega
  | .arr .nil, _ => by simp [Value.size, Elems.size, print]
  | .arr (.cons v es), hwf => by
    have := Elems.size_le (.cons v es) hwf
    rw [Value.size, print, List.length_cons]
    omega
  | .obj .nil, _ => by simp [Value.size, Members.size, print]
  | .obj (.cons k v ms), hwf => by
    have := Members.size_le (.cons k v ms) hwf
    rw [Value.size, print, List.length_cons]
    omega

theorem Elems.size_le : ∀ (es : Elems), es.wf = true → es.size ≤ 2 * (printElems es).length
  | .nil, _ => by simp [Elems.size]
  | .cons v .nil, hwf => by
    rw [Elems.wf, Bool.and_eq_true] at hwf
    have := Value.size_le v hwf.1
    simp only [Elems.size, printElems, List.length_append, List.length_singleton]
    omega
  | .cons v (.cons w es), hwf => by
    rw [Elems.wf, Bool.and_eq_true] at hwf
    have h1 := Value.size_le v hwf.1
    have h2 := Elems.size_le (.cons w es) hwf.2
    rw [Elems.size, printElems, List.length_append, List.length_cons]
    omega

/-- The length of the text is fuel enough for its members. -/
theorem Members.size_le : ∀ (ms : Members), ms.wf = true →
    ms.size ≤ 2 * (printMembers ms).length
  | .nil, _ => by simp [Members.size]
  | .cons k v .nil, hwf => by
    rw [Members.wf, Bool.and_eq_true, Bool.and_eq_true] at hwf
    have := Value.size_le v hwf.1.2
    simp only [Members.size, printMembers, List.length_cons, List.length_append]
    omega
  | .cons k v (.cons k' v' ms), hwf => by
    rw [Members.wf, Bool.and_eq_true, Bool.and_eq_true] at hwf
    have h1 := Value.size_le v hwf.1.2
    have h2 := Members.size_le (.cons k' v' ms) hwf.2
    rw [Members.size, printMembers]
    simp only [List.length_cons, List.length_append]
    omega

end

/-- The compact text is read as far as the nesting allows it. -/
theorem parse_print_eq {v : Value} (hwf : v.wf = true) :
    parse (print v) = if v.depth ≤ maxDepth then some v else none := by
  have hs : v.size ≤ 2 * (print v).length + 2 := by
    have := Value.size_le v hwf
    omega
  have h := parseValue_print v hwf _ [] hs follow_nil
  rw [List.append_nil] at h
  rw [parse, parseFirst, h, Option.bind_some]
  split
  · rfl
  · rfl

/-- **Round trip.**  The fuel that `parse` starts with is enough for every printed tree, and nothing
is left behind it; only a tree nested too deep is refused. -/
theorem parse_print {v : Value} (hwf : v.wf = true) (hd : v.depth ≤ maxDepth) :
    parse (print v) = some v := by
  rw [parse_print_eq hwf, if_pos hd]

/-! ## 4. Whatever parses is well formed -/

theorem lexNumber_spec {cs lit rest : List Char} (h : lexNumber cs = some (lit, rest)) :
    isNumber lit = true := by
  rw [lexNumber] at h
  split at h
  · rename_i hn
    simp only [Option.some.injEq, Prod.mk.injEq] at h
    exact h.1 ▸ hn
  · cases h

mutual

/-- **What is accepted is well formed.**  By induction on the fuel, with one case for each way a
value can start; only strings and numbers have something to check. -/
theorem parseValue_wf : ∀ (n : Nat) {cs : List Char} {v : Value} {rest : List Char},
    parseValue n cs = some (v, rest) → v.wf = true
  | 0, _, _, _, h => by simp [parseValue] at h
  | n + 1, cs, v, rest, h => by
    rw [parseValue] at h
    split at h
    · split at h
      · simp only [Option.some.injEq, Prod.mk.injEq] at h
        obtain ⟨rfl, rfl⟩ := h
        rfl
      · obtain ⟨r, hr, he⟩ := Option.map_eq_some_iff.mp h
        simp only [Prod.mk.injEq] at he
        obtain ⟨rfl, rfl⟩ := he
        exact parseMembers_wf n hr
    · split at h
      · simp only [Option.some.injEq, Prod.mk.injEq] at h
        obtain ⟨rfl, rfl⟩ := h
        rfl
      · obtain ⟨r, hr, he⟩ := Option.map_eq_some_iff.mp h
        simp only [Prod.mk.injEq] at he
        obtain ⟨rfl, rfl⟩ := he
        exact parseElems_wf n hr
    · obtain ⟨r, hr, he⟩ := Option.map_eq_some_iff.mp h
      simp only [Prod.mk.injEq] at he
      obtain ⟨rfl, rfl⟩ := he
      exact (lexString_spec hr).1
    · simp only [Option.some.injEq, Prod.mk.injEq] at h
      exact h.1 ▸ rfl
    · simp only [Option.some.injEq, Prod.mk.injEq] at h
      exact h.1 ▸ rfl
    · simp only [Option.some.injEq, Prod.mk.injEq] at h
      exact h.1 ▸ rfl
    · obtain ⟨r, hr, he⟩ := Option.map_eq_some_iff.mp h
      simp only [Prod.mk.injEq] at he
      obtain ⟨rfl, rfl⟩ := he
      exact lexNumber_spec hr

/-- The elements that were read are well formed. -/
theorem parseElems_wf : ∀ (n : Nat) {cs : List Char} {es : Elems} {rest : List Char},
    parseElems n cs = some (es, rest) → es.wf = true
  | 0, _, _, _, h => by simp [parseElems] at h
  | n + 1, cs, es, rest, h => by
    rw [parseElems] at h
    obtain ⟨r, hr, h⟩ := Option.bind_eq_some_iff.mp h
    have hv := parseValue_wf n hr
    split at h
    · simp only [Option.some.injEq, Prod.mk.injEq] at h
      rw [← h.1, Elems.wf, hv]
      rfl
    · obtain ⟨q, hq, he⟩ := Option.map_eq_some_iff.mp h
      simp only [Prod.mk.injEq] at he
      rw [← he.1, Elems.wf, hv, parseElems_wf n hq]
      rfl
    · cases h

/-- The members that were read are well formed, keys included. -/
theorem parseMembers_wf : ∀ (n : Nat) {cs : List Char} {ms : Members} {rest : List Char},
    parseMembers n cs = some (ms, rest) → ms.wf = true
  | 0, _, _, _, h => by simp [parseMembers] at h
  | n + 1, cs, ms, rest, h => by
    rw [parseMembers] at h
    split at h
    · obtain ⟨k, hk, h⟩ := Option.bind_eq_some_iff.mp h
      have hkey := (lexString_spec hk).1
      split at h
      · obtain ⟨r, hr, h⟩ := Option.bind_eq_some_iff.mp h
        have hv := parseValue_wf n hr
        split at h
        · simp only [Option.some.injEq, Prod.mk.injEq] at h
          rw [← h.1, Members.wf, hkey, hv]
          rfl
        · obtain ⟨q, hq, he⟩ := Option.map_eq_some_iff.mp h
          simp only [Prod.mk.injEq] at he
          rw [← he.1, Members.wf, hkey, hv, parseMembers_wf n hq]
          rfl
        · cases h
      · cases h
    · cases h

end

theorem parseFirst_spec {cs : List Char} {v : Value} {rest : List Char}
    (h : parseFirst cs = some (v, rest)) : v.wf = true ∧ v.depth ≤ maxDepth := by
  obtain ⟨r, hr, h⟩ := Option.bind_eq_some_iff.mp h
  split at h
  · rename_i hd
    simp only [Option.some.injEq] at h
    subst h
    exact ⟨parseValue_wf _ hr, hd⟩
  · cases h

/-- **Whatever parses is well formed**, and nested no deeper than the scanner follows. -/
theorem parse_spec {cs : List Char} {v : Value} (h : parse cs = some v) :
    v.wf = true ∧ v.depth ≤ maxDepth := by
  obtain ⟨r, hr, h⟩ := Option.bind_eq_some_iff.mp h
  split at h
  · simp only [Option.some.injEq] at h
    subst h
    exact parseFirst_spec hr
  · cases h

/-! ## 5. Rewriting the strings of a tree

Everything the encoder does to a text it is handed is done to its strings.  So well-formedness and
nesting are shown to survive any rewriting that keeps a string writable. -/

mutual

/-- Rewrite every string and every key. -/
def Value.mapStr (f : List Char → List Char) : Value → Value
  | .null => .null
  | .bool b => .bool b
  | .num lit => .num lit
  | .str raw => .str (f raw)
  | .arr es => .arr (es.mapStr f)
  | .obj ms => .obj (ms.mapStr f)

def Elems.mapStr (f : List Char → List Char) : Elems → Elems
  | .nil => .nil
  | .cons v es => .cons (v.mapStr f) (es.mapStr f)

def Members.mapStr (f : List Char → List Char) : Members → Members
  | .nil => .nil
  | .cons k v ms => .cons (f k) (v.mapStr f) (ms.mapStr f)

end

mutual

theorem Value.wf_mapStr {f : List Char → List Char}
    (hf : ∀ raw, rawOk raw = true → rawOk (f raw) = true) :
    ∀ (v : Value), v.wf = true → (v.mapStr f).wf = true
  | .null, h | .bool _, h | .num _, h => h
  | .str raw, h => hf raw h
  | .arr es, h => Elems.wf_mapStr hf es h
  | .obj ms, h => Members.wf_mapStr hf ms h

theorem Elems.wf_mapStr {f : List Char → List Char}
    (hf : ∀ raw, rawOk raw = true → rawOk (f raw) = true) :
    ∀ (es : Elems), es.wf = true → (es.mapStr f).wf = true
  | .nil, h => h
  | .cons v es, h => by
    rw [Elems.wf, Bool.and_eq_true] at h
    rw [Elems.mapStr, Elems.wf, Value.wf_mapStr hf v h.1, Elems.wf_mapStr hf es h.2]
    rfl

theorem Members.wf_mapStr {f : List Char → List Char}
    (hf : ∀ raw, rawOk raw = true → rawOk (f raw) = true) :
    ∀ (ms : Members), ms.wf = true → (ms.mapStr f).wf = true
  | .nil, h => h
  | .cons k v ms, h => by
    rw [Members.wf, Bool.and_eq_true, Bool.and_eq_true] at h
    rw [Members.mapStr, Members.wf, hf k h.1.1, Value.wf_mapStr hf v h.1.2,
      Members.wf_mapStr hf ms h.2]
    rfl

end

mutual

@[simp] theorem Value.depth_mapStr (f : List Char → List Char) :
    ∀ (v : Value), (v.mapStr f).depth = v.depth
  | .null | .bool _ | .num _ | .str _ => rfl
  | .arr es => by rw [Value.mapStr, Value.depth, Value.depth, Elems.depth_mapStr f es]
  | .obj ms => by rw [Value.mapStr, Value.depth, Value.depth, Members.depth_mapStr f ms]

@[simp] theorem Elems.depth_mapStr (f : List Char → List Char) :
    ∀ (es : Elems), (es.mapStr f).depth = es.depth
  | .nil => rfl
  | .cons v es => by
    rw [Elems.mapStr, Elems.depth, Elems.depth, Value.depth_mapStr f v, Elems.depth_mapStr f es]

@[simp] theorem Members.depth_mapStr (f : List Char → List Char) :
    ∀ (ms : Members), (ms.mapStr f).depth = ms.depth
  | .nil => rfl
  | .cons k v ms => by
    rw [Members.mapStr, Members.depth, Members.depth, Value.depth_mapStr f v,
      Members.depth_mapStr f ms]

end

mutual

/-- Every string and key of the tree satisfies `P`. -/
def Value.AllStr (P : List Char → Prop) : Value → Prop
  | .null | .bool _ | .num _ => True
  | .str raw => P raw
  | .arr es => es.AllStr P
  | .obj ms => ms.AllStr P

def Elems.AllStr (P : List Char → Prop) : Elems → Prop
  | .nil => True
  | .cons v es => v.AllStr P ∧ es.AllStr P

def Members.AllStr (P : List Char → Prop) : Members → Prop
  | .nil => True
  | .cons k v ms => P k ∧ v.AllStr P ∧ ms.AllStr P

end

mutual

theorem Value.mapStr_of_allStr {f : List Char → List Char} :
    ∀ (v : Value), v.AllStr (fun raw => f raw = raw) → v.mapStr f = v
  | .null, _ | .bool _, _ | .num _, _ => rfl
  | .str _, h => congrArg Value.str h
  | .arr es, h => congrArg Value.arr (Elems.mapStr_of_allStr es h)
  | .obj ms, h => congrArg Value.obj (Members.mapStr_of_allStr ms h)

theorem Elems.mapStr_of_allStr {f : List Char → List Char} :
    ∀ (es : Elems), es.AllStr (fun raw => f raw = raw) → es.mapStr f = es
  | .nil, _ => rfl
  | .cons v es, h => by
    rw [Elems.mapStr, Value.mapStr_of_allStr v h.1, Elems.mapStr_of_allStr es h.2]

theorem Members.mapStr_of_allStr {f : List Char → List Char} :
    ∀ (ms : Members), ms.AllStr (fun raw => f raw = raw) → ms.mapStr f = ms
  | .nil, _ => rfl
  | .cons k v ms, h => by
    rw [Members.mapStr, h.1, Value.mapStr_of_allStr v h.2.1, Members.mapStr_of_allStr ms h.2.2]

end

mutual

theorem Value.allStr_mapStr {f : List Char → List Char} {P : List Char → Prop}
    (hf : ∀ raw, P (f raw)) : ∀ (v : Value), (v.mapStr f).AllStr P
  | .null | .bool _ | .num _ => trivial
  | .str raw => hf raw
  | .arr es => Elems.allStr_mapStr hf es
  | .obj ms => Members.allStr_mapStr hf ms

theorem Elems.allStr_mapStr {f : List Char → List Char} {P : List Char → Prop}
    (hf : ∀ raw, P (f raw)) : ∀ (es : Elems), (es.mapStr f).AllStr P
  | .nil => trivial
  | .cons v es => ⟨Value.allStr_mapStr hf v, Elems.allStr_mapStr hf es⟩

theorem Members.allStr_mapStr {f : List Char → List Char} {P : List Char → Prop}
    (hf : ∀ raw, P (f raw)) : ∀ (ms : Members), (ms.mapStr f).AllStr P
  | .nil => trivial
  | .cons k v ms => ⟨hf k, Value.allStr_mapStr hf v, Members.allStr_mapStr hf ms⟩

end

/-! ## 6. Compaction

The characters that are escaped do not occur in escapes, so a second compaction finds nothing left
to escape. -/

/-- The characters the encoder never writes bare. -/
def isHtml (c : Char) : Bool :=
  c == '<' || c == '>' || c == '&' || c == '\u2028' || c == '\u2029'

/-- The escape the encoder writes for them. -/
def htmlEscape (c : Char) : List Char :=
  if c == '<' then ['\\', 'u', '0', '0', '3', 'c']
  else if c == '>' then ['\\', 'u', '0', '0', '3', 'e']
  else if c == '&' then ['\\', 'u', '0', '0', '2', '6']
  else if c == '\u2028' then ['\\', 'u', '2', '0', '2', '8']
  else if c == '\u2029' then ['\\', 'u', '2', '0', '2', '9']
  else [c]

/-- Escape them in the inside of a string. -/
def escapeHtml (raw : List Char) : List Char := raw.flatMap htmlEscape

theorem htmlEscape_plain {c : Char} (h : isHtml c = false) : htmlEscape c = [c] := by
  simp only [isHtml, Bool.or_eq_false_iff] at h
  obtain ⟨⟨⟨⟨h1, h2⟩, h3⟩, h4⟩, h5⟩ := h
  rw [htmlEscape, h1, h2, h3, h4, h5]
  rfl

theorem escapeHtml_of_clean {raw : List Char} (h : raw.all (fun c => !isHtml c) = true) :
    escapeHtml raw = raw := by
  induction raw with
  | nil => rfl
  | cons c cs ih =>
    simp only [List.all_cons, Bool.and_eq_true, Bool.not_eq_true'] at h
    rw [escapeHtml, List.flatMap_cons, htmlEscape_plain h.1]
    exact congrArg (c :: ·) (ih h.2)

theorem htmlEscape_clean (c : Char) : (htmlEscape c).all (fun d => !isHtml d) = true := by
  by_cases h : isHtml c = true
  · simp only [isHtml, Bool.or_eq_true, beq_iff_eq] at h
    rcases h with (((rfl | rfl) | rfl) | rfl) | rfl <;> decide
  · rw [htmlEscape_plain (by simpa using h)]
    simpa using h

theorem escapeHtml_clean (raw : List Char) :
    (escapeHtml raw).all (fun c => !isHtml c) = true := by
  rw [escapeHtml, List.all_flatMap, List.all_eq_true]
  exact fun c _ => htmlEscape_clean c

theorem isHex_not_html {c : Char} (h : isHex c = true) : isHtml c = false := by
  by_contra hc
  simp only [Bool.not_eq_false, isHtml, Bool.or_eq_true, beq_iff_eq] at hc
  rcases hc with (((rfl | rfl) | rfl) | rfl) | rfl <;> exact absurd h (by decide)

theorem isEscape_not_html {c : Char} (h : isEscape c = true) : isHtml c = false := by
  by_contra hc
  simp only [Bool.not_eq_false, isHtml, Bool.or_eq_true, beq_iff_eq] at hc
  rcases hc with (((rfl | rfl) | rfl) | rfl) | rfl <;> exact absurd h (by decide)

theorem rawOk_escape {e : Char} {cs : List Char} (h : isEscape e = true) :
    rawOk ('\\' :: e :: cs) = rawOk cs := by
  have hu : e ≠ 'u' := by rintro rfl; exact absurd h (by decide)
  rw [rawOk]
  · simp [h]
  · intro a b c d cs' he _
    exact hu he

theorem rawOk_plain {c : Char} {cs : List Char} (h : isPlain c = true) :
    rawOk (c :: cs) = rawOk cs := by
  have hb : c ≠ '\\' := by rintro rfl; exact absurd h (by decide)
  rw [rawOk]
  · simp [h]
  all_goals simp [hb]

theorem rawOk_htmlEscape {c : Char} {cs : List Char} (h : isPlain c = true) :
    rawOk (htmlEscape c ++ cs) = rawOk cs := by
  by_cases hc : isHtml c = true
  · simp only [isHtml, Bool.or_eq_true, beq_iff_eq] at hc
    rcases hc with (((rfl | rfl) | rfl) | rfl) | rfl <;> rfl
  · rw [htmlEscape_plain (by simpa using hc)]
    exact rawOk_plain h

/-- Escaping the characters of HTML keeps a literal well formed: none of them is part of an
escape. -/
theorem rawOk_escapeHtml {raw : List Char} (h : rawOk raw = true) :
    rawOk (escapeHtml raw) = true := by
  fun_induction rawOk raw with
  | case1 => rfl
  | case2 a b c d cs ih =>
    simp only [Bool.and_eq_true] at h
    have hx : escapeHtml ('\\' :: 'u' :: a :: b :: c :: d :: cs) =
        '\\' :: 'u' :: a :: b :: c :: d :: escapeHtml cs := by
      simp only [escapeHtml, List.flatMap_cons, htmlEscape_plain (isHex_not_html h.1.1.1.1),
        htmlEscape_plain (isHex_not_html h.1.1.1.2), htmlEscape_plain (isHex_not_html h.1.1.2),
        htmlEscape_plain (isHex_not_html h.1.2)]
      rfl
    rw [hx, rawOk]
    simp [h, ih h.2]
  | case3 e cs hne ih =>
    simp only [Bool.and_eq_true] at h
    have hx : escapeHtml ('\\' :: e :: cs) = '\\' :: e :: escapeHtml cs := by
      simp only [escapeHtml, List.flatMap_cons, htmlEscape_plain (isEscape_not_html h.1)]
      rfl
    rw [hx, rawOk_escape h.1]
    exact ih h.2
  | case4 c cs h1 h2 ih =>
    simp only [Bool.and_eq_true] at h
    rw [escapeHtml, List.flatMap_cons, rawOk_htmlEscape h.1]
    exact ih h.2

/-- The text the encoder writes for a text it is handed: the value without insignificant
whitespace and with HTML characters escaped. -/
def compact (cs : List Char) : List Char :=
  match parse cs with
  | some v => print (v.mapStr escapeHtml)
  | none => cs

/-- A compacted text parses to the tree with its strings rewritten. -/
theorem parse_compact {cs : List Char} {v : Value} (h : parse cs = some v) :
    parse (compact cs) = some (v.mapStr escapeHtml) := by
  obtain ⟨hwf, hd⟩ := parse_spec h
  rw [compact, h]
  exact parse_print (Value.wf_mapStr (fun _ => rawOk_escapeHtml) v hwf) (by simpa using hd)

/-- **Compaction keeps validity.**  The compact text of a value is one value by the round trip; and
a text that is not one value is left as it is. -/
theorem valid_compact (cs : List Char) : valid (compact cs) = valid cs := by
  cases h : parse cs with
  | none => rw [compact, h]
  | some v => rw [valid, valid, parse_compact h, h]; rfl

/-- **Compaction is idempotent.**  The second time the strings are clean, and `escapeHtml` leaves a
clean string alone. -/
theorem compact_compact (cs : List Char) : compact (compact cs) = compact cs := by
  cases h : parse cs with
  | none =>
    have hc : compact cs = cs := by rw [compact, h]
    rw [hc, hc]
  | some v =>
    have hfix : (v.mapStr escapeHtml).mapStr escapeHtml = v.mapStr escapeHtml :=
      Value.mapStr_of_allStr _ (Value.allStr_mapStr (f := escapeHtml)
        (fun raw => escapeHtml_of_clean (escapeHtml_clean raw)) v)
    have hc : compact cs = print (v.mapStr escapeHtml) := by rw [compact, h]
    rw [compact, parse_compact h]
    simp only
    rw [hfix, hc]

/-- How deep the value of a text is nested. -/
def depth (cs : List Char) : Nat := ((parse cs).map Value.depth).getD 0

@[simp] theorem depth_compact (cs : List Char) : depth (compact cs) = depth cs := by
  cases h : parse cs with
  | none => rw [compact, h]
  | some v => simp [depth, parse_compact h, h]

/-! ## 7. Decoding strings and the canonical text

The encoder sorts keys by their code points and writes a member once.  Of several members with one
key the decoder keeps the last, which `insertNew` does from the back. -/

/-- The value of a hexadecimal digit. -/
def hexVal (c : Char) : Nat :=
  if c.isDigit then c.toNat - '0'.toNat
  else if 'a' ≤ c then c.toNat - 'a'.toNat + 10
  else c.toNat - 'A'.toNat + 10

/-- The code unit four hexadecimal digits spell. -/
def hex4 (a b c d : Char) : Nat :=
  ((hexVal a * 16 + hexVal b) * 16 + hexVal c) * 16 + hexVal d

/-- The character a short escape stands for. -/
def unescape (e : Char) : Char :=
  if e == 'b' then '\x08'
  else if e == 'f' then '\x0c'
  else if e == 'n' then '\n'
  else if e == 'r' then '\r'
  else if e == 't' then '\t'
  else e

/-- The text a string stands for.  A surrogate that is not half of a pair decodes to the
replacement character. -/
def unquote : List Char → List Char
  | [] => []
  | '\\' :: 'u' :: a :: b :: c :: d :: cs =>
    if 0xD800 ≤ hex4 a b c d && hex4 a b c d < 0xE000 then
      match cs with
      | '\\' :: 'u' :: a' :: b' :: c' :: d' :: cs' =>
        if hex4 a b c d < 0xDC00 && 0xDC00 ≤ hex4 a' b' c' d' && hex4 a' b' c' d' < 0xE000 then
          Char.ofNat (0x10000 + (hex4 a b c d - 0xD800) * 0x400 + (hex4 a' b' c' d' - 0xDC00)) ::
            unquote cs'
        else '\uFFFD' :: unquote ('\\' :: 'u' :: a' :: b' :: c' :: d' :: cs')
      | cs => '\uFFFD' :: unquote cs
    else Char.ofNat (hex4 a b c d) :: unquote cs
  | '\\' :: e :: cs => unescape e :: unquote cs
  | c :: cs => c :: unquote cs

/-- A lower-case hexadecimal digit. -/
def hexDigit (n : Nat) : Char :=
  if n < 10 then Char.ofNat ('0'.toNat + n) else Char.ofNat ('a'.toNat + (n - 10))

/-- One character as the encoder writes it. -/
def quoteChar (c : Char) : List Char :=
  if c == '"' then ['\\', '"']
  else if c == '\\' then ['\\', '\\']
  else if c == '\x08' then ['\\', 'b']
  else if c == '\x0c' then ['\\', 'f']
  else if c == '\n' then ['\\', 'n']
  else if c == '\r' then ['\\', 'r']
  else if c == '\t' then ['\\', 't']
  else if c < ' ' then ['\\', 'u', '0', '0', hexDigit (c.toNat / 16), hexDigit (c.toNat % 16)]
  else htmlEscape c

/-- The inside of the string the encoder writes for a text. -/
def quote (cs : List Char) : List Char := cs.flatMap quoteChar

theorem toNat_lt_of_control {c : Char} (h : c < ' ') : c.toNat < 32 :=
  UInt32.lt_iff_toNat_lt.mp h

theorem isHex_hexDigit {n : Nat} (h : n < 16) : isHex (hexDigit n) = true := by
  have : ∀ m : Fin 16, isHex (hexDigit m) = true := by decide
  exact this ⟨n, h⟩

/-- A quoted character is a well-formed piece of a literal. -/
theorem rawOk_quoteChar (c : Char) (cs : List Char) :
    rawOk (quoteChar c ++ cs) = rawOk cs := by
  unfold quoteChar
  split_ifs with h1 h2 h3 h4 h5 h6 h7 h8
  · exact rawOk_escape (by decide)
  · exact rawOk_escape (by decide)
  · exact rawOk_escape (by decide)
  · exact rawOk_escape (by decide)
  · exact rawOk_escape (by decide)
  · exact rawOk_escape (by decide)
  · exact rawOk_escape (by decide)
  · have hn := toNat_lt_of_control h8
    have hd1 : isHex (hexDigit (c.toNat / 16)) = true := isHex_hexDigit (by omega)
    have hd2 : isHex (hexDigit (c.toNat % 16)) = true := isHex_hexDigit (by omega)
    have hz : isHex '0' = true := by decide
    simp only [List.cons_append, List.nil_append, rawOk, hd1, hd2, hz, Bool.and_self,
      Bool.true_and]
  · refine rawOk_htmlEscape ?_
    simp only [beq_iff_eq] at h1 h2
    simp only [isPlain, Bool.and_eq_true, bne_iff_ne, decide_eq_true_eq]
    exact ⟨⟨h1, h2⟩, Char.not_lt.mp h8⟩

theorem rawOk_quote (cs : List Char) : rawOk (quote cs) = true := by
  induction cs with
  | nil => rfl
  | cons c cs ih =>
    rw [quote, List.flatMap_cons, rawOk_quoteChar]
    exact ih

theorem quoteChar_clean (c : Char) : (quoteChar c).all (fun d => !isHtml d) = true := by
  unfold quoteChar
  split_ifs with h1 h2 h3 h4 h5 h6 h7 h8
  all_goals first
    | decide
    | exact htmlEscape_clean c
    | skip
  have hn := toNat_lt_of_control h8
  have hd1 := isHex_not_html (isHex_hexDigit (n := c.toNat / 16) (by omega))
  have hd2 := isHex_not_html (isHex_hexDigit (n := c.toNat % 16) (by omega))
  simp only [List.all_cons, hd1, hd2]
  decide

theorem escapeHtml_quote (cs : List Char) : escapeHtml (quote cs) = quote cs := by
  refine escapeHtml_of_clean ?_
  rw [quote, List.all_flatMap, List.all_eq_true]
  exact fun c _ => quoteChar_clean c

/-- Texts in the order of their code points. -/
def ltText : List Char → List Char → Bool
  | _, [] => false
  | [], _ :: _ => true
  | c :: cs, d :: ds => c.toNat < d.toNat || (c == d && ltText cs ds)

/-- Put a member into sorted members, unless its key is there already. -/
def Members.insertNew (k : List Char) (v : Value) : Members → Members
  | .nil => .cons k v .nil
  | .cons k' v' ms =>
    if k == k' then .cons k' v' ms
    else if ltText k k' then .cons k v (.cons k' v' ms)
    else .cons k' v' (ms.insertNew k v)

mutual

/-- Decode the strings of a value and sort the members of its objects; of several members with
one key the last is kept. -/
def Value.decode : Value → Value
  | .null => .null
  | .bool b => .bool b
  | .num lit => .num lit
  | .str raw => .str (unquote raw)
  | .arr es => .arr es.decode
  | .obj ms => .obj ms.decode

def Elems.decode : Elems → Elems
  | .nil => .nil
  | .cons v es => .cons v.decode es.decode

def Members.decode : Members → Members
  | .nil => .nil
  | .cons k v ms => ms.decode.insertNew (unquote k) v.decode

end

/-- The canonical tree of a value. -/
def Value.canonical (v : Value) : Value := v.decode.mapStr quote

theorem Members.wf_insertNew {k : List Char} {v : Value} {ms : Members}
    (hv : (v.mapStr quote).wf = true) (hms : (ms.mapStr quote).wf = true) :
    ((ms.insertNew k v).mapStr quote).wf = true := by
  fun_induction Members.insertNew k v ms with
  | case1 => simp [Members.mapStr, Members.wf, rawOk_quote, hv]
  | case2 => exact hms
  | case3 => simp_all [Members.mapStr, Members.wf, rawOk_quote]
  | case4 k' v' ms h1 h2 ih => simp_all [Members.mapStr, Members.wf, rawOk_quote]

theorem Members.depth_insertNew (k : List Char) (v : Value) (ms : Members) :
    (ms.insertNew k v).depth ≤ max v.depth ms.depth := by
  fun_induction Members.insertNew k v ms with
  | case1 => exact le_rfl
  | case2 => exact le_max_right _ _
  | case3 => exact le_rfl
  | case4 k' v' ms h1 h2 ih =>
    simp only [Members.depth]
    omega

mutual

theorem Value.wf_canonical : ∀ (v : Value), v.wf = true → (v.decode.mapStr quote).wf = true
  | .null, h | .bool _, h | .num _, h => h
  | .str _, _ => rawOk_quote _
  | .arr es, h => Elems.wf_canonical es h
  | .obj ms, h => Members.wf_canonical ms h

theorem Elems.wf_canonical : ∀ (es : Elems), es.wf = true → (es.decode.mapStr quote).wf = true
  | .nil, h => h
  | .cons v es, h => by
    rw [Elems.wf, Bool.and_eq_true] at h
    rw [Elems.decode, Elems.mapStr, Elems.wf, Value.wf_canonical v h.1,
      Elems.wf_canonical es h.2]
    rfl

theorem Members.wf_canonical : ∀ (ms : Members), ms.wf = true →
    (ms.decode.mapStr quote).wf = true
  | .nil, h => h
  | .cons k v ms, h => by
    rw [Members.wf, Bool.and_eq_true, Bool.and_eq_true] at h
    exact Members.wf_insertNew (Value.wf_canonical v h.1.2) (Members.wf_canonical ms h.2)

end

mutual

theorem Value.depth_decode : ∀ (v : Value), v.decode.depth ≤ v.depth
  | .null | .bool _ | .num _ | .str _ => le_rfl
  | .arr es => Nat.succ_le_succ (Elems.depth_decode es)
  | .obj ms => Nat.succ_le_succ (Members.depth_decode ms)

theorem Elems.depth_decode : ∀ (es : Elems), es.decode.depth ≤ es.depth
  | .nil => le_rfl
  | .cons v es => max_le_max (Value.depth_decode v) (Elems.depth_decode es)

theorem Members.depth_decode : ∀ (ms : Members), ms.decode.depth ≤ ms.depth
  | .nil => le_rfl
  | .cons _ v ms =>
    (Members.depth_insertNew _ _ _).trans
      (max_le_max (Value.depth_decode v) (Members.depth_decode ms))

end

/-- **A canonical text is what the encoder leaves as it is.**  It is compact, and the encoder's own
spelling of a string has none of the characters that compaction escapes. -/
theorem compact_canonical {v : Value} (hwf : v.wf = true) (hd : v.depth ≤ maxDepth) :
    compact (print v.canonical) = print v.canonical := by
  have hd' : v.canonical.depth ≤ maxDepth := by
    rw [Value.canonical, Value.depth_mapStr]
    exact (Value.depth_decode v).trans hd
  have hp : parse (print v.canonical) = some v.canonical :=
    parse_print (Value.wf_canonical v hwf) hd'
  have hfix : v.canonical.mapStr escapeHtml = v.canonical :=
    Value.mapStr_of_allStr _ (Value.allStr_mapStr (f := quote) escapeHtml_quote v.decode)
  rw [compact, hp]
  simp only
  rw [hfix]

/-- Decode the first value of a text, which must be an object, and encode it again. -/
def canonicalObject (cs : List Char) : Option (List Char) :=
  match parseFirst cs with
  | some (.obj ms, _) => some (print (Value.obj ms).canonical)
  | _ => none

theorem compact_canonicalObject {cs out : List Char} (h : canonicalObject cs = some out) :
    compact out = out := by
  rw [canonicalObject] at h
  split at h
  · rename_i ms rest hp
    simp only [Option.some.injEq] at h
    subst h
    exact compact_canonical (parseFirst_spec hp).1 (parseFirst_spec hp).2
  · cases h

/-! ## 8. Reading values into typed fields -/

/-- A decimal integer literal without fraction or exponent, in `lo..hi`. -/
def readInt (lo hi : Int) (lit : List Char) : Option Int :=
  let digits (ds : List Char) : Nat := ds.foldl (fun n c => n * 10 + (c.toNat - '0'.toNat)) 0
  let bounded (n : Int) : Option Int := if lo ≤ n && n ≤ hi then some n else none
  match lit with
  | '-' :: ds => if isDigits ds then bounded (-(digits ds : Int)) else none
  | ds => if isDigits ds then bounded (digits ds : Int) else none

/-- A literal read as a 64-bit signed integer. -/
def readInt64 (lit : List Char) : Option Int := readInt (-(2 ^ 63)) (2 ^ 63 - 1) lit

/-- A literal read as a 64-bit unsigned integer; it has no sign. -/
def readUint64 (lit : List Char) : Option Nat :=
  if lit.head? = some '-' then none else (readInt 0 (2 ^ 64 - 1) lit).map Int.toNat

/-- The literal is within the range of a 64-bit float: it rounds to a finite number. -/
def isFinite (lit : List Char) : Bool :=
  let digits (ds : List Char) : Nat := ds.foldl (fun n c => n * 10 + (c.toNat - '0'.toNat)) 0
  let body := lit.dropWhile (· == '-')
  let whole := body.takeWhile Char.isDigit
  let afterWhole := body.dropWhile Char.isDigit
  let fraction := if afterWhole.head? = some '.' then
    (afterWhole.drop 1).takeWhile Char.isDigit else []
  let afterFraction := if afterWhole.head? = some '.' then
    (afterWhole.drop 1).dropWhile Char.isDigit else afterWhole
  let exponent : Int := match afterFraction with
    | _ :: '-' :: ds => -(digits ds : Int)
    | _ :: '+' :: ds => (digits ds : Int)
    | _ :: ds => (digits ds : Int)
    | [] => 0
  let mantissa := digits (whole ++ fraction)
  let e := exponent - fraction.length
  let limit := 2 ^ 1024 - 2 ^ 970
  if 0 ≤ e then mantissa * 10 ^ (min e.toNat 400) < limit
  else (whole ++ fraction).length < (-e).toNat || mantissa < limit * 10 ^ (-e).toNat

end Lib.Json
