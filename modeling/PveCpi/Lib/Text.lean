/-
# Texts as Go's `strings` and `unicode` read them

A text is a `String`, a sequence of code points.  The functions below are those of the standard
library that decide something about a text: white space, trimming, splitting, searching and the
length in bytes.

Positions, where the source has them, are not modelled: a text is cut where a pattern occurs, and
the parts are lists.  `byteLen` is the only function that sees the encoding, since Go's `len` counts
bytes.  The functions on lists are over any type of letters and are used on bytes and on characters
alike; what is proved about them is in `Lib.Tokens` and `Lib.Occurs`.
-/
import Mathlib

namespace Lib.Text

/-- `len` of a Go string. -/
def byteLen (s : String) : Nat := (s.toList.map fun c => (String.utf8EncodeChar c).length).sum

/-- `unicode.IsSpace`. -/
def isSpace (c : Char) : Bool :=
  c == '\t' || c == '\n' || c == '\x0b' || c == '\x0c' || c == '\r' || c == ' ' ||
  c == '\u0085' || c == '\u00a0' || c == '\u1680' || ('\u2000' ≤ c && c ≤ '\u200a') ||
  c == '\u2028' || c == '\u2029' || c == '\u202f' || c == '\u205f' || c == '\u3000'

/-- Something is left after trimming space. -/
def nonblank (s : String) : Bool := s.toList.any fun c => !isSpace c

/-- Drop the elements that satisfy `p` at both ends. -/
def trimList {α : Type} (p : α → Bool) (l : List α) : List α :=
  ((l.dropWhile p).reverse.dropWhile p).reverse

/-- `strings.TrimSpace`. -/
def trimSpace (s : String) : String := String.ofList (trimList isSpace s.toList)

/-- `strings.Fields`: the runs of characters between white space. -/
def fields (s : String) : List String :=
  ((s.toList.splitOnP isSpace).filter fun f => !f.isEmpty).map String.ofList

/-- The parts before and after the first occurrence of `sep`. -/
def cutList {α : Type} [BEq α] (sep : List α) : List α → Option (List α × List α)
  | [] => if sep.isEmpty then some ([], []) else none
  | c :: cs =>
    if sep.isPrefixOf (c :: cs) then some ([], (c :: cs).drop sep.length)
    else (cutList sep cs).map fun r => (c :: r.1, r.2)

/-- `strings.Contains`. -/
def contains (s sub : String) : Bool := (cutList sub.toList s.toList).isSome

/-- `strings.Replace` with a count of one. -/
def replaceFirst (s old new : String) : String :=
  match cutList old.toList s.toList with
  | none => s
  | some (before, after) => String.ofList (before ++ new.toList ++ after)

/-- `strings.HasPrefix`. -/
def hasPrefix (s pre : String) : Bool := pre.toList.isPrefixOf s.toList

/-- `strings.CutPrefix`, as an option. -/
def cutPrefix (s pre : String) : Option String :=
  if hasPrefix s pre then some (String.ofList (s.toList.drop pre.toList.length)) else none

/-- A property of every letter of a fixed text, as a check that runs. -/
theorem forall_of_all {α : Type} {P : α → Prop} [DecidablePred P] {l : List α}
    (h : (l.all fun c => decide (P c)) = true) : ∀ c ∈ l, P c := by
  simpa using h

end Lib.Text
