/-
# Values decoded without a type

A decoder that is given no type makes a tree of its own from a JSON value: strings are what they
stand for, a number is what a parser makes of its literal, and an object is a map, in which the last
member of a name counts.  A literal that is out of the parser's range fails the whole value.

The maps are kept sorted by name, without a name twice, so that two values say the same when their
trees are equal.  A decoder that keeps the members of an object as texts finds, under every name, a
text that is decoded as the tree has it (`lookup_entriesOf`).

A number is left to a parameter, because the source decodes the same text in two ways, to floats and
to literals.  The result is an inductive type of its own: with `List` and `AList` inside it the
recursion would not be structural, and no decoded value could be evaluated.

The second half is about code that decodes in two rounds, first the members as texts and then one of
them.  Both rounds see a name twice in the same order, so they agree on which member counts.
-/
import PveCpi.Lib.JsonSpan
import PveCpi.Lib.Assoc
import Mathlib.Data.List.Lex
import Mathlib.Order.RelClasses

namespace Lib.Json

open Lib.Assoc (lastOf putAll lookup_putAll)

mutual

/-- A decoded value. -/
inductive Any (N : Type) where
  | null : Any N
  | bool : Bool → Any N
  | num : N → Any N
  | str : List Char → Any N
  | arr : AnyElems N → Any N
  | obj : AnyMembers N → Any N
deriving DecidableEq

inductive AnyElems (N : Type) where
  | nil : AnyElems N
  | cons : Any N → AnyElems N → AnyElems N
deriving DecidableEq

inductive AnyMembers (N : Type) where
  | nil : AnyMembers N
  | cons : List Char → Any N → AnyMembers N → AnyMembers N
deriving DecidableEq

end

variable {N : Type}

/-- The map with the value under the name. -/
def AnyMembers.put (k : List Char) (v : Any N) : AnyMembers N → AnyMembers N
  | .nil => .cons k v .nil
  | .cons k' v' ms =>
    if k = k' then .cons k v ms else if k < k' then .cons k v (.cons k' v' ms)
      else .cons k' v' (ms.put k v)

def AnyMembers.lookup (k : List Char) : AnyMembers N → Option (Any N)
  | .nil => none
  | .cons k' v ms => if k' = k then some v else ms.lookup k

/-- Putting a member replaces the one with its key and leaves the others. -/
theorem AnyMembers.lookup_put (k k' : List Char) (v : Any N) : ∀ ms : AnyMembers N,
    (ms.put k v).lookup k' = if k = k' then some v else ms.lookup k'
  | .nil => rfl
  | .cons k₀ v₀ ms => by
    rw [AnyMembers.put]
    split
    · rename_i hk
      subst hk
      rw [lookup, lookup]
      split <;> rfl
    · split
      · rfl
      · rename_i hne _
        rw [lookup, lookup, AnyMembers.lookup_put k k' v ms]
        split
        · rename_i hk
          rw [if_neg fun h => hne (h.trans hk.symm)]
        · rfl

mutual

/-- Decode a value, with what a number literal is read as. -/
def Value.toAny (number : List Char → Option N) : Value → Option (Any N)
  | .null => some .null
  | .bool b => some (.bool b)
  | .num lit => (number lit).map .num
  | .str raw => some (.str (unquote raw))
  | .arr es => (es.toAny number).map .arr
  | .obj ms => (ms.toAny number .nil).map .obj

def Elems.toAny (number : List Char → Option N) : Elems → Option (AnyElems N)
  | .nil => some .nil
  | .cons v es => (v.toAny number).bind fun d => (es.toAny number).map fun ds => .cons d ds

/-- Decode the members into a map that is there already. -/
def Members.toAny (number : List Char → Option N) : Members → AnyMembers N → Option (AnyMembers N)
  | .nil, acc => some acc
  | .cons k v ms, acc => (v.toAny number).bind fun d => ms.toAny number (acc.put (unquote k) d)

end

/-- `json.Unmarshal` of a text into a variable without a type. -/
def decodeAny (number : List Char → Option N) (text : List Char) : Option (Any N) :=
  (parse text).bind (Value.toAny number)

/-! ## 2. The members kept as texts

`Spells` relates the texts of the members to their values one by one; the maps on both sides are
built from the front, and at each step they hold the same names. -/

/-- `json.Unmarshal` of an object into a map of texts: the last member of a name counts. -/
def entriesOf (l : List (List Char × List Char)) : AList fun _ : List Char => List Char :=
  putAll ∅ (l.map fun e => (unquote e.1, e.2))

variable {number : List Char → Option N}

/-- Decoding to a map keeps the last member of each key, which is what `lastOf` picks from the
spelled members. -/
theorem lastOf_toAny {l : List (List Char × List Char)} {ms : Members} (h : Spells l ms)
    (k : List Char) : ∀ {start : Option (List Char)} {acc d : AnyMembers N},
      start.map (decodeAny number) = (acc.lookup k).map some → ms.toAny number acc = some d →
        (lastOf k start (l.map fun e => (unquote e.1, e.2))).map (decodeAny number) =
          (d.lookup k).map some := by
  induction h with
  | nil =>
    intro start acc d hstart hd
    cases hd
    exact hstart
  | @cons k₀ t v l ms ht _ ih =>
    intro start acc d hstart hd
    rw [Members.toAny] at hd
    obtain ⟨dv, hdv, hd⟩ := Option.bind_eq_some_iff.mp hd
    have htext : decodeAny number t = some dv := by rw [decodeAny, ht, Option.bind_some, hdv]
    rw [List.map_cons, lastOf, List.foldl_cons]
    refine ih ?_ hd
    rw [AnyMembers.lookup_put]
    split
    · rw [Option.map_some, Option.map_some, htext]
    · exact hstart

/-- **Under every name the map of texts has a text that is decoded as the whole object has it.**  By
induction over the members, with the maps built so far as the accumulators.  A member that comes
again replaces the earlier one in both. -/
theorem lookup_entriesOf {l : List (List Char × List Char)} {ms : Members} (h : Spells l ms)
    {d : AnyMembers N} (hd : ms.toAny number .nil = some d) (k : List Char) :
    ((entriesOf l).lookup k).map (decodeAny number) = (d.lookup k).map some := by
  rw [entriesOf, lookup_putAll]
  exact lastOf_toAny h k rfl hd

end Lib.Json
