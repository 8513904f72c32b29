/-
# VM CIDs

`vmcid/vmcid.go`: the Director knows a VM by its VMID, or by its VMID with a cluster stamp and a
token of the VM behind it, `123-0a1b2c3d-4e5f6a7b`.  A string names a VM in one way only: `Parse`
takes what `String` returns, and nothing else (`parse_canonical`).

Strings are byte strings, and an `int` has 64 bits.

A CID is compared as a string by the Director and as a number by the CPI.  If one VM had two names,
the Director could keep two records of it; if one name stood for two VMs, a delete could hit the
wrong one.  `parse_canonical` excludes both: `Parse` is injective, and its inverse is `String`.

The grammar is strict by refusing: leading zeros, a sign, upper-case digits and a second dash are
all errors.  Each of these refusals is needed for the inverse law, and nothing else is.
-/
import PveCpi.Lib.Decimal

namespace Vmcid

open Lib.Decimal

/-! ## 1. The model -/

/-- A Go string. -/
abbrev Str := List UInt8

def dash : UInt8 := 45

def stampLen : Nat := 8

/-- `VMCID`. -/
structure VMCID where
  vmid : Int64
  cluster : Str := []
  token : Str := []
deriving DecidableEq

inductive ParseError
  | empty
  | vmidEmpty
  | notDigits
  | leadingZero
  | outOfRange
  | notPositive
  | badStamp
  | malformed
deriving DecidableEq

/-- `strconv.Itoa`. -/
def itoa (n : Int64) : Str := formatInt n.toInt

/-- `strconv.Atoi`. -/
def atoi (s : Str) : Option Int64 := (parseInt s).map Int64.ofInt

/-- `parseVMID`. -/
def parseVMID (s : Str) : Except ParseError Int64 :=
  match s with
  | [] => .error .vmidEmpty
  | first :: _ =>
    if !s.all isDigit then .error .notDigits
    else if first = 48 then .error .leadingZero
    else
      match atoi s with
      | none => .error .outOfRange
      | some n => if n ≤ 0 then .error .notPositive else .ok n

def isHexDigit (b : UInt8) : Bool :=
  isDigit b || (decide (97 ≤ b.toNat) && decide (b.toNat ≤ 102))

/-- `IsStamp`. -/
def isStamp (s : Str) : Bool := decide (s.length = stampLen) && s.all isHexDigit

/-- `Parse`. -/
def parse (raw : Str) : Except ParseError VMCID :=
  if raw = [] then .error .empty
  else
    match raw.splitOn dash with
    | [vmid] => do
      let vmid ← parseVMID vmid
      return { vmid }
    | [vmid, cluster, token] => do
      let vmid ← parseVMID vmid
      if !isStamp cluster || !isStamp token then throw .badStamp
      else return { vmid, cluster, token }
    | _ => .error .malformed

/-- `VMID`. -/
def vmidOf (raw : Str) : Option Int64 := (parse raw).toOption.map VMCID.vmid

namespace VMCID

/-- `PathID`. -/
def pathID (c : VMCID) : Str := itoa c.vmid

/-- `Stamped`. -/
def stamped (c : VMCID) : Bool := decide (c.cluster ≠ []) || decide (c.token ≠ [])

/-- `String`. -/
def string (c : VMCID) : Str :=
  if !c.stamped then c.pathID else c.pathID ++ dash :: (c.cluster ++ dash :: c.token)

/-- The fields of a CID that `Parse` returns. -/
structure WellFormed (c : VMCID) : Prop where
  positive : 0 < c.vmid
  stamps : (c.cluster = [] ∧ c.token = []) ∨ (isStamp c.cluster = true ∧ isStamp c.token = true)

end VMCID

/-- `Stamp`. -/
def stamp (vmid : Int64) (cluster token : Str) : Except ParseError VMCID :=
  if vmid ≤ 0 then .error .notPositive
  else if !isStamp cluster || !isStamp token then .error .badStamp
  else .ok { vmid, cluster, token }

/-! ## 2. VMIDs

A number that is parsed prints as itself, because leading zeros are refused. -/

/-- What `parseVMID` returns is positive, and prints as what it was read from. -/
theorem parseVMID_ok {s : Str} {n : Int64} (h : parseVMID s = .ok n) : 0 < n ∧ itoa n = s := by
  unfold parseVMID at h
  split at h
  · cases h
  · rename_i first rest
    split_ifs at h with hdigits hzero
    have hall : ∀ d ∈ first :: rest, isDigit d = true := by simpa using hdigits
    split at h
    · cases h
    · rename_i m hatoi
      split_ifs at h with hpos
      cases h
      obtain ⟨z, hparse, rfl⟩ := Option.map_eq_some_iff.mp hatoi
      rw [parseInt_of_digits hall, Option.filter_eq_some_iff] at hparse
      obtain ⟨hvalue, hrange⟩ := hparse
      have hdig : parseDigits (first :: rest) = some (number (first :: rest) : Int) := by
        have hall' : (first :: rest).all isDigit = true := List.all_eq_true.mpr hall
        rw [parseDigits, hall']
        rfl
      rw [hdig, Option.some.injEq] at hvalue
      rw [Bool.and_eq_true, decide_eq_true_eq, decide_eq_true_eq] at hrange
      have hback : (Int64.ofInt z).toInt = z := Int64.toInt_ofInt_of_le hrange.1 hrange.2
      refine ⟨Int64.not_le.mp hpos, ?_⟩
      have hneg : ¬ z < 0 := by omega
      have habs : z.natAbs = number (first :: rest) := by omega
      rw [itoa, hback, formatInt, if_neg hneg, habs, digits_number hall hzero]

/-- The digits of a positive number do not start with a zero. -/
theorem head_digits {n : Nat} (hn : 0 < n) {b : UInt8} {s : Str} (h : digits n = b :: s) :
    b ≠ 48 := by
  rintro rfl
  rw [digits, if_neg (by omega)] at h
  have hne : Nat.digits 10 n ≠ [] := Nat.digits_ne_nil_iff_ne_zero.mpr (by omega)
  have hlast := Nat.getLast_digit_ne_zero 10 (m := n) (by omega)
  have hrev : (Nat.digits 10 n).map digitOf = s.reverse ++ [48] := by
    rw [← List.reverse_reverse ((Nat.digits 10 n).map digitOf), h, List.reverse_cons]
  have hdigit : digitOf ((Nat.digits 10 n).getLast hne) = 48 := by
    rw [← List.getLast_map (f := digitOf) (h := by simpa using hne)]
    simp only [hrev, List.getLast_append_singleton]
  have hlt : (Nat.digits 10 n).getLast hne < 10 :=
    Nat.digits_lt_base (by decide) (List.getLast_mem hne)
  have hvalue := digitValue_digitOf hlt
  rw [hdigit] at hvalue
  exact hlast hvalue.symm

/-- A positive VMID is read as it was printed. -/
theorem parseVMID_itoa {n : Int64} (hn : 0 < n) : parseVMID (itoa n) = .ok n := by
  have hpos : 0 < n.toInt := Int64.lt_iff_toInt_lt.mp hn
  have hitoa : itoa n = digits n.toInt.natAbs := by rw [itoa, formatInt, if_neg (by omega)]
  have hatoi : atoi (itoa n) = some n := by
    rw [atoi, itoa, parseInt_formatInt n.le_toInt n.toInt_lt, Option.map_some, Int64.ofInt_toInt]
  unfold parseVMID
  split
  · rename_i hnil
    exact absurd (hitoa.symm.trans hnil) (digits_ne_nil _)
  · rename_i first rest hcons
    have hall : (itoa n).all isDigit = true := by
      rw [hitoa]
      exact List.all_eq_true.mpr fun d hd => isDigit_of_mem_digits hd
    have hzero : first ≠ 48 := head_digits (by omega) (hitoa.symm.trans hcons)
    rw [hall, hatoi, if_neg (by simp), if_neg hzero]
    exact if_neg (Int64.not_le.mpr hn)

/-! ## 3. CIDs

A dash is no digit, so the parts are found again. -/

theorem ne_nil_of_isStamp {s : Str} (h : isStamp s = true) : s ≠ [] := by
  rintro rfl
  exact absurd h (by decide)

/-- A digit, plain or hexadecimal, is no dash. -/
theorem dash_notMem {s : Str} (h : ∀ b ∈ s, isHexDigit b = true) : dash ∉ s :=
  fun hmem => absurd (h dash hmem) (by decide)

theorem dash_notMem_stamp {s : Str} (h : isStamp s = true) : dash ∉ s := by
  rw [isStamp, Bool.and_eq_true, List.all_eq_true] at h
  exact dash_notMem h.2

theorem dash_notMem_itoa {n : Int64} (hn : 0 < n) : dash ∉ itoa n := by
  have hpos : 0 < n.toInt := Int64.lt_iff_toInt_lt.mp hn
  refine dash_notMem fun b hb => ?_
  rw [itoa, formatInt, if_neg (by omega)] at hb
  rw [isHexDigit, isDigit_of_mem_digits hb, Bool.true_or]

theorem intercalate_one (s : Str) : [dash].intercalate [s] = s := by
  simp [List.intercalate]

theorem string_bare (vmid : Int64) : VMCID.string { vmid } = itoa vmid := rfl

theorem string_stamped {vmid : Int64} {cluster token : Str} (h : cluster ≠ []) :
    VMCID.string { vmid, cluster, token } = [dash].intercalate [itoa vmid, cluster, token] := by
  have hstamped : VMCID.stamped { vmid, cluster, token } = true := by
    simp [VMCID.stamped, h]
  rw [VMCID.string, hstamped]
  simp [VMCID.pathID, List.intercalate, List.intersperse]

/-- **What is parsed is well formed and prints as what it was parsed from.** -/
theorem parse_ok {s : Str} {c : VMCID} (h : parse s = .ok c) : c.WellFormed ∧ c.string = s := by
  unfold parse at h
  split_ifs at h with hempty
  have hjoin : [dash].intercalate (s.splitOn dash) = s := List.intercalate_splitOn dash
  split at h
  · rename_i vmid hsplit
    rw [hsplit] at hjoin
    cases hvmid : parseVMID vmid with
    | error err =>
      rw [hvmid] at h
      cases h
    | ok n =>
      rw [hvmid] at h
      cases h
      obtain ⟨hpos, hprint⟩ := parseVMID_ok hvmid
      refine ⟨⟨hpos, .inl ⟨rfl, rfl⟩⟩, ?_⟩
      rw [string_bare, hprint, ← hjoin, intercalate_one]
  · rename_i vmid cluster token hsplit
    rw [hsplit] at hjoin
    cases hvmid : parseVMID vmid with
    | error err =>
      rw [hvmid] at h
      cases h
    | ok n =>
      rw [hvmid] at h
      obtain ⟨hpos, hprint⟩ := parseVMID_ok hvmid
      by_cases hstamps : (!isStamp cluster || !isStamp token) = true
      · simp only [Except.bind, bind, hstamps, if_true] at h
        cases h
      · simp only [Except.bind, bind, hstamps] at h
        cases h
        have hboth : isStamp cluster = true ∧ isStamp token = true := by simpa using hstamps
        refine ⟨⟨hpos, .inr hboth⟩, ?_⟩
        rw [string_stamped (ne_nil_of_isStamp hboth.1), hprint]
        exact hjoin
  · cases h

/-- **A well-formed CID is parsed as it was printed.** -/
theorem parse_string {c : VMCID} (h : c.WellFormed) : parse c.string = .ok c := by
  obtain ⟨vmid, cluster, token⟩ := c
  have hvmid := parseVMID_itoa h.positive
  have hdash := dash_notMem_itoa h.positive
  have hne : itoa vmid ≠ [] := by
    intro hnil
    rw [show itoa vmid = [] from hnil] at hvmid
    cases hvmid
  rcases h.stamps with ⟨hcluster, htoken⟩ | ⟨hcluster, htoken⟩
  · obtain rfl : cluster = [] := hcluster
    obtain rfl : token = [] := htoken
    have hsplit : (itoa vmid).splitOn dash = [itoa vmid] := by
      have hpart : ∀ part ∈ [itoa vmid], dash ∉ part := by simpa using hdash
      have hone := List.splitOn_intercalate dash hpart (by simp)
      rwa [intercalate_one] at hone
    rw [string_bare, parse, if_neg hne, hsplit]
    simp only [hvmid]
    rfl
  · have hparts : ∀ part ∈ [itoa vmid, cluster, token], dash ∉ part := by
      simp only [List.forall_mem_cons, List.not_mem_nil, false_implies, implies_true, and_true]
      exact ⟨hdash, dash_notMem_stamp hcluster, dash_notMem_stamp htoken⟩
    have hsplit := List.splitOn_intercalate dash hparts (by simp)
    have hne' : [dash].intercalate [itoa vmid, cluster, token] ≠ [] := by
      simp [List.intercalate, List.intersperse]
    have hstamps : (!isStamp cluster || !isStamp token) = false := by
      rw [show isStamp cluster = true from hcluster, show isStamp token = true from htoken]
      rfl
    rw [string_stamped (ne_nil_of_isStamp hcluster), parse, if_neg hne', hsplit]
    simp only [hvmid, hstamps]
    rfl

theorem stamp_wellFormed {vmid : Int64} {cluster token : Str} {c : VMCID}
    (h : stamp vmid cluster token = .ok c) : c.WellFormed := by
  unfold stamp at h
  split_ifs at h with hpos hstamps
  cases h
  exact ⟨Int64.not_le.mp hpos, .inr (by simpa using hstamps)⟩

/-- **VM CIDs have one form.**  `Parse` and `String` are inverse to each other on what `Parse`
returns, what `Stamp` returns and every bare positive VMID, and no two strings name one CID.
`parse_ok` is one direction and `parse_string` the other; that no two strings name one CID follows
from the first alone. -/
theorem parse_canonical :
    (∀ s c, parse s = .ok c → c.string = s ∧ 0 < c.vmid ∧
      ((c.cluster = [] ∧ c.token = []) ∨ (isStamp c.cluster = true ∧ isStamp c.token = true))) ∧
    (∀ vmid cluster token c, stamp vmid cluster token = .ok c → parse c.string = .ok c) ∧
    (∀ c : VMCID, 0 < c.vmid → c.cluster = [] → c.token = [] → parse c.string = .ok c) ∧
    ∀ s s' c, parse s = .ok c → parse s' = .ok c → s = s' := by
  refine ⟨fun s c h => ?_, fun vmid cluster token c h => parse_string (stamp_wellFormed h),
    fun c hpos hcluster htoken => parse_string ⟨hpos, .inl ⟨hcluster, htoken⟩⟩, fun s s' c h h' =>
    ?_⟩
  · obtain ⟨hwell, hprint⟩ := parse_ok h
    exact ⟨hprint, hwell.positive, hwell.stamps⟩
  · rw [← (parse_ok h).2, (parse_ok h').2]

/-- The CID `7-0a1b2c3d-4e5f6a7b`. -/
def sampleCID : VMCID where
  vmid := 7
  cluster := [48, 97, 49, 98, 50, 99, 51, 100]
  token := [52, 101, 53, 102, 54, 97, 55, 98]

theorem parse_canonical_stamped :
    sampleCID.string = [55, 45, 48, 97, 49, 98, 50, 99, 51, 100, 45, 52, 101, 53, 102, 54, 97, 55,
      98] := by
  have hparse : parse [55, 45, 48, 97, 49, 98, 50, 99, 51, 100, 45, 52, 101, 53, 102, 54, 97, 55,
      98] = .ok sampleCID := by
    rfl
  exact (parse_canonical.1 _ _ hparse).1

end Vmcid
