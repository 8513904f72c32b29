/-
# The rule writer

`ha/rulewriter.go`: `Apply` takes the HA rules to what a planner asks for, one write at a time, each
from a fresh read; `revert` undoes what it wrote.  A write whose error may hide that it landed is
held, and a read settles it.

Every call of the API, the planner, the lock and the waits are effects.  The service keeps the rules
under their IDs and is as the API documents it: POST creates the given rule, PUT sets the given
fields, clears the fields named in `delete` and keeps the rest, DELETE removes the rule, and a call
that failed may or may not have taken effect.  Resources and nodes travel as values; their rendering
as text is left out, as are the rules' errors, the logging and what `Apply` does after its loop.
The loop of `Apply` is cut after `rounds` rounds; a run of any length is a run for enough rounds.

A read normalizes what the server has: names are trimmed, and a node affinity without a kind is a
positive one.  So the rule that comes back from a read is not, letter by letter, the one that was
sent, and the code compares with `SameRule`.  The model keeps the two apart: the server holds rules
as they were sent, and `readRule` is what a read makes of them.  The hard part of `Revert` is their
relation.

The service is described by `Takes`, what a call does when it takes effect, and `serves`, which adds
that a failed call may have taken effect or not.  `Candid` in `Revert` excludes some of it.
-/
import PveCpi.Lib.Service
import PveCpi.Ha.Feasibility

namespace Ha

open Lib.Interleave
open Lib.Service
open Lib.Text

/-! ## 1. Operations and errors -/

/-- `RuleSet`. -/
structure RuleSet where
  rules : List ListedRule
  digest : String

/-- `RuleSet.Find`. -/
def RuleSet.find (set : RuleSet) (id : String) : Option ListedRule :=
  set.rules.find? fun r => decide (r.id = id)

inductive OpKind
  | create | update | delete
  deriving DecidableEq

/-- `RuleOp`.  For a delete only the ID counts. -/
structure RuleOp where
  kind : OpKind
  rule : ListedRule

/-- An error of a call: its text, and what `pve.IsNotFound`, `pve.IsAnsweredConfigRefusal` and
`pve.IsVMConfigLocked` say about it. -/
structure RuleErr where
  text : String
  notFound : Bool := false
  answeredRefusal : Bool := false
  configLocked : Bool := false
  deriving DecidableEq

def RuleErr.says (e : RuleErr) (part : String) : Bool :=
  (cutList part.toList (toLower e.text)).isSome

def isDigestConflict (e : RuleErr) : Bool :=
  e.says "detected modified configuration" || e.says "file changed by other user"

def isRuleNotFound (e : RuleErr) : Bool :=
  e.notFound || e.says "no such" || e.says "does not exist" || e.says "not defined"

def isRuleAlreadyDefined (e : RuleErr) : Bool := e.says "already defined" || e.says "already exists"

inductive WriteOutcome
  | landed | conflict | rejected | held
  deriving DecidableEq

/-- `classifyRuleWrite`. -/
def classifyRuleWrite (kind : OpKind) : Option RuleErr → WriteOutcome
  | none => .landed
  | some e =>
    if isDigestConflict e then .conflict
    else if kind = .delete && isRuleNotFound e then .landed
    else if kind = .update && e.notFound then .conflict
    else if kind = .create && isRuleAlreadyDefined e then .held
    else if e.answeredRefusal && !e.configLocked then .rejected
    else .held

/-- `normalizeOp`: the rule in the shape a read returns. -/
def normalizeRule (r : ListedRule) : ListedRule :=
  { r with
    resources := trimmed r.resources
    affinity := if r.type = ruleTypeNodeAffinity ∧ r.affinity = "" then affinityPositive
      else r.affinity
    strict := if r.type ≠ ruleTypeNodeAffinity then false else r.strict
    nodes := if r.type ≠ ruleTypeNodeAffinity then ∅ else r.nodes }

def normalizeOp (op : RuleOp) : RuleOp := { op with rule := normalizeRule op.rule }

/-- `landed`. -/
def landed (op : RuleOp) (fresh : RuleSet) : Bool :=
  match op.kind with
  | .delete => (fresh.find op.rule.id).isNone
  | _ => ((fresh.find op.rule.id).any fun got => sameRule (some op.rule.toRule) (some got.toRule))

/-- `candidateRules`. -/
def candidateRules (set : RuleSet) (op : RuleOp) : List ListedRule :=
  let kept := set.rules.flatMap fun r =>
    if r.id ≠ op.rule.id then [r] else if op.kind ≠ .delete then [op.rule] else []
  let replaced := set.rules.any fun r => decide (r.id = op.rule.id)
  if !replaced && decide (op.kind ≠ .delete) then kept ++ [op.rule] else kept

/-- `IntroducedConflicts`. -/
def introducedConflicts (w : MapOrder) (before candidate : List ListedRule)
    (touched clusterNodes : List String) : List (Sigma fun _ : String => List String) :=
  let was := checkFeasibility w before clusterNodes
  let now := checkFeasibility w candidate clusterNodes
  now.entries.filter fun e => decide (e.1 ∈ touched) || !decide (e.1 ∈ was)

/-! ## 2. Calls -/

/-- `CreateHaRulesParams`. -/
structure CreateParams where
  rule : String
  type : String
  resources : List String
  comment : Option String := none
  disable : Option Bool := none
  nodes : Option (AList fun _ : String => Int) := none
  strict : Option Bool := none
  affinity : Option String := none

/-- `UpdateHaRulesParams`. -/
structure UpdateRuleParams where
  type : String
  resources : List String
  digest : Option String := none
  comment : Option String := none
  disable : Option Bool := none
  nodes : Option (AList fun _ : String => Int) := none
  strict : Option Bool := none
  affinity : Option String := none
  delete : List String := []

inductive RuleCall
  | lock
  | list
  | plan (set : RuleSet)
  | create (p : CreateParams)
  | update (id : String) (p : UpdateRuleParams)
  | delete (id : String)
  | sleep (attempt : Nat)

/-- The answers; a call that returns only an error answers `none` for nil. -/
abbrev RuleCall.Ans : RuleCall → Type
  | .list => Except RuleErr RuleSet
  | .plan _ => Except RuleErr (List RuleOp)
  | _ => Option RuleErr

abbrev RuleProg := Prog RuleCall RuleCall.Ans

/-- `read`. -/
def readRules : RuleProg (Except RuleErr RuleSet) := Prog.perform RuleCall.list

def planWrites (set : RuleSet) : RuleProg (Except RuleErr (List RuleOp)) :=
  Prog.perform (RuleCall.plan set)

/-- `Sleep` before an attempt. -/
def sleepBefore (attempt : Nat) : RuleProg (Option RuleErr) := Prog.perform (RuleCall.sleep attempt)

/-- The POST of `send`. -/
def createParams (r : ListedRule) : CreateParams where
  rule := r.id
  type := r.type
  resources := r.resources
  comment := if r.comment ≠ "" then some r.comment else none
  disable := if r.disabled then some true else none
  nodes := if r.type = ruleTypeNodeAffinity then some r.nodes else none
  strict := if r.type = ruleTypeNodeAffinity then some r.strict else none
  affinity :=
    if r.type = ruleTypeNodeAffinity then if r.affinity = affinityNegative then
      some affinityNegative else none
    else if r.affinity ≠ "" then some r.affinity else none

/-- The PUT of `send`. -/
def updateParams (set : RuleSet) (r : ListedRule) : UpdateRuleParams :=
  let prev := set.find r.id
  { type := r.type
    resources := r.resources
    digest := if set.digest ≠ "" then some set.digest else none
    comment := if r.comment ≠ "" then some r.comment else none
    disable := if r.disabled then some true else none
    nodes := if r.type = ruleTypeNodeAffinity then some r.nodes else none
    strict := if r.type = ruleTypeNodeAffinity then some r.strict else none
    affinity :=
      if r.type = ruleTypeNodeAffinity then
        if r.affinity = affinityNegative ∨
          (prev.any fun p => decide (p.affinity = affinityNegative)) = true then
          some r.affinity
        else none
      else if r.affinity ≠ "" then some r.affinity else none
    delete :=
      (if r.comment = "" ∧ (prev.any fun p => decide (p.comment ≠ "")) = true then ["comment"]
        else []) ++
      (if !r.disabled && (prev.any fun p => p.disabled) then ["disable"] else []) }

/-- `send`. -/
def send (set : RuleSet) (op : RuleOp) : RuleProg (Option RuleErr) :=
  match op.kind with
  | .delete => Prog.perform (RuleCall.delete op.rule.id)
  | .create => Prog.perform (RuleCall.create (createParams op.rule))
  | .update => Prog.perform (RuleCall.update op.rule.id (updateParams set op.rule))

/-! ## 3. `Apply`

Each round reads the rules, asks the planner what is to be done and sends the first operation. -/

def ruleWriterMaxAttempts : Nat := 5

def ruleWriterMaxOps : Nat := 64

/-- The fields of `RuleWriter` that the loop reads. -/
structure RuleWriter where
  order : MapOrder
  clusterNodes : Option (List String)

def RuleWriter.introduced (w : RuleWriter) (before candidate : List ListedRule) (id : String) :
    List (Sigma fun _ : String => List String) :=
  match w.clusterNodes with
  | none => []
  | some nodes => introducedConflicts w.order before candidate [id] nodes

/-- The variables of the loop. -/
structure ApplyState where
  before : Option RuleSet := none
  conflicts : Nat := 0
  misses : Nat := 0
  wrote : List RuleOp := []

/-- Where the loop was left. -/
inductive ApplyEnd
  | lockErr (e : RuleErr)
  | readErr (e : RuleErr)
  | planErr (e : RuleErr)
  | planned
  | notConverged
  | infeasible (id : String)
  | keptChanging (e : RuleErr)
  | sleepErr (e : RuleErr)
  | rejected (e : RuleErr)
  | unreadHeld (e : RuleErr)
  | didNotLand (e : RuleErr)
  | outOfRounds

abbrev ApplyProg := RuleProg (ApplyState × ApplyEnd)

/-- What follows a held write. -/
def settleHeld (st : ApplyState) (op : RuleOp) (sendErr : RuleErr)
    (again : ApplyState → ApplyProg) : ApplyProg := do
  match ← readRules with
  | .error e => pure (st, .unreadHeld e)
  | .ok fresh =>
    if landed op fresh then again { st with wrote := st.wrote ++ [op] }
    else
      let st := { st with misses := st.misses + 1 }
      if st.misses ≥ ruleWriterMaxAttempts then pure (st, .didNotLand sendErr) else again st

/-- What follows a conflict. -/
def backOff (st : ApplyState) (sendErr : RuleErr) (again : ApplyState → ApplyProg) : ApplyProg := do
  let st := { st with conflicts := st.conflicts + 1 }
  if st.conflicts ≥ ruleWriterMaxAttempts then pure (st, .keptChanging sendErr)
  else
    match ← sleepBefore st.conflicts with
    | some e => pure (st, .sleepErr e)
    | none => again st

/-- The first planned write of a round. -/
def writeFirst (w : RuleWriter) (st : ApplyState) (set : RuleSet) (op : RuleOp)
    (again : ApplyState → ApplyProg) : ApplyProg := do
  if (w.introduced set.rules (candidateRules set op) op.rule.id) ≠ [] then
    pure (st, .infeasible op.rule.id)
  else
    match ← send set op with
    | none => again { st with wrote := st.wrote ++ [op] }
    | some sendErr =>
      match classifyRuleWrite op.kind (some sendErr) with
      | .landed => again { st with wrote := st.wrote ++ [op] }
      | .conflict => backOff st sendErr again
      | .rejected => pure (st, .rejected sendErr)
      | .held => settleHeld st op sendErr again

/-- One round of the loop. -/
def applyRound (w : RuleWriter) (st : ApplyState) (again : ApplyState → ApplyProg) : ApplyProg := do
  match ← readRules with
  | .error e => pure (st, .readErr e)
  | .ok set =>
    let st := { st with before := some (st.before.getD set) }
    match ← planWrites set with
    | .error e => pure (st, .planErr e)
    | .ok [] => pure (st, .planned)
    | .ok (op :: _) =>
      if st.wrote.length ≥ ruleWriterMaxOps then pure (st, .notConverged)
      else writeFirst w st set (normalizeOp op) again

def applyLoop (w : RuleWriter) : Nat → ApplyState → ApplyProg
  | 0, st => pure (st, .outOfRounds)
  | rounds + 1, st => applyRound w st (applyLoop w rounds)

/-- `Apply`, up to the end of its loop. -/
def apply (w : RuleWriter) (rounds : Nat) : ApplyProg := do
  let locked : Option RuleErr ← Prog.perform RuleCall.lock
  match locked with
  | some e => pure ({}, .lockErr e)
  | none => applyLoop w rounds {}

/-! ## 4. `revert` -/

/-- One attempt of `writeOnce`; `again` is the next one, if there is one left. -/
def writeAttempt (op : RuleOp) (attempt : Nat) (again : Option (RuleProg (Option RuleErr))) :
    RuleProg (Option RuleErr) := do
  match ← readRules with
  | .error e => pure (some e)
  | .ok set =>
    if landed op set then pure none
    else
      let sendErr ← send set op
      match classifyRuleWrite op.kind sendErr with
      | .landed => pure none
      | .rejected => pure sendErr
      | .conflict =>
        match again with
        | none => pure sendErr
        | some next =>
          match ← sleepBefore attempt with
          | some e => pure (some e)
          | none => next
      | .held =>
        match ← readRules with
        | .error e => pure (some e)
        | .ok fresh => if landed op fresh then pure none else again.getD (pure sendErr)

/-- `writeOnce`, with the attempts that are left after this one. -/
def writeOnceFrom (op : RuleOp) : Nat → RuleProg (Option RuleErr)
  | 0 => writeAttempt op ruleWriterMaxAttempts none
  | left + 1 => writeAttempt op (ruleWriterMaxAttempts - (left + 1)) (some (writeOnceFrom op left))

def writeOnce (op : RuleOp) : RuleProg (Option RuleErr) :=
  writeOnceFrom op (ruleWriterMaxAttempts - 1)

/-- The write that undoes one. -/
def undoOf (before : RuleSet) (op : RuleOp) : RuleOp :=
  match before.find op.rule.id with
  | none =>
    { kind := .delete,
      rule := { id := op.rule.id, type := "", affinity := "", strict := false, nodes := ∅ } }
  | some prev => { kind := if op.kind = .delete then .create else .update, rule := prev }

/-- The loop of `revert`, over the writes from the newest on. -/
def revertLoop (before : RuleSet) : List RuleOp → RuleProg (Option RuleErr)
  | [] => pure none
  | op :: rest => do
    match ← writeOnce (normalizeOp (undoOf before op)) with
    | some e => pure (some e)
    | none => revertLoop before rest

def revert (before : RuleSet) (wrote : List RuleOp) : RuleProg (Option RuleErr) :=
  revertLoop before wrote.reverse

/-! ## 5. The service

A PUT is partial: fields it does not name stay as they are. -/

/-- The rules the server holds, under their IDs. -/
abbrev Server := AList fun _ : String => Rule

/-- `normalize`: a rule as a read returns it. -/
def readRule (r : Rule) : Rule :=
  { r with
    resources := trimmed r.resources
    affinity := if r.type = ruleTypeNodeAffinity ∧ r.affinity = "" then affinityPositive
      else r.affinity }

/-- A read of the rules, in some order. -/
def Reads (s : Server) (set : RuleSet) : Prop :=
  (set.rules.map fun r => (⟨r.id, r.toRule⟩ : Sigma fun _ : String => Rule)).Perm
    (s.entries.map fun e => ⟨e.1, readRule e.2⟩)

/-- The rule that a POST creates. -/
def CreateParams.made (p : CreateParams) : Rule where
  type := p.type
  affinity := p.affinity.getD ""
  strict := p.strict.getD false
  disabled := p.disable.getD false
  nodes := p.nodes.getD ∅
  resources := p.resources
  comment := p.comment.getD ""

/-- What a PUT makes of a rule. -/
def UpdateRuleParams.onto (p : UpdateRuleParams) (r : Rule) : Rule where
  type := p.type
  affinity := p.affinity.getD r.affinity
  strict := p.strict.getD r.strict
  disabled := p.disable.getD (if "disable" ∈ p.delete then false else r.disabled)
  nodes := p.nodes.getD r.nodes
  resources := p.resources
  comment := p.comment.getD (if "comment" ∈ p.delete then "" else r.comment)

/-- A write that takes effect. -/
inductive Takes : Server → RuleCall → Server → Prop
  | create {s : Server} (p : CreateParams) (h : p.rule ∉ s) :
  Takes s (.create p) (s.insert p.rule p.made)
  | update {s : Server} {id : String} (p : UpdateRuleParams) {r : Rule} (h : s.lookup id = some r) :
      Takes s (.update id p) (s.insert id (p.onto r))
  | delete {s : Server} (id : String) : Takes s (.delete id) (s.erase id)

/-- **The service**: a write without an error took effect, one with an error may have. -/
def serves : Serve RuleCall RuleCall.Ans Server
  | s, .list, .ok set, t => t = s ∧ Reads s set
  | s, .create p, some _, t => t = s ∨ Takes s (.create p) t
  | s, .create p, none, t => Takes s (.create p) t
  | s, .update id p, some _, t => t = s ∨ Takes s (.update id p) t
  | s, .update id p, none, t => Takes s (.update id p) t
  | s, .delete id, some _, t => t = s ∨ Takes s (.delete id) t
  | s, .delete id, none, t => Takes s (.delete id) t
  | s, .list, .error _, t => t = s
  | s, .lock, _, t => t = s
  | s, .plan _, _, t => t = s
  | s, .sleep _, _, t => t = s

end Ha
