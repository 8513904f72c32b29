import PveCpi.Disk.Cid
import PveCpi.Ha.DeadNode
import PveCpi.Ha.Eligibility
import PveCpi.Ha.Feasibility
import PveCpi.Ha.Narrow
import PveCpi.Ha.Placement
import PveCpi.Ha.Recovery
import PveCpi.Ha.Release
import PveCpi.Ha.Revert
import PveCpi.Ha.RuleWriter
import PveCpi.Journal.Acquisition
import PveCpi.Journal.Attempts
import PveCpi.Journal.Creation
import PveCpi.Journal.Disposal
import PveCpi.Journal.Durability
import PveCpi.Journal.Effects
import PveCpi.Journal.Evidence
import PveCpi.Journal.Files
import PveCpi.Journal.Gate
import PveCpi.Journal.Guarantees
import PveCpi.Journal.History
import PveCpi.Journal.Ops
import PveCpi.Journal.Protocol
import PveCpi.Journal.Readback
import PveCpi.Journal.Record
import PveCpi.Journal.Recovery
import PveCpi.Journal.Reindex
import PveCpi.Journal.Retry
import PveCpi.Journal.Rules
import PveCpi.Journal.Safety
import PveCpi.Journal.Saves
import PveCpi.Journal.Shortcut
import PveCpi.Journal.Types
import PveCpi.Journal.WholeFiles
import PveCpi.Journal.World
import PveCpi.Lib.Answers
import PveCpi.Lib.Assoc
import PveCpi.Lib.Base64
import PveCpi.Lib.Bits
import PveCpi.Lib.Check
import PveCpi.Lib.Components
import PveCpi.Lib.Decimal
import PveCpi.Lib.Extends
import PveCpi.Lib.Interleave
import PveCpi.Lib.Json
import PveCpi.Lib.JsonAny
import PveCpi.Lib.JsonSpan
import PveCpi.Lib.JsonText
import PveCpi.Lib.Occurs
import PveCpi.Lib.Service
import PveCpi.Lib.Sha256
import PveCpi.Lib.Sorting
import PveCpi.Lib.Tally
import PveCpi.Lib.Text
import PveCpi.Lib.Tokens
import PveCpi.Lib.Trial
import PveCpi.Lib.Utf8
import PveCpi.Lib.Wire
import PveCpi.Lock.Acquire
import PveCpi.Lock.Claim
import PveCpi.Lock.Codec
import PveCpi.Lock.Exclusion
import PveCpi.Lock.Moves
import PveCpi.Lock.Termination
import PveCpi.Managed.FirstPlacement
import PveCpi.Managed.Joint
import PveCpi.Managed.Planning
import PveCpi.Parker.Guarded
import PveCpi.Parker.Provenance
import PveCpi.Parker.Records
import PveCpi.Parker.Removal
import PveCpi.Parker.Room
import PveCpi.Placement.Headroom
import PveCpi.Stemcell.Provenance
import PveCpi.Stemcell.Refs
import PveCpi.Stemcell.Safety
import PveCpi.Storage.Admission
import PveCpi.Storage.Affinity
import PveCpi.Storage.Budget
import PveCpi.Storage.Bundle
import PveCpi.Storage.Commitments
import PveCpi.Storage.Feasible
import PveCpi.Storage.Inventory
import PveCpi.Storage.Ledger
import PveCpi.Storage.Plan
import PveCpi.Storage.Planner
import PveCpi.Storage.Preimages
import PveCpi.Storage.Ranking
import PveCpi.Storage.Replay
import PveCpi.Storage.Siblings
import PveCpi.Storage.Strategies
import PveCpi.Vm.Ambiguity
import PveCpi.Vm.Cid
import PveCpi.Vm.Codec
import PveCpi.Vm.Corrupt
import PveCpi.Vm.Descriptions
import PveCpi.Vm.Ids
import PveCpi.Vm.Landed
import PveCpi.Vm.Marker
import PveCpi.Vm.MarkerBytes
import PveCpi.Vm.Merge
import PveCpi.Vm.Mutate
import PveCpi.Vm.Ownership
import PveCpi.Vm.Records
import PveCpi.Vm.Sentinel
import PveCpi.Vm.Tags
import PveCpi.Vm.Teardown
