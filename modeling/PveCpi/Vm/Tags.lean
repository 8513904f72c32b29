/-
# The tags of a VM

`cpi/handlers/tags.go` and the writers of a VM's tags field: `setVMMetadataRMW` of
`set_vm_metadata.go`, `applyCustomTagsToVM` of `set_disk_metadata.go`, and the tags that
`create_vm` starts a VM with.  The field is one text with a list of tags in it.  Every writer reads
it, keeps most of it, adds tags of its own, and cuts the list at `maxTagLength` bytes; the tags that
decide about ownership stand in front, where the cut does not reach.

Texts are lists of characters.  What Go's `unicode` package knows about letter case is a `Casing`:
nothing here depends on how letters outside ASCII are lowered.

The lists of prefixes are those of the source: the tags in front, the reserved keys, the create-time
prefixes.  They overlap without being equal, and what each writer filters by which list is the point
of `Ownership` and `Teardown`; so they are kept apart here, under the source's names, although
shorter definitions would do.

The cap counts bytes.  The entries are joined by semicolons, and the field is split at semicolons
and commas.
-/
import PveCpi.Lib.Tokens
import Mathlib.Data.List.AList
import Mathlib.Data.List.Lex
import Mathlib.Data.List.Sort
import Mathlib.Data.Char

namespace Vm

open Lib.Text (isSpace trimList)
open Lib.Tokens

/-! ## 1. Texts and tags -/

abbrev Text := List Char

abbrev Tag := Text

/-- A map with text keys, in any order. -/
abbrev TextMap (V : Type) := AList fun _ : Text => V

/-- Letter case: `unicode.ToLower`, and the folding of `strings.EqualFold`. -/
structure Casing where
  lower : Char → Char
  fold : Char → Char
  lower_ascii : ∀ c : Char, c.toNat < 128 → lower c = c.toLower

/-- `strings.ToLower`. -/
def Casing.toLower (L : Casing) (s : Text) : Text := s.map L.lower

/-- `strings.EqualFold`. -/
def Casing.equalFold (L : Casing) (s t : Text) : Bool := decide (s.map L.fold = t.map L.fold)

/-- `len` of a Go string. -/
def byteLen (s : Text) : Nat := length Char.utf8Size s

def ownershipTag : Tag := "bosh-cpi".toList
def ownerTagPrefix : Tag := "bosh-owner--".toList
def cidStampTagPrefix : Tag := "bosh-cid--".toList
def clusterStampTagPrefix : Tag := "bosh-cluster--".toList
def stemcellTagPrefix : Tag := "stemcell--".toList
def haRuleNamePrefix : Tag := "bosh-aa-".toList
def haManagedTag : Tag := "bosh-ha-managed".toList
def birthTagPrefix : Tag := "bosh-creating-".toList
def tagDeletingVM : Tag := "bosh-deleting".toList
def parkerPrefixTagPrefix : Tag := "vm-prefix--".toList
def maxTagLength : Nat := 350

def reservedBoshTagPrefixes : List Tag :=
  ["director--".toList, "deployment--".toList, "instance-group--".toList, "job--".toList,
   "index--".toList, parkerPrefixTagPrefix]

def createTimeTagPrefixes : List Tag :=
  [stemcellTagPrefix, ownerTagPrefix, cidStampTagPrefix, clusterStampTagPrefix, haRuleNamePrefix,
   haManagedTag]

def headTagPrefixes : List Tag := [ownerTagPrefix, cidStampTagPrefix, clusterStampTagPrefix]

def teardownQueueTagPrefixes : List Tag := [birthTagPrefix, tagDeletingVM]

/-- An entry starts with one of the prefixes. -/
def hasAnyPrefix (prefixes : List Tag) (entry : Tag) : Bool :=
  prefixes.any fun p => p.isPrefixOf entry

def hasReservedBoshPrefix (entry : Tag) : Bool := hasAnyPrefix reservedBoshTagPrefixes entry

section Prefixes

variable (L : Casing)

def hasCreateTimePrefix (entry : Tag) : Bool :=
  hasAnyPrefix createTimeTagPrefixes (L.toLower entry)

def hasHeadTagPrefix (entry : Tag) : Bool := hasAnyPrefix headTagPrefixes (L.toLower entry)

def hasTeardownQueuePrefix (entry : Tag) : Bool :=
  hasAnyPrefix teardownQueueTagPrefixes (L.toLower entry)

def hasCPIOwnedPrefix (entry : Tag) : Bool :=
  hasReservedBoshPrefix entry || hasCreateTimePrefix L entry || hasTeardownQueuePrefix L entry

/-- `hasOwnerTag`. -/
def hasOwnerTag (entries : List Tag) : Bool :=
  entries.any fun e => ownerTagPrefix.isPrefixOf (L.toLower e)

end Prefixes

/-- A byte that `sanitizeTagValue` keeps. -/
def isTagChar (c : Char) : Bool := c.isAlphanum || c == '-'

/-- `sanitizeTagValue`: every byte that is not kept becomes a dash. -/
def sanitizeTagValue (s : Text) : Text :=
  trimList (fun c => c == '-')
    (s.flatMap fun c => if isTagChar c then [c] else List.replicate c.utf8Size '-')

/-- `ownerTagFor`; empty when the UUID sanitizes to nothing. -/
def ownerTagFor (L : Casing) (directorUUID : Text) : Tag :=
  let s := L.toLower (sanitizeTagValue directorUUID)
  if s.isEmpty then [] else ownerTagPrefix ++ s

/-! ## 2. The field -/

def isTagSeparator (c : Char) : Bool := c == ';' || c == ','

/-- `parseTagsField`. -/
def parseTagsField (s : Text) : List Tag := tokens isTagSeparator isSpace s

/-- `strings.Join` with a semicolon. -/
def joinTags (tags : List Tag) : Text := joined ';' tags

/-- `mergeTagListReporting`: the text and what the cap left out. -/
def mergeTagListReporting (existing additions : List Tag) (maxBytes : Nat) : Text × List Tag :=
  let parts := distinct (existing ++ additions)
  if maxBytes = 0 ∨ byteLen (joinTags parts) ≤ maxBytes then (joinTags parts, [])
  else
    let kept := fitting Char.utf8Size ';' maxBytes [] parts
    (joinTags kept.1, kept.2)

/-- `hoistHeadTags`. -/
def hoistHeadTags (L : Casing) (entries : List Tag) : List Tag :=
  (entries.filter fun e => decide (e = ownershipTag)) ++
  (entries.filter fun e => !decide (e = ownershipTag) && hasHeadTagPrefix L e) ++
  entries.filter fun e => !decide (e = ownershipTag) && !hasHeadTagPrefix L e

/-- `stripReservedBoshTags`. -/
def stripReservedBoshTags (entries : List Tag) : List Tag :=
  entries.filter fun e => !hasReservedBoshPrefix e

/-! ## 3. Tags from the outside -/

/-- The entry of a custom tag, when its key and its value say something. -/
def customEntry (key value : Text) : Option Tag :=
  let sk := sanitizeTagValue key
  let sv := sanitizeTagValue value
  if sk.isEmpty || sv.isEmpty then none else some (sk ++ "--".toList ++ sv)

/-- `buildCustomTags`: in the order of the keys, without the entries the CPI owns. -/
def buildCustomTags (L : Casing) (custom : TextMap Text) : List Tag :=
  (custom.entries.insertionSort fun a b => a.1 ≤ b.1).filterMap fun e =>
    (customEntry e.1 e.2).filter fun entry => !hasCPIOwnedPrefix L entry

/-- `dropReservedDiskTags`. -/
def dropReservedDiskTags (L : Casing) (tags : TextMap Text) : TextMap Text :=
  (tags.entries.filter fun e =>
    !hasCPIOwnedPrefix L (sanitizeTagValue e.1 ++ "--".toList)).toAList

/-- A metadata value as `%v` prints it; `none` when it is absent or nil. -/
def metadataValue (metadata : TextMap (Option Text)) (key : String) : Option Text :=
  (metadata.lookup key.toList).join

/-- One of the `<key>--<value>` tags. -/
def metadataTag (metadata : TextMap (Option Text)) (key : String) : Option Tag :=
  (metadataValue metadata key).bind fun v =>
    let s := sanitizeTagValue v
    if s.isEmpty then none else some (sanitizeTagValue key.toList ++ "--".toList ++ s)

/-- The instance name as a tag; a slash becomes two dashes. -/
def nameTag (metadata : TextMap (Option Text)) : Option Tag :=
  (metadataValue metadata "name").bind fun v =>
    let s := sanitizeTagValue (v.flatMap fun c => if c == '/' then ['-', '-'] else [c])
    if s.isEmpty then none else some s

/-- The identity tag of the prefix. -/
def prefixTag (vmPrefix : Text) : Option Tag :=
  let s := sanitizeTagValue vmPrefix
  if s.isEmpty then none else some (parkerPrefixTagPrefix ++ s)

/-- `buildBoshManagedTags`. -/
def buildBoshManagedTags (L : Casing) (metadata : TextMap (Option Text)) (vmPrefix : Text) :
    List Tag :=
  (["director", "deployment", "instance_group", "job", "index"].filterMap (metadataTag metadata)) ++
  ((nameTag metadata).filter fun t => !hasCreateTimePrefix L t).toList ++
  (prefixTag vmPrefix).toList

/-! ## 4. The writers

Each one returns the text that it would write and the entries that it had to drop. -/

/-- Tags of a guest that is not an instance: a stemcell template or a disk parker. -/
def backfillExcludedTags : List Tag :=
  ["bosh-stemcell".toList, "bosh-stemcell-cache".toList, "bosh-parker".toList]

/-- `ownerTagBackfill`.  `agrees` is what the stored identity of the instance says about the one the
metadata names: it matches, or none is stored. -/
def ownerTagBackfill (L : Casing) (existing : List Tag) (directorUUID : Text) (agrees : Bool) :
    Tag :=
  if !existing.contains ownershipTag || hasOwnerTag L existing then []
  else if existing.any fun e => backfillExcludedTags.any (L.equalFold e) then []
  else if agrees then ownerTagFor L directorUUID else []

/-- `withOwnerTag`. -/
def withOwnerTag (L : Casing) (preserved : List Tag) (owner : Tag) : List Tag :=
  hoistHeadTags L (preserved ++ [owner])

/-- What `set_vm_metadata` keeps of the field. -/
def preservedTags (L : Casing) (stored : Text) (directorUUID : Text) (agrees : Bool) : List Tag :=
  let existing := parseTagsField stored
  let preserved := hoistHeadTags L (stripReservedBoshTags existing)
  let owner := ownerTagBackfill L existing directorUUID agrees
  if owner.isEmpty then preserved else withOwnerTag L preserved owner

/-- The tags that `setVMMetadataRMW` writes, and what the cap dropped. -/
def setVMMetadataTags (L : Casing) (stored : Text) (metadata : TextMap (Option Text))
    (vmPrefix directorUUID : Text) (agrees : Bool) : Text × List Tag :=
  mergeTagListReporting (preservedTags L stored directorUUID agrees)
    (buildBoshManagedTags L metadata vmPrefix) maxTagLength

/-- The key of an entry with its two dashes; `none` when it has no key. -/
def keyPrefix (entry : Tag) : Option Tag :=
  match Lib.Text.cutList "--".toList entry with
  | none => none
  | some (key, _) => if key.isEmpty then none else some (key ++ "--".toList)

/-- What `applyCustomTagsToVM` keeps of the field: everything but the keys it sets. -/
def unreplacedTags (stored : Text) (newEntries : List Tag) : List Tag :=
  (parseTagsField stored).filter fun e =>
    !(newEntries.filterMap keyPrefix).any fun p => p.isPrefixOf e

/-- The tags that `applyCustomTagsToVM` writes; `none` when no tag is left to write. -/
def applyCustomTags (L : Casing) (stored : Text) (tags : TextMap Text) :
    Option (Text × List Tag) :=
  let kept := dropReservedDiskTags L tags
  if kept.entries.isEmpty then none
  else
    let newEntries := buildCustomTags L kept
    some (mergeTagListReporting (hoistHeadTags L (unreplacedTags stored newEntries)) newEntries
      maxTagLength)

/-- The tags that `create_vm` starts a VM with: the head, the operator's tags, and the provenance
tags behind them. -/
def initialTags (L : Casing) (head provenance : List Tag) (custom : TextMap Text) :
    Text × List Tag :=
  mergeTagListReporting head (buildCustomTags L custom ++ provenance) maxTagLength

end Vm
