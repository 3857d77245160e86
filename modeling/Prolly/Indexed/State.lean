import Mathlib.Data.Prod.Lex
import Prolly.Indexed.Key
import Prolly.Lib.SortedMap
import Prolly.VersionedMap.Model

/-!
# Prolly.Indexed.State

The state of an indexed collection (`secondary_index/state.rs`): the retained snapshots, each a
source tree with the index trees built over it, the descriptors of the indexes, the active and
the retired ones and the pins. A state is kept as the entries of a tree and is published by
putting that tree under the root name of the collection.

The values of the entries are CBOR (`serde_cbor`); what is used of it is a `Codec` for each kind
of value. A walk along the parents of snapshots ends because a snapshot is named by the digest
of a record that holds the name of its parent; here it is bounded by the number of snapshots.
-/

namespace Prolly

/-! ### Records -/

/-- `CollectionIndexPolicy`. -/
structure CollectionIndexPolicy where
  maxActiveIndexes : Nat := 32
  maxRetainedSnapshots : Nat := 1024
  maxDescriptors : Nat := 4096
  maxDurablePins : Nat := 1024
  deriving DecidableEq

def CollectionIndexPolicy.validate (policy : CollectionIndexPolicy) : IndexResult Unit :=
  ensure (policy.maxActiveIndexes ≠ 0 && policy.maxRetainedSnapshots ≠ 0 &&
      policy.maxDescriptors ≠ 0 && policy.maxDurablePins ≠ 0)
    (.invalidIndexDefinition "all collection index policy limits must be greater than zero")

/-- `IndexSemanticLimits`. -/
structure IndexSemanticLimits where
  maxTermBytes : Nat
  maxProjectionBytes : Nat
  maxAllValueBytes : Nat
  maxTermsPerRecord : Nat
  maxProjectedBytesPerRecord : Nat
  deriving DecidableEq

/-- What the fingerprint of a descriptor is made of. -/
structure DescriptorFields where
  sourceMapId : Bytes
  name : Bytes
  generation : Nat
  extractorId : String
  projection : IndexProjection
  limits : IndexSemanticLimits
  physicalLayout : Nat
  deriving DecidableEq

/-- `IndexDescriptor`. -/
structure IndexDescriptor extends DescriptorFields where
  fingerprint : Cid
  deriving DecidableEq

/-- `SourceSnapshotRef`. -/
structure SourceSnapshotRef where
  tree : Tree
  entryCount : Nat
  deriving DecidableEq

/-- `IndexSnapshotRef`. -/
structure IndexSnapshotRef where
  name : Bytes
  descriptorFingerprint : Cid
  tree : Tree
  entryCount : Nat
  deriving DecidableEq

/-- `IndexedSnapshotRecord`. -/
structure IndexedSnapshotRecord where
  sourceMapId : Bytes
  parent : Option Cid
  source : SourceSnapshotRef
  indexes : List IndexSnapshotRef
  deriving DecidableEq

/-- What names a descriptor: the name and the fingerprint, in this order. -/
abbrev DescriptorKey := Bytes ×ₗ Cid

def IndexSnapshotRef.descriptorKey (index : IndexSnapshotRef) : DescriptorKey :=
  toLex (index.name, index.descriptorFingerprint)

/-- `IndexedCollectionState`. -/
structure IndexedCollectionState where
  sourceMapId : Bytes
  policy : CollectionIndexPolicy
  head : Cid
  snapshots : SortedMap Cid IndexedSnapshotRecord
  descriptors : SortedMap DescriptorKey IndexDescriptor
  active : SortedMap Bytes Cid
  retired : SortedMap DescriptorKey Unit
  pins : SortedMap Bytes Cid
  deriving DecidableEq

/-- The encodings and digests the state is made with. -/
structure StateCodec where
  snapshot : IndexedSnapshotRecord → IndexResult Bytes
  /-- The encoding that is digested to a fingerprint. -/
  fingerprint : DescriptorFields → IndexResult Bytes
  sha256 : Bytes → Cid
  /-- `MapVersionId::for_tree`. -/
  versionId : Tree → Cid

/-! ### Checks -/

/-- `canonical_fingerprint`. -/
def IndexDescriptor.canonicalFingerprint (codec : StateCodec) (fields : DescriptorFields) :
    IndexResult Cid := do
  .ok (codec.sha256 (← codec.fingerprint fields))

/-- `IndexDescriptor::validate`. -/
def IndexDescriptor.validate (codec : StateCodec) (descriptor : IndexDescriptor) :
    IndexResult Unit := do
  ensure (descriptor.sourceMapId ≠ [] && descriptor.name ≠ [] && descriptor.generation ≠ 0 &&
      descriptor.extractorId ≠ "" && descriptor.physicalLayout ≠ 0)
    (.invalidIndexDefinition "persisted index descriptor has invalid required fields")
  let expected ← canonicalFingerprint codec descriptor.toDescriptorFields
  ensure (expected = descriptor.fingerprint)
    (.indexDefinitionMismatch descriptor.name descriptor.fingerprint expected)

/-- The loop of `IndexedSnapshotRecord::validate`. -/
def validateIndexNames : Option Bytes → List IndexSnapshotRef → IndexResult Unit
  | _, [] => .ok ()
  | previous, index :: indexes => do
      ensure (index.name ≠ []) (.invalidVersionedMap "indexed snapshot has an empty index name")
      ensure (!previous.any fun previous => index.name ≤ previous)
        (.invalidVersionedMap "indexed snapshot indexes are not strictly ordered")
      validateIndexNames (some index.name) indexes

namespace IndexedSnapshotRecord

/-- `IndexedSnapshotRecord::validate`. -/
def validate (record : IndexedSnapshotRecord) : IndexResult Unit := do
  ensure (record.sourceMapId ≠ [])
    (.invalidVersionedMap "indexed snapshot has an empty source map ID")
  validateIndexNames none record.indexes

/-- `IndexedSnapshotRecord::id`. -/
def id (codec : StateCodec) (record : IndexedSnapshotRecord) : IndexResult Cid := do
  record.validate
  .ok (codec.sha256 (← codec.snapshot record))

end IndexedSnapshotRecord

namespace IndexedCollectionState

variable (codec : StateCodec) (state : IndexedCollectionState)

/-- `head_snapshot`. -/
def headSnapshot : IndexResult IndexedSnapshotRecord :=
  match state.snapshots.get? state.head with
  | some snapshot => .ok snapshot
  | none => .error
      (.invalidVersionedMap "indexed collection head is absent from retained snapshots")

/-- The check of an index of a snapshot in `validate_closure`. -/
def validateSelected (index : IndexSnapshotRef) : IndexResult Unit :=
  match state.descriptors.get? index.descriptorKey with
  | none => .error (.invalidVersionedMap "indexed snapshot references a missing descriptor")
  | some descriptor => do
      descriptor.validate codec
      ensure (descriptor.sourceMapId = state.sourceMapId && descriptor.name = index.name &&
          descriptor.fingerprint = index.descriptorFingerprint)
        (.invalidVersionedMap "indexed snapshot descriptor ownership mismatch")

/-- The check of a snapshot in `validate_closure`. -/
def validateSnapshot (id : Cid) (snapshot : IndexedSnapshotRecord) : IndexResult Unit := do
  snapshot.validate
  ensure (snapshot.sourceMapId = state.sourceMapId)
    (.invalidVersionedMap "indexed snapshot identity or ownership mismatch")
  ensure ((← snapshot.id codec) = id)
    (.invalidVersionedMap "indexed snapshot identity or ownership mismatch")
  snapshot.indexes.forM (state.validateSelected codec)

/-- The check of an active index in `validate_closure`. -/
def validateActive (head : IndexedSnapshotRecord) (name : Bytes) (fingerprint : Cid) :
    IndexResult Unit := do
  ensure (state.descriptors.contains (toLex (name, fingerprint)))
    (.invalidVersionedMap "active index references a missing descriptor")
  ensure ((head.indexes.find? (·.name = name)).map (·.descriptorFingerprint) = some fingerprint)
    (.invalidVersionedMap "active index does not match the head snapshot")

def withinLimit (resource : String) (limit actual : Nat) : IndexResult Unit :=
  ensure (actual ≤ limit) (.indexResourceLimitExceeded resource limit actual)

/-- `validate_closure`. -/
def validateClosure : IndexResult Unit := do
  ensure (state.sourceMapId ≠ [])
    (.invalidVersionedMap "indexed collection has an empty source map ID")
  state.policy.validate
  withinLimit "active_indexes" state.policy.maxActiveIndexes state.active.size
  withinLimit "retained_snapshots" state.policy.maxRetainedSnapshots state.snapshots.size
  withinLimit "index_descriptors" state.policy.maxDescriptors state.descriptors.size
  withinLimit "durable_snapshot_pins" state.policy.maxDurablePins state.pins.size
  let head ← state.headSnapshot
  ensure (head.sourceMapId = state.sourceMapId)
    (.invalidVersionedMap "indexed collection head belongs to another source map")
  state.snapshots.entries.forM fun e => state.validateSnapshot codec e.1 e.2
  state.active.entries.forM fun e => state.validateActive head e.1 e.2
  state.pins.entries.forM fun e => ensure (state.snapshots.contains e.2)
    (.invalidVersionedMap "snapshot pin references an absent snapshot")

/-- `IndexedCollectionState::new`. -/
def new (sourceMapId : Bytes) (policy : CollectionIndexPolicy) (head : IndexedSnapshotRecord) :
    IndexResult IndexedCollectionState := do
  policy.validate
  ensure (head.sourceMapId = sourceMapId)
    (.invalidVersionedMap "initial indexed snapshot belongs to another source map")
  let headId ← head.id codec
  let state : IndexedCollectionState :=
    { sourceMapId, policy, head := headId, snapshots := (∅ : SortedMap _ _).insert headId head,
      descriptors := ∅, active := ∅, retired := ∅, pins := ∅ }
  state.validateClosure codec
  .ok state

/-! ### Retention -/

def walkBound : Nat := state.snapshots.size + 1

/-- The loop of `enforce_policy_limits`: ancestors of the head are kept while there is room. -/
def keepAncestors : Nat → Option Cid → SortedMap Cid Unit → SortedMap Cid Unit
  | 0, _, keep => keep
  | fuel + 1, cursor, keep =>
    if keep.size < state.policy.maxRetainedSnapshots then
      match cursor.bind state.snapshots.get? with
      | none => keep
      | some snapshot =>
        keepAncestors fuel snapshot.parent
          (match snapshot.parent with
          | some parent => keep.insert parent ()
          | none => keep)
    else keep

/-- The snapshots that pins name. -/
def pinned : SortedMap Cid Unit := state.pins.values.foldl (fun keep id => keep.insert id ()) ∅

/-- Whether a retained snapshot uses the descriptor. -/
def referenced (key : DescriptorKey) : Bool :=
  state.snapshots.values.any fun snapshot => snapshot.indexes.any (·.descriptorKey = key)

/-- `snapshots.retain(|id, _| keep.contains(id))`. -/
def retainSnapshots (keep : SortedMap Cid Unit) : IndexedCollectionState :=
  { state with snapshots := state.snapshots.filter fun id _ => keep.contains id }

/-- The descriptors and the markers of retired ones that are used, `alsoActive` counting the
active ones. -/
def retainDescriptors (alsoActive : Bool) : IndexedCollectionState :=
  let used := fun key : DescriptorKey => state.referenced key ||
    (alsoActive && state.active.get? (ofLex key).1 = some (ofLex key).2)
  { state with
    descriptors := state.descriptors.filter fun key _ => used key
    retired := state.retired.filter fun key _ => used key }

/-- `enforce_policy_limits`. -/
def enforcePolicyLimits : IndexResult IndexedCollectionState := do
  state.policy.validate
  if state.snapshots.size ≤ state.policy.maxRetainedSnapshots then
    state.validateClosure codec
    .ok state
  else do
    let keep := state.pinned.insert state.head ()
    withinLimit "pinned_retained_snapshots" state.policy.maxRetainedSnapshots keep.size
    let keep := state.keepAncestors state.walkBound (some state.head) keep
    let state := (state.retainSnapshots keep).retainDescriptors true
    state.validateClosure codec
    .ok state

end IndexedCollectionState

end Prolly
