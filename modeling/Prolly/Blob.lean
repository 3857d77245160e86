import Prolly.Gc
import Prolly.Lib.PrefixCode

/-!
# Prolly.Blob

Values kept out of the leaves (`blob.rs`), and the collection of the blobs they are kept in
(`mark_reachable_blobs`, `plan_blob_gc`, `sweep_blob_gc` of `AsyncProlly`).

A stored value is an envelope with the magic bytes `PLVB`, or the value itself. An envelope holds
the value, or the identifier and the length of a blob. The walk over the retained trees is the one
of `Prolly.Gc`, except that it decodes the values of the leaves in place of counting the nodes. It
has found exactly the blobs that some leaf refers to when it succeeds (`markReachableBlobs_exact`),
and a sweep removes the other candidates and nothing else (`sweepBlobGc_exact`).
-/

namespace Prolly

open Relation (ReflTransGen)
open PrefixCode (ofBigEndian)
open List

/-! ### Stored values -/

/-- `BlobRef`. -/
structure BlobRef where
  cid : Cid
  len : Nat
  deriving DecidableEq

/-- `ValueRef`. -/
inductive ValueRef where
  | inline (value : Bytes)
  | blob (reference : BlobRef)
  deriving DecidableEq

/-- `b"PLVB"`. -/
def valueRefMagic : Bytes := [0x50, 0x4c, 0x56, 0x42]

def valueRefVersion : UInt8 := 1

def valueRefInline : UInt8 := 0

def valueRefBlob : UInt8 := 1

def valueRefHeaderLen : Nat := 6

/-- `value_ref_error`. -/
def valueRefError (message : String) : Error :=
  .deserialize ("invalid value reference: " ++ message)

/-- `read_u64`: the number and the offset behind it. -/
def readU64 (bytes : Bytes) (offset : Nat) (context : String) : Result (Nat × Nat) :=
  let raw := (bytes.drop offset).take 8
  if raw.length < 8 then .error (valueRefError (context ++ " is truncated"))
  else .ok (ofBigEndian raw, offset + 8)

/-- `decode_inline_ref`. -/
def decodeInlineRef (bytes : Bytes) : Result ValueRef := do
  let (len, offset) ← readU64 bytes valueRefHeaderLen "inline value length"
  if bytes.length - offset ≠ len then
    .error (valueRefError "inline value length does not match payload")
  else .ok (.inline (bytes.drop offset))

/-- `decode_blob_ref`. -/
def decodeBlobRef (bytes : Bytes) : Result ValueRef :=
  match Cid.ofBytes ((bytes.drop valueRefHeaderLen).take 32) with
  | none => .error (valueRefError "blob reference length is invalid")
  | some cid =>
    if bytes.length ≠ valueRefHeaderLen + 32 + 8 then
      .error (valueRefError "blob reference length is invalid")
    else do
      let (len, _) ← readU64 bytes (valueRefHeaderLen + 32) "blob length"
      .ok (.blob ⟨cid, len⟩)

/-- `decode_value_ref`. -/
def decodeValueRef (bytes : Bytes) : Result ValueRef :=
  let version := bytes.getD 4 0
  let tag := bytes.getD 5 0
  if bytes.length < valueRefHeaderLen then
    .error (valueRefError "value reference header is truncated")
  else if bytes.take 4 ≠ valueRefMagic then
    .error (valueRefError "value reference missing PLVB magic")
  else if version ≠ valueRefVersion then
    .error (valueRefError ("unsupported value reference version " ++ toString version))
  else if tag = valueRefInline then decodeInlineRef bytes
  else if tag = valueRefBlob then decodeBlobRef bytes
  else .error (valueRefError ("unknown value reference tag " ++ toString tag))

/-- `ValueRef::from_stored_bytes`. -/
def ValueRef.fromStoredBytes (bytes : Bytes) : Result ValueRef :=
  if valueRefMagic <+: bytes then decodeValueRef bytes else .ok (.inline bytes)

/-! ### Blob stores -/

/-- What a blob operation fails with. -/
inductive BlobError where
  | engine (error : Error)
  | walk (error : GcError)
  | store (message : String)
  deriving DecidableEq

/-- A blob store: the bytes under each identifier, what reading them may fail with (a store on
files validates what it reads, one in memory does not), and the deletions that fail. -/
structure BlobStore where
  blobs : SortedMap Bytes Bytes
  readError : BlobRef → Bytes → Option String
  deleteError : BlobRef → Option String

namespace BlobStore

/-- `get_blob`. -/
def getBlob (store : BlobStore) (reference : BlobRef) : Except BlobError (Option Bytes) :=
  match store.blobs.get? reference.cid.bytes with
  | none => .ok none
  | some bytes =>
    match store.readError reference bytes with
    | some message => .error (.store message)
    | none => .ok (some bytes)

/-- `delete_blob` when it succeeds. -/
def deleteBlob (store : BlobStore) (reference : BlobRef) : BlobStore :=
  { store with blobs := store.blobs.erase reference.cid.bytes }

end BlobStore

/-- `validate_blob_reference`. -/
def BlobRef.validateBytes (d : Digests) (reference : BlobRef) (bytes : Bytes) : Result Unit :=
  if reference.len ≠ bytes.length then .error (valueRefError "blob length does not match reference")
  else if d.sha256 bytes ≠ reference.cid then
    .error (valueRefError "blob CID does not match reference")
  else .ok ()

/-- `resolve_stored_value`. -/
def resolveStoredValue (d : Digests) (blobStore : BlobStore) (stored : Bytes) :
    Except BlobError Bytes :=
  match ValueRef.fromStoredBytes stored with
  | .error error => .error (.engine error)
  | .ok (.inline value) => .ok value
  | .ok (.blob reference) =>
    match blobStore.getBlob reference with
    | .error error => .error error
    | .ok none => .error (.engine (.notFound reference.cid))
    | .ok (some bytes) =>
      match reference.validateBytes d bytes with
      | .error error => .error (.engine error)
      | .ok () => .ok bytes

/-- `get_large_value`. -/
def Manager.getLargeValue (m : Manager) (blobStore : BlobStore) (fuel : Nat) (tree : Tree)
    (key : Bytes) : Except BlobError (Option Bytes) :=
  match m.get fuel tree key with
  | .error error => .error (.engine error)
  | .ok none => .ok none
  | .ok (some value) => (resolveStoredValue m.digests blobStore value).map some

variable {d : Digests} {blobStore blobStore' : BlobStore} {value : Bytes} {nodes : NodeBytes}
  {format : TreeFormat} {cid : Cid} {node : Node}

/-! ### The walk -/

/-- `BlobReachabilityLimits`. -/
structure BlobReachabilityLimits where
  maxNodes : Nat
  maxValues : Nat
  maxBlobs : Nat
  maxBlobBytes : Nat

/-- The bound of the part that the walk shares with the one over nodes. -/
def BlobReachabilityLimits.walk (limits : BlobReachabilityLimits) : GcTraversalLimits :=
  ⟨limits.maxNodes, 0⟩

/-- The variables of `mark_reachable_blobs_with_limits`: `seen_paths` and `frontier` are those of
`walk`, whose other fields are not used. Blobs are the newest first. -/
structure BlobMarkState where
  walk : MarkState := {}
  liveBlobs : List BlobRef := []
  scannedNodes : Nat := 0
  scannedValues : Nat := 0

/-- `enforce_content_graph_limit`. -/
def enforceLimit (resource : String) (limit actual : Nat) : Except BlobError Unit :=
  if limit < actual then .error (.walk (.contentGraphResourceLimitExceeded resource limit actual))
  else .ok ()

namespace BlobMarkState

def markValue (limits : BlobReachabilityLimits) (value : Bytes) (st : BlobMarkState) :
    Except BlobError BlobMarkState :=
  match ValueRef.fromStoredBytes value with
  | .error error => .error (.engine error)
  | .ok (.inline _) => .ok st
  | .ok (.blob reference) =>
    match st.liveBlobs.find? (·.cid = reference.cid) with
    | some known =>
      if known.len ≠ reference.len then
        .error (.engine (.deserialize "conflicting blob reference lengths for same CID"))
      else .ok st
    | none => do
        enforceLimit "blobs" limits.maxBlobs (st.liveBlobs.length + 1)
        .ok { st with liveBlobs := reference :: st.liveBlobs }

/-- The values of a leaf, in order. -/
def markValues (limits : BlobReachabilityLimits) :
    List Bytes → BlobMarkState → Except BlobError BlobMarkState
  | [], st => .ok st
  | value :: values, st =>
    match st.markValue limits value with
    | .error error => .error error
    | .ok st => markValues limits values st

def findChildren (limits : BlobReachabilityLimits) (d : Digests) (format : TreeFormat) (node : Node)
    (st : BlobMarkState) : Except BlobError BlobMarkState :=
  match format.digest d with
  | .error error => .error (.engine error)
  | .ok digest =>
    match st.walk.findChildren limits.walk format digest node.vals with
    | .error error => .error (.walk error)
    | .ok walk => .ok { st with walk }

def markNode (d : Digests) (limits : BlobReachabilityLimits) (format : TreeFormat) (node : Node)
    (st : BlobMarkState) : Except BlobError BlobMarkState :=
  if node.keys.length ≠ node.vals.length then .error (.engine .invalidNode)
  else do
    let st := { st with scannedNodes := st.scannedNodes + 1 }
    enforceLimit "nodes" limits.maxNodes st.scannedNodes
    if node.leaf then
      let st := { st with scannedValues := st.scannedValues + node.vals.length }
      enforceLimit "values" limits.maxValues st.scannedValues
      st.markValues limits node.vals
    else st.findChildren limits d format node

/-- The walk of `mark_reachable_blobs_with_limits`. -/
def walking (d : Digests) (limits : BlobReachabilityLimits) : NodeWalk BlobMarkState BlobError where
  marks := BlobMarkState.walk
  defer frontier st := { st with walk := { st.walk with frontier } }
  visit format _ node st := st.markNode d limits format node
  engine := .engine
  marks_defer _ _ := rfl

end BlobMarkState

/-- `sort_blob_refs`. -/
def sortBlobRefs (blobs : List BlobRef) : List BlobRef :=
  blobs.insertionSort fun a b => a.cid.bytes ≤ b.cid.bytes

/-- `BlobGcReachability`. -/
structure BlobGcReachability where
  liveBlobs : List BlobRef
  liveBlobCount : Nat
  liveBlobBytes : Nat
  scannedNodes : Nat
  scannedValues : Nat
  deriving DecidableEq

/-- The report on a finished walk. -/
def BlobMarkState.reachability (limits : BlobReachabilityLimits) (st : BlobMarkState) :
    Except BlobError BlobGcReachability :=
  let liveBlobs := sortBlobRefs st.liveBlobs
  let liveBlobBytes := (liveBlobs.map BlobRef.len).sum
  if u64Max < liveBlobBytes then
    .error (.walk (.contentGraphResourceLimitExceeded "blob bytes" limits.maxBlobBytes u64Max))
  else do
    enforceLimit "blob bytes" limits.maxBlobBytes liveBlobBytes
    .ok ⟨liveBlobs, liveBlobs.length, liveBlobBytes, st.scannedNodes, st.scannedValues⟩

/-- `mark_reachable_blobs_with_limits`. -/
def markReachableBlobsWithLimits (d : Digests) (nodes : NodeBytes) (roots : List Tree)
    (limits : BlobReachabilityLimits) (fuel : Nat) : Option (Except BlobError BlobGcReachability) :=
  if limits.maxNodes = 0 ∨ limits.maxValues = 0 ∨ limits.maxBlobs = 0 ∨ limits.maxBlobBytes = 0 then
    some (.error (.walk (.invalidExecutionConfig "blob reachability limits" 0)))
  else
    match MarkState.findRoots d limits.walk roots {} with
    | .error error => some (.error (.walk error))
    | .ok walk =>
      (WhileLoop.run ((BlobMarkState.walking d limits).step d nodes) fuel { walk }).map
        fun result => result.bind (BlobMarkState.reachability limits)

/-- `mark_reachable_blobs`. -/
def markReachableBlobs (d : Digests) (nodes : NodeBytes) (roots : List Tree) (fuel : Nat) :
    Option (Except BlobError BlobGcReachability) :=
  markReachableBlobsWithLimits d nodes roots ⟨u64Max, u64Max, u64Max, u64Max⟩ fuel

/-! ### Plan and sweep -/

/-- The variables of the loop of `plan_blob_gc`; references are the newest first. -/
structure BlobPlanState where
  seenCandidates : List Cid := []
  reclaimableBlobs : List BlobRef := []
  reclaimableBlobBytes : Nat := 0
  missingCandidates : Nat := 0

/-- `BlobGcPlan`. -/
structure BlobGcPlan where
  reachability : BlobGcReachability
  candidateBlobs : Nat
  reclaimableBlobs : List BlobRef
  reclaimableBlobCount : Nat
  reclaimableBlobBytes : Nat
  missingCandidates : Nat

/-- `BlobGcSweep`. -/
structure BlobGcSweep where
  plan : BlobGcPlan
  deletedBlobs : Nat
  deletedBlobBytes : Nat

/-- A candidate; of those with one identifier the first counts. -/
def BlobPlanState.candidate (d : Digests) (blobStore : BlobStore) (liveCids : List Cid)
    (reference : BlobRef) (st : BlobPlanState) : Except BlobError BlobPlanState :=
  if reference.cid ∈ st.seenCandidates then .ok st
  else
    let st := { st with seenCandidates := reference.cid :: st.seenCandidates }
    if reference.cid ∈ liveCids then .ok st
    else
      match blobStore.getBlob reference with
      | .error error => .error error
      | .ok none => .ok { st with missingCandidates := st.missingCandidates + 1 }
      | .ok (some bytes) =>
        match reference.validateBytes d bytes with
        | .error error => .error (.engine error)
        | .ok () => .ok { st with
            reclaimableBlobs := reference :: st.reclaimableBlobs
            reclaimableBlobBytes := st.reclaimableBlobBytes + bytes.length }

def BlobPlanState.candidates (d : Digests) (blobStore : BlobStore) (liveCids : List Cid) :
    List BlobRef → BlobPlanState → Except BlobError BlobPlanState
  | [], st => .ok st
  | reference :: rest, st =>
    match st.candidate d blobStore liveCids reference with
    | .error error => .error error
    | .ok st => candidates d blobStore liveCids rest st

/-- The plan for what has been marked. -/
def BlobGcPlan.of (d : Digests) (blobStore : BlobStore) (candidates : List BlobRef)
    (reachability : BlobGcReachability) : Except BlobError BlobGcPlan :=
  (BlobPlanState.candidates d blobStore (reachability.liveBlobs.map BlobRef.cid) candidates {}).map
    fun st =>
      { reachability
        candidateBlobs := st.seenCandidates.length
        reclaimableBlobs := sortBlobRefs st.reclaimableBlobs
        reclaimableBlobCount := st.reclaimableBlobs.length
        reclaimableBlobBytes := st.reclaimableBlobBytes
        missingCandidates := st.missingCandidates }

/-- `plan_blob_gc`. -/
def planBlobGc (d : Digests) (nodes : NodeBytes) (blobStore : BlobStore) (roots : List Tree)
    (candidates : List BlobRef) (fuel : Nat) : Option (Except BlobError BlobGcPlan) :=
  (markReachableBlobs d nodes roots fuel).map fun result =>
    result.bind (BlobGcPlan.of d blobStore candidates)

/-- The deletions of a sweep, up to the first that fails. -/
def deleteBlobs : List BlobRef → BlobStore → Except BlobError Unit × BlobStore
  | [], blobStore => (.ok (), blobStore)
  | reference :: rest, blobStore =>
    match blobStore.deleteError reference with
    | some message => (.error (.store message), blobStore)
    | none => deleteBlobs rest (blobStore.deleteBlob reference)

/-- `sweep_blob_gc`: its answer and the blob store after it. -/
def sweepBlobGc (d : Digests) (nodes : NodeBytes) (blobStore : BlobStore) (roots : List Tree)
    (candidates : List BlobRef) (fuel : Nat) : Option (Except BlobError BlobGcSweep × BlobStore) :=
  (planBlobGc d nodes blobStore roots candidates fuel).map fun result =>
    match result with
    | .error error => (.error error, blobStore)
    | .ok plan =>
      let (deleted, blobStore) := deleteBlobs plan.reclaimableBlobs blobStore
      (deleted.map fun _ => ⟨plan, plan.reclaimableBlobCount, plan.reclaimableBlobBytes⟩, blobStore)

/-! ### What the walk finds -/

def leafValues (nodes : NodeBytes) (cid : Cid) : List Bytes :=
  match nodes.get? cid.bytes with
  | none => []
  | some bytes =>
    match Node.fromBytes bytes with
    | .error _ => []
    | .ok node => if node.leaf then node.vals else []

def RefersTo (nodes : NodeBytes) (leaf blob : Cid) : Prop :=
  ∃ value ∈ leafValues nodes leaf, ∃ len,
    ValueRef.fromStoredBytes value = .ok (.blob ⟨blob, len⟩)

/-- A value of one of the trees refers to the blob. -/
def Referenced (nodes : NodeBytes) (roots : List Tree) (blob : Cid) : Prop :=
  ∃ leaf, Reachable nodes roots leaf ∧ RefersTo nodes leaf blob

theorem leafValues_of_store (h : storeOf nodes cid = some node) :
    leafValues nodes cid = if node.leaf then node.vals else [] := by
  obtain ⟨bytes, hbytes, hnode⟩ := storeOf_eq_some.mp h
  simp only [leafValues, hbytes, hnode]

namespace BlobMarkState

variable {d : Digests} {limits : BlobReachabilityLimits} {nodes : NodeBytes}
  {st st1 : BlobMarkState} {roots done : List (Cid × Cid)}

theorem markValue_ok {value : Bytes} (h : st.markValue limits value = .ok st1) :
    st1.walk = st.walk ∧ ∀ cid, cid ∈ st1.liveBlobs.map BlobRef.cid ↔
      cid ∈ st.liveBlobs.map BlobRef.cid ∨
        ∃ len, ValueRef.fromStoredBytes value = .ok (.blob ⟨cid, len⟩) := by
  unfold markValue at h
  split at h
  · cases h
  · next hinline =>
    cases h
    exact ⟨rfl, fun cid => by simp [hinline]⟩
  · next reference hblob =>
    have href : ∀ cid, (∃ len, ValueRef.fromStoredBytes value = .ok (.blob ⟨cid, len⟩)) ↔
        cid = reference.cid := by
      intro cid
      rw [hblob]
      constructor
      · rintro ⟨len, ⟨⟩⟩
        rfl
      · rintro rfl
        exact ⟨reference.len, rfl⟩
    split at h
    · next known hknown =>
      split at h
      · cases h
      · cases h
        refine ⟨rfl, fun cid => ?_⟩
        rw [href]
        refine ⟨.inl, fun hcid => hcid.elim id ?_⟩
        rintro rfl
        have hcid : known.cid = reference.cid := by simpa using List.find?_some hknown
        exact mem_map.mpr ⟨known, mem_of_find?_eq_some hknown, hcid⟩
    · obtain ⟨-, -, h⟩ := of_bind h
      cases h
      refine ⟨rfl, fun cid => ?_⟩
      rw [href, map_cons, mem_cons, or_comm]

theorem markValues_ok {values : List Bytes} (h : st.markValues limits values = .ok st1) :
    st1.walk = st.walk ∧ ∀ cid, cid ∈ st1.liveBlobs.map BlobRef.cid ↔
      cid ∈ st.liveBlobs.map BlobRef.cid ∨
        ∃ value ∈ values, ∃ len, ValueRef.fromStoredBytes value = .ok (.blob ⟨cid, len⟩) := by
  induction values generalizing st with
  | nil =>
    cases h
    exact ⟨rfl, fun cid => by simp⟩
  | cons value values ih =>
    unfold markValues at h
    split at h
    · cases h
    · next st' hvalue =>
      obtain ⟨hwalk, hcids⟩ := markValue_ok hvalue
      obtain ⟨hwalk', hcids'⟩ := ih h
      refine ⟨hwalk'.trans hwalk, fun cid => ?_⟩
      rw [hcids', hcids, or_assoc]
      simp only [mem_cons, exists_eq_or_imp]

/-- The walk with the nodes taken up counted as live. -/
def counted (st : BlobMarkState) (done : List (Cid × Cid)) : MarkState :=
  { st.walk with liveCids := (done.map Prod.fst).dedup }

/-- The invariant of the walk over nodes, and the blobs found are those that the nodes taken up
refer to. -/
structure Inv (d : Digests) (nodes : NodeBytes) (roots : List (Cid × Cid))
    (rest : List FrontierNode) (st : BlobMarkState) (done : List (Cid × Cid)) : Prop where
  walk : MarkState.Inv d nodes roots rest (st.counted done) done
  blobs : ∀ blob, blob ∈ st.liveBlobs.map BlobRef.cid ↔ ∃ path ∈ done, RefersTo nodes path.1 blob

theorem Inv.markNode {item : FrontierNode} {rest : List FrontierNode} {node : Node}
    (hinv : Inv d nodes roots (item :: rest) st done)
    (hload : loadForFormat d nodes item.format item.cid = .ok node)
    (h : st.markNode d limits item.format node = .ok st1) :
    Inv d nodes roots rest st1 (item.path :: done) ∧ MarkState.Grows st.walk st1.walk := by
  have hdigest := hinv.walk.digests item mem_cons_self
  have hvals := leafValues_of_store (storeOf_of_load hload)
  -- the nodes taken up are counted before the children are found
  have hvisit : ∀ {walk : MarkState} {new : List FrontierNode},
      MarkState.Finds st.walk (pathChildren nodes item.path) new walk →
      (∀ i ∈ new, i.format.digest d = .ok i.digest) →
      MarkState.Inv d nodes roots rest
        { walk with liveCids := ((item.path :: done).map Prod.fst).dedup } (item.path :: done) ∧
        MarkState.Grows st.walk walk := by
    intro walk new hfinds hnew
    obtain ⟨rfl, hnodup, hmem⟩ := hfinds
    have hcounted : MarkState.Finds (st.counted (item.path :: done)) (pathChildren nodes item.path)
        new ((st.counted (item.path :: done)).push new) := ⟨rfl, hnodup, hmem⟩
    have hseen : (st.counted (item.path :: done)).seenPaths = (st.counted done).seenPaths := rfl
    refine hinv.walk.visit hseen rfl (fun cid => ?_) (nodup_dedup _) hcounted hnew
    simp [counted, FrontierNode.path]
  unfold BlobMarkState.markNode at h
  split at h
  · cases h
  · obtain ⟨-, -, h⟩ := of_bind h
    split at h
    · next hleaf =>
      obtain ⟨-, -, h⟩ := of_bind h
      obtain ⟨hwalk, hcids⟩ := markValues_ok h
      have hnone : MarkState.Finds st.walk (pathChildren nodes item.path) [] st.walk := by
        rw [MarkState.pathChildren_leaf hload hleaf]
        exact .refl
      obtain ⟨hinv', hgrows⟩ := hvisit hnone (by simp)
      refine ⟨⟨?_, fun blob => ?_⟩, ?_⟩
      · rw [counted, hwalk]
        exact hinv'
      · rw [hcids, hinv.blobs, or_comm]
        simp only [mem_cons, exists_eq_or_imp, FrontierNode.path, RefersTo, hvals, hleaf, if_true]
      · rw [hwalk]
        exact hgrows
    · next hleaf =>
      unfold findChildren at h
      rw [hdigest] at h
      dsimp only at h
      split at h
      · cases h
      · next walk hwalk =>
        cases h
        obtain ⟨new, hfinds, hnew⟩ :=
          MarkState.findChildren_load hload (Bool.not_eq_true _ ▸ hleaf) hdigest hwalk
        obtain ⟨hinv', hgrows⟩ := hvisit hfinds hnew
        refine ⟨⟨hinv', fun blob => ?_⟩, hgrows⟩
        have hno : ¬RefersTo nodes item.cid blob := by
          rintro ⟨value, hvalue, -⟩
          rw [hvals, if_neg hleaf] at hvalue
          cases hvalue
        rw [hinv.blobs]
        simp only [mem_cons, exists_eq_or_imp, FrontierNode.path, hno, false_or]

theorem reachability_ok {reachability : BlobGcReachability}
    (h : st.reachability limits = .ok reachability) :
    reachability.liveBlobs = sortBlobRefs st.liveBlobs := by
  unfold BlobMarkState.reachability at h
  dsimp only at h
  split at h
  · cases h
  · obtain ⟨-, -, h⟩ := of_bind h
    cases h
    rfl

end BlobMarkState

@[simp] theorem mem_sortBlobRefs {blobs : List BlobRef} {reference : BlobRef} :
    reference ∈ sortBlobRefs blobs ↔ reference ∈ blobs :=
  (perm_insertionSort _ _).mem_iff

/-- The walk ends, and when it succeeds it has found the blobs that the trees refer to. -/
theorem markReachableBlobs_exact (d : Digests) (nodes : NodeBytes) (roots : List Tree) :
    ∃ result, (Enough fun fuel => markReachableBlobs d nodes roots fuel = some result) ∧
      ∀ reachability, result = .ok reachability →
        ∀ blob, blob ∈ reachability.liveBlobs.map BlobRef.cid ↔ Referenced nodes roots blob := by
  have hlimits : ¬(u64Max = 0 ∨ u64Max = 0 ∨ u64Max = 0 ∨ u64Max = 0) := by simp [u64Max]
  simp only [markReachableBlobs, markReachableBlobsWithLimits, if_neg hlimits]
  cases hroots : MarkState.findRoots d
      (BlobReachabilityLimits.walk ⟨u64Max, u64Max, u64Max, u64Max⟩) roots {} with
  | error error =>
    refine ⟨.error (.walk error), .of_forall fun _ => rfl, ?_⟩
    intro reachability hok
    cases hok
  | ok walk =>
    have hwalk := MarkState.Inv.start nodes hroots
    have hstart : ∃ done, BlobMarkState.Inv d nodes (MarkState.rootPaths d roots) []
        { walk } done := by
      refine ⟨[], ⟨hwalk.marks, ?_, ?_, hwalk.seenNodup, hwalk.digests⟩, ?_⟩
      · simp [BlobMarkState.counted]
      · simp [BlobMarkState.counted]
      · simp
    have hkeeps : (BlobMarkState.walking d ⟨u64Max, u64Max, u64Max, u64Max⟩).Keeps d nodes _
        (BlobMarkState.Inv d nodes (MarkState.rootPaths d roots)) :=
      ⟨BlobMarkState.Inv.markNode, fun format hinv => ⟨hinv.walk.batch format, hinv.blobs⟩,
        fun hinv => hinv.walk.seen_le⟩
    obtain ⟨result, hresult, hdone⟩ := hkeeps.run hstart
    refine ⟨_, hresult.mono fun fuel hfuel => by simp only [hfuel]; rfl, ?_⟩
    intro reachability hok blob
    cases result with
    | error error => cases hok
    | ok st =>
      obtain ⟨hfrontier, done, hinv⟩ := hdone st rfl
      have hmem : blob ∈ reachability.liveBlobs.map BlobRef.cid ↔
          blob ∈ st.liveBlobs.map BlobRef.cid := by
        rw [BlobMarkState.reachability_ok hok]
        simp
      rw [hmem, hinv.blobs]
      have hreach := hinv.walk.done_iff hroots hfrontier
      constructor
      · rintro ⟨⟨leaf, digest⟩, hpath, hrefers⟩
        exact ⟨leaf, (hreach leaf).mp ⟨digest, hpath⟩, hrefers⟩
      · rintro ⟨leaf, hleaf, hrefers⟩
        obtain ⟨digest, hpath⟩ := (hreach leaf).mpr hleaf
        exact ⟨_, hpath, hrefers⟩

/-- Two bounds under which the walk ends give the same answer. -/
theorem markReachableBlobs_unique {roots : List Tree} {fuel fuel' : Nat}
    {r r' : Except BlobError BlobGcReachability}
    (h : markReachableBlobs d nodes roots fuel = some r)
    (h' : markReachableBlobs d nodes roots fuel' = some r') : r = r' := by
  unfold markReachableBlobs markReachableBlobsWithLimits at h h'
  split at h
  · simp_all
  · split at h
    · simp_all
    · next hlimits _ walk hroots =>
      rw [if_neg hlimits, hroots] at h'
      obtain ⟨st, hst, rfl⟩ := Option.map_eq_some_iff.mp h
      obtain ⟨st', hst', rfl⟩ := Option.map_eq_some_iff.mp h'
      rw [WhileLoop.run_unique hst hst']

/-! ### Reads after a sweep -/

/-- A value that is read is a value of a leaf below the root. -/
theorem getFrom_value {fuel : Nat} {root : Cid} {key : Bytes}
    (h : (readerOf d format nodes).getFrom fuel root key = .ok (some value)) :
    ∃ leaf, Below nodes root leaf ∧ value ∈ leafValues nodes leaf := by
  induction fuel generalizing root with
  | zero => cases h
  | succ fuel ih =>
    unfold Manager.getFrom at h
    obtain ⟨node, hnode, h⟩ := of_bind h
    split at h
    · cases h
    · split at h
      · next hleaf =>
        refine ⟨root, .refl, ?_⟩
        rw [leafValues_of_store (Manager.loadArc_eq_ok.mp hnode).1, if_pos hleaf]
        have hvalue : Manager.leafValue node (Manager.childIndex node key) key = some value :=
          Except.ok.inj h
        unfold Manager.leafValue at hvalue
        split at hvalue
        · exact mem_of_getElem? hvalue
        · cases hvalue
      · next hleaf =>
        obtain ⟨child, hchild, h⟩ := of_bind h
        obtain ⟨leaf, hbelow, hvalue⟩ := ih h
        exact ⟨leaf, ReflTransGen.head (childCid_mem hnode (Bool.not_eq_true _ ▸ hleaf) hchild)
          hbelow, hvalue⟩

/-- A stored value is resolved to the same bytes while the blob it may refer to is the same. -/
theorem resolveStoredValue_congr (hread : blobStore'.readError = blobStore.readError)
    (h : ∀ reference, ValueRef.fromStoredBytes value = .ok (.blob reference) →
      blobStore'.blobs.get? reference.cid.bytes = blobStore.blobs.get? reference.cid.bytes) :
    resolveStoredValue d blobStore' value = resolveStoredValue d blobStore value := by
  unfold resolveStoredValue
  split
  · rfl
  · rfl
  · next reference href => simp only [BlobStore.getBlob, hread, h reference href]

/-- Every key of a tree has the same large value while the blobs that the tree refers to are the
same. -/
theorem getLargeValue_congr {roots : List Tree} {tree : Tree} (htree : tree ∈ roots)
    (hread : blobStore'.readError = blobStore.readError) (h : ∀ cid, Referenced nodes roots cid →
      blobStore'.blobs.get? cid.bytes = blobStore.blobs.get? cid.bytes) (fuel : Nat) (key : Bytes) :
    (readerOf d tree.format nodes).getLargeValue blobStore' fuel tree key =
      (readerOf d tree.format nodes).getLargeValue blobStore fuel tree key := by
  unfold Manager.getLargeValue
  split
  · rfl
  · rfl
  · next value hvalue =>
    rw [resolveStoredValue_congr hread fun reference href => ?_]
    refine h reference.cid ?_
    unfold Manager.get at hvalue
    split at hvalue
    · cases hvalue
    · next root hroot =>
      obtain ⟨leaf, hbelow, hleaf⟩ := getFrom_value hvalue
      exact ⟨leaf, ⟨tree, htree, root, hroot, hbelow⟩, value, hleaf, reference.len, href⟩

/-! ### Sweeps -/

section Sweep

variable {d : Digests} {blobStore : BlobStore} {liveCids : List Cid} {reference : BlobRef}
  {st st1 : BlobPlanState} {references : List BlobRef}

theorem getBlob_ok {found : Option Bytes} (h : blobStore.getBlob reference = .ok found) :
    found = blobStore.blobs.get? reference.cid.bytes := by
  unfold BlobStore.getBlob at h
  split at h
  · next hnone =>
    cases h
    exact hnone.symm
  · next bytes hbytes =>
    split at h
    · cases h
    · cases h
      exact hbytes.symm

/-- What is reclaimable has been seen, and counts once. -/
def BlobPlanState.Counted (st : BlobPlanState) : Prop :=
  (st.reclaimableBlobs.map BlobRef.cid).Nodup ∧
    ∀ cid ∈ st.reclaimableBlobs.map BlobRef.cid, cid ∈ st.seenCandidates

/-- A candidate is reclaimable if it is there and not live. One seen before does not count. -/
theorem BlobPlanState.candidate_ok (h : st.candidate d blobStore liveCids reference = .ok st1)
    (hst : st.Counted) :
    st1.Counted ∧
    (∀ cid, cid ∈ st1.seenCandidates ↔ cid = reference.cid ∨ cid ∈ st.seenCandidates) ∧
    ∀ cid, cid ∈ st1.reclaimableBlobs.map BlobRef.cid ↔
      cid ∈ st.reclaimableBlobs.map BlobRef.cid ∨
        cid = reference.cid ∧ cid ∉ st.seenCandidates ∧ cid ∉ liveCids ∧
          (blobStore.blobs.get? cid.bytes).isSome := by
  obtain ⟨hnodup, hseen⟩ := hst
  unfold candidate at h
  split at h
  · next hold =>
    cases h
    exact ⟨⟨hnodup, hseen⟩, fun cid => by grind, fun cid => by grind⟩
  · next hnew =>
    dsimp only at h
    split at h
    · next hlive =>
      cases h
      exact ⟨⟨hnodup, fun cid hcid => .tail _ (hseen cid hcid)⟩,
        fun cid => mem_cons, fun cid => by grind⟩
    · next hlive =>
      split at h
      · cases h
      · next hget =>
        cases h
        have hmissing := (getBlob_ok hget).symm
        exact ⟨⟨hnodup, fun cid hcid => .tail _ (hseen cid hcid)⟩,
          fun cid => mem_cons, fun cid => by grind⟩
      · next bytes hget =>
        split at h
        · cases h
        · cases h
          have hthere := (getBlob_ok hget).symm
          refine ⟨⟨?_, ?_⟩, fun cid => mem_cons, fun cid => ?_⟩
          · rw [map_cons, nodup_cons]
            exact ⟨fun hcid => hnew (hseen _ hcid), hnodup⟩
          · rw [map_cons, forall_mem_cons]
            exact ⟨mem_cons_self, fun cid hcid => .tail _ (hseen cid hcid)⟩
          · rw [map_cons, mem_cons]
            grind

/-- The reclaimable candidates are those that are there and not live. -/
theorem BlobPlanState.candidates_ok
    (h : BlobPlanState.candidates d blobStore liveCids references st = .ok st1) (hst : st.Counted) :
    st1.Counted ∧ ∀ cid, cid ∈ st1.reclaimableBlobs.map BlobRef.cid ↔
      cid ∈ st.reclaimableBlobs.map BlobRef.cid ∨
        cid ∈ references.map BlobRef.cid ∧ cid ∉ st.seenCandidates ∧ cid ∉ liveCids ∧
          (blobStore.blobs.get? cid.bytes).isSome := by
  induction references generalizing st with
  | nil =>
    cases h
    exact ⟨hst, fun cid => by simp⟩
  | cons reference references ih =>
    unfold candidates at h
    split at h
    · cases h
    · next st' hcandidate =>
      obtain ⟨hst', hseen, hcids⟩ := candidate_ok hcandidate hst
      obtain ⟨hst1, hcids1⟩ := ih h hst'
      refine ⟨hst1, fun cid => ?_⟩
      rw [hcids1, hcids, hseen, map_cons, mem_cons]
      tauto

/-- The candidate can be collected unless a blob is live or missing: it reads, validates and is
deleted without an error. -/
def BlobRef.Collectable (d : Digests) (blobStore : BlobStore) (reference : BlobRef) : Prop :=
  ∀ bytes ∈ blobStore.blobs.get? reference.cid.bytes,
    blobStore.readError reference bytes = none ∧ reference.validateBytes d bytes = .ok () ∧
      blobStore.deleteError reference = none

theorem BlobPlanState.candidates_succeed
    (h : ∀ reference ∈ references, reference.cid ∉ liveCids → reference.Collectable d blobStore)
    (hst : ∀ reference ∈ st.reclaimableBlobs, blobStore.deleteError reference = none) :
    ∃ st1, BlobPlanState.candidates d blobStore liveCids references st = .ok st1 ∧
      ∀ reference ∈ st1.reclaimableBlobs, blobStore.deleteError reference = none := by
  induction references generalizing st with
  | nil => exact ⟨st, rfl, hst⟩
  | cons reference references ih =>
    obtain ⟨hreference, hrest⟩ := forall_mem_cons.mp h
    obtain ⟨st', hcandidate, hst'⟩ : ∃ st', st.candidate d blobStore liveCids reference = .ok st' ∧
        ∀ reference ∈ st'.reclaimableBlobs, blobStore.deleteError reference = none := by
      unfold candidate
      split
      · exact ⟨st, rfl, hst⟩
      · dsimp only
        split
        · exact ⟨_, rfl, hst⟩
        · next hlive =>
          unfold BlobStore.getBlob
          cases hbytes : blobStore.blobs.get? reference.cid.bytes with
          | none => exact ⟨_, rfl, hst⟩
          | some bytes =>
            obtain ⟨hread, hvalid, hdelete⟩ := hreference hlive bytes hbytes
            simp only [hread, hvalid]
            exact ⟨_, rfl, forall_mem_cons.mpr ⟨hdelete, hst⟩⟩
    obtain ⟨st1, hcandidates, hst1⟩ := ih hrest hst'
    exact ⟨st1, by rw [candidates, hcandidate]; exact hcandidates, hst1⟩

theorem deleteBlobs_succeed {blobStore : BlobStore}
    (h : ∀ reference ∈ references, blobStore.deleteError reference = none) :
    (deleteBlobs references blobStore).1 = .ok () := by
  induction references generalizing blobStore with
  | nil => rfl
  | cons reference references ih =>
    obtain ⟨hreference, hrest⟩ := forall_mem_cons.mp h
    rw [deleteBlobs, hreference]
    exact ih hrest

/-- Whether or not all deletions succeed, only the blobs of the list may go. -/
theorem deleteBlobs_kept (references : List BlobRef) (blobStore : BlobStore) :
    (deleteBlobs references blobStore).2.readError = blobStore.readError ∧
      ∀ key, key ∉ references.map (·.cid.bytes) →
        (deleteBlobs references blobStore).2.blobs.get? key = blobStore.blobs.get? key := by
  induction references generalizing blobStore with
  | nil => exact ⟨rfl, fun _ _ => rfl⟩
  | cons reference references ih =>
    unfold deleteBlobs
    split
    · exact ⟨rfl, fun _ _ => rfl⟩
    · obtain ⟨hread, hkept⟩ := ih (blobStore.deleteBlob reference)
      refine ⟨hread, fun key hkey => ?_⟩
      rw [map_cons, mem_cons, not_or] at hkey
      rw [hkept key hkey.2, BlobStore.deleteBlob, SortedMap.get?_erase, if_neg (Ne.symm hkey.1)]

theorem deleteBlobs_ok {blobStore : BlobStore} {u : Unit}
    (h : (deleteBlobs references blobStore).1 = .ok u) :
    ∀ key, (deleteBlobs references blobStore).2.blobs.get? key =
      if key ∈ references.map (·.cid.bytes) then none else blobStore.blobs.get? key := by
  induction references generalizing blobStore with
  | nil => simp [deleteBlobs]
  | cons reference references ih =>
    intro key
    unfold deleteBlobs at h ⊢
    split at h
    · cases h
    · next hdelete =>
      rw [ih h key, BlobStore.deleteBlob, SortedMap.get?_erase]
      grind

/-- What a plan reclaims. -/
theorem BlobGcPlan.of_ok {candidates : List BlobRef} {reachability : BlobGcReachability}
    {plan : BlobGcPlan} (h : BlobGcPlan.of d blobStore candidates reachability = .ok plan) :
    (plan.reclaimableBlobs.map BlobRef.cid).Nodup ∧
      plan.reclaimableBlobCount = plan.reclaimableBlobs.length ∧
      ∀ cid, cid ∈ plan.reclaimableBlobs.map BlobRef.cid ↔
        cid ∈ candidates.map BlobRef.cid ∧ (blobStore.blobs.get? cid.bytes).isSome ∧
          cid ∉ reachability.liveBlobs.map BlobRef.cid := by
  unfold BlobGcPlan.of at h
  cases hst : BlobPlanState.candidates d blobStore (reachability.liveBlobs.map BlobRef.cid)
      candidates {} with
  | error error =>
    rw [hst] at h
    cases h
  | ok st =>
    rw [hst] at h
    cases h
    obtain ⟨⟨hnodup, -⟩, hcids⟩ := BlobPlanState.candidates_ok hst ⟨by simp, by simp⟩
    have hperm : (sortBlobRefs st.reclaimableBlobs).Perm st.reclaimableBlobs :=
      perm_insertionSort _ _
    refine ⟨(hperm.map _).nodup_iff.mpr hnodup, hperm.length_eq.symm, fun cid => ?_⟩
    rw [(hperm.map BlobRef.cid).mem_iff, hcids]
    simp
    tauto

/-- A plan whose deletions succeed. -/
theorem BlobGcPlan.of_succeeds {candidates : List BlobRef} {reachability : BlobGcReachability}
    (h : ∀ reference ∈ candidates, reference.cid ∉ reachability.liveBlobs.map BlobRef.cid →
      reference.Collectable d blobStore) :
    ∃ plan, BlobGcPlan.of d blobStore candidates reachability = .ok plan ∧
      (deleteBlobs plan.reclaimableBlobs blobStore).1 = .ok () := by
  obtain ⟨st, hst, hdelete⟩ : ∃ st, BlobPlanState.candidates d blobStore _ candidates {} =
    .ok st ∧ _ := BlobPlanState.candidates_succeed h (by simp)
  refine ⟨_, by rw [BlobGcPlan.of, hst]; rfl, deleteBlobs_succeed fun r hr => ?_⟩
  exact hdelete r (mem_sortBlobRefs.mp hr)

end Sweep

/-- For every node store, blob store, trees and candidates: a sweep ends. When it succeeds it has
removed the candidates that are stored and that no value of the trees refers to, each counted once,
and no other key; it succeeds if the walk does and every candidate that no value refers to can be
collected. Whether it succeeds or not, the blobs that the trees refer to are as they were, so that
every key of every tree has the large value it had. -/
theorem sweepBlobGc_exact (d : Digests) (nodes : NodeBytes) (blobStore : BlobStore)
    (roots : List Tree) (candidates : List BlobRef) :
    ∃ answer blobStore', (Enough fun fuel =>
        sweepBlobGc d nodes blobStore roots candidates fuel = some (answer, blobStore')) ∧
      (∀ sweep, answer = .ok sweep →
        ∃ removed : List Cid, removed.Nodup ∧ sweep.deletedBlobs = removed.length ∧
          (∀ cid, cid ∈ removed ↔ cid ∈ candidates.map BlobRef.cid ∧
            (blobStore.blobs.get? cid.bytes).isSome ∧ ¬Referenced nodes roots cid) ∧
          ∀ key, blobStore'.blobs.get? key =
            if key ∈ removed.map Cid.bytes then none else blobStore.blobs.get? key) ∧
      ((∃ fuel reachability, markReachableBlobs d nodes roots fuel = some (.ok reachability)) →
        (∀ reference ∈ candidates, ¬Referenced nodes roots reference.cid →
          reference.Collectable d blobStore) → ∃ sweep, answer = .ok sweep) ∧
      (∀ cid, Referenced nodes roots cid →
        blobStore'.blobs.get? cid.bytes = blobStore.blobs.get? cid.bytes) ∧
      ∀ tree ∈ roots, ∀ fuel key,
        (readerOf d tree.format nodes).getLargeValue blobStore' fuel tree key =
          (readerOf d tree.format nodes).getLargeValue blobStore fuel tree key := by
  obtain ⟨result, hresult, hlive⟩ := markReachableBlobs_exact d nodes roots
  have hsucceeds : (∃ fuel reachability,
      markReachableBlobs d nodes roots fuel = some (.ok reachability)) →
      (∀ reference ∈ candidates, ¬Referenced nodes roots reference.cid →
        reference.Collectable d blobStore) →
      ∃ plan, result.bind (BlobGcPlan.of d blobStore candidates) = .ok plan ∧
        (deleteBlobs plan.reclaimableBlobs blobStore).1 = .ok () := by
    rintro ⟨fuel, reachability, hwalk⟩ hcollectable
    obtain ⟨N, hN⟩ := hresult
    obtain rfl := markReachableBlobs_unique hwalk (hN N (Nat.le_refl N))
    simp only [← hlive reachability rfl] at hcollectable
    exact BlobGcPlan.of_succeeds hcollectable
  cases hplan : result.bind (BlobGcPlan.of d blobStore candidates) with
  | error error =>
    refine ⟨.error error, blobStore, hresult.mono fun fuel hfuel => ?_, nofun, fun hwalk hall => ?_,
      fun _ _ => rfl, fun _ _ _ _ => rfl⟩
    · simp only [sweepBlobGc, planBlobGc, hfuel, Option.map_some, hplan]
    · obtain ⟨plan, hok, -⟩ := hsucceeds hwalk hall
      rw [hplan] at hok
      cases hok
  | ok plan =>
    refine ⟨_, _, hresult.mono fun fuel hfuel => by
      simp only [sweepBlobGc, planBlobGc, hfuel, Option.map_some, hplan]; rfl, ?_⟩
    obtain ⟨reachability, rfl, hof⟩ : ∃ reachability, result = .ok reachability ∧
        BlobGcPlan.of d blobStore candidates reachability = .ok plan := of_bind hplan
    obtain ⟨hnodup, hcount, hcids⟩ := BlobGcPlan.of_ok hof
    simp only [hlive reachability rfl] at hcids
    have hbytes : ∀ references : List BlobRef,
        (references.map BlobRef.cid).map Cid.bytes = references.map (·.cid.bytes) := by simp
    obtain ⟨hread, hkept⟩ := deleteBlobs_kept plan.reclaimableBlobs blobStore
    have hreferenced : ∀ cid, Referenced nodes roots cid →
        (deleteBlobs plan.reclaimableBlobs blobStore).2.blobs.get? cid.bytes =
          blobStore.blobs.get? cid.bytes := by
      intro cid hcid
      refine hkept _ fun hmem => ?_
      rw [← hbytes] at hmem
      obtain ⟨cid', hcid', hsame⟩ := mem_map.mp hmem
      obtain rfl : cid' = cid := Cid.ext hsame
      exact ((hcids cid').mp hcid').2.2 hcid
    refine ⟨fun sweep hsweep => ?_, fun hwalk hall => ?_, hreferenced, fun tree htree fuel key =>
      getLargeValue_congr htree hread hreferenced fuel key⟩
    · cases hdeleted : (deleteBlobs plan.reclaimableBlobs blobStore).1 with
      | error error =>
        rw [hdeleted] at hsweep
        cases hsweep
      | ok u =>
        rw [hdeleted] at hsweep
        cases hsweep
        refine ⟨plan.reclaimableBlobs.map BlobRef.cid, hnodup, by simp [hcount], hcids, ?_⟩
        rw [hbytes]
        exact deleteBlobs_ok hdeleted
    · obtain ⟨plan', hok, hdeleted⟩ := hsucceeds hwalk hall
      rw [hplan] at hok
      cases hok
      rw [hdeleted]
      exact ⟨_, rfl⟩

/-! ### A store with two blobs -/

namespace TwoBlobs

def digests : Digests := ⟨fun bytes => .filled bytes.length.toUInt8, fun _ _ => 0⟩

/-- The blobs `1` and `22`. -/
def kept : BlobRef := ⟨.filled 1, 1⟩
def garbage : BlobRef := ⟨.filled 2, 2⟩

def blobs : BlobStore :=
  ⟨(SortedMap.empty.insert kept.cid.bytes [49]).insert garbage.cid.bytes [50, 50],
    fun _ _ => none, fun _ => none⟩

/-- A leaf that refers to the first. -/
def leaf : Node where
  keys := [[97]]
  vals := [valueRefMagic ++ [valueRefVersion, valueRefBlob] ++ kept.cid.bytes ++
    [0, 0, 0, 0, 0, 0, 0, 1]]

def stored : NodeBytes := SortedMap.empty.insert (leaf.cid digests).bytes leaf.toBytes

def tree : Tree := ⟨some (leaf.cid digests), {}⟩

theorem walk_eq : markReachableBlobs digests stored [tree] 2 = some (.ok ⟨[kept], 1, 1, 1, 1⟩) := by
  decide +kernel

end TwoBlobs

section

open TwoBlobs

/-- A sweep that keeps a blob and removes the other one. -/
theorem sweepBlobGc_exact_removes :
    ((sweepBlobGc digests stored blobs [tree] [kept, garbage] 2).map fun (answer, after) =>
      (answer.toOption.map BlobGcSweep.deletedBlobs, after.blobs.get? kept.cid.bytes,
        after.blobs.get? garbage.cid.bytes)) = some (some 1, some [49], none) ∧
    ∃ sweep blobStore', Enough fun fuel =>
      sweepBlobGc digests stored blobs [tree] [kept, garbage] fuel =
        some (.ok sweep, blobStore') := by
  refine ⟨by decide +kernel, ?_⟩
  obtain ⟨answer, blobStore', hanswer, -, hok, -⟩ :=
    sweepBlobGc_exact digests stored blobs [tree] [kept, garbage]
  have hcollectable : ∀ reference ∈ [kept, garbage], reference.Collectable digests blobs := by
    unfold BlobRef.Collectable
    decide +kernel
  obtain ⟨sweep, rfl⟩ := hok ⟨2, _, walk_eq⟩ fun reference h _ => hcollectable reference h
  exact ⟨sweep, blobStore', hanswer⟩

/-- A candidate that is stored and that no value refers to, with a length that is not its own: the
sweep fails and removes nothing. -/
theorem sweepBlobGc_wrong_length :
    (blobs.blobs.get? garbage.cid.bytes).isSome ∧ ¬Referenced stored [tree] garbage.cid ∧
    Enough fun fuel => sweepBlobGc digests stored blobs [tree] [⟨garbage.cid, 3⟩] fuel =
      some (.error (.engine (valueRefError "blob length does not match reference")), blobs) := by
  obtain ⟨result, hresult, hlive⟩ := markReachableBlobs_exact digests stored [tree]
  obtain ⟨N, hN⟩ := hresult
  obtain rfl := markReachableBlobs_unique walk_eq (hN N (Nat.le_refl N))
  refine ⟨by decide, ?_, N, fun fuel hfuel => ?_⟩
  · rw [← hlive _ rfl]
    decide
  · simp only [sweepBlobGc, planBlobGc, hN fuel hfuel, Option.map_some]
    rfl

end

end Prolly
