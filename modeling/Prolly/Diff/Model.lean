import Prolly.Store
import Prolly.Lib.StackLoop

/-!
# Prolly.Diff.Model

Tree comparison (`diff.rs`): the eager diff, its range-bounded form, and the
resumable iterator behind structural diff pages.

A traversal keeps a stack of frames; stacks are lists with the top first, so
`stack.extend(frames.into_iter().rev())` puts `frames` in front. Every
`while let Some(x) = stack.pop()` is a `StackLoop.run` of the loop's body.
Functions that push to `&mut Vec<Diff>` return what they push. Loops over two
index variables are recursions on the two remaining lists, one pointer outside
the other.
-/

namespace Prolly

open SortedAssoc (Diff.added Diff.removed)

/-- `DiffFrame`. -/
inductive DiffFrame where
  | compare (baseCid otherCid : Cid) (spanEnd : Option Bytes)
  | added (cid : Cid)
  | removed (cid : Cid)
  deriving DecidableEq

/-- `DiffFrameKind`. -/
inductive DiffFrameKind where
  | added
  | removed
  deriving DecidableEq

namespace DiffFrameKind

def frame : DiffFrameKind → Cid → DiffFrame
  | added, cid => .added cid
  | removed, cid => .removed cid

def diff : DiffFrameKind → Entry → Diff
  | added, e => .added e.1 e.2
  | removed, e => .removed e.1 e.2

end DiffFrameKind

/-- `initial_diff_stack`. -/
def initialDiffStack (base other : Tree) : List DiffFrame :=
  match base.root, other.root with
  | some baseCid, some otherCid =>
    if baseCid ≠ otherCid then [.compare baseCid otherCid none] else []
  | some baseCid, none => [.removed baseCid]
  | none, some otherCid => [.added otherCid]
  | none, none => []

/-- `diff_entry_slices`. -/
def diffEntrySlices (base other : List Entry) : List Diff := SortedAssoc.diff base other

/-- `diff_leaf_nodes`. -/
def diffLeafNodes (base other : Node) : Result (List Diff) := do
  base.ensureValueCount
  other.ensureValueCount
  return diffEntrySlices base.entries other.entries

/-! ### Child spans -/

/-- A child of an internal node with the span of keys it is responsible for:
`keys[idx]`, `child_span_end(node, idx, span_end)` and `vals[idx]`. -/
structure ChildSpan where
  start : Bytes
  stop : Option Bytes
  child : Bytes

/-- The children of a node, each span ending where the next one starts and the last
one at `spanEnd`. -/
def childSpansOf : List Bytes → List Bytes → Option Bytes → List ChildSpan
  | k :: ks, v :: vs, spanEnd => ⟨k, ks.head?.or spanEnd, v⟩ :: childSpansOf ks vs spanEnd
  | _, _, _ => []

def Node.childSpans (n : Node) (spanEnd : Option Bytes) : List ChildSpan :=
  childSpansOf n.keys n.vals spanEnd

/-- `span_ends_before_or_at` and `range_ends_before_or_at`. -/
def endsBeforeOrAt (stop : Option Bytes) (start : Bytes) : Bool :=
  match stop with
  | none => false
  | some stop => stop ≤ start

/-- `span_overlaps_range`. -/
def ChildSpan.overlaps (s : ChildSpan) (rangeStart : Bytes) (rangeEnd : Option Bytes) : Bool :=
  !endsBeforeOrAt s.stop rangeStart && !endsBeforeOrAt rangeEnd s.start

/-- `key_in_range`. -/
def keyInRange (start : Bytes) (stop : Option Bytes) (key : Bytes) : Bool :=
  start ≤ key && match stop with
    | some stop => key < stop
    | none => true

/-- `lower_bound`. -/
def lowerBound (keys : List Bytes) (key : Bytes) : Nat := (keys.takeWhile (· < key)).length

/-- The frames of one kind for the remaining children. -/
def childFrames (kind : DiffFrameKind) : List ChildSpan → Result (List DiffFrame)
  | [] => .ok []
  | s :: spans => do
      let cid ← childCidFromBytes s.child
      return kind.frame cid :: (← childFrames kind spans)

/-! ### Collecting subtrees -/

namespace Manager

variable (p : Manager) (fuel : Nat) (base other : Node)

/-- One iteration of `collect_entries_from_node_async`. -/
def collectEntriesStep (node : Node) : Result (List Node × List Entry) :=
  if node.leaf then do
    node.ensureValueCount
    return ([], node.entries)
  else do
    return (← (← node.childCids).mapM p.loadArc, [])

/-- `collect_entries_from_node_async`. -/
def collectEntries (node : Node) : Result (List Entry) :=
  StackLoop.run .outOfFuel p.collectEntriesStep fuel [node]

/-- `diff_collected_nodes_async`. -/
def diffCollectedNodes : Result (List Diff) := do
  let baseEntries ← p.collectEntries fuel base
  let otherEntries ← p.collectEntries fuel other
  return diffEntrySlices baseEntries otherEntries

/-- One iteration of `collect_added_cids_async`. -/
def collectAddedStep (cid : Cid) : Result (List Cid × List Diff) := do
  let node ← p.loadArc cid
  if node.leaf then
    node.ensureValueCount
    return ([], node.entries.map DiffFrameKind.added.diff)
  else return (← node.childCids, [])

/-- `collect_added_cids_async`. -/
def collectAddedCids (cids : List Cid) : Result (List Diff) :=
  StackLoop.run .outOfFuel p.collectAddedStep fuel cids

/-! ### The append-only comparison -/

/-- The children before the right edge: same keys and same identifiers. -/
def sameChildren : List Entry → List Entry → Result Bool
  | (k, c) :: bs, (k', c') :: os =>
    if k ≠ k' then .ok false
    else do
      let baseCid ← childCidFromBytes c
      let otherCid ← childCidFromBytes c'
      if baseCid ≠ otherCid then return false else sameChildren bs os
  | _, _ => .ok true

/-- The loop of `append_only_diff_nodes_async`: walk down the right edge of `base`.
`none` is `return Ok(false)`; otherwise the entries added in the last leaf and the
stack of added children still to be collected. -/
def appendOnlyLoop (p : Manager) :
    Nat → Node → Node → List (List Cid) → Result (Option (List Diff × List (List Cid)))
  | 0, _, _, _ => .error .outOfFuel
  | fuel + 1, base, other, pendingAdded =>
    if other.level > base.level then
      if other.leaf || other.isEmpty then .ok none
      else do
        other.ensureValueCount
        let firstChild ← other.childCid 0
        let added ← (other.vals.drop 1).mapM childCidFromBytes
        p.appendOnlyLoop fuel base (← p.loadArc firstChild) (added :: pendingAdded)
    else if base.level ≠ other.level ∨ base.leaf ≠ other.leaf ∨ other.len < base.len then .ok none
    else if base.leaf then do
      base.ensureValueCount
      other.ensureValueCount
      if base.entries ≠ other.entries.take base.len then return none
      return some ((other.entries.drop base.len).map DiffFrameKind.added.diff, pendingAdded)
    else if base.isEmpty then do
      other.ensureValueCount
      return some ([], (← other.childCids) :: pendingAdded)
    else do
      base.ensureValueCount
      other.ensureValueCount
      let rightEdge := base.len - 1
      let same ← sameChildren (base.entries.take rightEdge) (other.entries.take rightEdge)
      if !same then return none
      if base.keys[rightEdge]? ≠ other.keys[rightEdge]? then return none
      let added ← (other.vals.drop base.len).mapM childCidFromBytes
      let baseChild ← base.childCid rightEdge
      let otherChild ← other.childCid rightEdge
      if baseChild = otherChild then return some ([], added :: pendingAdded)
      p.appendOnlyLoop fuel (← p.loadArc baseChild) (← p.loadArc otherChild)
        (added :: pendingAdded)

/-- `append_only_diff_nodes_async`: the diff if `other` only appends to `base`. -/
def appendOnlyDiffNodes : Result (Option (List Diff)) := do
  match ← p.appendOnlyLoop fuel base other [] with
  | none => return none
  | some (diffs, pendingAdded) =>
    let added ← pendingAdded.mapM (p.collectAddedCids fuel)
    return some (diffs ++ added.flatten)

/-- What every unaligned comparison falls back to. -/
def diffUnaligned : Result (List Diff) := do
  match ← p.appendOnlyDiffNodes fuel base other with
  | some diffs => return diffs
  | none => p.diffCollectedNodes fuel base other

/-! ### Frames -/

/-- The identifiers a frame will load. -/
def frameCids : DiffFrame → List Cid
  | .compare baseCid otherCid _ => [baseCid, otherCid]
  | .added cid => [cid]
  | .removed cid => [cid]

/-- `prefetch_async_diff_frame_roots`: loads that fail make the diff fail. -/
def prefetchFrames (frames : List DiffFrame) : Result Unit :=
  if frames.length ≤ 1 || !p.prefersBatchReads then .ok ()
  else do
    let _ ← (frames.flatMap frameCids).mapM p.loadArc
    return ()

end Manager

/-- One run of the outer pointer of `enqueue_async_internal_diff`: the base child `b` is
held while children of the other node are consumed. `none` means that two spans
overlap without being equal. -/
def alignStep (b : ChildSpan) (bs : List ChildSpan)
    (rest : List ChildSpan → Result (Option (List DiffFrame))) :
    List ChildSpan → Result (Option (List DiffFrame))
  | [] => do return some (← childFrames .removed (b :: bs))
  | o :: os =>
    if b.start = o.start ∧ b.stop = o.stop then do
      let baseCid ← childCidFromBytes b.child
      let otherCid ← childCidFromBytes o.child
      let frames ← rest os
      if baseCid ≠ otherCid then
        return frames.map (.compare baseCid otherCid b.stop :: ·)
      else return frames
    else if endsBeforeOrAt b.stop o.start then do
      let baseCid ← childCidFromBytes b.child
      return (← rest (o :: os)).map (.removed baseCid :: ·)
    else if endsBeforeOrAt o.stop b.start then do
      let otherCid ← childCidFromBytes o.child
      return (← alignStep b bs rest os).map (.added otherCid :: ·)
    else .ok none

/-- The loops of `enqueue_async_internal_diff` over the children of both nodes. -/
def alignFrames : List ChildSpan → List ChildSpan → Result (Option (List DiffFrame))
  | [], os => do return some (← childFrames .added os)
  | b :: bs, os => alignStep b bs (alignFrames bs) os

namespace Manager

/-- `enqueue_async_internal_diff`: the frames it pushes and the diffs it emits. -/
def enqueueInternalDiff (p : Manager) (fuel : Nat) (base other : Node) (spanEnd : Option Bytes) :
    Result (List DiffFrame × List Diff) := do
  base.ensureValueCount
  other.ensureValueCount
  match ← alignFrames (base.childSpans spanEnd) (other.childSpans spanEnd) with
  | some frames =>
    p.prefetchFrames frames
    return (frames, [])
  | none => return ([], ← p.diffUnaligned fuel base other)

/-- `process_async_diff_compare`. -/
def processDiffCompare (p : Manager) (fuel : Nat) (baseCid otherCid : Cid)
    (spanEnd : Option Bytes) : Result (List DiffFrame × List Diff) :=
  if baseCid = otherCid then .ok ([], [])
  else do
    let base ← p.loadArc baseCid
    let other ← p.loadArc otherCid
    if base.leaf && other.leaf then return ([], ← diffLeafNodes base other)
    else if !base.leaf && !other.leaf && base.level = other.level then
      p.enqueueInternalDiff fuel base other spanEnd
    else return ([], ← p.diffUnaligned fuel base other)

/-- `process_async_added` and `process_async_removed`. -/
def processSubtree (p : Manager) (kind : DiffFrameKind) (cid : Cid) :
    Result (List DiffFrame × List Diff) := do
  let node ← p.loadArc cid
  if node.leaf then
    node.ensureValueCount
    return ([], node.entries.map kind.diff)
  else
    let frames := (← node.childCids).map kind.frame
    p.prefetchFrames frames
    return (frames, [])

/-- One iteration of the traversal: the frames a frame is replaced by, and the diffs it
emits. -/
def processFrame (p : Manager) (fuel : Nat) : DiffFrame → Result (List DiffFrame × List Diff)
  | .compare baseCid otherCid spanEnd => p.processDiffCompare fuel baseCid otherCid spanEnd
  | .added cid => p.processSubtree .added cid
  | .removed cid => p.processSubtree .removed cid

/-- `compute_async_diff`. -/
def computeDiff (p : Manager) (fuel : Nat) (base other : Tree) : Result (List Diff) :=
  StackLoop.run .outOfFuel (p.processFrame fuel) fuel (initialDiffStack base other)

end Manager

/-! ### The range diff -/

/-- `RangeDiffFrame`. -/
inductive RangeDiffFrame where
  | compare (baseCid otherCid : Cid) (spanEnd : Option Bytes)
  | added (cid : Cid) (spanEnd : Option Bytes)
  | removed (cid : Cid) (spanEnd : Option Bytes)
  deriving DecidableEq

def DiffFrameKind.rangeFrame : DiffFrameKind → Option Bytes × Cid → RangeDiffFrame
  | .added, (spanEnd, cid) => .added cid spanEnd
  | .removed, (spanEnd, cid) => .removed cid spanEnd

/-- The bounds `start..end` of a range operation; no end means unbounded. -/
structure KeyRange where
  start : Bytes
  stop : Option Bytes

/-- The entries a leaf loop visits: from `lower_bound(start)` on, while the key is in
the range. -/
def Node.entriesInRange (n : Node) (r : KeyRange) : List Entry :=
  (n.entries.drop (lowerBound n.keys r.start)).takeWhile fun e => keyInRange r.start r.stop e.1

/-- `diff_leaf_nodes_range`: both pointers stop at their first key outside the range. -/
def diffLeafNodesRange (r : KeyRange) (base other : Node) : Result (List Diff) := do
  base.ensureValueCount
  other.ensureValueCount
  return diffEntrySlices (base.entriesInRange r) (other.entriesInRange r)

/-- The loop that keeps the children whose span overlaps the range, with their span
ends. It stops at the first child past the range. -/
def overlapping (r : KeyRange) : List ChildSpan → Result (List (Option Bytes × Cid))
  | [] => .ok []
  | s :: spans =>
    if s.overlaps r.start r.stop then do
      let cid ← childCidFromBytes s.child
      return (s.stop, cid) :: (← overlapping r spans)
    else if endsBeforeOrAt r.stop s.start then .ok []
    else overlapping r spans

/-- `first_potentially_overlapping_child_index`. -/
def Node.firstOverlapping (n : Node) (r : KeyRange) : Nat := lowerBound n.keys r.start - 1

/-- The end of `potentially_overlapping_child_index_range`. -/
def Node.lastOverlapping (n : Node) (r : KeyRange) : Nat :=
  let stop := match r.stop with
    | some stop => lowerBound n.keys stop
    | none => n.len
  min (max stop (n.firstOverlapping r)) n.len

/-- `overlapping_child_cids`. -/
def Node.overlappingChildCids (n : Node) (r : KeyRange) (spanEnd : Option Bytes) :
    Result (List (Option Bytes × Cid)) := do
  n.ensureValueCount
  overlapping r (((n.childSpans spanEnd).take (n.lastOverlapping r)).drop (n.firstOverlapping r))

/-- One run of the outer pointer of `enqueue_async_internal_range_diff`. -/
def alignRangeStep (r : KeyRange) (b : ChildSpan) (bs : List ChildSpan)
    (rest : List ChildSpan → Result (Option (List RangeDiffFrame))) :
    List ChildSpan → Result (Option (List RangeDiffFrame))
  | [] => do return some ((← overlapping r (b :: bs)).map DiffFrameKind.removed.rangeFrame)
  | o :: os =>
    if endsBeforeOrAt b.stop r.start then rest (o :: os)
    else if endsBeforeOrAt o.stop r.start then alignRangeStep r b bs rest os
    else if endsBeforeOrAt r.stop b.start && endsBeforeOrAt r.stop o.start then do
      -- `break`: the two loops after the merge
      let removed ← overlapping r (b :: bs)
      let added ← overlapping r (o :: os)
      return some (removed.map DiffFrameKind.removed.rangeFrame ++
        added.map DiffFrameKind.added.rangeFrame)
    else if b.start = o.start ∧ b.stop = o.stop then
      if b.overlaps r.start r.stop then do
        let baseCid ← childCidFromBytes b.child
        let otherCid ← childCidFromBytes o.child
        return (← rest os).map (.compare baseCid otherCid b.stop :: ·)
      else rest os
    else if endsBeforeOrAt b.stop o.start then
      if b.overlaps r.start r.stop then do
        let baseCid ← childCidFromBytes b.child
        return (← rest (o :: os)).map (.removed baseCid b.stop :: ·)
      else rest (o :: os)
    else if endsBeforeOrAt o.stop b.start then
      if o.overlaps r.start r.stop then do
        let otherCid ← childCidFromBytes o.child
        return (← alignRangeStep r b bs rest os).map (.added otherCid o.stop :: ·)
      else alignRangeStep r b bs rest os
    else .ok none

/-- The loops of `enqueue_async_internal_range_diff`. -/
def alignRange (r : KeyRange) :
    List ChildSpan → List ChildSpan → Result (Option (List RangeDiffFrame))
  | [], os => do return some ((← overlapping r os).map DiffFrameKind.added.rangeFrame)
  | b :: bs, os => alignRangeStep r b bs (alignRange r bs) os

namespace Manager

variable (p : Manager) (r : KeyRange) (fuel : Nat)

/-- One iteration of `collect_entries_range_from_node_async`. -/
def collectRangeStep : Node × Option Bytes → Result (List (Node × Option Bytes) × List Entry)
  | (node, spanEnd) =>
    if node.leaf then do
      node.ensureValueCount
      return ([], node.entriesInRange r)
    else do
      let children ← node.overlappingChildCids r spanEnd
      let nodes ← children.mapM fun c => p.loadArc c.2
      return (nodes.zip (children.map Prod.fst), [])

/-- `diff_collected_nodes_range_async`. -/
def diffCollectedNodesRange (base other : Node) (spanEnd : Option Bytes) : Result (List Diff) := do
  let baseEntries ← StackLoop.run .outOfFuel (p.collectRangeStep r) fuel [(base, spanEnd)]
  let otherEntries ← StackLoop.run .outOfFuel (p.collectRangeStep r) fuel [(other, spanEnd)]
  return diffEntrySlices baseEntries otherEntries

def rangeFrameCids : RangeDiffFrame → List Cid
  | .compare baseCid otherCid _ => [baseCid, otherCid]
  | .added cid _ => [cid]
  | .removed cid _ => [cid]

/-- `prefetch_async_range_frame_roots`. -/
def prefetchRangeFrames (frames : List RangeDiffFrame) : Result Unit :=
  if frames.length ≤ 1 || !p.prefersBatchReads then .ok ()
  else do
    let _ ← (frames.flatMap rangeFrameCids).mapM p.loadArc
    return ()

/-- `enqueue_async_internal_range_diff`. -/
def enqueueInternalRangeDiff (base other : Node) (spanEnd : Option Bytes)
    : Result (List RangeDiffFrame × List Diff) := do
  base.ensureValueCount
  other.ensureValueCount
  match ← alignRange r ((base.childSpans spanEnd).drop (base.firstOverlapping r))
      ((other.childSpans spanEnd).drop (other.firstOverlapping r)) with
  | some frames =>
    p.prefetchRangeFrames frames
    return (frames, [])
  | none => return ([], ← p.diffCollectedNodesRange r fuel base other spanEnd)

/-- `process_async_range_compare`. -/
def processRangeCompare (baseCid otherCid : Cid) (spanEnd : Option Bytes)
    : Result (List RangeDiffFrame × List Diff) :=
  if baseCid = otherCid then .ok ([], [])
  else do
    let base ← p.loadArc baseCid
    let other ← p.loadArc otherCid
    if base.leaf && other.leaf then return ([], ← diffLeafNodesRange r base other)
    else if !base.leaf && !other.leaf && base.level = other.level then
      p.enqueueInternalRangeDiff r fuel base other spanEnd
    else return ([], ← p.diffCollectedNodesRange r fuel base other spanEnd)

/-- `process_async_range_subtree`. -/
def processRangeSubtree (kind : DiffFrameKind) (cid : Cid) (spanEnd : Option Bytes)
    : Result (List RangeDiffFrame × List Diff) := do
  let node ← p.loadArc cid
  if node.leaf then
    node.ensureValueCount
    return ([], (node.entriesInRange r).map kind.diff)
  else
    let frames := (← node.overlappingChildCids r spanEnd).map kind.rangeFrame
    p.prefetchRangeFrames frames
    return (frames, [])

/-- One iteration of the range traversal. -/
def processRangeFrame : RangeDiffFrame → Result (List RangeDiffFrame × List Diff)
  | .compare baseCid otherCid spanEnd => p.processRangeCompare r fuel baseCid otherCid spanEnd
  | .added cid spanEnd => p.processRangeSubtree r .added cid spanEnd
  | .removed cid spanEnd => p.processRangeSubtree r .removed cid spanEnd

def initialRangeStack (base other : Tree) : List RangeDiffFrame :=
  match base.root, other.root with
  | some baseCid, some otherCid =>
    if baseCid ≠ otherCid then [.compare baseCid otherCid none] else []
  | some baseCid, none => [.removed baseCid none]
  | none, some otherCid => [.added otherCid none]
  | none, none => []

end Manager

/-- What one recorded mutation says about the range diff, given the value in `base`. -/
def lineageDiff (mutation : Mutation) (baseValue : Option Bytes) : List Diff :=
  match mutation, baseValue with
  | .upsert key val, some old => if old ≠ val then [.changed key old val] else []
  | .upsert key val, none => [.added key val]
  | .delete key, some val => [.removed key val]
  | .delete _, none => []

/-- `changes.partition_point(|mutation| mutation.key() < key)`. -/
def mutationLowerBound (changes : List Mutation) (key : Bytes) : Nat :=
  (changes.takeWhile (·.key < key)).length

/-- `&changes[first..last]`. -/
def selectedChanges (r : KeyRange) (changes : List Mutation) : List Mutation :=
  let first := mutationLowerBound changes r.start
  let last := match r.stop with
    | some stop => mutationLowerBound changes stop
    | none => changes.length
  (changes.take last).drop first

namespace Manager

/-- `branch_changes_since`. -/
def branchChangesSince (p : Manager) (base branch : Tree) : Option (List Mutation) :=
  (p.lineage.changesSince base.root branch.root).1

/-- `compute_async_range_diff`. -/
def computeRangeDiff (p : Manager) (fuel : Nat) (base other : Tree) (start : Bytes)
    (stop : Option Bytes) : Result (List Diff) :=
  if endsBeforeOrAt stop start then .ok []
  else
    match p.branchChangesSince base other with
    | some changes => do
        let selected := selectedChanges ⟨start, stop⟩ changes
        let values ← p.getMany fuel base (selected.map Mutation.key)
        return (List.zipWith lineageDiff selected values).flatten
    | none =>
      StackLoop.run .outOfFuel (p.processRangeFrame ⟨start, stop⟩ fuel) fuel
        (initialRangeStack base other)

end Manager

end Prolly
